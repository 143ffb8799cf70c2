import ObjcRuntime.ClassGraph

/-!
# What the steps of the class graph leave alone
-/

set_option autoImplicit false
namespace ObjcRuntime.ClassGraph

open MethodLookup (Sel Imp MethodImp Cache msgForwardImpcache)
open SiblingLists
open Function

variable {preopt:Bool} {s t u:State preopt} {prog:Program}

theorem modifyFlags_flags (c d:Cls) (f:Flags → Flags) :
 (s.modifyFlags c f).flags d=if d=c then f (s.flags c) else s.flags d :=
 update_apply ..

theorem eraseNolock_getImp (c d:Cls) (sel:Sel) :
 (eraseNolock c s).getImp d sel=if d=c then none else s.getImp d sel := by
 rw [State.getImp,show (eraseNolock c s).cache d =
  if d=c then (s.cache c).erase else s.cache d from update_apply ..]
 split
 · rw [Cache.getImp_erase]
 · rfl

def Flags.inherited (f:Flags) : Bool × Bool × Bool × Bool :=
 (f.hasCxxCtor,f.hasCxxDtor,f.hasCustomDeallocInitiation,f.forbidsAssociatedObjects)

/-- The graph and the inherited flags stay, caches lose entries at most, and only the classes of
`X` may have other methods. -/
structure Touched (X:Set Cls) (s t:State preopt) : Prop where
 links : t.links=s.links
 isa : t.isa=s.isa
 ro : t.ro=s.ro
 known : t.known=s.known
 realized : t.realized=s.realized
 initialized : t.initialized=s.initialized
 inherited : ∀c,(t.flags c).inherited=(s.flags c).inherited
 shrinks : ∀{c:Cls} {sel:Sel} {imp:Imp},t.getImp c sel=some imp → s.getImp c sel=some imp
 lists : ∀{c:Cls},c∉X → t.lists c=s.lists c

namespace Touched

variable {X Y:Set Cls}

theorem refl (X:Set Cls) (s:State preopt) : Touched X s s :=
 ⟨rfl,rfl,rfl,rfl,rfl,rfl,fun _=>rfl,id,fun _=>rfl⟩

theorem trans (h:Touched X s t) (h':Touched X t u) : Touched X s u where
 links := h'.links.trans h.links
 isa := h'.isa.trans h.isa
 ro := h'.ro.trans h.ro
 known := h'.known.trans h.known
 realized := h'.realized.trans h.realized
 initialized := h'.initialized.trans h.initialized
 inherited c := (h'.inherited c).trans (h.inherited c)
 shrinks hu := h.shrinks (h'.shrinks hu)
 lists hc := (h'.lists hc).trans (h.lists hc)

theorem superclass (h:Touched X s t) (c:Cls) : t.superclass c=s.superclass c := by
 rw [State.superclass,State.superclass,h.links]

theorem isMetaClass (h:Touched X s t) (c:Cls) : t.isMetaClass c=s.isMetaClass c := by
 rw [State.isMetaClass,State.isMetaClass,h.ro]

theorem isInitialized (h:Touched X s t) (c:Cls) : t.isInitialized c=s.isInitialized c := by
 rw [State.isInitialized,State.isInitialized,State.getMeta,State.getMeta,h.isMetaClass,h.isa,
  h.initialized]

end Touched

section Foreach

variable {code:Cls → State preopt → State preopt × Bool} {I:State preopt → Prop}

theorem foreach_invariant (hI:∀c s,I s → I (code c s).1) {top:Cls}
 (h:foreachRealizedClassAndSubclass top code s=some t) (hs:I s) : I t := by
 obtain ⟨⟨u,k⟩,hwalk,rfl⟩:=Option.map_eq_some_iff.mp h
 exact walk_invariant hI hwalk hs

theorem foreachAll_invariant (hI:∀c s,I s → I (code c s).1)
 (h:foreachRealizedClassAndMetaclass code s=some t) (hs:I s) : I t := by
 obtain ⟨⟨u,k⟩,hwalk,rfl⟩:=Option.map_eq_some_iff.mp h
 exact walkAll_invariant hI hwalk hs

theorem forBundles_invariant {f:Bundle → State preopt → Option (State preopt)}
 (hI:∀{b:Bundle} {u v:State preopt},f b u=some v → I u → I v)
 (h:forBundles f s=some t) (hs:I s) : I t := by
 obtain ⟨u,hu,h⟩:=Option.bind_eq_some_iff.mp h
 grind [Option.bind_eq_some_iff]

end Foreach

variable {isMeta replace:Bool} {m:MethodRef} {name:Sel} {imp:MethodImp}

section Scanners

variable {b:Bundle} {c cls:Cls} {I:State preopt → Prop}

structure Marks (b:Bundle) (I:State preopt → Prop) : Prop where
 custom : ∀{u:State preopt} (c:Cls),I u → I (setCustom b c u)
 swizzled : ∀{u:State preopt} (isMeta:Bool),I u → I (markSwizzled b isMeta u)

namespace Marks

theorem recursively (hI:Marks b I) (h:setCustomRecursively b cls s=some t) (hs:I s) : I t := by
 refine foreach_invariant (fun d u hu=>?_) h hs
 grind [hI.custom]

theorem nsObjectSwizzled (hI:Marks b I) (h:setNSObjectSwizzled b cls isMeta s=some t)
 (hs:I s) : I t := by grind [setNSObjectSwizzled,hI.recursively,hI.swizzled]

theorem addedSubClass (hI:Marks b I) {supercls:Cls}
 (h:scanAddedSubClass c supercls b s=some t) (hs:I s) : I t := by
 grind [scanAddedSubClass,hI.recursively]

theorem addedMethodLists (hI:Marks b I) {lists:List (List Method)}
 (h:scanAddedMethodLists prog cls lists b s=some t) (hs:I s) : I t := by
 rw [scanAddedMethodLists] at h
 grind [hI.recursively]

theorem inNSObject (hI:Marks b I) (h:swizzledInNSObject prog cls isMeta b s=some t)
 (hs:I s) : I t := by grind [swizzledInNSObject,hI.nsObjectSwizzled]

theorem changedMethod (hI:Marks b I) {cls:Option Cls}
 (h:scanChangedMethod prog cls m name b s=some t) (hs:I s) : I t := by
 unfold scanChangedMethod at h
 split at h
 · cases h
   exact hs
 cases cls with
 | none=>
  obtain ⟨u,hu,h⟩:=Option.bind_eq_some_iff.mp h
  grind [hI.inNSObject]
 | some c=>grind [hI.inNSObject]

end Marks

section Default

variable (hI:∀{u:State preopt} (c:Cls),I u → I (setDefault b c u))
include hI

theorem scanAddedClass_invariant (h:scanAddedClass prog b cls isMeta s=some t) (hs:I s) : I t := by
 obtain ⟨custom,-,rfl⟩:=Option.map_eq_some_iff.mp h
 split
 · exact hs
 · exact hI cls hs

theorem scanInitializedClass_invariant {metacls:Cls}
 (h:scanInitializedClass prog cls metacls b s=some t) (hs:I s) : I t := by
 obtain ⟨u,hu,h⟩:=Option.bind_eq_some_iff.mp h
 refine scanAddedClass_invariant hI h ?_
 split at hu
 · exact scanAddedClass_invariant hI hu hs
 · cases hu
   exact hs

end Default

section RawIsa

variable (hI:∀{u:State preopt} (c:Cls),I u → I (setInstancesRequireRawIsa c u))
include hI

theorem rawIsaRecursively_invariant (h:setInstancesRequireRawIsaRecursively c s=some t)
 (hs:I s) : I t := by
 rw [setInstancesRequireRawIsaRecursively] at h
 split at h
 · cases h
   exact hs
 · refine foreach_invariant (fun d u hu=>?_) h hs
   split
   · exact hu
   · exact hI d hu

theorem chooseRawIsa_invariant (h:chooseRawIsa cls s=some t) (hs:I s) : I t := by
 rw [chooseRawIsa] at h
 split at h
 · cases h
   exact hI cls hs
 split at h
 · exact rawIsaRecursively_invariant hI h hs
 · cases h
   exact hs

end RawIsa

variable {X:Set Cls}

theorem touched_modifyFlags {f:Flags → Flags} (hf:∀g,(f g).inherited=g.inherited) :
 Touched X s (s.modifyFlags c f) := by
 refine ⟨rfl,rfl,rfl,rfl,rfl,rfl,fun d=>?_,id,fun _=>rfl⟩
 grind [modifyFlags_flags]

theorem touched_setInstancesRequireRawIsa : Touched X s (setInstancesRequireRawIsa c s) :=
 touched_modifyFlags fun _=>rfl

theorem touched_marks : Marks b (Touched X s) where
 custom _ hu := hu.trans (touched_modifyFlags fun _=>rfl)
 swizzled _ hu := hu.trans ⟨rfl,rfl,rfl,rfl,rfl,rfl,fun _=>rfl,id,fun _=>rfl⟩

theorem rawIsaRecursively_touched (h:setInstancesRequireRawIsaRecursively c s=some t) :
 Touched X s t :=
 rawIsaRecursively_invariant (fun _ hu=>hu.trans touched_setInstancesRequireRawIsa) h (.refl X s)

theorem chooseRawIsa_touched (h:chooseRawIsa cls s=some t) : Touched X s t :=
 chooseRawIsa_invariant (fun _ hu=>hu.trans touched_setInstancesRequireRawIsa) h (.refl X s)

theorem scanAddedClass_touched (h:scanAddedClass prog b cls isMeta s=some t) : Touched X s t :=
 scanAddedClass_invariant (fun _ hu=>hu.trans (touched_modifyFlags fun _=>rfl)) h (.refl X s)

theorem scanInitializedClass_touched {metacls:Cls}
 (h:scanInitializedClass prog cls metacls b s=some t) : Touched X s t :=
 scanInitializedClass_invariant (fun _ hu=>hu.trans (touched_modifyFlags fun _=>rfl)) h
  (.refl X s)

theorem adjustCustomFlags_touched {cls:Option Cls}
 (h:adjustCustomFlagsForMethodChange prog cls m name s=some t) : Touched X s t :=
 forBundles_invariant (fun hv hu=>touched_marks.changedMethod hv hu) h (.refl X s)

theorem prepareMethodLists_touched {added:List (List Method)}
 (h:prepareMethodLists prog cls added s=some t) : Touched X s t := by
 rw [prepareMethodLists] at h
 split at h
 · exact forBundles_invariant (fun hv hu=>touched_marks.addedMethodLists hv hu) h (.refl X s)
 · cases h
   exact .refl X s

end Scanners

theorem addSubclass_touched {p c:Cls} {X:Set Cls} (h:addSubclass p c s=some t) :
 Touched X ((s.linkSubclass p c).modifyFlags c (Flags.inherit (s.flags p))) t := by
 obtain ⟨u,hu,h⟩:=Option.bind_eq_some_iff.mp h
 have hscan:=forBundles_invariant (I:=Touched X _)
  (fun hv hw=>touched_marks.addedSubClass hv hw) hu (.refl X _)
 split at h
 · exact hscan.trans (rawIsaRecursively_touched h)
 · cases h
   exact hscan

def State.joined (c:Cls) (s:State preopt) : State preopt :=
 match s.superclass c with
 | some p=>(s.linkSubclass p c).modifyFlags c (Flags.inherit (s.flags p))
 | none=>addRootClass c s

theorem joined_flags (c d:Cls) : (s.joined c).flags d=if d=c then
 (s.superclass c).elim (s.flags c) fun p=>(s.flags p).inherit (s.flags c) else s.flags d := by
 rw [State.joined]
 cases s.superclass c with
 | some p=>exact modifyFlags_flags ..
 | none=>
  by_cases hd : d=c
  · rw [if_pos hd,hd]
    rfl
  · rw [if_neg hd]
    rfl

theorem connect_touched {c:Cls} {X:Set Cls} (h:connect c s=some t) : Touched X (s.joined c) t := by
 rw [connect] at h
 rw [State.joined]
 cases hp : s.superclass c with
 | some p=>
  rw [hp] at h
  exact addSubclass_touched h
 | none=>
  rw [hp] at h
  cases h
  exact .refl X _

theorem joined_frame (c:Cls) : ∃l f,s.joined c = {s with links:=l,flags:=f} ∧
 l.parent=s.links.parent := by
 rw [State.joined]
 split
 · exact ⟨_,_,rfl,rfl⟩
 · exact ⟨_,s.flags,rfl,rfl⟩

theorem joined_superclass (c d:Cls) : (s.joined c).superclass d=s.superclass d := by
 obtain ⟨l,f,heq,hl⟩:=joined_frame (s:=s) c
 rw [heq]
 exact congrFun hl d

theorem joined_isMetaClass (c d:Cls) : (s.joined c).isMetaClass d=s.isMetaClass d := by
 obtain ⟨l,f,heq,-⟩:=joined_frame (s:=s) c
 rw [heq]
 rfl

theorem connect_realized {c:Cls} (h:connect c s=some t) :
 t.realized=s.realized ∧ t.isa=s.isa ∧ ∀d,t.superclass d=s.superclass d := by
 have ht:=connect_touched (X:=∅) h
 obtain ⟨l,f,heq,hl⟩:=joined_frame (s:=s) c
 rw [heq] at ht
 exact ⟨ht.realized,ht.isa,fun d=>(ht.superclass d).trans (congrFun hl d)⟩

section Methods

variable {c cls:Cls} {X:Set Cls}

theorem touched_eraseNolock : Touched X s (eraseNolock c s) := by
 refine ⟨rfl,rfl,rfl,rfl,rfl,rfl,fun _=>rfl,?_,fun _=>rfl⟩
 grind [eraseNolock_getImp]

theorem flushCaches_invariant {I:State preopt → Prop}
 (hI:∀{u:State preopt} (c:Cls),I u → I (eraseNolock c u)) {cls:Option Cls}
 {predicate:State preopt → Cls → Bool} (h:flushCaches cls predicate s=some t) (hs:I s) :
 I t := by
 have hstep:∀c u,I u → I (flushHandler predicate c u).1:=by grind [flushHandler]
 cases cls with
 | none=>exact foreachAll_invariant hstep h hs
 | some c=>exact foreach_invariant hstep h hs

theorem flushCaches_touched {cls:Option Cls} {predicate:State preopt → Cls → Bool}
 (h:flushCaches cls predicate s=some t) : Touched X s t :=
 flushCaches_invariant (fun _ hu=>hu.trans touched_eraseNolock) h (.refl X s)

theorem touched_setLists {ls:List (List Method)} (hc:c∈X) :
 Touched X s {s with lists:=update s.lists c ls} := by
 refine ⟨rfl,rfl,rfl,rfl,rfl,rfl,fun _=>rfl,id,fun {d} hd=>?_⟩
 grind

theorem touched_attachLists {added:List (List Method)} (hc:c∈X) :
 Touched X s (attachLists c added s) := touched_setLists hc

theorem touched_setImp (hc:m.cls∈X) : Touched X s (setImp m imp s) := touched_setLists hc

theorem methodSetImplementation_touched {cls:Option Cls}
 (h:methodSetImplementation prog cls m imp s=some t) (hc:m.cls∈X) : Touched X s t := by
 rw [methodSetImplementation] at h
 split at h
 · cases h
   exact .refl X s
 · obtain ⟨u,hu,h⟩:=Option.bind_eq_some_iff.mp h
   exact (touched_setImp hc).trans ((flushCaches_touched hu).trans (adjustCustomFlags_touched h))

theorem methodExchangeImplementations_touched {m1 m2:MethodRef}
 (h:methodExchangeImplementations prog m1 m2 s=some t) (hc1:m1.cls∈X)
 (hc2:m2.cls∈X) : Touched X s t := by
 rw [methodExchangeImplementations] at h
 split at h
 · obtain ⟨u,hu,h⟩:=Option.bind_eq_some_iff.mp h
   obtain ⟨v,hv,h⟩:=Option.bind_eq_some_iff.mp h
   exact (touched_setImp hc1).trans ((touched_setImp hc2).trans ((flushCaches_touched hu).trans
    ((adjustCustomFlags_touched hv).trans (adjustCustomFlags_touched h))))
 · cases h
   exact .refl X s

theorem addMethodsFinish_touched {newlist:List Method}
 (h:addMethodsFinish prog cls newlist s=some t) (hc:cls∈X) : Touched X s t := by
 obtain ⟨u,hu,h⟩:=Option.bind_eq_some_iff.mp h
 exact (prepareMethodLists_touched hu).trans
  ((touched_attachLists hc).trans (flushCaches_touched h))

theorem getMethodNoSuper_cls {sel:Sel} (h:getMethodNoSuper s c sel=some m) : m.cls=c := by
 obtain ⟨r,-,rfl⟩:=Option.map_eq_some_iff.mp h
 rfl

theorem addMethod_touched (h:addMethod prog cls name imp replace s=some t) (hc:cls∈X) :
 Touched X s t := by
 rw [addMethod] at h
 split at h
 · case h_1 m hm =>
   split at h
   · exact methodSetImplementation_touched h (getMethodNoSuper_cls hm ▸ hc)
   · cases h
     exact .refl X s
 · exact addMethodsFinish_touched h hc

theorem addMethodsLoop_touched {methods:List Method} {fresh:List Method}
 (h:addMethodsLoop prog cls replace methods s=some (t,fresh)) (hc:cls∈X) :
 Touched X s t := by
 induction methods generalizing s fresh with
 | nil=>
  cases h
  exact .refl X t
 | cons x rest ih=>
  rw [addMethodsLoop] at h
  split at h
  · case h_1 m hm =>
    obtain ⟨u,hu,h⟩:=Option.bind_eq_some_iff.mp h
    refine Touched.trans ?_ (ih h)
    split at hu
    · exact methodSetImplementation_touched hu (getMethodNoSuper_cls hm ▸ hc)
    · cases hu
      exact .refl X s
  · obtain ⟨⟨u,l⟩,hu,heq⟩:=Option.map_eq_some_iff.mp h
    cases heq
    exact ih hu

theorem addMethods_touched {methods:List Method}
 (h:addMethods prog cls methods replace s=some t) (hc:cls∈X) : Touched X s t := by
 obtain ⟨⟨u,fresh⟩,hu,h⟩:=Option.bind_eq_some_iff.mp h
 refine (addMethodsLoop_touched hu hc).trans ?_
 split at h
 · cases h
   exact .refl X u
 · exact addMethodsFinish_touched h hc

theorem attachCategories_touched {cats:List Category} {existing:Bool}
 (h:attachCategories prog cls cats isMeta existing s=some t) (hc:cls∈X) :
 Touched X s t := by
 rw [attachCategories] at h
 split at h
 · cases h
   exact .refl X s
 · obtain ⟨u,hu,h⟩:=Option.bind_eq_some_iff.mp h
   refine (prepareMethodLists_touched hu).trans ?_
   split at h
   · exact (touched_attachLists hc).trans (flushCaches_touched h)
   · cases h
     exact touched_attachLists hc

theorem touched_setUnattached {cats:List Category} :
 Touched X s {s with unattached:=update s.unattached c cats} :=
 ⟨rfl,rfl,rfl,rfl,rfl,rfl,fun _=>rfl,id,fun _=>rfl⟩

theorem methodizeClass_touched (h:methodizeClass prog cls s=some t) (hc:cls∈X) : Touched X s t := by
 obtain ⟨u,hu,h⟩:=Option.bind_eq_some_iff.mp h
 obtain ⟨v,hv,h⟩:=Option.bind_eq_some_iff.mp h
 refine (prepareMethodLists_touched hu).trans (Touched.trans ?_
  (touched_setUnattached.trans (attachCategories_touched h hc)))
 split at hv
 · exact addMethod_touched hv hc
 · cases hv
   exact .refl X u

theorem loadForClass_touched {cat:Category} (h:loadForClass prog cat cls isMeta s=some t)
 (hc:cls∈X) : Touched X s t := by
 rw [loadForClass] at h
 split at h
 · cases h
   exact .refl X s
 grind [attachCategories_touched,touched_setUnattached]

theorem loadCategory_touched {cat:Category} (h:loadCategory prog cat s=some t)
 (hc:cat.cls∈X) (hmeta:s.isa cat.cls∈X) : Touched X s t := by
 obtain ⟨u,hu,h⟩:=Option.bind_eq_some_iff.mp h
 have hfirst:=loadForClass_touched hu hc
 exact hfirst.trans (loadForClass_touched h (hfirst.isa ▸ hmeta))

end Methods

/-- Pending classes have `RW_REALIZED` but are in no subclass list.  A class is started for its
subclass or for the class it is the metaclass of. -/
inductive RealizeStep (prog:Program) : State preopt × List Cls → State preopt × List Cls → Prop
 | start {s:State preopt} {P:List Cls} {c:Cls} (hnew:s.realized c=false)
  (hfrom:(P=[] ∧ s.known c=true) ∨ ∃d Q,P=d::Q ∧ (s.superclass d=some c ∨ s.isa d=c)) :
  RealizeStep prog (s,P) (beginRealizing c s,c::P)
 | finish {s t:State preopt} {P:List Cls} {c:Cls}
  (hsuper:∀p,s.superclass c=some p → s.realized p=true)
  (hisa:s.realized (s.isa c)=true) (h:finishRealizing prog c s=some t) :
  RealizeStep prog (s,c::P) (t,P)

theorem finishRealizing_spec {c:Cls} (h:finishRealizing prog c s=some t) :
 ∃u v,(∀X,Touched X s u) ∧ (∀X,Touched X ((copyRoFlags c u).joined c) v) ∧
  Touched {c} v t ∧ methodizeClass prog c v=some t := by
 obtain ⟨u,hu,h⟩:=Option.bind_eq_some_iff.mp h
 obtain ⟨v,hv,h⟩:=Option.bind_eq_some_iff.mp h
 exact ⟨u,v,fun X=>chooseRawIsa_touched hu,fun X=>connect_touched hv,methodizeClass_touched h rfl,h⟩

theorem finishRealizing_kept {c:Cls} (h:finishRealizing prog c s=some t) :
 t.realized=s.realized ∧ t.isa=s.isa ∧ t.ro=s.ro ∧
  ∀d,t.superclass d=s.superclass d := by
 obtain ⟨u,v,hu,hv,ht,-⟩:=finishRealizing_spec h
 have hu:=hu ∅
 have hv:=hv ∅
 obtain ⟨l,f,heq,hl⟩:=joined_frame (s:=copyRoFlags c u) c
 rw [heq] at hv
 exact ⟨(ht.realized.trans hv.realized).trans hu.realized,(ht.isa.trans hv.isa).trans hu.isa,
  (ht.ro.trans hv.ro).trans hu.ro,
  fun d=>((ht.superclass d).trans (hv.superclass d)).trans ((congrFun hl d).trans
   (hu.superclass d))⟩

theorem RealizeStep.kept {x y:State preopt × List Cls} (h:RealizeStep prog x y) :
 (∀c,x.1.realized c=true → y.1.realized c=true) ∧ y.1.isa=x.1.isa ∧
  ∀c,y.1.superclass c=x.1.superclass c := by
 cases h with
 | @start s P c hnew=>
  refine ⟨fun d hd=>?_,rfl,fun _=>rfl⟩
  by_cases heq : d=c
  · subst heq
    exact update_self ..
  · exact (update_of_ne heq ..).trans hd
 | finish hsuper hisa h=>
  obtain ⟨hreal,hisa',-,hsuper'⟩:=finishRealizing_kept h
  exact ⟨fun c hc=>hreal ▸ hc,hisa',hsuper'⟩

theorem realizeSteps_kept {x y:State preopt × List Cls}
 (h:Relation.ReflTransGen (RealizeStep prog) x y) :
 (∀c,x.1.realized c=true → y.1.realized c=true) ∧ y.1.isa=x.1.isa ∧
  ∀c,y.1.superclass c=x.1.superclass c := by
 induction h with
 | refl=>exact ⟨fun _ h=>h,rfl,fun _=>rfl⟩
 | tail _ hstep ih=>
  obtain ⟨h1,h2,h3⟩:=hstep.kept
  grind

theorem realizeClass_steps {fuel:ℕ} {c:Cls} {P:List Cls} (hfrom:(P=[] ∧ s.known c=true) ∨
  ∃d Q,P=d::Q ∧ (s.superclass d=some c ∨ s.isa d=c))
 (h:realizeClassWithoutSwift prog fuel c s=some t) :
 Relation.ReflTransGen (RealizeStep prog) (s,P) (t,P) ∧ t.realized c=true := by
 induction fuel generalizing c s t P with
 | zero=>cases h
 | succ fuel ih=>
  rw [realizeClassWithoutSwift] at h
  split at h
  · grind
  · case isFalse hreal =>
    have hnew:s.realized c=false:=Bool.eq_false_iff.mpr hreal
    obtain ⟨u,hu,h⟩:=Option.bind_eq_some_iff.mp h
    obtain ⟨v,hv,h⟩:=Option.bind_eq_some_iff.mp h
    have hstart:RealizeStep prog (s,P) (beginRealizing c s,c::P):=.start hnew hfrom
    -- the superclass
    have hsuper:Relation.ReflTransGen (RealizeStep prog) (beginRealizing c s,c::P) (u,c::P) ∧
     ∀p,u.superclass c=some p → u.realized p=true := by
     cases hp : s.superclass c with
     | none=>
      rw [hp] at hu
      obtain rfl:=Option.some.inj hu
      refine ⟨.refl,fun p hsome=>?_⟩
      change s.superclass c=some p at hsome
      rw [hp] at hsome
      cases hsome
     | some p=>
      rw [hp] at hu
      have hp':(beginRealizing c s).superclass c=some p:=hp
      obtain ⟨hsteps,hdone⟩:=ih (P:=c::P) (.inr ⟨c,P,rfl,.inl hp'⟩) hu
      refine ⟨hsteps,fun q hq=>?_⟩
      rw [(realizeSteps_kept hsteps).2.2 c] at hq
      change s.superclass c=some q at hq
      rw [hp,Option.some.injEq] at hq
      exact hq ▸ hdone
    obtain ⟨hsteps,hdone⟩:=hsuper
    -- the metaclass
    obtain ⟨hsteps',hdone'⟩:=ih (P:=c::P) (.inr ⟨c,P,rfl,.inr rfl⟩) hv
    obtain ⟨hkept,hisa,hsame⟩:=realizeSteps_kept hsteps'
    have hfinish:RealizeStep prog (v,c::P) (t,P):=by
     refine .finish (fun p hp=>?_) ?_ h
     · rw [hsame c] at hp
       exact hkept p (hdone p hp)
     · rw [hisa]
       exact hdone'
    refine ⟨((Relation.ReflTransGen.single hstart).trans hsteps).trans (hsteps'.tail hfinish),?_⟩
    have hbegun:(beginRealizing c s).realized c=true:=update_self ..
    exact hfinish.kept.1 c (hkept c ((realizeSteps_kept hsteps).1 c hbegun))

theorem realizeClass_invariant {I:State preopt → List Cls → Prop}
 (hI:∀{x y:State preopt × List Cls},RealizeStep prog x y → I x.1 x.2 → I y.1 y.2)
 {fuel:ℕ} {c:Cls} (h:realizeClassWithoutSwift prog fuel c s=some t)
 (hknown:s.known c=true) (hs:I s []) : I t [] := by
 have hsteps:=(realizeClass_steps (P:=[]) (.inl ⟨rfl,hknown⟩) h).1
 have hall:∀x y : State preopt × List Cls,Relation.ReflTransGen (RealizeStep prog) x y →
  I x.1 x.2 → I y.1 y.2 := by
  intro x y hxy hx
  induction hxy with
  | refl=>exact hx
  | tail _ hstep ih=>exact hI hstep ih
 exact hall _ _ hsteps hs

end ObjcRuntime.ClassGraph
