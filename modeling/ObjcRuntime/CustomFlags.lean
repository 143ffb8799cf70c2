import ObjcRuntime.MethodAnswers

/-!
# The custom flags

A class that is not custom for a bundle of selectors is taken to have the implementations of a root
class that the runtime knows.
-/

set_option autoImplicit false
namespace ObjcRuntime.ClassGraph

open MethodLookup (Sel Imp MethodImp Cache)
open SiblingLists
open Function

variable {preopt:Bool} {s t u:State preopt} {prog:Program} {b b':Bundle} {P:List Cls}

structure SameFor (b:Bundle) (s t:State preopt) : Prop where
 superclass : ∀c,t.superclass c=s.superclass c
 isa : t.isa=s.isa
 ro : t.ro=s.ro
 realized : t.realized=s.realized
 initialized : t.initialized=s.initialized
 isCustom : ∀c,t.isCustom b c=s.isCustom b c
 lists : t.lists=s.lists
 swizzled : ∀isMeta,t.swizzled b isMeta=s.swizzled b isMeta

namespace SameFor

theorem refl (b:Bundle) (s:State preopt) : SameFor b s s :=
 ⟨fun _=>rfl,rfl,rfl,rfl,rfl,fun _=>rfl,rfl,fun _=>rfl⟩

theorem trans (h:SameFor b s t) (h':SameFor b t u) : SameFor b s u where
 superclass c := (h'.superclass c).trans (h.superclass c)
 isa := h'.isa.trans h.isa
 ro := h'.ro.trans h.ro
 realized := h'.realized.trans h.realized
 initialized := h'.initialized.trans h.initialized
 isCustom c := (h'.isCustom c).trans (h.isCustom c)
 lists := h'.lists.trans h.lists
 swizzled isMeta := (h'.swizzled isMeta).trans (h.swizzled isMeta)

theorem isMetaClass (h:SameFor b s t) (c:Cls) : t.isMetaClass c=s.isMetaClass c := by
 rw [State.isMetaClass,State.isMetaClass,h.ro]

theorem isInitialized (h:SameFor b s t) (c:Cls) : t.isInitialized c=s.isInitialized c := by
 rw [State.isInitialized,State.isInitialized,State.getMeta,State.getMeta,h.isMetaClass,h.isa,
  h.initialized]

theorem ownImp (h:SameFor b s t) (c:Cls) (sel:Sel) :
 ClassGraph.ownImp t c sel=ClassGraph.ownImp s c sel :=
 ownImp_congr (congrFun h.lists c) sel

end SameFor

section Frames

variable {c cls:Cls}

theorem modifyFlags_isCustom {f:Flags → Flags} (d:Cls) : (s.modifyFlags c f).isCustom b d =
  if d=c then !(f (s.flags c)).hasDefault b else s.isCustom b d := by
 rw [State.isCustom,modifyFlags_flags]
 split <;> rfl

theorem sameFor_modifyFlags {f:Flags → Flags} (hf:∀g,(f g).hasDefault b=g.hasDefault b) :
 SameFor b s (s.modifyFlags c f) := by
 refine ⟨fun _=>rfl,rfl,rfl,rfl,rfl,fun d=>?_,rfl,fun _=>rfl⟩
 grind [modifyFlags_isCustom,State.isCustom]

theorem setCustom_isCustom (d:Cls) :
 (setCustom b' c s).isCustom b d=(s.isCustom b d || decide (d=c ∧ b=b')) := by
 rw [setCustom,modifyFlags_isCustom]
 grind [State.isCustom]

theorem setDefault_isCustom (d:Cls) :
 (setDefault b' c s).isCustom b d=(s.isCustom b d && !decide (d=c ∧ b=b')) := by
 rw [setDefault,modifyFlags_isCustom]
 grind [State.isCustom]

theorem sameFor_setInstancesRequireRawIsa : SameFor b s (setInstancesRequireRawIsa c s) :=
 sameFor_modifyFlags fun _=>rfl

theorem rawIsaRecursively_sameFor (h:setInstancesRequireRawIsaRecursively cls s=some t) :
 SameFor b s t :=
 rawIsaRecursively_invariant (fun _ hu=>hu.trans sameFor_setInstancesRequireRawIsa) h (.refl b s)

theorem chooseRawIsa_sameFor (h:chooseRawIsa cls s=some t) : SameFor b s t :=
 chooseRawIsa_invariant (fun _ hu=>hu.trans sameFor_setInstancesRequireRawIsa) h (.refl b s)

theorem setCustomDeallocInitiation_sameFor (h:setCustomDeallocInitiation cls s=some t) :
 SameFor b s t := by
 rw [setCustomDeallocInitiation] at h
 split at h
 · cases h
   exact .refl b s
 · refine foreach_invariant (I:=SameFor b s) (fun d u hu=>?_) h (.refl b s)
   have hset:SameFor b u (setHasCustomDeallocInitiation d u):=sameFor_modifyFlags fun _=>rfl
   exact hu.trans hset

theorem sameFor_cache (b:Bundle) (s:State preopt) (cache:Cls → Cache preopt) :
 SameFor b s {s with cache:=cache} :=
 ⟨fun _=>rfl,rfl,rfl,rfl,rfl,fun _=>rfl,rfl,fun _=>rfl⟩

theorem flushCaches_sameFor {cls:Option Cls} {predicate:State preopt → Cls → Bool}
 (h:flushCaches cls predicate s=some t) : SameFor b s t :=
 flushCaches_invariant (fun _ hu=>hu.trans (sameFor_cache b _ _)) h (.refl b s)

end Frames

section Others

variable {c cls:Cls}

theorem sameFor_marks (hne:b'≠b) : Marks b' (SameFor b s) where
 custom _ hu := hu.trans (sameFor_modifyFlags fun _=>update_of_ne hne.symm ..)
 swizzled isMeta hu := by
  refine hu.trans ⟨fun _=>rfl,rfl,rfl,rfl,rfl,fun _=>rfl,rfl,fun m=>?_⟩
  simp [markSwizzled,hne.symm]

theorem scanInitializedClass_sameFor (hne:b'≠b) {metacls:Cls}
 (h:scanInitializedClass prog cls metacls b' s=some t) : SameFor b s t :=
 scanInitializedClass_invariant (fun _ hu=>hu.trans
  (sameFor_modifyFlags fun _=>update_of_ne hne.symm ..)) h (.refl b s)

theorem forBundles_own {f:Bundle → State preopt → Option (State preopt)} {I J:State preopt → Prop}
 (hother:∀{b':Bundle} {u v:State preopt},b'≠b → f b' u=some v → I u → I v)
 (hother':∀{b':Bundle} {u v:State preopt},b'≠b → f b' u=some v → J u → J v)
 (hown:∀{u v:State preopt},f b u=some v → I u → J v) (h:forBundles f s=some t)
 (hs:I s) : J t := by
 obtain ⟨u,hu,h⟩:=Option.bind_eq_some_iff.mp h
 obtain ⟨v,hv,h⟩:=Option.bind_eq_some_iff.mp h
 cases b with
 | awz=>exact hother' (by decide) h (hother' (by decide) hv (hown hu hs))
 | rr=>exact hother' (by decide) h (hown hv (hother (by decide) hu hs))
 | core=>exact hown h (hother (by decide) hv (hother (by decide) hu hs))

end Others

def markHandler (b:Bundle) (cls c:Cls) (s:State preopt) : State preopt × Bool :=
 if c≠cls ∧ s.isInitialized c=false then (s,false)
 else if s.isCustom b c then (s,false)
 else (setCustom b c s,true)

section Handler

variable {cls c:Cls}

theorem markHandler_cases (b:Bundle) (cls c:Cls) (s:State preopt) :
 markHandler b cls c s=(s,false) ∧ (c≠cls ∧ s.isInitialized c=false ∨ s.isCustom b c=true) ∨
  markHandler b cls c s=(setCustom b c s,true) := by
 rw [markHandler]
 grind

theorem markHandler_frame (b:Bundle) (cls c:Cls) (s:State preopt) :
 ∃f,(markHandler b cls c s).1 = {s with flags:=f} := by
 rcases markHandler_cases b cls c s with ⟨heq,-⟩|heq
 · exact ⟨s.flags,by rw [heq]⟩
 · rw [heq]
   exact ⟨_,rfl⟩

theorem markHandler_grows {d:Cls} (hd:s.isCustom b d=true) :
 (markHandler b cls c s).1.isCustom b d=true := by
 rcases markHandler_cases b cls c s with ⟨heq,-⟩|heq
 · rw [heq]
   exact hd
 · grind [setCustom_isCustom]

theorem markHandler_visits (hc:c=cls ∨ s.isInitialized c=true) :
 (markHandler b cls c s).1.isCustom b c=true := by
 rcases markHandler_cases b cls c s with ⟨heq,hskip⟩|heq
 · grind
 · grind [setCustom_isCustom]

theorem markHandler_marks {d:Cls} (hd:¬ s.isCustom b d=true)
 (hmarked:(markHandler b cls c s).1.isCustom b d=true) :
 c=d ∧ (markHandler b cls c s).2=true := by
 rcases markHandler_cases b cls c s with ⟨heq,-⟩|heq
 · grind
 · grind [setCustom_isCustom]

end Handler

structure Marked (b:Bundle) (cls:Cls) (P:List Cls) (s t:State preopt) : Prop where
 frame : ∃f,t = {s with flags:=f}
 grows : ∀c,s.isCustom b c=true → t.isCustom b c=true
 top : t.isCustom b cls=true
 below : ∀c p,s.realized c=true → c∉P → s.superclass c=some p →
  s.isInitialized c=true → s.isCustom b p=false → t.isCustom b p=true →
  t.isCustom b c=true

theorem setCustomRecursively_spec {cls:Cls} (hg:Graph s P)
 (ht:setCustomRecursively b cls s=some t) : Marked b cls P s t := by
 obtain ⟨⟨t,k⟩,hwalk,rfl⟩:=Option.map_eq_some_iff.mp ht
 obtain ⟨rank,hrank⟩:=hg.noCycle
 have htrav:Traverse s.links (markHandler b cls) [cls] s t:=walk_traverse hg.lists hrank hwalk
 have hframe:∃f,t = {s with flags:=f}:=by
  refine htrav.invariant (I:=fun u=>∃f,u = {s with flags:=f}) (fun c u hu=>?_)
   ⟨s.flags,rfl⟩
  obtain ⟨f,rfl⟩:=hu
  obtain ⟨f',heq⟩:=markHandler_frame b cls c {s with flags:=f}
  exact ⟨f',heq⟩
 refine ⟨hframe,fun c hc=>?_,?_,fun c p hc hP hp hinit hold hnew=>?_⟩
 · exact htrav.invariant (I:=fun u=>u.isCustom b c=true)
    (fun _ _ hu=>markHandler_grows hu) hc
 · exact htrav.visits (Q:=fun u=>u.isCustom b cls=true) List.mem_cons_self
    (fun _=>markHandler_visits (.inl rfl)) fun _ _ hu=>markHandler_grows hu
 · -- the subclasses of a class that gets its mark are visited, and this one is initialized
   have hvisited:t.isInitialized c=true → t.isCustom b c=true:=by
    refine htrav.visits_marked (M:=fun d u=>u.isCustom b d=true)
     (Q:=fun u=>u.isInitialized c=true → u.isCustom b c=true) hg.lists ⟨hc,hP⟩ hp
     (fun d u=>markHandler_marks) (fun u hu=>?_) (fun d u hu hu'=>?_)
     (Bool.eq_false_iff.mp hold) hnew
    · obtain ⟨f,heq⟩:=markHandler_frame b cls c u
      rw [heq] at hu
      exact markHandler_visits (.inr hu)
    · obtain ⟨f,heq⟩:=markHandler_frame b cls d u
      refine markHandler_grows (hu ?_)
      rw [heq] at hu'
      exact hu'
   refine hvisited ?_
   obtain ⟨f,rfl⟩:=hframe
   exact hinit

def baseImp (s:State preopt) (r:Cls) (sel:Sel) : Option MethodImp :=
 (methodIn sel (s.ro r).baseMethods.toList).map (·.imp)

/-- The scanner takes the base methods of the class for the default ones. -/
def Trusted (prog:Program) (b:Bundle) (s:State preopt) (c:Cls) : Prop :=
 knownClassHasDefaultImpl prog b c (s.isMetaClass c)=true

/-- The class answers with the base methods of a trusted class: it is that class or a copy of it. -/
structure DefaultsOf (prog:Program) (b:Bundle) (s:State preopt) (c r:Cls) : Prop where
 trusted : Trusted prog b s r
 kind : s.isMetaClass r=s.isMetaClass c
 root : b=.core → c=r
 metaTrusted : s.isMetaClass c=false → knownClassHasDefaultImpl prog b (s.isa c) true=true
 methods : ∀n∈b.names,ownImp s c (prog.sel n)=baseImp s r (prog.sel n)

def HasDefaults (prog:Program) (b:Bundle) (s:State preopt) (c:Cls) : Prop :=
 ∃r,DefaultsOf prog b s c r

def Bare (prog:Program) (b:Bundle) (s:State preopt) (c:Cls) : Prop :=
 ∀n∈b.names,ownImp s c (prog.sel n)=none

def Inherits (b:Bundle) (s:State preopt) (c:Cls) : Prop :=
 ∃p,s.superclass c=some p ∧ s.isCustom b p=false ∧ s.isMetaClass p=s.isMetaClass c

def Scans (b:Bundle) (s:State preopt) (c:Cls) : Prop :=
 b.scansInstances=true ∨ s.isMetaClass c=true

/-- The first list of the class has the IMPs of its base methods. -/
def BaseIntact (prog:Program) (b:Bundle) (s:State preopt) (r:Cls) : Prop :=
 ∀base,(s.ro r).baseMethods=some base → ∃l rest,s.lists r=l::rest ∧
  ∀n∈b.names,(l.find? fun m=>m.name=prog.sel n).map (·.imp) =
   (base.find? fun m=>m.name=prog.sel n).map (·.imp)

/-- Each class that is not custom has its reason. While an operation is under way, the methods of
the classes of `X` may have changed, and those of `E` may have other superclasses. -/
structure Sound (prog:Program) (b:Bundle) (X E:Set Cls) (s:State preopt) : Prop where
 settled : ∀c,s.isCustom b c=false → s.realized c=true ∧ s.isInitialized c=true ∧ Scans b s c
 methods : ∀c,s.isCustom b c=false → c∉X → HasDefaults prog b s c ∨ Bare prog b s c
 inherits : ∀c,s.isCustom b c=false → c∉E → HasDefaults prog b s c ∨ Inherits b s c
 base : ∀r,Trusted prog b s r → Scans b s r → s.realized r=true → r∉X →
  s.swizzled b (s.isMetaClass r)=false → BaseIntact prog b s r

def Masked (prog:Program) (b:Bundle) (s:State preopt) : Prop :=
 ∀isMeta,s.swizzled b isMeta=true → s.isCustom b (prog.nsoClass isMeta)=true

section Congr

variable {c r:Cls}

theorem isMetaClass_congr (h:t.ro c=s.ro c) : t.isMetaClass c=s.isMetaClass c := by
 rw [State.isMetaClass,State.isMetaClass,h]

theorem baseImp_congr (h:t.ro r=s.ro r) (sel:Sel) : baseImp t r sel=baseImp s r sel := by
 rw [baseImp,baseImp,h]

theorem Trusted.congr (h:Trusted prog b s r) (hr:t.ro r=s.ro r) : Trusted prog b t r := by
 rw [Trusted,isMetaClass_congr hr]
 exact h

theorem DefaultsOf.congr (h:DefaultsOf prog b s c r) (hr:t.ro r=s.ro r) (hc:t.ro c=s.ro c)
 (hisa:t.isa c=s.isa c)
 (hown:∀n∈b.names,ownImp t c (prog.sel n)=ownImp s c (prog.sel n)) :
 DefaultsOf prog b t c r where
 trusted := h.trusted.congr hr
 kind := by
  rw [isMetaClass_congr hr,isMetaClass_congr hc]
  exact h.kind
 root := h.root
 metaTrusted := by
  rw [isMetaClass_congr hc,hisa]
  exact h.metaTrusted
 methods n hn := by
  rw [hown n hn,baseImp_congr hr]
  exact h.methods n hn

theorem HasDefaults.congr (h:HasDefaults prog b s c)
 (hro:∀r,Trusted prog b s r → t.ro r=s.ro r) (hc:t.ro c=s.ro c)
 (hisa:t.isa c=s.isa c)
 (hown:∀n∈b.names,ownImp t c (prog.sel n)=ownImp s c (prog.sel n)) :
 HasDefaults prog b t c := by
 obtain ⟨r,hr⟩:=h
 exact ⟨r,hr.congr (hro r hr.trusted) hc hisa hown⟩

theorem Bare.congr (h:Bare prog b s c)
 (hown:∀n∈b.names,ownImp t c (prog.sel n)=ownImp s c (prog.sel n)) : Bare prog b t c :=
 fun n hn=>(hown n hn).trans (h n hn)

theorem BaseIntact.congr (h:BaseIntact prog b s r) (hr:t.ro r=s.ro r)
 (hlists:t.lists r=s.lists r) : BaseIntact prog b t r := by
 intro base hbase
 rw [hr] at hbase
 rw [hlists]
 exact h base hbase

theorem Scans.congr (h:Scans b s c) (hc:t.ro c=s.ro c) : Scans b t c := by
 rw [Scans,isMetaClass_congr hc]
 exact h

end Congr

namespace Sound

variable {X E X' E':Set Cls}

theorem mono (h:Sound prog b X E s) (hX:X ⊆ X') (hE:E ⊆ E') : Sound prog b X' E' s where
 settled := h.settled
 methods c hc hin := h.methods c hc fun hx=>hin (hX hx)
 inherits c hc hin := h.inherits c hc fun he=>hin (hE he)
 base r hr hscan hreal hin := h.base r hr hscan hreal fun hx=>hin (hX hx)

theorem congr (h:Sound prog b X E s) (ht:SameFor b s t) : Sound prog b X E t := by
 have hro:∀c,t.ro c=s.ro c:=congrFun ht.ro
 have hown:∀c,∀n∈b.names,ownImp t c (prog.sel n)=ownImp s c (prog.sel n) :=
  fun c n _=>ht.ownImp c (prog.sel n)
 have hdefaults:∀{c:Cls},HasDefaults prog b s c → HasDefaults prog b t c:=fun {c} hc =>
  hc.congr (fun r _=>hro r) (hro c) (congrFun ht.isa c) (hown c)
 refine ⟨fun c hc=>?_,fun c hc hX=>?_,fun c hc hE=>?_,fun r hr hscan hreal hX hmask=>?_⟩
 · rw [ht.isCustom] at hc
   obtain ⟨hreal,hinit,hscan⟩:=h.settled c hc
   rw [ht.realized,ht.isInitialized]
   exact ⟨hreal,hinit,hscan.congr (hro c)⟩
 · rw [ht.isCustom] at hc
   exact (h.methods c hc hX).imp hdefaults fun hbare=>hbare.congr (hown c)
 · rw [ht.isCustom] at hc
   refine (h.inherits c hc hE).imp hdefaults ?_
   rintro ⟨p,hp,hpc,hkind⟩
   refine ⟨p,(ht.superclass c).trans hp,(ht.isCustom p).trans hpc,?_⟩
   rw [ht.isMetaClass,ht.isMetaClass]
   exact hkind
 · rw [ht.realized] at hreal
   rw [ht.swizzled,ht.isMetaClass] at hmask
   exact (h.base r (hr.congr (hro r).symm) (hscan.congr (hro r).symm) hreal hX hmask).congr (hro r)
    (congrFun ht.lists r)

theorem marked {cls:Cls} (h:Sound prog b X E s) (ht:Marked b cls P s t)
 (hP:∀c∈P,c=cls ∨ c∈E ∨ s.isCustom b c=true) : Sound prog b X (E \ {cls}) t := by
 obtain ⟨⟨f,rfl⟩,hgrows,htop,hbelow⟩:=ht
 have hold:∀{c:Cls},State.isCustom {s with flags:=f} b c=false → s.isCustom b c=false := by grind
 have hdefaults:∀{c:Cls},HasDefaults prog b s c → HasDefaults prog b {s with flags:=f} c :=
  fun hc=>hc.congr (fun _ _=>rfl) rfl rfl fun _ _=>rfl
 refine ⟨fun c hc=>h.settled c (hold hc),
  fun c hc hX=>(h.methods c (hold hc) hX).imp_left hdefaults,fun c hc hE=>?_,h.base⟩
 have hne:c≠cls:=by
  rintro rfl
  rw [htop] at hc
  cases hc
 have hcE:c∉E:=fun hin=>hE ⟨hin,hne⟩
 rcases h.inherits c (hold hc) hcE with hdef|⟨p,hp,hpc,hkind⟩
 · exact .inl (hdefaults hdef)
 refine .inr ⟨p,hp,?_,hkind⟩
 grind [h.settled]

end Sound

theorem methodIn_append (sel:Sel) (older newer:List (List Method)) :
 methodIn sel (older++newer)=(methodIn sel newer).or (methodIn sel older) := by
 induction older with
 | nil=>rw [List.nil_append,methodIn,Option.or_none]
 | cons l older ih=>rw [List.cons_append,methodIn,methodIn,ih,Option.or_assoc]

variable {n:Name} {added:List (List Method)}

theorem isInterestingSelector_sel (hn:n∈b.names) : isInterestingSelector prog b (prog.sel n)=true :=
 List.any_eq_true.mpr ⟨n,hn,decide_eq_true rfl⟩

theorem sel_ne_of_not_interesting {name:Sel} (hn:n∈b.names)
 (hname:isInterestingSelector prog b name=false) : prog.sel n≠name := by
 rintro rfl
 rw [isInterestingSelector_sel hn] at hname
 cases hname

theorem methodIn_of_scan {lists:List (List Method)} (h:scanMethodLists prog b lists=false)
 (hn:n∈b.names) : methodIn (prog.sel n) lists=none := by
 induction lists with
 | nil=>rfl
 | cons l lists ih=>grind [scanMethodLists,methodIn,isInterestingSelector_sel]

theorem attachLists_lists {cls c:Cls} :
 (attachLists cls added s).lists c=if c=cls then s.lists cls++added else s.lists c :=
 update_apply ..

theorem attachLists_ownImp {cls:Cls} (h:scanMethodLists prog b added=false) (c:Cls) (hn:n∈b.names) :
 ownImp (attachLists cls added s) c (prog.sel n)=ownImp s c (prog.sel n) := by
 grind [ownImp,attachLists_lists,methodIn_append,methodIn_of_scan]

theorem baseIntact_setImp {m:MethodRef} {imp:MethodImp} {old:Method}
 (h:BaseIntact prog b s m.cls) (hold:s.method m=some old)
 (hname:isInterestingSelector prog b old.name=false) :
 BaseIntact prog b (setImp m imp s) m.cls := by
 intro base hbase
 obtain ⟨l,rest,hlists,hsame⟩:=h base hbase
 have hnew:(setImp m imp s).lists m.cls=(l::rest).modify m.list fun l =>
  l.modify m.index fun x=>{x with imp:=imp} := by
  rw [←hlists]
  exact update_self ..
 rw [State.method,hlists] at hold
 rw [hnew]
 cases hk : m.list with
 | zero=>
  rw [hk] at hold
  refine ⟨_,rest,List.modify_zero_cons ..,fun n hn=>?_⟩
  rcases @find?_modify old (prog.sel n) imp l m.index hold with heq|⟨hsel,-⟩
  · exact heq.trans (hsame n hn)
  · exact absurd hsel (sel_ne_of_not_interesting hn hname)
 | succ k=>exact ⟨l,_,List.modify_succ_cons ..,hsame⟩

namespace Sound

variable {X E:Set Cls}

section

variable (h:Sound prog b X E s)
include h

theorem unexempt {c:Cls}
 (hc:s.isCustom b c=true ∨ HasDefaults prog b s c ∨ Inherits b s c) :
 Sound prog b X (E \ {c}) s := by
 refine {h with inherits:=fun d hd hE=>?_}
 grind [h.inherits]

theorem unexempt_swizzled {c:Cls} (hc:s.isCustom b c=true)
 (hmask:s.swizzled b (s.isMetaClass c)=true) : Sound prog b (X \ {c}) (E \ {c}) s := by
 refine { h.unexempt (.inl hc) with
  methods := fun d hd hX=>h.methods d hd fun hin=>hX ⟨hin,?_⟩
  base := fun r hr hscan hreal hX hmask' =>
   h.base r hr hscan hreal (fun hin=>hX ⟨hin,?_⟩) hmask' }
 · rintro rfl
   rw [hd] at hc
   cases hc
 · grind

theorem markSwizzled {isMeta:Bool} :
 Sound prog b X E (markSwizzled b isMeta s) := by
 have hdefaults:∀{c:Cls},HasDefaults prog b s c →
  HasDefaults prog b (ClassGraph.markSwizzled b isMeta s) c :=
  fun hc=>hc.congr (fun _ _=>rfl) rfl rfl fun _ _=>rfl
 refine ⟨h.settled,fun c hc hX=>(h.methods c hc hX).imp_left hdefaults,
  fun c hc hE=>(h.inherits c hc hE).imp_left hdefaults,fun r hr hscan hreal hX hmask=>?_⟩
 have hold:s.swizzled b (s.isMetaClass r)=false:=(Bool.or_eq_false_iff.mp hmask).1
 exact (h.base r hr hscan hreal hX hold).congr rfl rfl

theorem attach {cls:Cls}
 (hok:s.isCustom b cls=true ∨ scanMethodLists prog b added=false) :
 Sound prog b X E (attachLists cls added s) := by
 have hown:∀{c:Cls},s.isCustom b c=false → ∀n∈b.names,
  ownImp (attachLists cls added s) c (prog.sel n)=ownImp s c (prog.sel n) := by
  grind [ownImp_congr,attachLists_lists,attachLists_ownImp]
 have hdefaults:∀{c:Cls},s.isCustom b c=false → HasDefaults prog b s c →
  HasDefaults prog b (attachLists cls added s) c :=
  fun hc hdef=>hdef.congr (fun _ _=>rfl) rfl rfl (hown hc)
 refine ⟨h.settled,fun c hc hX=>?_,fun c hc hE=>?_,fun r hr hscan hreal hX hmask=>?_⟩
 · exact (h.methods c hc hX).imp (hdefaults hc) fun hbare=>hbare.congr (hown hc)
 · exact (h.inherits c hc hE).imp_left (hdefaults hc)
 · intro base hbase
   obtain ⟨l,rest,hlists,hsame⟩:=h.base r hr hscan hreal hX hmask base hbase
   grind [attachLists_lists]

theorem setImp {m:MethodRef} {imp:MethodImp} {old:Method}
 (hold:s.method m=some old)
 (hok:isInterestingSelector prog b old.name=false ∨ (m.cls∈X ∧ m.cls∈E) ∨
  s.isCustom b m.cls=true ∧ ¬ (Trusted prog b s m.cls ∧ Scans b s m.cls)) :
 Sound prog b X E (setImp m imp s) := by
 have hown:∀{c:Cls},s.isCustom b c=false → ¬ (c∈X ∧ c∈E) → ∀n∈b.names,
  ownImp (ClassGraph.setImp m imp s) c (prog.sel n)=ownImp s c (prog.sel n) := by
  grind [setImp_ownImp,sel_ne_of_not_interesting]
 have hdefaults:∀{c:Cls},s.isCustom b c=false → ¬ (c∈X ∧ c∈E) →
  HasDefaults prog b s c → HasDefaults prog b (ClassGraph.setImp m imp s) c :=
  fun hc hin hdef=>hdef.congr (fun _ _=>rfl) rfl rfl (hown hc hin)
 refine ⟨h.settled,fun c hc hX=>?_,fun c hc hE=>?_,fun r hr hscan hreal hX hmask=>?_⟩
 · have hin:¬ (c∈X ∧ c∈E):=fun hin=>hX hin.1
   exact (h.methods c hc hX).imp (hdefaults hc hin) fun hbare=>hbare.congr (hown hc hin)
 · exact (h.inherits c hc hE).imp_left (hdefaults hc fun hin=>hE hin.2)
 · have hbase:=h.base r hr hscan hreal hX hmask
   by_cases hne : r=m.cls
   · subst hne
     have hname:isInterestingSelector prog b old.name=false:=by
      rcases hok with hname|hin|⟨-,huntrusted⟩
      · exact hname
      · exact absurd hin.1 hX
      · exact absurd ⟨hr,hscan⟩ huntrusted
     exact baseIntact_setImp hbase hold hname
   · exact hbase.congr rfl (update_of_ne hne ..)

end

end Sound

end ObjcRuntime.ClassGraph
