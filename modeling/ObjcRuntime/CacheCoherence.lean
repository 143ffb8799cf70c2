import ObjcRuntime.MethodAnswers

/-!
# Method caches agree with the method lists

A change of methods or superclasses flushes the caches it may concern, and it finds their classes
through the subclass lists.
-/

set_option autoImplicit false
namespace ObjcRuntime.ClassGraph

open PartialRuns
open MethodLookup (Sel Imp MethodImp Cache msgForwardImpcache)
open SiblingLists
open Function

variable {preopt:Bool} {s t u:State preopt} {prog:Program} {P:List Cls}

theorem Graph.ancestor_realized {p c:Cls} (h:Graph s []) (hc:s.realized c=true)
 (hp:Ancestor s p c) : s.realized p=true := by
 induction hp with
 | refl=>exact hc
 | tail _ hq ih=>exact h.superRealized ih List.not_mem_nil hq

theorem Graph.below {p c:Cls} (h:Graph s []) (hc:s.realized c=true) (hp:Ancestor s p c) :
 Relation.ReflTransGen (fun p d=>(s.realized d=true ∧ d∉([] : List Cls)) ∧
  s.links.parent d=some p) p c := by
 induction hp with
 | refl=>exact .refl
 | tail hq hstep ih=>exact .head ⟨⟨h.ancestor_realized hc hq,List.not_mem_nil⟩,hstep⟩ ih

theorem NoCycle.exists_root (h:NoCycle s.superclass) (c:Cls) :
 ∃r,s.superclass r=none ∧ Ancestor s r c := by
 obtain ⟨rank,hrank⟩:=h
 induction hn : rank c using Nat.strong_induction_on generalizing c with
 | _ n ih=>
  cases hp : s.superclass c with
  | none=>exact ⟨c,hp,.refl⟩
  | some p=>
   obtain ⟨r,hr,hanc⟩:=ih (rank p) (hn ▸ hrank hp) p rfl
   exact ⟨r,hr,.head hp hanc⟩

variable {sel:Sel} {imp:Imp} {cls:Cls} {fuel:ℕ} {v:State preopt} {replace:Bool}

section Flush

variable {predicate:State preopt → Cls → Bool} {c:Cls} {Q:State preopt → Prop}

theorem flushCaches_below {top:Cls} (hg:Graph s [])
 (ht:flushCaches (some top) predicate s=some t) (hc:s.realized c=true)
 (htop:Ancestor s top c) (hvisit:∀v,Q (flushHandler predicate c v).1)
 (hstable:∀d v,Q v → Q (flushHandler predicate d v).1) : Q t := by
 obtain ⟨⟨t,k⟩,hwalk,rfl⟩:=Option.map_eq_some_iff.mp ht
 obtain ⟨rank,hrank⟩:=hg.noCycle
 exact (walk_traverse hg.lists hrank hwalk).visits_below hg.lists (fun _ _=>rfl)
  List.mem_cons_self (hg.below hc htop) hvisit hstable

theorem flushCaches_all (hg:Graph s []) (ht:flushCaches none predicate s=some t)
 (hc:s.realized c=true) (hvisit:∀v,Q (flushHandler predicate c v).1)
 (hstable:∀d v,Q v → Q (flushHandler predicate d v).1) : Q t := by
 obtain ⟨⟨t,k⟩,hwalk,rfl⟩:=Option.map_eq_some_iff.mp ht
 obtain ⟨roots,hpath,-,hmem⟩:=hg.lists none
 obtain ⟨r,hroot,hanc⟩:=hg.noCycle.exists_root c
 obtain ⟨rank,hrank⟩:=hg.noCycle
 have hr:r∈roots:=(hmem r).mpr ⟨⟨hg.ancestor_realized hc hanc,List.not_mem_nil⟩,hroot⟩
 exact (walkAll_traverse hg.lists hrank hpath hwalk).visits_below hg.lists (fun _ _=>rfl)
  hr (hg.below hc hanc) hvisit hstable

theorem flushHandler_getImp {d:Cls} : (flushHandler predicate d s).1.getImp c sel =
  if c=d ∧ predicate s d then none else s.getImp c sel := by
 grind [flushHandler,eraseNolock_getImp]

theorem flushCaches_drops {cls:Option Cls} (hg:Graph s [])
 (ht:flushCaches cls predicate s=some t) (hc:s.realized c=true)
 (hcls:∀top,cls=some top → Ancestor s top c)
 (hp:∀v : State preopt,v.getImp c sel=some imp → predicate v c=true) :
 t.getImp c sel≠some imp := by
 have hvisit:∀v : State preopt,(flushHandler predicate c v).1.getImp c sel≠some imp:=by
  grind [flushHandler_getImp]
 have hstable:∀(d:Cls) (v:State preopt),v.getImp c sel≠some imp →
  (flushHandler predicate d v).1.getImp c sel≠some imp := by grind [flushHandler_getImp]
 cases cls with
 | none=>exact flushCaches_all (Q:=fun v=>v.getImp c sel≠some imp) hg ht hc hvisit hstable
 | some top=>
  exact flushCaches_below (Q:=fun v=>v.getImp c sel≠some imp) hg ht hc (hcls top rfl) hvisit
   hstable

theorem flushCaches_empties {top:Cls} (hg:Graph s [])
 (ht:flushCaches (some top) (fun _ _=>true) s=some t) (hc:s.realized c=true)
 (htop:Ancestor s top c) (sel:Sel) : t.getImp c sel=none :=
 Option.eq_none_iff_forall_ne_some.mpr fun _ =>
  flushCaches_drops hg ht hc (fun _ heq=>Option.some.inj heq ▸ htop) fun _ _=>rfl

end Flush

def Settled (s:State preopt) (P:List Cls) (c:Cls) : Prop :=
 ∀d,Ancestor s d c → s.realized d=true ∧ d∉P

def Coherent (s:State preopt) (P:List Cls) : Prop :=
 ∀(c:Cls) (sel:Sel) (imp:Imp),s.realized c=true → s.getImp c sel=some imp →
  Settled s P c ∧ Answer s sel c imp

theorem Graph.settled {c:Cls} (h:Graph s []) (hc:s.realized c=true) : Settled s [] c :=
 fun _ hd=>⟨h.ancestor_realized hc hd,List.not_mem_nil⟩

theorem Ancestor.congr {p c:Cls} (h:Ancestor t p c)
 (hsame:∀d,t.superclass d=s.superclass d) : Ancestor s p c :=
 Relation.ReflTransGen.mono (fun d _ hq=>(hsame d).symm.trans hq) _ _ h

namespace Coherent

theorem of_answers (hg:Graph t []) (h:∀(c:Cls) (sel:Sel) (imp:Imp),
 t.realized c=true → t.getImp c sel=some imp → Answer t sel c imp) : Coherent t [] :=
 fun c sel imp hc himp=>⟨hg.settled hc,h c sel imp hc himp⟩

theorem frame (h:Coherent s P) (hlinks:t.links=s.links) (hreal:t.realized=s.realized)
 (hlists:t.lists=s.lists) (hcache:t.cache=s.cache) : Coherent t P := by
 have hsuper:∀d,t.superclass d=s.superclass d:=fun d=>by
  rw [State.superclass,State.superclass,hlinks]
 intro c sel imp hc himp
 rw [State.getImp,hcache] at himp
 obtain ⟨hsettled,hanswer⟩:=h c sel imp (hreal ▸ hc) himp
 refine ⟨fun d hd=>?_,hanswer.congr fun d _=>⟨hsuper d,ownImp_congr (congrFun hlists d) sel⟩⟩
 rw [hreal]
 exact hsettled d (hd.congr hsuper)

theorem touched (h:Coherent s P) (ht:Touched ∅ s t) : Coherent t P := by
 intro c sel imp hc himp
 obtain ⟨hsettled,hanswer⟩:=h c sel imp (ht.realized ▸ hc) (ht.shrinks himp)
 refine ⟨fun d hd=>?_,hanswer.congr fun d _=>⟨ht.superclass d,ownImp_congr (ht.lists id) sel⟩⟩
 rw [ht.realized]
 exact hsettled d (hd.congr ht.superclass)

variable {c:Cls}

theorem beginRealizing (h:Coherent s P) (hnew:s.realized c=false) :
 Coherent (beginRealizing c s) (c::P) := by
 intro d sel imp hd himp
 have hne:d≠c:=by
  rintro rfl
  simp_all [ClassGraph.beginRealizing,State.getImp]
 have hreal:s.realized d=true:=by
  rw [←hd]
  exact (update_of_ne hne ..).symm
 have hget:s.getImp d sel=some imp:=by simp_all [State.getImp,ClassGraph.beginRealizing]
 obtain ⟨hsettled,hanswer⟩:=h d sel imp hreal hget
 have hout:∀{e:Cls},Ancestor s e d → e≠c:=by
  rintro e he rfl
  rw [(hsettled e he).1] at hnew
  cases hnew
 refine ⟨fun e he=>?_,hanswer.congr fun e he=>⟨rfl,ownImp_congr ?_ sel⟩⟩
 · refine ⟨(update_of_ne (hout he) ..).trans (hsettled e he).1,?_⟩
   rw [List.mem_cons,not_or]
   exact ⟨hout he,(hsettled e he).2⟩
 · exact update_of_ne (hout he) ..

theorem finishRealizing (h:Coherent s (c::P)) (ht:finishRealizing prog c s=some t) :
 Coherent t P := by
 obtain ⟨hreal,-,-,hsuper⟩:=finishRealizing_kept ht
 obtain ⟨u,v,hu,hv,ht,-⟩:=finishRealizing_spec ht
 obtain ⟨l,f,heq,-⟩:=joined_frame (s:=copyRoFlags c u) c
 have hv:=hv ∅
 rw [heq] at hv
 intro d sel imp hd himp
 have hget:s.getImp d sel=some imp :=
  (hu ∅).shrinks (show u.getImp d sel=some imp from hv.shrinks (ht.shrinks himp))
 obtain ⟨hsettled,hanswer⟩:=h d sel imp (hreal ▸ hd) hget
 refine ⟨fun e he=>?_,hanswer.congr fun e he=>⟨hsuper e,ownImp_congr ?_ sel⟩⟩
 · obtain ⟨hrealized,hout⟩:=hsettled e (he.congr hsuper)
   grind
 · have hne:e∉({c} : Set Cls):=fun heq=>(hsettled e he).2 (heq ▸ List.mem_cons_self)
   exact (ht.lists hne).trans ((hv.lists id).trans ((hu ∅).lists id))

section

variable (h:Coherent s [])
include h

theorem realizeClass (hknown:s.known cls=true)
 (ht:realizeClassWithoutSwift prog fuel cls s=some t) : Coherent t [] := by
 refine realizeClass_invariant (I:=Coherent) (fun {x y} hstep hx=>?_) ht hknown h
 cases hstep with
 | start hnew hfrom=>exact hx.beginRealizing hnew
 | finish hsuper hisa ht=>exact hx.finishRealizing ht

theorem varied {K:Cls → Sel → Imp → Prop}
 (hg:Graph t []) (hvaries:Varies K s v) (hlinks:∀d,v.superclass d=s.superclass d)
 (hreal:v.realized=s.realized) (hcache:v.cache=s.cache) (ht:Touched ∅ v t)
 (hflush:∀{c d:Cls} {sel:Sel} {imp:Imp},v.realized c=true → Ancestor v d c →
  K d sel imp → t.getImp c sel≠some imp) : Coherent t [] := by
 refine of_answers hg fun c sel imp hc himp=>?_
 have hget:s.getImp c sel=some imp:=by
  rw [←ht.shrinks himp,State.getImp,State.getImp,hcache]
 rw [ht.realized] at hc
 rcases (h c sel imp (hreal ▸ hc) hget).2.varies hvaries hlinks with hanswer|⟨d,hd,hK⟩
 · exact hanswer.congr fun e _=>⟨ht.superclass e,ownImp_congr (ht.lists id) sel⟩
 · exact absurd himp (hflush hc (hd.congr fun e=>(hlinks e).symm) hK)

theorem methodSetImplementation {cls:Option Cls} {m:MethodRef} {imp:MethodImp} (hg:Graph s [])
 (hcls:∀c,cls=some c → m.cls=c)
 (ht:methodSetImplementation prog cls m imp s=some t) : Coherent t [] := by
 have hgt:Graph t []:=hg.touched (methodSetImplementation_touched (X:=Set.univ) ht trivial)
 rw [ClassGraph.methodSetImplementation] at ht
 split at ht
 · cases ht
   exact h
 · case h_2 old hold =>
   obtain ⟨u,hu,ht⟩:=Option.bind_eq_some_iff.mp ht
   have hadjust:=adjustCustomFlags_touched (X:=∅) ht
   have hgv:Graph (setImp m imp s) []:=hg.touched (touched_setImp (X:=Set.univ) trivial)
   refine h.varied (K:=fun d sel i=>d=m.cls ∧ sel=old.name ∧ i=old.imp)
    (v:=setImp m imp s) hgt (fun d sel=>?_) (fun _=>rfl) rfl rfl
    ((flushCaches_touched hu).trans hadjust) ?_
   · grind [setImp_ownImp]
   · rintro c d sel i hc hanc ⟨rfl,rfl,rfl⟩ himp
     refine flushCaches_drops hgv hu hc (fun top htop=>?_) (fun v hv=>decide_eq_true hv)
      (hadjust.shrinks himp)
     exact hcls top htop ▸ hanc

theorem methodExchangeImplementations {m1 m2:MethodRef} (hg:Graph s [])
 (ht:methodExchangeImplementations prog m1 m2 s=some t) : Coherent t [] := by
 have hgt:Graph t [] :=
  hg.touched (methodExchangeImplementations_touched (X:=Set.univ) ht trivial trivial)
 rw [ClassGraph.methodExchangeImplementations] at ht
 split at ht
 · case h_1 old1 old2 hold1 hold2 =>
   obtain ⟨u,hu,ht⟩:=Option.bind_eq_some_iff.mp ht
   obtain ⟨w,hw,ht⟩:=Option.bind_eq_some_iff.mp ht
   have hadjust:=(adjustCustomFlags_touched (X:=∅) hw).trans (adjustCustomFlags_touched ht)
   have hgv:Graph (setImp m2 old1.imp (setImp m1 old2.imp s)) [] :=
    hg.touched ((touched_setImp (X:=Set.univ) trivial).trans (touched_setImp trivial))
   -- the second method as the first change leaves it
   obtain ⟨mid,hmid,hname,himp⟩:=setImp_method (m:=m1) hold2
   refine h.varied (K:=fun _ sel i=>sel=old1.name ∧ i=old1.imp ∨
    sel=old2.name ∧ i=old2.imp) (v:=setImp m2 old1.imp (setImp m1 old2.imp s)) hgt
    (Varies.trans (t:=setImp m1 old2.imp s) (fun d sel=>?_) fun d sel=>?_) (fun _=>rfl) rfl rfl
    ((flushCaches_touched hu).trans hadjust) ?_
   · grind [setImp_ownImp]
   · grind [setImp_ownImp]
   · intro c d sel i hc _ hK hentry
     refine flushCaches_drops hgv hu hc (fun _ htop=>absurd htop (by simp)) (fun v hv=>?_)
      (hadjust.shrinks hentry)
     rcases hK with ⟨rfl,rfl⟩|⟨rfl,rfl⟩
     · exact Bool.or_eq_true_iff.mpr (.inl (decide_eq_true hv))
     · exact Bool.or_eq_true_iff.mpr (.inr (decide_eq_true hv))
 · cases ht
   exact h

theorem relisted (hg:Graph v []) (hv:Touched {cls} s v)
 (ht:flushCaches (some cls) (fun _ _=>true) v=some t) :
 Coherent t [] := by
 have htouched:=flushCaches_touched (X:=∅) ht
 refine of_answers (hg.touched htouched) fun c sel imp hc himp=>?_
 rw [htouched.realized] at hc
 have hout:¬ Ancestor v cls c:=fun hanc=>by
  rw [flushCaches_empties hg ht hc hanc] at himp
  cases himp
 have hanswer:=(h c sel imp (hv.realized ▸ hc) (hv.shrinks (htouched.shrinks himp))).2
 refine hanswer.congr fun d hd=>⟨(htouched.superclass d).trans (hv.superclass d),
  ownImp_congr ((htouched.lists id).trans (hv.lists ?_)) sel⟩
 rintro rfl
 exact hout (hd.congr fun e=>(hv.superclass e).symm)

theorem attached {added:List (List Method)} (hg:Graph s [])
 (hu:prepareMethodLists prog cls added s=some u)
 (ht:flushCaches (some cls) (fun _ _=>true) (attachLists cls added u)=some t) :
 Coherent t [] := by
 have hv:Touched {cls} s (attachLists cls added u) :=
  (prepareMethodLists_touched hu).trans (touched_attachLists rfl)
 exact h.relisted (hg.touched hv) hv ht

theorem addMethodsFinish {newlist:List Method} (hg:Graph s [])
 (ht:addMethodsFinish prog cls newlist s=some t) : Coherent t [] := by
 obtain ⟨u,hu,ht⟩:=Option.bind_eq_some_iff.mp ht
 exact h.attached hg hu ht

theorem addMethod {name:Sel} {imp:MethodImp} (hg:Graph s [])
 (ht:addMethod prog cls name imp replace s=some t) : Coherent t [] := by
 rw [ClassGraph.addMethod] at ht
 grind [h.methodSetImplementation,getMethodNoSuper_cls,h.addMethodsFinish]

theorem addMethodsLoop {methods fresh:List Method} (hg:Graph s [])
 (ht:addMethodsLoop prog cls replace methods s=some (t,fresh)) : Coherent t [] := by
 induction methods generalizing s fresh with
 | nil=>
  cases ht
  exact h
 | cons x rest ih=>
  rw [ClassGraph.addMethodsLoop] at ht
  split at ht
  · case h_1 m hm =>
    obtain ⟨u,hu,ht⟩:=Option.bind_eq_some_iff.mp ht
    split at hu
    · have hu':=methodSetImplementation_touched (X:=Set.univ) hu trivial
      refine ih (h.methodSetImplementation hg (fun c hc=>?_) hu) (hg.touched hu') ht
      exact (getMethodNoSuper_cls hm).trans (Option.some.inj hc)
    · cases hu
      exact ih h hg ht
  · grind [Option.map_eq_some_iff]

theorem addMethods {methods:List Method} (hg:Graph s [])
 (ht:addMethods prog cls methods replace s=some t) : Coherent t [] := by
 obtain ⟨⟨u,fresh⟩,hu,ht⟩:=Option.bind_eq_some_iff.mp ht
 have hloop:=h.addMethodsLoop hg hu
 split at ht
 · cases ht
   exact hloop
 · exact hloop.addMethodsFinish (hg.touched (addMethodsLoop_touched (X:=Set.univ) hu trivial)) ht

theorem loadForClass {cat:Category} {isMeta:Bool} (hg:Graph s [])
 (ht:loadForClass prog cat cls isMeta s=some t) : Coherent t [] := by
 rw [ClassGraph.loadForClass] at ht
 split at ht
 · cases ht
   exact h
 split at ht
 · grind [attachCategories,Option.bind_eq_some_iff,h.attached]
 · cases ht
   exact h.touched touched_setUnattached

theorem loadCategory {cat:Category} (hg:Graph s [])
 (ht:loadCategory prog cat s=some t) : Coherent t [] := by
 obtain ⟨u,hu,ht⟩:=Option.bind_eq_some_iff.mp ht
 exact (h.loadForClass hg hu).loadForClass
  (hg.touched (loadForClass_touched (X:=Set.univ) hu trivial)) ht

end

theorem connect (h:Coherent s P) (ht:connect c s=some t) : Coherent t P := by
 refine Coherent.touched (s:=s.joined c) ?_ (connect_touched ht)
 obtain ⟨l,f,heq,hl⟩:=joined_frame (s:=s) c
 have hsuper:∀d,(s.joined c).superclass d=s.superclass d:=joined_superclass c
 rw [heq] at hsuper ⊢
 intro d sel imp hd himp
 obtain ⟨hsettled,hanswer⟩:=h d sel imp hd himp
 exact ⟨fun e he=>hsettled e (he.congr hsuper),hanswer.congr fun e _=>⟨hsuper e,rfl⟩⟩

theorem extend {F:List Cls} (h:Coherent s []) (hg:Graph s []) (hu:Extends F s u) :
 Coherent u F := by
 intro c sel imp hc himp
 have hcF:c∉F:=by grind [State.getImp,hu.empty,Cache.getImp_empty]
 rw [hu.realized c hcF] at hc
 rw [State.getImp,hu.cache c hcF] at himp
 -- the superclasses are known, so none of them is new
 have hout:∀{d:Cls},Ancestor u d c → Ancestor s d c ∧ d∉F:=by
  intro d hd
  induction hd with
  | refl=>exact ⟨.refl,hcF⟩
  | @tail d e _ he ih=>
   rw [hu.superclass d ih.2] at he
   exact ⟨ih.1.tail he,fun hin=>hg.unknown_ne (hu.fresh e hin) he⟩
 have hout':∀{d:Cls},Ancestor s d c → d∉F:=fun {d} hd hin =>
  known_ne (hg.realizedKnown (hg.ancestor_realized hc hd)) (hu.fresh d hin) rfl
 refine ⟨fun d hd=>?_,(h c sel imp hc himp).2.congr fun d hd=>?_⟩
 · grind [hu.realized,hg.ancestor_realized]
 · exact ⟨hu.superclass d (hout' hd),ownImp_congr (hu.lists d (hout' hd)) sel⟩

theorem unpend {Q:List Cls} (h:Coherent s P) (hsub:∀c∈Q,c∈P) : Coherent s Q := by
 intro c sel imp hc himp
 obtain ⟨hsettled,hanswer⟩:=h c sel imp hc himp
 exact ⟨fun d hd=>⟨(hsettled d hd).1,fun hin=>(hsettled d hd).2 (hsub d hin)⟩,hanswer⟩

theorem duplicateClass {original duplicate:Cls} (h:Coherent s []) (hg:Graph s [])
 (hlegal:(Op.duplicateClass original duplicate).Legal s)
 (ht:duplicateClass original duplicate s=some t) : Coherent t [] := by
 obtain ⟨⟨horig,hkind⟩,hdup⟩:=hlegal
 obtain ⟨-,v,hv,-,rfl⟩:=duplicateClass_spec hg horig hkind hdup ht
 have hnew:=(h.extend hg (withDuplicate_extends original hdup)).connect hv
 exact (hnew.unpend (Q:=[]) fun c hc=>nomatch hc).frame rfl rfl rfl rfl

theorem initializeClassPair {superclass:Option Cls} {metacls:Cls} (h:Coherent s [])
 (hg:Graph s []) (hlegal:(Op.allocateClassPair superclass cls metacls).Legal s)
 (hsuper:∀p,superclass=some p → s.realized p=true ∧ s.isMetaClass p=false)
 (ht:initializeClassPair superclass cls metacls s=some t) : Coherent t [] := by
 obtain ⟨hne,hcls,hmeta,-⟩:=hlegal
 obtain ⟨-,v,hv,-,ht,-⟩:=initializeClassPair_spec hg hne hcls hmeta hsuper ht
 have hnew:=((h.extend hg (withPair_extends superclass hcls hmeta)).connect hv).connect ht
 exact hnew.unpend fun c hc=>nomatch hc

theorem moved {newSuper:Cls} {u w x:State preopt} (h:Coherent s [])
 (hmoved:Moved cls newSuper s u v w x t) : Coherent t [] := by
 obtain ⟨l,rfl⟩:=hmoved.detached
 have h1:=addSubclass_touched (X:=∅) hmoved.addedClass
 have h2:=addSubclass_touched (X:=∅) hmoved.addedMeta
 have h3:=flushCaches_touched (X:=∅) hmoved.flushed
 have h4:=flushCaches_touched (X:=∅) hmoved.flushedMeta
 have hgx:=hmoved.linked.touched h3
 have hsuper:∀d,t.superclass d=movedParent s cls newSuper d:=by
  intro d
  rw [h4.superclass,h3.superclass,h2.superclass,←hmoved.parent]
  exact h1.superclass d
 refine of_answers hmoved.graph fun c sel imp hc himp=>?_
 have hcx:x.realized c=true:=h4.realized ▸ hc
 have hcw:w.realized c=true:=h3.realized ▸ hcx
 have hc:s.realized c=true:=by
  rw [h2.realized] at hcw
  exact (congrFun h1.realized c).symm.trans hcw
 have hget:s.getImp c sel=some imp:=by
  have hv:v.getImp c sel=some imp:=h2.shrinks (h3.shrinks (h4.shrinks himp))
  exact h1.shrinks hv
 -- the class is below neither of the two
 have hout:¬ Ancestor t cls c:=by
  intro hanc
  have hw:=hanc.congr fun d=>(h4.superclass d).trans (h3.superclass d)
  have hempty:=flushCaches_empties hmoved.linked hmoved.flushed hcw hw sel
  rw [h4.shrinks himp] at hempty
  cases hempty
 have hout':¬ Ancestor t (s.isa cls) c:=by
  intro hanc
  rw [flushCaches_empties hgx hmoved.flushedMeta hcx (hanc.congr h4.superclass) sel] at himp
  cases himp
 have hsame:∀{d:Cls},Ancestor s d c → Ancestor t d c:=by
  intro d hd
  induction hd with
  | refl=>exact .refl
  | @tail d e _ he ih=>
   refine ih.tail ?_
   rw [hsuper,movedParent_apply,if_neg,if_neg]
   · exact he
   · rintro rfl
     exact hout ih
   · rintro rfl
     exact hout' ih
 refine (h c sel imp hc hget).2.congr fun d hd=>⟨?_,ownImp_congr ?_ sel⟩
 · rw [hsuper,movedParent_apply,if_neg,if_neg]
   · rintro rfl
     exact hout (hsame hd)
   · rintro rfl
     exact hout' (hsame hd)
 · exact (h4.lists id).trans ((h3.lists id).trans ((h2.lists id).trans (h1.lists id)))

theorem search {attempts:ℕ} (h:Coherent s []) (hg:Graph s []) (hcls:s.realized cls=true)
 (hsearch:searchChain sel s attempts cls=some imp) : Answer s sel cls imp :=
 searchChain_answer (fun hd hi=>(h _ sel _ (hg.ancestor_realized hcls hd) hi).2) hsearch

theorem fillCache (h:Coherent s []) (hg:Graph s []) (hcls:s.realized cls=true)
 (himp:Answer s sel cls imp) :
 Coherent (fillCache sel imp cls s) [] := by
 rw [ClassGraph.fillCache]
 split
 · refine of_answers (hg.congr ⟨rfl,rfl,rfl,rfl,rfl⟩) fun c sel' imp' hc hget=>?_
   have hanswer:Answer s sel' c imp':=by
    by_cases hne : c=cls
    · subst hne
      change (update s.cache c _ c).getImp sel'=some imp' at hget
      rw [update_self] at hget
      rcases Cache.getImp_insert hget with hold|⟨rfl,rfl⟩
      · exact (h c sel' imp' hcls hold).2
      · exact himp
    · change (update s.cache cls _ c).getImp sel'=some imp' at hget
      rw [update_of_ne hne] at hget
      exact (h c sel' imp' hc hget).2
   exact hanswer.congr fun _ _=>⟨rfl,rfl⟩
 · exact h

end Coherent

theorem fillCache_frame : (∀d,(fillCache sel imp cls s).superclass d=s.superclass d) ∧
  (fillCache sel imp cls s).lists=s.lists := by
 rw [fillCache]
 split <;> exact ⟨fun _=>rfl,rfl⟩

theorem lookUpImpOrForward_answer {resolver nocache:Bool} (h:Coherent s []) (hg:Graph s [])
 (hknown:s.known cls=true)
 (ht:lookUpImpOrForward prog fuel sel cls resolver nocache s=some (t,some imp)) :
 Answer t sel cls imp := by
 obtain ⟨u,i,hu,hsearch,ht,ho⟩:=lookUpImpOrForward_cases ht
 obtain rfl : imp=i:=Option.some.inj (ho.resolve_left nofun)
 have hgu:Graph u []:=realizeClass_invariant (fun hstep hx=>hx.realizeStep hstep) hu hknown hg
 have hreal:=(realizeClass_steps (P:=[]) (.inl ⟨rfl,hknown⟩) hu).2
 have hanswer:=(h.realizeClass hknown hu).search hgu hreal hsearch
 rcases ht with rfl|rfl
 · exact hanswer
 · exact hanswer.congr fun d _=>⟨fillCache_frame.1 d,
    ownImp_congr (congrFun fillCache_frame.2 d) sel⟩

theorem Coherent.step {op:Op} (h:Coherent s []) (hg:Graph s []) (hlegal:op.Legal s)
 (hassert:op.Asserted s) (ht:op.step prog s=some t) : Coherent t [] := by
 cases op with
 | realizeClass fuel cls=>exact h.realizeClass hlegal ht
 | loadCategory cat=>exact h.loadCategory hg ht
 | addMethod cls name imp | replaceMethod cls name imp=>exact h.addMethod hg ht
 | addMethodsBulk cls methods | replaceMethodsBulk cls methods=>exact h.addMethods hg ht
 | setImplementation m imp=>exact h.methodSetImplementation hg (fun _ hc=>by cases hc) ht
 | exchangeImplementations m1 m2=>exact h.methodExchangeImplementations hg ht
 | setSuperclass fuel cls newSuper=>
  have hspec:=setSuperclass_spec hg hlegal.1.1 hlegal.1.2 hlegal.2.1.1 hlegal.2.1.2
   hlegal.2.2 hassert ht
  grind [h.moved]
 | duplicateClass original duplicate=>exact h.duplicateClass hg hlegal ht
 | allocateClassPair superclass cls metacls=>
  rcases allocateClassPair_cases hlegal ht with rfl|⟨hsuper,ht⟩
  · exact h
  · exact h.initializeClassPair hg hlegal hsuper ht
 | registerClassPair cls=>
  cases ht
  rw [registerClassPair]
  split
  · exact h.frame rfl rfl rfl rfl
  · exact h
 | setInitialized cls=>
  obtain ⟨u,-,hu,rfl⟩:=setInitialized_spec ht
  exact (h.touched (hu ∅)).frame rfl rfl rfl rfl
 | setCustomDeallocInitiation cls=>
  obtain ⟨f,rfl⟩:=setCustomDeallocInitiation_frame ht
  exact h.frame rfl rfl rfl rfl
 | lookUp fuel sel cls resolver nocache=>
  obtain ⟨u,imp,hu,hsearch,ht⟩:=lookUp_cases ht
  have hgu:Graph u [] :=
   realizeClass_invariant (fun hstep hx=>hx.realizeStep hstep) hu hlegal hg
  have hreal:=(realizeClass_steps (P:=[]) (.inl ⟨rfl,hlegal⟩) hu).2
  have hcu:=h.realizeClass hlegal hu
  rcases ht with rfl|rfl
  · exact hcu
  · exact hcu.fillCache hgu hreal (hcu.search hgu hreal hsearch)

theorem Start.coherent (h:Start s) : Coherent s [] :=
 fun _ _ _ hc=>absurd hc h.not_realized

/-- Caches hold the answers of the method lists, and lookups give them. -/
theorem dispatch_coherent {ops:List Op} (hs:Start s)
 (hops:Along prog (fun op s=>op.Legal s ∧ op.Asserted s) ops s)
 (h:run prog ops s=some t) :
 (∀c sel,t.realized c=true → ∃imp,(∀i,Answer t sel c i ↔ i=imp) ∧
  ∀i,t.getImp c sel=some i → i=imp) ∧
 ∀fuel sel cls resolver nocache u imp,t.known cls=true →
  lookUpImpOrForward prog fuel sel cls resolver nocache t=some (u,some imp) →
  Answer u sel cls imp := by
 have hinv:Graph t [] ∧ Coherent t []:=by
  refine run_invariant (I:=fun s=>Graph s [] ∧ Coherent s []) (fun {op s t} hC hstep hI=>?_)
   hops h ⟨hs.graph,hs.coherent⟩
  exact ⟨hI.1.step hC.1 hC.2 hstep,hI.2.step hI.1 hC.1 hC.2 hstep⟩
 obtain ⟨hg,hcoherent⟩:=hinv
 refine ⟨fun c sel hc=>?_,fun fuel sel cls resolver nocache u imp hknown hu=>?_⟩
 · obtain ⟨imp,himp⟩:=Answer.exists_of_noCycle hg.noCycle sel c
   refine ⟨imp,fun i=>⟨fun hi=>hi.unique himp,fun hi=>hi ▸ himp⟩,fun i hi=>?_⟩
   exact (hcoherent c sel i hc hi).2.unique himp
 · exact lookUpImpOrForward_answer hcoherent hg hknown hu

/-- Three subclasses `2`, `4` and `6` of the root class `0`, a subclass `8` of `4` and a subclass
`10` of `6`, each followed by its metaclass. -/
def forest : State false := .image
 (fun c=>[none,some 0,some 0,some 1,some 0,some 1,some 0,some 1,some 4,some 5,some 6,
  some 7].getD c none)
 (fun c=>if c % 2=1 then 1 else c+1) (fun c=>.ofPair (c % 2=1)) (fun c=>c<12) 6

theorem forest_superclass {c p:ℕ} (h:forest.superclass c=some p) : c<12 ∧ p < c := by
 have hc:c<12:=by
  by_contra hle
  have hnone:forest.superclass c=none:=List.getD_eq_default _ _ (by simpa using hle)
  rw [hnone] at h
  cases h
 have hall:∀c<12,∀p∈forest.superclass c,p < c:=by decide
 exact ⟨hc,hall c hc p h⟩

theorem forest_start : Start forest :=
 image_start (fun _ _ hp=>(forest_superclass hp).1) (by decide)

/-- The class `12` is a duplicate of `10` and shares its metaclass `11`; both get another
superclass. -/
def twoMoves : List Op := [.realizeClass 8 2,.realizeClass 8 8,.realizeClass 8 10,
 .duplicateClass 10 12,.setInitialized 0,.setInitialized 4,.setSuperclass 8 10 4,
 .setSuperclass 8 12 2,.lookUp 8 ⟨20,by decide⟩ 5 false false,
 .addMethod 1 ⟨20,by decide⟩ (rootImp 0)]

theorem move_legal_of_lt {s:State false} {newSuper:Cls}
 (hcls:s.realized cls=true ∧ s.isMetaClass cls=false)
 (hnew:s.realized newSuper=true ∧ s.isMetaClass newSuper=false)
 (h:∀c p : Cls,s.superclass c=some p → p < c) (hlt:newSuper < cls)
 (hmeta:s.isa newSuper < s.isa cls) : (Op.setSuperclass fuel cls newSuper).Legal s :=
 ⟨hcls,hnew,noCycle_moved (fun c p _ _=>h c p) hlt hmeta⟩

theorem twoMoves_legal : Along sampleProgram (fun op s=>op.Legal s) twoMoves forest := by
 have hlt:∀c p : Cls,update forest.superclass 12 (some 6) c=some p → p < c:=by
  intro c p hp
  rw [update_apply] at hp
  split at hp
  · grind
  · exact (forest_superclass hp).2
 have first:Along sampleProgram (fun op s=>op.Legal s) (twoMoves.take 6++[.setSuperclass 8 10 4])
  forest := by
  refine ((along_of_legalRun (by decide +kernel)).mono fun _ _ h=>(Op.legal_of_now h.2).1).append
   fun u hu=>⟨?_,fun _ _=>trivial⟩
  have hsuper:u.superclass=update forest.superclass 12 (some 6):=run_read hu State.superclass rfl
  obtain ⟨hcls,hnew,hisa,hisa'⟩:=run_holds hu
   (fun u=>(u.realized 10=true ∧ u.isMetaClass 10=false) ∧
   (u.realized 4=true ∧ u.isMetaClass 4=false) ∧ u.isa 4=5 ∧ u.isa 10=11) (by decide +kernel)
  exact move_legal_of_lt hcls hnew (hsuper ▸ hlt) (by decide) (by rw [hisa,hisa']; decide)
 have second:Along sampleProgram (fun op s=>op.Legal s) (twoMoves.take 7++[.setSuperclass 8 12 2])
  forest := by
  refine first.append fun u hu=>⟨?_,fun _ _=>trivial⟩
  have hsuper:u.superclass=update (update (update forest.superclass
   12 (some 6)) 10 (some 4)) 11 (some 5) := run_read hu State.superclass rfl
  obtain ⟨hcls,hnew,hisa,hisa'⟩:=run_holds hu
   (fun u=>(u.realized 12=true ∧ u.isMetaClass 12=false) ∧
   (u.realized 2=true ∧ u.isMetaClass 2=false) ∧ u.isa 2=3 ∧ u.isa 12=11) (by decide +kernel)
  refine move_legal_of_lt hcls hnew (fun c p hp=>?_) (by decide) (by rw [hisa,hisa']; decide)
  rw [hsuper,update_apply,update_apply] at hp
  split_ifs at hp with h11 h10
  · rw [h11,←Option.some.inj hp]
    decide
  · rw [h10,←Option.some.inj hp]
    decide
  · exact hlt c p hp
 show Along _ _ ((twoMoves.take 7++[.setSuperclass 8 12 2])++twoMoves.drop 8) _
 exact second.append fun u hu =>
  ⟨run_read hu (·.known 5) (by decide +kernel),fun _ _=>⟨trivial,fun _ _=>trivial⟩⟩

/-- The metaclass `5` keeps a negative entry for a method its superclass has. -/
theorem stale_entry_after_moves : Start forest ∧
 Along sampleProgram (fun op s=>op.Legal s) twoMoves forest ∧
 ∃t,run sampleProgram twoMoves forest=some t ∧ t.realized 5=true ∧
  t.getImp 5 ⟨20,by decide⟩=some msgForwardImpcache ∧ Answer t ⟨20,by decide⟩ 5 200 := by
 obtain ⟨t,ht,hreal,hget,hnone,hsuper,hown⟩:=run_yields (Op.step sampleProgram) twoMoves forest
  (fun t =>
  t.realized 5=true ∧ t.getImp 5 ⟨20,by decide⟩=some msgForwardImpcache ∧
  ownImp t 5 ⟨20,by decide⟩=none ∧ t.superclass 5=some 1 ∧
  ownImp t 1 ⟨20,by decide⟩=some ⟨200,by decide⟩) (by decide +kernel)
 exact ⟨forest_start,twoMoves_legal,t,ht,hreal,hget,.inherited hnone hsuper (.own hown)⟩

def lookUpTwice : List Op := [.realizeClass 8 8,.setInitialized 0,.setInitialized 4,
 .lookUp 8 ⟨20,by decide⟩ 5 false false,.addMethod 1 ⟨20,by decide⟩ (rootImp 0),
 .lookUp 8 ⟨20,by decide⟩ 5 false false]

theorem lookUpTwice_legal :
 Along sampleProgram (fun op s=>op.Legal s ∧ op.Asserted s) lookUpTwice forest :=
 (along_of_legalRun (by decide +kernel)).mono fun _ _ h=>Op.legal_of_now h.2

theorem second_lookup_cached : ∃t,run sampleProgram lookUpTwice forest=some t ∧
 t.getImp 5 ⟨20,by decide⟩=some 200 ∧ Answer t ⟨20,by decide⟩ 5 200 := by
 obtain ⟨t,ht,hreal,hget⟩:=run_yields (Op.step sampleProgram) lookUpTwice forest (fun t =>
  t.realized 5=true ∧ t.getImp 5 ⟨20,by decide⟩=some 200) (by decide +kernel)
 obtain ⟨imp,hanswer,hentry⟩:=(dispatch_coherent forest_start lookUpTwice_legal ht).1 5
  ⟨20,by decide⟩ hreal
 exact ⟨t,ht,hget,(hanswer 200).mpr (hentry 200 hget)⟩

end ObjcRuntime.ClassGraph
