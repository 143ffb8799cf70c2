import ObjcRuntime.ClassOperations

/-!
# Flags that subclasses inherit

`class_setSuperclass` reaches the class it moves but not the classes below it.
-/

set_option autoImplicit false
namespace ObjcRuntime.ClassGraph

open PartialRuns
open SiblingLists
open Function

variable {preopt:Bool} {s t u:State preopt} {prog:Program} {P:List Cls}

def Flags.InheritedBy (f g:Flags) : Prop :=
 (f.hasCxxCtor=true → g.hasCxxCtor=true) ∧ (f.hasCxxDtor=true → g.hasCxxDtor=true) ∧
  (f.hasCustomDeallocInitiation=true → g.hasCustomDeallocInitiation=true) ∧
  (f.forbidsAssociatedObjects=true → g.forbidsAssociatedObjects=true)

namespace Flags.InheritedBy

variable {f f' g g' h:Flags}

theorem refl (f:Flags) : f.InheritedBy f := ⟨id,id,id,id⟩

theorem trans (hfg:f.InheritedBy g) (hgh:g.InheritedBy h) : f.InheritedBy h :=
 ⟨fun hf=>hgh.1 (hfg.1 hf),fun hf=>hgh.2.1 (hfg.2.1 hf),
  fun hf=>hgh.2.2.1 (hfg.2.2.1 hf),fun hf=>hgh.2.2.2 (hfg.2.2.2 hf)⟩

theorem congr (hfg:f.InheritedBy g) (hf:f'.inherited=f.inherited)
 (hg:g'.inherited=g.inherited) : f'.InheritedBy g' := by grind [Flags.inherited,InheritedBy]

theorem inherit (hforbids:f.forbidsAssociatedObjects=true → g.forbidsAssociatedObjects=true) :
 f.InheritedBy (f.inherit g) := by
 refine ⟨fun hf=>?_,fun hf=>?_,fun hf=>?_,hforbids⟩
 all_goals
  change (_ || _)=true
  rw [hf,Bool.or_true]

theorem inherit_le (hfh:f.InheritedBy h) (hgh:g.InheritedBy h) : (f.inherit g).InheritedBy h := by
 refine ⟨fun hi=>?_,fun hi=>?_,fun hi=>?_,fun hi=>hgh.2.2.2 hi⟩
 · exact (Bool.or_eq_true_iff.mp hi).elim hgh.1 hfh.1
 · exact (Bool.or_eq_true_iff.mp hi).elim hgh.2.1 hfh.2.1
 · exact (Bool.or_eq_true_iff.mp hi).elim hgh.2.2.1 hfh.2.2.1

end Flags.InheritedBy

/-- A class waits for its superclass, never the other way round. -/
def Ordered (s:State preopt) (P:List Cls) : Prop :=
 ∃rank : Cls → ℕ,(∀{c p:Cls},s.superclass c=some p → rank p < rank c) ∧
  P.Pairwise fun q r=>s.isMetaClass q=false → s.superclass q≠none →
   s.isMetaClass r=false → rank q < rank r

theorem Graph.ordered (h:Graph s []) : Ordered s [] := by
 obtain ⟨rank,hrank⟩:=h.noCycle
 exact ⟨rank,hrank,.nil⟩

theorem Ordered.realizeStep {x y:State preopt × List Cls} (h:Ordered x.1 x.2)
 (hg:Graph x.1 x.2) (hstep:RealizeStep prog x y) : Ordered y.1 y.2 := by
 obtain ⟨rank,hrank,hpair⟩:=h
 cases hstep with
 | @start s P c hnew hfrom=>
  refine ⟨rank,hrank,List.pairwise_cons.mpr ⟨fun r hr hc hsuper hrkind=>?_,hpair⟩⟩
  change s.isMetaClass c=false at hc
  change s.superclass c≠none at hsuper
  rcases hfrom with ⟨rfl,-⟩|⟨d,Q,rfl,hd⟩
  · cases hr
  have hknown:s.known d=true:=hg.realizedKnown (hg.pending d List.mem_cons_self)
  rcases hd with hd|rfl
  · have hdkind:s.isMetaClass d=false:=by
     by_contra hmeta
     exact hsuper (hg.rootMeta (Bool.not_eq_false _ ▸ hmeta) hd hc).1
    rcases List.mem_cons.mp hr with rfl|hr
    · exact hrank hd
    · have hsome:s.superclass d≠none:=by rw [hd]; simp
      exact (hrank hd).trans ((List.pairwise_cons.mp hpair).1 r hr hdkind hsome hrkind)
  · rw [hg.metaIsa hknown] at hc
    cases hc
 | @finish s t P c hsuper hisa ht=>
  obtain ⟨-,-,hro,hsame⟩:=finishRealizing_kept ht
  refine ⟨rank,fun hp=>hrank (hsame _ ▸ hp),?_⟩
  refine (List.pairwise_cons.mp hpair).2.imp fun hqr hq hs hr=>hqr ?_ (hsame _ ▸ hs) ?_
  · rw [←hq,State.isMetaClass,State.isMetaClass,hro]
  · rw [←hr,State.isMetaClass,State.isMetaClass,hro]

variable {c cls:Cls}

theorem Ordered.superclass_not_pending {p:Cls} (h:Ordered s (c::P)) (hg:Graph s (c::P))
 (hc:s.isMetaClass c=false) (hp:s.superclass c=some p) : p∉c::P := by
 obtain ⟨rank,hrank,hpair⟩:=h
 grind [List.pairwise_cons,hg.superKind]

/-- The classes that are not pending have the flags of their superclasses. -/
def FlagsInherited (s:State preopt) (P:List Cls) : Prop :=
 ∀d p : Cls,s.realized d=true → d∉P → s.isMetaClass d=false → s.superclass d=some p →
  p∉P ∧ (s.flags p).InheritedBy (s.flags d)

namespace FlagsInherited

theorem congr (h:FlagsInherited s P) (hsuper:∀d,t.superclass d=s.superclass d)
 (hro:t.ro=s.ro) (hreal:t.realized=s.realized)
 (hflags:∀d,d∉P → (t.flags d).inherited=(s.flags d).inherited) :
 FlagsInherited t P := by
 intro d p hd hP hkind hp
 rw [hreal] at hd
 rw [State.isMetaClass,hro] at hkind
 rw [hsuper] at hp
 obtain ⟨hin,hle⟩:=h d p hd hP hkind hp
 exact ⟨hin,hle.congr (hflags p hin) (hflags d hP)⟩

theorem touched {X:Set Cls} (h:FlagsInherited s P) (ht:Touched X s t) : FlagsInherited t P :=
 h.congr ht.superclass ht.ro ht.realized fun d _=>ht.inherited d

theorem connect (h:FlagsInherited s (c::P))
 (hc:∀p,s.isMetaClass c=false → s.superclass c=some p → p∉c::P ∧
  ((s.flags p).forbidsAssociatedObjects=true → (s.flags c).forbidsAssociatedObjects=true))
 (ht:connect c s=some t) : FlagsInherited t P := by
 refine FlagsInherited.touched (X:=∅) ?_ (connect_touched ht)
 intro d p hd hP hkind hp
 rw [joined_isMetaClass] at hkind
 rw [joined_superclass] at hp
 have hreal:s.realized d=true:=by
  obtain ⟨l,f,heq,-⟩:=joined_frame (s:=s) c
  rw [heq] at hd
  exact hd
 rw [joined_flags,joined_flags]
 by_cases hdc : d=c
 · subst hdc
   obtain ⟨hin,hforbids⟩:=hc p hkind hp
   rw [List.mem_cons,not_or] at hin
   rw [if_neg hin.1,if_pos rfl,hp]
   exact ⟨hin.2,.inherit hforbids⟩
 · obtain ⟨hin,hle⟩:=h d p hreal (by simp [hdc,hP]) hkind hp
   grind

theorem beginRealizing (h:FlagsInherited s P) (hgraph:Graph s P) (hnew:s.realized c=false) :
 FlagsInherited (beginRealizing c s) (c::P) := by
 intro d p hd hP hkind hp
 rw [List.mem_cons,not_or] at hP
 have hd':s.realized d=true:=by
  rw [←hd]
  exact (update_of_ne hP.1 ..).symm
 have hpc:p≠c:=by
  rintro rfl
  rw [hgraph.superRealized hd' hP.2 hp] at hnew
  cases hnew
 obtain ⟨hin,hflags⟩:=h d p hd' hP.2 hkind hp
 refine ⟨by simp [hpc,hin],?_⟩
 change Flags.InheritedBy (update s.flags c .zero p) (update s.flags c .zero d)
 grind

theorem finishRealizing (h:FlagsInherited s (c::P)) (hgraph:Graph s (c::P))
 (hordered:Ordered s (c::P)) (ht:finishRealizing prog c s=some t) :
 FlagsInherited t P := by
 obtain ⟨u,hu,ht⟩:=Option.bind_eq_some_iff.mp ht
 obtain ⟨v,hv,ht⟩:=Option.bind_eq_some_iff.mp ht
 have hraw:=chooseRawIsa_touched (X:=∅) hu
 have hcopied:FlagsInherited (copyRoFlags c u) (c::P):=by
  refine (h.touched hraw).congr (fun _=>rfl) rfl rfl fun d hd=>?_
  rw [copyRoFlags,modifyFlags_flags,if_neg (List.ne_of_not_mem_cons hd)]
 refine (hcopied.connect (fun p hkind hp=>?_) hv).touched (methodizeClass_touched (X:={c}) ht rfl)
 have hkind:s.isMetaClass c=false:=(hraw.isMetaClass c).symm.trans hkind
 have hpu:u.superclass c=some p:=hp
 have hout:=hordered.superclass_not_pending hgraph hkind ((hraw.superclass c).symm.trans hpu)
 refine ⟨hout,fun hforbids=>?_⟩
 rw [copyRoFlags,modifyFlags_flags,if_neg (List.ne_of_not_mem_cons hout)] at hforbids
 rw [copyRoFlags,modifyFlags_flags,if_pos rfl,hpu]
 change (_ || _ || (u.flags p).forbidsAssociatedObjects)=true
 rw [hforbids,Bool.or_true]

theorem extend {F:List Cls} (h:FlagsInherited s []) (hgraph:Graph s []) (hu:Extends F s u) :
 FlagsInherited u F := by
 intro d p hd hF hkind hp
 rw [hu.realized d hF] at hd
 rw [State.isMetaClass,hu.ro d hF] at hkind
 rw [hu.superclass d hF] at hp
 have hpF:p∉F:=fun hin=>hgraph.unknown_ne (hu.fresh p hin) hp
 rw [hu.flags p hpF,hu.flags d hF]
 exact ⟨hpF,(h d p hd List.not_mem_nil hkind hp).2⟩

theorem duplicateClass {original duplicate:Cls} (h:FlagsInherited s []) (hgraph:Graph s [])
 (hlegal:(Op.duplicateClass original duplicate).Legal s)
 (ht:duplicateClass original duplicate s=some t) : FlagsInherited t [] := by
 obtain ⟨⟨horig,hkind⟩,hdup⟩:=hlegal
 obtain ⟨-,v,hv,-,rfl⟩:=duplicateClass_spec hgraph horig hkind hdup ht
 have hext:=withDuplicate_extends original hdup
 refine ((h.extend hgraph hext).connect (fun p _ hp=>?_) hv).congr (fun _=>rfl) rfl rfl
  fun _ _=>rfl
 have hp:s.superclass original=some p:=by
  rw [withDuplicate,newClass_superclass,update_self] at hp
  exact hp
 have hout:p≠duplicate:=known_ne (hgraph.superKnown hp).2 hdup
 refine ⟨by simp [hout],fun hforbids=>?_⟩
 rw [hext.flags p (by simp [hout])] at hforbids
 have horiginal:=(h original p horig List.not_mem_nil hkind hp).2.2.2.2 hforbids
 have hcopy:(withDuplicate original duplicate s).flags duplicate =
  (s.flags original).withEmptyCache := update_self ..
 rw [hcopy]
 exact horiginal

theorem initializeClassPair {superclass:Option Cls} {metacls:Cls} (h:FlagsInherited s [])
 (hgraph:Graph s []) (hlegal:(Op.allocateClassPair superclass cls metacls).Legal s)
 (hsuper:∀p,superclass=some p → s.realized p=true ∧ s.isMetaClass p=false)
 (ht:initializeClassPair superclass cls metacls s=some t) : FlagsInherited t [] := by
 obtain ⟨hne,hcls,hmeta,-⟩:=hlegal
 obtain ⟨-,v,hv,-,ht,-⟩:=initializeClassPair_spec hgraph hne hcls hmeta hsuper ht
 have hext:=withPair_extends superclass hcls hmeta
 obtain ⟨hs1,-⟩:=withPair_superclass s superclass hne
 have hfirst:FlagsInherited v [metacls]:=by
  refine (h.extend hgraph hext).connect (fun p _ hp=>?_) hv
  rw [hs1] at hp
  have hknown:=hgraph.realizedKnown (hsuper p hp).1
  have hout:p∉[cls,metacls]:=by simp [known_ne hknown hcls,known_ne hknown hmeta]
  refine ⟨hout,fun hforbids=>?_⟩
  rw [hext.flags p hout] at hforbids
  rw [withPair,setInstancesRequireRawIsa,modifyFlags_flags,if_neg hne]
  change (update (update s.flags cls _) metacls _ cls).forbidsAssociatedObjects=_
  grind
 refine hfirst.connect (fun p hkind _=>?_) ht
 have hmetacls:(withPair superclass cls metacls s).isMetaClass metacls=true:=by
  rw [State.isMetaClass,show (withPair superclass cls metacls s).ro metacls=.ofPair true from
   update_self ..]
  rfl
 rw [(connect_touched (X:=∅) hv).isMetaClass,joined_isMetaClass,hmetacls] at hkind
 cases hkind

theorem setCustomDeallocInitiation (h:FlagsInherited s []) (hgraph:Graph s [])
 (ht:setCustomDeallocInitiation cls s=some t) : FlagsInherited t [] := by
 obtain ⟨hlinks,-,hro,-,hreal⟩:=setCustomDeallocInitiation_sameShape ht
 rw [ClassGraph.setCustomDeallocInitiation] at ht
 split at ht
 · cases ht
   exact h
 obtain ⟨⟨t,k⟩,hwalk,rfl⟩:=Option.map_eq_some_iff.mp ht
 obtain ⟨rank,hrank⟩:=hgraph.noCycle
 have htrav:=walk_traverse hgraph.lists hrank hwalk
 have hset:∀(c d:Cls) (v:State preopt),(setHasCustomDeallocInitiation c v).flags d =
  if d=c then {v.flags c with hasCustomDeallocInitiation:=true} else v.flags d :=
  fun _ _ _=>modifyFlags_flags ..
 -- the other flags stay, and this one is only set
 have hkept:∀d,(t.flags d).hasCxxCtor=(s.flags d).hasCxxCtor ∧
  (t.flags d).hasCxxDtor=(s.flags d).hasCxxDtor ∧
  (t.flags d).forbidsAssociatedObjects=(s.flags d).forbidsAssociatedObjects ∧
  ((s.flags d).hasCustomDeallocInitiation=true →
    (t.flags d).hasCustomDeallocInitiation=true) := by
  intro d
  refine htrav.invariant (I:=fun v=>(v.flags d).hasCxxCtor=(s.flags d).hasCxxCtor ∧
   (v.flags d).hasCxxDtor=(s.flags d).hasCxxDtor ∧
   (v.flags d).forbidsAssociatedObjects=(s.flags d).forbidsAssociatedObjects ∧
   ((s.flags d).hasCustomDeallocInitiation=true →
     (v.flags d).hasCustomDeallocInitiation=true)) (fun c v hv=>?_) ⟨rfl,rfl,rfl,id⟩
  grind
 intro d p hd _ hkind hp
 change t.realized d=true at hd
 change t.superclass d=some p at hp
 rw [hreal] at hd
 rw [State.isMetaClass,hro] at hkind
 have hp:s.superclass d=some p:=by
  rw [←hp,State.superclass,State.superclass,hlinks]
 obtain ⟨hctor,hdtor,hdealloc,hforbids⟩:=(h d p hd List.not_mem_nil hkind hp).2
 refine ⟨List.not_mem_nil,?_,?_,fun hnew=>?_,?_⟩
 · rw [(hkept p).1,(hkept d).1]
   exact hctor
 · grind
 · by_cases hold : (s.flags p).hasCustomDeallocInitiation=true
   · exact (hkept d).2.2.2 (hdealloc hold)
   · refine htrav.visits_marked (x:=d) (p:=p)
      (M:=fun c v=>(v.flags c).hasCustomDeallocInitiation=true)
      (Q:=fun v=>(v.flags d).hasCustomDeallocInitiation=true) hgraph.lists
      ⟨hd,List.not_mem_nil⟩ hp (fun c v hno hyes=>⟨?_,rfl⟩) (fun v=>?_) (fun c v hv=>?_)
      hold hnew
     · grind
     · rw [hset,if_pos rfl]
     · grind
 · grind

end FlagsInherited

/-- A class may move if its new superclass brings no flag that would have to go further down, and
none that `addSubclass` does not copy. -/
def Op.KeepsFlags : Op → State preopt → Prop
 | .setSuperclass _ cls newSuper,s=>
  ((s.flags newSuper).forbidsAssociatedObjects=true → (s.flags cls).forbidsAssociatedObjects=true) ∧
  ∀d,s.realized d=true → s.isMetaClass d=false → s.superclass d=some cls →
   (s.flags newSuper).InheritedBy (s.flags d)
 | _,_=>True

theorem Moved.flags {newSuper:Cls} {u v w x:State preopt} (h:Moved cls newSuper s u v w x t)
 {d:Cls} (hd:d≠s.isa cls) :
 (t.flags d).inherited=(if d=cls then (s.flags newSuper).inherit (s.flags cls)
  else s.flags d).inherited := by
 obtain ⟨l,rfl⟩:=h.detached
 rw [(flushCaches_touched (X:=∅) h.flushedMeta).inherited,
  (flushCaches_touched (X:=∅) h.flushed).inherited,
  (addSubclass_touched (X:=∅) h.addedMeta).inherited,modifyFlags_flags,if_neg hd]
 change (v.flags d).inherited=_
 rw [(addSubclass_touched (X:=∅) h.addedClass).inherited,modifyFlags_flags]
 rfl

theorem Moved.flagsInherited_iff {newSuper:Cls} {fuel:ℕ} {u v w x:State preopt}
 (hmoved:Moved cls newSuper s u v w x t) (h:FlagsInherited s []) (hgraph:Graph s [])
 (hlegal:(Op.setSuperclass fuel cls newSuper).Legal s) :
 FlagsInherited t [] ↔ (Op.setSuperclass fuel cls newSuper).KeepsFlags s := by
 obtain ⟨⟨hcls,hkind⟩,⟨hnew,hnewKind⟩,rank,hrank⟩:=hlegal
 obtain ⟨⟨-,-,hro⟩,hparent,hreal⟩:=hmoved.nodes
 have hsuper:=congrFun hparent
 clear hparent
 have hmeta:=hgraph.metaIsa (hgraph.realizedKnown hcls)
 -- classes that are not metaclasses
 have hout:∀{d:Cls},s.isMetaClass d=false → d≠s.isa cls:=by grind
 have hsuper':∀{d:Cls},s.isMetaClass d=false →
  t.superclass d=if d=cls then some newSuper else s.superclass d := by
  intro d hd
  rw [hsuper,movedParent_apply,if_neg (hout hd)]
 have hne:newSuper≠cls:=by grind
 have hflagsCls:(t.flags cls).inherited=((s.flags newSuper).inherit (s.flags cls)).inherited:=by
  rw [hmoved.flags (hout hkind),if_pos rfl]
 have hflags:∀{d:Cls},s.isMetaClass d=false → d≠cls →
  (t.flags d).inherited=(s.flags d).inherited := by
  intro d hd hdc
  rw [hmoved.flags (hout hd),if_neg hdc]
 have hkindT:∀d,t.isMetaClass d=s.isMetaClass d:=fun d=>by
  rw [State.isMetaClass,State.isMetaClass,hro]
 constructor
 · intro hclosed
   have htop:=(hclosed cls newSuper (hreal ▸ hcls) List.not_mem_nil ((hkindT cls).trans hkind)
    (by rw [hsuper' hkind,if_pos rfl])).2.congr (hflags hnewKind hne).symm hflagsCls.symm
   refine ⟨htop.2.2.2,fun d hd hdkind hdp=>?_⟩
   have hdc:d≠cls:=by
    rintro rfl
    obtain ⟨rank',hrank'⟩:=hgraph.noCycle
    exact lt_irrefl _ (hrank' hdp)
   have hbelow:=(hclosed d cls (hreal ▸ hd) List.not_mem_nil ((hkindT d).trans hdkind)
    (by rw [hsuper' hdkind,if_neg hdc]; exact hdp)).2
   exact htop.trans (hbelow.congr hflagsCls.symm (hflags hdkind hdc).symm)
 · rintro ⟨hforbids,hchildren⟩ d p hd-hdkind hdp
   refine ⟨List.not_mem_nil,?_⟩
   rw [hreal] at hd
   rw [hkindT] at hdkind
   rw [hsuper' hdkind] at hdp
   split at hdp
   · case isTrue hdc =>
     subst hdc
     obtain rfl:=Option.some.inj hdp
     exact (Flags.InheritedBy.inherit hforbids).congr (hflags hnewKind hne) hflagsCls
   · case isFalse hdc =>
     have hold:=(h d p hd List.not_mem_nil hdkind hdp).2
     by_cases hpc : p=cls
     · subst hpc
       exact ((hchildren d hd hdkind hdp).inherit_le hold).congr hflagsCls (hflags hdkind hdc)
     · exact hold.congr (hflags (hgraph.superKind hdkind hdp) hpc) (hflags hdkind hdc)

theorem FlagsInherited.realizeClass {fuel:ℕ} (h:FlagsInherited s []) (hgraph:Graph s [])
 (hknown:s.known cls=true) (ht:realizeClassWithoutSwift prog fuel cls s=some t) :
 FlagsInherited t [] := by
 refine (realizeClass_invariant (I:=fun s P=>Graph s P ∧ Ordered s P ∧ FlagsInherited s P)
  (fun {x y} hstep hx=>?_) ht hknown ⟨hgraph,hgraph.ordered,h⟩).2.2
 obtain ⟨hg,ho,hi⟩:=hx
 refine ⟨hg.realizeStep hstep,ho.realizeStep hg hstep,?_⟩
 cases hstep with
 | start hnew hfrom=>exact hi.beginRealizing hg hnew
 | finish hsuper hisa ht=>exact hi.finishRealizing hg ho ht

theorem FlagsInherited.step {op:Op} (h:FlagsInherited s []) (hgraph:Graph s [])
 (hlegal:op.Legal s) (hassert:op.Asserted s) (hkeeps:op.KeepsFlags s)
 (ht:op.step prog s=some t) : FlagsInherited t [] := by
 have refresh:∀{u:State preopt},FlagsInherited u [] → SameShape u t ∧ t.flags=u.flags →
  FlagsInherited t [] := fun hu same =>
  hu.congr (congrFun same.1.sameNodes.superclass) same.1.ro same.1.realized fun _ _=>by
   rw [same.2]
 cases Op.effect hgraph hlegal hassert ht with
 | touched hX same=>exact refresh (h.touched hX) same
 | realized hknown hu same=>exact refresh (h.realizeClass hgraph hknown hu) same
 | moved hmoved=>exact (hmoved.flagsInherited_iff h hgraph hlegal).mpr hkeeps
 | duplicated ht=>exact h.duplicateClass hgraph hlegal ht
 | paired hsuper ht=>exact h.initializeClassPair hgraph hlegal hsuper ht
 | initiated ht=>exact h.setCustomDeallocInitiation hgraph ht

theorem Start.flagsInherited (h:Start s) : FlagsInherited s [] :=
 fun _ _ hd=>absurd hd h.not_realized

theorem FlagsInherited.ancestor {p d:Cls} (h:FlagsInherited s []) (hgraph:Graph s [])
 (hd:s.realized d=true) (hkind:s.isMetaClass d=false) (hp:Ancestor s p d) :
 (s.realized p=true ∧ s.isMetaClass p=false) ∧ (s.flags p).InheritedBy (s.flags d) := by
 induction hp with
 | refl=>exact ⟨⟨hd,hkind⟩,.refl _⟩
 | @tail p q _ hq ih=>
  obtain ⟨⟨hreal,hpkind⟩,hle⟩:=ih
  refine ⟨⟨hgraph.superRealized hreal List.not_mem_nil hq,hgraph.superKind hpkind hq⟩,?_⟩
  exact (h p q hreal List.not_mem_nil hpkind hq).2.trans hle

theorem inherited_flags_closed {ops:List Op} (hs:Start s)
 (hops:Along prog (fun op s=>op.Legal s ∧ op.Asserted s ∧ op.KeepsFlags s) ops s)
 (h:run prog ops s=some t) {p d:Cls} (hd:t.realized d=true)
 (hkind:t.isMetaClass d=false) (hp:Ancestor t p d) :
 (t.flags p).InheritedBy (t.flags d) := by
 have hinv:Graph t [] ∧ FlagsInherited t []:=by
  refine run_invariant (I:=fun s=>Graph s [] ∧ FlagsInherited s []) (fun {op s t} hC hstep hI=>?_)
   hops h ⟨hs.graph,hs.flagsInherited⟩
  obtain ⟨hlegal,hassert,hkeeps⟩:=hC
  exact ⟨hI.1.step hlegal hassert hstep,hI.2.step hI.1 hlegal hassert hkeeps hstep⟩
 exact (hinv.2.ancestor hinv.1 hd hkind hp).2

def cxxImage (forbids:Bool) : State false := .image
 (fun c=>if c=1 ∨ c=2 then some 0 else if c=3 then some 1 else none)
 (fun c=>if c=2 then 3 else 1) (fun c=>⟨c % 2=1,c=2,false,c=2 && forbids,false,none⟩)
 (fun c=>c<4) 2

theorem cxxImage_superclass (forbids:Bool) {p:Cls} (h:(cxxImage forbids).superclass c=some p) :
 c=1 ∧ p=0 ∨ c=2 ∧ p=0 ∨ c=3 ∧ p=1 := by grind [State.superclass,cxxImage]

theorem cxxImage_start (forbids:Bool) : Start (cxxImage forbids) := by
 refine image_start (fun c p hp=>?_) (by cases forbids <;> decide)
 rcases cxxImage_superclass forbids hp with ⟨rfl,-⟩|⟨rfl,-⟩|⟨rfl,-⟩ <;> decide

def moveAbove : List Op := [.realizeClass 4 2,.allocateClassPair (some 0) 4 5,.registerClassPair 4,
 .allocateClassPair (some 4) 6 7,.setSuperclass 8 4 2]

def moveBefore : List Op := [.realizeClass 4 2,.allocateClassPair (some 0) 4 5,
 .registerClassPair 4,.setSuperclass 8 4 2,.allocateClassPair (some 4) 6 7]

abbrev Movable (s:State false) : Prop := (s.realized 4=true ∧ s.isMetaClass 4=false) ∧
 (s.realized 2=true ∧ s.isMetaClass 2=false) ∧ (s.isa 4=5 ∧ s.isa 2=3 ∧ s.isa 0=1) ∧
 s.superclass 4=some 0 ∧ s.superclass 5=some 1

theorem move_legal {s:State false} (hs:Movable s)
 (h:∀c p : Cls,c≠4 → c≠5 → s.superclass c=some p → p < c) :
 (Op.setSuperclass 8 4 2).Legal s ∧ (Op.setSuperclass 8 4 2).Asserted s := by
 obtain ⟨hcls,hnew,⟨h4,h2,h0⟩,hsuper,hmeta⟩:=hs
 refine ⟨⟨hcls,hnew,noCycle_moved (fun c p hc hc' hp=>h c p hc (h4 ▸ hc') hp) ?_ ?_⟩,
  fun old hold=>?_⟩
 · decide
 · rw [h4,h2]
   decide
 · rw [hsuper,Option.some.injEq] at hold
   rw [h4,hmeta,←hold,h0]

theorem moveAbove_asserted : Along sampleProgram (fun op s=>op.Legal s ∧ op.Asserted s) moveAbove
 (cxxImage true) := by
 show Along _ _ (moveAbove.take 4++[.setSuperclass 8 4 2]) _
 refine ((along_of_legalRun (by decide +kernel)).mono fun _ _ h=>Op.legal_of_now h.2).append
  fun u hu=>⟨?_,fun _ _=>trivial⟩
 have hsuper:u.superclass=update (update (update (update
  (cxxImage true).superclass 4 (some 0)) 5 (some 1)) 6 (some 4)) 7 (some 5) :=
  run_read hu State.superclass rfl
 refine move_legal (run_holds hu Movable (by decide +kernel)) fun c p h4 h5 hp=>?_
 simp only [hsuper,update_apply,if_neg h4,if_neg h5] at hp
 grind [cxxImage_superclass]

theorem subclass_misses_flags : ∃t,Start (cxxImage true) ∧
 Along sampleProgram (fun op s=>op.Legal s ∧ op.Asserted s) moveAbove (cxxImage true) ∧
 run sampleProgram moveAbove (cxxImage true)=some t ∧
 (t.realized 6=true ∧ t.isMetaClass 6=false ∧ Ancestor t 2 6) ∧
 ((t.flags 2).hasCxxCtor=true ∧ (t.flags 6).hasCxxCtor=false) ∧
 ((t.flags 2).hasCxxDtor=true ∧ (t.flags 6).hasCxxDtor=false) ∧
 ((t.flags 2).forbidsAssociatedObjects=true ∧ (t.flags 4).forbidsAssociatedObjects=false) := by
 have hread:=run_yields (Op.step sampleProgram) moveAbove (cxxImage true)
  (fun t=>(t.realized 6=true ∧
  t.isMetaClass 6=false ∧ t.superclass 6=some 4 ∧ t.superclass 4=some 2) ∧
  ((t.flags 2).hasCxxCtor=true ∧ (t.flags 6).hasCxxCtor=false) ∧
  ((t.flags 2).hasCxxDtor=true ∧ (t.flags 6).hasCxxDtor=false) ∧
  (t.flags 2).forbidsAssociatedObjects=true ∧ (t.flags 4).forbidsAssociatedObjects=false)
  (by decide +kernel)
 obtain ⟨t,ht,⟨hreal,hkind,h6,h4⟩,hflags⟩:=hread
 exact ⟨t,cxxImage_start true,moveAbove_asserted,ht,⟨hreal,hkind,.tail (.single h6) h4⟩,hflags⟩

theorem moveBefore_keepsFlags : Along sampleProgram
 (fun op s=>op.Legal s ∧ op.Asserted s ∧ op.KeepsFlags s) moveBefore (cxxImage false) := by
 have plain:∀(op:Op) (s:State false),op.legalNow s=true →
  op.Legal s ∧ op.Asserted s ∧ op.KeepsFlags s := fun op s h=>by
  obtain ⟨hlegal,hassert⟩:=Op.legal_of_now h
  refine ⟨hlegal,hassert,?_⟩
  cases op <;> trivial
 have moved:Along sampleProgram (fun op s=>op.Legal s ∧ op.Asserted s ∧ op.KeepsFlags s)
  (moveBefore.take 3++[.setSuperclass 8 4 2]) (cxxImage false) := by
  refine ((along_of_legalRun (by decide +kernel)).mono fun op s h=>plain op s h.2).append
   fun u hu=>⟨?_,fun _ _=>trivial⟩
  have hsuper:u.superclass=update (update (cxxImage false).superclass
   4 (some 0)) 5 (some 1) := run_read hu State.superclass rfl
  have hold:∀c p : Cls,c≠4 → c≠5 → u.superclass c=some p → p < c ∧ p≠4:=by
   intro c p h4 h5 hp
   rw [hsuper,update_of_ne h5,update_of_ne h4] at hp
   rcases cxxImage_superclass _ hp with ⟨rfl,rfl⟩|⟨rfl,rfl⟩|⟨rfl,rfl⟩ <;> decide
  have hallows:=run_holds hu (fun u=>(u.flags 2).forbidsAssociatedObjects=false)
   (by decide +kernel)
  obtain ⟨hlegal,hassert⟩:=move_legal (run_holds hu Movable (by decide +kernel))
   fun c p h4 h5 hp=>(hold c p h4 h5 hp).1
  refine ⟨hlegal,hassert,fun hforbids=>?_,fun d _ _ hd=>?_⟩
  · rw [hallows] at hforbids
    cases hforbids
  · by_cases h4 : d=4
    · rw [h4,hsuper] at hd
      cases hd
    by_cases h5 : d=5
    · rw [h5,hsuper] at hd
      cases hd
    · exact absurd rfl (hold d 4 h4 h5 hd).2
 show Along _ _ ((moveBefore.take 3++[.setSuperclass 8 4 2])++[.allocateClassPair (some 4) 6 7]) _
 exact moved.append fun w hw=>
  ⟨plain _ w (run_holds hw (fun w=>Op.legalNow _ w=true) (by decide +kernel)),fun _ _=>trivial⟩

theorem later_subclass_has_flags : ∃t,run sampleProgram moveBefore (cxxImage false)=some t ∧
 Ancestor t 2 6 ∧ (t.flags 2).hasCxxDtor=true ∧ (t.flags 6).hasCxxDtor=true := by
 obtain ⟨t,ht,h6,h4,hflag,hreal,hkind⟩:=run_yields (Op.step sampleProgram) moveBefore
  (cxxImage false) (fun t =>
  t.superclass 6=some 4 ∧ t.superclass 4=some 2 ∧ (t.flags 2).hasCxxDtor=true ∧
  t.realized 6=true ∧ t.isMetaClass 6=false) (by decide +kernel)
 have hanc:Ancestor t 2 6:=.tail (.single h6) h4
 have hclosed:=inherited_flags_closed (cxxImage_start false) moveBefore_keepsFlags ht hreal
  hkind hanc
 exact ⟨t,ht,hanc,hflag,hclosed.2.1 hflag⟩

end ObjcRuntime.ClassGraph
