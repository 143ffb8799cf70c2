import ObjcRuntime.CustomFlags

/-!
# The scanners

Each scanner keeps the flags of its bundle right.  The scanner for changed methods watches NSObject
and its metaclass only.
-/

set_option autoImplicit false
namespace ObjcRuntime.ClassGraph

open MethodLookup (Sel MethodImp)
open SiblingLists

variable {preopt:Bool} {s t u:State preopt} {prog:Program} {b:Bundle} {P:List Cls}

structure Roots (prog:Program) (s:State preopt) : Prop where
 nsObject : s.known prog.nsObject=true ∧ s.isMetaClass prog.nsObject=false
 isa : s.isa prog.nsObject=prog.nsObjectMeta
 swift : ∀c,prog.isSwiftObject c=true → s.known c=true ∧
  (s.isMetaClass c=false → prog.isSwiftObject (s.isa c)=true)

namespace Roots

variable {r:Cls} {isMeta:Bool}

theorem nsoClass (h:Roots prog s) (hg:Graph s P) (isMeta:Bool) :
 s.known (prog.nsoClass isMeta)=true ∧ s.isMetaClass (prog.nsoClass isMeta)=isMeta := by
 cases isMeta with
 | false=>exact h.nsObject
 | true=>
  rw [Program.nsoClass,if_pos rfl,←h.isa]
  exact ⟨hg.isaKnown h.nsObject.1,hg.metaIsa h.nsObject.1⟩

theorem known (h:Roots prog s) (hg:Graph s P)
 (hr:knownClassHasDefaultImpl prog b r isMeta=true) : s.known r=true := by
 grind [knownClassHasDefaultImpl,h.nsoClass,h.swift]

theorem isa_trusted (h:Roots prog s) (hr:Trusted prog b s r)
 (hkind:s.isMetaClass r=false) : knownClassHasDefaultImpl prog b (s.isa r) true=true := by
 rw [Trusted,knownClassHasDefaultImpl,Bool.or_eq_true_iff] at hr
 rw [knownClassHasDefaultImpl,Bool.or_eq_true_iff]
 rcases hr with hr|hr
 · left
   have heq:=of_decide_eq_true hr
   rw [hkind] at heq
   rw [heq]
   exact decide_eq_true h.isa
 · right
   obtain ⟨hcore,hswift⟩:=Bool.and_eq_true_iff.mp hr
   rw [hcore,(h.swift r hswift).2 hkind]
   rfl

theorem congr (h:Roots prog s) (ht:SameShape s t) : Roots prog t where
 nsObject := by
  rw [ht.known,isMetaClass_congr (congrFun ht.ro _)]
  exact h.nsObject
 isa := by
  rw [ht.isa]
  exact h.isa
 swift c hc := by
  rw [ht.known,isMetaClass_congr (congrFun ht.ro c),ht.isa]
  exact h.swift c hc

end Roots

/-- What holds between the steps of an operation; `P` are the pending classes of the graph. -/
structure Flagged (prog:Program) (b:Bundle) (P:List Cls) (X E:Set Cls) (s:State preopt) : Prop where
 graph : Graph s P
 roots : Roots prog s
 pending : ∀c∈P,c∈E ∨ s.isCustom b c=true
 sound : Sound prog b X E s
 masked : Masked prog b s

variable {added:List (List Method)}

namespace Flagged

variable {X E X' E':Set Cls} {cls:Cls}

theorem mono (h:Flagged prog b P X E s) (hX:X ⊆ X') (hE:E ⊆ E') : Flagged prog b P X' E' s :=
 { h with
   pending := fun c hc=>(h.pending c hc).imp_left fun hin=>hE hin
   sound := h.sound.mono hX hE }

theorem congr (h:Flagged prog b P X E s) (hshape:SameShape s t) (hsame:SameFor b s t) :
 Flagged prog b P X E t where
 graph := h.graph.congr hshape
 roots := h.roots.congr hshape
 pending c hc := by
  rw [hsame.isCustom]
  exact h.pending c hc
 sound := h.sound.congr hsame
 masked isMeta hmask := by
  rw [hsame.swizzled] at hmask
  rw [hsame.isCustom]
  exact h.masked isMeta hmask

theorem marks {b':Bundle} (hne:b'≠b) : Marks b' (fun u:State preopt=>Flagged prog b P X E u) where
 custom c hu := hu.congr (touched_marks.custom c (.refl ∅ _)).sameShape
  ((sameFor_marks hne).custom c (.refl b _))
 swizzled isMeta hu := hu.congr (touched_marks.swizzled isMeta (.refl ∅ _)).sameShape
  ((sameFor_marks hne).swizzled isMeta (.refl b _))

section

variable (h:Flagged prog b P X E s)
include h

theorem flushCaches {cls:Option Cls} {predicate:State preopt → Cls → Bool}
 (ht:flushCaches cls predicate s=some t) :
 Flagged prog b P X E t :=
 h.congr (flushCaches_touched (X:=∅) ht).sameShape (flushCaches_sameFor ht)

theorem setCustomRecursively
 (ht:setCustomRecursively b cls s=some t) : Flagged prog b P X (E \ {cls}) t := by
 have hmarked:=setCustomRecursively_spec h.graph ht
 have hshape:=(touched_marks.recursively ht (.refl ∅ s)).sameShape
 refine ⟨h.graph.congr hshape,h.roots.congr hshape,fun c hc=>?_,
  h.sound.marked hmarked fun c hc=>.inr (h.pending c hc),fun isMeta hmask=>?_⟩
 · by_cases heq : c=cls
   · exact .inr (heq ▸ hmarked.top)
   · exact (h.pending c hc).imp (fun hin=>⟨hin,heq⟩) (hmarked.grows c)
 · obtain ⟨f,rfl⟩:=hmarked.frame
   exact hmarked.grows _ (h.masked isMeta hmask)

theorem scanAddedMethodLists
 (ht:scanAddedMethodLists prog cls added b s=some t) : Flagged prog b P X E t ∧
  (t.isCustom b cls=true ∨ scanMethodLists prog b added=false) := by
 rw [ClassGraph.scanAddedMethodLists] at ht
 split at ht
 · grind
 split at ht
 · exact ⟨(h.setCustomRecursively ht).mono subset_rfl Set.sdiff_subset,
    .inl (setCustomRecursively_spec h.graph ht).top⟩
 · grind

theorem prepareMethodLists
 (ht:prepareMethodLists prog cls added s=some t) : Flagged prog b P X E t ∧
  (t.isCustom b cls=true ∨ scanMethodLists prog b added=false) := by
 rw [ClassGraph.prepareMethodLists] at ht
 split at ht
 · refine forBundles_own (I:=Flagged prog b P X E)
    (fun hne hv hu=>(marks hne).addedMethodLists hv hu)
    (fun hne hv hu=>⟨(marks hne).addedMethodLists hv hu.1,?_⟩)
    (fun hv hu=>hu.scanAddedMethodLists hv) ht h
   rw [((sameFor_marks hne).addedMethodLists hv (.refl b _)).isCustom]
   exact hu.2
 · case isFalse hinit =>
   cases ht
   refine ⟨h,.inl ?_⟩
   by_contra hcustom
   exact hinit (h.sound.settled cls (Bool.eq_false_iff.mpr hcustom)).2.1

theorem attach
 (hok:s.isCustom b cls=true ∨ scanMethodLists prog b added=false) :
 Flagged prog b P X E (attachLists cls added s) where
 graph := h.graph.congr ⟨rfl,rfl,rfl,rfl,rfl⟩
 roots := h.roots.congr ⟨rfl,rfl,rfl,rfl,rfl⟩
 pending := h.pending
 sound := h.sound.attach hok
 masked := h.masked

theorem scanAddedSubClass {c p:Cls} (hc:c∉P)
 (hp:s.superclass c=some p) (hkind:s.isCustom b c=true ∨ s.isMetaClass p=s.isMetaClass c)
 (ht:scanAddedSubClass c p b s=some t) : Flagged prog b P X (E \ {c}) t := by
 rw [ClassGraph.scanAddedSubClass] at ht
 split at ht
 · exact h.setCustomRecursively ht
 · case isFalse hno =>
   cases ht
   refine { h with
    pending := fun d hd=>(h.pending d hd).imp_left fun hin=>⟨hin,?_⟩
    sound := h.sound.unexempt ?_ }
   · rintro rfl
     exact hc hd
   · by_cases hcustom : s.isCustom b c=true
     · exact .inl hcustom
     · refine .inr (.inr ⟨p,hp,?_,hkind.resolve_left hcustom⟩)
       grind

end

theorem addSubclass {c p:Cls} (h:Flagged prog b (c::P) X E s) (hp:s.superclass c=some p)
 (hsuper:s.realized p=true) (hisa:s.realized (s.isa c)=true)
 (hkind:s.isCustom b c=true ∨ s.isMetaClass p=s.isMetaClass c)
 (ht:addSubclass p c s=some t) : Flagged prog b P X (E \ {c}) t := by
 obtain ⟨u,hu,ht⟩:=Option.bind_eq_some_iff.mp ht
 obtain ⟨hnot,-⟩:=List.nodup_cons.mp h.graph.nodup
 have hlinked:Graph (s.linkSubclass p c) P:=by
  have hlink:=h.graph.link
   (fun q hq=>by rw [hp,Option.some.injEq] at hq; exact hq ▸ hsuper) hisa
  rw [hp] at hlink
  exact hlink
 have hlinkSame:SameFor b s (s.linkSubclass p c) :=
  ⟨fun _=>rfl,rfl,rfl,rfl,rfl,fun _=>rfl,rfl,fun _=>rfl⟩
 have hsame:SameFor b s ((s.linkSubclass p c).modifyFlags c (Flags.inherit (s.flags p))) :=
  hlinkSame.trans (sameFor_modifyFlags (f:=Flags.inherit (s.flags p)) fun _=>rfl)
 have hstart:Flagged prog b P X E
  ((s.linkSubclass p c).modifyFlags c (Flags.inherit (s.flags p))) := by
  refine ⟨hlinked.congr ⟨rfl,rfl,rfl,rfl,rfl⟩,⟨h.roots.nsObject,h.roots.isa,h.roots.swift⟩,
   fun d hd=>?_,h.sound.congr hsame,fun isMeta hmask=>?_⟩
  · rw [hsame.isCustom]
    exact h.pending d (List.mem_cons_of_mem _ hd)
  · rw [hsame.isCustom]
    exact h.masked isMeta hmask
 have hscanned:Flagged prog b P X (E \ {c}) u:=by
  refine forBundles_own (I:=fun u=>Flagged prog b P X E u ∧ u.superclass c=some p ∧
   (u.isCustom b c=true ∨ u.isMetaClass p=u.isMetaClass c)) (fun hne hv hw=>?_)
   (fun hne hv hw=>?_) (fun hv hw=>hw.1.scanAddedSubClass hnot hw.2.1 hw.2.2 hv) hu
   ⟨hstart,hp,?_⟩
  · have hother:=(sameFor_marks hne).addedSubClass hv (.refl b _)
    rw [hother.superclass,hother.isCustom,hother.isMetaClass,hother.isMetaClass]
    exact ⟨(marks hne).addedSubClass hv hw.1,hw.2⟩
  · exact (marks hne).addedSubClass hv hw
  · rw [hsame.isCustom,hsame.isMetaClass,hsame.isMetaClass]
    exact hkind
 split at ht
 · exact hscanned.congr (rawIsaRecursively_touched (X:=∅) ht).sameShape
    (rawIsaRecursively_sameFor ht)
 · cases ht
   exact hscanned

theorem connect {c:Cls} (h:Flagged prog b (c::P) X E s)
 (hsuper:∀p,s.superclass c=some p → s.realized p=true)
 (hisa:s.realized (s.isa c)=true)
 (hkind:∀p,s.superclass c=some p → s.isCustom b c=true ∨ s.isMetaClass p=s.isMetaClass c)
 (hroot:s.superclass c=none → s.isCustom b c=true ∨ HasDefaults prog b s c)
 (ht:connect c s=some t) : Flagged prog b P X (E \ {c}) t := by
 rw [ClassGraph.connect] at ht
 split at ht
 · case h_1 p hp=>exact h.addSubclass hp (hsuper p hp) hisa (hkind p hp) ht
 · case h_2 hp =>
   cases ht
   obtain ⟨hnot,-⟩:=List.nodup_cons.mp h.graph.nodup
   have hlink:=h.graph.link hsuper hisa
   rw [hp] at hlink
   have hsame:SameFor b s (addRootClass c s) :=
    ⟨fun _=>rfl,rfl,rfl,rfl,rfl,fun _=>rfl,rfl,fun _=>rfl⟩
   have hsound:=(h.sound.unexempt ((hroot hp).imp_right .inl)).congr hsame
   refine ⟨hlink,⟨h.roots.nsObject,h.roots.isa,h.roots.swift⟩,fun d hd=>?_,hsound,h.masked⟩
   refine (h.pending d (List.mem_cons_of_mem _ hd)).imp_left fun hin=>⟨hin,?_⟩
   rintro rfl
   exact hnot hd

theorem setNSObjectSwizzled {isMeta:Bool} (h:Flagged prog b P X E s)
 (hcls:cls=prog.nsoClass isMeta) (ht:setNSObjectSwizzled b cls isMeta s=some t) :
 Flagged prog b P (X \ {cls}) (E \ {cls}) t := by
 have hkind:s.isMetaClass cls=isMeta:=hcls ▸ (h.roots.nsoClass h.graph isMeta).2
 have hgraph:Graph (markSwizzled b isMeta s) P:=h.graph.congr ⟨rfl,rfl,rfl,rfl,rfl⟩
 have hsound:Sound prog b X E (markSwizzled b isMeta s):=h.sound.markSwizzled
 have hmask:(markSwizzled b isMeta s).swizzled b (s.isMetaClass cls)=true:=by
  simp [markSwizzled,hkind]
 -- the mark is in the mask, and whatever the flags become, the root class is custom
 have hmain:∀f,Graph {markSwizzled b isMeta s with flags:=f} P →
  Sound prog b X E {markSwizzled b isMeta s with flags:=f} →
  (∀c,s.isCustom b c=true → State.isCustom {s with flags:=f} b c=true) →
  State.isCustom {s with flags:=f} b cls=true →
  Flagged prog b P (X \ {cls}) (E \ {cls}) {markSwizzled b isMeta s with flags:=f} := by
  intro f hgraph hsound hgrows htop
  refine ⟨hgraph,⟨h.roots.nsObject,h.roots.isa,h.roots.swift⟩,fun c hc=>?_,
   hsound.unexempt_swizzled htop hmask,fun m hm=>?_⟩
  · by_cases heq : c=cls
    · exact .inr (heq ▸ htop)
    · exact (h.pending c hc).imp (fun hin=>⟨hin,heq⟩) (hgrows c)
  · rcases Bool.or_eq_true_iff.mp hm with hold|hnew
    · exact hgrows _ (h.masked m hold)
    · have heq:m=isMeta:=of_decide_eq_true (Bool.and_eq_true_iff.mp hnew).2
      rw [heq,←hcls]
      exact htop
 rw [ClassGraph.setNSObjectSwizzled] at ht
 split at ht
 · have hmarked:=setCustomRecursively_spec hgraph ht
   have hsound':=(hsound.marked hmarked fun c hc=>.inr (h.pending c hc)).mono subset_rfl
    Set.sdiff_subset
   have hgraph':=hgraph.touched (touched_marks.recursively ht (.refl ∅ _))
   obtain ⟨⟨f,rfl⟩,hgrows,htop,-⟩:=hmarked
   exact hmain f hgraph' hsound' hgrows htop
 · case isFalse hinit =>
   cases ht
   have htop:s.isCustom b cls=true:=by
    by_contra hcustom
    exact hinit (h.sound.settled cls (Bool.eq_false_iff.mpr hcustom)).2.1
   exact hmain s.flags hgraph hsound (fun _ hc=>hc) htop

theorem swizzledInNSObject {isMeta:Bool} (h:Flagged prog b P X E s)
 (ht:swizzledInNSObject prog cls isMeta b s=some t) :
 Flagged prog b P (X \ {c | c=cls ∧ c=prog.nsoClass isMeta})
  (E \ {c | c=cls ∧ c=prog.nsoClass isMeta}) t := by
 rw [ClassGraph.swizzledInNSObject] at ht
 by_cases hcls : cls=prog.nsoClass isMeta
 · have heq:{c:Cls | c=cls ∧ c=prog.nsoClass isMeta} = {cls}:=by grind
   rw [heq]
   split at ht
   · exact h.setNSObjectSwizzled hcls ht
   · case isFalse hno =>
     cases ht
     have hmask:s.swizzled b isMeta=true:=by grind
     have hcustom:s.isCustom b cls=true:=hcls ▸ h.masked isMeta hmask
     have hkind:s.isMetaClass cls=isMeta:=hcls ▸ (h.roots.nsoClass h.graph isMeta).2
     refine { h with
      pending := fun c hc=>?_
      sound := h.sound.unexempt_swizzled hcustom (hkind ▸ hmask) }
     grind [h.pending]
 · grind [Set.sdiff_empty]

end Flagged

def Watched (prog:Program) (b:Bundle) (s:State preopt) (m:MethodRef) (name:Sel) : Set Cls :=
 {c | c=m.cls ∧ isInterestingSelector prog b name=true ∧ c=prog.nsoClass (s.isMetaClass c) ∧
  Scans b s c}

theorem watched_congr {m:MethodRef} {name:Sel} (h:t.ro=s.ro) :
 Watched prog b t m name=Watched prog b s m name := by
 grind [isMetaClass_congr,Watched,Scans]

namespace Flagged

variable {X E:Set Cls} {m:MethodRef} {name:Sel}

theorem scanChangedMethod {cls:Option Cls} (h:Flagged prog b P X E s)
 (hcls:cls=none ∨ cls=some m.cls) (ht:scanChangedMethod prog cls m name b s=some t) :
 Flagged prog b P (X \ Watched prog b s m name) (E \ Watched prog b s m name) t := by
 unfold ClassGraph.scanChangedMethod at ht
 split at ht
 · grind [Watched,h.mono]
 rcases hcls with rfl|rfl
 · -- the loops over the methods of NSObject and of its metaclass
   obtain ⟨u,hu,ht⟩:=Option.bind_eq_some_iff.mp ht
   split at hu
   · refine ((h.swizzledInNSObject hu).swizzledInNSObject ht).mono ?_ ?_
     all_goals
      rintro c ⟨⟨hc,hfalse⟩,htrue⟩
      refine ⟨hc,fun ⟨hcls,_,hnso,_⟩=>?_⟩
      cases hkind : s.isMetaClass c with
      | false=>exact hfalse ⟨hcls,hkind ▸ hnso⟩
      | true=>exact htrue ⟨hcls,hkind ▸ hnso⟩
   · case isFalse hinstances =>
     cases hu
     refine (h.swizzledInNSObject ht).mono ?_ ?_
     all_goals
      rintro c ⟨hc,htrue⟩
      refine ⟨hc,fun ⟨hcls,_,hnso,hscan⟩=>htrue ⟨hcls,?_⟩⟩
      rw [←hscan.resolve_left hinstances]
      exact hnso
 · -- the class is given
   dsimp only at ht
   split at ht
   · case isTrue hkind =>
     refine (h.swizzledInNSObject ht).mono ?_ ?_
     all_goals
      rintro c ⟨hc,htrue⟩
      refine ⟨hc,?_⟩
      rintro ⟨rfl,-,hnso,-⟩
      exact htrue ⟨rfl,hkind ▸ hnso⟩
   split at ht
   · case isFalse.isTrue hkind _ =>
     refine (h.swizzledInNSObject ht).mono ?_ ?_
     all_goals
      rintro c ⟨hc,hfalse⟩
      refine ⟨hc,?_⟩
      rintro ⟨rfl,-,hnso,-⟩
      rw [Bool.not_eq_true] at hkind
      exact hfalse ⟨rfl,hkind ▸ hnso⟩
   · case isFalse.isFalse hkind hinstances =>
     cases ht
     refine h.mono ?_ ?_
     all_goals
      intro c hc
      refine ⟨hc,?_⟩
      rintro ⟨rfl,-,-,hscan⟩
      exact hkind (hscan.resolve_left hinstances)

theorem adjustCustomFlags {cls:Option Cls} (h:Flagged prog b P X E s)
 (hcls:cls=none ∨ cls=some m.cls)
 (ht:adjustCustomFlagsForMethodChange prog cls m name s=some t) :
 Flagged prog b P (X \ Watched prog b s m name) (E \ Watched prog b s m name) t := by
 refine forBundles_own (b:=b) (I:=fun u=>Flagged prog b P X E u ∧ u.ro=s.ro)
  (fun hne hv hu=>⟨(marks hne).changedMethod hv hu.1,?_⟩)
  (fun hne hv hu=>(marks hne).changedMethod hv hu) (fun hv hu=>?_) ht ⟨h,rfl⟩
 · exact ((sameFor_marks hne).changedMethod hv (.refl b _)).ro.trans hu.2
 · rw [←watched_congr hu.2]
   exact hu.1.scanChangedMethod hcls hv

end Flagged

/-- The scanner will notice a change of the methods of the class, or need not. -/
def Monitored (prog:Program) (b:Bundle) (s:State preopt) (c:Cls) : Prop :=
 c=prog.nsObject ∨ c=prog.nsObjectMeta ∨ s.isCustom b c=true ∧ ¬ Trusted prog b s c

namespace Flagged

variable {X E:Set Cls} {m:MethodRef} {name:Sel}

theorem setImp {imp:MethodImp} {old:Method} (h:Flagged prog b P X E s)
 (hold:s.method m=some old) (hX:Watched prog b s m old.name ⊆ X)
 (hE:Watched prog b s m old.name ⊆ E)
 (hmon:isInterestingSelector prog b old.name=true → Monitored prog b s m.cls) :
 Flagged prog b P X E (setImp m imp s) := by
 refine ⟨h.graph.congr ⟨rfl,rfl,rfl,rfl,rfl⟩,⟨h.roots.nsObject,h.roots.isa,h.roots.swift⟩,
  h.pending,h.sound.setImp hold ?_,h.masked⟩
 by_cases hname : isInterestingSelector prog b old.name=true
 · right
   -- a root class is watched, or of a kind that does not matter
   have hroot:∀isMeta,m.cls=prog.nsoClass isMeta → (m.cls∈X ∧ m.cls∈E) ∨
    s.isCustom b m.cls=true ∧ ¬ (Trusted prog b s m.cls ∧ Scans b s m.cls) := by
    intro isMeta hcls
    have hkind:s.isMetaClass m.cls=isMeta:=hcls ▸ (h.roots.nsoClass h.graph isMeta).2
    by_cases hscan : Scans b s m.cls
    · grind [Watched]
    · refine .inr ⟨?_,fun hboth=>hscan hboth.2⟩
      by_contra hcustom
      exact hscan (h.sound.settled m.cls (Bool.eq_false_iff.mpr hcustom)).2.2
   rcases hmon hname with hcls|hcls|⟨hcustom,huntrusted⟩
   · exact hroot false hcls
   · exact hroot true hcls
   · exact .inr ⟨hcustom,fun hboth=>huntrusted hboth.1⟩
 · exact .inl (Bool.eq_false_iff.mpr hname)

theorem methodSetImplementation {cls:Option Cls} {imp:MethodImp}
 (h:Flagged prog b P ∅ ∅ s) (hcls:cls=none ∨ cls=some m.cls)
 (hmon:∀old,s.method m=some old → isInterestingSelector prog b old.name=true →
  Monitored prog b s m.cls)
 (ht:methodSetImplementation prog cls m imp s=some t) : Flagged prog b P ∅ ∅ t := by
 rw [ClassGraph.methodSetImplementation] at ht
 split at ht
 · cases ht
   exact h
 · case h_2 old hold =>
   obtain ⟨u,hu,ht⟩:=Option.bind_eq_some_iff.mp ht
   have hset:Flagged prog b P (Watched prog b s m old.name) (Watched prog b s m old.name)
    (ClassGraph.setImp m imp s) :=
    (h.mono (Set.empty_subset _) (Set.empty_subset _)).setImp hold subset_rfl subset_rfl
     (hmon old hold)
   have hdone:=(hset.flushCaches hu).adjustCustomFlags hcls ht
   rw [watched_congr (s:=s) (flushCaches_touched (X:=∅) hu).ro,Set.sdiff_self] at hdone
   exact hdone

theorem methodExchangeImplementations {m1 m2:MethodRef} (h:Flagged prog b P ∅ ∅ s)
 (hmon1:∀old,s.method m1=some old → isInterestingSelector prog b old.name=true →
  Monitored prog b s m1.cls)
 (hmon2:∀old,s.method m2=some old → isInterestingSelector prog b old.name=true →
  Monitored prog b s m2.cls)
 (ht:methodExchangeImplementations prog m1 m2 s=some t) : Flagged prog b P ∅ ∅ t := by
 rw [ClassGraph.methodExchangeImplementations] at ht
 split at ht
 · case h_1 old1 old2 hold1 hold2 =>
   obtain ⟨u,hu,ht⟩:=Option.bind_eq_some_iff.mp ht
   obtain ⟨v,hv,ht⟩:=Option.bind_eq_some_iff.mp ht
   let W:=Watched prog b s m1 old1.name ∪ Watched prog b s m2 old2.name
   obtain ⟨mid,hmid,hname,-⟩:=setImp_method (m:=m1) hold2
   have hset1:Flagged prog b P W W (ClassGraph.setImp m1 old2.imp s) :=
    (h.mono (Set.empty_subset _) (Set.empty_subset _)).setImp hold1 Set.subset_union_left
     Set.subset_union_left (hmon1 old1 hold1)
   have hset2:Flagged prog b P W W
    (ClassGraph.setImp m2 old1.imp (ClassGraph.setImp m1 old2.imp s)) := by
    refine hset1.setImp hmid ?_ ?_ ?_
    · rw [hname]
      exact Set.subset_union_right
    · rw [hname]
      exact Set.subset_union_right
    · rw [hname]
      exact hmon2 old2 hold2
   have hro:=(flushCaches_touched (X:=∅) hu).ro
   have hfirst:=(hset2.flushCaches hu).adjustCustomFlags (.inl rfl) hv
   have hsecond:=hfirst.adjustCustomFlags (.inl rfl) ht
   rw [watched_congr (s:=s) ((adjustCustomFlags_touched (X:=∅) hv).ro.trans hro),
    watched_congr (s:=s) hro,Set.sdiff_sdiff,Set.sdiff_self] at hsecond
   exact hsecond
 · cases ht
   exact h

end Flagged

end ObjcRuntime.ClassGraph
