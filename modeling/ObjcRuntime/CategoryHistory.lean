import ObjcRuntime.CategoryEffects

/-!
The lists of a realized class, and those an unrealized one would get if it were realized now, are
the lists of the categories loaded so far, latest first, before its own.
-/

set_option autoImplicit false
namespace ObjcRuntime.CategoryOrder

open MethodLists CategoryArrays PartialRuns
open Function

section Layout

variable (prog:Program)

def Plain (c:ClassId) : Prop :=
 (prog.classes c).isMeta=false ∧ (prog.classes c).isStub=false

def side (c:ClassId) (isMeta:Bool) : ClassId := if isMeta then (prog.classes c).isa else c

def home (c:ClassId) : ClassId := (prog.classes c).stub.getD c

structure Layout : Prop where
 isa_isMeta : ∀c,Plain prog c → (prog.classes (prog.classes c).isa).isMeta=true
 isa_isStub : ∀c,Plain prog c → (prog.classes (prog.classes c).isa).isStub=false
 isa_inj : ∀c d,Plain prog c → Plain prog d → (prog.classes c).isa=(prog.classes d).isa → c=d
 stub_isStub : ∀c st,(prog.classes c).stub=some st → (prog.classes st).isStub=true
 stub_inj : ∀c d st,(prog.classes c).stub=some st → (prog.classes d).stub=some st → c=d

variable {prog} (layout:Layout prog) {c d:ClassId}

include layout

theorem side_isStub (hc:Plain prog c) (b:Bool) : (prog.classes (side prog c b)).isStub=false := by
 cases b with
 | false=>exact hc.2
 | true=>exact layout.isa_isStub c hc

theorem side_isMeta (hc:Plain prog c) (b:Bool) : (prog.classes (side prog c b)).isMeta=b := by
 cases b with
 | false=>exact hc.1
 | true=>exact layout.isa_isMeta c hc

theorem side_inj (hc:Plain prog c) (hd:Plain prog d) {a b:Bool}
 (h:side prog c a=side prog d b) : c=d ∧ a=b := by
 have kind:a=b:=by rw [←side_isMeta layout hc a,h,side_isMeta layout hd b]
 subst kind
 cases a with
 | false=>exact ⟨h,rfl⟩
 | true=>exact ⟨layout.isa_inj c d hc hd h,rfl⟩

theorem stub_ne_side {st:ClassId} (hd:(prog.classes d).stub=some st) (hc:Plain prog c)
 (b:Bool) : st≠side prog c b := by grind [layout.stub_isStub,side_isStub]

theorem home_inj (hc:Plain prog c) (hd:Plain prog d) (h:home prog c=home prog d) : c=d := by
 rw [home,home] at h
 cases hsc : (prog.classes c).stub with
 | none=>
  cases hsd : (prog.classes d).stub with
  | none=>simpa [hsc,hsd] using h
  | some st=>
   rw [hsc,hsd] at h
   exact absurd h.symm (stub_ne_side layout hsd hc false)
 | some st=>
  cases hsd : (prog.classes d).stub with
  | none=>
   rw [hsc,hsd] at h
   exact absurd h (stub_ne_side layout hsc hd false)
  | some st'=>grind [layout.stub_inj]

theorem isa_ne (hc:Plain prog c) : (prog.classes c).isa≠c := by
 intro h
 have:=side_inj layout hc hc (a:=true) (b:=false) h
 cases this.2

end Layout

variable {history:List Located}

section History

variable (prog:Program) (mem:ListRef → MethodList)

def queue (s:State) (c:ClassId) (isMeta:Bool) : List Located :=
 waiting s ((prog.classes c).stub.getD (side prog c isMeta))

structure Waits (s:State) (c:ClassId) (cats:List Located) : Prop where
 unrealized : ∀b,s.realized (side prog c b)=false
 bare : ∀b,s.rwe (side prog c b)=none
 queued : ∀b,fromCategories prog b (queue prog s c b)=fromCategories prog b cats
 named : s.remappedClasses (home prog c)=none
 relocated : (prog.classes c).stub≠none → ∀b,waiting s (side prog c b)=[]

structure Attached (s:State) (c:ClassId) (cats:List Located) : Prop where
 realized : ∀b,s.realized (side prog c b)=true
 lists : ∀b,∃n,listsOf prog s (side prog c b)=fromCategories prog b cats ++
  (bonusLists prog mem (side prog c b) n++(prog.classes (side prog c b)).ro.lists)
 named : s.remappedClasses (home prog c)=(prog.classes c).stub.map fun _=>some c

def HoldsFor (s:State) (c:ClassId) (cats:List Located) : Prop :=
 Waits prog s c cats ∨ Attached prog mem s c cats

/-- A class that images can name: not a metaclass, not a stub, and not disavowed. -/
def Present (s₀:State) (c:ClassId) : Prop :=
 Plain prog c ∧ s₀.remappedClasses (home prog c)=none

def belongs (c:ClassId) (lc:Located) : Bool := prog.target lc=home prog c

/-- The class a category belongs to: named directly, or through a stub. -/
def LegalCategory (lc:Located) : Prop := Legal lc ∧
 (Plain prog (prog.target lc) ∧ (prog.classes (prog.target lc)).stub=none ∨
  (prog.classes (prog.target lc)).isStub=true)

def WaitsUnder (lc:Located) (k:ClassId) : Prop :=
 k=prog.target lc ∨ Plain prog (prog.target lc) ∧ k=(prog.classes (prog.target lc)).isa

structure Queues (s:State) (history:List Located) : Prop where
 stored : Stored s
 under : ∀k,∀lc∈waiting s k,LegalCategory prog lc ∧ WaitsUnder prog lc k
 ordered : ∀k,(waiting s k).Sublist history

/-- No class has more categories than a `category_list` can hold. -/
def FewCategories (history:List Located) : Prop :=
 ∀k,(history.filter (prog.target · = k)).length ≤ most

structure Inv (s₀ s:State) (history:List Located) : Prop where
 heap : HeapSound prog mem s fun k=>s.realized k=false
 remapped : ∀k c,s.remappedClasses k=some (some c) →
  Present prog s₀ c ∧ (prog.classes c).stub=some k
 classes : ∀c,Present prog s₀ c → HoldsFor prog mem s c (history.filter (belongs prog c))
 queues : Queues prog s history

variable {prog mem}

section Frame

variable {s s':State} {c:ClassId} {cats:List Located}

structure PairUntouched (prog:Program) (s s':State) (c:ClassId) : Prop where
 sides : ∀b,Untouched s s' (side prog c b)
 stub : ∀st,(prog.classes c).stub=some st → waiting s' st=waiting s st
 realized : ∀b,s'.realized (side prog c b)=s.realized (side prog c b)
 named : s'.remappedClasses (home prog c)=s.remappedClasses (home prog c)

theorem PairUntouched.queue (h:PairUntouched prog s s' c) (b:Bool) :
 queue prog s' c b=queue prog s c b := by
 rw [CategoryOrder.queue,CategoryOrder.queue]
 cases hst : (prog.classes c).stub with
 | none=>exact (h.sides b).waiting
 | some st=>exact h.stub st hst

theorem HoldsFor.frame (h:PairUntouched prog s s' c) (holds:HoldsFor prog mem s c cats) :
 HoldsFor prog mem s' c cats := by
 rcases holds with waits|attached
 · left
   exact
    { unrealized := fun b=>(h.realized b).trans (waits.unrealized b)
      bare := fun b=>(h.sides b).rwe.trans (waits.bare b)
      queued := fun b=>by rw [h.queue,waits.queued]
      named := h.named.trans waits.named
      relocated := fun hst b=>(h.sides b).waiting.trans (waits.relocated hst b) }
 · right
   exact
    { realized := fun b=>(h.realized b).trans (attached.realized b)
      lists := fun b=>by rw [listsOf_congr (h.sides b).rwe]; exact attached.lists b
      named := h.named.trans attached.named }

end Frame

section Queues

variable {s t:State} {lc:Located} {k:ClassId}

theorem WaitsUnder.target_eq (layout:Layout prog) {other:Located} (legal:LegalCategory prog lc)
 (legal':LegalCategory prog other) (h:WaitsUnder prog lc k) (h':WaitsUnder prog other k) :
 prog.target other=prog.target lc := by
 have apart:∀{a b},LegalCategory prog a → prog.target a=k → Plain prog (prog.target b) →
  k=(prog.classes (prog.target b)).isa → False := by
  rintro a b ⟨-,⟨plain,-⟩|stub⟩ same ofMeta eq
  · have:=layout.isa_isMeta _ ofMeta
    rw [←eq,←same,plain.1] at this
    cases this
  · have:=layout.isa_isStub _ ofMeta
    rw [←eq,←same,stub] at this
    cases this
 rcases h with same|⟨plain,eq⟩ <;> rcases h' with same'|⟨plain',eq'⟩
 · exact same'.symm.trans same
 · exact (apart legal same.symm plain' eq').elim
 · exact (apart legal' same'.symm plain eq).elim
 · exact layout.isa_inj _ _ plain' plain (eq'.symm.trans eq)

theorem FewCategories.of_sublist {few:List Located} (h:FewCategories prog history)
 (sub:few.Sublist history) : FewCategories prog few :=
 fun k=>(sub.filter _).length_le.trans (h k)

theorem Queues.room (layout:Layout prog) (queues:Queues prog s history)
 (legal:LegalCategory prog lc) (under:WaitsUnder prog lc k)
 (few:FewCategories prog (history++[lc])) : (waiting s k).length < most := by
 have all:(waiting s k).filter (prog.target · = prog.target lc)=waiting s k :=
  List.filter_eq_self.mpr fun other hother=>decide_eq_true <|
   under.target_eq layout legal (queues.under k other hother).1 (queues.under k other hother).2
 have short:=((queues.ordered k).filter (prog.target · = prog.target lc)).length_le
 have:=few (prog.target lc)
 rw [List.filter_append,List.length_append,List.filter_singleton,decide_eq_true rfl,cond_true,
  List.length_singleton] at this
 rw [all] at short
 omega

theorem Queues.load (queues:Queues prog s history) (stored:Stored t) (legal:LegalCategory prog lc)
 (waits:∀k,waiting t k=waiting s k ∨ waiting t k=waiting s k++[lc] ∧ WaitsUnder prog lc k) :
 Queues prog t (history++[lc]) where
 stored := stored
 under k other hother := by
  rcases waits k with same|⟨added,under⟩
  · exact queues.under k other (same ▸ hother)
  · rw [added,List.mem_append,List.mem_singleton] at hother
    rcases hother with before|rfl
    · exact queues.under k other before
    · exact ⟨legal,under⟩
 ordered k := by
  rcases waits k with same|⟨added,-⟩
  · exact same ▸ (queues.ordered k).trans (List.sublist_append_left ..)
  · exact added ▸ (queues.ordered k).append (.refl _)

theorem Queues.keep (queues:Queues prog s history) (kept:Kept s t) : Queues prog t history where
 stored := queues.stored.keep kept
 under k lc hlc := by grind [kept.waiting k,queues.under]
 ordered k := by grind [kept.waiting k,queues.ordered]

end Queues

section Load

variable {s₀ s t:State} {lc:Located} {c k:ClassId} {cats:List Located}

theorem filter_belongs_append (history:List Located) (lc:Located) (c:ClassId) :
 (history++[lc]).filter (belongs prog c) =
  history.filter (belongs prog c)++if belongs prog c lc then [lc] else [] := by grind

theorem Inv.ignore (inv:Inv prog mem s₀ s history) (legal:LegalCategory prog lc)
 (target:remapClass s (prog.target lc)=none) : Inv prog mem s₀ s (history++[lc]) := by
 refine ⟨inv.heap,inv.remapped,fun c hc=>?_,inv.queues.load inv.queues.stored legal fun k=>.inl rfl⟩
 have other:belongs prog c lc=false:=by
  by_contra hb
  rw [Bool.not_eq_false,belongs,decide_eq_true_eq] at hb
  rw [hb,remapClass] at target
  rcases inv.classes c hc with waits|attached
  · rw [waits.named] at target
    cases target
  · rw [attached.named] at target
    cases hst : (prog.classes c).stub <;> simp [hst] at target
 grind [inv.classes]

structure LoadsPair (prog:Program) (s t:State) (lc:Located) (k:ClassId) : Prop where
 stored : Stored t
 marks : SameMarks s t
 heap : ∀{mem E},HeapSound prog mem s E → HeapSound prog mem t E
 elsewhere : ∀j,(∀b,j≠side prog k b) → Untouched s t j
 sides : ∀b,LoadsAt prog s t lc (side prog k b) b

variable (layout:Layout prog)

include layout

theorem loadPair_spec (hk:Plain prog k) (stored:Stored s) (legal:Legal lc)
 (few:∀b,s.realized (side prog k b)=false → (waiting s (side prog k b)).length < most) :
 ∃t,((loadForClass prog s lc k false).bind fun s =>
   loadForClass prog s lc (prog.classes k).isa true)=some t ∧ LoadsPair prog s t lc k := by
 have hisa:=isa_ne layout hk
 obtain ⟨u,first,onClass⟩:=loadForClass_spec prog lc k false stored legal (few false)
 have same:=onClass.elsewhere _ hisa
 obtain ⟨t,second,onMeta⟩:=loadForClass_spec prog lc (prog.classes k).isa true onClass.stored legal
  (by rw [same.waiting,onClass.marks.realized]; exact few true)
 refine ⟨t,by rw [first,Option.bind_some,second],onMeta.stored,onClass.marks.trans onMeta.marks,
  fun sound=>onMeta.heap (onClass.heap sound),
  fun j hj=>(onClass.elsewhere j (hj false)).trans (onMeta.elsewhere j (hj true)),fun b=>?_⟩
 cases b with
 | false=>exact onClass.toLoadsAt.after (onMeta.elsewhere k hisa.symm)
 | true=>exact .before same onClass.marks onMeta.toLoadsAt

theorem LoadsPair.other (h:LoadsPair prog s t lc k) (hc:Plain prog c) (hk:Plain prog k)
 (ne:c≠k) : PairUntouched prog s t c where
 sides _ := h.elsewhere _ fun _ eq=>ne (side_inj layout hc hk eq).1
 stub _ hst := (h.elsewhere _ fun b=>stub_ne_side layout hst hk b).waiting
 realized _ := congrFun h.marks.realized _
 named := congrFun h.marks.remapped _

theorem LoadsPair.self (h:LoadsPair prog s t lc k) (hk:Plain prog k)
 (holds:HoldsFor prog mem s k cats) (target:remapClass s (home prog k)=some k) :
 HoldsFor prog mem t k (cats++[lc]) := by
 have marks:=h.marks
 rcases holds with waits|attached
 · -- a class that still waits under a stub is not found by its name
   have nostub:(prog.classes k).stub=none:=by
    rw [remapClass,waits.named,Option.some.injEq] at target
    cases hst : (prog.classes k).stub with
    | none=>rfl
    | some st=>
     rw [home,hst] at target
     exact absurd target (stub_ne_side layout hst hk false)
   have queue_eq:∀t b,queue prog t k b=waiting t (side prog k b):=fun t b=>by
    rw [queue,nostub,Option.getD_none]
   left
   exact
    { unrealized := fun b=>by rw [marks.realized]; exact waits.unrealized b
      bare := fun b=>((h.sides b).waits (waits.unrealized b)).1.trans (waits.bare b)
      queued := fun b=>by
       rw [queue_eq,(h.sides b).queue (waits.unrealized b),fromCategories_append,←waits.queued,
        queue_eq]
      named := by rw [marks.remapped]; exact waits.named
      relocated := fun hst=>absurd nostub hst }
 · right
   exact
    { realized := fun b=>by rw [marks.realized]; exact attached.realized b
      lists := fun b=>by
       obtain ⟨n,hn⟩:=attached.lists b
       refine ⟨n,?_⟩
       rw [((h.sides b).realized (attached.realized b)).2,hn,fromCategories_append,
        Lists.append_assoc]
      named := by rw [marks.remapped]; exact attached.named }

theorem addForClass_stub (hc:Plain prog c)
 (hst:(prog.classes c).stub=some k) (named:s.remappedClasses k=none)
 (holds:HoldsFor prog mem s c cats) {s':State} (rwe:s'.rwe=s.rwe)
 (marks:SameMarks s s') (elsewhere:∀j,j≠k → waiting s' j=waiting s j)
 (queued:∀b,fromCategories prog b (waiting s' k)=fromCategories prog b (waiting s k++[lc])) :
 HoldsFor prog mem s' c (cats++[lc]) := by
 have queue_eq:∀t b,queue prog t c b=waiting t k:=fun t b=>by rw [queue,hst]; rfl
 have home_eq:home prog c=k:=by rw [home,hst]; rfl
 rcases holds with waits|attached
 · left
   exact
    { unrealized := fun b=>by rw [marks.realized]; exact waits.unrealized b
      bare := fun b=>by rw [rwe]; exact waits.bare b
      queued := fun b=>by
       rw [queue_eq,queued,fromCategories_append,fromCategories_append,←waits.queued,queue_eq]
      named := by rw [marks.remapped]; exact waits.named
      relocated := fun hne b=>by
       rw [elsewhere _ (stub_ne_side layout hst hc b).symm]
       exact waits.relocated hne b }
 · have:=attached.named
   grind

theorem loadStub_inv (legal:LegalCategory prog lc)
 (stub:(prog.classes (prog.target lc)).isStub=true)
 (named:s.remappedClasses (prog.target lc)=none) (inv:Inv prog mem s₀ s history)
 (heap:HeapSound prog mem t fun j=>s.realized j=false) (stored:Stored t) (rwe:t.rwe=s.rwe)
 (marks:SameMarks s t) (elsewhere:∀j,j≠prog.target lc → waiting t j=waiting s j)
 (queued:waiting t (prog.target lc)=waiting s (prog.target lc)++[lc] ∨
  waiting t (prog.target lc)=waiting s (prog.target lc) ∧ ∀b,fromCategories prog b [lc]=.empty) :
 Inv prog mem s₀ t (history++[lc]) := by
 refine ⟨by rw [marks.realized]; exact heap,by rw [marks.remapped]; exact inv.remapped,fun c hc=>?_,
  inv.queues.load stored legal fun k=>?_⟩
 · have apart:∀b,side prog c b≠prog.target lc:=fun b same=>by
    have:=side_isStub layout hc.1 b
    rw [same,stub] at this
    cases this
   rw [filter_belongs_append]
   by_cases mine : belongs prog c lc=true
   · rw [if_pos mine]
     rw [belongs,decide_eq_true_eq] at mine
     have hst:(prog.classes c).stub=some (prog.target lc):=by
      cases h : (prog.classes c).stub with
      | none=>
       rw [home,h] at mine
       exact absurd mine.symm (apart false)
      | some st=>
       rw [home,h] at mine
       rw [mine]
       rfl
     refine addForClass_stub layout hc.1 hst named (inv.classes c hc) rwe marks elsewhere fun b=>?_
     rcases queued with added|⟨same,nothing⟩
     · rw [added]
     · rw [same,fromCategories_append,nothing,Lists.empty_append]
   · rw [if_neg mine,List.append_nil]
     rw [belongs,decide_eq_true_eq] at mine
     refine (inv.classes c hc).frame
      { sides := fun b=>⟨congrFun rwe _,elsewhere _ (apart b)⟩
        stub := fun st hst=>elsewhere st fun same=>mine (by rw [home,hst,←same]; rfl)
        realized := fun b=>congrFun marks.realized _
        named := congrFun marks.remapped _ }
 · by_cases same : k=prog.target lc
   · subst same
     exact queued.symm.imp And.left fun added=>⟨added,.inl rfl⟩
   · exact .inl (elsewhere k same)

theorem LoadsPair.inv (h:LoadsPair prog s t lc k) (hk:Plain prog k)
 (legal:LegalCategory prog lc) (hhome:home prog k=prog.target lc)
 (target:remapClass s (prog.target lc)=some k)
 (under:∀b,s.realized (side prog k b)=false → WaitsUnder prog lc (side prog k b))
 (inv:Inv prog mem s₀ s history) : Inv prog mem s₀ t (history++[lc]) := by
 refine ⟨by rw [h.marks.realized]; exact h.heap inv.heap,
  by rw [h.marks.remapped]; exact inv.remapped,fun c hc=>?_,
  inv.queues.load h.stored legal fun j=>?_⟩
 · rw [filter_belongs_append]
   by_cases same : c=k
   · grind [belongs,LoadsPair.self,inv.classes]
   · have other:¬ belongs prog c lc=true:=fun mine=>by
      rw [belongs,decide_eq_true_eq,←hhome] at mine
      exact same (home_inj layout hc.1 hk mine.symm)
     rw [if_neg other,List.append_nil]
     exact (inv.classes c hc).frame (h.other layout hc.1 hk same)
 · by_cases onPair : ∃b,j=side prog k b
   · obtain ⟨b,rfl⟩:=onPair
     cases ready : s.realized (side prog k b) with
     | true=>exact .inl ((h.sides b).realized ready).1
     | false=>
      have:=((h.sides b).waits ready).2
      grind
   · exact .inl (h.elsewhere j (not_exists.mp onPair)).waiting

theorem Inv.pair (inv:Inv prog mem s₀ s history) (legal:LegalCategory prog lc)
 (target:remapClass s (prog.target lc)=some k) (stub:¬ (prog.classes k).isStub=true)
 (found:k=prog.target lc ∨ Present prog s₀ k ∧ (prog.classes k).stub=some (prog.target lc)) :
 Plain prog k ∧ home prog k=prog.target lc ∧
  ∀b,s.realized (side prog k b)=false → WaitsUnder prog lc (side prog k b) := by
 rcases found with rfl|⟨present,hst⟩
 · rcases legal.2 with ⟨plain,nostub⟩|isStub
   · refine ⟨plain,by rw [home,nostub]; rfl,fun b _=>?_⟩
     cases b with
     | false=>exact .inl rfl
     | true=>exact .inr ⟨plain,rfl⟩
   · exact absurd isStub stub
 · refine ⟨present.1,by rw [home,hst]; rfl,fun b unready=>?_⟩
   -- what a stub is relocated to is realized
   rcases inv.classes k present with waits|attached
   · have named:=waits.named
     rw [home,hst,Option.getD_some] at named
     rw [remapClass,named,Option.some.injEq] at target
     exact absurd (target ▸ layout.stub_isStub k _ hst) stub
   · rw [attached.realized b] at unready
     cases unready

theorem loadCategory_inv (legal:LegalCategory prog lc)
 (few:FewCategories prog (history++[lc])) (inv:Inv prog mem s₀ s history) :
 ∃t,loadCategory prog lc s=some t ∧ Inv prog mem s₀ t (history++[lc]) := by
 rw [loadCategory]
 cases target : remapClass s (prog.target lc) with
 | none=>exact ⟨s,rfl,inv.ignore legal target⟩
 | some k=>
  simp only
  -- the name is the class's own, or the stub's it was relocated from
  have found:(s.remappedClasses (prog.target lc)=none ∧ k=prog.target lc) ∨
   Present prog s₀ k ∧ (prog.classes k).stub=some (prog.target lc) := by
   grind [remapClass,inv.remapped]
  by_cases stub : (prog.classes k).isStub=true
  · rw [if_pos stub]
    rcases found with ⟨named,rfl⟩|⟨present,-⟩
    · split
      · obtain ⟨t,added,queued⟩:=addForClass_spec prog lc (prog.target lc) inv.queues.stored legal.1
         (inv.queues.room layout legal (.inl rfl) few)
        refine ⟨t,added,loadStub_inv layout legal stub named inv (queued.heap inv.heap)
         queued.stored queued.rwe queued.marks (fun j hj=>?_) (.inl ?_)⟩
        · rw [queued.waiting,if_neg hj]
        · rw [queued.waiting,if_pos rfl]
      next unconcerned=>
       rw [Bool.or_eq_true,not_or,Bool.not_eq_true,Bool.not_eq_true] at unconcerned
       refine ⟨s,rfl,loadStub_inv layout legal stub named inv inv.heap inv.queues.stored rfl
        ⟨rfl,rfl⟩ (fun _ _=>rfl) (.inr ⟨rfl,fun b=>fromCategories_of_not_concerns ?_⟩)⟩
       cases b with
       | false=>exact unconcerned.1
       | true=>exact unconcerned.2
    · rw [present.1.2] at stub
      cases stub
  · rw [if_neg stub]
    obtain ⟨plain,hhome,under⟩:=inv.pair layout legal target stub (found.imp_left And.right)
    obtain ⟨t,done,loads⟩:=loadPair_spec layout plain inv.queues.stored legal.1
     fun b unready=>inv.queues.room layout legal (under b unready) few
    exact ⟨t,done,loads.inv layout plain legal hhome target under inv⟩

theorem loadCategories_inv (loaded:List Located)
 (legal:∀lc∈loaded,LegalCategory prog lc) (few:FewCategories prog (history++loaded))
 (inv:Inv prog mem s₀ s history) :
 ∃t,run (loadCategory prog) loaded s=some t ∧ Inv prog mem s₀ t (history++loaded) := by
 induction loaded generalizing s history with
 | nil=>exact ⟨s,rfl,by rwa [List.append_nil]⟩
 | cons lc loaded ih=>
  rw [List.append_cons] at few ⊢
  obtain ⟨u,first,next⟩:=loadCategory_inv layout (legal lc List.mem_cons_self)
   (few.of_sublist (List.sublist_append_left ..)) inv
  obtain ⟨t,rest,last⟩:=ih (fun l hl=>legal l (List.mem_cons_of_mem _ hl)) few next
  exact ⟨t,run_cons first rest,last⟩

end Load

section Realize

variable {s:State} {c:ClassId} {cats:List Located}

structure Realizes (prog:Program) (mem:ListRef → MethodList) (s s':State) (c:ClassId) : Prop where
 heap : HeapSound prog mem s' fun k=>s'.realized k=false
 realized : ∀b,s'.realized (side prog c b)=true
 lists : ∀b,∃n,listsOf prog s' (side prog c b)=fromCategories prog b (queue prog s c b) ++
  (bonusLists prog mem (side prog c b) n++(prog.classes (side prog c b)).ro.lists)
 elsewhere : ∀k,(∀b,k≠side prog c b) → s'.rwe k=s.rwe k ∧ s'.realized k=s.realized k ∧
  ((prog.classes c).stub≠some k → waiting s' k=waiting s k)

def metaFirst (prog:Program) (s:State) (c:ClassId) : State :=
 methodizeClass prog (setRealized (setRealized s c) (prog.classes c).isa) (prog.classes c).isa none

theorem realizeClass_realized (ready:s.realized c=true)
 (named:∀st,(prog.classes c).stub=some st → s.remappedClasses st=some (some c)) :
 realizeClass prog s c=s := by
 rw [realizeClass]
 cases hst : (prog.classes c).stub with
 | none=>simp only [realizeClassWithoutSwift,ready,if_true]
 | some st=>simp only [realizeClassWithoutSwift,ready,if_true,←named st hst,update_eq_self]

theorem realizeClassWithoutSwift_eq (previously:Option ClassId)
 (unrealized:∀b,s.realized (side prog c b)=false) (hisa:(prog.classes c).isa≠c) :
 realizeClassWithoutSwift prog s c previously =
  methodizeClass prog (metaFirst prog s c) c previously := by
 have hc:s.realized c=false:=unrealized false
 have hm:s.realized (prog.classes c).isa=false:=unrealized true
 have marked:(setRealized s c).realized (prog.classes c).isa=false :=
  (update_of_ne hisa ..).trans hm
 rw [realizeClassWithoutSwift,if_neg (by simp [hc])]
 simp only [marked,Bool.false_eq_true,if_false]
 rfl

theorem bonusLists_of_ne (hisa:(prog.classes c).isa≠c) (n:Nat) :
 bonusLists prog mem c n=.empty := by
 rw [bonusLists,if_neg (by simp [isRootMetaclass,hisa])]

theorem realized_sides (layout:Layout prog) (hc:Plain prog c) {s':State} (h:s'.realized =
  update (update s.realized c true) (prog.classes c).isa true) :
 (∀b,s'.realized (side prog c b)=true) ∧
  (∀k,(∀b,k≠side prog c b) → s'.realized k=s.realized k) := by
 constructor
 · intro b
   rw [h]
   cases b with
   | false=>
    exact (update_of_ne (isa_ne layout hc).symm ..).trans (update_self ..)
   | true=>exact update_self ..
 · intro k hk
   have hcls:k≠c:=hk false
   have hmeta:k≠(prog.classes c).isa:=hk true
   rw [h,update_of_ne hmeta,update_of_ne hcls]

theorem HeapSound.of_realized {s':State} (heap:HeapSound prog mem s' fun k =>
  (s.realized k=false ∧ k≠(prog.classes c).isa) ∧ k≠c)
 (elsewhere:∀k,(∀b,k≠side prog c b) → s'.realized k=s.realized k) :
 HeapSound prog mem s' fun k=>s'.realized k=false := by
 refine ⟨heap.known,fun k hk=>heap.ready k fun ⟨⟨old,hmeta⟩,hcls⟩=>hk ?_⟩
 rw [elsewhere k fun b=>by cases b with | false=>exact hcls | true=>exact hmeta]
 exact old

variable (hmem:Memory prog mem) (layout:Layout prog)

include hmem layout

theorem metaFirst_spec (hc:Plain prog c) {E:ClassId → Prop} (heap:HeapSound prog mem s E)
 (bare:s.rwe (prog.classes c).isa=none) :
 HeapSound prog mem (metaFirst prog s c) (fun k=>E k ∧ k≠(prog.classes c).isa) ∧
  (∃n,listsOf prog (metaFirst prog s c) (side prog c true) =
   fromCategories prog true (waiting s (side prog c true)) ++
    (bonusLists prog mem (side prog c true) n ++ (prog.classes (side prog c true)).ro.lists)) ∧
  (∀k,k≠(prog.classes c).isa → Untouched s (metaFirst prog s c) k) ∧
  (metaFirst prog s c).realized=update (update s.realized c true) (prog.classes c).isa true ∧
  (metaFirst prog s c).remappedClasses=s.remappedClasses := by
 obtain ⟨hsound,hlists,hne,-,hmarks⟩:=methodizeClass_spec hmem
  (setRealized (setRealized s c) (prog.classes c).isa) (prog.classes c).isa
  bare (E:=E) ⟨heap.known,heap.ready⟩
 rw [layout.isa_isMeta c hc] at hlists
 exact ⟨hsound,hlists,fun k hk=>⟨(hne k hk).rwe,(hne k hk).waiting⟩,hmarks.realized,hmarks.remapped⟩

theorem realizeClass_plain (hc:Plain prog c)
 (heap:HeapSound prog mem s fun k=>s.realized k=false) (waits:Waits prog s c cats)
 (nostub:(prog.classes c).stub=none) :
 Realizes prog mem s (realizeClass prog s c) c ∧
  (realizeClass prog s c).remappedClasses=s.remappedClasses := by
 have hisa:=isa_ne layout hc
 obtain ⟨tsound,tlists,tne,trealized,tremapped⟩ :=
  metaFirst_spec hmem layout hc heap (waits.bare true)
 have eq:realizeClass prog s c=methodizeClass prog (metaFirst prog s c) c none:=by
  rw [realizeClass,nostub]
  exact realizeClassWithoutSwift_eq none waits.unrealized hisa
 obtain ⟨hsound,hlists,hne,-,hmarks⟩:=methodizeClass_spec hmem (metaFirst prog s c) c
  ((tne c hisa.symm).rwe.trans (waits.bare false)) tsound
 rw [←eq] at hsound hlists hne hmarks
 obtain ⟨sides,elsewhere⟩:=realized_sides layout hc (hmarks.realized.trans trealized)
 have queue_eq:∀b,queue prog s c b=waiting s (side prog c b):=fun b=>by
  rw [queue,nostub,Option.getD_none]
 refine ⟨⟨hsound.of_realized elsewhere,sides,fun b=>?_,fun k hk=>?_⟩,
  hmarks.remapped.trans tremapped⟩
 · cases b with
   | false=>
    rw [hc.1,(tne c hisa.symm).waiting] at hlists
    rw [queue_eq]
    exact hlists
   | true=>
    rw [queue_eq]
    obtain ⟨n,hn⟩:=tlists
    exact ⟨n,(listsOf_congr (hne _ hisa).rwe).trans hn⟩
 · have both:=(tne k (hk true)).trans (hne k (hk false))
   exact ⟨both.rwe,elsewhere k hk,fun _=>both.waiting⟩

theorem realizeClass_relocated (hc:Plain prog c)
 (heap:HeapSound prog mem s fun k=>s.realized k=false)
 (waits:Waits prog s c cats) {st:ClassId} (hst:(prog.classes c).stub=some st) :
 Realizes prog mem s (realizeClass prog s c) c ∧ (realizeClass prog s c).remappedClasses =
   update s.remappedClasses st (some (some c)) := by
 have hisa:=isa_ne layout hc
 let s₁ : State :=
  {s with remappedClasses:=update s.remappedClasses st (some (some c))}
 obtain ⟨tsound,⟨n,tlists⟩,tne,trealized,tremapped⟩:=metaFirst_spec hmem layout hc
  (s:=s₁) (E:=fun k=>s.realized k=false) ⟨heap.known,heap.ready⟩ (waits.bare true)
 have eq:realizeClass prog s c=methodizeClass prog (metaFirst prog s₁ c) c (some st):=by
  rw [realizeClass,hst]
  exact realizeClassWithoutSwift_eq (s:=s₁) (some st) waits.unrealized hisa
 obtain ⟨hsound,hlists,hmeta,hne,hwaiting,hmarks⟩:=methodizeClass_relocated hmem
  (metaFirst prog s₁ c) c ((tne c hisa.symm).rwe.trans (waits.bare false)) tsound hc.1 hisa
  (stub_ne_side layout hst hc false)
 rw [←eq] at hsound hlists hmeta hne hwaiting hmarks
 obtain ⟨sides,elsewhere⟩:=realized_sides layout hc (hmarks.realized.trans trealized)
 have queue_eq:∀b,queue prog s c b=waiting s st:=fun b=>by rw [queue,hst]; rfl
 have noneOn:∀b,waiting s₁ (side prog c b)=[]:=waits.relocated (by rw [hst]; simp)
 have onStub:waiting (metaFirst prog s₁ c) st=waiting s st :=
  (tne st (stub_ne_side layout hst hc true)).waiting
 refine ⟨⟨hsound.of_realized elsewhere,sides,fun b=>?_,fun k hk=>?_⟩,
  hmarks.remapped.trans tremapped⟩
 · cases b with
   | false=>
    refine ⟨0,?_⟩
    have onClass:waiting (metaFirst prog s₁ c) c=[] :=
     (tne c hisa.symm).waiting.trans (noneOn false)
    rw [onClass,onStub] at hlists
    rw [queue_eq]
    exact hlists.trans (by rw [show side prog c false=c from rfl,bonusLists_of_ne hisa]; rfl)
   | true=>
    refine ⟨n,?_⟩
    rw [noneOn true] at tlists
    rw [queue_eq]
    refine hmeta.trans ?_
    rw [onStub]
    exact congrArg _ tlists
 · refine ⟨(hne k (hk false) (hk true)).trans (tne k (hk true)).rwe,elsewhere k hk,fun h=>?_⟩
   have apart:¬ (k=c ∨ k=st) :=
    not_or.mpr ⟨hk false,fun same=>h (hst.trans (congrArg some same.symm))⟩
   rw [hwaiting,if_neg apart]
   exact (tne k (hk true)).waiting

theorem realizeClass_inv {s₀:State} (present:Present prog s₀ c)
 (inv:Inv prog mem s₀ s history) :
 Inv prog mem s₀ (realizeClass prog s c) history := by
 rcases inv.classes c present with waits|attached
 · have step:Realizes prog mem s (realizeClass prog s c) c ∧ (∀k,(prog.classes c).stub≠some k →
     (realizeClass prog s c).remappedClasses k=s.remappedClasses k) ∧
    ∀st,(prog.classes c).stub=some st →
     (realizeClass prog s c).remappedClasses st=some (some c) := by
    cases hst : (prog.classes c).stub with
    | none=>
     obtain ⟨does,remapped⟩:=realizeClass_plain hmem layout present.1 inv.heap waits hst
     exact ⟨does,fun k _=>congrFun remapped k,fun st h=>nomatch h⟩
    | some st=>
     obtain ⟨does,remapped⟩:=realizeClass_relocated hmem layout present.1 inv.heap waits hst
     refine ⟨does,fun k hk=>?_,fun st' h=>?_⟩
     · rw [remapped,update_of_ne fun same=>hk (congrArg some same.symm)]
     · rw [remapped,←Option.some.inj h,update_self]
   obtain ⟨does,elsewhere,here⟩:=step
   refine ⟨does.heap,fun k d hk=>?_,fun d hd=>?_,inv.queues.keep (realizeClass_kept prog s c)⟩
   · grind [inv.remapped]
   · by_cases same : d=c
     · subst same
       right
       refine ⟨does.realized,fun b=>?_,?_⟩
       · rw [←waits.queued]
         exact does.lists b
       · cases hst : (prog.classes d).stub with
         | none=>rw [elsewhere _ (by rw [hst]; exact nofun),waits.named]; rfl
         | some st=>rw [home,hst]; exact here st hst
     · have apart:∀a b,side prog d a≠side prog c b :=
        fun a b h=>same (side_inj layout hd.1 present.1 h).1
       refine (inv.classes d hd).frame
        { sides := fun b=>?_,stub := fun st hst=>?_,realized := fun b=>?_,named := ?_ }
       · obtain ⟨rwe,-,kept⟩:=does.elsewhere _ (apart b)
         exact ⟨rwe,kept fun h=>stub_ne_side layout h hd.1 b rfl⟩
       · refine (does.elsewhere st fun b=>stub_ne_side layout hst present.1 b).2.2 fun h=>?_
         exact same (layout.stub_inj d c st hst h)
       · exact (does.elsewhere _ (apart b)).2.1
       · refine elsewhere _ fun h=>same (home_inj layout hd.1 present.1 ?_)
         rw [home,home,h]
         rfl
 · have done:s.realized c=true:=attached.realized false
   rw [realizeClass_realized done fun st hst=>?_]
   · exact inv
   · have named:=attached.named
     rwa [home,hst] at named

end Realize

section Runs

structure Start (prog:Program) (s₀:State) : Prop where
 unrealized : ∀k,s₀.realized k=false
 bare : ∀k,s₀.rwe k=none
 nothingWaits : ∀k,s₀.unattachedCategories k=none
 nothingAllocated : s₀.nextList=0
 notRelocated : ∀k c,s₀.remappedClasses k≠some (some c)
 images : ∀n,WellFormed prog.register (s₀.mlists (.image n))
 registered : prog.register prog.initializeSel=prog.initializeSel

def Op.Legal (prog:Program) (s₀:State) : Op → Prop
 | .loadCategories hi catlist catlist2=>
  ∀lc∈(Op.loadCategories hi catlist catlist2).categories,LegalCategory prog lc
 | .realize c=>Present prog s₀ c

def imageMemory (prog:Program) (s₀:State) : ListRef → MethodList
 | .image n=>s₀.mlists (.image n)
 | .heap _=>bonusList prog

variable {s₀:State}

theorem imageMemory_memory (start:Start prog s₀) : Memory prog (imageMemory prog s₀) where
 wellFormed r := by
  cases r with
  | image n=>exact start.images n
  | heap n=>
   refine ⟨fun _ m hm=>?_,fun _ _=>List.pairwise_singleton ..⟩
   rw [List.mem_singleton.mp hm]
   exact start.registered
 heap _ := rfl

theorem start_inv (start:Start prog s₀) : Inv prog (imageMemory prog s₀) s₀ s₀ [] := by
 refine ⟨⟨fun r live=>?_,fun k hk=>absurd (start.unrealized k) hk⟩,
  fun k c h=>absurd h (start.notRelocated k c),fun c hc=>.inl ?_,?_⟩
 · cases r with
   | image n=>exact .inl rfl
   | heap n=>
    rw [start.nothingAllocated] at live
    exact absurd live (Nat.not_lt_zero n)
 · exact
    { unrealized := fun b=>start.unrealized _
      bare := fun b=>start.bare _
      queued := fun b=>by rw [queue,waiting_none (start.nothingWaits _)]; rfl
      named := hc.2
      relocated := fun _ b=>waiting_none (start.nothingWaits _) }
 · have none:=fun k=>waiting_none (start.nothingWaits k)
   refine ⟨fun k list h=>?_,fun k=>?_,fun k=>?_⟩
   · cases (start.nothingWaits k).symm.trans h
   · rw [none]
     exact nofun
   · rw [none]

theorem step_inv (layout:Layout prog) {s:State} (hmem:Memory prog mem) (op:Op)
 (legal:op.Legal prog s₀) (few:FewCategories prog (history++op.categories))
 (inv:Inv prog mem s₀ s history) :
 ∃t,step prog op s=some t ∧ Inv prog mem s₀ t (history++op.categories) := by
 cases op with
 | loadCategories hi catlist catlist2=>exact loadCategories_inv layout _ legal few inv
 | realize c=>
  rw [Op.categories,List.append_nil]
  exact ⟨_,rfl,realizeClass_inv hmem layout legal inv⟩

theorem run_inv (layout:Layout prog) {s:State} (hmem:Memory prog mem) (ops:List Op)
 (legal:∀op∈ops,op.Legal prog s₀) (few:FewCategories prog (history++ops.flatMap Op.categories))
 (inv:Inv prog mem s₀ s history) :
 ∃t,run (step prog) ops s=some t ∧ Inv prog mem s₀ t (history++ops.flatMap Op.categories) := by
 induction ops generalizing s history with
 | nil=>exact ⟨s,rfl,by rwa [List.flatMap_nil,List.append_nil]⟩
 | cons op ops ih=>
  rw [List.flatMap_cons,←List.append_assoc] at few ⊢
  obtain ⟨u,first,next⟩:=step_inv layout hmem op (legal op List.mem_cons_self)
   (few.of_sublist (List.sublist_append_left ..)) inv
  obtain ⟨t,rest,last⟩:=ih (fun o ho=>legal o (List.mem_cons_of_mem _ ho)) few next
  exact ⟨t,run_cons first rest,last⟩

def loadedFor (prog:Program) (c:ClassId) (ops:List Op) : List Located :=
 (ops.flatMap Op.categories).filter (belongs prog c)

def definition (prog:Program) (s₀:State) (isMeta:Bool) (sel:Sel) (lc:Located) : Option Method :=
 (prog.methodsForMeta isMeta lc).bind fun r=>definitionOf prog.register (s₀.mlists r) sel

structure CategoriesFirst (prog:Program) (s₀ s:State) (c:ClassId)
 (cats:List Located) : Prop where
 classLists : listsOf prog s c=fromCategories prog false cats++(prog.classes c).ro.lists
 metaclassLists : ∃n,listsOf prog s (prog.classes c).isa=fromCategories prog true cats ++
  (bonusLists prog (imageMemory prog s₀) (prog.classes c).isa n ++
   (prog.classes (prog.classes c).isa).ro.lists)
 latestWins : ∀isMeta sel earlier lc later m,cats=earlier++lc::later →
  definition prog s₀ isMeta sel lc=some m →
  (∀l∈later,definition prog s₀ isMeta sel l=none) →
  getMethodNoSuper prog s (side prog c isMeta) sel=some m

theorem findSome?_filterMap_none {isMeta:Bool} {sel:Sel} {cats:List Located}
 (none:∀l∈cats,definition prog s₀ isMeta sel l=none) :
 ((cats.filterMap (prog.methodsForMeta isMeta)).findSome? fun r =>
   definitionOf prog.register (imageMemory prog s₀ r) sel)=Option.none := by
 rw [List.findSome?_eq_none_iff]
 intro r hr
 obtain ⟨l,hl,hlr⟩:=List.mem_filterMap.mp hr
 have absent:=none l hl
 rw [definition,hlr] at absent
 obtain ⟨n,-,rfl⟩:=Option.map_eq_some_iff.mp hlr
 exact absent

theorem findSome?_fromCategories {isMeta:Bool} {sel:Sel} {earlier later:List Located} {lc:Located}
 {m:Method} (defines:definition prog s₀ isMeta sel lc=some m)
 (none:∀l∈later,definition prog s₀ isMeta sel l=none) (rest:List ListRef) :
 (((fromCategories prog isMeta (earlier++lc::later)).methods++rest).findSome? fun r =>
   definitionOf prog.register (imageMemory prog s₀ r) sel)=some m := by
 obtain ⟨r,hr,hm⟩:=Option.bind_eq_some_iff.mp defines
 have split:(fromCategories prog isMeta (earlier++lc::later)).methods =
  later.reverse.filterMap (prog.methodsForMeta isMeta) ++
   r::earlier.reverse.filterMap (prog.methodsForMeta isMeta) := by
  simp [fromCategories,hr]
 have absent:∀l∈later.reverse,definition prog s₀ isMeta sel l=Option.none :=
  fun l hl=>none l (List.mem_reverse.mp hl)
 have here:definitionOf prog.register (imageMemory prog s₀ r) sel=some m:=by
  obtain ⟨n,-,rfl⟩:=Option.map_eq_some_iff.mp hr
  exact hm
 rw [split,List.append_assoc,List.findSome?_append,findSome?_filterMap_none absent,
  Option.none_or,List.cons_append,List.findSome?_cons,here]

/-- Wherever in a run a class is realized, its lists end up as those of its categories, latest
first, followed by its own. -/
theorem category_order_of_realized {prog:Program} {s₀:State} (layout:Layout prog)
 (start:Start prog s₀) (ops:List Op) (legal:∀op∈ops,op.Legal prog s₀)
 (few:FewCategories prog (ops.flatMap Op.categories)) (c:ClassId) (present:Present prog s₀ c) :
 ∃s,run (step prog) ops s₀=some s ∧
  (s.realized c=true → CategoriesFirst prog s₀ s c (loadedFor prog c ops)) := by
 have hmem:=imageMemory_memory start
 obtain ⟨s,ran,inv⟩:=run_inv layout hmem ops legal few (start_inv start)
 refine ⟨s,ran,fun realized=>?_⟩
 rcases inv.classes c present with waits|attached
 · have:=waits.unrealized false
   grind [side]
 · refine ⟨?_,attached.lists true,fun isMeta sel earlier lc later m split defines none=>?_⟩
   · obtain ⟨n,hn⟩:=attached.lists false
     refine hn.trans ?_
     rw [show side prog c false=c from rfl,bonusLists_of_ne (isa_ne layout present.1)]
     rfl
   · obtain ⟨n,hn⟩:=attached.lists isMeta
     have ready:¬ s.realized (side prog c isMeta)=false:=by
      simp [attached.realized isMeta]
     have history:List.filter (belongs prog c) ([]++ops.flatMap Op.categories) =
      earlier++lc::later := split
     rw [getMethodNoSuper_eq hmem inv.heap ready,hn,history,Lists.append_methods]
     exact findSome?_fromCategories defines none _

def rootProgram : Program where
 classes k :=
  { isa := 1,isMeta := k != 0,isStub := false,stub := none
    ro := ⟨if k=0 then some 1 else none,none,none⟩ }
 category n := ⟨0,some (2*n),some (2*n+1),none,none,none⟩
 hasCategoryClassProperties _ := true
 register := id
 initializeSel := 100
 objcNoopImp := 0
 ptrauth := false

def rootStart : State where
 realized _ := false
 rwe _ := none
 mlists _ := ⟨false,24,[⟨7,8⟩]⟩
 nextList := 0
 unattachedCategories _ := none
 remappedClasses _ := none

def rootOps : List Op := [.loadCategories 0 [1] [],.realize 0,.loadCategories 0 [2] []]

theorem rootProgram_layout : Layout rootProgram where
 isa_isMeta _ _ := rfl
 isa_isStub _ _ := rfl
 isa_inj c d hc hd _ := by grind [Plain,rootProgram]
 stub_isStub _ _ h := nomatch h
 stub_inj _ _ _ h := nomatch h

theorem rootStart_start : Start rootProgram rootStart where
 unrealized _ := rfl
 bare _ := rfl
 nothingWaits _ := rfl
 nothingAllocated := rfl
 notRelocated _ _ := nofun
 images _ := ⟨fun _ _ _=>rfl,fun _ _=>List.pairwise_singleton ..⟩
 registered := rfl

theorem category_order_around_realization : ∃s,run (step rootProgram) rootOps rootStart=some s ∧
  s.realized 0=true ∧ listsOf rootProgram s 0=⟨[.image 4,.image 2,.image 1],[],[]⟩ := by
 have plain:Plain rootProgram 0:=⟨rfl,rfl⟩
 have legal:∀op∈rootOps,op.Legal rootProgram rootStart:=by
  simp only [rootOps,List.mem_cons,List.not_mem_nil,or_false,forall_eq_or_imp,forall_eq]
  refine ⟨fun lc hlc=>?_,⟨plain,rfl⟩,fun lc hlc=>?_⟩ <;>
  · rw [List.mem_singleton.mp hlc]
    exact ⟨⟨by decide,rfl⟩,.inl ⟨plain,rfl⟩⟩
 have few:FewCategories rootProgram (rootOps.flatMap Op.categories):=fun k =>
  (List.length_filter_le _ _).trans (by decide)
 obtain ⟨s,ran,lists⟩:=category_order_of_realized rootProgram_layout rootStart_start rootOps legal
  few 0 ⟨plain,rfl⟩
 have realized:s.realized 0=true:=run_holds ran (·.realized 0=true) (by decide)
 exact ⟨s,ran,realized,(lists realized).classLists⟩

/-- A root metaclass without `+initialize` gets a list of its own between the categories' lists
and its base list. -/
theorem root_metaclass_has_bonus_list : ∃s,run (step rootProgram) rootOps rootStart=some s ∧
  listsOf rootProgram s 1=⟨[.image 5,.image 3,.heap 0],[],[]⟩ ∧ listsOf rootProgram s 1 ≠
   fromCategories rootProgram true (loadedFor rootProgram 0 rootOps) ++
    (rootProgram.classes 1).ro.lists :=
 run_yields _ _ _ _ (by decide)

end Runs

end History

end ObjcRuntime.CategoryOrder
