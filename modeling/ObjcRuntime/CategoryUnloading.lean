import ObjcRuntime.CategoryHistory

/-!
Unloading an image. `_unload_image` erases each category of the image under its class, while
`load_categories_nolock` may have queued it under the metaclass as well.
-/

set_option autoImplicit false
namespace ObjcRuntime.CategoryOrder

open CategoryArrays PartialRuns Function

/-- What loading and unloading read of an image that is not a Swift one; categories are given by
their addresses. -/
structure Image where
 header : ℕ
 catlist : List ℕ
 /-- `__objc_classlist` and `__objc_nlclslist` -/
 classlist : List ClassId

def eraseCategoryForClass (s:State) (cat:ℕ) (cls:ClassId) : State :=
 match s.unattachedCategories cls with
 | none=>s
 | some list=>
  let list:=list.erase cat
  { s with
    unattachedCategories := update s.unattachedCategories cls
     (if list.count=0 then none else some list) }

/-- `detach_class` and `free_class`; if the image comes back, its classes start afresh. -/
def unloadClass (s:State) (cls:ClassId) : State :=
 { s with
   unattachedCategories := update s.unattachedCategories cls none
   realized := update s.realized cls false
   rwe := update s.rwe cls none }

variable (prog:Program)

def unloadCategory (s:State) (cat:ℕ) : State :=
 match remapClass s (prog.category cat).cls with
 -- category for ignored weak-linked class
 | none=>s
 | some cls=>eraseCategoryForClass s cat cls

def unloadPair (s:State) (cls:ClassId) : State :=
 unloadClass (unloadClass s (prog.classes cls).isa) cls

def unloadImage (s:State) (hi:Image) : State :=
 let s:=hi.catlist.foldl (unloadCategory prog) s
 (hi.classlist.filterMap (remapClass s)).foldl (unloadPair prog) s

inductive ImageOp
 | load (hi:Image)
 | realize (cls:ClassId)
 | unload (hi:Image)

def imageStep : ImageOp → State → Option State
 | .load hi=>step prog (.loadCategories hi.header hi.catlist [])
 | .realize cls=>step prog (.realize cls)
 | .unload hi=>fun s=>some (unloadImage prog s hi)

def Pending (s:State) (cat:ℕ) : Prop := ∃k,∃lc∈waiting s k,lc.cat=cat

def UnloadedWith (s:State) (hi:Image) (k:ClassId) : Prop :=
 ∃cls∈hi.classlist.filterMap (remapClass s),k=cls ∨ k=(prog.classes cls).isa

def Category.hasClassParts (cat:Category) : Bool :=
 cat.classMethods.isSome || cat.protocols.isSome || cat.classProperties.isSome

/-- An image is not loaded twice and extends classes, not metaclasses, for none of which more
categories wait than a `category_list` holds; a stub is relocated when its class is realized; and
what an unloaded image has for a metaclass was attached, or the metaclass goes with the image. -/
def ImageOp.Allowed (s:State) : ImageOp → Prop
 | .load hi=>hi.catlist.Nodup ∧ (∀k,(waiting s k).length+hi.catlist.length ≤ most) ∧
  ∀cat∈hi.catlist,Legal ⟨cat,hi.header⟩ ∧ ¬ Pending s cat ∧
   ∀cls,remapClass s (prog.category cat).cls=some cls → (prog.classes cls).isMeta=false
 | .realize cls=>∀old,(prog.classes cls).stub=some old →
  s.remappedClasses old=none ∧ s.realized cls=false ∨ s.remappedClasses old=some (some cls)
 | .unload hi=>∀cat∈hi.catlist,∀cls,remapClass s (prog.category cat).cls=some cls →
  (prog.classes cls).isStub=false → (prog.category cat).hasClassParts →
  s.realized (prog.classes cls).isa ∨ UnloadedWith prog s hi (prog.classes cls).isa

inductive Reached : State → Prop
 | start {s:State} (empty:∀k,s.unattachedCategories k=none) : Reached s
 | step {s t:State} (op:ImageOp) (before:Reached s) (allowed:op.Allowed prog s)
  (done:imageStep prog op s=some t) : Reached t

/-- Where a category may wait: under its class, or under the metaclass if that is no stub. -/
def Key (s:State) (lc:Located) (k:ClassId) : Prop :=
 ∃cls,remapClass s (prog.target lc)=some cls ∧
  (k=cls ∨ Plain prog cls ∧ prog.concerns true lc ∧ k=(prog.classes cls).isa)

structure Tidy (s:State) : Prop where
 stored : Stored s
 key : ∀k,∀lc∈waiting s k,Key prog s lc k
 once : ∀k,((waiting s k).map Located.cat).Nodup
 realized : ∀k,s.realized k → (prog.classes k).isStub=false → waiting s k=[]

variable {prog} {s t u:State}

theorem remapClass_congr (h:t.remappedClasses=s.remappedClasses) (k:ClassId) :
 remapClass t k=remapClass s k := by
 rw [remapClass,remapClass,h]

structure Shrinks (s t:State) : Prop where
 stored : Stored s → Stored t
 waiting : ∀k,(waiting t k).Sublist (waiting s k)
 realized : ∀k,t.realized k → s.realized k
 remapped : t.remappedClasses=s.remappedClasses

theorem Shrinks.refl (s:State) : Shrinks s s := ⟨id,fun _=>.refl _,fun _=>id,rfl⟩

theorem Shrinks.trans (h:Shrinks s t) (h':Shrinks t u) : Shrinks s u where
 stored := h'.stored ∘ h.stored
 waiting k := (h'.waiting k).trans (h.waiting k)
 realized k := h.realized k ∘ h'.realized k
 remapped := h'.remapped.trans h.remapped

theorem Tidy.shrink (tidy:Tidy prog s) (h:Shrinks s t) : Tidy prog t where
 stored := h.stored tidy.stored
 key k lc hlc := by
  obtain ⟨cls,named,place⟩:=tidy.key k lc ((h.waiting k).subset hlc)
  exact ⟨cls,(remapClass_congr h.remapped _).trans named,place⟩
 once k := ((h.waiting k).map _).nodup (tidy.once k)
 realized k ready plain :=
  List.sublist_nil.mp (tidy.realized k (h.realized k ready) plain ▸ h.waiting k)

section Unload

theorem eraseCategoryForClass_spec (stored:Stored s) (cat:ℕ) (cls:ClassId) :
 Stored (eraseCategoryForClass s cat cls) ∧ ∀k,waiting (eraseCategoryForClass s cat cls) k =
  if k=cls then (waiting s k).eraseP fun lc=>lc.cat=cat else waiting s k := by
 cases h : s.unattachedCategories cls with
 | none =>
  rw [eraseCategoryForClass,h]
  refine ⟨stored,fun k=>?_⟩
  grind [waiting_none]
 | some list =>
  have erased:eraseCategoryForClass s cat cls={ s with
    unattachedCategories := update s.unattachedCategories cls
     (if (list.erase cat).count=0 then none else some (list.erase cat)) } := by
   rw [eraseCategoryForClass,h]
  rw [erased]
  have rep:=(stored cls list h).erase cat
  rw [←rep.entries] at rep
  refine ⟨fun k other some=>?_,fun k=>?_⟩
  · by_cases same : k=cls
    · subst same
      have:=(update_self ..).symm.trans some
      grind
    · exact stored k other ((update_of_ne same ..).symm.trans some)
  · by_cases same : k=cls
    · subst same
      rw [if_pos rfl,waiting_some h,←(stored k list h |>.erase cat).entries]
      by_cases empty : (list.erase cat).count=0
      · rw [if_pos empty,waiting_none (update_self ..),eq_comm]
        exact List.eq_nil_of_length_eq_zero (rep.agrees.count.symm.trans empty)
      · rw [if_neg empty]
        exact waiting_some (update_self ..)
    · simp only [if_neg same,waiting,update_of_ne same]

variable (prog) in
theorem unloadCategory_shrinks (stored:Stored s) (cat:ℕ) :
 Shrinks s (unloadCategory prog s cat) := by
 rw [unloadCategory]
 cases remapClass s (prog.category cat).cls with
 | none=>exact .refl s
 | some cls=>
  obtain ⟨stored',waiting⟩:=eraseCategoryForClass_spec stored cat cls
  have marks:SameMarks s (eraseCategoryForClass s cat cls):=by
   rw [eraseCategoryForClass]
   split <;> exact ⟨rfl,rfl⟩
  refine ⟨fun _=>stored',fun k=>?_,fun k=>(congrFun marks.realized k ▸ id),marks.remapped⟩
  grind

theorem not_mem_eraseP {l:List Located} (once:(l.map Located.cat).Nodup)
 {cat:ℕ} {lc:Located} (h:lc∈l.eraseP fun lc=>lc.cat=cat) :
 lc.cat≠cat := by
 induction l with
 | nil=>cases h
 | cons a l ih=>grind

theorem unloadCategories (cats:List ℕ) (tidy:Tidy prog s) :
 let t:=cats.foldl (unloadCategory prog) s
 Shrinks s t ∧ ∀cat∈cats,∀cls,remapClass s (prog.category cat).cls=some cls →
   ∀lc∈waiting t cls,lc.cat≠cat := by
 induction cats generalizing s with
 | nil=>exact ⟨.refl s,nofun⟩
 | cons first cats ih=>
  have shrinks:=unloadCategory_shrinks prog tidy.stored first
  obtain ⟨rest,erased⟩:=ih (tidy.shrink shrinks)
  refine ⟨shrinks.trans rest,fun cat hcat cls named lc hlc=>?_⟩
  rcases List.mem_cons.mp hcat with rfl|hcat
  · have after:=(rest.waiting cls).subset hlc
    rw [unloadCategory,named] at after
    simp only [(eraseCategoryForClass_spec tidy.stored cat cls).2,if_true] at after
    exact not_mem_eraseP (tidy.once cls) after
  · exact erased cat hcat cls ((remapClass_congr shrinks.remapped _).trans named) lc hlc

theorem unloadClass_waiting (s:State) (cls k:ClassId) :
 waiting (unloadClass s cls) k=if k=cls then [] else waiting s k :=
 waiting_update_none s cls _ k rfl

theorem unloadClass_shrinks (s:State) (cls:ClassId) : Shrinks s (unloadClass s cls) where
 stored stored := stored.keep fun k=>by
  by_cases same : k=cls
  · exact .inr (same ▸ update_self ..)
  · exact .inl (update_of_ne same ..)
 waiting k := by grind [unloadClass_waiting]
 realized k ready := by
  by_cases same : k=cls
  · simp [unloadClass,same] at ready
  · simpa [unloadClass,same] using ready
 remapped := rfl

variable (prog) in
theorem unloadPairs (classes:List ClassId) (s:State) :
 Shrinks s (classes.foldl (unloadPair prog) s) ∧ ∀cls∈classes,∀k,k=cls ∨ k=(prog.classes cls).isa →
   waiting (classes.foldl (unloadPair prog) s) k=[] := by
 induction classes generalizing s with
 | nil=>exact ⟨.refl s,nofun⟩
 | cons first classes ih=>
  have shrinks:Shrinks s (unloadPair prog s first) :=
   (unloadClass_shrinks s _).trans (unloadClass_shrinks _ first)
  obtain ⟨rest,erased⟩:=ih (unloadPair prog s first)
  refine ⟨shrinks.trans rest,fun cls hcls k hk=>?_⟩
  rcases List.mem_cons.mp hcls with rfl|hcls
  · have gone:waiting (unloadPair prog s cls) k=[]:=by
     grind [unloadPair,unloadClass_waiting]
    exact List.sublist_nil.mp (gone ▸ rest.waiting k)
  · exact erased cls hcls k hk

theorem unloadImage_shrinks (hi:Image) (tidy:Tidy prog s) : Shrinks s (unloadImage prog s hi) :=
 (unloadCategories hi.catlist tidy).1.trans (unloadPairs prog _ _).1

theorem unloadImage_clears (layout:Layout prog) (hi:Image) (tidy:Tidy prog s)
 (allowed:(ImageOp.unload hi).Allowed prog s) (cat:ℕ) (hcat:cat∈hi.catlist) :
 ¬ Pending (unloadImage prog s hi) cat := by
 rintro ⟨k,lc,hlc,rfl⟩
 obtain ⟨categories,erased⟩:=unloadCategories hi.catlist tidy
 obtain ⟨classes,detached⟩:=unloadPairs prog
  (hi.classlist.filterMap (remapClass (hi.catlist.foldl (unloadCategory prog) s)))
  (hi.catlist.foldl (unloadCategory prog) s)
 have between:=(classes.waiting k).subset hlc
 have before:=(categories.waiting k).subset between
 obtain ⟨cls,named,rfl | ⟨plain,concerns,rfl⟩⟩:=tidy.key k lc before
 · exact erased lc.cat hcat k named lc between rfl
 · have any:(prog.category lc.cat).hasClassParts:=by
    grind [Program.concerns,Category.hasClassParts]
   rcases allowed lc.cat hcat cls named plain.2 any with ready|⟨c,hc,gone⟩
   · grind [tidy.realized,layout.isa_isStub]
   · rw [←List.filterMap_congr fun k _=>remapClass_congr categories.remapped k] at hc
     grind [unloadImage]

end Unload

section Realize

variable (prog) in
theorem methodizeClass_table (s:State) (cls:ClassId) (previously:Option ClassId) :
 (∀k,waiting (methodizeClass prog s cls previously) k =
  if k=cls ∨ previously=some k then [] else waiting s k) ∧
  SameMarks s (methodizeClass prog s cls previously) := by
 obtain ⟨table,marks⟩:=installOwn_table prog s cls
 have own:∀k,waiting (installOwn prog s cls) k=waiting s k:=fun k=>by
  rw [waiting,waiting,table]
 cases previously with
 | none=>
  refine ⟨fun k=>(attachToClass_waiting _ _ _ _ k).trans ?_,
   marks.trans (attachToClass_marks _ _ _ _)⟩
  simp only [reduceCtorEq,or_false,←own k]
  rfl
 | some old=>
  refine ⟨fun k=>(attachToClass_waiting _ _ _ _ k).trans ?_,
   (marks.trans (attachToClass_marks _ _ _ _)).trans (attachToClass_marks _ _ _ _)⟩
  simp only [attachToClass_waiting]
  rw [←own k,ite_or]
  simp only [Option.some.injEq,eq_comm (a:=old)]
  rfl

variable (prog) in
theorem realizeClassWithoutSwift_takes (s:State) (cls:ClassId) (previously:Option ClassId)
 (fresh:s.realized cls=false) :
 let t:=realizeClassWithoutSwift prog s cls previously
 (∀k,t.realized k → s.realized k ∨ waiting t k=[]) ∧
  (∀old,previously=some old → waiting t old=[]) ∧ t.remappedClasses=s.remappedClasses := by
 obtain ⟨s₁,eq,ready,remapped⟩ : ∃s₁,
  realizeClassWithoutSwift prog s cls previously=methodizeClass prog s₁ cls previously ∧
  (∀k,s₁.realized k → s.realized k ∨ k=cls ∨ waiting s₁ k=[]) ∧
  s₁.remappedClasses=s.remappedClasses := by
  have marked:∀{s:State} {c k},(setRealized s c).realized k → k=c ∨ s.realized k:=by
   intro s c k h
   by_cases same : k=c
   · exact .inl same
   · exact .inr (by simpa [setRealized,same] using h)
  refine ⟨_,by rw [realizeClassWithoutSwift,if_neg (by simp [fresh])],?_⟩
  split
  · exact ⟨fun k h=>(marked h).elim (.inr ∘ .inl) .inl,rfl⟩
  · obtain ⟨table,marks⟩:=methodizeClass_table prog
     (setRealized (setRealized s cls) (prog.classes cls).isa) (prog.classes cls).isa none
    refine ⟨fun k h=>?_,marks.remapped⟩
    rw [marks.realized] at h
    grind
 obtain ⟨table,marks⟩:=methodizeClass_table prog s₁ cls previously
 intro t
 rw [show t=_ from eq]
 refine ⟨fun k h=>?_,fun old same=>by rw [table,if_pos (.inr same)],marks.remapped.trans remapped⟩
 rw [marks.realized] at h
 grind

theorem Tidy.take (tidy:Tidy prog s) (kept:Kept s t)
 (realized:∀k,t.realized k → s.realized k ∨ waiting t k=[])
 (key:∀k,∀lc∈waiting t k,Key prog s lc k → Key prog t lc k) : Tidy prog t where
 stored := tidy.stored.keep kept
 key k lc hlc := by grind [kept.waiting k,tidy.key]
 once k := by grind [kept.waiting k,tidy.once]
 realized k ready plain := by grind [kept.waiting k,tidy.realized]

theorem realizeClass_tidy (layout:Layout prog) (cls:ClassId) (tidy:Tidy prog s)
 (allowed:(ImageOp.realize cls).Allowed prog s) : Tidy prog (realizeClass prog s cls) := by
 cases ready : s.realized cls with
 | true=>
  rw [realizeClass_realized ready fun old stub=>?_]
  · exact tidy
  · rcases allowed old stub with fresh|named
    · simp [ready] at fresh
    · exact named
 | false=>
  have kept:=realizeClass_kept prog s cls
  rw [realizeClass] at kept ⊢
  cases stub : (prog.classes cls).stub with
  | none=>
   rw [stub] at kept
   obtain ⟨takes,-,remapped⟩:=realizeClassWithoutSwift_takes prog s cls none ready
   refine tidy.take kept takes ?_
   rintro k lc - ⟨c,named,place⟩
   exact ⟨c,(remapClass_congr remapped _).trans named,place⟩
  | some old=>
   rw [stub] at kept
   obtain ⟨takes,gone,remapped⟩:=realizeClassWithoutSwift_takes prog
    {s with remappedClasses:=update s.remappedClasses old (some (some cls))} cls (some old)
    ready
   refine tidy.take kept takes ?_
   rintro k lc hlc ⟨c,named,place⟩
   refine ⟨c,(remapClass_congr remapped _).trans ?_,place⟩
   by_cases target : prog.target lc=old
   · rw [target] at named ⊢
     rcases allowed old stub with ⟨fresh,-⟩|again
     · -- what waits for the stub is attached now, to the class and to the metaclass
       have self:old=c:=by simpa [remapClass,fresh] using named
       subst self
       rcases place with rfl|⟨plain,-⟩
       · rw [gone k rfl] at hlc
         cases hlc
       · have:=layout.stub_isStub cls old stub
         rw [plain.2] at this
         cases this
     · rwa [←again,update_eq_self]
   · simpa only [remapClass,update_of_ne target] using named

end Realize

section Load

/-- A category is loaded: under each key it is now the last that waits, or nothing changes. -/
structure Adds (prog:Program) (s t:State) (lc:Located) : Prop where
 stored : Stored t
 marks : SameMarks s t
 queue : ∀k,waiting t k=waiting s k ∨ waiting t k=waiting s k++[lc] ∧ Key prog s lc k ∧
  (s.realized k → (prog.classes k).isStub=true)

theorem loadCategory_spec (layout:Layout prog) (lc:Located) (stored:Stored s) (legal:Legal lc)
 (few:∀k,(waiting s k).length < most)
 (target:∀cls,remapClass s (prog.target lc)=some cls → (prog.classes cls).isMeta=false) :
 ∃t,loadCategory prog lc s=some t ∧ Adds prog s t lc := by
 rw [loadCategory]
 cases named : remapClass s (prog.target lc) with
 | none=>exact ⟨s,rfl,stored,⟨rfl,rfl⟩,fun _=>.inl rfl⟩
 | some cls=>
  dsimp only
  split
  next stub=>
   split
   next=>
    obtain ⟨t,added,queued⟩:=addForClass_spec prog lc cls stored legal (few cls)
    refine ⟨t,added,queued.stored,queued.marks,fun k=>?_⟩
    rw [queued.waiting]
    split
    next same=>exact .inr ⟨by rw [same],⟨cls,named,.inl same⟩,fun _=>same ▸ stub⟩
    next=>exact .inl rfl
   next=>exact ⟨s,rfl,stored,⟨rfl,rfl⟩,fun _=>.inl rfl⟩
  next stub=>
   have plain:Plain prog cls:=⟨target cls named,by simpa using stub⟩
   obtain ⟨t,done,loads⟩:=loadPair_spec layout plain stored legal fun b _=>few _
   refine ⟨t,done,loads.stored,loads.marks,fun k=>?_⟩
   by_cases onPair : ∃b,k=side prog cls b
   · obtain ⟨b,rfl⟩:=onPair
     cases ready : s.realized (side prog cls b) with
     | true=>exact .inl ((loads.sides b).realized ready).1
     | false=>
      rw [((loads.sides b).waits ready).2]
      split
      next concerns=>
       refine .inr ⟨rfl,⟨cls,named,?_⟩,fun h=>absurd h Bool.false_ne_true⟩
       cases b with
       | false=>exact .inl rfl
       | true=>exact .inr ⟨plain,concerns,rfl⟩
      next=>exact .inl rfl
   · exact .inl (loads.elsewhere k (not_exists.mp onPair)).waiting

theorem Adds.mem {lc x:Located} {k:ClassId} (adds:Adds prog s t lc) (hx:x∈waiting t k) :
 x∈waiting s k ∨ x=lc ∧ Key prog s lc k := by
 rcases adds.queue k with same|⟨added,key,-⟩
 · exact .inl (same ▸ hx)
 · rw [added,List.mem_append,List.mem_singleton] at hx
   exact hx.imp_right fun last=>⟨last,key⟩

theorem Adds.tidy {lc:Located} (adds:Adds prog s t lc) (tidy:Tidy prog s)
 (fresh:¬ Pending s lc.cat) : Tidy prog t := by
 refine ⟨adds.stored,fun k x hx=>?_,fun k=>?_,fun k ready plain=>?_⟩
 · have key:Key prog s x k:=by
    rcases adds.mem hx with before|⟨rfl,key⟩
    · exact tidy.key k x before
    · exact key
   obtain ⟨cls,named,place⟩:=key
   exact ⟨cls,(remapClass_congr adds.marks.remapped _).trans named,place⟩
 · rcases adds.queue k with same|⟨added,-⟩
   · exact same ▸ tidy.once k
   · rw [added,List.map_append,List.nodup_append]
     refine ⟨tidy.once k,List.nodup_singleton _,fun c hc d hd same=>?_⟩
     obtain ⟨x,hx,rfl⟩:=List.mem_map.mp hc
     exact fresh ⟨k,x,hx,same.trans (List.mem_singleton.mp hd)⟩
 · rw [adds.marks.realized] at ready
   rcases adds.queue k with same|⟨-,-,stub⟩
   · exact same.trans (tidy.realized k ready plain)
   · rw [stub ready] at plain
     cases plain

theorem loadCategories_tidy (layout:Layout prog) (header:ℕ) (cats:List ℕ)
 (tidy:Tidy prog s) (distinct:cats.Nodup) (few:∀k,(waiting s k).length+cats.length ≤ most)
 (legal:∀cat∈cats,Legal ⟨cat,header⟩ ∧ ¬ Pending s cat ∧
  ∀cls,remapClass s (prog.category cat).cls=some cls → (prog.classes cls).isMeta=false) :
 ∃t,run (loadCategory prog) (cats.map fun cat=>⟨cat,header⟩) s=some t ∧ Tidy prog t := by
 induction cats generalizing s with
 | nil=>exact ⟨s,rfl,tidy⟩
 | cons cat cats ih=>
  rw [List.nodup_cons] at distinct
  rw [List.length_cons] at few
  obtain ⟨aligned,fresh,target⟩:=legal cat List.mem_cons_self
  obtain ⟨u,first,adds⟩:=loadCategory_spec layout ⟨cat,header⟩ tidy.stored aligned
   (fun k=>by have:=few k; omega) target
  suffices h:∃t,run (loadCategory prog) (cats.map fun cat=>⟨cat,header⟩) u=some t ∧ Tidy prog t by
   obtain ⟨t,rest,last⟩:=h
   exact ⟨t,run_cons first rest,last⟩
  refine ih (adds.tidy tidy fresh) distinct.2 (fun k=>?_) fun other hother=>?_
  · have:=few k
    rcases adds.queue k with same|⟨added,-⟩
    · rw [same]
      omega
    · rw [added,List.length_append,List.length_singleton]
      omega
  · obtain ⟨aligned,unknown,target⟩:=legal other (List.mem_cons_of_mem _ hother)
    refine ⟨aligned,?_,fun cls named=>
     target cls ((remapClass_congr adds.marks.remapped _).symm.trans named)⟩
    rintro ⟨k,lc,hlc,rfl⟩
    rcases adds.mem hlc with before|⟨rfl,-⟩
    · exact unknown ⟨k,lc,before,rfl⟩
    · exact distinct.1 hother

end Load

theorem Tidy.step (layout:Layout prog) (tidy:Tidy prog s) (op:ImageOp)
 (allowed:op.Allowed prog s) : ∃t,imageStep prog op s=some t ∧ Tidy prog t := by
 cases op with
 | load hi=>
  have load:imageStep prog (.load hi) s =
   run (loadCategory prog) (hi.catlist.map fun cat=>⟨cat,hi.header⟩) s := by
   simp only [imageStep,CategoryOrder.step,Op.categories,List.append_nil]
  rw [load]
  exact loadCategories_tidy layout hi.header hi.catlist tidy allowed.1 allowed.2.1 allowed.2.2
 | realize cls=>exact ⟨_,rfl,realizeClass_tidy layout cls tidy allowed⟩
 | unload hi=>exact ⟨_,rfl,tidy.shrink (unloadImage_shrinks hi tidy)⟩

theorem Reached.tidy (layout:Layout prog) (reached:Reached prog s) : Tidy prog s := by
 induction reached with
 | start empty=>
  have none:=fun k=>waiting_none (empty k)
  refine ⟨fun k list h=>?_,fun k lc hlc=>?_,fun k=>?_,fun k _ _=>none k⟩
  · cases (empty k).symm.trans h
  · rw [none k] at hlc
    cases hlc
  · rw [none k]
    exact List.nodup_nil
 | step op before allowed done ih=>
  obtain ⟨t,again,tidy⟩:=ih.step layout op allowed
  cases done.symm.trans again
  exact tidy

/-- Every allowed step is made, and nothing an image defined is left in the table once the image is
unloaded. -/
theorem unloaded_not_pending (layout:Layout prog) (reached:Reached prog s) :
 (∀op,ImageOp.Allowed prog s op → imageStep prog op s≠none) ∧
 ∀hi,(ImageOp.unload hi).Allowed prog s → ∀t,imageStep prog (.unload hi) s=some t →
  ∀cat∈hi.catlist,¬ Pending t cat := by
 have tidy:=reached.tidy layout
 refine ⟨fun op allowed none=>?_,fun hi allowed t done=>?_⟩
 · obtain ⟨t,some,-⟩:=tidy.step layout op allowed
   cases none.symm.trans some
 · cases done
   exact unloadImage_clears layout hi tidy allowed

def classMethodsInTwo : Program :=
 { rootProgram with
   category := fun n=>⟨0,some (2*n),if n=2 then some 5 else none,none,none,none⟩ }

theorem instanceImage_unloaded : let hi : Image:=⟨0,[1,3],[]⟩
 ∃s t,imageStep classMethodsInTwo (.load hi) rootStart=some s ∧ Pending s 1 ∧ Pending s 3 ∧
  imageStep classMethodsInTwo (.unload hi) s=some t ∧ ∀cat∈hi.catlist,¬ Pending t cat := by
 intro hi
 have layout:Layout classMethodsInTwo:=⟨rootProgram_layout.isa_isMeta,
  rootProgram_layout.isa_isStub,rootProgram_layout.isa_inj,rootProgram_layout.stub_isStub,
  rootProgram_layout.stub_inj⟩
 have reached:Reached classMethodsInTwo _:=.step (.load hi) (.start (s:=rootStart) fun _=>rfl)
  ⟨by decide,fun k=>show 0+2 ≤ most by decide,fun cat hcat=>⟨?_,?_,fun cls named=>?_⟩⟩ rfl
 · refine ⟨_,_,rfl,⟨0,⟨1,0⟩,by decide,rfl⟩,⟨0,⟨3,0⟩,by decide,rfl⟩,rfl,
    (unloaded_not_pending layout reached).2 hi (fun cat hcat cls _ _ parts=>?_) _ rfl⟩
   have without:∀cat∈[1,3],¬ (classMethodsInTwo.category cat).hasClassParts:=by decide
   exact absurd parts (without cat hcat)
 · have named:∀cat∈[1,3],cat≠0:=by decide
   exact ⟨named cat hcat,rfl⟩
 · rintro ⟨k,lc,hlc,-⟩
   cases hlc
 · cases named
   rfl

/-- A category with class methods waits under the metaclass, stays there, and is attached when the
class is realized. -/
theorem classMethods_stay_pending : let hi : Image:=⟨0,[2],[]⟩
 ∃s,run (imageStep classMethodsInTwo) [.load hi,.unload hi] rootStart=some s ∧
  (∃cat∈hi.catlist,Pending s cat) ∧ ∃t,imageStep classMethodsInTwo (.realize 0) s=some t ∧
   .image 5∈(listsOf classMethodsInTwo t 1).methods :=
 ⟨_,rfl,⟨2,.head _,1,⟨2,0⟩,by decide,rfl⟩,_,rfl,by decide⟩

end ObjcRuntime.CategoryOrder
