import ObjcRuntime.CategoryOrder

/-!
What the functions that attach categories do to a class, with the containers folded away: the
categories' lists go, newest first, before the lists a class has, and `unattachedCategories` is a
queue per class.
-/

set_option autoImplicit false
namespace ObjcRuntime.CategoryOrder

open MethodLists CategoryArrays ListArrays
open Function

namespace Lists

@[simp] theorem append_methods (a b:Lists) : (a++b).methods=a.methods++b.methods := rfl
@[simp] theorem append_properties (a b:Lists) : (a++b).properties=a.properties++b.properties := rfl
@[simp] theorem append_protocols (a b:Lists) : (a++b).protocols=a.protocols++b.protocols := rfl

theorem append_assoc (a b c:Lists) : a++b++c=a++(b++c) := by
 ext1 <;> simp

def empty : Lists := ⟨[],[],[]⟩

@[simp] theorem empty_append (a:Lists) : empty++a=a := rfl

end Lists

def fromCategories (prog:Program) (isMeta:Bool) (cats:List Located) : Lists :=
 { methods := cats.reverse.filterMap (prog.methodsForMeta isMeta)
   properties := cats.reverse.filterMap (prog.propertiesForMeta isMeta)
   protocols := cats.reverse.filterMap (prog.protocolsForMeta isMeta) }

theorem fromCategories_append (prog:Program) (isMeta:Bool) (a b:List Located) :
 fromCategories prog isMeta (a++b)=fromCategories prog isMeta b++fromCategories prog isMeta a := by
 ext1 <;> simp [fromCategories]

theorem fromCategories_of_not_concerns {prog:Program} {isMeta:Bool} {lc:Located}
 (h:prog.concerns isMeta lc=false) : fromCategories prog isMeta [lc]=.empty := by
 cases isMeta with
 | false=>
  simp only [Program.concerns,Bool.false_eq_true,if_false,Bool.or_eq_false_iff,
   Option.isSome_eq_false_iff,Option.isNone_iff_eq_none] at h
  obtain ⟨⟨hm,hproto⟩,hprop⟩:=h
  simp [fromCategories,Program.methodsForMeta,Program.propertiesForMeta,
   Program.protocolsForMeta,hm,hprop,hproto,Lists.empty]
 | true=>
  simp only [Program.concerns,if_true,Bool.or_eq_false_iff,Bool.and_eq_false_iff,
   Option.isSome_eq_false_iff,Option.isNone_iff_eq_none] at h
  obtain ⟨⟨hm,-⟩,hprop⟩:=h
  have none_prop:prog.propertiesForMeta true lc=none:=by grind [Program.propertiesForMeta]
  simp [fromCategories,Program.methodsForMeta,Program.protocolsForMeta,hm,none_prop,Lists.empty]

section Attaching

variable (prog:Program) (isMeta:Bool)

def Attaching.view (a:Attaching) : Lists :=
 { methods := a.methods.used++a.rwe.methods.lists
   properties := a.properties.used++a.rwe.properties.lists
   protocols := a.protocols.used++a.rwe.protocols.lists }

theorem staged_lists {L:Type} (b:Buffer L) (arr:ListArray L) (list:Option L) :
 (b.stage list).1.used++(arr.attachLists (b.stage list).2).lists =
  list.toList++(b.used++arr.lists) := by
 rw [ListArray.lists_attachLists,←List.append_assoc,Buffer.stage_used,List.append_assoc]

theorem turn_view (a:Attaching) (entry:Located) :
 (a.turn prog isMeta entry).view=fromCategories prog isMeta [entry]++a.view := by
 have single {L:Type} (f:Located → Option L) : [entry].reverse.filterMap f=(f entry).toList := by
  cases h : f entry <;> simp [h]
 ext1 <;> simp only [Attaching.view,Attaching.turn,fromCategories,Lists.append_methods,
  Lists.append_properties,Lists.append_protocols,staged_lists,single]

theorem foldl_turn_view (cats:List Located) (a:Attaching) :
 (cats.foldl (Attaching.turn prog isMeta) a).view=fromCategories prog isMeta cats++a.view := by
 induction cats generalizing a with
 | nil=>rfl
 | cons entry cats ih=>
  rw [List.foldl_cons,ih,turn_view,←Lists.append_assoc,←fromCategories_append]
  rfl

theorem finish_lists (a:Attaching) : (a.finish prog).rwe.lists=a.view := by
 ext1 <;> simp [Attaching.finish,ClassRWExt.lists,Attaching.view]

theorem start_view (mlists:ListRef → MethodList) (rwe:ClassRWExt) :
 (Attaching.start mlists rwe).view=rwe.lists := by
 ext1 <;> simp [Attaching.start,ClassRWExt.lists,Attaching.view]

theorem extAllocIfNeeded_lists (s:State) (cls:ClassId) :
 (extAllocIfNeeded prog s cls).lists=listsOf prog s cls := by
 rw [extAllocIfNeeded,listsOf]
 cases s.rwe cls with
 | some rwe=>rfl
 | none=>
  simp only [Option.getD_none,ClassRWExt.lists,extAlloc,ofBase,ListArray.lists_attachLists]
  simp [ListArray.lists,ClassRO.lists]

end Attaching

variable {r:ListRef} {E:ClassId → Prop} {k:ClassId} {n:Nat}

section Memory

variable (prog:Program) (mem:ListRef → MethodList)

def Live (next:Nat) : ListRef → Prop
 | .image _=>True
 | .heap n=>n < next

def Ready (h:ListRef → MethodList) (r:ListRef) : Prop :=
 h r=prepareMethodList prog.register (mem r)

def Known (h:ListRef → MethodList) (r:ListRef) : Prop := h r=mem r ∨ Ready prog mem h r

structure Memory : Prop where
 wellFormed : ∀r,WellFormed prog.register (mem r)
 heap : ∀n,mem (.heap n)=bonusList prog

variable {prog mem}

theorem prepareMethodLists_known (added:List ListRef) {h:ListRef → MethodList}
 (known:Known prog mem h r) :
 Known prog mem (prepareMethodLists prog h added) r ∧
  (Ready prog mem h r → Ready prog mem (prepareMethodLists prog h added) r) ∧
  (r∈added → Ready prog mem (prepareMethodLists prog h added) r) := by
 induction added generalizing h with
 | nil=>exact ⟨known,id,fun hr=>absurd hr List.not_mem_nil⟩
 | cons q added ih=>
  let h':=update h q (prepareMethodList prog.register (h q))
  have here:r=q → Ready prog mem h' r:=by
   rintro rfl
   rw [Ready,show h' r=prepareMethodList prog.register (h r) from update_self ..]
   rcases known with old|done
   · rw [old]
   · rw [done,prepareMethodList_idem]
  have elsewhere:r≠q → h' r=h r:=fun ne=>update_of_ne ne ..
  have ready':Ready prog mem h r → Ready prog mem h' r:=fun ready=>by grind [Ready]
  have known':Known prog mem h' r:=by grind [Known]
  obtain ⟨hknown,hready,hadded⟩:=ih known'
  refine ⟨hknown,fun ready=>hready (ready' ready),fun hr=>?_⟩
  rcases List.mem_cons.mp hr with same|later
  · exact hready (here same)
  · exact hadded later

/-- Lists are known, and those of a class outside `E` are prepared. -/
structure HeapSound (prog:Program) (mem:ListRef → MethodList) (s:State)
 (E:ClassId → Prop) : Prop where
 known : ∀r,Live s.nextList r → Known prog mem s.mlists r
 ready : ∀k,¬ E k → ∀r∈(listsOf prog s k).methods,Live s.nextList r ∧ Ready prog mem s.mlists r

theorem getMethodNoSuper_eq (hmem:Memory prog mem) {s:State} (sound:HeapSound prog mem s E)
 {cls:ClassId} (hcls:¬ E cls) (sel:Sel) :
 getMethodNoSuper prog s cls sel =
  (listsOf prog s cls).methods.findSome? fun r=>definitionOf prog.register (mem r) sel := by
 rw [getMethodNoSuper]
 have ready:=sound.ready cls hcls
 generalize (listsOf prog s cls).methods=rs at ready ⊢
 induction rs with
 | nil=>rfl
 | cons r rs ih=>
  have search:searchedMethod (s.mlists r) sel=definitionOf prog.register (mem r) sel:=by
   rw [(ready r List.mem_cons_self).2,searchedMethod_prepare (hmem.wellFormed r)]
  grind

structure AttachSound (prog:Program) (mem:ListRef → MethodList) (next:Nat)
 (h₀:ListRef → MethodList) (old:List ListRef) (a:Attaching) : Prop where
 known : ∀r,Live next r → Known prog mem a.mlists r
 kept : ∀r,Live next r → Ready prog mem h₀ r → Ready prog mem a.mlists r
 buffered : ∀r∈a.methods.used,Live next r
 attached : ∀r∈a.rwe.methods.lists,r∈old ∨ Live next r ∧ Ready prog mem a.mlists r

section AttachSound

variable {next:Nat} {h₀:ListRef → MethodList} {old:List ListRef} {a:Attaching}

theorem AttachSound.flush (sound:AttachSound prog mem next h₀ old a)
 (chunk:List ListRef) (live:∀r∈chunk,Live next r) :
 let h:=prepareMethodLists prog a.mlists chunk
 (∀r,Live next r → Known prog mem h r) ∧
  (∀r,Live next r → Ready prog mem h₀ r → Ready prog mem h r) ∧
  ∀r∈(a.rwe.methods.attachLists chunk).lists,r∈old ∨ Live next r ∧ Ready prog mem h r := by
 refine ⟨fun r hr=>(prepareMethodLists_known chunk (sound.known r hr)).1,
  fun r hr ready=>?_,fun r hr=>?_⟩
 · exact (prepareMethodLists_known chunk (sound.known r hr)).2.1 (sound.kept r hr ready)
 · rw [ListArray.lists_attachLists,List.mem_append] at hr
   rcases hr with new|before
   · have hlive:=live r new
     exact .inr ⟨hlive,(prepareMethodLists_known chunk (sound.known r hlive)).2.2 new⟩
   · refine (sound.attached r before).imp_right fun ⟨hlive,ready⟩=>⟨hlive,?_⟩
     exact (prepareMethodLists_known chunk (sound.known r hlive)).2.1 ready

theorem AttachSound.turn (sound:AttachSound prog mem next h₀ old a)
 (isMeta:Bool) (entry:Located) :
 AttachSound prog mem next h₀ old (a.turn prog isMeta entry) := by
 -- the staged list comes from an image, everything else was in the buffer
 have live:∀r,r∈(a.methods.stage (prog.methodsForMeta isMeta entry)).1.used ∨
  r∈(a.methods.stage (prog.methodsForMeta isMeta entry)).2 → Live next r := by
  intro r hr
  rw [←List.mem_append,Buffer.stage_used,List.mem_append,Option.mem_toList] at hr
  rcases hr with new|before
  · obtain ⟨n,-,rfl⟩:=Option.map_eq_some_iff.mp new
    trivial
  · exact sound.buffered r before
 obtain ⟨known,kept,attached⟩:=sound.flush _ fun r hr=>live r (.inr hr)
 exact ⟨known,kept,fun r hr=>live r (.inl hr),attached⟩

theorem AttachSound.foldl_turn (isMeta:Bool) (cats:List Located)
 (sound:AttachSound prog mem next h₀ old a) :
 AttachSound prog mem next h₀ old (cats.foldl (Attaching.turn prog isMeta) a) := by
 induction cats generalizing a with
 | nil=>exact sound
 | cons entry cats ih=>exact ih (sound.turn isMeta entry)

theorem AttachSound.finish (sound:AttachSound prog mem next h₀ old a) :
 AttachSound prog mem next h₀ old (a.finish prog) := by
 obtain ⟨known,kept,attached⟩:=sound.flush a.methods.used sound.buffered
 refine ⟨known,kept,fun r hr=>?_,attached⟩
 simp [Attaching.finish] at hr

end AttachSound

end Memory

section Effects

variable {prog:Program} {mem:ListRef → MethodList}

def waiting (s:State) (cls:ClassId) : List Located :=
 match s.unattachedCategories cls with
 | none=>[]
 | some list=>list.entries

structure Untouched (s s':State) (k:ClassId) : Prop where
 rwe : s'.rwe k=s.rwe k
 waiting : waiting s' k=waiting s k

theorem listsOf_congr {s s':State} (h:s'.rwe k=s.rwe k) : listsOf prog s' k=listsOf prog s k := by
 rw [listsOf,listsOf,h]

theorem Untouched.refl (s:State) (k:ClassId) : Untouched s s k := ⟨rfl,rfl⟩

theorem Untouched.trans {s₁ s₂ s₃:State} (h₁:Untouched s₁ s₂ k) (h₂:Untouched s₂ s₃ k) :
 Untouched s₁ s₃ k :=
 ⟨h₂.rwe.trans h₁.rwe,h₂.waiting.trans h₁.waiting⟩

structure SameMarks (s s':State) : Prop where
 realized : s'.realized=s.realized
 remapped : s'.remappedClasses=s.remappedClasses

theorem SameMarks.trans {s₁ s₂ s₃:State} (h₁:SameMarks s₁ s₂) (h₂:SameMarks s₂ s₃) :
 SameMarks s₁ s₃ :=
 ⟨h₂.realized.trans h₁.realized,h₂.remapped.trans h₁.remapped⟩

section AttachCategories

variable (s:State) (cls:ClassId) (cats:List Located) (isMeta:Bool)

theorem attachCategories_lists : listsOf prog (attachCategories prog s cls cats isMeta) cls =
  fromCategories prog isMeta cats++listsOf prog s cls := by
 have rwe:(attachCategories prog s cls cats isMeta).rwe cls=some _:=update_self ..
 rw [listsOf,rwe]
 simp only [finish_lists,foldl_turn_view,start_view,extAllocIfNeeded_lists]

theorem attachCategories_of_ne (h:k≠cls) :
 (attachCategories prog s cls cats isMeta).rwe k=s.rwe k :=
 update_of_ne h ..

theorem attachCategories_sound (sound:HeapSound prog mem s E) :
 HeapSound prog mem (attachCategories prog s cls cats isMeta) E := by
 have start:AttachSound prog mem s.nextList s.mlists (listsOf prog s cls).methods
  (Attaching.start s.mlists (extAllocIfNeeded prog s cls)) := by
  refine ⟨sound.known,fun r _ ready=>ready,fun r hr=>?_,fun r hr=>.inl ?_⟩
  · simp [Attaching.start] at hr
  · rw [←extAllocIfNeeded_lists]
    exact hr
 have done:=(start.foldl_turn isMeta cats).finish
 refine ⟨done.known,fun k hk r hr=>?_⟩
 by_cases same : k=cls
 · subst same
   have rwe:(attachCategories prog s k cats isMeta).rwe k=some _:=update_self ..
   rw [listsOf,rwe] at hr
   rcases done.attached r hr with before|ready
   · have:=sound.ready k hk r before
     exact ⟨this.1,done.kept r this.1 this.2⟩
   · exact ready
 · rw [listsOf_congr (attachCategories_of_ne s cls cats isMeta same)] at hr
   have:=sound.ready k hk r hr
   exact ⟨this.1,done.kept r this.1 this.2⟩

end AttachCategories

def attachFlag (isMeta:Bool) : AttachTo := if isMeta then .attachMetaclass else .attachClass

section AttachToClass

variable (s:State) (cls previously:ClassId)

theorem attachToClass_single (isMeta:Bool) {list:CategoryList}
 (h:s.unattachedCategories previously=some list) :
 attachToClass prog s cls previously (attachFlag isMeta) =
  { attachCategories prog s cls list.entries isMeta with
    unattachedCategories := update s.unattachedCategories previously none } := by
 rw [attachToClass,h]
 cases isMeta <;> rfl

theorem waiting_update_none (s':State) (k:ClassId)
 (h:s'.unattachedCategories=update s.unattachedCategories previously none) :
 waiting s' k=if k=previously then [] else waiting s k := by
 rw [waiting,h]
 grind [waiting]

theorem attachToClass_none {flags:AttachTo} (h:s.unattachedCategories previously=none) :
 attachToClass prog s cls previously flags=s := by
 rw [attachToClass,h]

theorem waiting_none {s:State} (h:s.unattachedCategories k=none) : waiting s k=[] := by
 rw [waiting,h]

theorem waiting_some {s:State} {list:CategoryList}
 (h:s.unattachedCategories k=some list) : waiting s k=list.entries := by
 rw [waiting,h]

theorem attachToClass_waiting (flags:AttachTo) (k:ClassId) :
 waiting (attachToClass prog s cls previously flags) k =
  if k=previously then [] else waiting s k := by
 cases h : s.unattachedCategories previously with
 | none=>grind [attachToClass_none,waiting_none]
 | some list=>
  apply waiting_update_none
  rw [attachToClass,h]

theorem attachToClass_lists (isMeta:Bool) :
 listsOf prog (attachToClass prog s cls previously (attachFlag isMeta)) cls =
  fromCategories prog isMeta (waiting s previously)++listsOf prog s cls := by
 cases h : s.unattachedCategories previously with
 | none=>rw [attachToClass_none s cls previously h,waiting_none h]; rfl
 | some list=>
  rw [attachToClass_single s cls previously isMeta h,waiting_some h]
  exact attachCategories_lists s cls list.entries isMeta

theorem attachToClass_of_ne (isMeta:Bool) (hk:k≠cls) :
 (attachToClass prog s cls previously (attachFlag isMeta)).rwe k=s.rwe k := by
 cases h : s.unattachedCategories previously with
 | none=>rw [attachToClass_none s cls previously h]
 | some list=>
  rw [attachToClass_single s cls previously isMeta h]
  exact attachCategories_of_ne s cls list.entries isMeta hk

theorem attachToClass_both_lists (hisa:(prog.classes cls).isa≠cls) :
 let s':=attachToClass prog s cls previously .attachClassAndMetaclass
 listsOf prog s' cls=fromCategories prog false (waiting s previously)++listsOf prog s cls ∧
  listsOf prog s' (prog.classes cls).isa =
   fromCategories prog true (waiting s previously)++listsOf prog s (prog.classes cls).isa ∧
  ∀k,k≠cls → k≠(prog.classes cls).isa → s'.rwe k=s.rwe k := by
 cases h : s.unattachedCategories previously with
 | none=>
  rw [attachToClass_none s cls previously h,waiting_none h]
  exact ⟨rfl,rfl,fun _ _ _=>rfl⟩
 | some list=>
  have eq:attachToClass prog s cls previously .attachClassAndMetaclass =
   { attachCategories prog (attachCategories prog s cls list.entries false)
    (prog.classes cls).isa list.entries true with
    unattachedCategories := update s.unattachedCategories previously none } := by
   rw [attachToClass,h]
  rw [eq,waiting_some h]
  grind [attachCategories_lists,attachCategories_of_ne,listsOf]

theorem attachToClass_marks (flags:AttachTo) :
 SameMarks s (attachToClass prog s cls previously flags) := by
 rw [attachToClass]
 split
 · exact ⟨rfl,rfl⟩
 · cases flags <;> exact ⟨rfl,rfl⟩

theorem attachToClass_sound (sound:HeapSound prog mem s E) (flags:AttachTo) :
 HeapSound prog mem (attachToClass prog s cls previously flags) E := by
 rw [attachToClass]
 split
 · exact sound
 next list _=>
  have one:=fun isMeta=>attachCategories_sound s cls list.entries isMeta sound
  cases flags with
  | attachClass=>exact ⟨(one false).known,(one false).ready⟩
  | attachMetaclass=>exact ⟨(one true).known,(one true).ready⟩
  | attachClassAndMetaclass=>
   have two:=attachCategories_sound _ (prog.classes cls).isa list.entries true (one false)
   exact ⟨two.known,two.ready⟩

end AttachToClass

def definesInitialize (prog:Program) (mem:ListRef → MethodList) (cls:ClassId) : Bool :=
 ((prog.classes cls).ro.lists.methods.findSome? fun r =>
   definitionOf prog.register (mem r) prog.initializeSel).isSome

/-- The list a root metaclass without `+initialize` gets before any category. -/
def bonusLists (prog:Program) (mem:ListRef → MethodList) (cls:ClassId) (n:Nat) : Lists :=
 if isRootMetaclass prog cls && !definesInitialize prog mem cls then ⟨[.heap n],[],[]⟩
 else .empty

section Methodize

variable (hmem:Memory prog mem) (s:State) (cls:ClassId)

theorem installBase_eq (bare:s.rwe cls=none) : installBase prog s cls = { s with
    mlists := prepareMethodLists prog s.mlists (prog.classes cls).ro.lists.methods } := by
 rw [installBase]
 simp only [bare]
 rfl

theorem installBase_sound (bare:s.rwe cls=none) (sound:HeapSound prog mem s E) :
 HeapSound prog mem (installBase prog s cls) fun k=>E k ∧ k≠cls := by
 rw [installBase_eq s cls bare]
 have prepared:=fun r (live:Live s.nextList r)=>prepareMethodLists_known
  (prog.classes cls).ro.lists.methods (sound.known r live)
 refine ⟨fun r live=>(prepared r live).1,fun k hk r hr=>?_⟩
 by_cases same : k=cls
 · subst same
   have base:listsOf prog s k=(prog.classes k).ro.lists:=by rw [listsOf,bare]
   have hr':r∈(prog.classes k).ro.lists.methods:=base ▸ hr
   have live:Live s.nextList r:=by
    obtain ⟨n,-,rfl⟩:=Option.map_eq_some_iff.mp (Option.mem_toList.mp hr')
    trivial
   exact ⟨live,(prepared r live).2.2 hr'⟩
 · have old:=sound.ready k (fun hE=>hk ⟨hE,same⟩) r hr
   exact ⟨old.1,(prepared r old.1).2.1 old.2⟩

theorem Live.succ (h:Live n r) : Live (n+1) r := by
 cases r with
 | image=>trivial
 | heap m=>exact Nat.lt_succ_of_lt h

theorem Live.ne_new (h:Live n r) : r≠.heap n := by
 rintro rfl
 exact Nat.lt_irrefl n h

theorem live_succ_cases (h:Live (n+1) r) : Live n r ∨ r=.heap n := by
 cases r with
 | image=>exact .inl trivial
 | heap m=>exact (Nat.lt_succ_iff_lt_or_eq.mp h).imp_right (congrArg _)

include hmem in
theorem allocate_bonus (sound:HeapSound prog mem s E) :
 let h:=prepareMethodLists prog
  (update s.mlists (.heap s.nextList) (bonusList prog)) [.heap s.nextList]
 (∀r,Live (s.nextList+1) r → Known prog mem h r) ∧
  (∀r,Live s.nextList r → Ready prog mem s.mlists r → Ready prog mem h r) ∧
  Ready prog mem h (.heap s.nextList) := by
 intro h
 have new:Known prog mem (update s.mlists (.heap s.nextList) (bonusList prog))
  (.heap s.nextList) := by
  left
  rw [update_self,hmem.heap]
 have old:∀r,Live s.nextList r → update s.mlists (.heap s.nextList) (bonusList prog) r=s.mlists r :=
  fun r live=>update_of_ne live.ne_new ..
 have known:∀r,Live (s.nextList+1) r → Known prog mem
  (update s.mlists (.heap s.nextList) (bonusList prog)) r := by
  intro r live
  rcases live_succ_cases live with before|rfl
  · have:=sound.known r before
    rwa [Known,Ready,old r before]
  · exact new
 refine ⟨fun r live=>(prepareMethodLists_known _ (known r live)).1,fun r live ready=>?_,
  (prepareMethodLists_known _ new).2.2 List.mem_cons_self⟩
 apply (prepareMethodLists_known _ (known r live.succ)).2.1
 rwa [Ready,old r live]

include hmem in
theorem addBonusMethod_spec (hcls:¬ E cls) (sound:HeapSound prog mem s E) (bare:s.rwe cls=none) :
 HeapSound prog mem (addBonusMethod prog s cls) E ∧
  (∃n,listsOf prog (addBonusMethod prog s cls) cls =
   (if definesInitialize prog mem cls then Lists.empty else ⟨[.heap n],[],[]⟩) ++
    (prog.classes cls).ro.lists) ∧
  (∀k,k≠cls → Untouched s (addBonusMethod prog s cls) k) ∧
  waiting (addBonusMethod prog s cls) cls=waiting s cls ∧
  SameMarks s (addBonusMethod prog s cls) := by
 have base:listsOf prog s cls=(prog.classes cls).ro.lists:=by rw [listsOf,bare]
 have defines:(getMethodNoSuper prog s cls prog.initializeSel).isSome =
  definesInitialize prog mem cls := by
  rw [getMethodNoSuper_eq hmem sound hcls,base,definesInitialize]
 cases found : getMethodNoSuper prog s cls prog.initializeSel with
 | some m=>
  have eq:addBonusMethod prog s cls=s:=by rw [addBonusMethod,found]
  rw [eq,←defines,found]
  exact ⟨sound,⟨0,base⟩,fun k _=>.refl s k,rfl,⟨rfl,rfl⟩⟩
 | none=>
  obtain ⟨known,kept,fresh⟩:=allocate_bonus hmem s sound
  rw [found] at defines
  have lists:listsOf prog (addBonusMethod prog s cls) cls =
   ⟨[.heap s.nextList],[],[]⟩++(prog.classes cls).ro.lists := by
   rw [addBonusMethod,found,listsOf]
   simp only [setRwe,update_self]
   rw [←base,←extAllocIfNeeded_lists]
   ext1 <;> simp [ClassRWExt.lists]
  have elsewhere:∀k,k≠cls → (addBonusMethod prog s cls).rwe k=s.rwe k:=by
   intro k hk
   rw [addBonusMethod,found]
   exact update_of_ne hk ..
  have mlists:(addBonusMethod prog s cls).mlists=prepareMethodLists prog
   (update s.mlists (.heap s.nextList) (bonusList prog)) [.heap s.nextList] := by
   rw [addBonusMethod,found]
  have next:(addBonusMethod prog s cls).nextList=s.nextList+1:=by
   rw [addBonusMethod,found]
  have pending:∀k,waiting (addBonusMethod prog s cls) k=waiting s k:=by
   intro k
   rw [addBonusMethod,found]
   rfl
  refine ⟨⟨fun r live=>?_,fun k hk r hr=>?_⟩,⟨s.nextList,?_⟩,
   fun k hk=>⟨elsewhere k hk,pending k⟩,pending cls,?_⟩
  · rw [mlists]
    exact known r (next ▸ live)
  · rw [mlists,next]
    by_cases same : k=cls
    · subst same
      rw [lists,Lists.append_methods,List.mem_append,List.mem_singleton] at hr
      rcases hr with rfl|before
      · exact ⟨Nat.lt_succ_self _,fresh⟩
      · have:=sound.ready k hk r (base ▸ before)
        exact ⟨this.1.succ,kept r this.1 this.2⟩
    · rw [listsOf_congr (elsewhere k same)] at hr
      have:=sound.ready k hk r hr
      exact ⟨this.1.succ,kept r this.1 this.2⟩
  · rw [lists,←defines]
    rfl
  · rw [addBonusMethod,found]
    exact ⟨rfl,rfl⟩

def installOwn (prog:Program) (s:State) (cls:ClassId) : State :=
 if isRootMetaclass prog cls then addBonusMethod prog (installBase prog s cls) cls
 else installBase prog s cls

include hmem in
theorem installOwn_spec (bare:s.rwe cls=none) (sound:HeapSound prog mem s E) :
 HeapSound prog mem (installOwn prog s cls) (fun k=>E k ∧ k≠cls) ∧
  (∃n,listsOf prog (installOwn prog s cls) cls =
   bonusLists prog mem cls n++(prog.classes cls).ro.lists) ∧
  (∀k,k≠cls → Untouched s (installOwn prog s cls) k) ∧
  waiting (installOwn prog s cls) cls=waiting s cls ∧
  SameMarks s (installOwn prog s cls) := by
 have sound':=installBase_sound s cls bare sound
 have eq:installBase prog s cls=_:=installBase_eq s cls bare
 have same:∀k,Untouched s (installBase prog s cls) k:=fun k=>by rw [eq]; exact ⟨rfl,rfl⟩
 have marks:SameMarks s (installBase prog s cls):=by rw [eq]; exact ⟨rfl,rfl⟩
 have bare':(installBase prog s cls).rwe cls=none:=(same cls).rwe.trans bare
 rw [installOwn]
 by_cases root : isRootMetaclass prog cls
 · rw [if_pos root]
   obtain ⟨hsound,⟨n,hlists⟩,hne,hself,hmarks⟩ :=
    addBonusMethod_spec hmem (installBase prog s cls) cls (fun h=>h.2 rfl) sound' bare'
   refine ⟨hsound,⟨n,?_⟩,fun k hk=>(same k).trans (hne k hk),
    hself.trans (same cls).waiting,marks.trans hmarks⟩
   grind [bonusLists]
 · rw [if_neg root]
   refine ⟨sound',⟨0,?_⟩,fun k _=>same k,(same cls).waiting,marks⟩
   rw [listsOf,bare',bonusLists,if_neg (by simp [root])]
   rfl

include hmem in
/-- Methodizing a class for the first time puts the categories that wait for it before its base
lists, with the bonus list of a root metaclass in between. -/
theorem methodizeClass_spec (bare:s.rwe cls=none) (sound:HeapSound prog mem s E) :
 HeapSound prog mem (methodizeClass prog s cls none) (fun k=>E k ∧ k≠cls) ∧
  (∃n,listsOf prog (methodizeClass prog s cls none) cls =
   fromCategories prog (prog.classes cls).isMeta (waiting s cls) ++
    (bonusLists prog mem cls n++(prog.classes cls).ro.lists)) ∧
  (∀k,k≠cls → Untouched s (methodizeClass prog s cls none) k) ∧
  waiting (methodizeClass prog s cls none) cls=[] ∧
  SameMarks s (methodizeClass prog s cls none) := by
 obtain ⟨hsound,⟨n,hlists⟩,hne,hself,hmarks⟩:=installOwn_spec hmem s cls bare sound
 have eq:methodizeClass prog s cls none =
  attachToClass prog (installOwn prog s cls) cls cls (attachFlag (prog.classes cls).isMeta) :=
  rfl
 rw [eq]
 refine ⟨attachToClass_sound _ _ _ hsound _,⟨n,?_⟩,fun k hk=>(hne k hk).trans ?_,?_,
  hmarks.trans (attachToClass_marks _ _ _ _)⟩
 · rw [attachToClass_lists,hself,hlists]
 · refine ⟨attachToClass_of_ne _ _ _ _ hk,?_⟩
   rw [attachToClass_waiting,if_neg hk]
 · rw [attachToClass_waiting,if_pos rfl]

include hmem in
/-- Methodizing a class that a stub was relocated to also attaches what waits under the stub, to
the class and to its metaclass. -/
theorem methodizeClass_relocated {old:ClassId} (bare:s.rwe cls=none)
 (sound:HeapSound prog mem s E) (plain:(prog.classes cls).isMeta=false)
 (hisa:(prog.classes cls).isa≠cls) (hold:old≠cls) :
 let s':=methodizeClass prog s cls (some old)
 HeapSound prog mem s' (fun k=>E k ∧ k≠cls) ∧
  listsOf prog s' cls=fromCategories prog false (waiting s cls) ++
   (fromCategories prog false (waiting s old)++(prog.classes cls).ro.lists) ∧
  listsOf prog s' (prog.classes cls).isa =
   fromCategories prog true (waiting s old)++listsOf prog s (prog.classes cls).isa ∧
  (∀k,k≠cls → k≠(prog.classes cls).isa → s'.rwe k=s.rwe k) ∧
  (∀k,waiting s' k=if k=cls ∨ k=old then [] else waiting s k) ∧
  SameMarks s s' := by
 obtain ⟨hsound,⟨n,hlists⟩,hne,hself,hmarks⟩:=installOwn_spec hmem s cls bare sound
 have eq:methodizeClass prog s cls (some old) =
  attachToClass prog (attachToClass prog (installOwn prog s cls) cls old
   .attachClassAndMetaclass) cls cls (attachFlag false) := by
  rw [methodizeClass]
  simp only [plain]
  rfl
 have nobonus:bonusLists prog mem cls n=.empty:=by
  rw [bonusLists,if_neg (by simp [isRootMetaclass,hisa])]
 have pending:∀k,waiting (installOwn prog s cls) k=waiting s k:=fun k=>by
  by_cases same : k=cls
  · rw [same,hself]
  · exact (hne k same).waiting
 obtain ⟨both,bothMeta,bothNe⟩:=attachToClass_both_lists (installOwn prog s cls) cls old hisa
 intro s'
 rw [show s'=_ from eq]
 refine ⟨attachToClass_sound _ _ _ (attachToClass_sound _ _ _ hsound _) _,?_,?_,
  fun k hcls hmeta=>?_,fun k=>?_,
  (hmarks.trans (attachToClass_marks _ _ _ _)).trans (attachToClass_marks _ _ _ _)⟩
 · grind [attachToClass_lists,attachToClass_waiting,Lists.empty_append]
 · rw [listsOf_congr (attachToClass_of_ne _ _ _ _ hisa),bothMeta,pending,
    listsOf_congr (hne _ hisa).rwe]
 · rw [attachToClass_of_ne _ _ _ _ hcls,bothNe k hcls hmeta,(hne k hcls).rwe]
 · grind [attachToClass_waiting]

end Methodize

def Stored (s:State) : Prop :=
 ∀k list,s.unattachedCategories k=some list → Rep list list.entries

def Kept (s t:State) : Prop :=
 ∀k,t.unattachedCategories k=s.unattachedCategories k ∨ t.unattachedCategories k=none

section Kept

variable {s t u:State}

theorem Kept.trans (h:Kept s t) (h':Kept t u) : Kept s u := fun k=>by
 rcases h' k with same|gone
 · exact same ▸ h k
 · exact .inr gone

theorem Kept.waiting (h:Kept s t) (k:ClassId) : waiting t k=waiting s k ∨ waiting t k=[] :=
 (h k).imp (fun same=>by rw [CategoryOrder.waiting,CategoryOrder.waiting,same]) waiting_none

theorem Stored.keep (stored:Stored s) (h:Kept s t) : Stored t := by
 intro k list some
 rcases h k with same|gone
 · exact stored k list (same ▸ some)
 · cases gone.symm.trans some

variable (prog) (s) (cls:ClassId)

theorem attachToClass_kept (previously:ClassId) (flags:AttachTo) :
 Kept s (attachToClass prog s cls previously flags) := by
 rw [attachToClass]
 split
 · exact fun k=>.inl rfl
 · intro k
   by_cases same : k=previously
   · exact .inr (same ▸ update_self ..)
   · exact .inl (update_of_ne same ..)

theorem installOwn_table : (installOwn prog s cls).unattachedCategories=s.unattachedCategories ∧
  SameMarks s (installOwn prog s cls) := by
 have base:(installBase prog s cls).unattachedCategories=s.unattachedCategories ∧
  SameMarks s (installBase prog s cls) := by
  rw [installBase]
  split <;> exact ⟨rfl,rfl,rfl⟩
 rw [installOwn]
 split
 · rw [addBonusMethod]
   split <;> exact ⟨base.1,base.2.realized,base.2.remapped⟩
 · exact base

theorem methodizeClass_kept (previously:Option ClassId) :
 Kept s (methodizeClass prog s cls previously) := by
 have own:Kept s (installOwn prog s cls):=fun k=>.inl (congrFun (installOwn_table prog s cls).1 k)
 cases previously with
 | none=>exact own.trans (attachToClass_kept prog _ cls _ _)
 | some old=>
  exact (own.trans (attachToClass_kept prog _ cls old _)).trans (attachToClass_kept prog _ cls _ _)

theorem realizeClassWithoutSwift_kept (previously:Option ClassId) :
 Kept s (realizeClassWithoutSwift prog s cls previously) := by
 rw [realizeClassWithoutSwift]
 split
 · exact fun k=>.inl rfl
 · dsimp only
   split
   · exact methodizeClass_kept prog (setRealized s cls) cls previously
   · exact (methodizeClass_kept prog (setRealized (setRealized s cls) _) _ none).trans
      (methodizeClass_kept prog _ cls previously)

theorem realizeClass_kept : Kept s (realizeClass prog s cls) := by
 rw [realizeClass]
 split
 · exact realizeClassWithoutSwift_kept prog s cls none
 · exact realizeClassWithoutSwift_kept prog {s with remappedClasses:=_} cls _

end Kept

section LoadForClass

variable (prog) (s t u:State) (lc:Located) (cls:ClassId) (isMeta:Bool)

structure Queued : Prop where
 waiting : ∀k,waiting t k=if k=cls then waiting s cls++[lc] else waiting s k
 stored : Stored t
 rwe : t.rwe=s.rwe
 marks : SameMarks s t
 heap : ∀{mem E},HeapSound prog mem s E → HeapSound prog mem t E

variable {s} in
theorem addForClass_spec (stored:Stored s) (legal:Legal lc) (few:(waiting s cls).length < most) :
 ∃t,addForClass s lc cls=some t ∧ Queued prog s t lc cls := by
 obtain ⟨list,added,rep⟩:∃list,emplace lc (s.unattachedCategories cls)=some list ∧
   Rep list (waiting s cls++[lc]) := by
  cases h : s.unattachedCategories cls with
  | none =>
   rw [waiting_none h]
   exact ⟨_,rfl,.inline legal⟩
  | some list =>
   rw [waiting_some h] at few ⊢
   exact (stored cls list h).append legal few
 refine ⟨{s with unattachedCategories:=update s.unattachedCategories cls (some list)},
  congrArg (Option.map _) added,fun k=>?_,fun k other h=>?_,rfl,⟨rfl,rfl⟩,
  fun sound=>⟨sound.known,sound.ready⟩⟩
 · by_cases same : k=cls
   · subst same
     rw [if_pos rfl,waiting_some (update_self ..),rep.entries]
   · simp only [if_neg same,waiting,update_of_ne same]
 · by_cases same : k=cls
   · subst same
     cases (update_self ..).symm.trans h
     rwa [rep.entries]
   · exact stored k other ((update_of_ne same ..).symm.trans h)

structure LoadsAt : Prop where
 realized : s.realized cls=true → waiting t cls=waiting s cls ∧
  listsOf prog t cls=fromCategories prog isMeta [lc]++listsOf prog s cls
 waits : s.realized cls=false → t.rwe cls=s.rwe cls ∧
  waiting t cls=if prog.concerns isMeta lc then waiting s cls++[lc] else waiting s cls

structure Loads : Prop extends LoadsAt prog s t lc cls isMeta where
 stored : Stored t
 marks : SameMarks s t
 elsewhere : ∀k,k≠cls → Untouched s t k
 heap : ∀{mem E},HeapSound prog mem s E → HeapSound prog mem t E

variable {s} in
theorem loadForClass_spec (stored:Stored s) (legal:Legal lc)
 (few:s.realized cls=false → (waiting s cls).length < most) :
 ∃t,loadForClass prog s lc cls isMeta=some t ∧ Loads prog s t lc cls isMeta := by
 rw [loadForClass]
 cases concerns : prog.concerns isMeta lc with
 | false =>
  refine ⟨s,rfl,⟨fun _=>⟨rfl,?_⟩,fun _=>⟨rfl,?_⟩⟩,stored,⟨rfl,rfl⟩,fun k _=>.refl s k,id⟩
  · rw [fromCategories_of_not_concerns concerns,Lists.empty_append]
  · rw [concerns]
    rfl
 | true =>
  cases realized : s.realized cls with
  | true =>
   refine ⟨_,rfl,⟨fun _=>⟨rfl,attachCategories_lists s cls [lc] isMeta⟩,fun h=>?_⟩,stored,⟨rfl,rfl⟩,
    fun k hk=>⟨attachCategories_of_ne s cls [lc] isMeta hk,rfl⟩,
    attachCategories_sound s cls [lc] isMeta⟩
   rw [realized] at h
   cases h
  | false =>
   obtain ⟨t,added,queued⟩:=addForClass_spec prog lc cls stored legal (few realized)
   refine ⟨t,added,⟨fun h=>?_,fun _=>⟨congrFun queued.rwe cls,?_⟩⟩,queued.stored,queued.marks,
    fun k hk=>⟨congrFun queued.rwe k,?_⟩,queued.heap⟩
   · rw [realized] at h
     cases h
   · rw [concerns,if_pos rfl,queued.waiting,if_pos rfl]
   · rw [queued.waiting,if_neg hk]

variable {prog s t u lc cls isMeta}

theorem LoadsAt.queue (h:LoadsAt prog s t lc cls isMeta) (waits:s.realized cls=false) :
 fromCategories prog isMeta (waiting t cls) =
  fromCategories prog isMeta [lc]++fromCategories prog isMeta (waiting s cls) := by
 rw [(h.waits waits).2]
 cases concerns : prog.concerns isMeta lc with
 | false=>rw [fromCategories_of_not_concerns concerns]; rfl
 | true=>exact fromCategories_append prog isMeta _ _

theorem LoadsAt.before (same:Untouched s u cls) (marks:SameMarks s u)
 (h:LoadsAt prog u t lc cls isMeta) : LoadsAt prog s t lc cls isMeta where
 realized ready := by
  rw [←same.waiting,←listsOf_congr same.rwe]
  exact h.realized (congrFun marks.realized cls ▸ ready)
 waits unready := by
  rw [←same.waiting,←same.rwe]
  exact h.waits (congrFun marks.realized cls ▸ unready)

theorem LoadsAt.after (h:LoadsAt prog s u lc cls isMeta) (same:Untouched u t cls) :
 LoadsAt prog s t lc cls isMeta where
 realized ready := by
  rw [same.waiting,listsOf_congr same.rwe]
  exact h.realized ready
 waits unready := by
  rw [same.waiting,same.rwe]
  exact h.waits unready

end LoadForClass

end Effects

end ObjcRuntime.CategoryOrder
