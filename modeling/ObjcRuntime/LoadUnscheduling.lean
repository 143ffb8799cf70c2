import ObjcRuntime.LoadOrder

/-!
Images that are unloaded by a `+load` method: what a call has detached from the queues is not taken
out.
-/

set_option autoImplicit false
namespace ObjcRuntime.LoadMethods

open Function

def removeClassFromLoadableList (s:State) (cls:ℕ) : State :=
 {s with classes:=s.classes.replace (some cls) none}

def removeCategoryFromLoadableList (s:State) (cat:ℕ) : State :=
 {s with categories:=s.categories.replace (some cat) none}

inductive Call
 | addClass (cls:ℕ)
 | addCategory (cat:ℕ)
 | removeClass (cls:ℕ)
 | removeCategory (cat:ℕ)

variable (prog:Program)

def Call.apply (s:State) : Call → State
 | .addClass cls=>addClassToLoadableList prog s cls
 | .addCategory cat=>addCategoryToLoadableList prog s cat
 | .removeClass cls=>removeClassFromLoadableList s cls
 | .removeCategory cat=>removeCategoryFromLoadableList s cat

/-- `call_load_methods` goes on, or the `+load` method that it is in makes a call. -/
def moved (s:State) : Option Call → State
 | none=>advance prog s
 | some call=>if s.phase.inLoad then call.apply prog s else s

def movedAll (s:State) (moves:List (Option Call)) : State :=
 moves.foldl (moved prog) s

def Call.adds? : Call → Option Event
 | .addClass cls=>some (.calledClass cls)
 | .addCategory cat=>some (.calledCategory cat)
 | _=>none

def Call.removes? : Call → Option Event
 | .removeClass cls=>some (.calledClass cls)
 | .removeCategory cat=>some (.calledCategory cat)
 | _=>none

@[simp,grind =]
def Phase.waiting : Phase → List ℕ
 | .inCategories _ waiting | .inCategoryLoad _ waiting=>waiting
 | _=>[]

@[grind =]
def callsOf (classes categories:List ℕ) : List Event :=
 classes.map .calledClass++categories.map .calledCategory

def State.queued (s:State) : List Event :=
 callsOf s.classes.reduceOption s.categories.reduceOption

def State.detached (s:State) : List Event :=
 callsOf s.phase.classes (s.phase.categories++s.phase.waiting)

variable {s:State} {e:Event}

theorem advance_calls (s:State) (e:Event) :
 (e∈(advance prog s).trace → e∈s.trace ∨ e∈s.detached) ∧
  (e∈(advance prog s).queued ∨ e∈(advance prog s).detached →
   e∈s.queued ∨ e∈s.detached) := by
 obtain ⟨loaded,classes,categories,phase,trace⟩:=s
 simp only [State.queued,State.detached]
 cases phase with
 | classLoop=>cases classes <;> grind [advance]
 | inClasses rest=>rcases rest with _|⟨_|cls,rest⟩ <;> grind [advance,State.record]
 | inCategories rest waiting=>
  rcases rest with _|⟨_|cat,rest⟩
  · grind [advance,reduceOption_map_some]
  · grind [advance]
  · cases known : prog.categoryClass cat <;> grind [advance,State.record]
 | _=>grind [advance]

theorem mem_of_mem_replace {l:List (Option ℕ)} {x y:ℕ}
 (mem:x∈(l.replace (some y) none).reduceOption) : x∈l.reduceOption := by
 induction l with
 | nil=>exact mem
 | cons z l ih=>cases z <;> grind

theorem notMem_replace {l:List (Option ℕ)} {x:ℕ} (once:l.reduceOption.count x ≤ 1) :
 x∉(l.replace (some x) none).reduceOption := by
 induction l with
 | nil=>simp
 | cons z l ih=>cases z <;> grind

theorem Call.removed (s:State) {removal:Call} (removes:removal.removes?=some e)
 (once:s.queued.count e ≤ 1) : e∉(removal.apply prog s).queued := by
 cases removal with
 | removeClass cls=>
  cases removes
  have count:=List.count_le_count_map (l:=s.classes.reduceOption) (f:=Event.calledClass) (x:=cls)
  rw [State.queued,callsOf,List.count_append] at once
  have:=notMem_replace (l:=s.classes) (x:=cls) (by omega)
  grind [apply,State.queued,removeClassFromLoadableList]
 | removeCategory cat=>
  cases removes
  have count:=List.count_le_count_map (l:=s.categories.reduceOption)
   (f:=Event.calledCategory) (x:=cat)
  rw [State.queued,callsOf,List.count_append] at once
  have:=notMem_replace (l:=s.categories) (x:=cat) (by omega)
  grind [apply,State.queued,removeCategoryFromLoadableList]
 | _=>cases removes

theorem Call.apply_calls (s:State) (call:Call) (noClass:e.scheduledClass?=none)
 (noCategory:e.scheduledCategory?=none) (other:call.adds?≠some e) :
 (e∈(call.apply prog s).trace → e∈s.trace) ∧ (e∈(call.apply prog s).queued → e∈s.queued) ∧
  (call.apply prog s).phase=s.phase := by
 cases call <;>
  grind [apply,adds?,State.queued,addClassToLoadableList,addCategoryToLoadableList,
   removeClassFromLoadableList,removeCategoryFromLoadableList,Event.scheduledClass?,
   Event.scheduledCategory?,mem_of_mem_replace]

theorem movedAll_not_called (noClass:e.scheduledClass?=none)
 (noCategory:e.scheduledCategory?=none) {moves:List (Option Call)}
 (other:∀call,some call∈moves → call.adds?≠some e) (uncalled:e∉s.trace)
 (unqueued:e∉s.queued) (undetached:e∉s.detached) :
 e∉(movedAll prog s moves).trace := by
 induction moves generalizing s with
 | nil=>exact uncalled
 | cons move moves ih=>
  have rest:=fun call mem=>other call (List.mem_cons_of_mem move mem)
  cases move with
  | none=>
   have step:=advance_calls prog s e
   apply ih (s:=advance prog s) rest <;> tauto
  | some call=>
   have step:=call.apply_calls prog s noClass noCategory (other call List.mem_cons_self)
   change e∉(movedAll prog (if s.phase.inLoad then call.apply prog s else s) moves).trace
   grind [State.detached]

theorem called_of_inClasses {cls:ℕ} {rest:List (Option ℕ)} (mem:cls∈rest.reduceOption)
 (phase:s.phase=.inClasses rest) : ∃n,.calledClass cls∈((advance prog)^[n] s).trace := by
 induction rest generalizing s with
 | nil=>cases mem
 | cons first rest ih=>
  cases first with
  | none=>
   obtain ⟨n,hn⟩:=ih (s:=advance prog s) mem (by simp [advance,phase])
   exact ⟨n+1,hn⟩
  | some first=>
   rcases List.mem_cons.mp mem with rfl|later
   · exact ⟨1,by simp [advance,phase,State.record]⟩
   · obtain ⟨n,hn⟩:=ih (s:=(advance prog)^[2] s) later (by simp [advance,phase,State.record])
     exact ⟨n+2,hn⟩

theorem called_of_inCategories {cat:ℕ} (known:(prog.categoryClass cat).isSome)
 {rest:List (Option ℕ)} {waiting:List ℕ} (mem:cat∈rest.reduceOption)
 (phase:s.phase=.inCategories rest waiting) :
 ∃n,.calledCategory cat∈((advance prog)^[n] s).trace := by
 induction rest generalizing s waiting with
 | nil=>cases mem
 | cons first rest ih=>
  cases first with
  | none=>
   obtain ⟨n,hn⟩:=ih (s:=advance prog s) mem (by simp [advance,phase]; rfl)
   exact ⟨n+1,hn⟩
  | some first=>
   cases h : prog.categoryClass first with
   | none=>
    have later:cat∈rest.reduceOption:=by grind
    obtain ⟨n,hn⟩:=ih (s:=advance prog s) later (by simp [advance,phase,h]; rfl)
    exact ⟨n+1,hn⟩
   | some _=>
    rcases List.mem_cons.mp mem with rfl|later
    · exact ⟨1,by simp [advance,phase,h,isLoadable,State.record]⟩
    · obtain ⟨n,hn⟩:=ih (s:=(advance prog)^[2] s) later
       (by simp [advance,phase,h,isLoadable,State.record]; rfl)
      exact ⟨n+2,hn⟩

theorem called_of_detached (inside:s.phase.inLoad=true)
 (mem:e∈callsOf s.phase.classes s.phase.categories)
 (known:∀cat,e=.calledCategory cat → (prog.categoryClass cat).isSome=true) :
 ∃n,e∈((advance prog)^[n] s).trace := by
 cases phase : s.phase with
 | inClassLoad rest=>
  simp only [phase,callsOf,Phase.classes,Phase.categories,List.map_nil,List.append_nil,
   List.mem_map] at mem
  obtain ⟨cls,mem,rfl⟩:=mem
  obtain ⟨n,hn⟩:=called_of_inClasses prog (s:=advance prog s) mem
   (by simp [advance,phase])
  exact ⟨n+1,hn⟩
 | inCategoryLoad rest waiting=>
  simp only [phase,callsOf,Phase.classes,Phase.categories,List.map_nil,List.nil_append,
   List.mem_map] at mem
  obtain ⟨cat,mem,rfl⟩:=mem
  obtain ⟨n,hn⟩:=called_of_inCategories prog (s:=advance prog s) (known cat rfl) mem
   (by simp [advance,phase]; rfl)
  exact ⟨n+1,hn⟩
 | _=>simp [phase,Phase.inLoad] at inside

/-- The `+load` that is removed from the queues is not called any more, unless it is added again,
if it was in no detached list and at most once in its queue. If it still was in a detached
list, `call_load_methods` goes on to call it. -/
theorem unscheduled_not_called (prog:Program) (s:State) (removal:Call) (e:Event)
 (removes:removal.removes?=some e) (uncalled:e∉s.trace) :
 (e∉s.detached → s.queued.count e ≤ 1 → ∀moves : List (Option Call),
  (∀call,some call∈moves → call.adds?≠some e) →
   e∉(movedAll prog (removal.apply prog s) moves).trace) ∧
 (s.phase.inLoad=true → e∈callsOf s.phase.classes s.phase.categories →
  (∀cat,e=.calledCategory cat → (prog.categoryClass cat).isSome=true) →
   ∃n,e∈((advance prog)^[n] (removal.apply prog s)).trace) := by
 have noClass:e.scheduledClass?=none:=by cases removal <;> cases removes <;> rfl
 have noCategory:e.scheduledCategory?=none:=by cases removal <;> cases removes <;> rfl
 have nothing:removal.adds?≠some e:=by cases removal <;> cases removes <;> nofun
 obtain ⟨trace,-,phase⟩:=removal.apply_calls prog s noClass noCategory nothing
 constructor
 · intro undetached once moves other
   apply movedAll_not_called prog noClass noCategory other (fun h=>uncalled (trace h))
   · exact Call.removed prog s removes once
   · rwa [State.detached,phase]
 · intro inside mem known
   exact called_of_detached prog (by rwa [phase]) (by rwa [phase]) known

def loadingClasses : Program := {oneClass with hasLoad:=fun _=>true}

def inFirstLoad : State :=
 ⟨update (fun _=>false) 1 true,[],[],.inClassLoad [],[.scheduledClass 1,.calledClass 1]⟩

theorem reached_inFirstLoad : Reached loadingClasses (fun _ _=>True) inFirstLoad := by
 have prepared:prepareLoadMethods loadingClasses start classImage =
  some ⟨update (fun _=>false) 1 true,[some 1],[],.idle,[.scheduledClass 1]⟩ := by
  simp [prepareLoadMethods,classImage,scheduleClasses,scheduleClassLoad,loadingClasses,
   oneClass,addClassToLoadableList,State.setLoaded,start]
 exact reached_load (fun _ _=>True) classImage 2 .refl rfl rfl trivial prepared

/-- Class 1 loads the images of classes 2 and 3 and unloads that of class 2. -/
theorem queued_load_unscheduled : Reached loadingClasses (fun _ _=>True) inFirstLoad ∧
 Event.calledClass 2 ∉
  (movedAll loadingClasses (movedAll loadingClasses inFirstLoad
    [some (.addClass 2),some (.addClass 3),some (.removeClass 2)])
   (List.replicate 9 none)).trace :=
 ⟨reached_inFirstLoad,(unscheduled_not_called loadingClasses
   (movedAll loadingClasses inFirstLoad [some (.addClass 2),some (.addClass 3)])
   (.removeClass 2) (.calledClass 2) rfl (by decide)).1 (by decide) (by decide) _ (by simp)⟩

/-- If it is class 3 that unloads the image of class 2, queued behind it, the `+load` is called
all the same. -/
theorem detached_load_called : Reached loadingClasses (fun _ _=>True) inFirstLoad ∧
 (movedAll loadingClasses inFirstLoad
  [some (.addClass 3),some (.addClass 2),none,none,none,none,some (.removeClass 2),
   none,none]).trace =
  [.scheduledClass 1,.calledClass 1,.scheduledClass 3,.scheduledClass 2,.calledClass 3,
   .calledClass 2] :=
 ⟨reached_inFirstLoad,by decide⟩

end ObjcRuntime.LoadMethods
