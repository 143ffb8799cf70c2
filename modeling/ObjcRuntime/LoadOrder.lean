import ObjcRuntime.LoadMethods
import Mathlib.Logic.Function.Iterate

/-!
The order of `+load` calls. The queues are first in, first out across all detachments, and
scheduling has superclasses first. A category is called when no class is left to be called.
-/

set_option autoImplicit false
namespace ObjcRuntime.LoadMethods

open Interleaving
open Function

@[simp,grind =]
def Event.scheduledClass? : Event → Option ℕ
 | .scheduledClass cls=>some cls
 | _=>none

@[simp,grind =]
def Event.scheduledCategory? : Event → Option ℕ
 | .scheduledCategory cat=>some cat
 | _=>none

@[simp,grind =]
def Event.calledClass? : Event → Option ℕ
 | .calledClass cls=>some cls
 | _=>none

@[simp,grind =]
def Event.calledCategory? : Event → Option ℕ
 | .calledCategory cat=>some cat
 | _=>none

@[simp,grind =]
def scheduledClasses (tr:List Event) : List ℕ := tr.filterMap Event.scheduledClass?

@[simp,grind =]
def scheduledCategories (tr:List Event) : List ℕ := tr.filterMap Event.scheduledCategory?

@[simp,grind =]
def calledClasses (tr:List Event) : List ℕ := tr.filterMap Event.calledClass?

@[simp,grind =]
def calledCategories (tr:List Event) : List ℕ := tr.filterMap Event.calledCategory?

attribute [grind =] List.reduceOption_nil List.reduceOption_append List.reduceOption_cons_of_some
 List.reduceOption_cons_of_none

variable {cls:ℕ} {s s':State}

theorem mem_calledClasses {tr:List Event} : cls∈calledClasses tr ↔ Event.calledClass cls∈tr := by
 rw [calledClasses,List.mem_filterMap]
 constructor
 · rintro ⟨e,mem,he⟩
   cases e <;> cases he
   exact mem
 · exact fun mem=>⟨_,mem,rfl⟩

@[simp,grind =]
def Phase.classes : Phase → List ℕ
 | .inClasses rest | .inClassLoad rest=>rest.reduceOption
 | _=>[]

@[simp,grind =]
def Phase.categories : Phase → List ℕ
 | .inCategories rest _ | .inCategoryLoad rest _=>rest.reduceOption
 | _=>[]

variable {prog:Program}

def Ancestor (prog:Program) (parent cls:ℕ) : Prop :=
 Relation.TransGen (fun p c=>prog.superclass c=some p) parent cls

/-- In a list of classes: superclasses with a `+load` stand before. -/
def AfterSuperclasses (prog:Program) (before:List ℕ) (cls:ℕ) : Prop :=
 ∀parent,Ancestor prog parent cls → prog.hasLoad parent=true → parent∈before

def ClassCallOk (prog:Program) (before:List Event) : Event → Prop
 | .calledClass cls=>AfterSuperclasses prog (calledClasses before) cls
 | _=>True

def CategoryCallOk (prog:Program) (before:List Event) : Event → Prop
 | .calledCategory cat=>∀cls,prog.categoryClass cat=some cls →
  prog.hasLoad cls=true → Event.calledClass cls∈before
 | _=>True

structure Schedules (s s':State) : Prop where
 phase : s'.phase=s.phase
 loaded : ∀cls,s.loaded cls=true → s'.loaded cls=true
 appends : ∃events,s'.trace=s.trace++events ∧
  s'.classes=s.classes++(scheduledClasses events).map some ∧
  s'.categories=s.categories++(scheduledCategories events).map some ∧
  calledClasses events=[] ∧ calledCategories events=[]

theorem Schedules.refl (s:State) : Schedules s s :=
 ⟨rfl,fun _ h=>h,[],by simp⟩

theorem Schedules.trans {s₁ s₂ s₃:State} (h:Schedules s₁ s₂) (h':Schedules s₂ s₃) :
 Schedules s₁ s₃ := by
 obtain ⟨events,trace,classes,categories,noClass,noCategory⟩:=h.appends
 obtain ⟨events',trace',classes',categories',noClass',noCategory'⟩:=h'.appends
 refine ⟨h'.phase.trans h.phase,fun cls hc=>h'.loaded cls (h.loaded cls hc),events++events',?_⟩
 simp_all

structure Scheduled (prog:Program) (s:State) : Prop where
 closed : ∀{cls parent},s.loaded cls=true → prog.superclass cls=some parent → s.loaded parent=true
 mem : ∀cls,cls∈scheduledClasses s.trace ↔ s.loaded cls=true ∧ prog.hasLoad cls=true
 nodup : (scheduledClasses s.trace).Nodup
 order : Throughout (AfterSuperclasses prog) (scheduledClasses s.trace)
 known : ∀cat∈scheduledCategories s.trace,
  prog.categoryHasLoad cat=true ∧ ∃cls,prog.categoryClass cat=some cls

@[simp,grind =]
theorem loaded_setLoaded (s:State) (cls c:ℕ) :
 (s.setLoaded cls).loaded c=(c == cls || s.loaded c) := by
 simp only [State.setLoaded,update_apply]
 split <;> simp_all

@[simp]
theorem addClassToLoadableList_same (s:State) :
 (addClassToLoadableList prog s cls).loaded=s.loaded ∧
  (addClassToLoadableList prog s cls).categories=s.categories := by
 grind [addClassToLoadableList]

theorem Scheduled.congr (h:Scheduled prog s) (loaded:s'.loaded=s.loaded)
 (classes:scheduledClasses s'.trace=scheduledClasses s.trace)
 (known:∀cat∈scheduledCategories s'.trace,
  prog.categoryHasLoad cat=true ∧ ∃cls,prog.categoryClass cat=some cls) :
 Scheduled prog s' :=
 ⟨loaded ▸ h.closed,loaded ▸ classes ▸ h.mem,classes ▸ h.nodup,classes ▸ h.order,known⟩

theorem Scheduled.ancestor (h:Scheduled prog s) {parent:ℕ} (above:Ancestor prog parent cls)
 (loaded:s.loaded cls=true) : s.loaded parent=true := by
 induction above with
 | single up=>exact h.closed loaded up
 | tail _ up ih=>exact ih (h.closed loaded up)

structure SchedulesClass (prog:Program) (s:State) (cls:ℕ) (s':State) : Prop where
 scheduled : Scheduled prog s'
 schedules : Schedules s s'
 loaded : s'.loaded cls=true
 shallow : ∀c,s'.loaded c=true → s.loaded c=true ∨ prog.depth c ≤ prog.depth cls
 categories : s'.categories=s.categories

theorem Scheduled.addClass (h:Scheduled prog s) (new:s.loaded cls=false)
 (parent:∀{p},prog.superclass cls=some p → s.loaded p=true) :
 SchedulesClass prog s cls ((addClassToLoadableList prog s cls).setLoaded cls) := by
 have above:∀{p},Ancestor prog p cls → s.loaded p=true:=by
  intro p hp
  cases hp with
  | single up=>exact parent up
  | tail between up=>exact h.ancestor between (parent up)
 suffices sound : Scheduled prog ((addClassToLoadableList prog s cls).setLoaded cls) ∧
  Schedules s ((addClassToLoadableList prog s cls).setLoaded cls) by
  refine ⟨sound.1,sound.2,by simp,fun c hc=>?_,addClassToLoadableList_same s |>.2⟩
  grind [addClassToLoadableList_same]
 unfold addClassToLoadableList
 split
 next has=>
  have fresh:cls∉scheduledClasses s.trace:=by grind [h.mem]
  refine ⟨⟨?_,?_,?_,?_,?_⟩,rfl,?_,[.scheduledClass cls],?_⟩
  · grind [h.closed]
  · grind [State.setLoaded,h.mem]
  · grind [State.setLoaded,h.nodup]
  · simp only [State.setLoaded,scheduledClasses,List.filterMap_append]
    apply h.order.append
    apply throughout_singleton
    intro p hp hasLoad
    grind [h.mem]
  · grind [State.setLoaded,h.known]
  · grind
  · simp [State.setLoaded]
 next hasNot=>
  refine ⟨⟨?_,?_,h.nodup,h.order,h.known⟩,rfl,?_,[],?_⟩
  · grind [h.closed]
  · grind [State.setLoaded,h.mem]
  · grind
  · simp [State.setLoaded]

theorem scheduleClassLoad_spec (s:State) (cls:ℕ) (h:Scheduled prog s) :
 SchedulesClass prog s cls (scheduleClassLoad prog s cls) := by
 -- along the superclass chain; a class that is loaded has all its superclasses loaded
 induction depth : prog.depth cls using Nat.strongRecOn generalizing cls with
 | _ n ih=>
  rw [scheduleClassLoad]
  split
  next loaded=>exact ⟨h,.refl s,loaded,fun _ hc=>.inl hc,rfl⟩
  next unloaded=>
   have new:s.loaded cls=false:=Bool.eq_false_iff.mpr unloaded
   simp only
   split
   next root=>exact h.addClass new fun up=>by simp [root] at up
   next parent up=>
    have shallower:=prog.depth_lt up
    have above:=ih (prog.depth parent) (depth ▸ shallower) parent rfl
    have still:(scheduleClassLoad prog s parent).loaded cls=false:=by
     by_contra h'
     rcases above.shallow cls (Bool.not_eq_false _ ▸ h') with old|shallow
     · exact unloaded old
     · omega
    have last:=above.scheduled.addClass still fun up'=>by grind [above.loaded]
    refine ⟨last.scheduled,above.schedules.trans last.schedules,last.loaded,fun c hc=>?_,
     last.categories.trans above.categories⟩
    have:=above.shallow c
    grind [last.shallow c hc]

theorem scheduleClasses_spec (s:State) (classes:List (Option ℕ)) (h:Scheduled prog s) :
 Scheduled prog (scheduleClasses prog s classes) ∧ Schedules s (scheduleClasses prog s classes) ∧
  (scheduleClasses prog s classes).categories=s.categories ∧
  ∀c,some c∈classes → (scheduleClasses prog s classes).loaded c=true := by
 induction classes generalizing s with
 | nil=>exact ⟨h,.refl s,rfl,nofun⟩
 | cons cls classes ih=>
  cases cls with
  | none=>
   obtain ⟨scheduled,schedules,same,loaded⟩:=ih s h
   exact ⟨scheduled,schedules,same,fun c mem=>loaded c (by simpa using mem)⟩
  | some cls=>
   have first:=scheduleClassLoad_spec s cls h
   obtain ⟨scheduled,schedules,same,loaded⟩:=ih (scheduleClassLoad prog s cls) first.scheduled
   refine ⟨scheduled,first.schedules.trans schedules,same.trans first.categories,fun c mem=>?_⟩
   rcases List.mem_cons.mp mem with here|later
   · cases here
     exact schedules.loaded cls first.loaded
   · exact loaded c later

/-- The categories with a `+load` on classes with a `+load`: the class is loaded. -/
def ClassesLoaded (prog:Program) (loaded:ℕ → Bool) (cats:List ℕ) : Prop :=
 ∀cat∈cats,prog.categoryHasLoad cat=true → ∀cls,prog.categoryClass cat=some cls →
  prog.hasLoad cls=true → loaded cls=true

theorem scheduleCategory_spec {cat:ℕ} (h:Scheduled prog s)
 (result:scheduleCategory prog s cat=some s') :
 Scheduled prog s' ∧ Schedules s s' ∧ s'.loaded=s.loaded ∧ (ClassesLoaded prog s.loaded [cat] →
   ClassesLoaded prog s.loaded (scheduledCategories s.trace) →
   ClassesLoaded prog s.loaded (scheduledCategories s'.trace)) := by
 unfold scheduleCategory at result
 split at result
 next=>
  cases result
  exact ⟨h,.refl s,rfl,fun _ old=>old⟩
 next cls known=>
  split at result
  next=>cases result
  next=>
   cases result
   unfold addCategoryToLoadableList
   split
   next has=>
    refine ⟨h.congr rfl (by simp) ?_,⟨rfl,fun _ hc=>hc,[.scheduledCategory cat],by simp⟩,rfl,?_⟩
    · grind [h.known]
    · grind [ClassesLoaded]
   next=>exact ⟨h,.refl s,rfl,fun _ old=>old⟩

theorem scheduleCategories_spec {cats:List ℕ} (h:Scheduled prog s)
 (result:cats.foldlM (scheduleCategory prog) s=some s') :
 Scheduled prog s' ∧ Schedules s s' ∧ s'.loaded=s.loaded ∧ (ClassesLoaded prog s.loaded cats →
   ClassesLoaded prog s.loaded (scheduledCategories s.trace) →
   ClassesLoaded prog s.loaded (scheduledCategories s'.trace)) := by
 induction cats generalizing s with
 | nil=>
  cases result
  exact ⟨h,.refl _,rfl,fun _ old=>old⟩
 | cons cat cats ih=>
  rw [List.foldlM_cons] at result
  obtain ⟨mid,first,rest⟩:=Option.bind_eq_some_iff.mp result
  obtain ⟨hmid,schedules,loaded,ok⟩:=scheduleCategory_spec h first
  obtain ⟨hlast,schedules',loaded',ok'⟩:=ih hmid rest
  rw [loaded] at loaded' ok'
  refine ⟨hlast,schedules.trans schedules',loaded',fun all old=>?_⟩
  apply ok'
  · exact fun k hk=>all k (List.mem_cons_of_mem cat hk)
  · refine ok (fun k hk=>?_) old
    cases List.mem_singleton.mp hk
    exact all cat List.mem_cons_self

/-- The image's categories are on classes of the image, on superclasses of these or on classes that
were scheduled before. -/
def ClassesFirst (prog:Program) (s:State) (image:Image) : Prop :=
 ∀cat∈image.categories,prog.categoryHasLoad cat=true → ∀cls,prog.categoryClass cat=some cls →
  prog.hasLoad cls=true → s.loaded cls=true ∨
   ∃c,some c∈image.classes ∧ (cls=c ∨ Ancestor prog cls c)

theorem prepareLoadMethods_spec {image:Image} (h:Scheduled prog s)
 (result:prepareLoadMethods prog s image=some s') :
 Scheduled prog s' ∧ Schedules s s' ∧
  (ClassesFirst prog s image →
   ClassesLoaded prog s.loaded (scheduledCategories s.trace) →
   ClassesLoaded prog s'.loaded (scheduledCategories s'.trace)) := by
 obtain ⟨hmid,schedules,same,listed⟩:=scheduleClasses_spec s image.classes h
 obtain ⟨hlast,schedules',loaded,ok⟩:=scheduleCategories_spec hmid result
 refine ⟨hlast,schedules.trans schedules',fun first old=>?_⟩
 rw [loaded]
 apply ok
 · intro cat mem has cls known hasLoad
   obtain before|⟨c,mem,rfl|above⟩:=first cat mem has cls known hasLoad
   · exact schedules.loaded cls before
   · exact listed _ mem
   · exact hmid.ancestor above (listed c mem)
 obtain ⟨events,trace,-,categories,-⟩:=schedules.appends
 rw [same,List.self_eq_append_right] at categories
 intro cat hcat has cls known hasLoad
 apply schedules.loaded cls (old cat _ has cls known hasLoad)
 grind

/-- The queues and what was called make up what was scheduled, in order. -/
structure Queued (prog:Program) (s:State) : Prop where
 classes : scheduledClasses s.trace=calledClasses s.trace++(s.phase.classes++s.classes.reduceOption)
 categories : scheduledCategories s.trace =
  calledCategories s.trace++(s.phase.categories++s.categories.reduceOption)
 calls : Throughout (ClassCallOk prog) s.trace

def PhaseOk (s:State) : Phase → Prop
 | .idle=>s.classes=[] ∧ s.categories=[]
 | .inCategories _ waiting | .inCategoryLoad _ waiting=>waiting=[]
 | .again moreCategories=>moreCategories=false → s.categories=[]
 | _=>True

structure Ok (prog:Program) (s:State) : Prop where
 scheduled : Scheduled prog s
 queued : Queued prog s
 phase : PhaseOk s s.phase

theorem throughout_no_calls {events:List Event} {tr:List Event} (none:calledClasses events=[]) :
 Throughout (fun before e=>ClassCallOk prog (tr++before) e) events := by
 rintro before e after rfl
 cases e with
 | calledClass cls=>simp_all
 | _=>trivial

theorem reduceOption_map_some (l:List ℕ) : (l.map some).reduceOption=l := by
 simp [List.reduceOption]

theorem Queued.schedules (h:Queued prog s) (schedules:Schedules s s') : Queued prog s' := by
 obtain ⟨events,trace,classes,categories,noClass,noCategory⟩:=schedules.appends
 have old:=h.classes
 have old':=h.categories
 refine ⟨?_,?_,trace ▸ h.calls.append (throughout_no_calls noClass)⟩
 · grind [schedules.phase,reduceOption_map_some]
 · grind [schedules.phase,reduceOption_map_some]

theorem Ok.next_class (h:Ok prog s) (cls:ℕ) (rest:List ℕ) (next:s.phase.classes=cls::rest) :
 AfterSuperclasses prog (calledClasses s.trace) cls := by
 apply h.scheduled.order (calledClasses s.trace) cls (rest++s.classes.reduceOption)
 rw [h.queued.classes,next,List.cons_append]

theorem Ok.category_known (h:Ok prog s) (cat:ℕ)
 (mem:cat∈s.phase.categories++s.categories.reduceOption) :
 prog.categoryHasLoad cat=true ∧ ∃cls,prog.categoryClass cat=some cls := by
 grind [h.scheduled.known,h.queued.categories]

inductive Advances (prog:Program) (s:State) : State → Prop
 | goOn (phase:Phase) (classes:phase.classes=s.phase.classes)
  (categories:phase.categories=s.phase.categories) (ok:PhaseOk s phase) :
  Advances prog s {s with phase:=phase}
 | detachClasses (at_loop:s.phase=.classLoop) :
  Advances prog s {s with classes:=[],phase:=.inClasses s.classes}
 | detachCategories (at_loop:s.phase=.classLoop) (none:s.classes=[]) :
  Advances prog s {s with categories:=[],phase:=.inCategories s.categories []}
 | callClass (cls rest) (next:s.phase=.inClasses (some cls::rest)) :
  Advances prog s {s.record (.calledClass cls) with phase:=.inClassLoad rest}
 | callCategory (cat rest) (next:s.phase=.inCategories (some cat::rest) []) :
  Advances prog s {s.record (.calledCategory cat) with phase:=.inCategoryLoad rest []}

theorem Ok.advances (h:Ok prog s) : Advances prog s (advance prog s) := by
 have ok:=h.phase
 unfold advance
 split
 next idle=>
  rw [idle] at ok
  have here:Advances prog s {s with phase:=.idle} :=
   .goOn .idle (by rw [idle]) (by rw [idle]) ok
  rwa [←idle] at here
 next at_loop=>
  split
  next none=>exact .detachCategories at_loop none
  next=>exact .detachClasses at_loop
 next done=>exact .goOn .classLoop (by rw [done]; rfl) (by rw [done]; rfl) trivial
 next rest next_=>exact .goOn (.inClasses rest) (by rw [next_]; rfl) (by rw [next_]; rfl) trivial
 next cls rest next_=>exact .callClass cls rest next_
 next rest inside=>
  exact .goOn (.inClasses rest) (by rw [inside]; rfl) (by rw [inside]; rfl) trivial
 next rest waiting next_=>
  rw [next_] at ok
  exact .goOn (.inCategories rest waiting) (by rw [next_]; rfl) (by rw [next_]; rfl) ok
 next cat rest waiting next_=>
  rw [next_] at ok
  cases ok
  obtain ⟨-,cls,known⟩:=h.category_known cat (by rw [next_]; simp)
  rw [known]
  exact .callCategory cat rest next_
 next waiting done=>
  rw [done] at ok
  cases ok
  exact .goOn (.again (!s.categories.isEmpty)) (by rw [done]; rfl) (by rw [done]; rfl)
   (by simp [PhaseOk])
 next rest waiting inside=>
  rw [inside] at ok
  exact .goOn (.inCategories rest waiting) (by rw [inside]; rfl) (by rw [inside]; rfl) ok
 next more last=>
  rw [last] at ok
  split
  next=>exact .goOn .classLoop (by rw [last]; rfl) (by rw [last]; rfl) trivial
  next stop=>
   simp only [Bool.or_eq_true,Bool.not_eq_true',not_or,Bool.not_eq_false,
    List.isEmpty_iff,Bool.not_eq_true] at stop
   exact .goOn .idle (by rw [last]; rfl) (by rw [last]; rfl) ⟨stop.1,ok stop.2⟩

theorem Advances.ok (h:Ok prog s) (step:Advances prog s s') : Ok prog s' := by
 have queued:=h.queued
 cases step with
 | goOn phase classes categories ok=>
  refine ⟨h.scheduled.congr rfl rfl h.scheduled.known,⟨?_,?_,queued.calls⟩,?_⟩
  · rw [classes]
    exact queued.classes
  · rw [categories]
    exact queued.categories
  · cases phase <;> exact ok
 | detachClasses at_loop=>
  refine ⟨h.scheduled.congr rfl rfl h.scheduled.known,⟨?_,?_,queued.calls⟩,trivial⟩
  · simpa [at_loop] using queued.classes
  · simpa [at_loop] using queued.categories
 | detachCategories at_loop none=>
  refine ⟨h.scheduled.congr rfl rfl h.scheduled.known,⟨?_,?_,queued.calls⟩,rfl⟩
  · simpa [at_loop] using queued.classes
  · simpa [at_loop] using queued.categories
 | callClass cls rest next_=>
  have behind:=h.next_class cls rest.reduceOption (by rw [next_]; rfl)
  have classes:=queued.classes
  have categories:=queued.categories
  rw [next_] at classes categories
  refine ⟨h.scheduled.congr rfl (by simp [State.record]) ?_,⟨?_,?_,?_⟩,trivial⟩
  · simpa [State.record,List.filterMap_cons] using h.scheduled.known
  · simp_all [State.record,List.filterMap_cons]
  · simp_all [State.record,List.filterMap_cons]
  · apply queued.calls.append
    apply throughout_singleton
    rw [List.append_nil]
    exact behind
 | callCategory cat rest next_=>
  have classes:=queued.classes
  have categories:=queued.categories
  rw [next_] at classes categories
  refine ⟨h.scheduled.congr rfl (by simp [State.record]) ?_,⟨?_,?_,?_⟩,rfl⟩
  · simpa [State.record,List.filterMap_cons] using h.scheduled.known
  · simp_all [State.record,List.filterMap_cons]
  · simp_all [State.record,List.filterMap_cons]
  · exact queued.calls.append (throughout_singleton trivial)

theorem Step.ok {admits:State → Image → Prop} (h:Ok prog s) (step:Step prog admits s s') :
 Ok prog s' := by
 cases step with
 | advance=>exact h.advances.ok h
 | loadImages outside _ _ prepared=>
  obtain ⟨scheduled,schedules,-⟩:=prepareLoadMethods_spec h.scheduled prepared
  have queued:=h.queued.schedules schedules
  have classes:=queued.classes
  have categories:=queued.categories
  rw [schedules.phase,outside] at classes categories
  exact ⟨scheduled.congr rfl rfl scheduled.known,⟨classes,categories,queued.calls⟩,trivial⟩
 | loadImagesInLoad inside _ _ prepared=>
  obtain ⟨scheduled,schedules,-⟩:=prepareLoadMethods_spec h.scheduled prepared
  have ok:=h.phase
  refine ⟨scheduled,h.queued.schedules schedules,?_⟩
  rw [schedules.phase]
  cases phase : s.phase with
  | inClassLoad rest=>trivial
  | inCategoryLoad rest waiting=>
   rw [phase] at ok
   exact ok
  | _=>
   rw [phase] at inside
   cases inside

theorem start_ok : Ok prog start := by
 refine ⟨⟨?_,fun cls=>?_,List.Pairwise.nil,throughout_nil _,?_⟩,⟨rfl,rfl,throughout_nil _⟩,rfl,rfl⟩
 · intro cls parent h
   cases h
 · simp [start,scheduledClasses]
 · intro cat h
   cases h

theorem reached_ok {admits:State → Image → Prop} (run:Reached prog admits s) : Ok prog s := by
 induction run with
 | refl=>exact start_ok
 | tail _ step ih=>exact step.ok ih

/-- Where classes come first: a category that is about to be called has its class called. -/
structure Ordered (prog:Program) (s:State) : Prop where
 loaded : ClassesLoaded prog s.loaded (scheduledCategories s.trace)
 detached : ∀cat∈s.phase.categories,∀cls,prog.categoryClass cat=some cls →
  prog.hasLoad cls=true → Event.calledClass cls∈s.trace
 calls : Throughout (CategoryCallOk prog) s.trace

theorem Ordered.called (h:Ordered prog s) (ok:Ok prog s)
 (none:s.phase.classes++s.classes.reduceOption=[]) {cat:ℕ} (mem:cat∈scheduledCategories s.trace)
 (known:prog.categoryClass cat=some cls) (has:prog.hasLoad cls=true) :
 Event.calledClass cls∈s.trace := by
 have loaded:=h.loaded cat mem (ok.scheduled.known cat mem).1 cls known has
 have scheduled:=(ok.scheduled.mem cls).mpr ⟨loaded,has⟩
 grind [ok.queued.classes,mem_calledClasses]

theorem Advances.ordered (h:Ordered prog s) (ok:Ok prog s) (step:Advances prog s s') :
 Ordered prog s' := by
 cases step with
 | goOn phase classes categories=>
  refine ⟨h.loaded,?_,h.calls⟩
  rw [categories]
  exact h.detached
 | detachClasses at_loop=>exact ⟨h.loaded,nofun,h.calls⟩
 | detachCategories at_loop none=>
  refine ⟨h.loaded,fun cat mem cls known has=>?_,h.calls⟩
  apply h.called ok _ _ known has
  · rw [at_loop,none]
    rfl
  · grind [ok.queued.categories]
 | callClass cls rest next_=>
  refine ⟨?_,nofun,h.calls.append (throughout_singleton trivial)⟩
  simpa [State.record,List.filterMap_cons] using h.loaded
 | callCategory cat rest next_=>
  have detached:=h.detached
  rw [next_] at detached
  refine ⟨?_,fun other mem cls known has=>?_,h.calls.append (throughout_singleton ?_)⟩
  · simpa [State.record,List.filterMap_cons] using h.loaded
  · exact List.mem_append_left _ (detached other (List.mem_cons_of_mem cat mem) cls known has)
  · intro cls known has
    grind

theorem Ordered.schedules (h:Ordered prog s) (schedules:Schedules s s')
 (loaded:ClassesLoaded prog s'.loaded (scheduledCategories s'.trace)) : Ordered prog s' := by
 obtain ⟨events,trace,-,-,-,none⟩:=schedules.appends
 refine ⟨loaded,fun cat mem cls known has=>?_,?_⟩
 · grind [schedules.phase,h.detached]
 · rw [trace]
   apply h.calls.append
   rintro before e after rfl
   cases e with
   | calledCategory cat=>simp [calledCategories,Event.calledCategory?] at none
   | _=>trivial

theorem Step.ordered (h:Ordered prog s) (ok:Ok prog s)
 (step:Step prog (ClassesFirst prog) s s') : Ordered prog s' := by
 cases step with
 | advance=>exact ok.advances.ordered h ok
 | loadImages outside _ admitted prepared=>
  obtain ⟨-,schedules,loaded⟩:=prepareLoadMethods_spec ok.scheduled prepared
  have ordered:=h.schedules schedules (loaded admitted h.loaded)
  exact ⟨ordered.loaded,nofun,ordered.calls⟩
 | loadImagesInLoad _ _ admitted prepared=>
  obtain ⟨-,schedules,loaded⟩:=prepareLoadMethods_spec ok.scheduled prepared
  exact h.schedules schedules (loaded admitted h.loaded)

theorem reached_ordered (run:Reached prog (ClassesFirst prog) s) : Ordered prog s := by
 induction run with
 | refl=>exact ⟨nofun,nofun,throughout_nil _⟩
 | tail run step ih=>exact step.ordered ih (reached_ok run)

section Return

@[simp,grind =]
def Phase.toNext (s:State) : Phase → ℕ
 | .idle=>0
 | .classLoop=>4
 | .inClasses rest=>if rest=[] then 5 else 3
 | .inClassLoad _=>6
 | .inCategories rest _=>
  if rest≠[] then 3 else if s.classes=[] ∧ s.categories=[] then 2 else 8
 | .inCategoryLoad _ _=>9
 | .again more=>if s.classes=[] ∧ more=false then 1 else 7

@[simp,grind =]
def Phase.entries : Phase → ℕ
 | .inClasses rest | .inClassLoad rest | .inCategories rest _ | .inCategoryLoad rest _=>rest.length
 | _=>0

@[simp,grind =]
def State.remaining (s:State) : ℕ :=
 10*(s.phase.entries+s.classes.length+s.categories.length)+s.phase.toNext s

theorem advance_remaining (h:Ok prog s) (running:s.phase≠.idle) :
 (advance prog s).remaining < s.remaining := by
 have ok:=h.phase
 have known:=@h.category_known
 obtain ⟨loaded,classes,categories,phase,trace⟩:=s
 cases phase with
 | idle=>exact absurd rfl running
 | classLoop=>cases classes <;> cases categories <;> simp [advance]
 | inClasses rest=>rcases rest with _|⟨_|cls,rest⟩ <;> grind [advance,State.record]
 | inClassLoad rest=>cases rest <;> simp [advance]
 | inCategories rest waiting=>
  cases ok
  rcases rest with _|⟨_|cat,rest⟩
  · cases classes <;> cases categories <;> simp [advance]
  · grind [advance]
  · obtain ⟨-,cls,hcls⟩:=known cat (by simp)
    simp [advance,hcls,isLoadable,State.record]
    omega
 | inCategoryLoad rest waiting=>
  cases rest <;> cases classes <;> cases categories <;> simp [advance]
 | again more=>cases classes <;> cases more <;> simp [advance]

/-- Unless further images are loaded, the outermost call comes to its end. -/
theorem Ok.returns (h:Ok prog s) : ∃n,((advance prog)^[n] s).phase=.idle := by
 induction left : s.remaining using Nat.strongRecOn generalizing s with
 | _ k ih=>
  by_cases idle : s.phase=.idle
  · exact ⟨0,idle⟩
  · obtain ⟨n,hn⟩:=ih _ (left ▸ advance_remaining h idle) (h.advances.ok h) rfl
    exact ⟨n+1,hn⟩

end Return

/-- For all images, loaded outside or in `+load` methods: the outermost call comes to an end, and
by then has called every scheduled class and category once, in the order of scheduling; no class is
called before a superclass. If the images' categories come with their classes or later, no category
is called before its class. -/
theorem load_methods_ordered (prog:Program) : (∀admits s,Reached prog admits s →
  (∃n,((advance prog)^[n] s).phase=.idle) ∧
  (s.phase=.idle → calledClasses s.trace=scheduledClasses s.trace ∧
   calledCategories s.trace=scheduledCategories s.trace) ∧
  (scheduledClasses s.trace).Nodup ∧
  Throughout (ClassCallOk prog) s.trace) ∧
 ∀s,Reached prog (ClassesFirst prog) s → Throughout (CategoryCallOk prog) s.trace := by
 refine ⟨fun admits s run=>?_,fun s run=>(reached_ordered run).calls⟩
 have h:=reached_ok run
 refine ⟨h.returns,fun idle=>?_,h.scheduled.nodup,h.queued.calls⟩
 have none:=h.phase
 have classes:=h.queued.classes
 have categories:=h.queued.categories
 rw [idle] at none classes categories
 obtain ⟨noClass,noCategory⟩:=none
 grind

def oneClass : Program where
 superclass := fun _=>none
 depth := fun _=>0
 depth_lt := nofun
 hasLoad := fun cls=>cls=1
 isSwiftStable := fun _=>false
 categoryClass := fun cat=>if cat=2 then some 1 else none
 categoryHasLoad := fun cat=>cat=2

def classImage : Image := ⟨[some 1],[]⟩

def categoryImage : Image := ⟨[],[2]⟩

def bothImage : Image := ⟨[some 1],[2]⟩

theorem reached_load {prog:Program} (admits:State → Image → Prop) (image:Image) (n:ℕ)
 (run:Reached prog admits s) (outside:s.phase=.idle)
 (some_:hasLoadMethods image=true) (admitted:admits s image)
 (prepared:prepareLoadMethods prog s image=some s') :
 Reached prog admits ((advance prog)^[n] {s' with phase:=.classLoop}) := by
 induction n with
 | zero=>exact run.tail (.loadImages outside some_ admitted prepared)
 | succ n ih=>
  rw [Function.iterate_succ_apply']
  exact ih.tail .advance

theorem scheduleClasses_oneClass (tr:List Event) :
 scheduleClasses oneClass ⟨fun _=>false,[],[],.idle,tr⟩ [some 1] =
  ⟨update (fun _=>false) 1 true,[some 1],[],.idle,tr++[.scheduledClass 1]⟩ := by
 simp [scheduleClasses,scheduleClassLoad,oneClass,addClassToLoadableList,State.setLoaded]

theorem load_methods_class_with_category :
 ∃s,Reached oneClass (ClassesFirst oneClass) s ∧ s.phase=.idle ∧
  s.trace=[.scheduledClass 1,.scheduledCategory 2,.calledClass 1,.calledCategory 2] ∧
  calledClasses s.trace=scheduledClasses s.trace ∧
  Throughout (CategoryCallOk oneClass) s.trace := by
 have prepared:prepareLoadMethods oneClass start bothImage =
  some ⟨update (fun _=>false) 1 true,[some 1],[some 2],.idle,
   [.scheduledClass 1,.scheduledCategory 2]⟩ := by
  simp only [prepareLoadMethods,bothImage,start,scheduleClasses_oneClass]
  rfl
 have admitted:ClassesFirst oneClass start bothImage:=by
  intro cat _ _ cls _ has
  exact .inr ⟨1,by decide,.inl (of_decide_eq_true has)⟩
 have run:=reached_load (ClassesFirst oneClass) bothImage 9 .refl rfl rfl admitted prepared
 obtain ⟨both,categories⟩:=load_methods_ordered oneClass
 obtain ⟨-,called,-⟩:=both _ _ run
 exact ⟨_,run,rfl,rfl,(called rfl).1,categories _ run⟩

/-- The image of the category is loaded before that of the class: the category is called first. -/
theorem category_before_class : ∃s,Reached oneClass (fun _ _=>True) s ∧ s.phase=.idle ∧
  s.trace=[.scheduledCategory 2,.calledCategory 2,.scheduledClass 1,.calledClass 1] ∧
  ¬Throughout (CategoryCallOk oneClass) s.trace := by
 have scheduled:prepareLoadMethods oneClass start categoryImage =
  some ⟨fun _=>false,[],[some 2],.idle,[.scheduledCategory 2]⟩ := rfl
 have first:Reached oneClass (fun _ _=>True)
  ⟨fun _=>false,[],[],.idle,[.scheduledCategory 2,.calledCategory 2]⟩ :=
  reached_load (fun _ _=>True) categoryImage 5 .refl rfl rfl trivial scheduled
 have prepared:prepareLoadMethods oneClass
  ⟨fun _=>false,[],[],.idle,[.scheduledCategory 2,.calledCategory 2]⟩ classImage =
  some ⟨update (fun _=>false) 1 true,[some 1],[],.idle,
   [.scheduledCategory 2,.calledCategory 2,.scheduledClass 1]⟩ := by
  simp only [prepareLoadMethods,classImage,scheduleClasses_oneClass]
  rfl
 have second:=reached_load (fun _ _=>True) classImage 7 first rfl rfl trivial prepared
 refine ⟨_,second,rfl,rfl,fun ordered=>?_⟩
 have early:=ordered [.scheduledCategory 2] (.calledCategory 2)
  [.scheduledClass 1,.calledClass 1] rfl 1 rfl rfl
 simp at early

end ObjcRuntime.LoadMethods
