import Mathlib.Data.List.Nodup
import Mathlib.Data.List.Perm.Basic
import ObjcRuntime.Interleaving

/-!
`initializeNonMetaClass`. A class that finishes before its superclass is put off in
`pendingInitializeMap`. Each locked section and each unlocked read of a flag is one step, and the
code of a `+initialize` may come back at any time or throw.
-/

set_option autoImplicit false
namespace ObjcRuntime.ClassInitialize

abbrev ClassId := ℕ

def fillSlot (c:ClassId) : List (Option ClassId) → Option (List (Option ClassId))
 | []=>none
 | none::rest=>some (some c::rest)
 | some d::rest=>(fillSlot c rest).map (some d :: ·)

def clearSlot (c:ClassId) : List (Option ClassId) → Option (List (Option ClassId))
 | []=>none
 | slot::rest=>if slot=some c then some (none::rest) else (clearSlot c rest).map (slot :: ·)

def heldIn (slots:List (Option ClassId)) : List ClassId := slots.filterMap id

variable {c:ClassId}

theorem fillSlot_perm {slots slots':List (Option ClassId)} (h:fillSlot c slots=some slots') :
 (heldIn slots').Perm (c::heldIn slots) := by
 induction slots generalizing slots' with
 | nil=>cases h
 | cons slot rest ih=>
  cases slot with
  | none=>
   rw [←Option.some.inj h]
   exact .refl _
  | some d=>
   obtain ⟨rest',hrest,rfl⟩:=Option.map_eq_some_iff.mp h
   exact ((ih hrest).cons d).trans (.swap c d _)

theorem clearSlot_perm {slots slots':List (Option ClassId)}
 (h:clearSlot c slots=some slots') : (heldIn slots).Perm (c::heldIn slots') := by
 induction slots generalizing slots' with
 | nil=>cases h
 | cons slot rest ih=>grind [clearSlot,Option.map_eq_some_iff,heldIn]

theorem clearSlot_isSome {slots:List (Option ClassId)} (h:c∈heldIn slots) :
 ∃slots',clearSlot c slots=some slots' := by
 induction slots with
 | nil=>cases h
 | cons slot rest ih=>
  rw [clearSlot]
  split
  next=>exact ⟨_,rfl⟩
  grind [heldIn]

/-- `_objc_initializing_classes`; the array is empty until the first class is recorded. -/
structure InitializingClasses where
 metaclasses : List (Option ClassId)
 distinct : (heldIn metaclasses).Nodup

variable {l:InitializingClasses}

namespace InitializingClasses

def held (l:InitializingClasses) : List ClassId := heldIn l.metaclasses

def empty : InitializingClasses := ⟨[],List.nodup_nil⟩

def allocated (l:InitializingClasses) : List (Option ClassId) :=
 if l.metaclasses=[] then List.replicate 4 none else l.metaclasses

theorem heldIn_allocated (l:InitializingClasses) : heldIn l.allocated=l.held := by
 rw [allocated]
 split
 next h=>rw [held,h]; rfl
 next=>rfl

/-- The slots after a class is recorded; a full array grows to twice its size and one. -/
def withClass (l:InitializingClasses) (c:ClassId) : List (Option ClassId) :=
 (fillSlot c l.allocated).getD
  (l.allocated++some c::List.replicate l.allocated.length none)

theorem heldIn_withClass (l:InitializingClasses) (c:ClassId) :
 (heldIn (l.withClass c)).Perm (c::l.held) := by
 rw [withClass,←heldIn_allocated]
 cases h : fillSlot c l.allocated with
 | some slots=>exact fillSlot_perm h
 | none=>
  have blank:∀n,heldIn (List.replicate n none)=[]:=fun n=>by
   induction n with
   | zero=>rfl
   | succ n ih=>exact ih
  rw [Option.getD_none,heldIn,List.filterMap_append]
  change (heldIn l.allocated++c::heldIn (List.replicate l.allocated.length none)).Perm _
  rw [blank]
  exact List.perm_append_comm

/-- `_setThisThreadIsInitializingClass`; `none` is the fatal error. -/
def record (l:InitializingClasses) (c:ClassId) : Option InitializingClasses :=
 if h : c∈l.held then none
 else some ⟨l.withClass c,(heldIn_withClass l c).nodup_iff.mpr (List.nodup_cons.mpr ⟨h,l.distinct⟩)⟩

/-- `_setThisThreadIsNotInitializingClass`; `none` is the fatal error. -/
def forget (l:InitializingClasses) (c:ClassId) : Option InitializingClasses :=
 match h : clearSlot c l.metaclasses with
 | none=>none
 | some slots=>some ⟨slots,(List.nodup_cons.mp ((clearSlot_perm h).nodup_iff.mp l.distinct)).2⟩

theorem mem_record {l':InitializingClasses} (h:l.record c=some l') (d:ClassId) :
 d∈l'.held ↔ d=c ∨ d∈l.held := by
 rw [record] at h
 split at h
 · cases h
 · rw [←Option.some.inj h]
   exact (heldIn_withClass l c).mem_iff.trans List.mem_cons

theorem record_isSome (h:c∉l.held) : l.record c≠none := by
 rw [record,dif_neg h]
 exact nofun

theorem mem_forget {l':InitializingClasses} (h:l.forget c=some l') (d:ClassId) :
 d∈l'.held ↔ d∈l.held ∧ d≠c := by
 rw [forget] at h
 split at h
 · cases h
 next slots hslots=>
  have perm:=clearSlot_perm hslots
  have apart:=(List.nodup_cons.mp (perm.nodup_iff.mp l.distinct)).1
  rw [←Option.some.inj h]
  constructor
  · intro hd
    exact ⟨perm.mem_iff.mpr (List.mem_cons_of_mem _ hd),fun same=>apart (same ▸ hd)⟩
  · rintro ⟨hd,ne⟩
    exact (List.mem_cons.mp (perm.mem_iff.mp hd)).resolve_left ne

theorem forget_isSome (h:c∈l.held) : ∃l',l.forget c=some l' := by
 obtain ⟨slots,hslots⟩:=clearSlot_isSome h
 rw [forget]
 split
 next none=>rw [hslots] at none; cases none
 next=>exact ⟨_,rfl⟩

end InitializingClasses

inductive Fatal
 | alreadyInitializing
 | notInitializing
 | classInitIsBuggy
 deriving DecidableEq

structure PendingInitialize where
 supercls : ClassId
 subclass : ClassId
 deriving DecidableEq

structure Shared where
 /-- `RW_INITIALIZING` and `RW_INITIALIZED` of the metaclass -/
 initializing : ClassId → Bool
 initialized : ClassId → Bool
 /-- `pendingInitializeMap`, the latest entry of each class first -/
 pending : List PendingInitialize
 fatal : Option Fatal

namespace Shared

def setInitializing (sh:Shared) (c:ClassId) : Shared :=
 {sh with initializing:=Function.update sh.initializing c true}

def pendingOf (sh:Shared) (c:ClassId) : List ClassId :=
 (sh.pending.filter (·.supercls=c)).map (·.subclass)

def finish (sh:Shared) (c:ClassId) : Shared :=
 { sh with
   initializing := Function.update sh.initializing c false
   initialized := Function.update sh.initialized c true
   pending := sh.pending.filter (·.supercls≠c) }

def die (sh:Shared) (e:Fatal) : Shared := {sh with fatal:=some e}

theorem length_pendingOf (sh:Shared) (c:ClassId) :
 (sh.pendingOf c).length+(sh.finish c).pending.length=sh.pending.length := by
 grind [pendingOf,finish,List.length_eq_length_filter_add]

end Shared

/-- `_finishInitializing` on a class and then on what waits for it, depth first; the classes in
the order they are marked. -/
def finishInitializing (sh:Shared) (l:InitializingClasses) (todo:List ClassId) :
 Option (Shared × InitializingClasses × List ClassId) :=
 match todo with
 | []=>some (sh,l,[])
 | c::rest=>
  match l.forget c with
  | none=>none
  | some l'=>
   (finishInitializing (sh.finish c) l' (sh.pendingOf c++rest)).map fun r =>
    (r.1,r.2.1,c::r.2.2)
termination_by todo.length+sh.pending.length
decreasing_by
 have:=sh.length_pendingOf c
 simp only [List.length_append,List.length_cons]
 omega

section Threads

variable (superOf:ClassId → Option ClassId)

def lockAndFinishInitializing (sh:Shared) (l:InitializingClasses) (c:ClassId) :
 Option (Shared × InitializingClasses × List ClassId) :=
 match superOf c with
 | none=>finishInitializing sh l [c]
 | some p=>
  if sh.initialized p then finishInitializing sh l [c]
  else some ({sh with pending:=⟨p,c⟩::sh.pending},l,[])

inductive Point
 | start
 | superclass
 | tryLock
 | record
 | callbacks
 | running
 | finish (threw:Bool)
 | checkInitializing
 | checkMine
 | waitForInitializeToComplete
 | checkInitialized
 deriving DecidableEq

structure Frame where
 cls : ClassId
 point : Point

structure Thread where
 frames : List Frame
 /-- an exception is on its way out of the innermost frame -/
 unwinding : Bool
 list : InitializingClasses

def userCode : List Frame → Bool
 | []=>true
 | ⟨_,.callbacks⟩::_=>true
 | ⟨_,.running⟩::_=>true
 | _=>false

def resume : List Frame → List Frame
 | ⟨c,.superclass⟩::rest=>⟨c,.tryLock⟩::rest
 | frames=>frames

inductive Event
 | began (t:ℕ) (c:ClassId)
 | started (t:ℕ) (c:ClassId)
 | ended (c:ClassId)
 | marked (c:ClassId)
 | returned (t:ℕ) (c:ClassId)
 deriving DecidableEq

inductive ThreadStep (t:ℕ) (sh:Shared) : Thread → List Event → Shared → Thread → Prop
 | call (c fs l) (h:userCode fs=true) :
  ThreadStep t sh ⟨fs,false,l⟩ [] sh ⟨⟨c,.start⟩::fs,false,l⟩
 | enterSuper (c p fs l) (hp:superOf c=some p) (h:sh.initialized p=false) :
  ThreadStep t sh ⟨⟨c,.start⟩::fs,false,l⟩ [] sh
   ⟨⟨p,.start⟩::⟨c,.superclass⟩::fs,false,l⟩
 | enter (c fs l) (h:∀p,superOf c=some p → sh.initialized p=true) :
  ThreadStep t sh ⟨⟨c,.start⟩::fs,false,l⟩ [] sh ⟨⟨c,.tryLock⟩::fs,false,l⟩
 | claim (c fs l) (h:sh.initialized c=false) (h':sh.initializing c=false) :
  ThreadStep t sh ⟨⟨c,.tryLock⟩::fs,false,l⟩ [.began t c] (sh.setInitializing c)
   ⟨⟨c,.record⟩::fs,false,l⟩
 | lost (c fs l) (h:sh.initialized c=true ∨ sh.initializing c=true) :
  ThreadStep t sh ⟨⟨c,.tryLock⟩::fs,false,l⟩ [] sh
   ⟨⟨c,.checkInitializing⟩::fs,false,l⟩
 | record (c fs) (l l':InitializingClasses) (h:l.record c=some l') :
  ThreadStep t sh ⟨⟨c,.record⟩::fs,false,l⟩ [] sh ⟨⟨c,.callbacks⟩::fs,false,l'⟩
 | recordFatal (c fs) (l:InitializingClasses) (h:l.record c=none) :
  ThreadStep t sh ⟨⟨c,.record⟩::fs,false,l⟩ [] (sh.die .alreadyInitializing)
   ⟨⟨c,.record⟩::fs,false,l⟩
 | callbackThrows (c fs l) :
  ThreadStep t sh ⟨⟨c,.callbacks⟩::fs,false,l⟩ [] sh ⟨fs,true,l⟩
 | callInitialize (c fs l) :
  ThreadStep t sh ⟨⟨c,.callbacks⟩::fs,false,l⟩ [.started t c] sh
   ⟨⟨c,.running⟩::fs,false,l⟩
 | initializeEnds (c threw fs l) :
  ThreadStep t sh ⟨⟨c,.running⟩::fs,false,l⟩ [.ended c] sh
   ⟨⟨c,.finish threw⟩::fs,false,l⟩
 | finish (c fs l l' sh') (marked:List ClassId)
  (h:lockAndFinishInitializing superOf sh l c=some (sh',l',marked)) :
  ThreadStep t sh ⟨⟨c,.finish false⟩::fs,false,l⟩
   (marked.map .marked++[.returned t c]) sh' ⟨resume fs,false,l'⟩
 | finishThrown (c fs l l' sh') (marked:List ClassId)
  (h:lockAndFinishInitializing superOf sh l c=some (sh',l',marked)) :
  ThreadStep t sh ⟨⟨c,.finish true⟩::fs,false,l⟩ (marked.map .marked) sh' ⟨fs,true,l'⟩
 | finishFatal (c threw fs l) (h:lockAndFinishInitializing superOf sh l c=none) :
  ThreadStep t sh ⟨⟨c,.finish threw⟩::fs,false,l⟩ [] (sh.die .notInitializing)
   ⟨⟨c,.finish threw⟩::fs,false,l⟩
 | seesInitializing (c fs l) (h:sh.initializing c=true) :
  ThreadStep t sh ⟨⟨c,.checkInitializing⟩::fs,false,l⟩ [] sh
   ⟨⟨c,.checkMine⟩::fs,false,l⟩
 | seesNotInitializing (c fs l) (h:sh.initializing c=false) :
  ThreadStep t sh ⟨⟨c,.checkInitializing⟩::fs,false,l⟩ [] sh
   ⟨⟨c,.checkInitialized⟩::fs,false,l⟩
 | mine (c fs) (l:InitializingClasses) (h:c∈l.held) :
  ThreadStep t sh ⟨⟨c,.checkMine⟩::fs,false,l⟩ [.returned t c] sh ⟨resume fs,false,l⟩
 | notMine (c fs) (l:InitializingClasses) (h:c∉l.held) :
  ThreadStep t sh ⟨⟨c,.checkMine⟩::fs,false,l⟩ [] sh
   ⟨⟨c,.waitForInitializeToComplete⟩::fs,false,l⟩
 | woken (c fs l) (h:sh.initialized c=true) :
  ThreadStep t sh ⟨⟨c,.waitForInitializeToComplete⟩::fs,false,l⟩ [.returned t c] sh
   ⟨resume fs,false,l⟩
 | isInitialized (c fs l) (h:sh.initialized c=true) :
  ThreadStep t sh ⟨⟨c,.checkInitialized⟩::fs,false,l⟩ [.returned t c] sh
   ⟨resume fs,false,l⟩
 | buggy (c fs l) (h:sh.initialized c=false) :
  ThreadStep t sh ⟨⟨c,.checkInitialized⟩::fs,false,l⟩ [] (sh.die .classInitIsBuggy)
   ⟨⟨c,.checkInitialized⟩::fs,false,l⟩
 | unwindSuper (c fs l) :
  ThreadStep t sh ⟨⟨c,.superclass⟩::fs,true,l⟩ [] sh ⟨fs,true,l⟩
 | unwindCallback (c fs l) :
  ThreadStep t sh ⟨⟨c,.callbacks⟩::fs,true,l⟩ [] sh ⟨fs,true,l⟩
 | unwindInitialize (c fs l) :
  ThreadStep t sh ⟨⟨c,.running⟩::fs,true,l⟩ [.ended c] sh ⟨⟨c,.finish true⟩::fs,false,l⟩
 | caught (fs l) (h:userCode fs=true) :
  ThreadStep t sh ⟨fs,true,l⟩ [] sh ⟨fs,false,l⟩

def start : Interleaving.Config Shared Thread Event where
 shared := ⟨fun _=>false,fun _=>false,[],none⟩
 threads _ := ⟨[],false,.empty⟩
 trace := []

end Threads

end ObjcRuntime.ClassInitialize
