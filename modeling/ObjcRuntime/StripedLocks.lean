import Mathlib.Tactic.Common
import ObjcRuntime.Interleaving

/-!
The striped locks. `lockWith` takes the locks of two addresses in the order of the stripes; a
single lock is taken as that of an address with itself.
-/

set_option autoImplicit false
namespace ObjcRuntime.StripedLocks
open Interleaving Function

def stripeCount (phone:Bool) : ℕ := if phone then 8 else 64

def indexForPointer (phone:Bool) (p:BitVec 64) : ℕ :=
 ((p>>>4) ^^^ (p>>>9)).toNat % stripeCount phone

inductive Action
 | lock (i:ℕ)
 | unlock (i:ℕ)
 deriving DecidableEq

def lockWith (this other:ℕ) : List Action :=
 if this < other then [.lock this,.lock other]
 else .lock other::if this≠other then [.lock this] else []

def unlockWith (this other:ℕ) : List Action :=
 .unlock this::if this≠other then [.unlock other] else []

/-- The locks with their holders; a thread is what it has still to do. -/
inductive Step (phone:Bool) : ThreadStep (ℕ → Option ℕ) (List Action) Unit
 | call {t s} (p q:BitVec 64) : Step phone t s [] [] s
   (lockWith (indexForPointer phone p) (indexForPointer phone q)++
    unlockWith (indexForPointer phone p) (indexForPointer phone q))
 | lock {t s i todo} (free:s i=none) : Step phone t s (.lock i::todo) [] (update s i (some t)) todo
 | unlock {t s i todo} : Step phone t s (.unlock i::todo) [] (update s i none) todo

def start : Config (ℕ → Option ℕ) (List Action) Unit := ⟨fun _=>none,fun _=>[],[]⟩

def Holds (l:List Action) (i:ℕ) : Prop := .unlock i∈l ∧ .lock i∉l

def Rest (phone:Bool) (l:List Action) : Prop := ∃this other,this < stripeCount phone ∧
 other < stripeCount phone ∧ l <:+ lockWith this other++unlockWith this other

structure ThreadOk (phone:Bool) (t:ℕ) (s:ℕ → Option ℕ) (l:List Action) : Prop where
 rest : Rest phone l
 holds : ∀i,s i=some t ↔ Holds l i

variable {phone:Bool} {t i:ℕ} {todo:List Action} {c:Config (ℕ → Option ℕ) (List Action) Unit}

theorem stripeCount_pos : 0 < stripeCount phone := by
 cases phone <;> decide

theorem Rest.tail {a:Action} (h:Rest phone (a::todo)) : Rest phone todo := by
 obtain ⟨this,other,low,low',suffix⟩:=h
 exact ⟨this,other,low,low',(List.suffix_cons a todo).trans suffix⟩

theorem Rest.lock (h:Rest phone (.lock i::todo)) : i < stripeCount phone ∧ Holds todo i ∧
 ∀j,Holds (.lock i::todo) j → j < i := by
 obtain ⟨this,other,low,low',suffix⟩:=h
 unfold lockWith unlockWith at suffix
 split_ifs at suffix <;> simp [List.suffix_cons_iff] at suffix <;> grind [Holds]

theorem Rest.unlock (h:Rest phone (.unlock i::todo)) : .lock i∉todo ∧ .unlock i∉todo := by
 obtain ⟨this,other,-,-,suffix⟩:=h
 unfold lockWith unlockWith at suffix
 split_ifs at suffix <;> simp [List.suffix_cons_iff] at suffix <;> grind

theorem sound : Sound (Step phone) (fun _ _=>True) fun t s _ l=>ThreadOk phone t s l where
 own := by
  rintro t s tr l events s' l' - ⟨rest,holds⟩ step
  refine ⟨trivial,?_⟩
  cases step with
  | call p q=>
   refine ⟨⟨_,_,Nat.mod_lt _ stripeCount_pos,Nat.mod_lt _ stripeCount_pos,List.suffix_rfl⟩,?_⟩
   grind [Holds,lockWith,unlockWith]
  | lock free=>exact ⟨rest.tail,by grind [Holds,rest.lock]⟩
  | unlock=>exact ⟨rest.tail,by grind [Holds,rest.unlock]⟩
 others := by
  rintro t u s tr l k events s' l' ne - ⟨rest,mine⟩ ⟨rest',holds⟩ step
  refine ⟨rest',fun i=>?_⟩
  rw [←holds]
  cases step with
  | call=>rfl
  | lock free=>grind
  | unlock=>grind [Holds,rest.unlock]

def Moves (phone:Bool) (c:Config (ℕ → Option ℕ) (List Action) Unit) (t:ℕ) : Prop :=
 c.threads t≠[] ∧ ∃events s l,Step phone t c.shared (c.threads t) events s l

def height (phone:Bool) : Action → ℕ
 | .lock i=>stripeCount phone-i
 | .unlock _=>0

/-- Whoever holds the lock that a thread waits for goes on, or waits for a higher one. -/
theorem exists_moves (ok:∀t,ThreadOk phone t c.shared (c.threads t)) {a:Action}
 (point:c.threads t=a::todo) : ∃u,Moves phone c u := by
 induction k : height phone a using Nat.strongRecOn generalizing t a todo with
 | ind k ih=>
  have moves {s l} (step:Step phone t c.shared (a::todo) [] s l) : ∃u,Moves phone c u:=by
   rw [←point] at step
   exact ⟨t,by simp [point],_,_,_,step⟩
  cases a with
  | unlock i=>exact moves .unlock
  | lock i=>
   cases owner : c.shared i with
   | none=>exact moves (.lock owner)
   | some u=>
    have low:=(point ▸ (ok t).rest).lock.1
    have mine:=((ok u).holds i).mp owner
    have rest:=(ok u).rest
    obtain ⟨b,todo,other⟩:=List.exists_cons_of_ne_nil (List.ne_nil_of_mem mine.1)
    rw [other] at mine rest
    refine ih (height phone b) ?_ other rfl
    cases b with
    | unlock j=>grind [height]
    | lock j=>grind [height,rest.lock]

/-- In every interleaving no two threads hold one lock, and while a thread is in a call, some thread
that is goes on. -/
theorem no_deadlock (run:Reachable (Step phone) start c) :
 (∀t u i,Holds (c.threads t) i → Holds (c.threads u) i → t=u) ∧
 ∀t,c.threads t≠[] → ∃u,Moves phone c u := by
 have first:∀t,ThreadOk phone t start.shared (start.threads t) :=
  fun _=>⟨⟨0,0,stripeCount_pos,stripeCount_pos,List.nil_suffix⟩,by simp [start,Holds]⟩
 have ok:=(Interleaving.Holds.reachable sound ⟨trivial,first⟩ run).threads
 refine ⟨fun t u i ht hu=>?_,fun t busy=>?_⟩
 · exact Option.some.inj ((((ok t).holds i).mpr ht).symm.trans (((ok u).holds i).mpr hu))
 · obtain ⟨a,todo,point⟩:=List.exists_cons_of_ne_nil busy
   exact exists_moves ok point

/-- Two threads lock the same two stripes, the addresses the other way round; the second waits. -/
theorem contended_moves : ∃c todo,Reachable (Step false) start c ∧ c.threads 1=.lock 1::todo ∧
 ¬Moves false c 1 ∧ ∃u,Moves false c u := by
 have run₁:Reachable (Step false) start _:=.single (.mk start 0 _ _ _ (.call 16 32))
 have run₂:=run₁.tail (.mk _ 0 _ _ [.lock 2,.unlock 1,.unlock 2] (.lock (i:=1) rfl))
 have run₃:=run₂.tail (.mk _ 1 _ _ _ (.call 32 16))
 refine ⟨_,[.lock 2,.unlock 2,.unlock 1],run₃,rfl,?_,(no_deadlock run₃).2 1 (by decide)⟩
 rintro ⟨-,events,s,l,step⟩
 change Step false 1 _ (.lock 1::[.lock 2,.unlock 2,.unlock 1]) events s l at step
 cases step with
 | lock free=>exact absurd free (by decide)

end ObjcRuntime.StripedLocks
