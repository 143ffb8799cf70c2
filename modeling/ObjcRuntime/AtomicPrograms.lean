import Mathlib

/-!
# Flowcharts over one exclusive word, one lock and one lock-protected table

A program is a map from labels to instructions, one atomic step each. An exclusive store may fail
at any time and then hands the freshly loaded word to its failure branch.
-/
set_option autoImplicit false
namespace ObjcRuntime.AtomicPrograms

inductive Instr (W E P R:Type) : Type 1 where
 | load (k:W → P)
 | store (old new:W) (stored:P) (failed:W → P)
 | lock (k:P)
 | unlock (k:P)
 | access {β:Type} (f:E → E × β) (k:β → P)
 | ret (r:R)

/-- Run `self` inside a larger program, which goes on at `k r` when it returns `r`. -/
def Instr.embed {W E P R P' R':Type} (f:P → P') (k:R → Instr W E P' R') :
 Instr W E P R → Instr W E P' R'
 | .load g=>.load fun w=>f (g w)
 | .store old new s g=>.store old new (f s) fun w=>f (g w)
 | .lock p=>.lock (f p)
 | .unlock p=>.unlock (f p)
 | .access a g=>.access a fun b=>f (g b)
 | .ret r=>k r

structure Memory (W E T:Type) where
 word : W
 table : E
 holder : Option T

section Steps
variable {W E P R T:Type}

def Memory.setWord (m:Memory W E T) (w:W) : Memory W E T := {m with word:=w}
def Memory.setTable (m:Memory W E T) (e:E) : Memory W E T := {m with table:=e}
def Memory.setHolder (m:Memory W E T) (h:Option T) : Memory W E T := {m with holder:=h}

@[simp] theorem setWord_word (m:Memory W E T) (w:W) : (m.setWord w).word=w := rfl
@[simp] theorem setWord_table (m:Memory W E T) (w:W) : (m.setWord w).table=m.table := rfl
@[simp] theorem setTable_word (m:Memory W E T) (e:E) : (m.setTable e).word=m.word := rfl
@[simp] theorem setTable_table (m:Memory W E T) (e:E) : (m.setTable e).table=e := rfl
@[simp] theorem setHolder_table (m:Memory W E T) (h:Option T) : (m.setHolder h).table=m.table := rfl

/-- One step of thread `t` at an instruction, from memory `m` to label `q` and memory `m'`.
    A store succeeds only on an unchanged word and may fail spuriously; unlocking a
    lock that `t` does not hold aborts the process, so it has no successor. -/
def Instr.Step (t:T) (m:Memory W E T) : Instr W E P R → P → Memory W E T → Prop
 | .load k,q,m'=>q=k m.word ∧ m'=m
 | .store old new s f,q,m'=>
  (m.word=old ∧ q=s ∧ m'=m.setWord new) ∨ (q=f m.word ∧ m'=m)
 | .lock k,q,m'=>m.holder=none ∧ q=k ∧ m'=m.setHolder (some t)
 | .unlock k,q,m'=>m.holder=some t ∧ q=k ∧ m'=m.setHolder none
 | .access f k,q,m'=>q=k (f m.table).2 ∧ m'=m.setTable (f m.table).1
 | .ret _,_,_=>False

def Instr.result : Instr W E P R → Option R
 | .ret r=>some r
 | _=>none

theorem Instr.eq_ret {i:Instr W E P R} {r:R} (h:i.result=some r) : i=.ret r := by
 cases i with
 | ret r'=>rw [Option.some.inj h]
 | _=>cases h

def Instr.exec [DecidableEq W] [DecidableEq T] (t:T) (m:Memory W E T) :
 Instr W E P R → Option (P × Memory W E T)
 | .load k=>some (k m.word,m)
 | .store old new s f=>if m.word=old then some (s,m.setWord new) else some (f m.word,m)
 | .lock k=>if m.holder=none then some (k,m.setHolder (some t)) else none
 | .unlock k=>if m.holder=some t then some (k,m.setHolder none) else none
 | .access f k=>some (k (f m.table).2,m.setTable (f m.table).1)
 | .ret _=>none

theorem Instr.step_of_exec [DecidableEq W] [DecidableEq T] {t:T} {m m':Memory W E T}
 {i:Instr W E P R} {q:P} (h:i.exec t m=some (q,m')) : i.Step t m q m' := by
 cases i with
 | load k | access f k=>
  obtain ⟨rfl,rfl⟩:=Prod.mk.inj (Option.some.inj h)
  exact ⟨rfl,rfl⟩
 | store old new s f=>
  simp only [exec] at h
  split_ifs at h with hw
  · obtain ⟨rfl,rfl⟩:=Prod.mk.inj (Option.some.inj h)
    exact .inl ⟨hw,rfl,rfl⟩
  · obtain ⟨rfl,rfl⟩:=Prod.mk.inj (Option.some.inj h)
    exact .inr ⟨rfl,rfl⟩
 | lock k | unlock k=>
  simp only [exec,Option.ite_none_right_eq_some,Option.some.injEq,Prod.mk.injEq] at h
  exact ⟨h.1,h.2.1.symm,h.2.2.symm⟩
 | ret r=>cases h

/-- A call seen from outside: the words it is shown, one by one, and whether its
    thread holds the lock. The table may hold anything at each access. -/
inductive Observed (code:P → Instr W E P R) : P → Bool → List W → R → Bool → Prop where
 | load {p k w held ws r held'} (h:code p=.load k)
  (tail:Observed code (k w) held ws r held') : Observed code p held (w::ws) r held'
 | stored {p old new s f held ws r held'} (h:code p=.store old new s f)
  (tail:Observed code s held ws r held') : Observed code p held ws r held'
 | failed {p old new s f w held ws r held'} (h:code p=.store old new s f)
  (tail:Observed code (f w) held ws r held') : Observed code p held (w::ws) r held'
 | lock {p k ws r held'} (h:code p=.lock k)
  (tail:Observed code k true ws r held') : Observed code p false ws r held'
 | unlock {p k ws r held'} (h:code p=.unlock k)
  (tail:Observed code k false ws r held') : Observed code p true ws r held'
 | access {p held ws r held'} {β:Type} {f:E → E × β} {k:β → P} (e:E)
  (h:code p=.access f k)
  (tail:Observed code (k (f e).2) held ws r held') : Observed code p held ws r held'
 | ret {p held r} (h:code p=.ret r) : Observed code p held [] r held

/-- Every label of `code` that satisfies `wf` either owns the lock it took or not, and
    returns only without it. -/
def LockDiscipline (code:P → Instr W E P R) (wf:P → Prop) (owns:P → Bool) : Prop :=
 ∀p,wf p → match code p with
  | .load k=>∀w,wf (k w) ∧ owns (k w)=owns p
  | .store _ _ s f=>(wf s ∧ owns s=owns p) ∧ ∀w,wf (f w) ∧ owns (f w)=owns p
  | .lock k=>owns p=false ∧ wf k ∧ owns k=true
  | .unlock k=>owns p=true ∧ wf k ∧ owns k=false
  | .access f k=>∀e,wf (k (f e).2) ∧ owns (k (f e).2)=owns p
  | .ret _=>owns p=false

theorem Observed.balanced {code:P → Instr W E P R} {wf:P → Prop} {owns:P → Bool}
 (hd:LockDiscipline code wf owns) {p:P} {held:Bool} {ws:List W} {r:R} {held':Bool}
 (h:Observed code p held ws r held') (hp:wf p) :
 held'=if owns p then false else held := by
 induction h with
 | load hc _ ih=>
  have:=hd _ hp
  grind
 | stored hc _ ih=>
  have:=hd _ hp
  grind
 | failed hc _ ih=>
  have:=hd _ hp
  grind
 | lock hc _ ih | unlock hc _ ih=>
  have:=hd _ hp
  grind
 | access e hc _ ih=>
  have:=hd _ hp
  grind
 | ret hc=>
  have:=hd _ hp
  simp only [hc] at this
  rw [this]
  rfl

/-- An uncontended run: every store succeeds on an unchanged word and the lock is free
    whenever it is asked for. -/
def solo [DecidableEq W] (code:P → Instr W E P R) : ℕ → P → W → E → Option (R × W × E)
 | 0,_,_,_=>none
 | n+1,p,w,e=>
  match code p with
  | .load k=>solo code n (k w) w e
  | .store old new s f=>if w=old then solo code n s new e else solo code n (f w) w e
  | .lock k=>solo code n k w e
  | .unlock k=>solo code n k w e
  | .access f k=>solo code n (k (f e).2) w (f e).1
  | .ret r=>some (r,w,e)

end Steps

theorem sum_change {T:Type} [Fintype T] [DecidableEq T] (f g:T → ℕ) (t:T)
 (h:∀u,u≠t → f u=g u) : ∑ u,f u+g t = ∑ u,g u+f t := by
 have rest:∑ u∈Finset.univ.erase t,f u = ∑ u∈Finset.univ.erase t,g u :=
  Finset.sum_congr rfl fun u hu=>h u (Finset.ne_of_mem_erase hu)
 grind [Finset.add_sum_erase]

theorem sum_update {T X:Type} [Fintype T] [DecidableEq T] (g:T → X) (t:T) (x:X)
 (f:X → ℕ) : ∑ u,f (Function.update g t x u)+f (g t) = ∑ u,f (g u)+f x := by
 have h:=sum_change (fun u=>f (Function.update g t x u)) (fun u=>f (g u)) t
  fun u hu=>by rw [Function.update_of_ne hu]
 rwa [Function.update_self] at h

end ObjcRuntime.AtomicPrograms
