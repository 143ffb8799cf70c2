import ObjcRuntime.LockBalance

/-!
# Any number of threads on one object

Threads run one instruction at a time in any order. The ledger (`owned` and the counters) is not
part of the program: it records which references a thread may give up and what the calls returned.
-/
set_option autoImplicit false
namespace ObjcRuntime.RetainThreads
open AtomicPrograms Isa SideTable RetainRelease

variable {L:Layout}

inductive Pc (L:Layout) where
 | weakLoadLock
 | retain (tryRetain:Bool) (p:RetainPc L)
 | weakLoadDone (r:RetainResult)
 | release (p:ReleasePc L)
 | change (newCls:Class L) (p:ChangePc L)
 deriving DecidableEq

inductive Outcome (L:Layout) where
 | retain (r:RetainResult)
 | release (r:ReleaseResult)
 | change (oldCls:Class L)

/-- The code a thread runs. `objc_loadWeakRetained` takes the lock before
    `rootTryRetain` and gives it back afterwards. -/
def code (info:Class L → ClassInfo) : Pc L → Instr (Word L) Entry (Pc L) (Outcome L)
 | .weakLoadLock=>.lock (.retain true (.enter .fast))
 | .retain tryRetain p=>(rootRetain info tryRetain p).embed (.retain tryRetain) fun r =>
  if tryRetain then .unlock (.weakLoadDone r) else .ret (.retain r)
 | .weakLoadDone r=>.ret (.retain r)
 | .release p=>(rootRelease info p).embed .release fun r=>.ret (.release r)
 | .change newCls p=>(changeIsa info newCls p).embed (.change newCls) fun c=>.ret (.change c)

structure Thread (L:Layout) where
 pc : Option (Pc L)
 owned : ℕ

structure Config (L:Layout) (T:Type) where
 mem : Memory (Word L) Entry T
 threads : T → Thread L
 retains : ℕ
 releases : ℕ
 deallocs : ℕ

/-- A class an instance can have: not Nil and not a metaclass. -/
def ValidClass (info:Class L → ClassInfo) (c:Class L) : Prop :=
 c.val≠0 ∧ (info c).isMetaClass=false

instance (info:Class L → ClassInfo) (c:Class L) : Decidable (ValidClass info c) :=
 inferInstanceAs (Decidable (_ ∧ _))

variable {T:Type} [DecidableEq T]

def Config.put (c:Config L T) (t:T) (x:Thread L) : Config L T :=
 {c with threads:=Function.update c.threads t x}

def Config.settle (c:Config L T) (t:T) : Outcome L → Config L T
 | .retain r=>
  if r=.retained then
   {c.put t ⟨none,(c.threads t).owned+1⟩ with retains:=c.retains+1}
  else c.put t ⟨none,(c.threads t).owned⟩
 | .release r=>
  { c.put t ⟨none,(c.threads t).owned⟩ with
    releases := c.releases+1
    deallocs := if r=.dealloc then c.deallocs+1 else c.deallocs }
 | .change _=>c.put t ⟨none,(c.threads t).owned⟩

/-- One step of thread `t`. A release gives up a reference its thread owns; a reference
    may also be handed to another thread. -/
inductive Step (info:Class L → ClassInfo) (t:T) : Config L T → Config L T → Prop where
 | retain {c} (h:(c.threads t).pc=none) :
  Step info t c (c.put t ⟨some (.retain false (.enter .fast)),(c.threads t).owned⟩)
 | weakLoad {c} (h:(c.threads t).pc=none) :
  Step info t c (c.put t ⟨some .weakLoadLock,(c.threads t).owned⟩)
 | release {c n} (h:c.threads t=⟨none,n+1⟩) :
  Step info t c (c.put t ⟨some (.release (.enter .fast)),n⟩)
 | change {c} (newCls) (h:(c.threads t).pc=none) (valid:ValidClass info newCls) :
  Step info t c (c.put t ⟨some (.change newCls .enter),(c.threads t).owned⟩)
 | handOver {c n} (u) (hu:u≠t) (h:(c.threads t).owned=n+1) :
  Step info t c ((c.put t ⟨(c.threads t).pc,n⟩).put u ⟨(c.threads u).pc,(c.threads u).owned+1⟩)
 | run {c} {p q:Pc L} {m} (h:(c.threads t).pc=some p) (hs:(code info p).Step t c.mem q m) :
  Step info t c {c.put t ⟨some q,(c.threads t).owned⟩ with mem:=m}
 | ret {c} {p:Pc L} {r} (h:(c.threads t).pc=some p) (hr:code info p=.ret r) :
  Step info t c (c.settle t r)

def initial (w:Word L) (t:T) : Config L T where
 mem := ⟨w,none,none⟩
 threads := Function.update (fun _=>⟨none,0⟩) t ⟨none,1⟩
 retains := 0
 releases := 0
 deallocs := 0

def Quiescent (c:Config L T) : Prop := ∀t,(c.threads t).pc=none

def retainTook : RetainPc L → ℕ
 | .addExtraRC | .unlock .retained | .tableRetainUnlock | .ret .retained=>1
 | _=>0

def releasePending : ReleasePc L → ℕ
 | .clearExtraRC _ | .unlock _ | .tableReleaseUnlock _ | .ret _=>0
 | _=>1

def Pc.credit : Pc L → ℕ
 | .retain _ p=>retainTook p
 | .weakLoadDone .retained=>1
 | .release p=>releasePending p
 | _=>0

/-- Counts that are in neither word: half of an overflow on its way to the side table, a
    borrow on its way back, or the inline count that `changeIsa` is moving. -/
def Pc.pending : Pc L → ℕ
 | .retain _ .addExtraRC=>L.rcHalf
 | .release (.storeBorrow _ _) | .release (.storeBorrowAgain _ _) | .release (.putBack _)=>
  L.rcHalf
 | .change _ (.moveExtraRC oldisa)=>oldisa.extraRc.val-1
 | _=>0

def Pc.dying : Pc L → ℕ
 | .release (.clearExtraRC .dealloc) | .release (.unlock .dealloc)
 | .release (.tableReleaseUnlock .dealloc) | .release (.ret .dealloc)=>1
 | _=>0

def Pc.releasing : Pc L → ℕ
 | .release _=>1
 | _=>0

def Thread.of (f:Pc L → ℕ) (x:Thread L) : ℕ := x.pc.elim 0 f

def Thread.refs (x:Thread L) : ℕ := x.owned+x.of Pc.credit

variable [Fintype T]

def Config.refs (c:Config L T) : ℕ := ∑ t,(c.threads t).refs
def Config.pending (c:Config L T) : ℕ := ∑ t,(c.threads t).of Pc.pending
def Config.dying (c:Config L T) : ℕ := ∑ t,(c.threads t).of Pc.dying
def Config.booked (c:Config L T) : ℕ := ∑ t,((c.threads t).owned+(c.threads t).of Pc.releasing)

instance (c:Config L T) : Decidable (Quiescent c) :=
 inferInstanceAs (Decidable (∀t,(c.threads t).pc=none))

/-- The count stays below `SIDE_TABLE_RC_PINNED`. -/
def Config.Bounded (c:Config L T) : Prop := c.refs < saturation

instance (c:Config L T) : Decidable c.Bounded := inferInstanceAs (Decidable (_<_))

/-- `changeIsa` prepared a nonpointer isa and is about to see that the isa is raw. -/
def Config.StaleRetry (c:Config L T) (t:T) : Prop :=
 match (c.threads t).pc with
 | some (.change _ (.store _ _ _ newisa))=>
  newisa.nonpointer=true ∧ c.mem.word.nonpointer=false
 | _=>False

instance (c:Config L T) (t:T) : Decidable (c.StaleRetry t) := by
 unfold Config.StaleRetry
 split <;> infer_instance

/-- `changeIsa` makes the isa raw while the inline count is zero. -/
def EmptyMove (c c':Config L T) : Prop :=
 c.mem.word.nonpointer=true ∧ c'.mem.word.nonpointer=false ∧ c.mem.word.extraRc.val=0

instance (c c':Config L T) : Decidable (EmptyMove c c') := inferInstanceAs (Decidable (_ ∧ _))

/-- A step that keeps the count below saturation and meets neither case in which
    `changeIsa` goes wrong. -/
def CarefulStep (info:Class L → ClassInfo) (c c':Config L T) : Prop :=
 ∃t,Step info t c c' ∧ ¬ c.StaleRetry t ∧ ¬ EmptyMove c c' ∧ c'.Bounded

def Thread.changing (x:Thread L) : Bool :=
 match x.pc with
 | some (.change _ _)=>true
 | _=>false

def PlainStep (info:Class L → ClassInfo) (c c':Config L T) : Prop :=
 ∃t,Step info t c c' ∧ (c'.threads t).changing=false ∧ c'.Bounded

inductive Action (L:Layout) where
 | retain | weakLoad | release | change (newCls:Class L) | go

omit [Fintype T] in
def exec (info:Class L → ClassInfo) (t:T) (a:Action L) (c:Config L T) : Option (Config L T) :=
 match (c.threads t).pc,a with
 | none,.retain=>some (c.put t ⟨some (.retain false (.enter .fast)),(c.threads t).owned⟩)
 | none,.weakLoad=>some (c.put t ⟨some .weakLoadLock,(c.threads t).owned⟩)
 | none,.release=>
  match (c.threads t).owned with
  | 0=>none
  | n+1=>some (c.put t ⟨some (.release (.enter .fast)),n⟩)
 | none,.change newCls=>
  if ValidClass info newCls then
   some (c.put t ⟨some (.change newCls .enter),(c.threads t).owned⟩)
  else none
 | some p,.go=>
  match (code info p).result with
  | some r=>some (c.settle t r)
  | none=>((code info p).exec t c.mem).map fun qm =>
   {c.put t ⟨some qm.1,(c.threads t).owned⟩ with mem:=qm.2}
 | _,_=>none

omit [Fintype T] in
theorem step_of_exec {info:Class L → ClassInfo} {t:T} {a:Action L} {c c':Config L T}
 (h:exec info t a c=some c') : Step info t c c' := by
 unfold exec at h
 cases hp : (c.threads t).pc with
 | none=>
  cases a with
  | retain=>
   simp only [hp,Option.some.injEq] at h
   exact h ▸ .retain hp
  | weakLoad=>
   simp only [hp,Option.some.injEq] at h
   exact h ▸ .weakLoad hp
  | release=>
   cases ho : (c.threads t).owned with
   | zero=>simp [hp,ho] at h
   | succ n=>
    simp only [hp,ho,Option.some.injEq] at h
    exact h ▸ .release (by rw [←hp,←ho])
  | change newCls=>
   simp only [hp,Option.ite_none_right_eq_some,Option.some.injEq] at h
   exact h.2 ▸ .change newCls hp h.1
  | go=>simp [hp] at h
 | some p=>
  cases a with
  | go=>
   cases hr : (code info p).result with
   | some r=>
    simp only [hp,hr,Option.some.injEq] at h
    exact h ▸ .ret hp (Instr.eq_ret hr)
   | none=>
    simp only [hp,hr,Option.map_eq_some_iff] at h
    obtain ⟨⟨q,m⟩,hs,rfl⟩:=h
    exact .run hp (Instr.step_of_exec hs)
  | _=>simp [hp] at h

omit [Fintype T] in
def execs (info:Class L → ClassInfo) (guard:T → Config L T → Config L T → Bool) :
 List (T × Action L) → Config L T → Option (Config L T)
 | [],c=>some c
 | (t,a)::rest,c=>(exec info t a c).bind fun c' =>
  if guard t c c' then execs info guard rest c' else none

omit [Fintype T] in
theorem run_of_execs {info:Class L → ClassInfo} {guard:T → Config L T → Config L T → Bool}
 {rel:Config L T → Config L T → Prop}
 (hrel:∀t c c',Step info t c c' → guard t c c'=true → rel c c')
 (schedule:List (T × Action L)) {c c':Config L T}
 (h:execs info guard schedule c=some c') : Relation.ReflTransGen rel c c' := by
 induction schedule generalizing c with
 | nil=>
  obtain rfl:=Option.some.inj h
  exact .refl
 | cons step rest ih=>
  obtain ⟨t,a⟩:=step
  simp only [execs,Option.bind_eq_some_iff,Option.ite_none_right_eq_some] at h
  obtain ⟨d,hd,hg,htail⟩:=h
  exact .head (hrel t c d (step_of_exec hd) hg) (ih htail)

end ObjcRuntime.RetainThreads
