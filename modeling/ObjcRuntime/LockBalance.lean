import ObjcRuntime.RetainRelease

/-!
# Balance of the side table lock across one call

The call is shown an arbitrary sequence of isa words. `sideTableLocked` stands for ownership,
except that an overflowing `tryRetain` sets it while the lock belongs to the caller.
-/
set_option autoImplicit false
namespace ObjcRuntime.LockBalance
open AtomicPrograms Isa SideTable RetainRelease

variable {L:Layout} {info:Class L → ClassInfo}

def overflows (w:Word L) : Bool := w.nonpointer && !w.isDeallocating && (w.addRC 1).2

def isDead (w:Word L) : Bool := w.nonpointer && w.isDeallocating

/-- How many overflowing words a call sees before it sets `sideTableLocked`: the first one
    sends a fast variant to `rootRetain_overflow`, which starts over. -/
def overflowsToLock : RRVariant → ℕ
 | .full=>1
 | .fast | .fastOrMsgSend=>2

/-- The call saw `n` overflowing words, and last of all a deallocating one. -/
def OverflowThenDealloc (n:ℕ) (ws:List (Word L)) : Prop :=
 ∃seen last,ws=seen++[last] ∧ isDead last ∧ n ≤ seen.countP overflows

def retainOwns : RetainPc L → Bool
 | .store _ locked _=>locked
 | .addExtraRC | .unlock _ | .tableRetain | .tableRetainUnlock=>true
 | _=>false

/-- `sideTableLocked` is set in the full variant only, and always before transcribing. -/
def retainWf : RetainPc L → Prop
 | .store variant locked oldisa=>
  (locked=true → variant=.full) ∧ ((oldisa.addRC 1).2=true → locked=true)
 | .tableTryRetain=>False
 | _=>True

theorem retainLoop_owns (variant:RRVariant) (locked:Bool) (w:Word L)
 (h:locked=true → variant=.full) :
 retainWf (retainLoop false variant locked w) ∧
  retainOwns (retainLoop false variant locked w)=locked := by
 grind [retainLoop,retainWf,retainOwns]

theorem retain_lockDiscipline (info:Class L → ClassInfo) :
 LockDiscipline (rootRetain info false) retainWf retainOwns := by
 intro p hp
 cases p with
 | enter variant=>
  intro w
  dsimp only
  split_ifs
  · exact ⟨trivial,rfl⟩
  · exact ⟨trivial,rfl⟩
  · exact retainLoop_owns variant false w (by simp)
 | store variant locked oldisa=>
  refine ⟨?_,fun w=>retainLoop_owns variant locked w hp.1⟩
  obtain ⟨hfull,hcarry⟩:=hp
  cases locked with
  | false=>
   have hc:(oldisa.addRC 1).2=false:=by simpa using hcarry
   simp only [hc,Bool.and_false,Bool.false_eq_true,↓reduceIte]
   split_ifs <;> exact ⟨trivial,rfl⟩
  | true=>
   simp only [hfull rfl,Bool.not_false,Bool.and_self,ne_eq,not_true,↓reduceIte]
   split_ifs <;> exact ⟨trivial,rfl⟩
 | lockOverflow oldisa=>exact ⟨rfl,⟨fun _=>rfl,fun _=>rfl⟩,rfl⟩
 | addExtraRC | tableRetain=>exact fun _=>⟨trivial,rfl⟩
 | unlock r | tableRetainLock | tableRetainUnlock=>exact ⟨rfl,trivial,rfl⟩
 | tableTryRetain=>exact hp.elim
 | ret r=>exact rfl

def releaseOwns : ReleasePc L → Bool
 | .store _ locked _=>locked
 | .enter _ | .lockUnderflow | .tableReleaseLock | .ret _=>false
 | _=>true

def releaseWf : ReleasePc L → Prop
 | .store variant locked _=>locked=true → variant=.full
 | _=>True

theorem releaseExit_owns (locked:Bool) (r:ReleaseResult) :
 releaseWf (releaseExit locked r:ReleasePc L) ∧
  releaseOwns (releaseExit locked r:ReleasePc L)=locked := by
 cases locked <;> exact ⟨trivial,rfl⟩

theorem releaseLoop_owns (variant:RRVariant) (locked:Bool) (w:Word L)
 (h:locked=true → variant=.full) :
 releaseWf (releaseLoop variant locked w) ∧ releaseOwns (releaseLoop variant locked w)=locked := by
 unfold releaseLoop releaseUnderflow
 cases locked <;> simp only [Bool.false_eq_true,↓reduceIte] at h ⊢ <;>
  split_ifs <;> simp_all [releaseWf,releaseOwns,releaseExit]

theorem borrowStored_owns (b:Borrow) (r:ReleaseResult) : releaseWf (borrowStored b r:ReleasePc L) ∧
  releaseOwns (borrowStored b r:ReleasePc L)=true := by
 unfold borrowStored
 split <;> exact ⟨trivial,rfl⟩

theorem release_lockDiscipline (info:Class L → ClassInfo) :
 LockDiscipline (rootRelease info) releaseWf releaseOwns := by
 intro p hp
 cases p with
 | enter variant=>
  intro w
  dsimp only
  split_ifs
  · exact ⟨trivial,rfl⟩
  · exact ⟨trivial,rfl⟩
  · exact releaseLoop_owns variant false w (by simp)
 | reload=>exact fun w=>releaseLoop_owns .full true w fun _=>rfl
 | store variant locked oldisa=>
  refine ⟨?_,fun w=>releaseLoop_owns variant locked w hp⟩
  split_ifs with hd hv
  · exact releaseExit_owns locked .dealloc
  · cases locked with
    | false=>exact ⟨trivial,rfl⟩
    | true=>exact absurd (hp rfl) hv
  · exact releaseExit_owns locked .released
 | lockUnderflow | unlock r | tableReleaseLock | tableReleaseUnlock r=>exact ⟨rfl,trivial,rfl⟩
 | borrow oldisa=>
  intro e
  dsimp only
  split_ifs <;> exact ⟨trivial,rfl⟩
 | storeBorrow oldisa b=>
  refine ⟨borrowStored_owns b .released,fun w=>?_⟩
  dsimp only
  split_ifs <;> exact ⟨trivial,rfl⟩
 | storeBorrowAgain oldisa b=>exact ⟨borrowStored_owns b _,fun _=>⟨trivial,rfl⟩⟩
 | putBack b | clearExtraRC r | tableRelease=>exact fun _=>⟨trivial,rfl⟩
 | ret r=>exact rfl

theorem not_overflowThenDealloc_nil (n:ℕ) : ¬ OverflowThenDealloc n ([] : List (Word L)) := by
 rintro ⟨seen,last,h,_⟩
 simp at h

theorem overflowThenDealloc_singleton (n:ℕ) (w:Word L) :
 OverflowThenDealloc n [w] ↔ n=0 ∧ isDead w := by
 constructor
 · rintro ⟨seen,last,h,hd,hn⟩
   cases seen with
   | nil=>grind
   | cons v seen=>simp at h
 · rintro ⟨rfl,hd⟩
   exact ⟨[],w,rfl,hd,Nat.zero_le _⟩

theorem overflowThenDealloc_cons (n:ℕ) (w:Word L) (ws:List (Word L)) (hd:isDead w=false) :
 OverflowThenDealloc n (w::ws) ↔ OverflowThenDealloc (n-(overflows w).toNat) ws := by
 constructor
 · rintro ⟨seen,last,h,hl,hn⟩
   cases seen with
   | nil=>grind
   | cons v seen=>
    obtain ⟨rfl,rfl⟩ : w=v ∧ ws=seen++[last] := by simpa using h
    refine ⟨seen,last,rfl,hl,?_⟩
    grind
 · rintro ⟨seen,last,rfl,hl,hn⟩
   refine ⟨w::seen,last,rfl,hl,?_⟩
   grind

/-- The call gives the caller's lock away if it saw that, and keeps it otherwise. -/
def Verdict (n:ℕ) (held:Bool) (ws:List (Word L)) (held':Bool) : Prop :=
 (OverflowThenDealloc n ws → held=true ∧ held'=false) ∧ (¬ OverflowThenDealloc n ws → held'=held)

theorem Verdict.of_kept {n:ℕ} {held held':Bool} {ws:List (Word L)} (hn:¬ OverflowThenDealloc n ws)
 (h:held'=held) : Verdict n held ws held' :=
 ⟨fun hl=>absurd hl hn,fun _=>h⟩

def TryBalanced (held:Bool) (ws:List (Word L)) (held':Bool) : RetainPc L → Prop
 | .enter variant=>Verdict (overflowsToLock variant) held ws held'
 | .store variant locked _=>(locked=true → variant=.full) →
  Verdict (if locked then 0 else overflowsToLock variant) held ws held'
 | .unlock _=>ws=[] ∧ held=true ∧ held'=false
 | .addExtraRC | .tableTryRetain | .ret _=>ws=[] ∧ held'=held
 | _=>True

theorem retainLoop_tryBalanced (variant:RRVariant) (locked:Bool) (w:Word L)
 (hl:locked=true → variant=.full) (held:Bool) (ws:List (Word L)) (held':Bool)
 (h:TryBalanced held ws held' (retainLoop true variant locked w)) :
 Verdict (if locked then 0 else overflowsToLock variant) held (w::ws) held' := by
 have hpos:0 < overflowsToLock variant:=by cases variant <;> decide
 unfold retainLoop at h
 cases hn : w.nonpointer with
 | false=>
  -- A raw isa ends the call in `sidetable_tryRetain`, which leaves the lock alone.
  rw [hn] at h
  obtain ⟨rfl,hk⟩:=h
  exact .of_kept (by rw [overflowThenDealloc_singleton]; simp [isDead,hn]) hk
 | true=>
  rw [hn] at h
  cases hd : w.isDeallocating with
  | true=>
   rw [hd] at h
   have hdead:isDead w=true:=by simp [isDead,hn,hd]
   cases locked with
   | true=>
    obtain ⟨rfl,hh⟩:=h
    exact ⟨fun _=>hh,fun hk=>absurd ((overflowThenDealloc_singleton _ w).mpr ⟨rfl,hdead⟩) hk⟩
   | false=>
    obtain ⟨rfl,hk⟩:=h
    exact .of_kept (by rw [overflowThenDealloc_singleton]; simp; omega) hk
  | false=>
   rw [hd] at h
   have hdead:isDead w=false:=by simp [isDead,hd]
   have hov:overflows w=(w.addRC 1).2:=by simp [overflows,hn,hd]
   unfold Verdict
   rw [overflowThenDealloc_cons _ w ws hdead,hov]
   cases hc : (w.addRC 1).2 with
   | false=>
    simp only [hc,Bool.not_true,Bool.false_eq_true,↓reduceIte] at h
    exact h hl
   | true=>
    simp only [hc,Bool.not_true,Bool.false_eq_true,↓reduceIte,Bool.false_and] at h
    cases locked with
    | true=>
     rw [if_neg (not_not.mpr (hl rfl))] at h
     exact h hl
    | false=>
     cases variant with
     | full=>exact h fun _=>rfl
     | fast | fastOrMsgSend=>exact h

theorem tryRetain_balanced {p:RetainPc L} {held held':Bool} {ws:List (Word L)}
 {r:RetainResult} (h:Observed (rootRetain info true) p held ws r held') :
 TryBalanced held ws held' p := by
 induction h with
 | @load p k w held ws r held' hc tail ih=>
  cases p with
  | enter variant=>
   obtain rfl:=Instr.load.inj hc
   have hpos:0 < overflowsToLock variant:=by cases variant <;> decide
   have kept:ws=[] ∧ held'=held → Verdict (overflowsToLock variant) held (w::ws) held':=by
    rintro ⟨rfl,hk⟩
    exact .of_kept (by rw [overflowThenDealloc_singleton]; omega) hk
   dsimp only at ih
   split_ifs at ih with h1 h2
   · exact kept ih
   · exact kept ih
   · exact retainLoop_tryBalanced variant false w (by simp) held ws held' ih
  | _=>cases hc
 | @stored p old new s f held ws r held' hc tail ih=>
  cases p with
  | store variant locked oldisa=>
   obtain ⟨-,-,rfl,-⟩:=Instr.store.inj hc
   intro _
   have kept:ws=[] ∧ held'=held → Verdict (if locked then 0 else overflowsToLock variant)
    held ws held' := by
    rintro ⟨rfl,hk⟩
    exact .of_kept (not_overflowThenDealloc_nil _) hk
   simp only [Bool.not_true,Bool.false_and,Bool.false_eq_true,↓reduceIte] at ih
   split_ifs at ih <;> exact kept ih
  | _=>cases hc
 | @failed p old new s f w held ws r held' hc tail ih=>
  cases p with
  | store variant locked oldisa=>
   obtain ⟨-,-,-,rfl⟩:=Instr.store.inj hc
   exact fun hl=>retainLoop_tryBalanced variant locked w hl held ws held' ih
  | _=>cases hc
 | @lock p k ws r held' hc tail ih=>cases p <;> first | exact trivial | cases hc
 | @unlock p k ws r held' hc tail ih=>
  cases p with
  | unlock r=>
   obtain rfl:=Instr.unlock.inj hc
   exact ⟨ih.1,rfl,ih.2⟩
  | tableRetainUnlock=>exact trivial
  | _=>cases hc
 | @access p held ws r held' β f k e hc tail ih=>
  cases p with
  | addExtraRC=>cases hc; exact ih
  | tableRetain=>exact trivial
  | tableTryRetain=>cases hc; exact ih
  | _=>cases hc
 | @ret p held r hc=>cases p <;> first | exact trivial | exact ⟨rfl,rfl⟩ | cases hc

/-- Every call gives the lock back as it found it, except a `tryRetain` that set
    `sideTableLocked` on an overflow and then met a deallocating isa. -/
theorem rootRetain_rootRelease_lock_balance (info:Class L → ClassInfo) :
 (∀tryRetain variant held ws r held',
  Observed (rootRetain info tryRetain) (.enter variant) held ws r held' →
   (held'=held ↔ ¬ (tryRetain=true ∧ OverflowThenDealloc (overflowsToLock variant) ws))) ∧
 (∀variant held ws r held',
  Observed (rootRelease info) (.enter variant) held ws r held' → held'=held) := by
 constructor
 · intro tryRetain variant held ws r held' h
   cases tryRetain with
   | false=>
    have:=h.balanced (retain_lockDiscipline info) trivial
    simpa [retainOwns] using this
   | true=>
    obtain ⟨hlose,hkeep⟩ : Verdict (overflowsToLock variant) held ws held' :=
     tryRetain_balanced h
    by_cases hl : OverflowThenDealloc (overflowsToLock variant) ws
    · obtain ⟨rfl,rfl⟩:=hlose hl
      simp [hl]
    · simp [hl,hkeep hl]
 · intro variant held ws r held' h
   exact h.balanced (release_lockDiscipline info) trivial

def fullIsa : Word .arm64e := (Word.init ⟨1,by decide⟩ false).setExtraRc 255

def deadIsa : Word .arm64e := (Word.init ⟨1,by decide⟩ false).setExtraRc 0

/-- Two overflowing words, then a failed store that shows the object weakly referenced, and
    a second try that stores: the caller still owns the lock. -/
theorem tryRetain_retained_keeps_lock :
 Observed (rootRetain (fun _:Class .arm64e=>ordinaryClass) true) (.enter .fast)
  true [fullIsa,fullIsa,{fullIsa with weaklyReferenced:=true}] .retained true ∧
 (true=true ↔ ¬ (true=true ∧ OverflowThenDealloc (overflowsToLock .fast)
  [fullIsa,fullIsa,{fullIsa with weaklyReferenced:=true}])) := by
 have h:Observed (rootRetain (fun _:Class .arm64e=>ordinaryClass) true) (.enter .fast)
  true [fullIsa,fullIsa,{fullIsa with weaklyReferenced:=true}] .retained true :=
  .load rfl (.load rfl (.failed rfl (.stored rfl (.access none rfl (.ret rfl)))))
 exact ⟨h,(rootRetain_rootRelease_lock_balance _).1 true .fast true _ .retained true h⟩

/-- Two overflowing words, then a failed store that shows every reference gone: the
    `sidetable_unlock` on the way out releases the caller's lock. -/
theorem tryRetain_gives_away_callers_lock : ¬ ∀variant held ws r held',
  Observed (rootRetain (fun _:Class .arm64e=>ordinaryClass) true) (.enter variant)
   held ws r held' → held'=held := by
 intro h
 have run:Observed (rootRetain (fun _:Class .arm64e=>ordinaryClass) true) (.enter .fast)
  true [fullIsa,fullIsa,deadIsa] .deallocating false :=
  .load rfl (.load rfl (.failed rfl (.unlock rfl (.ret rfl))))
 exact absurd (h .fast true _ .deallocating false run) (by decide)

end ObjcRuntime.LockBalance
