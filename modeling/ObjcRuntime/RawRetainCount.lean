import ObjcRuntime.SideTable

/-!
# Reference counts of objects with a raw isa

The count and the two flags are one word that goes up and down by `SIDE_TABLE_RC_ONE`. The flags
come through every wrap of the word, because its size is a multiple of four.
-/
set_option autoImplicit false
namespace ObjcRuntime.SideTable
open Isa

inductive Op
 | retain
 | tryRetain
 | release
 | setWeaklyReferenced
 deriving DecidableEq,Repr

def Op.apply (op:Op) (e:Entry) : Entry × Bool :=
 match op with
 | .retain=>((sidetableRetain e).1,true)
 | .tryRetain=>sidetableTryRetain e
 | .release=>sidetableRelease e
 | .setWeaklyReferenced=>((sidetableSetWeaklyReferencedNolock e).1,true)

structure History where
 entry : Entry
 retains : ℕ
 releases : ℕ
 reports : ℕ

def History.after (h:History) (op:Op) : History :=
 let result:=op.apply h.entry
 match op with
 | .retain | .tryRetain=>
  {h with entry:=result.1,retains:=h.retains+result.2.toNat}
 | .release=>
  { h with
    entry := result.1
    releases := h.releases+1
    reports := h.reports+result.2.toNat }
 | .setWeaklyReferenced=>{h with entry:=result.1}

def run (ops:List Op) : History := ops.foldl History.after ⟨none,0,0,0⟩

theorem run_concat (ops:List Op) (op:Op) : run (ops++[op])=(run ops).after op :=
 List.foldl_concat ..

theorem entry_concat (ops:List Op) (op:Op) :
 (run (ops++[op])).entry=(op.apply (run ops).entry).1 := by
 rw [run_concat]
 cases op <;> rfl

section Words

theorem flags_of_toNat {e e':Entry} (h:(refcnt e').toNat % 4=(refcnt e).toNat % 4) :
 flags e'=flags e := h

theorem flags_add_rcOne (w:Size) : flags (some (w+rcOne))=flags (some w) := by
 apply flags_of_toNat
 rw [refcnt_some,refcnt_some,BitVec.toNat_add,rcOne_toNat]
 omega

theorem flags_sub_rcOne (w:Size) : flags (some (w-rcOne))=flags (some w) := by
 apply flags_of_toNat
 rw [refcnt_some,refcnt_some,BitVec.toNat_sub,rcOne_toNat]
 omega

theorem flags_retain (e:Entry) : flags (sidetableRetain e).1=flags e := by
 have here:flags (some (refcnt e))=flags e:=by cases e <;> rfl
 grind [sidetableRetain,flags_add_rcOne]

theorem flags_tryRetain (e:Entry) : flags (sidetableTryRetain e).1=flags e := by
 cases e with
 | none=>decide
 | some w=>grind [sidetableTryRetain,flags_add_rcOne]

theorem release_reports_iff (e:Entry) : (sidetableRelease e).2=true ↔ count e=0 ∧ flags e<2 := by
 have hw:=refcnt_toNat e
 cases e with
 | none=>decide
 | some w=>grind [deallocatingFlag,BitVec.lt_def,refcnt_some,sidetableRelease]

theorem flags_release (e:Entry) (h:(sidetableRelease e).2=false) :
 flags (sidetableRelease e).1=flags e := by
 cases e with
 | none=>cases h
 | some w=>grind [sidetableRelease,flags_sub_rcOne]

theorem setWeaklyReferenced_spec (e:Entry) :
 count (sidetableSetWeaklyReferencedNolock e).1=count e ∧
  flags (sidetableSetWeaklyReferencedNolock e).1 / 2=flags e / 2 := by
 have ho:=or_bit_toNat (refcnt e) 0 (by omega)
 rw [pow_zero,Nat.div_one] at ho
 change (refcnt e ||| weaklyReferencedFlag).toNat=_ at ho
 simp only [count,flags,sidetableSetWeaklyReferencedNolock,refcnt_some,ho]
 split <;> omega

theorem flags_apply_deallocating (op:Op) (e:Entry) (h:2 ≤ flags e) : 2 ≤ flags (op.apply e).1 := by
 cases op with
 | retain=>
  change 2 ≤ flags (sidetableRetain e).1
  rwa [flags_retain]
 | tryRetain=>
  change 2 ≤ flags (sidetableTryRetain e).1
  rwa [flags_tryRetain]
 | release=>
  change 2 ≤ flags (sidetableRelease e).1
  rwa [flags_release]
  rw [←Bool.not_eq_true,release_reports_iff]
  omega
 | setWeaklyReferenced=>
  have same:=(setWeaklyReferenced_spec e).2
  change 2 ≤ flags (sidetableSetWeaklyReferencedNolock e).1
  omega

theorem flags_apply_weak (op:Op) (e:Entry) (h:op≠.setWeaklyReferenced) :
 flags (op.apply e).1 % 2=flags e % 2 := by
 cases op with
 | retain=>exact congrArg (· % 2) (flags_retain e)
 | tryRetain=>exact congrArg (· % 2) (flags_tryRetain e)
 | release=>
  change flags (sidetableRelease e).1 % 2=_
  cases reports : (sidetableRelease e).2 with
  | false=>rw [flags_release e reports]
  | true=>
   obtain ⟨zero,below⟩:=(release_reports_iff e).mp reports
   rw [(release_last e zero below).2.1]
   omega
 | setWeaklyReferenced=>exact absurd rfl h

theorem isPinned_apply (op:Op) (e:Entry) (h:isPinned (refcnt e)=true) :
 isPinned (refcnt (op.apply e).1)=true := by
 cases op with
 | retain=>simp [Op.apply,sidetableRetain,h]
 | tryRetain=>
  cases e with
  | none=>exact absurd h (by decide)
  | some w=>grind [refcnt_some,Op.apply,sidetableTryRetain]
 | release=>
  cases e with
  | none=>exact absurd h (by decide)
  | some w=>
   rw [refcnt_some] at h
   have big:=h
   rw [isPinned_eq,decide_eq_true_eq] at big
   have above:¬w < deallocatingFlag:=by
    rw [BitVec.lt_def]
    change ¬w.toNat<2
    omega
   simp only [Op.apply,sidetableRelease,above,if_false,h,if_true,refcnt_some]
 | setWeaklyReferenced=>
  rw [isPinned_refcnt,decide_eq_true_eq] at h ⊢
  change saturation ≤ count (sidetableSetWeaklyReferencedNolock e).1
  rwa [(setWeaklyReferenced_spec e).1]

end Words

/-- A release made now would be made when 1 + retains - releases is 1. -/
def AtOne (ops:List Op) : Prop :=
 (1 : ℤ)+(run ops).retains-(run ops).releases=1

/-- Some release was made when 1 + retains - releases was 1. -/
def Settled (ops:List Op) : Prop :=
 ∃earlier later,ops=earlier++Op.release::later ∧ AtOne earlier

/-- Until then, the count has not reached the pinned bit. -/
def BelowSaturation (ops:List Op) : Prop :=
 ∀earlier later,ops=earlier++later → ¬Settled earlier →
  (run earlier).retains < (run earlier).releases+saturation

theorem settled_concat (ops:List Op) (op:Op) :
 Settled (ops++[op]) ↔ Settled ops ∨ (op=.release ∧ AtOne ops) := by
 constructor
 · rintro ⟨earlier,later,split,atOne⟩
   rcases List.eq_nil_or_concat later with rfl|⟨later,last,rfl⟩
   · simp_all
   · rw [List.concat_eq_append,←List.cons_append,←List.append_assoc] at split
     exact .inl ⟨earlier,later,(List.append_inj' split rfl).1,atOne⟩
 · rintro (⟨earlier,later,rfl,atOne⟩|⟨rfl,atOne⟩)
   · exact ⟨earlier,later++[op],by simp,atOne⟩
   · exact ⟨ops,[],rfl,atOne⟩

variable {ops:List Op}

theorem BelowSaturation.init {op:Op} (h:BelowSaturation (ops++[op])) : BelowSaturation ops := by
 rintro earlier later rfl
 exact h earlier (later++[op]) (List.append_assoc ..)

/-- The word against the numbers: what is left of the count until a release settles it, and the
deallocating flag from then on. -/
structure Tracks (ops:List Op) : Prop where
 live : ¬Settled ops → flags (run ops).entry<2 ∧
  count (run ops).entry+(run ops).releases=(run ops).retains
 dead : Settled ops → 2 ≤ flags (run ops).entry

theorem Tracks.atOne_iff (h:Tracks ops) (live:¬Settled ops) :
 AtOne ops ↔ count (run ops).entry=0 := by
 have:=(h.live live).2
 unfold AtOne
 omega

theorem tracks_concat (op:Op) (h:Tracks ops) (below:BelowSaturation ops) : Tracks (ops++[op]) := by
 constructor
 · intro live
   rw [settled_concat,not_or,not_and] at live
   obtain ⟨before,notLast⟩:=live
   obtain ⟨notDealloc,left⟩:=h.live before
   have room:count (run ops).entry < saturation:=by
    have:=below ops [] (List.append_nil ops).symm before
    omega
   rw [run_concat]
   cases op with
   | retain=>grind [retain_spec,History.after,Op.apply]
   | tryRetain=>grind [tryRetain_spec,History.after,Op.apply]
   | release=>grind [h.atOne_iff,release_spec,History.after,Op.apply]
   | setWeaklyReferenced=>grind [setWeaklyReferenced_spec,History.after,Op.apply]
 · intro settled
   rw [entry_concat]
   by_cases before : Settled ops
   · exact flags_apply_deallocating op _ (h.dead before)
   · rcases (settled_concat ops op).mp settled with old|⟨rfl,atOne⟩
     · exact absurd old before
     · have:=release_last _ ((h.atOne_iff before).mp atOne) (h.live before).1
       change 2 ≤ flags (sidetableRelease _).1
       omega

theorem tracks_run (ops:List Op) (below:BelowSaturation ops) : Tracks ops := by
 induction ops using List.reverseRecOn with
 | nil=>
  constructor
  · intro _
    decide
  · rintro ⟨earlier,later,split,-⟩
    simp at split
 | append_singleton ops op ih=>exact tracks_concat op (ih below.init) below.init

theorem reports_run (ops:List Op) :
 (run ops).reports=if 2 ≤ flags (run ops).entry then 1 else 0 := by
 induction ops using List.reverseRecOn with
 | nil=>decide
 | append_singleton ops op ih=>
  rw [run_concat]
  cases op with
  | retain=>
   simp only [History.after,Op.apply,flags_retain]
   exact ih
  | tryRetain=>
   simp only [History.after,Op.apply,flags_tryRetain]
   exact ih
  | release=>
   simp only [History.after,Op.apply,ih]
   cases reports : (sidetableRelease (run ops).entry).2 with
   | false=>
    rw [flags_release _ reports]
    rfl
   | true=>grind [release_reports_iff,release_last]
  | setWeaklyReferenced=>grind [setWeaklyReferenced_spec,History.after,Op.apply]

theorem isPinned_run (ops:List Op) (h:¬BelowSaturation ops) :
 isPinned (refcnt (run ops).entry)=true := by
 induction ops using List.reverseRecOn with
 | nil=>
  refine absurd ?_ h
  intro earlier later split _
  obtain ⟨rfl,-⟩:=List.append_eq_nil_iff.mp split.symm
  decide
 | append_singleton ops op ih=>
  by_cases before : BelowSaturation ops
  · -- Every shorter history is below, so it is this one that reaches the bound.
    have tracks:=tracks_concat op (tracks_run ops before) before
    unfold BelowSaturation at h
    push Not at h
    obtain ⟨earlier,later,split,live,reached⟩:=h
    rcases List.eq_nil_or_concat later with rfl|⟨later,last,rfl⟩
    · rw [List.append_nil] at split
      subst split
      have:=(tracks.live live).2
      rw [isPinned_refcnt,decide_eq_true_eq]
      omega
    · rw [List.concat_eq_append,←List.append_assoc] at split
      have:=before earlier later (List.append_inj' split rfl).1 live
      omega
  · rw [entry_concat]
    exact isPinned_apply op _ (ih before)

theorem entry_append {P:Entry → Prop} (step:∀op e,P e → P (Op.apply op e).1)
 (ops later:List Op) (h:P (run ops).entry) : P (run (ops++later)).entry := by
 induction later using List.reverseRecOn with
 | nil=>rwa [List.append_nil]
 | append_singleton later op ih=>grind [entry_concat]

/-- The count and the two flags of an object with a raw isa, over every history of it. -/
theorem sidetable_counts_and_flags (ops:List Op) : (run ops).reports≤1 ∧
 ((sidetableRelease (run ops).entry).2=true → AtOne ops ∧ ¬Settled ops) ∧
 (BelowSaturation ops → AtOne ops → ¬Settled ops → (sidetableRelease (run ops).entry).2=true) ∧
 (BelowSaturation ops → ¬Settled ops → ((sidetableRetainCount (run ops).entry).toNat : ℤ) =
    1+(run ops).retains-(run ops).releases) ∧
 (sidetableIsDeallocating (run ops).entry=true → ∀later,
  sidetableIsDeallocating (run (ops++later)).entry=true ∧
  (sidetableTryRetain (run (ops++later)).entry).2=false ∧
  (sidetableRelease (run (ops++later)).entry).2=false) ∧
 (∀op,op≠.setWeaklyReferenced → sidetableIsWeaklyReferenced (run (ops++[op])).entry =
   sidetableIsWeaklyReferenced (run ops).entry) ∧
 (isPinned (refcnt (run ops).entry)=true → ∀later,
  isPinned (refcnt (run (ops++later)).entry)=true) := by
 refine ⟨?_,?_,?_,?_,?_,?_,?_⟩
 · rw [reports_run]
   split <;> omega
 · intro reports
   obtain ⟨zero,notYet⟩:=(release_reports_iff _).mp reports
   have below:BelowSaturation ops:=by
    by_contra above
    have pinned:=isPinned_run ops above
    rw [isPinned_refcnt,decide_eq_true_eq,zero] at pinned
    exact absurd pinned (by decide)
   have tracks:=tracks_run ops below
   have live:¬Settled ops:=fun settled=>absurd (tracks.dead settled) (by omega)
   exact ⟨(tracks.atOne_iff live).mpr zero,live⟩
 · intro below atOne live
   have tracks:=tracks_run ops below
   exact (release_reports_iff _).mpr ⟨(tracks.atOne_iff live).mp atOne,(tracks.live live).1⟩
 · intro below live
   have left:=((tracks_run ops below).live live).2
   rw [sidetableRetainCount_toNat]
   omega
 · intro dealloc later
   rw [sidetableIsDeallocating_eq,decide_eq_true_eq] at dealloc
   have still:=entry_append flags_apply_deallocating ops later dealloc
   grind [sidetableIsDeallocating_eq,tryRetain_deallocating,release_reports_iff]
 · grind [entry_concat,sidetableIsWeaklyReferenced_eq,flags_apply_weak]
 · intro pinned later
   exact entry_append (P:=fun e=>isPinned (refcnt e)=true) isPinned_apply ops later pinned

theorem retains_le_length (ops:List Op) : (run ops).retains ≤ ops.length := by
 induction ops using List.reverseRecOn with
 | nil=>exact Nat.le_refl 0
 | append_singleton ops op ih=>
  rw [run_concat,List.length_append,List.length_singleton]
  have one:=Bool.toNat_le (op.apply (run ops).entry).2
  cases op <;> simp only [History.after] <;> omega

theorem belowSaturation_of_length (h:ops.length < saturation) : BelowSaturation ops := by
 rintro earlier later rfl _
 grind [retains_le_length]

theorem sidetable_release_after_retain : AtOne [.retain,.release] ∧ ¬Settled [.retain,.release] ∧
  (sidetableRelease (run [.retain,.release]).entry).2=true := by
 have atOne:AtOne [.retain,.release]:=by
  unfold AtOne
  decide
 have live:¬Settled [.retain,.release]:=by
  change ¬Settled ([.retain]++[.release])
  rw [settled_concat,not_or]
  constructor
  · rintro ⟨earlier,later,split,-⟩
    simp [List.cons_eq_append_iff] at split
  · rintro ⟨-,balance⟩
    exact absurd balance (by unfold AtOne; decide)
 refine ⟨atOne,live,?_⟩
 exact (sidetable_counts_and_flags _).2.2.1 (belowSaturation_of_length (by decide)) atOne live

theorem retains_only (n:ℕ) (h:n ≤ saturation) :
 ¬Settled (List.replicate n .retain) ∧ (run (List.replicate n .retain)).retains=n ∧
  (run (List.replicate n .retain)).releases=0 ∧
  count (run (List.replicate n .retain)).entry=n := by
 induction n with
 | zero=>
  refine ⟨?_,by decide⟩
  rintro ⟨earlier,later,split,-⟩
  simp at split
 | succ n ih=>
  obtain ⟨live,retains,releases,left⟩:=ih (by omega)
  rw [List.replicate_succ',settled_concat,run_concat]
  have more:=(retain_spec (run (List.replicate n Op.retain)).entry (by omega)).1
  simp only [History.after,Op.apply,Bool.toNat_true]
  exact ⟨by simp [live],by omega,releases,by omega⟩

theorem release_pinned (e:Entry) (h:count e=saturation) :
 count (sidetableRelease e).1=saturation := by
 cases e with
 | none=>exact absurd h (by decide)
 | some w=>
  have pinned:isPinned w=true:=by
   have:=isPinned_refcnt (some w)
   rwa [h,decide_eq_true (Nat.le_refl _)] at this
  have above:¬w < deallocatingFlag:=by
   rw [BitVec.lt_def]
   change ¬w.toNat<2
   have : w.toNat / 4=2^61:=h
   omega
  simpa only [sidetableRelease,above,if_false,pinned,if_true] using h

theorem releases_while_pinned (live:¬Settled ops) (retains:(run ops).retains=saturation)
 (releases:(run ops).releases=0) (pinned:count (run ops).entry=saturation) (n:ℕ)
 (h:n ≤ saturation) :
 ¬Settled (ops++List.replicate n .release) ∧
  (run (ops++List.replicate n .release)).retains=saturation ∧
  (run (ops++List.replicate n .release)).releases=n ∧
  count (run (ops++List.replicate n .release)).entry=saturation := by
 induction n with
 | zero=>grind
 | succ n ih=>
  obtain ⟨live,retains,releases,pinned⟩:=ih (by omega)
  rw [List.replicate_succ',←List.append_assoc,settled_concat,run_concat]
  simp only [History.after,Op.apply]
  refine ⟨?_,retains,by omega,release_pinned _ pinned⟩
  unfold AtOne
  rintro (settled|⟨-,balance⟩)
  · exact live settled
  · omega

/-- With as many retains as pin the count and as many releases. The number is a variable because
the lists are far too long to unfold. -/
theorem not_reported_of_pinned (n:ℕ) (h:n=saturation) :
 AtOne (List.replicate n .retain++List.replicate n .release) ∧
  ¬Settled (List.replicate n .retain++List.replicate n .release) ∧
  (sidetableRelease
   (run (List.replicate n .retain++List.replicate n .release)).entry).2=false := by
 obtain ⟨live,retains,releases,pinned⟩:=retains_only n (by omega)
 obtain ⟨live,retains,releases,pinned⟩ :=
  releases_while_pinned live (retains.trans h) releases (pinned.trans h) n (by omega)
 refine ⟨?_,live,?_⟩
 · unfold AtOne
   omega
 · rw [←Bool.not_eq_true,release_reports_iff,pinned]
   rintro ⟨zero,-⟩
   exact absurd zero (by decide)

/-- The retains that pin the count, as many releases, and the object is at one again: the next
release, the first at one, does not report. -/
theorem pinned_release_does_not_report :
 AtOne (List.replicate saturation .retain++List.replicate saturation .release) ∧
  ¬Settled (List.replicate saturation .retain++List.replicate saturation .release) ∧
  (sidetableRelease (run (List.replicate saturation .retain ++
   List.replicate saturation .release)).entry).2=false :=
 not_reported_of_pinned saturation rfl

end ObjcRuntime.SideTable
