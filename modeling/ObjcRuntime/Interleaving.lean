import Mathlib.Logic.Relation
import Mathlib.Data.List.Induction

/-!
Threads that take atomic steps on a shared state, and the proof rule for them: an assertion per
thread that its own steps re-establish and no other thread's step breaks, beside an invariant of
the shared state.
-/

set_option autoImplicit false
namespace ObjcRuntime.Interleaving
open Function

variable {S L E:Type*}

structure Config (S L E:Type*) where
 shared : S
 threads : ℕ → L
 trace : List E

/-- The steps a thread can take: the thread, the shared and its own state, the events and both
states after the step. -/
abbrev ThreadStep (S L E:Type*) := ℕ → S → L → List E → S → L → Prop

inductive Step (step:ThreadStep S L E) : Config S L E → Config S L E → Prop
 | mk (c:Config S L E) (t:ℕ) (events:List E) (s:S) (l:L)
  (h:step t c.shared (c.threads t) events s l) :
  Step step c ⟨s,update c.threads t l,c.trace++events⟩

def Reachable (step:ThreadStep S L E) (start c:Config S L E) : Prop :=
 Relation.ReflTransGen (Step step) start c

structure Holds (I:S → List E → Prop) (A:ℕ → S → List E → L → Prop) (c:Config S L E) : Prop where
 shared : I c.shared c.trace
 threads : ∀t,A t c.shared c.trace (c.threads t)

/-- A thread's step keeps the invariant and its assertion, and nobody else's is disturbed. -/
structure Sound (step:ThreadStep S L E) (I:S → List E → Prop)
 (A:ℕ → S → List E → L → Prop) : Prop where
 own : ∀{t s tr l events s' l'},I s tr → A t s tr l → step t s l events s' l' →
  I s' (tr++events) ∧ A t s' (tr++events) l'
 others : ∀{t u s tr l m events s' l'},u≠t → I s tr → A t s tr l → A u s tr m →
  step t s l events s' l' → A u s' (tr++events) m

section Rule

variable {step:ThreadStep S L E} {I:S → List E → Prop} {A:ℕ → S → List E → L → Prop}

theorem Holds.after (sound:Sound step I A) {c c':Config S L E} (h:Holds I A c)
 (hstep:Step step c c') : Holds I A c' := by
 cases hstep with
 | mk t events s l hs=>
  refine ⟨(sound.own h.shared (h.threads t) hs).1,fun u=>?_⟩
  change A u s (c.trace++events) (update c.threads t l u)
  by_cases same : u=t
  · rw [same,update_self]
    exact (sound.own h.shared (h.threads t) hs).2
  · rw [update_of_ne same]
    exact sound.others same h.shared (h.threads t) (h.threads u) hs

theorem Holds.reachable (sound:Sound step I A) {start c:Config S L E}
 (h:Holds I A start) (run:Reachable step start c) : Holds I A c := by
 induction run with
 | refl=>exact h
 | tail _ hstep ih=>exact ih.after sound hstep

end Rule

section Auxiliary

variable {G:Type*} {step:ThreadStep S L E} {I:G → S → List E → Prop}
 {A:G → ℕ → S → List E → L → Prop}

/-- As `Holds`, with auxiliary state that the threads themselves do not keep. -/
def HoldsWith (I:G → S → List E → Prop) (A:G → ℕ → S → List E → L → Prop) (c:Config S L E) : Prop :=
 ∃g,Holds (I g) (A g) c

/-- After a thread's step some auxiliary state fits the invariant, the assertion of that thread
and every assertion that another thread may have had. -/
def SoundWith (step:ThreadStep S L E) (I:G → S → List E → Prop)
 (A:G → ℕ → S → List E → L → Prop) : Prop :=
 ∀{g t s tr l events s' l'},I g s tr → A g t s tr l → step t s l events s' l' →
  ∃g',I g' s' (tr++events) ∧ A g' t s' (tr++events) l' ∧
   ∀{u m},u≠t → A g u s tr m → A g' u s' (tr++events) m

theorem HoldsWith.after (sound:SoundWith step I A) {c c':Config S L E}
 (h:HoldsWith I A c) (hstep:Step step c c') : HoldsWith I A c' := by
 obtain ⟨g,h⟩:=h
 cases hstep with
 | mk t events s l hs=>
  obtain ⟨g',shared,own,others⟩:=sound h.shared (h.threads t) hs
  refine ⟨g',shared,fun u=>?_⟩
  grind [h.threads]

theorem HoldsWith.reachable (sound:SoundWith step I A) {start c:Config S L E}
 (h:HoldsWith I A start) (run:Reachable step start c) : HoldsWith I A c := by
 induction run with
 | refl=>exact h
 | tail _ hstep ih=>exact ih.after sound hstep

end Auxiliary

inductive ThreadRun (step:ThreadStep S L E) (t:ℕ) : S → L → List E → S → L → Prop
 | nil (s:S) (l:L) : ThreadRun step t s l [] s l
 | cons {s s₁ s₂:S} {l l₁ l₂:L} {events later:List E} (h:step t s l events s₁ l₁)
  (rest:ThreadRun step t s₁ l₁ later s₂ l₂) : ThreadRun step t s l (events++later) s₂ l₂

theorem ThreadRun.reachable {step:ThreadStep S L E} {t:ℕ} {s s':S} {l l':L}
 {events:List E} (run:ThreadRun step t s l events s' l') {c:Config S L E}
 (hs:c.shared=s) (hl:c.threads t=l) :
 Reachable step c ⟨s',update c.threads t l',c.trace++events⟩ := by
 induction run generalizing c with
 | nil s l=>
  rw [←hs,←hl,update_eq_self,List.append_nil]
  exact .refl
 | @cons s s₁ s₂ l l₁ l₂ events later h _ ih=>
  subst hs hl
  have rest:=ih (c:=⟨s₁,update c.threads t l₁,c.trace++events⟩) rfl
   (update_self ..)
  simp only [update_idem,List.append_assoc] at rest
  exact .head (.mk c t events s₁ l₁ h) rest

/-- Every event of a run stands in a relation to the events before it. -/
def Throughout (P:List E → E → Prop) (tr:List E) : Prop :=
 ∀before e after,tr=before++e::after → P before e

theorem throughout_nil (P:List E → E → Prop) : Throughout P [] := by
 intro before e after h
 simp at h

variable {P:List E → E → Prop}

theorem Throughout.append {tr events:List E} (h:Throughout P tr)
 (new:Throughout (fun before e=>P (tr++before) e) events) :
 Throughout P (tr++events) := by
 intro before e after split
 rcases List.append_eq_append_iff.mp split with ⟨mid,hmid,hrest⟩|⟨mid,hmid,hrest⟩
 · rw [hmid]
   exact new mid e after hrest
 · cases mid with
   | nil=>
    have : P (tr++[]) e:=new [] e after (by simpa using hrest.symm)
    grind
   | cons d mid=>
    obtain ⟨rfl,-⟩:=List.cons.inj hrest
    exact h before e mid hmid

theorem throughout_singleton {e:E} (h:P [] e) : Throughout P [e] := by
 intro before d after split
 cases before with
 | nil=>exact (List.cons.inj split).1 ▸ h
 | cons x before=>simp at split

theorem throughout_pair {e d:E} (first:P [] e) (second:P [e] d) : Throughout P [e,d] :=
 (throughout_singleton first).append
  (throughout_singleton (P:=fun before d=>P ([e]++before) d) second)

theorem Throughout.countP_le_one {p:E → Bool} {tr:List E}
 (h:Throughout (fun before e=>p e=true → ∀d∈before,p d=false) tr) :
 tr.countP p≤1 := by
 induction tr using List.reverseRecOn with
 | nil=>exact Nat.zero_le 1
 | append_singleton tr e ih=>
  have earlier:tr.countP p≤1:=ih fun before d after split=>by
   apply h before d (after++[e])
   rw [split,List.append_assoc]
   rfl
  rw [List.countP_append,List.countP_singleton]
  split
  next he=>
   have none:tr.countP p=0:=List.countP_eq_zero.mpr fun d hd=>by
    rw [h tr e [] rfl he d hd]
    exact Bool.false_ne_true
   omega
  next=>exact earlier

end ObjcRuntime.Interleaving
