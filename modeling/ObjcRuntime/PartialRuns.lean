import Mathlib.Data.List.Basic

/-!
Runs of operations that can fail, what is asked of every operation in the state it meets, and what
such runs keep.
-/

set_option autoImplicit false
namespace ObjcRuntime.PartialRuns

variable {σ ω:Type} (step:ω → σ → Option σ)

def run : List ω → σ → Option σ
 | [],s=>some s
 | op::ops,s=>(step op s).bind (run ops)

def Along (C:ω → σ → Prop) : List ω → σ → Prop
 | [],_=>True
 | op::ops,s=>C op s ∧ ∀t,step op s=some t → Along C ops t

variable {step} {C:ω → σ → Prop} {ops:List ω} {op:ω} {s t u:σ}

theorem run_cons (first:step op s=some u) (rest:run step ops u=some t) :
 run step (op::ops) s=some t := by
 rw [run,first]
 exact rest

theorem run_append (ops ops':List ω) (s:σ) :
 run step (ops++ops') s=(run step ops s).bind (run step ops') := by
 induction ops generalizing s with
 | nil=>rfl
 | cons op ops ih=>
  rw [List.cons_append,run,run,Option.bind_assoc]
  exact congrArg _ (funext ih)

theorem run_concat (earlier:run step ops s=some u) (last:step op u=some t) :
 run step (ops++[op]) s=some t := by
 rw [run_append,earlier,Option.bind_some]
 exact run_cons last rfl

theorem run_invariant {I:σ → Prop} (hstep:∀{op s t},C op s → step op s=some t → I s → I t)
 (hops:Along step C ops s) (h:run step ops s=some t) (hs:I s) : I t := by
 induction ops generalizing s with
 | nil=>
  cases h
  exact hs
 | cons op ops ih=>
  obtain ⟨u,hu,h⟩:=Option.bind_eq_some_iff.mp h
  exact ih (hops.2 u hu) h (hstep hops.1 hu hs)

/-- The rule where the condition also lets every operation succeed. -/
theorem run_total {I:σ → Prop} (hstep:∀{op s},I s → C op s → ∃t,step op s=some t ∧ I t)
 (hs:I s) (hops:Along step C ops s) : ∃t,run step ops s=some t ∧ I t := by
 induction ops generalizing s with
 | nil=>exact ⟨s,rfl,hs⟩
 | cons op ops ih=>
  obtain ⟨u,hu,hIu⟩:=hstep hs hops.1
  obtain ⟨t,ht,hIt⟩:=ih hIu (hops.2 u hu)
  exact ⟨t,run_cons hu ht,hIt⟩

theorem Along.cons (h:C op s) (first:step op s=some t) (rest:Along step C ops t) :
 Along step C (op::ops) s :=
 ⟨h,fun _ hz=>Option.some.inj (first.symm.trans hz) ▸ rest⟩

theorem Along.mono {C':ω → σ → Prop} (hC:∀op s,C op s → C' op s) (h:Along step C ops s) :
 Along step C' ops s := by
 induction ops generalizing s with
 | nil=>trivial
 | cons op ops ih=>exact ⟨hC op s h.1,fun u hu=>ih (h.2 u hu)⟩

theorem Along.append {ops':List ω} (h:Along step C ops s)
 (h':∀t,run step ops s=some t → Along step C ops' t) : Along step C (ops++ops') s := by
 induction ops generalizing s with
 | nil=>exact h' s rfl
 | cons op ops ih=>exact ⟨h.1,fun u hu=>ih (h.2 u hu) fun t ht=>h' t (run_cons hu ht)⟩

theorem run_read {β:Type} {b:β} (h:run step ops s=some t) (f:σ → β)
 (hf:(run step ops s).map f=some b) : f t=b := by
 rw [h] at hf
 exact Option.some.inj hf

theorem run_holds (h:run step ops s=some t) (P:σ → Prop) [DecidablePred P]
 (hP:(run step ops s).all (fun t=>decide (P t))=true) : P t := by
 rw [h] at hP
 exact of_decide_eq_true hP

theorem run_yields (step:ω → σ → Option σ) (ops:List ω) (s:σ) (P:σ → Prop) [DecidablePred P]
 (h:(run step ops s).any (fun t=>decide (P t))=true) : ∃t,run step ops s=some t ∧ P t := by
 cases ht : run step ops s with
 | none=>
  rw [ht] at h
  cases h
 | some t=>
  rw [ht] at h
  exact ⟨t,rfl,of_decide_eq_true h⟩

end ObjcRuntime.PartialRuns
