import Mathlib

/-!
# Descending circular probing

A table of `mask + 1` slots is searched from a starting slot downwards, wrapping from slot `0` to
slot `mask`, until a slot at which the search stops.
-/

set_option autoImplicit false
namespace ObjcRuntime.DescendingProbe

def next (mask i:ℕ) : ℕ := if i≠0 then i-1 else mask

def slotAt (mask first d:ℕ) : ℕ := if d ≤ first then first-d else first+mask+1-d

def distance (mask first i:ℕ) : ℕ := if i ≤ first then first-i else first+mask+1-i

def scan (stop:ℕ → Bool) (mask first:ℕ) : ℕ → ℕ → Option ℕ
 | 0,_=>none
 | fuel+1,i=>
  if stop i then some i
  else if next mask i≠first then scan stop mask first fuel (next mask i) else none

variable {d i:ℕ}

section Slots

variable {mask first:ℕ}

theorem slotAt_zero : slotAt mask first 0=first := by simp [slotAt]

theorem slotAt_le (hfirst:first ≤ mask) (hd:d ≤ mask) : slotAt mask first d ≤ mask := by
 unfold slotAt
 split <;> omega

theorem next_slotAt (hfirst:first ≤ mask) (hd:d < mask) :
 next mask (slotAt mask first d)=slotAt mask first (d+1) := by
 unfold next slotAt
 split_ifs <;> omega

theorem slotAt_ne_first (hpos:0 < d) (hd:d ≤ mask) : slotAt mask first d≠first := by
 unfold slotAt
 split_ifs <;> omega

theorem distance_le (hfirst:first ≤ mask) (hi:i ≤ mask) : distance mask first i ≤ mask := by
 unfold distance
 split_ifs <;> omega

theorem slotAt_distance (first:ℕ) (hi:i ≤ mask) : slotAt mask first (distance mask first i)=i := by
 unfold slotAt distance
 split_ifs <;> omega

theorem distance_slotAt (first:ℕ) (hd:d ≤ mask) : distance mask first (slotAt mask first d)=d := by
 unfold slotAt distance
 split_ifs <;> omega

end Slots

section Scan

variable (stop:ℕ → Bool) {mask first:ℕ}

theorem scan_from (hfirst:first ≤ mask) (hd:d ≤ mask) (hstop:stop (slotAt mask first d)) :
 ∀{steps e:ℕ},e+steps=d → (∀j,e ≤ j → j < d → stop (slotAt mask first j)=false) →
  scan stop mask first (mask+1-e) (slotAt mask first e) =
   some (slotAt mask first d) := by
 intro steps
 induction steps with
 | zero=>
  intro e hed _
  have hfuel:mask+1-e=(mask-e)+1:=by omega
  grind [scan]
 | succ steps ih=>
  intro e hed hbefore
  have hfuel:mask+1-e=(mask+1-(e+1))+1:=by omega
  have hgo:stop (slotAt mask first e)=false:=hbefore e le_rfl (by omega)
  rw [hfuel,scan,if_neg (by simp [hgo]),next_slotAt hfirst (by omega),
   if_pos (slotAt_ne_first (by omega) (by omega))]
  exact ih (by omega) fun j hj hjd=>hbefore j (by omega) hjd

theorem scan_eq_some (hfirst:first ≤ mask) (hd:d ≤ mask) (hstop:stop (slotAt mask first d))
 (hbefore:∀j < d,stop (slotAt mask first j)=false) :
 scan stop mask first (mask+1) first=some (slotAt mask first d) := by
 have hscan:=scan_from stop hfirst hd hstop (Nat.zero_add d)
  (fun j _ hj=>hbefore j hj)
 rwa [Nat.sub_zero,slotAt_zero] at hscan

theorem exists_scan (hfirst:first ≤ mask) (hi:i ≤ mask) (hstop:stop i) :
 ∃d ≤ mask,scan stop mask first (mask+1) first=some (slotAt mask first d) ∧
  stop (slotAt mask first d) ∧ ∀j < d,stop (slotAt mask first j)=false := by
 have hex:∃d,d ≤ mask ∧ stop (slotAt mask first d) :=
  ⟨distance mask first i,distance_le hfirst hi,by rwa [slotAt_distance first hi]⟩
 classical
 have hbefore:∀j < Nat.find hex,stop (slotAt mask first j)=false:=by
  intro j hj
  have hmin:=Nat.find_min hex hj
  have hle:=(Nat.find_spec hex).1
  cases hs : stop (slotAt mask first j) with
  | false=>rfl
  | true=>exact absurd ⟨by omega,hs⟩ hmin
 exact ⟨Nat.find hex,(Nat.find_spec hex).1,
  scan_eq_some stop hfirst (Nat.find_spec hex).1 (Nat.find_spec hex).2 hbefore,
  (Nat.find_spec hex).2,hbefore⟩

end Scan

end ObjcRuntime.DescendingProbe
