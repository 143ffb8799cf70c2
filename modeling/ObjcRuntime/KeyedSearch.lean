import Mathlib.Data.List.Sort

/-!
Searching a list that may hold a key several times. The bisection walks back from a hit to the
first entry of the key, and a stable sort keeps that entry first, so it finds what a scan of the
unsorted list does.
-/

set_option autoImplicit false
namespace ObjcRuntime.KeyedSearch

variable {α κ:Type*} [LinearOrder κ]

def rewind (keys:List κ) (k:κ) : Nat → Nat
 | 0=>0
 | i+1=>if keys[i]?=some k then rewind keys k i else i+1

def bisect (keys:List κ) (k:κ) (base count:Nat) : Option Nat :=
 if count=0 then none
 else
  match keys[base+count / 2]? with
  | none=>none
  | some here=>
   if k=here then some (rewind keys k (base+count / 2))
   else if here < k then bisect keys k (base+count / 2+1) ((count-1) / 2)
   else bisect keys k base (count / 2)
termination_by count

variable {keys:List κ} {k:κ}

theorem key_le_of_le (sorted:keys.Pairwise (· ≤ ·)) {i j:Nat} {a b:κ} (hij:i ≤ j)
 (ha:keys[i]?=some a) (hb:keys[j]?=some b) : a ≤ b := by
 grind [List.pairwise_iff_getElem]

theorem findIdx?_eq_some {i:Nat} (hit:keys[i]?=some k) (first:∀j < i,keys[j]?≠some k) :
 keys.findIdx? (· = k)=some i := by
 obtain ⟨hi,hk⟩:=List.getElem?_eq_some_iff.mp hit
 grind [List.findIdx?_eq_some_iff_getElem]

theorem findIdx?_eq_none (missed:∀i : Nat,keys[i]?≠some k) : keys.findIdx? (· = k)=none := by
 rw [List.findIdx?_eq_none_iff]
 grind [List.mem_iff_getElem?]

theorem rewind_eq (sorted:keys.Pairwise (· ≤ ·)) {i:Nat} (hit:keys[i]?=some k) :
 keys.findIdx? (· = k)=some (rewind keys k i) := by
 induction i with
 | zero=>exact findIdx?_eq_some hit fun j hj=>absurd hj (Nat.not_lt_zero j)
 | succ i ih=>
  rw [rewind]
  split
  next here=>exact ih here
  next other=>
   apply findIdx?_eq_some hit
   intro j hj earlier
   -- everything between two entries of the key has that key, so the walk would go on
   have hi:i < keys.length:=by grind
   have between:=List.getElem?_eq_getElem hi
   have low:=key_le_of_le sorted (by omega) earlier between
   have high:=key_le_of_le sorted (Nat.le_succ i) between hit
   grind

theorem bisect_eq_findIdx? (sorted:keys.Pairwise (· ≤ ·)) (base count:Nat)
 (inside:base+count ≤ keys.length) (below:∀i < base,∀a,keys[i]?=some a → a < k)
 (above:∀i ≥ base+count,∀a,keys[i]?=some a → k < a) :
 bisect keys k base count=keys.findIdx? (· = k) := by
 induction count using Nat.strong_induction_on generalizing base with
 | h count ih=>
  rw [bisect]
  by_cases empty : count=0
  · rw [if_pos empty]
    symm
    apply findIdx?_eq_none
    grind
  · rw [if_neg empty]
    have here:=List.getElem?_eq_getElem (l:=keys) (i:=base+count / 2)
     (by omega)
    simp only [here]
    split
    next hit=>
     rw [←hit] at here
     exact (rewind_eq sorted here).symm
    next miss=>
     split
     next right=>
      refine ih _ (by omega) _ (by omega) (fun i hi a ha=>?_) (fun i hi a ha=>?_)
      · exact lt_of_le_of_lt (key_le_of_le sorted (by omega) ha here) right
      · exact above i (by omega) a ha
     next left=>
      refine ih _ (by omega) _ (by omega) below (fun i hi a ha=>?_)
      have hle:=key_le_of_le sorted (by omega) here ha
      exact lt_of_lt_of_le (lt_of_le_of_ne (not_lt.mp left) miss) hle

theorem bisect_whole (sorted:keys.Pairwise (· ≤ ·)) (k:κ) :
 bisect keys k 0 keys.length=keys.findIdx? (· = k) := by
 apply bisect_eq_findIdx? sorted 0 keys.length (by omega)
 · intro i hi
   omega
 · grind

theorem getElem?_findIdx? (p:α → Bool) (xs:List α) :
 ((xs.findIdx? p).bind fun i=>xs[i]?)=xs.find? p := by
 induction xs with
 | nil=>rfl
 | cons x xs ih=>grind

section SortByKey

variable (key:α → κ) (xs:List α)

def leKey (a b:α) : Bool := decide (key a ≤ key b)

def sortByKey : List α := xs.mergeSort (leKey key)

theorem leKey_trans (a b c:α) (hab:leKey key a b) (hbc:leKey key b c) : leKey key a c :=
 decide_eq_true ((of_decide_eq_true hab).trans (of_decide_eq_true hbc))

theorem leKey_total (a b:α) : leKey key a b || leKey key b a := by
 rw [Bool.or_eq_true]
 exact (le_total (key a) (key b)).imp decide_eq_true decide_eq_true

theorem sortByKey_perm : (sortByKey key xs).Perm xs :=
 List.mergeSort_perm xs _

theorem sortByKey_sorted : ((sortByKey key xs).map key).Pairwise (· ≤ ·) := by
 rw [List.pairwise_map]
 have sorted:=List.pairwise_mergeSort (leKey_trans key) (leKey_total key) xs
 exact sorted.imp of_decide_eq_true

theorem filter_sortByKey (k:κ) : (sortByKey key xs).filter (key · = k)=xs.filter (key · = k) := by
 have equal:(xs.filter (key · = k)).Pairwise fun a b=>leKey key a b:=by
  rw [List.pairwise_iff_forall_sublist]
  intro a b hab
  have ha:=List.of_mem_filter (hab.subset (List.mem_cons_self ..))
  have hb:=List.of_mem_filter (hab.subset (List.mem_cons_of_mem _ (List.mem_cons_self ..)))
  simp only [decide_eq_true_eq] at ha hb
  exact decide_eq_true (by rw [ha,hb])
 have sub:=List.sublist_mergeSort (leKey_trans key) (leKey_total key) equal
  List.filter_sublist
 have kept:=sub.filter (key · = k)
 simp only [List.filter_filter,Bool.and_self] at kept
 refine (kept.eq_of_length ?_).symm
 exact ((sortByKey_perm key xs).filter _).length_eq.symm

theorem find?_sortByKey (k:κ) : (sortByKey key xs).find? (key · = k)=xs.find? (key · = k) := by
 rw [←List.head?_filter,←List.head?_filter,filter_sortByKey]

end SortByKey

end ObjcRuntime.KeyedSearch
