import Mathlib.Data.List.Basic

/-!
Two readers of an ivar layout: the high four bits of a byte say how many words to skip, the low
ones how many words after them hold references, and a zero byte ends the layout.
-/

set_option autoImplicit false
namespace ObjcRuntime.LayoutReaders

def scannedFrom (ivar_index:ℕ) : ℕ → List ℕ → Bool
 | _,[]=>false
 | index,byte::layout=>
  if byte=0 then false
  else if ivar_index < index+(byte >>> 4) then false
  else if ivar_index < index+(byte >>> 4)+(byte &&& 0x0f) then true
  else scannedFrom ivar_index (index+(byte >>> 4)+(byte &&& 0x0f)) layout

/-- A pointer has eight bytes; `none` is a layout that is NULL. -/
def isScanned (ivar_offset:ℕ) : Option (List ℕ) → Bool
 | none=>false
 | some layout=>scannedFrom (ivar_offset/8) 0 layout

/-- The inner loop of `fixupCopiedIvars`: the words it retains, and `newPtr` after them. -/
def retainWords : ℕ → ℕ → List ℕ × ℕ
 | 0,newPtr=>([],newPtr)
 | scans+1,newPtr=>
  let later:=retainWords scans (newPtr+1)
  (newPtr::later.1,later.2)

def fixupFrom : ℕ → List ℕ → List ℕ
 | _,[]=>[]
 | newPtr,byte::layout=>
  if byte=0 then []
  else
   let words:=retainWords (byte &&& 0x0f) (newPtr+(byte >>> 4))
   words.1++fixupFrom words.2 layout

def fixupStrong : Option (List ℕ) → List ℕ
 | none=>[]
 | some layout=>fixupFrom 0 layout

theorem retainWords_eq (n p:ℕ) : retainWords n p=(List.range' p n,p+n) := by
 induction n generalizing p with
 | zero=>rfl
 | succ n ih=>
  rw [retainWords,ih]
  simp [List.range'_succ,Nat.add_comm,Nat.add_left_comm]

theorem fixupFrom_cons {byte:ℕ} (ne:byte≠0) (p:ℕ) (layout:List ℕ) :
 fixupFrom p (byte::layout)=List.range' (p+(byte >>> 4)) (byte &&& 0x0f)++
  fixupFrom (p+(byte >>> 4)+(byte &&& 0x0f)) layout := by
 rw [fixupFrom,if_neg ne,retainWords_eq]

theorem fixupFrom_increasing (layout:List ℕ) (p:ℕ) :
 (fixupFrom p layout).Pairwise (· < ·) ∧ ∀i∈fixupFrom p layout,p ≤ i := by
 induction layout generalizing p with
 | nil=>simp [fixupFrom]
 | cons byte layout ih=>
  by_cases zero:byte=0
  · simp [fixupFrom,zero]
  obtain ⟨sorted,above⟩:=ih (p+(byte >>> 4)+(byte &&& 0x0f))
  rw [fixupFrom_cons zero]
  constructor
  · refine List.pairwise_append.mpr ⟨List.pairwise_lt_range',sorted,fun i hi j hj=>?_⟩
    have:=above j hj
    have:=(List.mem_range'_1.mp hi).2
    omega
  · intro i hi
    rcases List.mem_append.mp hi with hi|hi
    · have:=(List.mem_range'_1.mp hi).1
      omega
    · have:=above i hi
      omega

theorem scannedFrom_iff (layout:List ℕ) {i p:ℕ} (le:p ≤ i) :
 scannedFrom i p layout=true ↔ i∈fixupFrom p layout := by
 induction layout generalizing p with
 | nil=>simp [scannedFrom,fixupFrom]
 | cons byte layout ih=>
  by_cases zero:byte=0
  · simp [scannedFrom,fixupFrom,zero]
  have above:=(fixupFrom_increasing layout (p+(byte >>> 4)+(byte &&& 0x0f))).2 i
  rw [scannedFrom,if_neg zero,fixupFrom_cons zero,List.mem_append,List.mem_range'_1]
  split
  next skipped=>
   refine iff_of_false Bool.false_ne_true ?_
   rintro (here|later)
   · omega
   · have:=above later
     omega
  next=>
   split
   next inside=>exact iff_of_true rfl (.inl ⟨by omega,inside⟩)
   next=>rw [ih (by omega),or_iff_right (by omega)]

theorem readers_agree (layout:Option (List ℕ)) :
 (∀i,isScanned (i*8) layout=true ↔ i∈fixupStrong layout) ∧
  (fixupStrong layout).Pairwise (· < ·) := by
 cases layout with
 | none=>exact ⟨fun i=>by simp [isScanned,fixupStrong],.nil⟩
 | some layout=>
  refine ⟨fun i=>?_,(fixupFrom_increasing layout 0).1⟩
  rw [isScanned,fixupStrong,Nat.mul_div_cancel _ (by decide),scannedFrom_iff layout (Nat.zero_le i)]

example : fixupStrong (some [0x12,0xf0,0x21,0,7])=[1,2,20] := by decide

end ObjcRuntime.LayoutReaders
