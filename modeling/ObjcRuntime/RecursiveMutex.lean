import Mathlib.Algebra.Group.Nat.Defs

/-! A mutex that its owner may lock again, and that only its owner can unlock. -/

set_option autoImplicit false
namespace ObjcRuntime.RecursiveMutex

/-- Who holds the mutex, and how often it was locked again since, modulo `2^32`. -/
structure Hold where
 owner : ℕ
 again : ℕ
 deriving DecidableEq,Repr

/-- The state after thread `t` locks the mutex; `none` while another thread holds it. -/
def lock (t:ℕ) : Option Hold → Option (Option Hold)
 | none=>some (some ⟨t,0⟩)
 | some h=>if h.owner=t then some (some {h with again:=(h.again+1)%2^32}) else none

/-- The state after thread `t` unlocks the mutex; `none` when it is not the owner. -/
def tryUnlock (t:ℕ) : Option Hold → Option (Option Hold)
 | none=>none
 | some h=>
  if h.owner=t then
   match h.again with
   | 0=>some none
   | again+1=>some (some {h with again:=again})
  else none

def owned (t:ℕ) : Option Hold → ℕ
 | none=>0
 | some h=>if h.owner=t then h.again+1 else 0

theorem owned_exclusive {t u:ℕ} {m:Option Hold} (ht:0 < owned t m) (hu:0 < owned u m) : t=u := by
 cases m with
 | none=>cases ht
 | some h=>grind [owned]

theorem owned_lock {t u:ℕ} {m m':Option Hold} (h:lock t m=some m') (room:owned t m < 2^32) :
 owned u m'=if u=t then owned t m+1 else owned u m := by
 cases m with
 | none=>
  cases h
  grind [owned]
 | some hold=>grind [lock,owned]

theorem owned_tryUnlock {t u:ℕ} {m m':Option Hold} (h:tryUnlock t m=some m') :
 owned u m'=if u=t then owned t m-1 else owned u m := by
 cases m with
 | none=>cases h
 | some hold=>grind [tryUnlock,owned]

theorem tryUnlock_isSome {t:ℕ} {m:Option Hold} (h:0 < owned t m) : (tryUnlock t m).isSome := by
 cases m with
 | none=>cases h
 | some hold=>grind [owned,tryUnlock]

end ObjcRuntime.RecursiveMutex
