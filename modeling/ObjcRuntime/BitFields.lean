import Mathlib

/-!
# Fields of machine words

Masks, shifts and or-ed fields read as arithmetic on the word's value.
-/

set_option autoImplicit false
namespace ObjcRuntime.BitFields

theorem and_field (n k m:ℕ) : n &&& ((2^m-1)*2^k)=n / 2^k % 2^m*2^k := by
 apply Nat.eq_of_testBit_eq
 grind

theorem or_low {k b:ℕ} (a:ℕ) (hb:b<2^k) : a*2^k ||| b=a*2^k+b := by
 rw [Nat.mul_comm,Nat.two_pow_add_eq_or_of_lt hb]

theorem and_bit_eq_zero {n:ℕ} (x:BitVec n) {i:ℕ} (hi:i < n) :
 x &&& (1#n <<< i)=0 ↔ x.getLsbD i=false := by
 rw [←BitVec.twoPow_eq,BitVec.and_twoPow]
 cases x.getLsbD i with
 | true=>
  simp only [if_true,Bool.true_eq_false,iff_false]
  intro hzero
  have hbit:=congrArg (fun y=>BitVec.getLsbD y i) hzero
  simp [hi] at hbit
 | false=>simp

theorem and_eq_mask_iff {n:ℕ} (x mask:BitVec n) :
 x &&& mask=mask ↔ ∀i < n,mask.getLsbD i=true → x.getLsbD i=true := by
 constructor
 · grind
 · grind

theorem or_and_distrib_right {n:ℕ} (x y z:BitVec n) :
 (x ||| y) &&& z=x &&& z ||| y &&& z := by grind

theorem getLsbD_iff {n:ℕ} (x:BitVec n) (i:ℕ) : x.getLsbD i=true ↔ x.toNat / 2^i % 2=1 := by
 rw [BitVec.getLsbD,Nat.testBit_eq_decide_div_mod_eq,decide_eq_true_eq]

end ObjcRuntime.BitFields
