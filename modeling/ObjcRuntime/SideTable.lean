import ObjcRuntime.Isa

/-!
# Retain counts in the side table

Every operation is the locked body of the `objc_object::sidetable_*` function of the same name, on
this object's entry of `table.refcnts` (`none` when there is none): the count above two flag bits.
-/
set_option autoImplicit false
namespace ObjcRuntime.SideTable
open Isa

abbrev Entry := Option Size

def weaklyReferencedFlag : Size := 1#64 <<< 0
def deallocatingFlag : Size := 1#64 <<< 1
def rcOne : Size := 1#64 <<< 2
def rcPinned : Size := 1#64 <<< 63
def rcShift : ℕ := 2
def flagMask : Size := rcOne-1

structure Borrow where
 borrowed : Size
 remaining : Size
 deriving DecidableEq

/-- `table.refcnts[this]`, which inserts a zero. -/
def refcnt (e:Entry) : Size := e.getD 0

def isPinned (w:Size) : Bool := w &&& rcPinned != 0

def sidetableMoveExtraRCNolock (extraRc:Size) (isDeallocating weaklyReferenced:Bool)
 (e:Entry) : Entry × Unit :=
 let oldRefcnt:=refcnt e
 let sum:=addc oldRefcnt ((extraRc-1) <<< rcShift)
 let refcnt:=if sum.2 then rcPinned else sum.1
 let refcnt:=if isDeallocating then refcnt ||| deallocatingFlag else refcnt
 let refcnt:=if weaklyReferenced then refcnt ||| weaklyReferencedFlag else refcnt
 (some refcnt,())

/-- Returns true if the object is now pinned. -/
def sidetableAddExtraRCNolock (deltaRc:Size) (e:Entry) : Entry × Bool :=
 let oldRefcnt:=refcnt e
 if isPinned oldRefcnt then (some oldRefcnt,true)
 else
  let sum:=addc oldRefcnt (deltaRc <<< rcShift)
  if sum.2 then (some (rcPinned ||| (oldRefcnt &&& flagMask)),true) else (some sum.1,false)

/-- Returns the count taken, which is all of `deltaRc` unless the count is zero. -/
def sidetableSubExtraRCNolock (deltaRc:Size) : Entry → Entry × Borrow
 | none=>(none,⟨0,0⟩)
 | some oldRefcnt=>
  if oldRefcnt=0 then (some oldRefcnt,⟨0,0⟩)
  else
   let newRefcnt:=oldRefcnt-(deltaRc <<< rcShift)
   (some newRefcnt,⟨deltaRc,newRefcnt >>> rcShift⟩)

def sidetableGetExtraRCNolock (e:Entry) : Size := refcnt e >>> rcShift

def sidetableClearExtraRCNolock (_:Entry) : Entry × Unit := (none,())

def sidetableRetain (e:Entry) : Entry × Unit :=
 let refcnt:=refcnt e
 (some (if isPinned refcnt then refcnt else refcnt+rcOne),())

def sidetableTryRetain : Entry → Entry × Bool
 | none=>(some rcOne,true)
 | some refcnt=>
  if refcnt &&& deallocatingFlag != 0 then (some refcnt,false)
  else if isPinned refcnt then (some refcnt,true)
  else (some (refcnt+rcOne),true)

def sidetableRetainCount (e:Entry) : Size := 1+refcnt e >>> rcShift

def sidetableIsDeallocating (e:Entry) : Bool := refcnt e &&& deallocatingFlag != 0

def sidetableIsWeaklyReferenced (e:Entry) : Bool := refcnt e &&& weaklyReferencedFlag != 0

def sidetableSetWeaklyReferencedNolock (e:Entry) : Entry × Unit :=
 (some (refcnt e ||| weaklyReferencedFlag),())

/-- Returns true if this release started deallocation. -/
def sidetableRelease : Entry → Entry × Bool
 | none=>(some deallocatingFlag,true)
 | some refcnt=>
  if refcnt < deallocatingFlag then (some (refcnt ||| deallocatingFlag),true)
  else if isPinned refcnt then (some refcnt,false)
  else (some (refcnt-rcOne),false)

def count (e:Entry) : ℕ := (refcnt e).toNat / 4

def flags (e:Entry) : ℕ := (refcnt e).toNat % 4

/-- `SIDE_TABLE_RC_PINNED >> SIDE_TABLE_RC_SHIFT`: the first count that is pinned. -/
def saturation : ℕ := 2^61

theorem rcHalf_dvd (L:Layout) : L.rcHalf ∣ saturation := by
 cases L <;> decide

theorem rcHalf_lt (L:Layout) : L.rcHalf < saturation := by
 cases L <;> decide

theorem and_bit_ne_zero (w:Size) (i:ℕ) (hi:i<64) :
 (w &&& 1#64 <<< i != 0)=decide (w.toNat / 2^i % 2=1) := by
 have h:(w &&& 1#64 <<< i).toNat=(w.toNat.testBit i).toNat*2^i:=by
  rw [BitVec.toNat_and,BitVec.toNat_shiftLeft,BitVec.toNat_ofNat,Nat.shiftLeft_eq,
   Nat.one_mod_two_pow_eq_one.mpr (by omega),one_mul,
   Nat.mod_eq_of_lt (Nat.pow_lt_pow_right (by omega) hi),Nat.and_two_pow]
 have hz:(w &&& 1#64 <<< i)=0 ↔ w.toNat.testBit i=false:=by
  rw [←BitVec.toNat_inj,h]
  cases w.toNat.testBit i <;> simp
 rw [bne,Bool.not_eq_eq_eq_not,←Nat.testBit_eq_decide_div_mod_eq]
 rw [Bool.eq_iff_iff,beq_iff_eq,hz]
 cases w.toNat.testBit i <;> simp

theorem isPinned_eq (w:Size) : isPinned w=decide (2^63 ≤ w.toNat) := by
 rw [isPinned,rcPinned,and_bit_ne_zero w 63 (by omega),decide_eq_decide]
 have:=w.isLt
 omega

theorem deallocating_bit (w:Size) : (w &&& deallocatingFlag != 0)=decide (w.toNat / 2 % 2=1) := by
 have h:=and_bit_ne_zero w 1 (by omega)
 rwa [pow_one] at h

theorem weak_bit (w:Size) : (w &&& weaklyReferencedFlag != 0)=decide (w.toNat % 2=1) := by
 have h:=and_bit_ne_zero w 0 (by omega)
 rwa [pow_zero,Nat.div_one] at h

theorem or_bit_toNat (w:Size) (i:ℕ) (hi:i<64) :
 (w ||| 1#64 <<< i).toNat=if w.toNat / 2^i % 2=1 then w.toNat else w.toNat+2^i := by
 have hone:(1#64 <<< i).toNat=2^i:=by
  rw [BitVec.toNat_shiftLeft,BitVec.toNat_ofNat,Nat.shiftLeft_eq,
   Nat.one_mod_two_pow_eq_one.mpr (by omega),one_mul,
   Nat.mod_eq_of_lt (Nat.pow_lt_pow_right (by omega) hi)]
 have hb:=and_bit_ne_zero w i hi
 split_ifs with h
 · have ht:w.toNat.testBit i=true:=by rw [Nat.testBit_eq_decide_div_mod_eq]; simpa using h
   rw [BitVec.toNat_or,hone]
   refine Nat.eq_of_testBit_eq fun j=>?_
   rw [Nat.testBit_or,Nat.testBit_two_pow]
   by_cases hj : i=j
   · subst j; simp [ht]
   · simp [hj]
 · rw [decide_eq_false h,bne_eq_false_iff_eq] at hb
   rw [←BitVec.add_eq_or_of_and_eq_zero _ _ hb,BitVec.toNat_add_of_and_eq_zero hb,hone]

theorem refcnt_toNat (e:Entry) : (refcnt e).toNat=4*count e+flags e := by
 unfold count flags
 omega

theorem flags_lt (e:Entry) : flags e<4 := Nat.mod_lt _ (by omega)

theorem count_lt (e:Entry) : count e<2^62 := by
 have:=(refcnt e).isLt
 unfold count
 omega

theorem sidetableRetainCount_toNat (e:Entry) : (sidetableRetainCount e).toNat=count e+1 := by
 have:=count_lt e
 rw [sidetableRetainCount,BitVec.toNat_add,BitVec.toNat_ushiftRight,Nat.shiftRight_eq_div_pow]
 change (1+count e) % 2^64=_
 omega

@[simp] theorem refcnt_some (w:Size) : refcnt (some w)=w := rfl
@[simp] theorem refcnt_none : refcnt none=0 := rfl

theorem count_flags_of_toNat {e:Entry} {c f:ℕ} (h:(refcnt e).toNat=4*c+f)
 (hf:f<4) : count e=c ∧ flags e=f := by
 unfold count flags
 omega

theorem shifted_toNat (n:ℕ) (h:n<2^62) : (BitVec.ofNat 64 n <<< rcShift).toNat=4*n := by
 rw [rcShift,BitVec.toNat_shiftLeft,BitVec.toNat_ofNat,Nat.shiftLeft_eq]
 omega

theorem isPinned_refcnt (e:Entry) : isPinned (refcnt e)=decide (saturation ≤ count e) := by
 have h:=refcnt_toNat e
 have hf:=flags_lt e
 rw [isPinned_eq,decide_eq_decide,saturation]
 omega

theorem sidetableIsDeallocating_eq (e:Entry) : sidetableIsDeallocating e=decide (2 ≤ flags e) := by
 have h:=refcnt_toNat e
 have hf:=flags_lt e
 rw [sidetableIsDeallocating,deallocating_bit,decide_eq_decide]
 omega

theorem sidetableIsWeaklyReferenced_eq (e:Entry) :
 sidetableIsWeaklyReferenced e=decide (flags e % 2=1) := by
 have h:=refcnt_toNat e
 rw [sidetableIsWeaklyReferenced,weak_bit,decide_eq_decide]
 omega

/-- Below saturation the side table takes the whole delta, unless the word overflows. -/
theorem addExtraRC_spec (n:ℕ) (e:Entry) (hn:n < saturation) (h:count e < saturation) :
 count (sidetableAddExtraRCNolock (BitVec.ofNat 64 n) e).1=count e+n ∧
  flags (sidetableAddExtraRCNolock (BitVec.ofNat 64 n) e).1=flags e := by
 have hw:=refcnt_toNat e
 have hf:=flags_lt e
 have hp:isPinned (refcnt e)=false:=by
  rw [isPinned_refcnt,decide_eq_false]
  omega
 unfold saturation at h hn
 have hs:=shifted_toNat n (by omega)
 have hc:(addc (refcnt e) (BitVec.ofNat 64 n <<< rcShift)).2=false:=by
  rw [addc,hs,decide_eq_false]
  omega
 apply count_flags_of_toNat _ hf
 simp only [sidetableAddExtraRCNolock,hp,hc,Bool.false_eq_true,↓reduceIte,refcnt_some]
 rw [addc,BitVec.toNat_add,hs]
 omega

theorem subExtraRC_spec (n:ℕ) (e:Entry) (hn:0 < n) (h:n ≤ count e) :
 count (sidetableSubExtraRCNolock (BitVec.ofNat 64 n) e).1=count e-n ∧
  flags (sidetableSubExtraRCNolock (BitVec.ofNat 64 n) e).1=flags e ∧
  (sidetableSubExtraRCNolock (BitVec.ofNat 64 n) e).2 =
   ⟨BitVec.ofNat 64 n,BitVec.ofNat 64 (count e-n)⟩ := by
 have hw:=refcnt_toNat e
 have hf:=flags_lt e
 have hl:=count_lt e
 have hs:=shifted_toNat n (by omega)
 cases e with
 | none=>simp [count] at h; omega
 | some w=>
  rw [refcnt_some] at hw
  have hz:w≠0:=by
   rintro rfl
   rw [show BitVec.toNat (0 : Size)=0 from rfl] at hw
   omega
  have hd:(w-BitVec.ofNat 64 n <<< rcShift).toNat=4*(count (some w)-n)+flags (some w) := by
   rw [BitVec.toNat_sub,hs]
   omega
  simp only [sidetableSubExtraRCNolock,hz,↓reduceIte]
  refine ⟨(count_flags_of_toNat (by rwa [refcnt_some]) hf).1,
   (count_flags_of_toNat (by rwa [refcnt_some]) hf).2,?_⟩
  congr 1
  apply BitVec.eq_of_toNat_eq
  rw [BitVec.toNat_ushiftRight,hd,Nat.shiftRight_eq_div_pow,rcShift,BitVec.toNat_ofNat]
  omega

theorem rcOne_toNat : rcOne.toNat=4 := by decide

theorem retain_spec (e:Entry) (h:count e < saturation) :
 count (sidetableRetain e).1=count e+1 ∧ flags (sidetableRetain e).1=flags e := by
 have hw:=refcnt_toNat e
 have hf:=flags_lt e
 have hp:isPinned (refcnt e)=false:=by
  rw [isPinned_refcnt,decide_eq_false]
  omega
 unfold saturation at h
 apply count_flags_of_toNat _ hf
 simp only [sidetableRetain,hp,Bool.false_eq_true,↓reduceIte,refcnt_some]
 rw [BitVec.toNat_add,rcOne_toNat]
 omega

theorem tryRetain_deallocating (e:Entry) (h:2 ≤ flags e) : sidetableTryRetain e=(e,false) := by
 cases e with
 | none=>simp [flags] at h
 | some w=>
  have hd:=sidetableIsDeallocating_eq (some w)
  rw [decide_eq_true h,sidetableIsDeallocating,refcnt_some] at hd
  simp only [sidetableTryRetain,hd,↓reduceIte]

theorem tryRetain_spec (e:Entry) (h:flags e<2) (hs:count e < saturation) :
 count (sidetableTryRetain e).1=count e+1 ∧ flags (sidetableTryRetain e).1=flags e ∧
  (sidetableTryRetain e).2=true := by
 cases e with
 | none=>exact ⟨by decide,by decide,rfl⟩
 | some w=>
  have hr:=retain_spec (some w) hs
  have hd:=sidetableIsDeallocating_eq (some w)
  rw [decide_eq_false (by omega),sidetableIsDeallocating,refcnt_some] at hd
  have hp:isPinned w=false:=by
   have:=isPinned_refcnt (some w)
   rw [decide_eq_false (by omega)] at this
   exact this
  simp only [sidetableRetain,refcnt_some,hp,Bool.false_eq_true,↓reduceIte] at hr
  simpa only [sidetableTryRetain,hd,hp,Bool.false_eq_true,↓reduceIte,and_true] using hr

theorem release_last (e:Entry) (hc:count e=0) (hf:flags e<2) :
 count (sidetableRelease e).1=0 ∧ flags (sidetableRelease e).1=flags e+2 ∧
  (sidetableRelease e).2=true := by
 have hw:=refcnt_toNat e
 cases e with
 | none=>exact ⟨by decide,by decide,rfl⟩
 | some w=>
  rw [refcnt_some] at hw
  have hl:w < deallocatingFlag:=by
   rw [BitVec.lt_def]
   change w.toNat<2
   omega
  have ho:=or_bit_toNat w 1 (by omega)
  rw [if_neg (by omega)] at ho
  have:=count_flags_of_toNat (e:=some (w ||| deallocatingFlag)) (c:=0)
   (f:=flags (some w)+2) (by rw [refcnt_some]; change (w ||| 1#64 <<< 1).toNat=_; omega)
   (by omega)
  simpa [sidetableRelease,hl] using this

theorem release_spec (e:Entry) (hc:0 < count e) (hs:count e < saturation) :
 count (sidetableRelease e).1=count e-1 ∧ flags (sidetableRelease e).1=flags e ∧
  (sidetableRelease e).2=false := by
 have hw:=refcnt_toNat e
 have hf:=flags_lt e
 cases e with
 | none=>simp [count] at hc
 | some w=>
  have hp:isPinned w=false:=by
   have:=isPinned_refcnt (some w)
   rw [decide_eq_false (by omega)] at this
   exact this
  rw [refcnt_some] at hw
  have hl:¬ w < deallocatingFlag:=by
   rw [BitVec.lt_def]
   change ¬ w.toNat<2
   omega
  have hm:(w-rcOne).toNat=4*(count (some w)-1)+flags (some w):=by
   rw [BitVec.toNat_sub,rcOne_toNat]
   omega
  have:=count_flags_of_toNat (e:=some (w-rcOne)) (by rwa [refcnt_some]) hf
  simpa [sidetableRelease,hl,hp] using this

theorem clearExtraRC_spec (e:Entry) :
 count (sidetableClearExtraRCNolock e).1=0 ∧ flags (sidetableClearExtraRCNolock e).1=0 := by
 change count none=0 ∧ flags none=0
 decide

theorem or_flag_spec {w:Size} (b:Bool) (i:ℕ) (hi:i<2) (h:w.toNat / 2^i % 2=0) :
 (if b then w ||| 1#64 <<< i else w).toNat=w.toNat+b.toNat*2^i := by
 cases b with
 | false=>simp
 | true=>
  have ho:=or_bit_toNat w i (by omega)
  rw [if_neg (by omega)] at ho
  simpa using ho

/-- Moving a positive inline count: the entry holds one less than the total, because a
    raw isa counts its first reference implicitly. -/
theorem moveExtraRC_spec (n:ℕ) (d k:Bool) (e:Entry) (hn:0 < n) (hf:flags e=0)
 (h:count e+n-1<2^62) :
 count (sidetableMoveExtraRCNolock (BitVec.ofNat 64 n) d k e).1=count e+n-1 ∧
  flags (sidetableMoveExtraRCNolock (BitVec.ofNat 64 n) d k e).1=2*d.toNat+k.toNat := by
 have hw:=refcnt_toNat e
 have hone:BitVec.ofNat 64 n-1=BitVec.ofNat 64 (n-1):=by
  apply BitVec.eq_of_toNat_eq
  rw [BitVec.toNat_sub,BitVec.toNat_ofNat,BitVec.toNat_ofNat,
   show BitVec.toNat (1 : Size)=1 from rfl]
  omega
 have hs:=shifted_toNat (n-1) (by omega)
 have hc:(addc (refcnt e) (BitVec.ofNat 64 (n-1) <<< rcShift)).2=false:=by
  rw [addc,hs,decide_eq_false]
  omega
 have hsum:(addc (refcnt e) (BitVec.ofNat 64 (n-1) <<< rcShift)).1.toNat=4*(count e+n-1) := by
  rw [addc,BitVec.toNat_add,hs]
  omega
 have hd:=or_flag_spec (w:=(addc (refcnt e) (BitVec.ofNat 64 (n-1) <<< rcShift)).1) d 1
  (by omega) (by rw [hsum]; omega)
 have hb:=Bool.toNat_le d
 have hk':=Bool.toNat_le k
 have hk:=or_flag_spec (w:=if d then
  (addc (refcnt e) (BitVec.ofNat 64 (n-1) <<< rcShift)).1 ||| 1#64 <<< 1
  else (addc (refcnt e) (BitVec.ofNat 64 (n-1) <<< rcShift)).1) k 0
  (by omega) (by rw [hd,hsum]; omega)
 apply count_flags_of_toNat _ (by omega)
 simp only [sidetableMoveExtraRCNolock,hone,hc,Bool.false_eq_true,↓reduceIte,refcnt_some]
 refine Eq.trans (hk.trans ?_) rfl
 rw [hd,hsum]
 omega

theorem addExtraRC_pinned (n:Size) (e:Entry) (h:saturation ≤ count e) :
 count (sidetableAddExtraRCNolock n e).1=count e ∧
  flags (sidetableAddExtraRCNolock n e).1=flags e := by
 have hp:isPinned (refcnt e)=true:=by
  rw [isPinned_refcnt,decide_eq_true h]
 simp only [sidetableAddExtraRCNolock,hp,↓reduceIte]
 exact ⟨rfl,rfl⟩

/-- Moving a count of zero: `extra_rc - 1` wraps around, and the word ends up pinned
    whether or not the sum carries. -/
theorem moveExtraRC_zero (d k:Bool) (e:Entry) (hf:flags e=0) :
 isPinned (refcnt (sidetableMoveExtraRCNolock (BitVec.ofNat 64 0) d k e).1)=true := by
 have hw:=refcnt_toNat e
 have hs:((BitVec.ofNat 64 0-1) <<< rcShift : Size).toNat=2^64-4:=by decide
 have grows:∀(w:Size) (b:Bool) (i:ℕ),i<64 → 2^63 ≤ w.toNat →
  2^63 ≤ (if b then w ||| 1#64 <<< i else w).toNat := by
  intro w b i hi hw
  cases b with
  | false=>exact hw
  | true=>
   have ho:=or_bit_toNat w i hi
   simp only [↓reduceIte]
   rw [ho]
   split_ifs
   · exact hw
   · exact hw.trans (Nat.le_add_right _ _)
 have hbase:2^63 ≤ (if (addc (refcnt e) ((BitVec.ofNat 64 0-1) <<< rcShift)).2 then rcPinned
  else (addc (refcnt e) ((BitVec.ofNat 64 0-1) <<< rcShift)).1).toNat := by
  split_ifs with hc
  · decide
  · simp only [addc,hs,decide_eq_true_eq,not_le] at hc ⊢
    rw [BitVec.toNat_add,hs]
    omega
 rw [isPinned_eq,decide_eq_true_eq]
 exact grows _ k 0 (by omega) (grows _ d 1 (by omega) hbase)

end ObjcRuntime.SideTable
