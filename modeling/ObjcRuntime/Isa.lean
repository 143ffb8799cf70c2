import ObjcRuntime.AtomicPrograms

set_option autoImplicit false
namespace ObjcRuntime.Isa

/-- A `size_t` or `uintptr_t` of the LP64 targets. -/
abbrev Size := BitVec 64

/-- `__builtin_addcl` with no carry in: the wrapped sum and the carry out. -/
def addc (lhs rhs:Size) : Size × Bool := (lhs+rhs,decide (2^64 ≤ lhs.toNat+rhs.toNat))

/-- `__builtin_subcl` with no borrow in: the wrapped difference and the borrow out. -/
def subc (lhs rhs:Size) : Size × Bool := (lhs-rhs,decide (lhs.toNat < rhs.toNat))

/-- The packed `ISA_BITFIELD` layouts: signed pointers (also the simulator), plain arm64
    and x86_64. -/
inductive Layout where
 | arm64e | arm64 | x86_64
 deriving DecidableEq,Repr

namespace Layout

/-- Width of `shiftcls`, called `shiftcls_and_sig` where class pointers are signed. -/
def clsBits : Layout → ℕ
 | .arm64e=>52
 | .arm64=>33
 | .x86_64=>44

def cxxDtorBits : Layout → ℕ
 | .arm64e=>0
 | .arm64 | .x86_64=>1

def magicBits : Layout → ℕ
 | .arm64e=>0
 | .arm64 | .x86_64=>6

def unusedBits : Layout → ℕ
 | .arm64e=>0
 | .arm64 | .x86_64=>1

def magicValue : Layout → ℕ
 | .arm64e=>0
 | .arm64=>0x1a
 | .x86_64=>0x3b

def rcBits : Layout → ℕ
 | .arm64e | .x86_64=>8
 | .arm64=>19

/-- `RC_HALF`, the high bit of `extra_rc`. -/
def rcHalf (L:Layout) : ℕ := 2^(L.rcBits-1)

def rcOne (L:Layout) : Size := BitVec.ofNat 64 (2^(64-L.rcBits))

theorem rcHalf_bounds (L:Layout) : 128 ≤ L.rcHalf ∧ L.rcHalf≤2^18 := by
 cases L <;> decide

theorem rcRange (L:Layout) : 2^L.rcBits=2*L.rcHalf := by
 cases L <;> decide

end Layout

/-- `isa_t` read through its bit-field. Each field has the width the layout gives it;
    a layout without a field gives it width zero. -/
@[ext] structure Word (L:Layout) where
 nonpointer : Bool
 hasAssoc : Bool
 hasCxxDtor : Fin (2^L.cxxDtorBits)
 shiftcls : Fin (2^L.clsBits)
 magic : Fin (2^L.magicBits)
 weaklyReferenced : Bool
 unused : Fin (2^L.unusedBits)
 hasSidetableRc : Bool
 extraRc : Fin (2^L.rcBits)
 deriving DecidableEq

variable {L:Layout}

/-- Everything below `extra_rc`, at the bit positions of isa.h. -/
def Word.lowBits : {L:Layout} → Word L → ℕ
 | .arm64e,w=>w.nonpointer.toNat+2*w.hasAssoc.toNat+4*w.weaklyReferenced.toNat +
  8*w.shiftcls.val+2^55*w.hasSidetableRc.toNat
 | .arm64,w=>w.nonpointer.toNat+2*w.hasAssoc.toNat+4*w.hasCxxDtor.val +
  8*w.shiftcls.val+2^36*w.magic.val+2^42*w.weaklyReferenced.toNat +
  2^43*w.unused.val+2^44*w.hasSidetableRc.toNat
 | .x86_64,w=>w.nonpointer.toNat+2*w.hasAssoc.toNat+4*w.hasCxxDtor.val +
  8*w.shiftcls.val+2^47*w.magic.val+2^53*w.weaklyReferenced.toNat +
  2^54*w.unused.val+2^55*w.hasSidetableRc.toNat

def Word.bits (w:Word L) : Size :=
 BitVec.ofNat 64 (w.lowBits+2^(64-L.rcBits)*w.extraRc.val)

def Word.ofBits : (L:Layout) → Size → Word L
 | .arm64e,b=>
  let n:=b.toNat
  { nonpointer := n % 2 == 1,hasAssoc := n / 2 % 2 == 1,hasCxxDtor := ⟨0,by decide⟩
    shiftcls := ⟨n / 8 % 2^52,Nat.mod_lt _ (by decide)⟩,magic := ⟨0,by decide⟩
    weaklyReferenced := n / 4 % 2 == 1,unused := ⟨0,by decide⟩
    hasSidetableRc := n / 2^55 % 2 == 1
    extraRc := ⟨n / 2^56 % 2^8,Nat.mod_lt _ (by decide)⟩ }
 | .arm64,b=>
  let n:=b.toNat
  { nonpointer := n % 2 == 1,hasAssoc := n / 2 % 2 == 1
    hasCxxDtor := ⟨n / 4 % 2,Nat.mod_lt _ (by decide)⟩
    shiftcls := ⟨n / 8 % 2^33,Nat.mod_lt _ (by decide)⟩
    magic := ⟨n / 2^36 % 2^6,Nat.mod_lt _ (by decide)⟩
    weaklyReferenced := n / 2^42 % 2 == 1
    unused := ⟨n / 2^43 % 2,Nat.mod_lt _ (by decide)⟩
    hasSidetableRc := n / 2^44 % 2 == 1
    extraRc := ⟨n / 2^45 % 2^19,Nat.mod_lt _ (by decide)⟩ }
 | .x86_64,b=>
  let n:=b.toNat
  { nonpointer := n % 2 == 1,hasAssoc := n / 2 % 2 == 1
    hasCxxDtor := ⟨n / 4 % 2,Nat.mod_lt _ (by decide)⟩
    shiftcls := ⟨n / 8 % 2^44,Nat.mod_lt _ (by decide)⟩
    magic := ⟨n / 2^47 % 2^6,Nat.mod_lt _ (by decide)⟩
    weaklyReferenced := n / 2^53 % 2 == 1
    unused := ⟨n / 2^54 % 2,Nat.mod_lt _ (by decide)⟩
    hasSidetableRc := n / 2^55 % 2 == 1
    extraRc := ⟨n / 2^56 % 2^8,Nat.mod_lt _ (by decide)⟩ }

theorem lowBits_lt (w:Word L) : w.lowBits<2^(64-L.rcBits) := by
 have hn:=Bool.toNat_le w.nonpointer
 have ha:=Bool.toNat_le w.hasAssoc
 have hw:=Bool.toNat_le w.weaklyReferenced
 have hs:=Bool.toNat_le w.hasSidetableRc
 cases L with
 | arm64e=>
  have hc:w.shiftcls.val<2^52:=w.shiftcls.isLt
  simp only [Word.lowBits,Layout.rcBits]
  omega
 | arm64=>
  have hd:w.hasCxxDtor.val<2:=w.hasCxxDtor.isLt
  have hc:w.shiftcls.val<2^33:=w.shiftcls.isLt
  have hm:w.magic.val<2^6:=w.magic.isLt
  have hu:w.unused.val<2:=w.unused.isLt
  simp only [Word.lowBits,Layout.rcBits]
  omega
 | x86_64=>
  have hd:w.hasCxxDtor.val<2:=w.hasCxxDtor.isLt
  have hc:w.shiftcls.val<2^44:=w.shiftcls.isLt
  have hm:w.magic.val<2^6:=w.magic.isLt
  have hu:w.unused.val<2:=w.unused.isLt
  simp only [Word.lowBits,Layout.rcBits]
  omega

theorem bits_toNat (w:Word L) : w.bits.toNat=w.lowBits+2^(64-L.rcBits)*w.extraRc.val := by
 have hl:=lowBits_lt w
 have he:=w.extraRc.isLt
 rw [Word.bits,BitVec.toNat_ofNat,Nat.mod_eq_of_lt]
 cases L <;> simp only [Layout.rcBits] at hl he ⊢ <;> omega

private theorem bit_beq {n:ℕ} {b:Bool} (h:n=b.toNat) : (n == 1)=b := by
 subst h
 cases b <;> rfl

theorem ofBits_of_toNat (w:Word L) (x:Fin (2^L.rcBits)) (b:Size)
 (h:b.toNat=w.lowBits+2^(64-L.rcBits)*x.val) :
 Word.ofBits L b = {w with extraRc:=x} := by
 have hn:=Bool.toNat_le w.nonpointer
 have ha:=Bool.toNat_le w.hasAssoc
 have hw:=Bool.toNat_le w.weaklyReferenced
 have hs:=Bool.toNat_le w.hasSidetableRc
 have hx:=x.isLt
 cases L with
 | arm64e=>
  have hc:w.shiftcls.val<2^52:=w.shiftcls.isLt
  simp only [Word.lowBits,Layout.rcBits] at h hx
  ext1 <;> simp only [Word.ofBits]
  · exact bit_beq (by omega)
  · exact bit_beq (by omega)
  · exact Fin.ext (by have:w.hasCxxDtor.val<1 := w.hasCxxDtor.isLt; simp only; omega)
  · exact Fin.ext (by simp only; omega)
  · exact Fin.ext (by have:w.magic.val<1 := w.magic.isLt; simp only; omega)
  · exact bit_beq (by omega)
  · exact Fin.ext (by have:w.unused.val<1 := w.unused.isLt; simp only; omega)
  · exact bit_beq (by omega)
  · exact Fin.ext (by simp only; omega)
 | arm64 | x86_64=>
  have hd:w.hasCxxDtor.val<2:=w.hasCxxDtor.isLt
  have hc:=w.shiftcls.isLt
  have hm:w.magic.val<2^6:=w.magic.isLt
  have hu:w.unused.val<2:=w.unused.isLt
  simp only [Word.lowBits,Layout.rcBits,Layout.clsBits] at h hx hc
  ext1 <;> simp only [Word.ofBits]
  · exact bit_beq (by omega)
  · exact bit_beq (by omega)
  · exact Fin.ext (by simp only; omega)
  · exact Fin.ext (by simp only; omega)
  · exact Fin.ext (by simp only; omega)
  · exact bit_beq (by omega)
  · exact Fin.ext (by simp only; omega)
  · exact bit_beq (by omega)
  · exact Fin.ext (by simp only; omega)

/-- The bit-field and the integer views of the union agree. -/
theorem ofBits_bits (w:Word L) : Word.ofBits L w.bits=w :=
 ofBits_of_toNat w w.extraRc w.bits (bits_toNat w)

theorem beq_one_toNat (n:ℕ) : (n % 2 == 1).toNat=n % 2 := by
 rcases Nat.mod_two_eq_zero_or_one n with h|h <;> rw [h] <;> rfl

theorem bits_ofBits (L:Layout) (b:Size) : (Word.ofBits L b).bits=b := by
 have hb:=b.isLt
 apply BitVec.eq_of_toNat_eq
 rw [bits_toNat]
 cases L <;>
  simp only [Word.lowBits,Word.ofBits,Layout.rcBits,beq_one_toNat] <;> omega

/-- `extra_rc == 0 && has_sidetable_rc == 0`. -/
def Word.isDeallocating (w:Word L) : Bool := w.extraRc.val == 0 && !w.hasSidetableRc

/-- Assignment to the `extra_rc` bit-field, which keeps the low bits of `n`. -/
def Word.setExtraRc (w:Word L) (n:ℕ) : Word L :=
 {w with extraRc:=⟨n % 2^L.rcBits,Nat.mod_lt _ (Nat.two_pow_pos _)⟩}

/-- `newisa.bits = addc(newisa.bits, RC_ONE * n, 0, &carry)`. -/
def Word.addRC (w:Word L) (n:ℕ) : Word L × Bool :=
 let sum:=addc w.bits (L.rcOne*BitVec.ofNat 64 n)
 (Word.ofBits L sum.1,sum.2)

/-- `newisa.bits = subc(newisa.bits, RC_ONE, 0, &carry)`. -/
def Word.subRC (w:Word L) : Word L × Bool :=
 let diff:=subc w.bits L.rcOne
 (Word.ofBits L diff.1,diff.2)

/-- `isa_t::setClass`. A class is named by the bits it puts into the isa. -/
def Word.setClass (w:Word L) (cls:Fin (2^L.clsBits)) : Word L := {w with shiftcls:=cls}

def Word.zero (L:Layout) : Word L := Word.ofBits L 0

theorem cxxDtor_lt (L:Layout) (hasCxxDtor:Bool) :
 hasCxxDtor.toNat % 2^L.cxxDtorBits<2^L.cxxDtorBits := Nat.mod_lt _ (Nat.two_pow_pos _)

/-- `initIsa(cls, true, hasCxxDtor)`: the isa of a fresh object. -/
def Word.init (cls:Fin (2^L.clsBits)) (hasCxxDtor:Bool) : Word L :=
 { (Word.zero L) with
   nonpointer := true
   hasCxxDtor := ⟨hasCxxDtor.toNat % 2^L.cxxDtorBits,cxxDtor_lt L hasCxxDtor⟩
   shiftcls := cls
   magic := ⟨L.magicValue % 2^L.magicBits,Nat.mod_lt _ (Nat.two_pow_pos _)⟩
   extraRc := ⟨1 % 2^L.rcBits,Nat.mod_lt _ (Nat.two_pow_pos _)⟩ }

private theorem rcOne_mul_toNat (L:Layout) (n:ℕ) (hn:n<2^L.rcBits) :
 (L.rcOne*BitVec.ofNat 64 n).toNat=2^(64-L.rcBits)*n := by
 simp only [Layout.rcOne,BitVec.toNat_mul,BitVec.toNat_ofNat]
 cases L <;> simp only [Layout.rcBits] at hn ⊢ <;> omega

/-- Adding to the top field: the carry out of the word is the overflow of `extra_rc`. -/
theorem addRC_eq (w:Word L) (n:ℕ) (hn:n<2^L.rcBits) :
 w.addRC n=(w.setExtraRc (w.extraRc.val+n),decide (2^L.rcBits ≤ w.extraRc.val+n)) := by
 have hb:=bits_toNat w
 have hl:=lowBits_lt w
 have he:=w.extraRc.isLt
 have hr:=rcOne_mul_toNat L n hn
 have h1:(addc w.bits (L.rcOne*BitVec.ofNat 64 n)).1.toNat =
  w.lowBits+2^(64-L.rcBits)*((w.extraRc.val+n) % 2^L.rcBits) := by
  simp only [addc,BitVec.toNat_add,hr,hb]
  cases L <;> simp only [Layout.rcBits] at hl he hn ⊢ <;> omega
 have h2:(addc w.bits (L.rcOne*BitVec.ofNat 64 n)).2=decide (2^L.rcBits ≤ w.extraRc.val+n) := by
  simp only [addc,hr,hb,decide_eq_decide]
  cases L <;> simp only [Layout.rcBits] at hl he hn ⊢ <;> omega
 exact Prod.ext (ofBits_of_toNat w _ _ h1) h2

/-- Taking one from the top field: the borrow out of the word is the underflow of `extra_rc`. -/
theorem subRC_eq (w:Word L) :
 w.subRC=(w.setExtraRc (w.extraRc.val+2^L.rcBits-1),decide (w.extraRc.val=0)) := by
 have hb:=bits_toNat w
 have hl:=lowBits_lt w
 have he:=w.extraRc.isLt
 have hr:L.rcOne.toNat=2^(64-L.rcBits):=by cases L <;> rfl
 have h1:(subc w.bits L.rcOne).1.toNat =
  w.lowBits+2^(64-L.rcBits)*((w.extraRc.val+2^L.rcBits-1) % 2^L.rcBits) := by
  simp only [subc,BitVec.toNat_sub,hr,hb]
  cases L <;> simp only [Layout.rcBits] at hl he ⊢ <;> omega
 have h2:(subc w.bits L.rcOne).2=decide (w.extraRc.val=0):=by
  simp only [subc,hr,hb,decide_eq_decide]
  cases L <;> simp only [Layout.rcBits] at hl he ⊢ <;> omega
 exact Prod.ext (ofBits_of_toNat w _ _ h1) h2

@[simp] theorem setExtraRc_val (w:Word L) (n:ℕ) :
 (w.setExtraRc n).extraRc.val=n % 2^L.rcBits := rfl
@[simp] theorem setExtraRc_nonpointer (w:Word L) (n:ℕ) :
 (w.setExtraRc n).nonpointer=w.nonpointer := rfl
@[simp] theorem setExtraRc_weaklyReferenced (w:Word L) (n:ℕ) :
 (w.setExtraRc n).weaklyReferenced=w.weaklyReferenced := rfl

theorem isDeallocating_iff (w:Word L) :
 w.isDeallocating=true ↔ w.extraRc.val=0 ∧ w.hasSidetableRc=false := by
 simp [Word.isDeallocating]

end ObjcRuntime.Isa
