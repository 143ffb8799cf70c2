import Mathlib

/-!
LEB128 numbers in the exception tables. The shifted bits are an `int`, extended with its sign to 64
bits; the shift is not defined from 32 on.
-/

set_option autoImplicit false
namespace ObjcRuntime.LebNumbers

/-- `(byte & 0x7f) << shift`, converted to `uintptr_t`; `none` when it is not defined. -/
def chunk (byte shift:ℕ) : Option ℕ :=
 if shift < 32 then
  let n:=((byte &&& 0x7f) <<< shift) % 2^32
  some (if n < 2^31 then n else n+(2^64-2^32))
 else none

structure Read where
 result : ℕ
 shift : ℕ
 byte : ℕ
 rest : List ℕ

def readBytes : List ℕ → ℕ → ℕ → Option Read
 | [],_,_=>none
 | byte::rest,result,shift=>
  (chunk byte shift).bind fun c=>
   if byte &&& 0x80≠0 then readBytes rest (result ||| c) (shift+7)
   else some ⟨result ||| c,shift+7,byte,rest⟩

def readUleb (bytes:List ℕ) : Option (ℕ × List ℕ) :=
 (readBytes bytes 0 0).map fun r=>(r.result,r.rest)

def signed (n:ℕ) : ℤ := if n < 2^63 then n else n-2^64

/-- With the bits of the sign above the last byte. -/
def Read.extended (r:Read) : ℕ :=
 if r.shift < 64 ∧ r.byte &&& 0x40≠0 then r.result ||| (2^64-2^r.shift) else r.result

def readSleb (bytes:List ℕ) : Option (ℤ × List ℕ) :=
 (readBytes bytes 0 0).map fun r=>(signed r.extended,r.rest)

/-- The number that bytes stand for, seven bits of each, lowest first. -/
def value : List ℕ → ℕ
 | []=>0
 | b::bs=>b % 128+128*value bs

/-- The same with the sign that the last byte has. -/
def signedValue (init:List ℕ) (last:ℕ) : ℤ :=
 value (init++[last])-if 64 ≤ last then ((2^(7*init.length+7):ℕ):ℤ) else 0

/-- All bytes but the last have the bit that says that there are more. -/
structure Encoding (init:List ℕ) (last:ℕ) : Prop where
 more : ∀b∈init,128 ≤ b ∧ b < 256
 last : last < 128

section Reading

theorem seven_bits (b:ℕ) : b &&& 0x7f=b % 128 := Nat.and_two_pow_sub_one_eq_mod b 7

theorem high_bit {b:ℕ} (h:b < 256) : b &&& 0x80≠0 ↔ 128 ≤ b :=
 (by decide +kernel : ∀b < 256,b &&& 0x80≠0 ↔ 128 ≤ b) b h

theorem sign_bit {b:ℕ} (h:b < 128) : b &&& 0x40≠0 ↔ 64 ≤ b :=
 (by decide +kernel : ∀b < 128,b &&& 0x40≠0 ↔ 64 ≤ b) b h

theorem or_shifted {a s:ℕ} (h:a < 2^s) (b:ℕ) : a ||| 2^s*b=a+2^s*b := by
 rw [Nat.or_comm,←Nat.two_pow_add_eq_or_of_lt h,Nat.add_comm]

theorem chunk_small (b:ℕ) {s:ℕ} (h:s≤21) : chunk b s=some (2^s*(b % 128)) := by
 have pow:2^s≤2^21:=Nat.pow_le_pow_right (by decide) h
 have small:2^s*(b % 128)≤2^21*127:=Nat.mul_le_mul pow (by omega)
 rw [chunk,if_pos (by omega),seven_bits,Nat.shiftLeft_eq,Nat.mul_comm]
 dsimp only
 rw [Nat.mod_eq_of_lt (by omega),if_pos (by omega)]

theorem pow_seven (n:ℕ) : 2^(7*(n+1))=128*2^(7*n) := by
 rw [Nat.mul_add,Nat.pow_add]
 omega

theorem value_lt (bs:List ℕ) : value bs < 2^(7*bs.length) := by
 induction bs with
 | nil=>exact Nat.one_pos
 | cons b bs ih=>
  rw [value,List.length_cons,pow_seven]
  omega

theorem value_append (bs cs:List ℕ) : value (bs++cs)=value bs+2^(7*bs.length)*value cs := by
 induction bs with
 | nil=>simp [value]
 | cons b bs ih=>
  rw [List.cons_append,value,value,ih,List.length_cons,pow_seven,Nat.mul_add,Nat.mul_assoc,
   Nat.add_assoc]

/-- The bytes whose bits come to lie below bit 28 are read as they should. -/
theorem readBytes_append {bs:List ℕ} (more:∀b∈bs,128 ≤ b ∧ b < 256) (tail:List ℕ) (a s:ℕ)
 (ha:a < 2^s) (low:s+7*bs.length≤28) :
 readBytes (bs++tail) a s=readBytes tail (a+2^s*value bs) (s+7*bs.length) := by
 induction bs generalizing a s with
 | nil=>simp [value]
 | cons b bs ih=>
  obtain ⟨hb,more⟩:=List.forall_mem_cons.mp more
  rw [List.length_cons] at low
  rw [List.cons_append,readBytes,chunk_small b (by omega),Option.bind_some,
   if_pos ((high_bit hb.2).mpr hb.1),or_shifted ha]
  have pow:2^(s+7)=2^s*128:=Nat.pow_add 2 s 7
  have digit:2^s*(b % 128)≤2^s*127:=Nat.mul_le_mul_left _ (by omega)
  rw [ih more _ _ (by omega) (by omega),value,pow,Nat.mul_add,Nat.mul_assoc,List.length_cons,
   Nat.add_assoc,Nat.add_assoc s,Nat.mul_add,Nat.add_comm 7]

variable {init:List ℕ} {last:ℕ} (enc:Encoding init last) (rest:List ℕ)
include enc

theorem readBytes_last {x:ℕ} (low:init.length≤4)
 (top:chunk last (7*init.length)=some (2^(7*init.length)*x)) :
 readBytes (init++last::rest) 0 0 =
  some ⟨value init+2^(7*init.length)*x,7*init.length+7,last,rest⟩ := by
 have last_:¬ last &&& 0x80≠0:=by
  rw [high_bit (by have := enc.last; omega)]
  exact Nat.not_le.mpr enc.last
 rw [readBytes_append enc.more _ 0 0 Nat.one_pos (by omega),Nat.pow_zero,Nat.one_mul,Nat.zero_add,
  Nat.zero_add,readBytes,top,Option.bind_some,if_neg last_,or_shifted (value_lt init)]

theorem readBytes_short (low:init.length≤3) : readBytes (init++last::rest) 0 0 =
  some ⟨value (init++[last]),7*init.length+7,last,rest⟩ := by
 rw [readBytes_last enc rest (by omega) (chunk_small last (by omega)),value_append]
 simp [value]

def top (last:ℕ) : ℕ := if last % 16 < 8 then last % 16 else last % 16+(2^36-2^4)

theorem readBytes_five (five:init.length=4) :
 readBytes (init++last::rest) 0 0=some ⟨value init+2^28*top last,35,last,rest⟩ := by
 have fifth:chunk last 28=some (2^28*top last):=by
  have:=enc.last
  rw [chunk,if_pos (by decide),seven_bits,Nat.shiftLeft_eq,top]
  dsimp only
  split <;> split <;> simp only [Option.some.injEq] <;> omega
 have read:=readBytes_last enc rest (x:=top last) (by omega) (by rw [five]; exact fifth)
 rwa [five] at read

theorem readBytes_long (long:5 ≤ init.length) : readBytes (init++last::rest) 0 0=none := by
 obtain ⟨four,more,rfl,length⟩ : ∃four more,init=four++more ∧ four.length=4 :=
  ⟨init.take 4,init.drop 4,(List.take_append_drop 4 init).symm,by simp; omega⟩
 rw [List.length_append] at long
 obtain ⟨b,more,rfl⟩:=List.exists_cons_of_length_pos (by omega : 0 < more.length)
 have bytes:=enc.more
 rw [List.append_assoc,readBytes_append (fun x hx=>bytes x (by simp [hx])) _ 0 0 Nat.one_pos
  (by omega),length,List.cons_append,readBytes]
 have hb:=bytes b (by simp)
 cases chunk b (0+7*4) with
 | none=>rfl
 | some c=>
  rw [Option.bind_some,if_pos ((high_bit hb.2).mpr hb.1)]
  cases more <;> rfl

theorem readUleb_iff : readUleb (init++last::rest)=some (value (init++[last]),rest) ↔
  init.length < 5 ∧ value (init++[last]) < 2^31 := by
 have low:=value_lt (init++[last])
 rw [List.length_append,List.length_singleton] at low
 rcases Nat.lt_trichotomy init.length 4 with short|five|long
 · have pow:2^(7*(init.length+1))≤2^28:=Nat.pow_le_pow_right (by decide) (by omega)
   rw [readUleb,readBytes_short enc rest (by omega)]
   exact iff_of_true rfl ⟨by omega,by omega⟩
 · have whole:=value_append init [last]
   have:=value_lt init
   rw [five] at whole this
   rw [readUleb,readBytes_five enc rest five,whole]
   simp only [value,Option.map_some,Option.some.injEq,Prod.mk.injEq,and_true,top]
   have:=enc.last
   split <;> omega
 · rw [readUleb,readBytes_long enc rest (by omega)]
   exact iff_of_false (by simp) (by omega)

omit enc in
theorem ones {s:ℕ} (hs:s≤64) : 2^64-2^s=2^s*(2^(64-s)-1) := by
 rw [Nat.mul_sub,←Nat.pow_add,Nat.add_sub_cancel' hs,Nat.mul_one]

omit enc in
theorem signed_or {a s:ℕ} (h:a < 2^s) (hs:s < 64) :
 signed (a ||| (2^64-2^s))=(a:ℤ)-((2^s:ℕ):ℤ) := by
 have pow:2^s≤2^63:=Nat.pow_le_pow_right (by decide) (by omega)
 rw [ones (by omega),or_shifted h,←ones (by omega)]
 generalize 2^s=p at *
 rw [signed,if_neg (by omega)]
 omega

omit enc in
theorem or_ones {a:ℕ} (h:a < 2^35) : (a+(2^64-2^35)) ||| (2^64-2^35)=a+(2^64-2^35) := by
 rw [ones (by decide),←or_shifted h,Nat.or_assoc,Nat.or_self]

omit enc in
theorem extended_eq (r:Read) (shift:r.shift < 64) (byte:r.byte < 128) :
 r.extended=if 64 ≤ r.byte then r.result ||| (2^64-2^r.shift) else r.result := by
 simp only [Read.extended,sign_bit byte,shift,true_and]

theorem readSleb_iff : readSleb (init++last::rest)=some (signedValue init last,rest) ↔
  init.length < 5 ∧ -2^31 ≤ signedValue init last ∧ signedValue init last < 2^31 := by
 have small:=enc.last
 have low:=value_lt (init++[last])
 rw [List.length_append,List.length_singleton,Nat.mul_add,Nat.mul_one] at low
 rcases Nat.lt_trichotomy init.length 4 with short|five|long
 · have pow:2^(7*init.length+7)≤2^28:=Nat.pow_le_pow_right (by decide) (by omega)
   rw [readSleb,readBytes_short enc rest (by omega),Option.map_some,
    extended_eq _ (by dsimp only; omega) small,signedValue]
   dsimp only
   split
   · rw [signed_or low (by omega)]
     exact iff_of_true rfl ⟨by omega,by omega,by omega⟩
   · rw [signed,if_pos (by omega),Int.sub_zero]
     exact iff_of_true rfl ⟨by omega,by omega,by omega⟩
 · have whole:=value_append init [last]
   have below:=value_lt init
   rw [five] at whole below
   rw [readSleb,readBytes_five enc rest five,Option.map_some,
    extended_eq _ (by decide : 35 < 64) small,signedValue,five,whole]
   simp only [value,Option.some.injEq,Prod.mk.injEq,and_true,top]
   split
   next neg=>
    split
    · rw [signed_or (by omega) (by decide)]
      omega
    · rw [show value init+2^28*(last % 16+(2^36-2^4)) =
       value init+2^28*(last % 16)+(2^35-2^32)+(2^64-2^35) by omega,or_ones (by omega),signed,
       if_neg (by omega)]
      omega
   next pos=>
    rw [signed]
    split <;> split <;> omega
 · rw [readSleb,readBytes_long enc rest (by omega)]
   exact iff_of_false (by simp) (by omega)

end Reading

theorem leb_exact_iff {init:List ℕ} {last:ℕ} (enc:Encoding init last) (rest:List ℕ) :
 (readUleb (init++last::rest)=some (value (init++[last]),rest) ↔
  init.length < 5 ∧ value (init++[last]) < 2^31) ∧
 (readSleb (init++last::rest)=some (signedValue init last,rest) ↔
  init.length < 5 ∧ -2^31 ≤ signedValue init last ∧ signedValue init last < 2^31) :=
 ⟨readUleb_iff enc rest,readSleb_iff enc rest⟩

theorem two_bytes_exact : readUleb ([0x80]++0x01::[])=some (128,[]) ∧
  readSleb ([0x80]++0x7f::[])=some (-128,[]) :=
 ⟨(leb_exact_iff ⟨by decide,by decide⟩ []).1.mpr ⟨by decide,by decide⟩,
  (leb_exact_iff ⟨by decide,by decide⟩ []).2.mpr ⟨by decide,by decide,by decide⟩⟩

/-- 2³¹ and −2³⁴ in five bytes, and 0 in six. -/
theorem fifth_byte_wrong : Encoding [0x80,0x80,0x80,0x80] 0x08 ∧
  value [0x80,0x80,0x80,0x80,0x08]=2^31 ∧
  readUleb [0x80,0x80,0x80,0x80,0x08]=some (2^64-2^31,[]) ∧
  signedValue [0x80,0x80,0x80,0x80] 0x40=-2^34 ∧
  readSleb [0x80,0x80,0x80,0x80,0x40]=some (-2^35,[]) ∧
  readUleb [0x80,0x80,0x80,0x80,0x80,0x00]=none :=
 ⟨⟨by decide,by decide⟩,rfl,by decide +kernel,by decide +kernel,by decide +kernel,by decide +kernel⟩

end ObjcRuntime.LebNumbers
