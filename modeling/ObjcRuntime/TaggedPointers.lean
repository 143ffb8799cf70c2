import ObjcRuntime.BitFields

/-!
# Tagged pointers

The split layout of arm64: basic tags in the low three bits, extended tags in bits 55 to 62, an
obfuscator over the payload and a shuffled table of basic tags.
-/

set_option autoImplicit false
namespace ObjcRuntime.TaggedPointers
open BitFields

abbrev Word := BitVec 64

def tagMask : Word := 1#64 <<< 63
def tagIndexMask : Word := 0x7
def tagIndexShift : ℕ := 0
def payloadLshift : ℕ := 1
def payloadRshift : ℕ := 4
def extMask : Word := tagMask ||| 0x7
def noObfuscationMask : Word := (1#64 <<< 62) ||| extMask
def extIndexShift : ℕ := 55
def extIndexMask : Word := 0xff
def extPayloadLshift : ℕ := 9
def extPayloadRshift : ℕ := 12

def last60BitPayload : ℕ := 6
def first52BitPayload : ℕ := 8
def last52BitPayload : ℕ := 263
def firstUnobfuscatedSplitTag : ℕ := 136

/-- `objc_debug_taggedpointer_obfuscator` and `objc_debug_tag60_permutations`. -/
structure Obfuscation where
 obfuscator : Word
 permutations : List ℕ
 deriving DecidableEq

section Code

variable (o:Obfuscation)

def basicTagToObfuscatedTag (tag:Word) : Word :=
 BitVec.ofNat 64 (o.permutations.getD tag.toNat 0)

/-- The first of the seven entries that is `tag`, or seven. -/
def obfuscatedTagToBasicTag (tag:Word) : Word :=
 BitVec.ofNat 64 ((o.permutations.take 7).idxOf tag.toNat)

def encodeTaggedPointer (ptr:Word) : Word :=
 let value:=o.obfuscator ^^^ ptr
 if value &&& noObfuscationMask=noObfuscationMask then ptr
 else
  let basicTag:=(value >>> tagIndexShift) &&& tagIndexMask
  let permutedTag:=basicTagToObfuscatedTag o basicTag
  (value &&& ~~~(tagIndexMask <<< tagIndexShift)) ||| (permutedTag <<< tagIndexShift)

def decodeTaggedPointerNoPermute (ptr:Word) : Word :=
 if ptr &&& noObfuscationMask=noObfuscationMask then ptr else ptr ^^^ o.obfuscator

def decodeTaggedPointer (ptr:Word) : Word :=
 let value:=decodeTaggedPointerNoPermute o ptr
 let basicTag:=(value >>> tagIndexShift) &&& tagIndexMask
 (value &&& ~~~(tagIndexMask <<< tagIndexShift)) |||
  (obfuscatedTagToBasicTag o basicTag <<< tagIndexShift)

def makeTaggedPointer (tag:ℕ) (value:Word) : Word :=
 if tag ≤ last60BitPayload then
  encodeTaggedPointer o (tagMask ||| (BitVec.ofNat 64 tag <<< tagIndexShift) |||
   ((value <<< payloadRshift) >>> payloadLshift))
 else
  encodeTaggedPointer o (extMask ||| (BitVec.ofNat 64 (tag-first52BitPayload) <<< extIndexShift) |||
   ((value <<< extPayloadRshift) >>> extPayloadLshift))

def isTaggedPointer (ptr:Word) : Bool := ptr &&& tagMask == tagMask

def getTaggedPointerTag (ptr:Word) : ℕ :=
 let value:=decodeTaggedPointer o ptr
 let basicTag:=(value >>> tagIndexShift) &&& tagIndexMask
 let extTag:=(value >>> extIndexShift) &&& extIndexMask
 if basicTag=tagIndexMask then extTag.toNat+first52BitPayload else basicTag.toNat

def getTaggedPointerValue (ptr:Word) : Word :=
 let value:=decodeTaggedPointerNoPermute o ptr
 let basicTag:=(value >>> tagIndexShift) &&& tagIndexMask
 if basicTag=tagIndexMask then (value <<< extPayloadLshift) >>> extPayloadRshift
 else (value <<< payloadLshift) >>> payloadRshift

def getTaggedPointerSignedValue (ptr:Word) : Word :=
 let value:=decodeTaggedPointerNoPermute o ptr
 let basicTag:=(value >>> tagIndexShift) &&& tagIndexMask
 if basicTag=tagIndexMask then (value <<< extPayloadLshift).sshiftRight extPayloadRshift
 else (value <<< payloadLshift).sshiftRight payloadRshift

inductive Slot where
 | basic (index:ℕ)
 | ext (index:ℕ)
 deriving DecidableEq

def classSlotForBasicTagIndex (tag:ℕ) : Slot :=
 .basic (basicTagToObfuscatedTag o (BitVec.ofNat 64 tag)).toNat

def classSlotForTagIndex (tag:ℕ) : Option Slot :=
 if tag ≤ last60BitPayload then some (classSlotForBasicTagIndex o tag)
 else if first52BitPayload ≤ tag ∧ tag ≤ last52BitPayload then
  let index:=tag-first52BitPayload
  if firstUnobfuscatedSplitTag ≤ tag then some (.ext index)
  else some (.ext (index ^^^ ((o.obfuscator >>> extIndexShift) &&& extIndexMask).toNat))
 else none

end Code

/-- The table entry that an index from `_objc_debug_taggedpointer_classes` leads to: the table of
extended tags lies right before it. -/
def slotOfIndex (i:ℤ) : Slot := if 0 ≤ i then .basic i.toNat else .ext (i+256).toNat

def getTaggedClass (x0:Word) : Slot :=
 let x10:=x0 &&& 0x7
 let x11:=x0.sshiftRight 55
 slotOfIndex (if x10=7 then x11 else x10).toInt

def swap (p:List ℕ) (i j:ℕ) : List ℕ := (p.set i (p.getD j 0)).set j (p.getD i 0)

/-- The loop from `i - 1` down to zero; `uniform i` is what `arc4random_uniform` draws. -/
def shuffle (uniform:ℕ → ℕ) : ℕ → List ℕ → List ℕ
 | 0,p=>p
 | i+1,p=>shuffle uniform i (swap p i (uniform i % (i+1)))

def identityPermutations : List ℕ := [0,1,2,3,4,5,6,7]

def initializeTaggedPointerObfuscator (disable:Bool) (random:Word) (uniform:ℕ → ℕ) : Obfuscation :=
 if !disable then
  ⟨(random &&& ~~~tagMask) &&& ~~~(extMask ||| noObfuscationMask),
    shuffle uniform 7 identityPermutations⟩
 else ⟨0,identityPermutations⟩

structure Shuffled (p:List ℕ) : Prop where
 length : p.length=8
 last : p.getD 7 0=7
 perm : (p.take 7).Perm (List.range 7)

/-- The obfuscator leaves the tag bit, the no-obfuscation bit and the low tag alone. -/
structure Obfuscation.Valid (o:Obfuscation) : Prop where
 low : o.obfuscator.toNat % 8=0
 high : o.obfuscator.toNat<2^62
 shuffled : Shuffled o.permutations

theorem take_swap {p:List ℕ} {i j:ℕ} (hi:i<7) (hj:j<7) :
 (swap p i j).take 7=((p.take 7).set i ((p.take 7).getD j 0)).set j ((p.take 7).getD i 0) := by
 grind [swap,List.take_set]

theorem Shuffled.swap {p:List ℕ} (hp:Shuffled p) {i j:ℕ} (hi:i<7) (hj:j<7) :
 Shuffled (swap p i j) where
 length := by simp [TaggedPointers.swap,hp.length]
 last := by grind [hp.last,TaggedPointers.swap]
 perm := by grind [hp.length,take_swap,hp.perm]

theorem Shuffled.shuffle {uniform:ℕ → ℕ} {n:ℕ} (hn:n≤7) {p:List ℕ} (hp:Shuffled p) :
 Shuffled (shuffle uniform n p) := by
 induction n generalizing p with
 | zero=>exact hp
 | succ n ih=>
  have hlt:uniform n % (n+1) < n+1:=Nat.mod_lt _ (by omega)
  exact ih (by omega) (hp.swap (by omega) (by omega))

theorem identity_shuffled : Shuffled identityPermutations := ⟨rfl,rfl,.refl _⟩

theorem initialize_valid (disable:Bool) (random:Word) (uniform:ℕ → ℕ) :
 (initializeTaggedPointerObfuscator disable random uniform).Valid := by
 cases disable with
 | true=>exact ⟨rfl,Nat.two_pow_pos 62,identity_shuffled⟩
 | false=>
  have hmask:(random &&& ~~~tagMask) &&& ~~~(extMask ||| noObfuscationMask) =
   random &&& BitVec.ofNat 64 ((2^59-1)*2^3) := by
   rw [BitVec.and_assoc]
   congr 1
  have hval:(initializeTaggedPointerObfuscator false random uniform).obfuscator.toNat =
   random.toNat / 2^3 % 2^59*2^3 := by
   change ((random &&& ~~~tagMask) &&& ~~~(extMask ||| noObfuscationMask)).toNat=_
   rw [hmask,BitVec.toNat_and,BitVec.toNat_ofNat,Nat.mod_eq_of_lt (by norm_num),and_field]
  refine ⟨?_,?_,identity_shuffled.shuffle le_rfl⟩
  · rw [hval]
    omega
  · rw [hval]
    omega

section Permutation

theorem getD_take (p:List ℕ) {i:ℕ} (hi:i<7) : (p.take 7).getD i 0=p.getD i 0 := by
 simp only [List.getD_eq_getElem?_getD,List.getElem?_take,hi,if_true]

variable {p:List ℕ} (hp:Shuffled p)

include hp

theorem Shuffled.lt_seven {i:ℕ} (hi:i<7) : p.getD i 0<7 := by
 have hlen:(p.take 7).length=7:=by simp [hp.length]
 have hmem:=List.getElem_mem (l:=p.take 7) (n:=i) (by omega)
 grind [hp.perm.mem_iff]

theorem Shuffled.lt_eight {i:ℕ} (hi:i<8) : p.getD i 0<8 := by
 rcases Nat.lt_or_ge i 7 with hlt|hge
 · exact (hp.lt_seven hlt).trans (by omega)
 · grind [hp.last]

theorem Shuffled.eq_seven_iff {i:ℕ} (hi:i<8) : p.getD i 0=7 ↔ i=7 := by
 constructor
 · intro h
   by_contra hne
   have:=hp.lt_seven (i:=i) (by omega)
   omega
 · rintro rfl
   exact hp.last

theorem Shuffled.idxOf_getD {i:ℕ} (hi:i<8) : (p.take 7).idxOf (p.getD i 0)=i := by
 have hlen:(p.take 7).length=7:=by simp [hp.length]
 rcases Nat.lt_or_ge i 7 with hlt|hge
 · have hnodup:(p.take 7).Nodup:=hp.perm.nodup_iff.mpr List.nodup_range
   rw [←getD_take p hlt,List.getD_eq_getElem _ _ (by omega),hnodup.idxOf_getElem]
 · grind [hp.perm.mem_iff,hp.last]

theorem Shuffled.injective {i j:ℕ} (hi:i<8) (hj:j<8) (h:p.getD i 0=p.getD j 0) : i=j := by
 rw [←hp.idxOf_getD hi,h,hp.idxOf_getD hj]

end Permutation

structure Fields (w:Word) (body low:ℕ) : Prop where
 value : w.toNat=2^63+body*8+low
 body_lt : body<2^60
 low_lt : low<8

theorem lowTag_toNat {w:Word} {body low:ℕ} (hf:Fields w body low) :
 ((w >>> tagIndexShift) &&& tagIndexMask).toNat=low := by
 have hlt:=hf.low_lt
 rw [tagIndexShift,BitVec.ushiftRight_zero,BitVec.toNat_and,hf.value]
 refine (Nat.and_two_pow_sub_one_eq_mod _ 3).trans ?_
 omega

theorem lowTag_eq_iff {w:Word} {body low:ℕ} (hf:Fields w body low) :
 (w >>> tagIndexShift) &&& tagIndexMask=tagIndexMask ↔ low=7 := by
 rw [←BitVec.toNat_inj,lowTag_toNat hf]
 rfl

theorem replaceTag_toNat (w x:Word) (hx:x.toNat<8) :
 ((w &&& ~~~(tagIndexMask <<< tagIndexShift)) ||| (x <<< tagIndexShift)).toNat =
   w.toNat / 8*8+x.toNat := by
 have hw:=w.isLt
 have hmask:(~~~(tagIndexMask <<< tagIndexShift)).toNat=(2^61-1)*2^3:=by decide
 have hshift:(x <<< tagIndexShift).toNat=x.toNat:=by rw [tagIndexShift,BitVec.shiftLeft_zero]
 rw [BitVec.toNat_or,BitVec.toNat_and,hmask,hshift,and_field,or_low _ hx,
  Nat.mod_eq_of_lt (by omega)]
 omega

theorem noObfuscation_iff (w:Word) :
 w &&& noObfuscationMask=noObfuscationMask ↔ w.toNat / 2^62=3 ∧ w.toNat % 8=7 := by
 have hw:=w.isLt
 have hbits:(∀i<64,noObfuscationMask.getLsbD i=true → w.getLsbD i=true) ↔
  w.getLsbD 0=true ∧ w.getLsbD 1=true ∧ w.getLsbD 2=true ∧ w.getLsbD 62=true ∧
   w.getLsbD 63=true := by
  have hmask:∀i<64,noObfuscationMask.getLsbD i=true → i=0 ∨ i=1 ∨ i=2 ∨ i=62 ∨ i=63 := by decide
  constructor
  · intro h
    exact ⟨h 0 (by omega) (by decide),h 1 (by omega) (by decide),h 2 (by omega) (by decide),
     h 62 (by omega) (by decide),h 63 (by omega) (by decide)⟩
  · grind
 rw [and_eq_mask_iff,hbits]
 simp only [getLsbD_iff]
 omega

theorem isTagged_iff (w:Word) : isTaggedPointer w=true ↔ 2^63 ≤ w.toNat := by
 have hw:=w.isLt
 have hmask:∀i<64,tagMask.getLsbD i=true → i=63:=by decide
 rw [isTaggedPointer,beq_iff_eq,and_eq_mask_iff]
 constructor
 · intro h
   have hbit:=h 63 (by omega) (by decide)
   rw [getLsbD_iff] at hbit
   omega
 · grind [getLsbD_iff]

theorem basic_fields {tag:ℕ} (htag:tag≤6) {value:Word} (hv:value.toNat<2^60) :
 Fields (tagMask ||| (BitVec.ofNat 64 tag <<< tagIndexShift) |||
  ((value <<< payloadRshift) >>> payloadLshift)) value.toNat tag := by
 refine ⟨?_,hv,by omega⟩
 have hpayload:((value <<< payloadRshift) >>> payloadLshift).toNat=value.toNat*2^3:=by
  simp only [payloadRshift,payloadLshift,BitVec.toNat_ushiftRight,BitVec.toNat_shiftLeft,
   Nat.shiftRight_eq_div_pow,Nat.shiftLeft_eq]
  omega
 have htop:tagMask.toNat=1*2^63:=by decide
 rw [BitVec.or_assoc,BitVec.toNat_or,BitVec.toNat_or,hpayload,htop,tagIndexShift,
  BitVec.shiftLeft_zero,BitVec.toNat_ofNat,Nat.mod_eq_of_lt (by omega),Nat.or_comm tag,
  or_low value.toNat (by omega),or_low 1 (by omega)]
 omega

theorem ext_fields {index:ℕ} (hindex:index<256) {value:Word} (hv:value.toNat<2^52) :
 Fields (extMask ||| (BitVec.ofNat 64 index <<< extIndexShift) |||
  ((value <<< extPayloadRshift) >>> extPayloadLshift)) (index*2^52+value.toNat) 7 := by
 refine ⟨?_,by omega,by omega⟩
 have hpayload:((value <<< extPayloadRshift) >>> extPayloadLshift).toNat=value.toNat*2^3 := by
  simp only [extPayloadRshift,extPayloadLshift,BitVec.toNat_ushiftRight,
   BitVec.toNat_shiftLeft,Nat.shiftRight_eq_div_pow,Nat.shiftLeft_eq]
  omega
 have hext:(BitVec.ofNat 64 index <<< extIndexShift).toNat=index*2^55:=by
  simp only [extIndexShift,BitVec.toNat_shiftLeft,BitVec.toNat_ofNat,Nat.shiftLeft_eq]
  omega
 have hmask:extMask.toNat=1*2^63 ||| 7:=by decide
 rw [BitVec.toNat_or,BitVec.toNat_or,hpayload,hext,hmask,Nat.or_assoc,Nat.or_assoc,
  Nat.or_comm 7,Nat.or_assoc,or_low (value.toNat) (by omega),or_low index (by omega),
  or_low 1 (by omega)]
 omega

/-- Bodies with the no-obfuscation bit and the extended tag stay as they are. -/
def Plain (body low:ℕ) : Prop := body / 2^59=1 ∧ low=7

instance (body low:ℕ) : Decidable (Plain body low) := inferInstanceAs (Decidable (_ ∧ _))

def obfuscated (o:Obfuscation) (body low:ℕ) : ℕ :=
 if Plain body low then body else body ^^^ (o.obfuscator.toNat / 8)

section Coding

variable {o:Obfuscation} (hv:o.Valid) {w:Word} {body low:ℕ}

include hv

theorem xor_fields (hf:Fields w body low) :
 Fields (o.obfuscator ^^^ w) (body ^^^ (o.obfuscator.toNat / 8)) low ∧
  (body ^^^ (o.obfuscator.toNat / 8)) / 2^59=body / 2^59 := by
 have hlow:=hv.low
 have hhigh:=hv.high
 have hbody:=hf.body_lt
 have hlt:=hf.low_lt
 have hvalue:=hf.value
 have hmod:(o.obfuscator.toNat ^^^ w.toNat) % 2^3=low:=by
  rw [Nat.xor_mod_two_pow,show o.obfuscator.toNat % 2^3=0 from hlow,Nat.zero_xor]
  omega
 have htop:(o.obfuscator.toNat ^^^ w.toNat) / 2^63=1:=by
  rw [Nat.xor_div_two_pow,Nat.div_eq_of_lt (hhigh.trans (by omega)),Nat.zero_xor]
  omega
 have hxor:(body ^^^ (o.obfuscator.toNat / 8)) < 2^60 :=
  Nat.xor_lt_two_pow hbody (by omega)
 have hbits:(o.obfuscator.toNat ^^^ w.toNat) / 2^3 % 2^60 =
  body ^^^ (o.obfuscator.toNat / 8) := by
  rw [Nat.xor_div_two_pow,Nat.xor_mod_two_pow,Nat.xor_comm]
  congr 1
  · omega
  · omega
 refine ⟨⟨?_,hxor,hlt⟩,?_⟩
 · rw [BitVec.toNat_xor]
   omega
 · rw [Nat.xor_div_two_pow,Nat.div_eq_of_lt (a:=o.obfuscator.toNat / 8) (by omega),Nat.xor_zero]

omit hv in
theorem noObfuscation_fields (hf:Fields w body low) :
 w &&& noObfuscationMask=noObfuscationMask ↔ Plain body low := by
 grind [hf.low_lt,hf.value,noObfuscation_iff,Plain]

theorem encode_fields (hf:Fields w body low) :
 Fields (encodeTaggedPointer o w) (obfuscated o body low) (o.permutations.getD low 0) := by
 obtain ⟨hxor,htop⟩:=xor_fields hv hf
 have hplain:(o.obfuscator ^^^ w) &&& noObfuscationMask=noObfuscationMask ↔ Plain body low := by
  rw [noObfuscation_fields hxor,Plain,htop,Plain]
 rw [encodeTaggedPointer,obfuscated]
 by_cases hp : Plain body low
 · simp only [if_pos (hplain.mpr hp),if_pos hp]
   rw [hp.2,hv.shuffled.last]
   exact hp.2 ▸ hf
 · simp only [if_neg (fun h=>hp (hplain.mp h)),if_neg hp]
   have hlt:=hf.low_lt
   have hperm:=hv.shuffled.lt_eight hlt
   have htag:(basicTagToObfuscatedTag o
    (((o.obfuscator ^^^ w) >>> tagIndexShift) &&& tagIndexMask)).toNat =
      o.permutations.getD low 0 := by
    rw [basicTagToObfuscatedTag,lowTag_toNat hxor,BitVec.toNat_ofNat,Nat.mod_eq_of_lt (by omega)]
   refine ⟨?_,hxor.body_lt,hperm⟩
   rw [replaceTag_toNat _ _ (htag ▸ hperm),htag,hxor.value]
   omega

theorem decodeNoPermute_fields (hf:Fields w body low) :
 Fields (decodeTaggedPointerNoPermute o (encodeTaggedPointer o w)) body
  (o.permutations.getD low 0) := by
 have henc:=encode_fields hv hf
 have hseven:=hv.shuffled.eq_seven_iff hf.low_lt
 obtain ⟨-,htop⟩:=xor_fields hv hf
 rw [decodeTaggedPointerNoPermute]
 by_cases hp : Plain body low
 · have hbody:obfuscated o body low=body:=by rw [obfuscated,if_pos hp]
   rw [hbody] at henc
   rw [if_pos ((noObfuscation_fields henc).mpr ⟨hp.1,hseven.mpr hp.2⟩)]
   exact henc
 · have hbody:obfuscated o body low=body ^^^ (o.obfuscator.toNat / 8):=by
    rw [obfuscated,if_neg hp]
   rw [hbody] at henc
   have hnot:¬Plain (body ^^^ (o.obfuscator.toNat / 8)) (o.permutations.getD low 0):=by
    rintro ⟨hhigh,hlow⟩
    exact hp ⟨htop ▸ hhigh,hseven.mp hlow⟩
   rw [if_neg (fun h=>hnot ((noObfuscation_fields henc).mp h)),BitVec.xor_comm]
   have hback:=(xor_fields hv henc).1
   rwa [Nat.xor_assoc,Nat.xor_self,Nat.xor_zero] at hback

theorem decode_fields (hf:Fields w body low) :
 Fields (decodeTaggedPointer o (encodeTaggedPointer o w)) body low := by
 have hdec:=decodeNoPermute_fields hv hf
 have hperm:=hv.shuffled.lt_eight hf.low_lt
 have hlt:=hf.low_lt
 have htag:(obfuscatedTagToBasicTag o
  ((decodeTaggedPointerNoPermute o (encodeTaggedPointer o w) >>> tagIndexShift) &&&
    tagIndexMask)).toNat=low := by
  rw [obfuscatedTagToBasicTag,lowTag_toNat hdec,hv.shuffled.idxOf_getD hlt,
   BitVec.toNat_ofNat,Nat.mod_eq_of_lt (by omega)]
 refine ⟨?_,hf.body_lt,hlt⟩
 rw [decodeTaggedPointer,replaceTag_toNat _ _ (htag ▸ hlt),htag,hdec.value]
 omega

end Coding

section Payload

variable {w:Word} {body low:ℕ} (hf:Fields w body low)

include hf

theorem payload_toNat : ((w <<< payloadLshift) >>> payloadRshift).toNat=body := by
 have hbody:=hf.body_lt
 have hlt:=hf.low_lt
 simp only [payloadLshift,payloadRshift,BitVec.toNat_ushiftRight,BitVec.toNat_shiftLeft,
  Nat.shiftRight_eq_div_pow,Nat.shiftLeft_eq,hf.value]
 omega

theorem extPayload_toNat : ((w <<< extPayloadLshift) >>> extPayloadRshift).toNat=body % 2^52 := by
 have hlt:=hf.low_lt
 simp only [extPayloadLshift,extPayloadRshift,BitVec.toNat_ushiftRight,
  BitVec.toNat_shiftLeft,Nat.shiftRight_eq_div_pow,Nat.shiftLeft_eq,hf.value]
 omega

theorem signedPayload :
 (w <<< payloadLshift).sshiftRight payloadRshift=(BitVec.ofNat 60 body).signExtend 64 := by
 have hbody:=hf.body_lt
 have hlt:=hf.low_lt
 have hshift:(w <<< payloadLshift).toNat=body*2^4+low*2:=by
  simp only [payloadLshift,BitVec.toNat_shiftLeft,Nat.shiftLeft_eq,hf.value]
  omega
 apply BitVec.eq_of_toInt_eq
 rw [BitVec.toInt_sshiftRight,BitVec.toInt_signExtend_of_le (by omega),
  BitVec.toInt_eq_toNat_cond,BitVec.toInt_eq_toNat_cond,hshift,BitVec.toNat_ofNat,
  Nat.mod_eq_of_lt hbody,Int.shiftRight_eq_div_pow]
 simp only [payloadRshift]
 split_ifs <;> push_cast <;> omega

theorem signedExtPayload : (w <<< extPayloadLshift).sshiftRight extPayloadRshift =
  (BitVec.ofNat 52 (body % 2^52)).signExtend 64 := by
 have hlt:=hf.low_lt
 have hshift:(w <<< extPayloadLshift).toNat=body % 2^52*2^12+low*2^9:=by
  simp only [extPayloadLshift,BitVec.toNat_shiftLeft,Nat.shiftLeft_eq,hf.value]
  omega
 apply BitVec.eq_of_toInt_eq
 rw [BitVec.toInt_sshiftRight,BitVec.toInt_signExtend_of_le (by omega),
  BitVec.toInt_eq_toNat_cond,BitVec.toInt_eq_toNat_cond,hshift,BitVec.toNat_ofNat,
  Nat.mod_mod,Int.shiftRight_eq_div_pow]
 simp only [extPayloadRshift]
 split_ifs <;> push_cast <;> omega

theorem extTag_toNat : ((w >>> extIndexShift) &&& extIndexMask).toNat=body / 2^52 := by
 have hbody:=hf.body_lt
 have hlt:=hf.low_lt
 have hmask:extIndexMask.toNat=2^8-1:=by decide
 rw [BitVec.toNat_and,hmask,Nat.and_two_pow_sub_one_eq_mod,BitVec.toNat_ushiftRight,
  Nat.shiftRight_eq_div_pow,hf.value,extIndexShift]
 omega

theorem getTaggedClass_fields :
 getTaggedClass w=if low=7 then .ext (body / 2^52) else .basic low := by
 have hbody:=hf.body_lt
 have hlt:=hf.low_lt
 have hlow:(w &&& 0x7).toNat=low:=lowTag_toNat hf
 have hseven:w &&& 0x7=7 ↔ low=7:=lowTag_eq_iff hf
 rw [getTaggedClass]
 by_cases h7 : low=7
 · have hint:(w.sshiftRight 55).toInt=(body / 2^52 : ℕ)-256:=by
    rw [BitVec.toInt_sshiftRight,BitVec.toInt_eq_toNat_cond,hf.value,
     if_neg (by omega),Int.shiftRight_eq_div_pow]
    push_cast
    omega
   simp only [if_pos (hseven.mpr h7),if_pos h7,hint]
   have hlt':body / 2^52<256:=by omega
   rw [slotOfIndex,if_neg (by omega)]
   congr 1
   omega
 · have hint:(w &&& 0x7).toInt=low:=by
    rw [BitVec.toInt_eq_toNat_cond,hlow,if_pos (by omega)]
   simp only [if_neg (fun h=>h7 (hseven.mp h)),if_neg h7,hint]
   rw [slotOfIndex,if_pos (by omega),Int.toNat_natCast]

end Payload

def ValidTag (tag:ℕ) : Prop :=
 tag ≤ last60BitPayload ∨ (first52BitPayload ≤ tag ∧ tag ≤ last52BitPayload)

def payloadBits (tag:ℕ) : ℕ := if tag ≤ last60BitPayload then 60 else 52

structure RoundTrip (o:Obfuscation) (tag:ℕ) (value ptr:Word) : Prop where
 isTagged : isTaggedPointer ptr=true
 tag_eq : getTaggedPointerTag o ptr=tag
 value_eq : getTaggedPointerValue o ptr=value
 signed_eq : getTaggedPointerSignedValue o ptr=(value.setWidth (payloadBits tag)).signExtend 64
 slot_eq : classSlotForTagIndex o tag=some (getTaggedClass ptr)

section RoundTrips

variable {o:Obfuscation} (hv:o.Valid)

include hv

section Read

variable {w:Word} {body low:ℕ} (hf:Fields w body low)

include hf

theorem tag_encode : getTaggedPointerTag o (encodeTaggedPointer o w) =
 if low=7 then body / 2^52+8 else low := by
 have hfull:=decode_fields hv hf
 rw [getTaggedPointerTag]
 simp only [lowTag_eq_iff hfull,lowTag_toNat hfull,extTag_toNat hfull,first52BitPayload]

theorem value_encode : (getTaggedPointerValue o (encodeTaggedPointer o w)).toNat =
 if low=7 then body % 2^52 else body := by
 have hdec:=decodeNoPermute_fields hv hf
 rw [getTaggedPointerValue]
 simp only [lowTag_eq_iff hdec,hv.shuffled.eq_seven_iff hf.low_lt,apply_ite BitVec.toNat,
  extPayload_toNat hdec,payload_toNat hdec]

theorem signed_encode : getTaggedPointerSignedValue o (encodeTaggedPointer o w) =
 if low=7 then (BitVec.ofNat 52 (body % 2^52)).signExtend 64
 else (BitVec.ofNat 60 body).signExtend 64 := by
 have hdec:=decodeNoPermute_fields hv hf
 rw [getTaggedPointerSignedValue]
 simp only [lowTag_eq_iff hdec,hv.shuffled.eq_seven_iff hf.low_lt,signedExtPayload hdec,
  signedPayload hdec]

theorem isTagged_encode : isTaggedPointer (encodeTaggedPointer o w)=true := by
 rw [isTagged_iff,(encode_fields hv hf).value]
 omega

end Read

theorem basic_slot {tag:ℕ} (htag:tag≤6) :
 classSlotForTagIndex o tag=some (.basic (o.permutations.getD tag 0)) := by
 have hperm:=hv.shuffled.lt_seven (i:=tag) (by omega)
 have htag':tag ≤ last60BitPayload:=htag
 rw [classSlotForTagIndex,if_pos htag',classSlotForBasicTagIndex,basicTagToObfuscatedTag,
  BitVec.toNat_ofNat,BitVec.toNat_ofNat,Nat.mod_eq_of_lt (a:=tag) (by omega),
  Nat.mod_eq_of_lt (by omega)]

theorem basic_roundTrip {tag:ℕ} (htag:tag≤6) {value:Word} (hvalue:value.toNat<2^60) :
 RoundTrip o tag value (makeTaggedPointer o tag value) := by
 have hf:=basic_fields htag hvalue
 have hperm:=hv.shuffled.lt_seven (i:=tag) (by omega)
 have htag':tag ≤ last60BitPayload:=htag
 have hne:tag≠7:=by omega
 rw [makeTaggedPointer,if_pos htag']
 refine ⟨isTagged_encode hv hf,?_,?_,?_,?_⟩
 · rw [tag_encode hv hf,if_neg hne]
 · apply BitVec.eq_of_toNat_eq
   rw [value_encode hv hf,if_neg hne]
 · have hbits:payloadBits tag=60:=if_pos htag'
   rw [signed_encode hv hf,if_neg hne,hbits]
   rfl
 · rw [basic_slot hv htag,getTaggedClass_fields (encode_fields hv hf),if_neg (by omega)]

theorem ext_slot {index v:ℕ} (hindex:index<256) (hv52:v<2^52) : classSlotForTagIndex o (index+8) =
  some (.ext (obfuscated o (index*2^52+v) 7 / 2^52)) := by
 have hhigh:=hv.high
 have hlast:¬(index+8 ≤ last60BitPayload):=by simp only [last60BitPayload]; omega
 have hext:first52BitPayload ≤ index+8 ∧ index+8 ≤ last52BitPayload:=by
  simp only [first52BitPayload,last52BitPayload]
  omega
 have hmask:extIndexMask.toNat=2^8-1:=by decide
 have hobf:((o.obfuscator >>> extIndexShift) &&& extIndexMask).toNat =
  o.obfuscator.toNat / 8 / 2^52 := by
  rw [BitVec.toNat_and,hmask,Nat.and_two_pow_sub_one_eq_mod,BitVec.toNat_ushiftRight,
   Nat.shiftRight_eq_div_pow,extIndexShift]
  omega
 rw [classSlotForTagIndex,if_neg hlast,if_pos hext,obfuscated]
 simp only [show index+8-first52BitPayload=index from rfl]
 by_cases hplain : Plain (index*2^52+v) 7
 · have hsplit:firstUnobfuscatedSplitTag ≤ index+8:=by
    have:=hplain.1
    simp only [firstUnobfuscatedSplitTag]
    omega
   rw [if_pos hsplit,if_pos hplain]
   congr 2
   omega
 · have hsplit:¬(firstUnobfuscatedSplitTag ≤ index+8):=by
    intro h
    simp only [firstUnobfuscatedSplitTag] at h
    exact hplain ⟨by omega,rfl⟩
   rw [if_neg hsplit,if_neg hplain,hobf,Nat.xor_div_two_pow]
   congr 3
   omega

theorem ext_roundTrip {index:ℕ} (hindex:index<256) {value:Word} (hvalue:value.toNat<2^52) :
 RoundTrip o (index+8) value (makeTaggedPointer o (index+8) value) := by
 have hf:=ext_fields hindex hvalue
 have henc:=encode_fields hv hf
 have hlast:¬(index+8 ≤ last60BitPayload):=by simp only [last60BitPayload]; omega
 have hmod:(index*2^52+value.toNat) % 2^52=value.toNat:=by omega
 rw [hv.shuffled.last] at henc
 rw [makeTaggedPointer,if_neg hlast,show index+8-first52BitPayload=index from rfl]
 refine ⟨isTagged_encode hv hf,?_,?_,?_,?_⟩
 · rw [tag_encode hv hf,if_pos rfl]
   omega
 · apply BitVec.eq_of_toNat_eq
   rw [value_encode hv hf,if_pos rfl,hmod]
 · have hbits:payloadBits (index+8)=52:=if_neg hlast
   rw [signed_encode hv hf,if_pos rfl,hmod,hbits]
   rfl
 · rw [getTaggedClass_fields henc,if_pos rfl]
   exact ext_slot hv hindex hvalue

omit hv in
theorem obfuscated_index {index:ℕ} (hindex:index<256) : obfuscated o (index*2^52) 7 / 2^52 =
  if 128 ≤ index then index else index ^^^ (o.obfuscator.toNat / 8 / 2^52) := by
 have hplain:Plain (index*2^52) 7 ↔ 128 ≤ index:=by
  rw [Plain]
  omega
 rw [obfuscated]
 by_cases h : 128 ≤ index
 · grind
 · rw [if_neg (fun hp=>h (hplain.mp hp)),if_neg h,Nat.xor_div_two_pow,
    Nat.mul_div_cancel _ (Nat.two_pow_pos 52)]

theorem obfuscated_index_injective {i j:ℕ} (hi:i<256) (hj:j<256)
 (h:obfuscated o (i*2^52) 7 / 2^52=obfuscated o (j*2^52) 7 / 2^52) :
 i=j := by
 have hhigh:=hv.high
 have hkey:o.obfuscator.toNat / 8 / 2^52<2^7:=by omega
 rw [obfuscated_index hi,obfuscated_index hj] at h
 -- the obfuscator keeps small indices small
 have hsmall:∀{n:ℕ},¬128 ≤ n → n ^^^ (o.obfuscator.toNat / 8 / 2^52) < 128 :=
  fun hn=>Nat.xor_lt_two_pow (n:=7) (by omega) hkey
 grind

theorem slot_injective {tag tag':ℕ} (htag:ValidTag tag) (htag':ValidTag tag')
 (h:classSlotForTagIndex o tag=classSlotForTagIndex o tag') : tag=tag' := by
 simp only [ValidTag,last60BitPayload,first52BitPayload,last52BitPayload] at htag htag'
 have hext:∀{n:ℕ},8 ≤ n ∧ n≤263 → classSlotForTagIndex o n =
  some (.ext (obfuscated o ((n-8)*2^52) 7 / 2^52)) := by
  intro n hn
  have hslot:=@ext_slot o hv (n-8) 0 (by omega) (by norm_num)
  rwa [Nat.sub_add_cancel hn.1,Nat.add_zero] at hslot
 rcases htag with hb|he <;> rcases htag' with hb'|he'
 · rw [basic_slot hv hb,basic_slot hv hb'] at h
   injection h with h
   injection h with h
   exact hv.shuffled.injective (by omega) (by omega) h
 · rw [basic_slot hv hb,hext he'] at h
   cases h
 · rw [hext he,basic_slot hv hb'] at h
   cases h
 · rw [hext he,hext he'] at h
   injection h with h
   injection h with h
   have:=obfuscated_index_injective hv (by omega) (by omega) h
   omega

end RoundTrips

/-- With whatever obfuscator and shuffle the initializer draws, every valid tag and every payload
that fits it round-trip through the pointer, C and the assembly agree on the class slot, and
distinct tags have distinct slots. -/
theorem taggedPointer_roundTrip (disable:Bool) (random:Word) (uniform:ℕ → ℕ) :
 (∀(tag:ℕ) (value:Word),ValidTag tag → value.toNat<2^payloadBits tag →
  RoundTrip (initializeTaggedPointerObfuscator disable random uniform) tag value
   (makeTaggedPointer (initializeTaggedPointerObfuscator disable random uniform) tag value)) ∧
 ∀tag tag' : ℕ,ValidTag tag → ValidTag tag' →
  classSlotForTagIndex (initializeTaggedPointerObfuscator disable random uniform) tag =
   classSlotForTagIndex (initializeTaggedPointerObfuscator disable random uniform) tag' →
  tag=tag' := by
 have hv:=initialize_valid disable random uniform
 refine ⟨fun tag value htag hvalue=>?_,fun tag tag' htag htag' h=>?_⟩
 · rcases htag with hbasic|⟨hfirst,hlast⟩
   · rw [payloadBits,if_pos hbasic] at hvalue
     exact basic_roundTrip hv hbasic hvalue
   · simp only [first52BitPayload,last52BitPayload] at hfirst hlast
     grind [payloadBits,last60BitPayload,ext_roundTrip,Nat.sub_add_cancel]
 · exact slot_injective hv htag htag' h

theorem taggedPointer_constantString :
 getTaggedPointerTag (initializeTaggedPointerObfuscator false 0x123456789abcdef0 id)
  (makeTaggedPointer (initializeTaggedPointerObfuscator false 0x123456789abcdef0 id) 136 42) =
   136 :=
 ((taggedPointer_roundTrip false 0x123456789abcdef0 id).1 136 42 (.inr (by decide))
   (by decide)).tag_eq

end ObjcRuntime.TaggedPointers
