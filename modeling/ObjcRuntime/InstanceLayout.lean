import ObjcRuntime.BitFields

/-!
Sizes and ivar offsets of instances, and the slide of the ivars when the superclass has grown.
Sizes are 32-bit words, `size_t` has 64 bits.
-/

set_option autoImplicit false
namespace ObjcRuntime.InstanceLayout

/-- `(x + mask) & ~mask` -/
def alignTo {w:ℕ} (mask x:BitVec w) : BitVec w := (x+mask) &&& ~~~mask

def wordAlign {w:ℕ} (x:BitVec w) : BitVec w := alignTo 7 x

def align16 (x:BitVec 64) : BitVec 64 := alignTo 15 x

theorem toNat_and_not {w k:ℕ} (hk:k ≤ w) {mask:BitVec w} (hmask:mask.toNat=2^k-1)
 (x:BitVec w) : (x &&& ~~~mask).toNat=x.toNat / 2^k*2^k := by
 have split:2^w=2^(w-k)*2^k:=by rw [←Nat.pow_add,Nat.sub_add_cancel hk]
 have ones:2^w-1-(2^k-1)=(2^(w-k)-1)*2^k:=by
  have:=Nat.two_pow_pos k
  rw [Nat.sub_mul,←split]
  omega
 have small:x.toNat / 2^k<2^(w-k) :=
  Nat.div_lt_of_lt_mul (by rw [Nat.mul_comm,←split]; exact x.isLt)
 rw [BitVec.toNat_and,BitVec.toNat_not,hmask,ones,BitFields.and_field,Nat.mod_eq_of_lt small]

theorem toNat_alignTo {w k:ℕ} (hk:k ≤ w) {mask:BitVec w} (hmask:mask.toNat=2^k-1) (x:BitVec w) :
 (alignTo mask x).toNat=(x.toNat+(2^k-1)) % 2^w / 2^k*2^k := by
 rw [alignTo,toNat_and_not hk hmask,BitVec.toNat_add,hmask]

section InstanceSize

def fastCacheAllocMask : BitVec 16 := 0x0ff8
def fastCacheAllocMask16 : BitVec 16 := 0x0ff0
def fastCacheAllocDelta16 : BitVec 64 := 8

def setFastInstanceSize (flags:BitVec 16) (newSize:BitVec 64) : BitVec 16 :=
 let newBits:=flags &&& ~~~fastCacheAllocMask
 let sizeBits:=(wordAlign newSize+fastCacheAllocDelta16).setWidth 16 &&& fastCacheAllocMask
 if newSize ≤ sizeBits.setWidth 64 then newBits ||| sizeBits else newBits

/-- `constant` is `__builtin_constant_p(extra)`. -/
def hasFastInstanceSize (constant:Bool) (flags:BitVec 16) (extra:BitVec 64) : Bool :=
 if constant && extra=0 then flags &&& fastCacheAllocMask16≠0
 else flags &&& fastCacheAllocMask≠0

def fastInstanceSize (constant:Bool) (flags:BitVec 16) (extra:BitVec 64) : BitVec 64 :=
 if constant && extra=0 then (flags &&& fastCacheAllocMask16).setWidth 64
 else align16 ((flags &&& fastCacheAllocMask).setWidth 64+extra-fastCacheAllocDelta16)

def slowInstanceSize (unaligned:BitVec 32) (extraBytes:BitVec 64) : BitVec 64 :=
 let size:=(wordAlign unaligned).setWidth 64+extraBytes
 if size<16 then 16 else size

structure Sized where
 flags : BitVec 16
 unaligned : BitVec 32

def Sized.setInstanceSize (cls:Sized) (newSize:BitVec 32) : Sized :=
 ⟨setFastInstanceSize cls.flags (newSize.setWidth 64),newSize⟩

def Sized.instanceSize (cls:Sized) (constant:Bool) (extraBytes:BitVec 64) : BitVec 64 :=
 if hasFastInstanceSize constant cls.flags extraBytes then
  fastInstanceSize constant cls.flags extraBytes
 else slowInstanceSize cls.unaligned extraBytes

variable (flags:BitVec 16) (n:BitVec 32) (extra:BitVec 64)

theorem wordAlign_toNat : (wordAlign (n.setWidth 64)).toNat=(n.toNat+7) / 8*8 := by
 have:=n.isLt
 rw [wordAlign,toNat_alignTo (k:=3) (by decide) rfl]
 simp
 omega

theorem cached_bits : (setFastInstanceSize flags (n.setWidth 64) &&& fastCacheAllocMask).toNat =
  if n.toNat≤4080 then (n.toNat+7) / 8*8+8 else 0 := by
 have:=n.isLt
 let sizeBits:=(wordAlign (n.setWidth 64)+fastCacheAllocDelta16).setWidth 16 &&&
  fastCacheAllocMask
 -- the mask keeps nine bits above the lowest three
 have bits:sizeBits.toNat=((n.toNat+7) / 8*8+8) % 4096:=by
  rw [BitVec.toNat_and,BitVec.toNat_setWidth,BitVec.toNat_add,wordAlign_toNat,
   show fastCacheAllocDelta16.toNat=8 from rfl,
   show fastCacheAllocMask.toNat=(2^9-1)*2^3 from rfl,BitFields.and_field]
  omega
 have old:flags &&& ~~~fastCacheAllocMask &&& fastCacheAllocMask=0#16:=by
  rw [BitVec.and_assoc]
  simp [fastCacheAllocMask]
 have stored:n.setWidth 64 ≤ sizeBits.setWidth 64 ↔ n.toNat≤4080:=by
  rw [BitVec.le_def,BitVec.toNat_setWidth,BitVec.toNat_setWidth,bits]
  omega
 change ((if n.setWidth 64 ≤ sizeBits.setWidth 64 then flags &&& ~~~fastCacheAllocMask ||| sizeBits
  else flags &&& ~~~fastCacheAllocMask) &&& fastCacheAllocMask).toNat=_
 by_cases fits : n.toNat≤4080
 · rw [if_pos (stored.mpr fits),if_pos fits,BitFields.or_and_distrib_right,old,
    BitVec.and_assoc,BitVec.and_self,BitVec.zero_or,bits]
   omega
 · rw [if_neg (stored.not.mpr fits),if_neg fits,old]
   rfl

theorem cached_bits16 : (setFastInstanceSize flags (n.setWidth 64) &&& fastCacheAllocMask16).toNat =
  if n.toNat≤4080 then ((n.toNat+7) / 8*8+8) / 16*16 else 0 := by
 rw [show fastCacheAllocMask16=fastCacheAllocMask &&& fastCacheAllocMask16 by rfl,
  ← BitVec.and_assoc,BitVec.toNat_and,cached_bits,
  show fastCacheAllocMask16.toNat=(2^8-1)*2^4 from rfl,BitFields.and_field]
 split <;> omega

/-- Neither the rounding to words nor the addition and the rounding to 16 bytes overflows. -/
def Fits : Prop :=
 n.toNat≤2^32-8 ∧ (n.toNat+7) / 8*8+extra.toNat+(if n.toNat≤4080 then 15 else 0) < 2^64

theorem hasFast_iff (constant:Bool) (large:8 ≤ n.toNat) :
 hasFastInstanceSize constant (setFastInstanceSize flags (n.setWidth 64)) extra=true ↔
  n.toNat≤4080 := by
 have zero (x:BitVec 16) : x≠0 ↔ x.toNat≠0:=by
  rw [ne_eq,←BitVec.toNat_inj]
  rfl
 rw [hasFastInstanceSize]
 split <;> rw [decide_eq_true_eq,zero]
 · rw [cached_bits16]
   split <;> omega
 · rw [cached_bits]
   split <;> omega

theorem fastInstanceSize_toNat (constant:Bool) (fast:n.toNat≤4080) (large:8 ≤ n.toNat) :
 (fastInstanceSize constant (setFastInstanceSize flags (n.setWidth 64)) extra).toNat =
  ((n.toNat+7) / 8*8+extra.toNat+15) % 2^64 / 16*16 := by
 have:=extra.isLt
 rw [fastInstanceSize]
 split
 next zero=>
  rw [Bool.and_eq_true,decide_eq_true_eq] at zero
  rw [BitVec.toNat_setWidth,cached_bits16,if_pos fast,zero.2,show (0 : BitVec 64).toNat=0 from rfl]
  omega
 next=>
  rw [align16,toNat_alignTo (k:=4) (by decide) rfl,BitVec.toNat_sub,BitVec.toNat_add,
   BitVec.toNat_setWidth,cached_bits,if_pos fast,
   show fastCacheAllocDelta16.toNat=8 from rfl]
  omega

theorem slowInstanceSize_toNat : (slowInstanceSize n extra).toNat =
  max 16 (((n.toNat+7) % 2^32 / 8*8+extra.toNat) % 2^64) := by
 have:=n.isLt
 have sum:((wordAlign n).setWidth 64+extra).toNat =
  ((n.toNat+7) % 2^32 / 8*8+extra.toNat) % 2^64 := by
  rw [wordAlign,BitVec.toNat_add,BitVec.toNat_setWidth,toNat_alignTo (k:=3) (by decide) rfl]
  omega
 rw [slowInstanceSize]
 simp only [BitVec.lt_def,sum,show (16 : BitVec 64).toNat=16 from rfl]
 split
 next low=>exact (Nat.max_eq_left low.le).symm
 next high=>rw [sum,Nat.max_eq_right (by omega)]

theorem instanceSize_enough_iff (cls:Sized) (constant:Bool) (large:8 ≤ n.toNat) :
 let cls':=cls.setInstanceSize n
 (n.toNat+extra.toNat ≤ (cls'.instanceSize constant extra).toNat ∧
  16 ≤ (cls'.instanceSize constant extra).toNat ∧
  (hasFastInstanceSize constant cls'.flags extra →
   (fastInstanceSize constant cls'.flags extra).toNat =
    ((slowInstanceSize cls'.unaligned extra).toNat+15) / 16*16)) ↔
  Fits n extra := by
 have:=n.isLt
 have:=extra.isLt
 intro cls'
 have fast:hasFastInstanceSize constant cls'.flags extra=true ↔ _ :=
  hasFast_iff cls.flags n extra constant large
 have slow:(slowInstanceSize cls'.unaligned extra).toNat=_:=slowInstanceSize_toNat n extra
 rw [Sized.instanceSize,Fits]
 by_cases small : n.toNat≤4080
 · have size:(fastInstanceSize constant cls'.flags extra).toNat=_ :=
    fastInstanceSize_toNat cls.flags n extra constant small large
   rw [if_pos (fast.mpr small),fast,slow,size,if_pos small]
   omega
 · rw [if_neg (fast.not.mpr small),fast,slow,if_neg small]
   omega

theorem instanceSize_wraps : ((Sized.setInstanceSize ⟨0,8⟩ 0xfffffff9).instanceSize false 0).toNat <
 (0xfffffff9 : BitVec 32).toNat := by
 decide

theorem instanceSize_enough : 24+100 ≤ ((Sized.setInstanceSize ⟨0,8⟩ 24).instanceSize false
 100).toNat :=
 ((instanceSize_enough_iff 24 100 ⟨0,8⟩ false (by decide)).mpr ⟨by decide,by decide⟩).1

end InstanceSize

section AddIvar

structure Ivar where
 name : Option String
 offset : BitVec 32
 alignmentRaw : BitVec 8
 size : BitVec 32
 deriving DecidableEq

structure Constructed where
 isMetaClass : Bool
 constructing : Bool
 instanceSize : BitVec 32
 ivars : List Ivar
 deriving DecidableEq

def getIvar (cls:Constructed) (name:String) : Option Ivar :=
 cls.ivars.find? (·.name=some name)

def initializeClassPair (superclassSize:BitVec 32) : Constructed :=
 ⟨false,true,superclassSize,[]⟩

/-- `alignment` is below 31, so the shift of the `int` does not overflow. -/
def alignMask (alignment:BitVec 8) : BitVec 32 := 1#32 <<< alignment.toNat-1

/-- `byteSize` of a list is a 32-bit product with 32 bytes for each ivar, so from 2^27 ivars on the
new block does not hold all of the old list. -/
def classAddIvar (cls:Constructed) (name:Option String) (size:BitVec 64)
 (alignment:BitVec 8) : Constructed × Bool :=
 let name:=if name=some "" then none else name
 if cls.isMetaClass || !cls.constructing then (cls,false)
 else if (name.any fun n=>(getIvar cls n).isSome) || 0xffffffff < size then (cls,false)
 else
  let offset:=alignTo (alignMask alignment) cls.instanceSize
  ({ cls with
   ivars := cls.ivars.take (cls.ivars.length % 2^27)++[⟨name,offset,alignment,size.setWidth 32⟩]
   instanceSize := (offset.setWidth 64+size).setWidth 32 },true)

structure AddIvar where
 name : Option String
 size : BitVec 64
 alignment : BitVec 8

def AddIvar.run (cls:Constructed) (call:AddIvar) : Constructed :=
 (classAddIvar cls call.name call.size call.alignment).1

def AddIvar.Fits (cls:Constructed) (call:AddIvar) : Prop :=
 (classAddIvar cls call.name call.size call.alignment).2=true → cls.ivars.length<2^27 ∧
  (cls.instanceSize.toNat+(2^call.alignment.toNat-1)) / 2^call.alignment.toNat *
   2^call.alignment.toNat+call.size.toNat<2^32

def FitsAlong : Constructed → List AddIvar → Prop
 | _,[]=>True
 | cls,call::calls=>call.alignment.toNat<31 ∧ call.Fits cls ∧ FitsAlong (call.run cls) calls

structure Placed (superclassSize:BitVec 32) (cls:Constructed) : Prop where
 grown : superclassSize.toNat ≤ cls.instanceSize.toNat
 above : ∀i∈cls.ivars,superclassSize.toNat ≤ i.offset.toNat
 aligned : ∀i∈cls.ivars,2^i.alignmentRaw.toNat ∣ i.offset.toNat
 inside : ∀i∈cls.ivars,i.offset.toNat+i.size.toNat ≤ cls.instanceSize.toNat
 ordered : cls.ivars.Pairwise fun i j=>i.offset.toNat+i.size.toNat ≤ j.offset.toNat

theorem alignMask_toNat {alignment:BitVec 8} (small:alignment.toNat<31) :
 (alignMask alignment).toNat=2^alignment.toNat-1 := by
 have:=Nat.pow_lt_pow_right (a:=2) (by decide) small
 grind [alignMask,Nat.shiftLeft_eq]

theorem le_roundUp (n k:ℕ) : n ≤ (n+(2^k-1)) / 2^k*2^k := by
 have:=Nat.mod_lt (n+(2^k-1)) (Nat.two_pow_pos k)
 have:=Nat.div_add_mod' (n+(2^k-1)) (2^k)
 omega

theorem classAddIvar_cases (cls:Constructed) (call:AddIvar) :
 classAddIvar cls call.name call.size call.alignment=(cls,false) ∨ call.size.toNat<2^32 ∧ ∃name,
   let offset:=alignTo (alignMask call.alignment) cls.instanceSize
   classAddIvar cls call.name call.size call.alignment=({ cls with
    ivars := cls.ivars.take (cls.ivars.length % 2^27) ++
     [⟨name,offset,call.alignment,call.size.setWidth 32⟩]
    instanceSize := (offset.setWidth 64+call.size).setWidth 32 },true) := by
 rw [classAddIvar]
 grind [BitVec.lt_def]

theorem alignTo_exact {k:ℕ} (hk:k≤32) {mask x:BitVec 32} (hmask:mask.toNat=2^k-1)
 (fits:(x.toNat+(2^k-1)) / 2^k*2^k<2^32) :
 (alignTo mask x).toNat=(x.toNat+(2^k-1)) / 2^k*2^k := by
 have split:2^32=2^(32-k)*2^k:=by rw [←Nat.pow_add,Nat.sub_add_cancel hk]
 rw [split] at fits
 have below:x.toNat+(2^k-1) < 2^32:=by
  rw [split]
  exact (Nat.div_lt_iff_lt_mul (Nat.two_pow_pos k)).mp (Nat.lt_of_mul_lt_mul_right fits)
 rw [toNat_alignTo hk hmask,Nat.mod_eq_of_lt below]

theorem Placed.add {superclassSize:BitVec 32} {cls:Constructed}
 (placed:Placed superclassSize cls) {call:AddIvar} (small:call.alignment.toNat<31)
 (fits:call.Fits cls) : Placed superclassSize (call.run cls) := by
 rw [AddIvar.run]
 rw [AddIvar.Fits] at fits
 rcases classAddIvar_cases cls call with same|⟨size,name,added⟩
 · rw [same]
   exact placed
 rw [added] at fits ⊢
 obtain ⟨few,fits⟩:=fits rfl
 rw [Nat.mod_eq_of_lt few,List.take_length]
 have up:=le_roundUp cls.instanceSize.toNat call.alignment.toNat
 have offset:=alignTo_exact (small.le.trans (by decide)) (alignMask_toNat small)
  (Nat.lt_of_le_of_lt (Nat.le_add_right _ _) fits)
 have divides:2^call.alignment.toNat ∣
  (alignTo (alignMask call.alignment) cls.instanceSize).toNat := offset ▸ Nat.dvd_mul_left ..
 rw [←offset] at fits up
 generalize alignTo (alignMask call.alignment) cls.instanceSize=o at fits up divides
 have sizeEq:(call.size.setWidth 32).toNat=call.size.toNat:=by
  rw [BitVec.toNat_setWidth,Nat.mod_eq_of_lt size]
 have ends:((o.setWidth 64+call.size).setWidth 32).toNat=o.toNat+call.size.toNat:=by
  rw [BitVec.toNat_setWidth,BitVec.toNat_add,BitVec.toNat_setWidth]
  omega
 obtain ⟨grown,above,aligned,inside,ordered⟩:=placed
 have both {P:Ivar → Prop} (old:∀i∈cls.ivars,P i)
  (new:P ⟨name,o,call.alignment,call.size.setWidth 32⟩) :
  ∀i∈cls.ivars++[⟨name,o,call.alignment,call.size.setWidth 32⟩],P i := by
  intro i hi
  rcases List.mem_append.mp hi with hi|hi
  · exact old i hi
  · exact List.mem_singleton.mp hi ▸ new
 refine ⟨by rw [ends]; omega,both above (grown.trans up),both aligned divides,both ?_ ?_,?_⟩
 · intro i hi
   have:=inside i hi
   rw [ends]
   omega
 · rw [ends,sizeEq]
 · refine List.pairwise_append.mpr ⟨ordered,List.pairwise_singleton ..,fun i hi j hj=>?_⟩
   rw [List.mem_singleton.mp hj]
   exact (inside i hi).trans up

/-- Fewer than 2^27 ivars that end within 32 bits when they are added follow one another. -/
theorem addedIvars_placed (superclassSize:BitVec 32) (calls:List AddIvar)
 (fits:FitsAlong (initializeClassPair superclassSize) calls) :
 Placed superclassSize (calls.foldl AddIvar.run (initializeClassPair superclassSize)) := by
 have start:Placed superclassSize (initializeClassPair superclassSize) :=
  ⟨le_rfl,nofun,nofun,nofun,.nil⟩
 revert fits start
 generalize initializeClassPair superclassSize=cls
 intro fits placed
 induction calls generalizing cls with
 | nil=>exact placed
 | cons call calls ih=>exact ih _ fits.2.2 (placed.add fits.1 fits.2.1)

def overflowingCalls : List AddIvar := [⟨none,0xfffffff0,0⟩,⟨none,16,0⟩,⟨none,8,0⟩]

theorem addedIvars_overlap :
 ¬ ((overflowingCalls.foldl AddIvar.run (initializeClassPair 8)).ivars.Pairwise fun i j =>
  i.offset.toNat+i.size.toNat ≤ j.offset.toNat ∨
   j.offset.toNat+j.size.toNat ≤ i.offset.toNat) := by
 decide

theorem addedIvars_sample : Placed 12 (List.foldl AddIvar.run (initializeClassPair 12)
 [⟨some "a",1,0⟩,⟨some "b",8,3⟩]) :=
 addedIvars_placed 12 _ ⟨by decide,fun _=>⟨by decide,by decide⟩,by decide,
  fun _=>⟨by decide,by decide⟩,trivial⟩

end AddIvar

section Slide

structure ImageIvar where
 offset : Option (BitVec 32)
 alignmentRaw : BitVec 32
 deriving DecidableEq

def ImageIvar.alignment (i:ImageIvar) : BitVec 32 :=
 if i.alignmentRaw = ~~~0 then 8 else 1#32 <<< i.alignmentRaw.toNat

structure ClassRo where
 instanceStart : BitVec 32
 instanceSize : BitVec 32
 ivars : Option (List ImageIvar)
 deriving DecidableEq

def maxAlignment (least:BitVec 32) (counts:ImageIvar → Bool) (ivars:List ImageIvar) : BitVec 32 :=
 ivars.foldl (fun m i=>if counts i && m < i.alignment then i.alignment else m) least

def ClassRo.slide (ro:ClassRo) (diff:BitVec 32) : ClassRo where
 instanceStart := ro.instanceStart+diff
 instanceSize := ro.instanceSize+diff
 ivars := ro.ivars.map (·.map fun i=>{i with offset:=i.offset.map (· + diff)})

def moveIvars (ro:ClassRo) (superSize:BitVec 32) : ClassRo :=
 let diff:=superSize-ro.instanceStart
 match ro.ivars with
 | none=>ro.slide diff
 | some ivars=>ro.slide (alignTo (maxAlignment 1 (·.offset.isSome) ivars-1) diff)

/-- The debugging mode moves the start to its misalignment. -/
def forceSlide (ro:ClassRo) : ClassRo :=
 let alignment:=maxAlignment 8 (fun _=>true) (ro.ivars.getD [])
 let misalignment:=ro.instanceStart % alignment
 let delta:=ro.instanceStart-misalignment
 { instanceStart := misalignment
   instanceSize := ro.instanceSize-delta
   ivars := ro.ivars.map (·.map fun i=>{i with offset:=i.offset.map (· - delta)}) }

/-- `exempt` says that the name is one of those the debugging mode leaves alone. -/
def reconcileInstanceVariables (debugNonFragileIvars exempt:Bool) (superSize:BitVec 32)
 (ro:ClassRo) : ClassRo :=
 let ro:=if debugNonFragileIvars && !exempt then forceSlide ro else ro
 if superSize ≤ ro.instanceStart then ro else moveIvars ro superSize

theorem dvd_maxAlignment (least:BitVec 32) (counts:ImageIvar → Bool) {ivars:List ImageIvar}
 (start:∃k<32,least.toNat=2^k)
 (powers:∀i∈ivars,∃k<32,i.alignment.toNat=2^k) :
 ∃a<32,(maxAlignment least counts ivars).toNat=2^a ∧ least.toNat ∣ 2^a ∧
  ∀i∈ivars,counts i=true → i.alignment.toNat ∣ 2^a := by
 induction ivars generalizing least with
 | nil=>
  obtain ⟨k,hk,value⟩:=start
  exact ⟨k,hk,value,value ▸ dvd_rfl,nofun⟩
 | cons i ivars ih=>
  have rest:=fun i hi=>powers i (List.mem_cons_of_mem _ hi)
  obtain ⟨k,hk,value⟩:=start
  obtain ⟨j,hj,here⟩:=powers i List.mem_cons_self
  rw [maxAlignment,List.foldl_cons]
  split
  next larger=>
   rw [Bool.and_eq_true,decide_eq_true_eq,BitVec.lt_def,value,here,
    Nat.pow_lt_pow_iff_right (by decide)] at larger
   obtain ⟨a,ha,result,least',others⟩:=ih _ ⟨j,hj,here⟩ rest
   refine ⟨a,ha,result,?_,List.forall_mem_cons.mpr ⟨fun _=>least',others⟩⟩
   rw [value]
   exact (Nat.pow_dvd_pow 2 larger.2.le).trans (here ▸ least')
  next smaller=>
   obtain ⟨a,ha,result,least',others⟩:=ih _ ⟨k,hk,value⟩ rest
   refine ⟨a,ha,result,least',List.forall_mem_cons.mpr ⟨fun counted=>?_,others⟩⟩
   rw [counted,Bool.true_and,decide_eq_true_eq,BitVec.lt_def,value,here,not_lt,
    Nat.pow_le_pow_iff_right (by decide)] at smaller
   rw [here]
   exact (Nat.pow_dvd_pow 2 smaller).trans (value ▸ least')

def ClassRo.ivarList (ro:ClassRo) : List ImageIvar := ro.ivars.getD []

/-- All moved by `z` without overflow, a multiple of every alignment. -/
structure Slid (ro ro':ClassRo) (z:ℤ) : Prop where
 moved : ∃diff,ro'=ro.slide diff ∧ ∀i∈ro.ivarList,∀o∈i.offset,
  ((o+diff).toNat : ℤ)=o.toNat+z ∧ (i.alignment.toNat : ℤ) ∣ z
 start : (ro'.instanceStart.toNat : ℤ)=ro.instanceStart.toNat+z
 size : (ro'.instanceSize.toNat : ℤ)=ro.instanceSize.toNat+z

variable {ro ro₁ ro₂:ClassRo} {superSize:BitVec 32} {z w:ℤ}

theorem slide_ivarList (diff:BitVec 32) : (ro.slide diff).ivarList =
 ro.ivarList.map fun i=>{i with offset:=i.offset.map (· + diff)} := by
 rw [ClassRo.ivarList,ClassRo.ivarList,ClassRo.slide]
 cases ro.ivars <;> rfl

theorem slide_slide (a b:BitVec 32) : (ro.slide a).slide b=ro.slide (a+b) := by
 cases h : ro.ivars <;> simp [ClassRo.slide,h,BitVec.add_assoc,Function.comp_def]

theorem Slid.refl : Slid ro ro 0 := by
 have same:ro=ro.slide 0:=by
  obtain ⟨start,size,ivars⟩:=ro
  cases ivars <;> simp [ClassRo.slide]
 exact ⟨⟨0,same,fun i _ o _=>⟨by simp,dvd_zero _⟩⟩,by simp,by simp⟩

theorem Slid.trans (h:Slid ro ro₁ z) (h':Slid ro₁ ro₂ w) : Slid ro ro₂ (z+w) := by
 obtain ⟨⟨a,rfl,first⟩,start,size⟩:=h
 obtain ⟨⟨b,rfl,second⟩,start',size'⟩:=h'
 refine ⟨⟨a+b,slide_slide a b,fun i hi o ho=>?_⟩,by omega,by omega⟩
 obtain ⟨here,divides⟩:=first i hi o ho
 rw [slide_ivarList] at second
 obtain ⟨here',divides'⟩:=second _ (List.mem_map_of_mem hi) (o+a) (by rw [ho]; rfl)
 rw [←BitVec.add_assoc]
 exact ⟨by omega,divides.add divides'⟩

/-- The ivars of the class: powers of two as alignments, and no offset before the start. -/
structure LaidOut (ro:ClassRo) : Prop where
 powers : ∀i∈ro.ivarList,∃k<32,i.alignment.toNat=2^k
 above : ∀i∈ro.ivarList,∀o∈i.offset,ro.instanceStart.toNat ≤ o.toNat

theorem Slid.laidOut (h:Slid ro ro₁ z) (laid:LaidOut ro) : LaidOut ro₁ := by
 obtain ⟨⟨diff,rfl,moved⟩,start,-⟩:=h
 constructor <;> rw [slide_ivarList] <;> intro i hi <;> obtain ⟨j,hj,rfl⟩ := List.mem_map.mp hi
 · exact laid.powers j hj
 · intro o ho
   obtain ⟨p,hp,rfl⟩:=Option.map_eq_some_iff.mp ho
   have:=(moved j hj p hp).1
   have:=laid.above j hj p hp
   omega

def slideAmount (ro:ClassRo) (superSize:BitVec 32) : ℕ :=
 let m:=(maxAlignment 1 (·.offset.isSome) ro.ivarList).toNat
 (superSize.toNat-ro.instanceStart.toNat+(m-1)) / m*m

structure MoveFits (ro:ClassRo) (superSize:BitVec 32) : Prop where
 start : ro.instanceStart.toNat+slideAmount ro superSize<2^32
 size : ro.instanceSize.toNat+slideAmount ro superSize<2^32
 offset : ∀i∈ro.ivarList,∀o∈i.offset,o.toNat+slideAmount ro superSize<2^32

theorem moveIvars_slid (laid:LaidOut ro) (grown:ro.instanceStart.toNat < superSize.toNat)
 (fits:MoveFits ro superSize) : Slid ro (moveIvars ro superSize) (slideAmount ro superSize) ∧
  superSize.toNat ≤ (moveIvars ro superSize).instanceStart.toNat := by
 obtain ⟨a,ha,value,-,divides⟩:=dvd_maxAlignment 1 (·.offset.isSome)
  ⟨0,by decide,rfl⟩ laid.powers
 have slid:moveIvars ro superSize =
  ro.slide (alignTo (maxAlignment 1 (·.offset.isSome) ro.ivarList-1)
   (superSize-ro.instanceStart)) := by
  rw [moveIvars,ClassRo.ivarList]
  cases ro.ivars with
  | some ivars=>rfl
  | none=>
   refine congrArg ro.slide ?_
   rw [Option.getD_none,maxAlignment,List.foldl_nil,alignTo,BitVec.sub_self,BitVec.add_zero]
   exact BitVec.and_allOnes.symm
 have:=superSize.isLt
 have room:=fits.start
 have amount:slideAmount ro superSize =
  (superSize.toNat-ro.instanceStart.toNat+(2^a-1)) / 2^a*2^a := by
  rw [slideAmount,value]
 have diff:(superSize-ro.instanceStart).toNat=superSize.toNat-ro.instanceStart.toNat := by
  rw [BitVec.toNat_sub]
  omega
 have mask:(maxAlignment 1 (·.offset.isSome) ro.ivarList-1).toNat=2^a-1:=by
  have:=Nat.two_pow_pos a
  have:=(maxAlignment 1 (·.offset.isSome) ro.ivarList).isLt
  grind
 have exact:=alignTo_exact ha.le mask (x:=superSize-ro.instanceStart) (by
  rw [diff,←amount]
  omega)
 rw [diff,←amount] at exact
 have far:=le_roundUp (superSize.toNat-ro.instanceStart.toNat) a
 rw [←amount] at far
 have plus {x:BitVec 32} (h:x.toNat+slideAmount ro superSize<2^32) :
  (x+alignTo (maxAlignment 1 (·.offset.isSome) ro.ivarList-1)
   (superSize-ro.instanceStart)).toNat=x.toNat+slideAmount ro superSize := by
  rw [BitVec.toNat_add,exact,Nat.mod_eq_of_lt h]
 rw [slid]
 refine ⟨⟨⟨_,rfl,fun i hi o ho=>?_⟩,?_,?_⟩,?_⟩
 · rw [plus (fits.offset i hi o ho)]
   refine ⟨by push_cast; rfl,Int.natCast_dvd_natCast.mpr ?_⟩
   rw [amount]
   exact (divides i hi (by rw [ho]; rfl)).mul_left _
 · exact_mod_cast plus fits.start
 · exact_mod_cast plus fits.size
 · change _ ≤ (ro.instanceStart+_).toNat
   rw [plus fits.start]
   omega

theorem forceSlide_slid (laid:LaidOut ro) (room:(forceSlide ro).instanceSize ≤ ro.instanceSize) :
 ∃z,Slid ro (forceSlide ro) z := by
 obtain ⟨a,ha,value,-,divides⟩:=dvd_maxAlignment 8 (fun _=>true)
  ⟨3,by decide,rfl⟩ laid.powers
 let delta:=ro.instanceStart-ro.instanceStart % maxAlignment 8 (fun _=>true) ro.ivarList
 have slid:forceSlide ro=ro.slide (-delta):=by
  rw [forceSlide,ClassRo.slide]
  simp [delta,ClassRo.ivarList,BitVec.sub_eq_add_neg]
 have value:delta.toNat=ro.instanceStart.toNat-ro.instanceStart.toNat % 2^a:=by
  have:=Nat.mod_le ro.instanceStart.toNat (2^a)
  have:=ro.instanceStart.isLt
  rw [BitVec.toNat_sub,BitVec.toNat_umod,value]
  omega
 have multiple:2^a ∣ delta.toNat:=value ▸ Nat.dvd_sub_mod _
 have minus {x:BitVec 32} (h:delta.toNat ≤ x.toNat) :
  ((x + -delta).toNat : ℤ)=x.toNat + -delta.toNat := by
  rw [←BitVec.sub_eq_add_neg,BitVec.toNat_sub_of_le h]
  omega
 have low:delta.toNat ≤ ro.instanceSize.toNat:=by
  have:=ro.instanceSize.isLt
  have:=delta.isLt
  rw [slid,BitVec.le_def] at room
  change (ro.instanceSize + -delta).toNat ≤ _ at room
  rw [←BitVec.sub_eq_add_neg,BitVec.toNat_sub] at room
  omega
 refine ⟨-delta.toNat,⟨-delta,slid,fun i hi o ho=>?_⟩,?_,?_⟩
 · have:=laid.above i hi o ho
   refine ⟨minus (by omega),(Int.natCast_dvd_natCast.mpr ?_).neg_right⟩
   exact (divides i hi rfl).trans multiple
 · rw [slid]
   exact minus (by omega)
 · rw [slid]
   exact minus low

/-- Nothing overflows, neither on the way down nor on the way up. -/
structure NoOverflow (debugNonFragileIvars exempt:Bool) (superSize:BitVec 32) (ro:ClassRo) :
 Prop where
 down : (debugNonFragileIvars && !exempt)=true → (forceSlide ro).instanceSize ≤ ro.instanceSize
 up : let ro₁:=if debugNonFragileIvars && !exempt then forceSlide ro else ro
  ro₁.instanceStart < superSize → MoveFits ro₁ superSize

theorem reconcile_keeps_layout (debugNonFragileIvars exempt:Bool) (superSize:BitVec 32)
 (ro:ClassRo) (laid:LaidOut ro)
 (exact:NoOverflow debugNonFragileIvars exempt superSize ro) :
 let ro':=reconcileInstanceVariables debugNonFragileIvars exempt superSize ro
 superSize ≤ ro'.instanceStart ∧ (∃z,Slid ro ro' z) ∧
  (∀i∈ro'.ivarList,∀o∈i.offset,ro'.instanceStart ≤ o) ∧
  (debugNonFragileIvars=false → superSize ≤ ro.instanceStart → ro'=ro) := by
 obtain ⟨down,up⟩:=exact
 intro ro'
 let ro₁:=if debugNonFragileIvars && !exempt then forceSlide ro else ro
 obtain ⟨z,first⟩ : ∃z,Slid ro ro₁ z:=by
  by_cases forced : (debugNonFragileIvars && !exempt)=true
  · rw [show ro₁=forceSlide ro from if_pos forced]
    exact forceSlide_slid laid (down forced)
  · rw [show ro₁=ro from if_neg forced]
    exact ⟨0,.refl⟩
 have whole:superSize ≤ ro'.instanceStart ∧ ∃z,Slid ro ro' z:=by
  by_cases enough : superSize ≤ ro₁.instanceStart
  · rw [show ro'=ro₁ from if_pos enough]
    exact ⟨enough,z,first⟩
  · rw [show ro'=moveIvars ro₁ superSize from if_neg enough]
    have grown:=BitVec.not_le.mp enough
    obtain ⟨second,far⟩:=moveIvars_slid (first.laidOut laid) grown (up grown)
    exact ⟨far,_,first.trans second⟩
 refine ⟨whole.1,whole.2,?_,fun off enough=>?_⟩
 · obtain ⟨-,z,slid⟩:=whole
   exact (slid.laidOut laid).above
 · subst off
   exact if_pos enough

theorem reconcile_sample : 20 ≤ (reconcileInstanceVariables true false 20
 ⟨16,40,some [⟨some 16,4⟩,⟨none,0⟩,⟨some 36,2⟩]⟩).instanceStart := by
 have reset:forceSlide ⟨16,40,some [⟨some 16,4⟩,⟨none,0⟩,⟨some 36,2⟩]⟩ =
  ⟨0,24,some [⟨some 0,4⟩,⟨none,0⟩,⟨some 20,2⟩]⟩ := by decide
 have amount:slideAmount ⟨0,24,some [⟨some 0,4⟩,⟨none,0⟩,⟨some 20,2⟩]⟩ 20=32:=by decide
 refine (reconcile_keeps_layout true false 20 ⟨16,40,_⟩ ⟨by decide,by simp [ClassRo.ivarList]⟩
  ⟨fun _=>by decide,fun _=>?_⟩).1
 change MoveFits (forceSlide _) 20
 rw [reset]
 constructor <;> rw [amount]
 · decide
 · decide
 · simp [ClassRo.ivarList]

end Slide

end ObjcRuntime.InstanceLayout
