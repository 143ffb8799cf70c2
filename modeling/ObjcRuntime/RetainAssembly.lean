import ObjcRuntime.BitFields
import ObjcRuntime.ProgramSimulation
import ObjcRuntime.RetainRelease

/-!
# The arm64 assembly of `objc_retain` and `objc_release`

The fast paths on whole isa words, beside `rootRetain` and `rootRelease` on their bit-fields.
-/

set_option autoImplicit false
namespace ObjcRuntime.RetainAssembly
open AtomicPrograms BitFields Isa SideTable RetainRelease

/-- The arm64 targets that isa.h tells apart: with pointer authentication (a device or a Mac),
the simulator, and without pointer authentication (a device or a Mac). -/
inductive Target where
 | deviceAuth | macAuth | simulator | device | mac
 deriving DecidableEq

namespace Target

def layout : Target → Layout
 | .deviceAuth | .macAuth | .simulator=>.arm64e
 | .device | .mac=>.arm64

def isaMask : Target → Size
 | .deviceAuth | .macAuth | .simulator=>0x007ffffffffffff8
 | .device | .mac=>0x0000000ffffffff8

/-- `ISA_MASK_NOSIG`, which the assembly applies. -/
def isaMaskNosig : Target → Size
 | .simulator=>0x007ffffffffffff8
 | .macAuth | .mac=>0x00007ffffffffff8
 | .deviceAuth | .device=>0x0000000ffffffff8

/-- What `isa_t::getClass(false)` keeps: `objc_debug_isa_class_mask`, which is `ISA_MASK` within
the mask that covers `OBJC_VM_MAX_ADDRESS`, or `ISA_MASK` without pointer authentication. -/
def classMask : Target → Size
 | .deviceAuth=>0x007ffffffffffff8 &&& 0x0000000fffffffff
 | .macAuth=>0x007ffffffffffff8 &&& 0x00007fffffffffff
 | .simulator=>0x007ffffffffffff8
 | .device | .mac=>0x0000000ffffffff8

def rcHasSidetableBit : Target → ℕ
 | .deviceAuth | .macAuth | .simulator=>55
 | .device | .mac=>44

def useCas : Target → Bool
 | .deviceAuth | .macAuth=>true
 | .simulator | .device | .mac=>false

end Target

/-- The words of a class that reference counting reads: `bits`, the cache's `_unused`,
`_occupied` and `_flags`, and the Swift class flags. -/
structure ClassWords where
 bits : Size
 cacheUnused : BitVec 32
 cacheOccupied : BitVec 16
 cacheFlags : BitVec 16
 swiftFlags : BitVec 32
 deriving DecidableEq

def ClassWords.hasDefaultRR (c:ClassWords) : Bool := c.bits.getLsbD 2

def ClassWords.hasCustomDeallocInitiation (c:ClassWords) : Bool :=
 c.cacheFlags &&& (1#16 <<< 12) != 0

/-- The eight bytes at `CLASS_CACHE_FLAGS_OFFSET`. -/
def ClassWords.cacheWord (c:ClassWords) : Size :=
 c.cacheFlags++c.cacheOccupied++c.cacheUnused

def plainClass : ClassWords := ⟨4,0,0,0,0⟩

abbrev Classes := Size → Option ClassWords

inductive Message where
 | retain | release | dealloc | initiateDealloc
 deriving DecidableEq

/-- How the assembly leaves: a `ret`, a tail call of the C root function, of the `_full` one, of
the Swift one or of `objc_msgSend`, or a load from memory that is not mapped. -/
inductive Exit where
 | ret | root | full | swift | send (m:Message) | fault
 deriving DecidableEq

inductive Pc where
 | load
 | store (p16 p17:Size)
 | exit (e:Exit)
 deriving DecidableEq

def customRR (c:ClassWords) (m:Message) : Pc :=
 if !c.bits.getLsbD 1 then .exit (.send m)
 else if !c.swiftFlags.getLsbD 1 then .exit (.send m)
 else .exit .swift

section Code

variable (t:Target) (classes:Classes)

def retainWord (p16:Size) : Pc :=
 match classes (p16 &&& t.isaMaskNosig) with
 | none=>.exit .fault
 | some c=>
  if !c.bits.getLsbD 2 then customRR c .retain
  else if !p16.getLsbD 0 then .exit .full
  else if p16 >>> t.rcHasSidetableBit=0 then .exit .ret
  else
   let sum:=addc p16 t.layout.rcOne
   if sum.2 then .exit .root else .store p16 sum.1

/-- `RetainFunctionImpl` past the check for nil and tagged pointers. -/
def objcRetain : Pc → Instr Size Entry Pc Exit
 | .load=>.load (retainWord t classes)
 | .store p16 p17=>.store p16 p17 (.exit .ret) fun w =>
  -- `cas` hands over the latest word; `stxr` does not, so it is loaded again
  if t.useCas then retainWord t classes w else .load
 | .exit e=>.ret e

def releaseWord (p16:Size) : Pc :=
 match classes (p16 &&& t.isaMaskNosig) with
 | none=>.exit .fault
 | some c=>
  if !c.bits.getLsbD 2 then customRR c .release
  else if !p16.getLsbD 0 then .exit .full
  else if p16 >>> t.rcHasSidetableBit=0 then .exit .ret
  else if p16 >>> t.rcHasSidetableBit=1 then .exit .root
  else .store p16 (p16-t.layout.rcOne)

/-- `Ldealloc`: the masked isa is still in its register. -/
def sendDealloc (maskedIsa:Size) : Pc :=
 match classes maskedIsa with
 | none=>.exit .fault
 | some c=>
  if c.cacheWord &&& ((1#64 <<< 12) <<< 48)=0 then .exit (.send .dealloc)
  else .exit (.send .initiateDealloc)

def objcRelease : Pc → Instr Size Entry Pc Exit
 | .load=>.load (releaseWord t classes)
 | .store p16 p17=>.store p16 p17
  (if p17 >>> t.rcHasSidetableBit=0 then sendDealloc classes (p16 &&& t.isaMaskNosig)
   else .exit .ret) fun w =>
  if t.useCas then releaseWord t classes w else .load
 | .exit e=>.ret e

/-- Where `objc_retain` and `objc_release` start: nil and tagged pointers are not positive. -/
def entry (self:Size) : Pc := if self.toInt≤0 then .exit .ret else .load

def classAddress (cls:Class t.layout) : Size := BitVec.ofNat 64 (8*cls.val) &&& t.classMask

def infoOf (cls:Class t.layout) : ClassInfo :=
 { ordinaryClass with
   hasCustomRR := match classes (classAddress t cls) with
    | none=>true
    | some c=>!c.hasDefaultRR }

def performDealloc (isa:Word t.layout) : Option Message :=
 (classes (classAddress t isa.shiftcls)).map fun c =>
  if c.hasCustomDeallocInitiation then .initiateDealloc else .dealloc

end Code

section Fields

variable {t:Target} (w:Size)

theorem isaMask_toNat : t.isaMask.toNat=(2^t.layout.clsBits-1)*2^3 := by
 cases t <;> rfl

theorem shiftcls_ofBits :
 (Word.ofBits t.layout w).shiftcls.val=w.toNat / 2^3 % 2^t.layout.clsBits := by
 cases t <;> rfl

theorem shiftcls_masked :
 BitVec.ofNat 64 (8*(Word.ofBits t.layout w).shiftcls.val)=w &&& t.isaMask := by
 have hw:=w.isLt
 have hle:=Nat.mod_le (w.toNat / 2^3) (2^t.layout.clsBits)
 apply BitVec.eq_of_toNat_eq
 rw [BitVec.toNat_and,isaMask_toNat,and_field,shiftcls_ofBits,BitVec.toNat_ofNat,
  Nat.mod_eq_of_lt (by omega)]
 exact Nat.mul_comm _ _

theorem classAddress_ofBits :
 classAddress t (Word.ofBits t.layout w).shiftcls=w &&& t.classMask := by
 rw [classAddress,shiftcls_masked,BitVec.and_assoc]
 congr 1
 cases t <;> decide

theorem nonpointer_ofBits : (Word.ofBits t.layout w).nonpointer=w.getLsbD 0 := by
 cases t <;> simp [Target.layout,Word.ofBits,BitVec.getLsbD,Nat.testBit_zero,beq_eq_decide]

theorem sidetable_shift : (w >>> t.rcHasSidetableBit).toNat =
  2*(Word.ofBits t.layout w).extraRc.val +
   (Word.ofBits t.layout w).hasSidetableRc.toNat := by
 have hw:=w.isLt
 rw [BitVec.toNat_ushiftRight,Nat.shiftRight_eq_div_pow]
 cases t <;> simp only [Target.layout,Target.rcHasSidetableBit,Word.ofBits,beq_one_toNat] <;>
  omega

theorem shift_eq_zero_iff :
 w >>> t.rcHasSidetableBit=0 ↔ (Word.ofBits t.layout w).isDeallocating=true := by
 rw [←BitVec.toNat_inj,sidetable_shift,isDeallocating_iff]
 cases (Word.ofBits t.layout w).hasSidetableRc <;> simp

theorem shift_eq_one_iff : w >>> t.rcHasSidetableBit=1 ↔ (Word.ofBits t.layout w).extraRc.val=0 ∧
   (Word.ofBits t.layout w).hasSidetableRc=true := by
 rw [←BitVec.toNat_inj,sidetable_shift]
 cases (Word.ofBits t.layout w).hasSidetableRc <;> simp

theorem addRC_ofBits (L:Layout) :
 (Word.ofBits L w).addRC 1=(Word.ofBits L (addc w L.rcOne).1,(addc w L.rcOne).2) := by
 simp [Word.addRC,bits_ofBits]

theorem subRC_ofBits (L:Layout) : (Word.ofBits L w).subRC.1=Word.ofBits L (w-L.rcOne) := by
 simp [Word.subRC,bits_ofBits,subc]

theorem ClassWords.custom_flag (c:ClassWords) :
 c.cacheWord &&& ((1#64 <<< 12) <<< 48)=0 ↔ c.hasCustomDeallocInitiation=false := by
 have hshift:(1#64 <<< 12) <<< 48=1#64 <<< 60:=by decide
 have hbit:c.cacheWord.getLsbD 60=c.cacheFlags.getLsbD 12:=by grind [ClassWords.cacheWord]
 rw [hshift,and_bit_eq_zero _ (by omega),hbit,←and_bit_eq_zero _ (by omega),
  ClassWords.hasCustomDeallocInitiation,bne_eq_false_iff_eq]

end Fields

/-- A word that both codes take to the same class, one with default RR. -/
structure Ordinary (t:Target) (classes:Classes) (w:Size) : Prop where
 nonpointer : w.getLsbD 0=true
 masks : w &&& t.isaMaskNosig=w &&& t.classMask
 defaultRR : ∃c,classes (w &&& t.classMask)=some c ∧ c.hasDefaultRR=true

/-- Where a retain stands in both codes: `rootRetain` in its fast variant, or at the call of
`rootRetain_overflow`. -/
inductive SameRetain (t:Target) : Option Size → Pc → RetainPc t.layout → Prop where
 | start : SameRetain t none .load (.enter .fastOrMsgSend)
 | reload (oldisa) : SameRetain t none .load (.store .fastOrMsgSend false oldisa)
 | deallocating : SameRetain t none (.exit .ret) (.ret .deallocating)
 | overflow : SameRetain t none (.exit .root) (.enter .full)
 | update (w newisa) (same:Word.ofBits t.layout newisa=retainNewisa (Word.ofBits t.layout w))
  (fits:((Word.ofBits t.layout w).addRC 1).2=false) :
  SameRetain t none (.store w newisa) (.store .fastOrMsgSend false (Word.ofBits t.layout w))
 | retained (newisa) : SameRetain t (some newisa) (.exit .ret) (.ret .retained)

/-- Where a release stands in both codes. The message that follows a dealloc is the one
`performDealloc` sends to the object as it was stored. -/
inductive SameRelease (t:Target) (classes:Classes) :
 Option Size → Pc → ReleasePc t.layout → Prop where
 | start : SameRelease t classes none .load (.enter .fastOrMsgSend)
 | reload (oldisa) :
  SameRelease t classes none .load (.store .fastOrMsgSend false oldisa)
 | deallocating : SameRelease t classes none (.exit .ret) (.ret .alreadyDeallocating)
 | underflow : SameRelease t classes none (.exit .root) (.enter .full)
 | update (w newisa) (same:Word.ofBits t.layout newisa=(Word.ofBits t.layout w).subRC.1) :
  SameRelease t classes none (.store w newisa)
   (.store .fastOrMsgSend false (Word.ofBits t.layout w))
 | released (newisa) : SameRelease t classes (some newisa) (.exit .ret) (.ret .released)
 | dealloc (newisa m) (sent:performDealloc t classes (Word.ofBits t.layout newisa)=some m) :
  SameRelease t classes (some newisa) (.exit (.send m)) (.ret .dealloc)

section Decisions

variable {t:Target} {classes:Classes} {w:Size}

theorem Ordinary.info (ho:Ordinary t classes w) :
 (infoOf t classes (Word.ofBits t.layout w).shiftcls).hasCustomRR=false := by
 grind [ho.defaultRR,infoOf,classAddress_ofBits]

theorem Ordinary.nonpointer_word (ho:Ordinary t classes w) :
 (Word.ofBits t.layout w).nonpointer=true := by
 rw [nonpointer_ofBits,ho.nonpointer]

theorem retain_decides (ho:Ordinary t classes w) : SameRetain t none (retainWord t classes w)
  (retainLoop false .fastOrMsgSend false (Word.ofBits t.layout w)) := by
 obtain ⟨c,hc,hdefault⟩:=ho.defaultRR
 have hbit:c.bits.getLsbD 2=true:=hdefault
 rw [retainWord,ho.masks,hc,retainLoop]
 simp only [hbit,ho.nonpointer,ho.nonpointer_word,Bool.not_true,Bool.false_eq_true,if_false]
 by_cases hdead : (Word.ofBits t.layout w).isDeallocating=true
 · rw [if_pos ((shift_eq_zero_iff w).mpr hdead),if_pos hdead]
   exact .deallocating
 · rw [if_neg (fun h=>hdead ((shift_eq_zero_iff w).mp h)),if_neg hdead]
   have hadd:=addRC_ofBits w t.layout
   cases hcarry : (addc w t.layout.rcOne).2 with
   | true=>
    rw [hadd,hcarry]
    exact .overflow
   | false=>
    rw [hadd,hcarry]
    refine .update w _ ?_ ?_
    · simp [retainNewisa,hadd,hcarry]
    · rw [hadd,hcarry]

theorem release_decides (ho:Ordinary t classes w) :
 SameRelease t classes none (releaseWord t classes w)
  (releaseLoop .fastOrMsgSend false (Word.ofBits t.layout w)) := by
 obtain ⟨c,hc,hdefault⟩:=ho.defaultRR
 have hbit:c.bits.getLsbD 2=true:=hdefault
 have hborrow:=congrArg Prod.snd (subRC_eq (Word.ofBits t.layout w))
 rw [releaseWord,ho.masks,hc,releaseLoop]
 simp only [hbit,ho.nonpointer,ho.nonpointer_word,Bool.not_true,Bool.false_eq_true,if_false]
 by_cases hdead : (Word.ofBits t.layout w).isDeallocating=true
 · rw [if_pos ((shift_eq_zero_iff w).mpr hdead),if_pos hdead]
   exact .deallocating
 rw [if_neg (fun h=>hdead ((shift_eq_zero_iff w).mp h)),if_neg hdead]
 by_cases hempty : w >>> t.rcHasSidetableBit=1
 · have hfields:=(shift_eq_one_iff w).mp hempty
   have hunder:(Word.ofBits t.layout w).subRC.2=true:=by
    rw [hborrow]
    simpa using hfields.1
   rw [if_pos hempty,if_pos hunder,releaseUnderflow,if_pos hfields.2]
   exact .underflow
 · have hfits:(Word.ofBits t.layout w).subRC.2=false:=by
    grind [shift_eq_one_iff,isDeallocating_iff]
   rw [if_neg hempty,if_neg (by simp [hfits])]
   exact .update w _ (subRC_ofBits w t.layout).symm

theorem sendDealloc_eq (ho:Ordinary t classes w) :
 ∃m,sendDealloc classes (w &&& t.isaMaskNosig)=.exit (.send m) ∧
  performDealloc t classes (Word.ofBits t.layout (w-t.layout.rcOne))=some m := by
 obtain ⟨c,hc,-⟩:=ho.defaultRR
 have hcls:(Word.ofBits t.layout (w-t.layout.rcOne)).shiftcls =
  (Word.ofBits t.layout w).shiftcls := by
  rw [←subRC_ofBits,congrArg Prod.fst (subRC_eq (Word.ofBits t.layout w))]
  rfl
 rw [performDealloc,hcls,classAddress_ofBits,sendDealloc,ho.masks,hc]
 cases hcustom : c.hasCustomDeallocInitiation with
 | true=>
  refine ⟨.initiateDealloc,?_,by simp [hcustom]⟩
  simp only [if_neg (fun h=>absurd (c.custom_flag.mp h) (by simp [hcustom]))]
 | false=>
  refine ⟨.dealloc,?_,by simp [hcustom]⟩
  simp only [if_pos (c.custom_flag.mpr hcustom)]

end Decisions

section Runs

variable {t:Target} {classes:Classes}

theorem retain_simulates : Simulation (objcRetain t classes) (rootRetain (infoOf t classes) false)
  (Word.ofBits t.layout) (Ordinary t classes) (SameRetain t) where
 load := by
  intro b p q k w hs hp hw
  have hdecide:=retain_decides hw
  cases hs with
  | start=>
   cases hp
   refine .inl ⟨_,rfl,?_⟩
   simpa [hw.info,hw.nonpointer_word] using hdecide
  | reload oldisa=>
   cases hp
   exact .inr ⟨_,_,_,_,rfl,hdecide⟩
  | deallocating | overflow | update | retained=>cases hp
 stored := by
  intro b p q old new s g hs hp hold
  cases hs with
  | start | reload | deallocating | overflow | retained=>cases hp
  | update w newisa same fits=>
   cases hp
   exact ⟨_,_,by rw [same]; rfl,.retained _⟩
 failed := by
  intro b p q old new s g w hs hp hw
  cases hs with
  | start | reload | deallocating | overflow | retained=>cases hp
  | update w' newisa same fits=>
   cases hp
   cases hcas : t.useCas with
   | true=>exact .inr ⟨_,_,_,_,rfl,by simpa [hcas] using retain_decides hw⟩
   | false=>exact .inl (by simpa [hcas] using .reload _)

theorem release_simulates : Simulation (objcRelease t classes) (rootRelease (infoOf t classes))
  (Word.ofBits t.layout) (Ordinary t classes) (SameRelease t classes) where
 load := by
  intro b p q k w hs hp hw
  have hdecide:=release_decides hw
  cases hs with
  | start=>
   cases hp
   refine .inl ⟨_,rfl,?_⟩
   simpa [hw.info,hw.nonpointer_word] using hdecide
  | reload oldisa=>
   cases hp
   exact .inr ⟨_,_,_,_,rfl,hdecide⟩
  | deallocating | underflow | update | released | dealloc=>cases hp
 stored := by
  intro b p q old new s g hs hp hold
  cases hs with
  | start | reload | deallocating | underflow | released | dealloc=>cases hp
  | update w newisa same=>
   cases hp
   have hnew:new=old-t.layout.rcOne:=by
    rw [←bits_ofBits t.layout new,same,subRC_ofBits,bits_ofBits]
   refine ⟨_,_,by rw [same]; rfl,?_⟩
   by_cases hdead : (Word.ofBits t.layout old).subRC.1.isDeallocating=true
   · rw [if_pos ((shift_eq_zero_iff new).mpr (by rwa [same])),if_pos hdead]
     obtain ⟨m,hsend,hperform⟩:=sendDealloc_eq hold
     rw [hsend]
     exact .dealloc new m (by rwa [hnew])
   · rw [if_neg (fun h=>hdead (by rw [←same]; exact (shift_eq_zero_iff new).mp h)),if_neg hdead]
     exact .released new
 failed := by
  intro b p q old new s g w hs hp hw
  cases hs with
  | start | reload | deallocating | underflow | released | dealloc=>cases hp
  | update w' newisa same=>
   cases hp
   cases hcas : t.useCas with
   | true=>exact .inr ⟨_,_,_,_,rfl,by simpa [hcas] using release_decides hw⟩
   | false=>exact .inl (by simpa [hcas] using .reload _)

/-- Except on a Mac without pointer authentication, the assembly and the C code take every isa
word to the same class. -/
theorem masks_agree (ht:t≠.mac) (w:Size) : w &&& t.isaMaskNosig=w &&& t.classMask := by
 congr 1
 cases t with
 | deviceAuth | macAuth | simulator | device=>decide
 | mac=>exact absurd rfl ht

theorem masks_of_decides {w:Size}
 (h:∀classes c,classes (w &&& t.classMask)=some c → c.hasDefaultRR=true →
  SameRetain t none (retainWord t classes w)
   (retainLoop false .fastOrMsgSend false (Word.ofBits t.layout w))) :
 w &&& t.isaMaskNosig=w &&& t.classMask := by
 by_contra hmasks
 -- only the class that C decodes is mapped
 have hsame:=h (fun a=>if a=w &&& t.classMask then some plainClass else none) plainClass
  (if_pos rfl) (by decide)
 rw [retainWord,if_neg hmasks] at hsame
 cases hsame

end Runs

/-- At every isa word with the nonpointer bit the assembly decides as `rootRetain` and
`rootRelease` do, for every class with default RR, exactly when `ISA_MASK_NOSIG` leaves the class
that C decodes; and every run under competing stores that keep to such words makes the stores of a
run of the C code and leaves as it does. -/
theorem assembly_refines_rootRetain_rootRelease (t:Target) : (∀w : Size,w.getLsbD 0=true →
  ((∀classes c,classes (w &&& t.classMask)=some c → c.hasDefaultRR=true →
   SameRetain t none (retainWord t classes w)
    (retainLoop false .fastOrMsgSend false (Word.ofBits t.layout w)) ∧
   SameRelease t classes none (releaseWord t classes w)
    (releaseLoop .fastOrMsgSend false (Word.ofBits t.layout w))) ↔
   w &&& t.isaMaskNosig=w &&& t.classMask)) ∧
 ∀(classes:Classes) (self:Size) (tr:List (Size × Option Size)) (e:Exit),
  0 < self.toInt → (∀x∈tr,Ordinary t classes x.1) →
  (Reaches (objcRetain t classes) (entry self) tr (.exit e) →
   ∃tr' q,Reaches (rootRetain (infoOf t classes) false) (.enter .fastOrMsgSend) tr' q ∧
    (tr'.map Prod.fst).Sublist (tr.map fun x=>Word.ofBits t.layout x.1) ∧
    stores tr'=(stores tr).map (Word.ofBits t.layout) ∧
    SameRetain t (lastStore none tr) (.exit e) q) ∧
  (Reaches (objcRelease t classes) (entry self) tr (.exit e) →
   ∃tr' q,Reaches (rootRelease (infoOf t classes)) (.enter .fastOrMsgSend) tr' q ∧
    (tr'.map Prod.fst).Sublist (tr.map fun x=>Word.ofBits t.layout x.1) ∧
    stores tr'=(stores tr).map (Word.ofBits t.layout) ∧
    SameRelease t classes (lastStore none tr) (.exit e) q) := by
 refine ⟨fun w hw=>⟨fun h=>?_,fun hmasks classes c hc hdefault=>?_⟩,?_⟩
 · exact masks_of_decides fun classes c hc hdefault=>(h classes c hc hdefault).1
 · grind [Ordinary,retain_decides,release_decides]
 · intro classes self tr e hself hwords
   rw [entry,if_neg (by omega)]
   exact ⟨fun hr=>retain_simulates.reaches hr hwords .start,
    fun hr=>release_simulates.reaches hr hwords .start⟩

def oneClass : Classes := fun a=>if a=0x100008000 then some plainClass else none

theorem assembly_retains_authenticated_object :
 ∃tr' q,Reaches (rootRetain (infoOf .macAuth oneClass) false) (.enter .fastOrMsgSend) tr' q ∧
  stores tr'=[Word.ofBits .arm64e 0x0200000100008001] ∧
  SameRetain .macAuth (some 0x0200000100008001) (.exit .ret) q := by
 have hword:Ordinary .macAuth oneClass 0x0100000100008001 :=
  ⟨by decide,by decide,plainClass,by decide +kernel,rfl⟩
 obtain ⟨tr',q,hr,-,hstores,hsame⟩ :=
  ((assembly_refines_rootRetain_rootRelease .macAuth).2 oneClass 0x600000
    [(0x0100000100008001,none),(0x0100000100008001,some 0x0200000100008001)] .ret (by decide)
    (by simpa using hword)).1
    (.load rfl (.stored (by rfl) (.refl _)))
 exact ⟨tr',q,hr,hstores,hsame⟩

def freshIsa : Size := (Word.init (L:=.arm64) ⟨0x100008000 / 8,by decide⟩ false).bits

/-- On a Mac without pointer authentication `ISA_MASK_NOSIG` keeps the magic bits of every isa
that `initIsa` makes, and the assembly looks for the class where there is none. -/
theorem assembly_misreads_class_on_plain_mac :
 freshIsa.getLsbD 0=true ∧ oneClass (freshIsa &&& Target.mac.classMask)=some plainClass ∧
  plainClass.hasDefaultRR=true ∧
  retainLoop false .fastOrMsgSend false (Word.ofBits .arm64 freshIsa) =
   .store .fastOrMsgSend false (Word.ofBits .arm64 freshIsa) ∧
  retainWord .mac oneClass freshIsa=.exit .fault ∧
  releaseWord .mac oneClass freshIsa=.exit .fault := by
 decide +kernel

end ObjcRuntime.RetainAssembly
