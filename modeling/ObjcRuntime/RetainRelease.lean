import ObjcRuntime.SideTable

/-!
# `rootRetain`, `rootRelease` and `changeIsa` as flowcharts

A label is a point of the source just before an atomic step, with the live local variables. Only
`changeIsa` keeps `newisa` across a failed store.
-/
set_option autoImplicit false
namespace ObjcRuntime.RetainRelease
open AtomicPrograms Isa SideTable

variable {L:Layout}

abbrev Class (L:Layout) := Fin (2^L.clsBits)

structure ClassInfo where
 isMetaClass : Bool
 hasCustomRR : Bool
 canCallSwiftRR : Bool
 isFuture : Bool
 canAllocNonpointer : Bool
 hasCxxDtor : Bool

def ordinaryClass : ClassInfo where
 isMetaClass := false
 hasCustomRR := false
 canCallSwiftRR := false
 isFuture := false
 canAllocNonpointer := true
 hasCxxDtor := false

inductive RRVariant where
 | fast | fastOrMsgSend | full
 deriving DecidableEq

/-- How a retain ended. `rootRetain` returns nil only for a failed `tryRetain`;
    `sent` is the tail call to `-retain` or `swift_retain`. -/
inductive RetainResult where
 | retained | deallocating | classObject | sent
 deriving DecidableEq

inductive RetainPc (L:Layout) where
 | enter (variant:RRVariant)
 | lockOverflow (oldisa:Word L)
 | store (variant:RRVariant) (sideTableLocked:Bool) (oldisa:Word L)
 | addExtraRC
 | unlock (r:RetainResult)
 | tableRetainLock
 | tableRetain
 | tableRetainUnlock
 | tableTryRetain
 | ret (r:RetainResult)
 deriving DecidableEq

/-- `newisa` of a retain: one more inline, or half of an overflowing count. -/
def retainNewisa (oldisa:Word L) : Word L :=
 let sum:=oldisa.addRC 1
 if sum.2 then {sum.1.setExtraRc L.rcHalf with hasSidetableRc:=true} else sum.1

def retainLoop (tryRetain:Bool) (variant:RRVariant) (sideTableLocked:Bool)
 (oldisa:Word L) : RetainPc L :=
 if !oldisa.nonpointer then
  if tryRetain then .tableTryRetain
  else if sideTableLocked then .tableRetain else .tableRetainLock
 else if oldisa.isDeallocating then
  -- The flag is also set when `tryRetain` skipped the lock; see the overflow branch.
  if sideTableLocked then .unlock .deallocating else .ret .deallocating
 else if (oldisa.addRC 1).2 then
  if variant≠.full then .enter .full
  else if !tryRetain && !sideTableLocked then .lockOverflow oldisa
  else .store variant true oldisa
 else .store variant sideTableLocked oldisa

/-- `objc_object::rootRetain(tryRetain, variant)` with `rootRetain_overflow`, which
    re-enters it with `RRVariant::Full`. -/
def rootRetain (info:Class L → ClassInfo) (tryRetain:Bool) :
 RetainPc L → Instr (Word L) Entry (RetainPc L) RetainResult
 | .enter variant=>.load fun oldisa =>
  if variant=.fastOrMsgSend ∧ (info oldisa.shiftcls).hasCustomRR then .ret .sent
  else if !oldisa.nonpointer && (info oldisa.shiftcls).isMetaClass then .ret .classObject
  else retainLoop tryRetain variant false oldisa
 | .lockOverflow oldisa=>.lock (.store .full true oldisa)
 | .store variant locked oldisa=>.store oldisa (retainNewisa oldisa)
  (if variant≠.full then .ret .retained
   else if (oldisa.addRC 1).2 then .addExtraRC
   else if !tryRetain && locked then .unlock .retained else .ret .retained)
  (retainLoop tryRetain variant locked)
 | .addExtraRC=>.access (sidetableAddExtraRCNolock (BitVec.ofNat 64 L.rcHalf)) fun _ =>
  if !tryRetain then .unlock .retained else .ret .retained
 | .unlock r=>.unlock (.ret r)
 | .tableRetainLock=>.lock .tableRetain
 | .tableRetain=>.access sidetableRetain fun _=>.tableRetainUnlock
 | .tableRetainUnlock=>.unlock (.ret .retained)
 | .tableTryRetain=>.access sidetableTryRetain fun result =>
  .ret (if result then .retained else .deallocating)
 | .ret r=>.ret r

/-- How a release ended: whether it started deallocation, or found it started. -/
inductive ReleaseResult where
 | released | dealloc | alreadyDeallocating | classObject | sent
 deriving DecidableEq

inductive ReleasePc (L:Layout) where
 | enter (variant:RRVariant)
 | reload
 | store (variant:RRVariant) (sideTableLocked:Bool) (oldisa:Word L)
 | lockUnderflow
 | borrow (oldisa:Word L)
 | storeBorrow (oldisa:Word L) (b:Borrow)
 | storeBorrowAgain (oldisa:Word L) (b:Borrow)
 | putBack (b:Borrow)
 | clearExtraRC (r:ReleaseResult)
 | unlock (r:ReleaseResult)
 | tableReleaseLock
 | tableRelease
 | tableReleaseUnlock (r:ReleaseResult)
 | ret (r:ReleaseResult)
 deriving DecidableEq

def releaseExit (sideTableLocked:Bool) (r:ReleaseResult) : ReleasePc L :=
 if sideTableLocked then .unlock r else .ret r

/-- The `underflow` label. Without `has_sidetable_rc` it falls through to `deallocate`. -/
def releaseUnderflow (variant:RRVariant) (sideTableLocked:Bool) (oldisa:Word L) : ReleasePc L :=
 if oldisa.hasSidetableRc then
  if variant≠.full then .enter .full
  else if !sideTableLocked then .lockUnderflow
  else .borrow oldisa
 else releaseExit sideTableLocked .dealloc

def releaseLoop (variant:RRVariant) (sideTableLocked:Bool) (oldisa:Word L) : ReleasePc L :=
 if !oldisa.nonpointer then
  if sideTableLocked then .tableRelease else .tableReleaseLock
 else if oldisa.isDeallocating then releaseExit sideTableLocked .alreadyDeallocating
 else if oldisa.subRC.2 then releaseUnderflow variant sideTableLocked oldisa
 else .store variant sideTableLocked oldisa

def emptySideTable (b:Borrow) : Bool := b.remaining == 0

/-- `newisa` when the borrowed count goes into an empty inline count, less this release. -/
def borrowNewisa (oldisa:Word L) (b:Borrow) : Word L :=
 {oldisa.setExtraRc (b.borrowed.toNat-1) with hasSidetableRc:=!emptySideTable b}

/-- `newisa` of the second try: the borrowed count on top of what is inline now. -/
def borrowAgainNewisa (oldisa:Word L) (b:Borrow) : Word L :=
 {(oldisa.addRC (b.borrowed.toNat-1)).1 with hasSidetableRc:=!emptySideTable b}

def borrowStored (b:Borrow) (r:ReleaseResult) : ReleasePc L :=
 if emptySideTable b then .clearExtraRC r else .unlock r

/-- `objc_object::rootRelease(performDealloc, variant)` with `rootRelease_underflow`. The
    `dealloc` message of `performDealloc` is sent after the last step, outside the lock. -/
def rootRelease (info:Class L → ClassInfo) :
 ReleasePc L → Instr (Word L) Entry (ReleasePc L) ReleaseResult
 | .enter variant=>.load fun oldisa =>
  if variant=.fastOrMsgSend ∧ (info oldisa.shiftcls).hasCustomRR then .ret .sent
  else if !oldisa.nonpointer && (info oldisa.shiftcls).isMetaClass then .ret .classObject
  else releaseLoop variant false oldisa
 | .reload=>.load (releaseLoop .full true)
 | .store variant locked oldisa=>.store oldisa oldisa.subRC.1
  (if oldisa.subRC.1.isDeallocating then releaseExit locked .dealloc
   else if variant≠.full then .ret .released else releaseExit locked .released)
  (releaseLoop variant locked)
 | .lockUnderflow=>.lock .reload
 | .borrow oldisa=>.access (sidetableSubExtraRCNolock (BitVec.ofNat 64 L.rcHalf)) fun b =>
  -- "Side table is empty after all. Fall-through to the dealloc path."
  if b.borrowed.toNat > 0 then .storeBorrow oldisa b else .unlock .dealloc
 | .storeBorrow oldisa b=>.store oldisa (borrowNewisa oldisa b) (borrowStored b .released)
  fun oldisa =>
   if oldisa.nonpointer && !(oldisa.addRC (b.borrowed.toNat-1)).2 then
    .storeBorrowAgain oldisa b
   else .putBack b
 | .storeBorrowAgain oldisa b=>.store oldisa (borrowAgainNewisa oldisa b)
  (borrowStored b (if (borrowAgainNewisa oldisa b).isDeallocating then .dealloc else .released))
  fun _=>.putBack b
 | .putBack b=>.access (sidetableAddExtraRCNolock b.borrowed) fun _=>.reload
 | .clearExtraRC r=>.access sidetableClearExtraRCNolock fun _=>.unlock r
 | .unlock r=>.unlock (.ret r)
 | .tableReleaseLock=>.lock .tableRelease
 | .tableRelease=>.access sidetableRelease fun doDealloc =>
  .tableReleaseUnlock (if doDealloc then .dealloc else .released)
 | .tableReleaseUnlock r=>.unlock (.ret r)
 | .ret r=>.ret r

inductive ChangePc (L:Layout) where
 | enter
 | lock (oldisa newisa:Word L)
 | store (sideTableLocked transcribeToSideTable:Bool) (oldisa newisa:Word L)
 | moveExtraRC (oldisa:Word L)
 | unlock (oldisa:Word L)
 | ret (oldisa:Word L)
 deriving DecidableEq

/-- The nonpointer isa that replaces `oldisa`, which is zero or nonpointer. -/
def changeNonpointer (newCls:Class L) (hasCxxDtor:Bool) (oldisa:Word L) : Word L :=
 if oldisa.bits=0 then Word.init newCls hasCxxDtor
 else { oldisa with
  hasCxxDtor := ⟨hasCxxDtor.toNat % 2^L.cxxDtorBits,cxxDtor_lt L hasCxxDtor⟩
  shiftcls := newCls }

/-- The body of the `do` loop. `newisa` is whatever the previous pass left in it. -/
def changeLoop (info:Class L → ClassInfo) (newCls:Class L) (sideTableLocked:Bool)
 (newisa oldisa:Word L) : ChangePc L :=
 if (oldisa.bits=0 ∨ oldisa.nonpointer=true) ∧ (info newCls).isFuture=false ∧
     (info newCls).canAllocNonpointer=true then
  .store sideTableLocked false oldisa (changeNonpointer newCls (info newCls).hasCxxDtor oldisa)
 else if oldisa.nonpointer then
  if !sideTableLocked then .lock oldisa (newisa.setClass newCls)
  else .store true true oldisa (newisa.setClass newCls)
 else .store sideTableLocked false oldisa (newisa.setClass newCls)

/-- `objc_object::changeIsa(newCls)`; it returns the class of the isa it replaced. -/
def changeIsa (info:Class L → ClassInfo) (newCls:Class L) :
 ChangePc L → Instr (Word L) Entry (ChangePc L) (Class L)
 | .enter=>.load (changeLoop info newCls false (Word.zero L))
 | .lock oldisa newisa=>.lock (.store true true oldisa newisa)
 | .store locked transcribe oldisa newisa=>.store oldisa newisa
  (if transcribe then .moveExtraRC oldisa
   else if locked then .unlock oldisa else .ret oldisa)
  (changeLoop info newCls locked newisa)
 | .moveExtraRC oldisa=>.access (sidetableMoveExtraRCNolock (BitVec.ofNat 64 oldisa.extraRc.val)
  oldisa.isDeallocating oldisa.weaklyReferenced) fun _=>.unlock oldisa
 | .unlock oldisa=>.unlock (.ret oldisa)
 | .ret oldisa=>.ret oldisa.shiftcls

inductive WeakPc (L:Layout) where
 | enter
 | store (oldisa:Word L)
 | tableSet
 | ret
 deriving DecidableEq

def weakLoop (oldisa:Word L) : WeakPc L :=
 if !oldisa.nonpointer then .tableSet
 else if oldisa.weaklyReferenced then .ret
 else .store oldisa

/-- `objc_object::setWeaklyReferenced_nolock`, called with the side table lock held. -/
def setWeaklyReferencedNolock : WeakPc L → Instr (Word L) Entry (WeakPc L) Unit
 | .enter=>.load weakLoop
 | .store oldisa=>.store oldisa {oldisa with weaklyReferenced:=true} .ret weakLoop
 | .tableSet=>.access sidetableSetWeaklyReferencedNolock fun _=>.ret
 | .ret=>.ret ()

end ObjcRuntime.RetainRelease
