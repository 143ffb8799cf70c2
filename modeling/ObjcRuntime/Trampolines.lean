import ObjcRuntime.SlotFreeList

/-!
# Block trampolines

The page groups in the order of `nextPageGroup`; the first is `HeadPageGroup`.  A data page has one
payload word for each trampoline of the text pages.
-/

set_option autoImplicit false
namespace ObjcRuntime.Trampolines

open SlotFreeList

abbrev Imp := ℕ
abbrev Block := ℕ

/-- The sizes that come with libobjc-trampolines; `dataSize` is `TRAMPOLINE_PAGE_SIZE`. -/
structure Layout where
 slotSize : ℕ
 dataSize : ℕ
 headerSize : ℕ
 argumentModeCount : ℕ
 textSegmentSize : ℕ
 slot_pos : 0 < slotSize
 header : slotSize ≤ headerSize
 room : headerSize / slotSize < dataSize / slotSize
 text : dataSize*(1+argumentModeCount) ≤ textSegmentSize

structure PageGroup where
 address : ℕ
 nextAvailablePage : Option ℕ
 nextAvailable : ℕ
 payload : ℕ → ℕ

abbrev State := List PageGroup

def PageGroup.slots (g:PageGroup) : Slots := ⟨g.payload,g.nextAvailable⟩

section Model

variable (L:Layout)

def Layout.startIndex : ℕ := L.headerSize / L.slotSize
def Layout.endIndex : ℕ := L.dataSize / L.slotSize

def validIndex (index:ℕ) : Bool := L.startIndex ≤ index && index < L.endIndex

/-- Skip the data, the Mach-O header page and the text pages of the modes before. -/
def trampolinesForMode (this mode:ℕ) : ℕ := this+L.dataSize+L.dataSize*(1+mode)

/-- `none` is the fatal error of an invalid index. -/
def trampoline (this mode index:ℕ) : Option Imp :=
 if validIndex L index then some (trampolinesForMode L this mode+index*L.slotSize) else none

def indexForTrampoline (this tramp:ℕ) : ℕ :=
 ((List.range L.argumentModeCount).findSome? fun mode =>
   if trampolinesForMode L this mode+L.startIndex*L.slotSize ≤ tramp ∧
    tramp < trampolinesForMode L this mode+L.endIndex*L.slotSize then
    some ((tramp-trampolinesForMode L this mode) / L.slotSize)
   else none).getD 0

def newPageGroup (address:ℕ) : PageGroup := ⟨address,none,L.startIndex,fun _=>0⟩

def allocateTrampolinesAndData (address:ℕ) (s:State) : State × ℕ :=
 match s with
 | []=>([newPageGroup L address],0)
 | head::rest=>
  ({head with nextAvailablePage:=some s.length} :: rest++[newPageGroup L address],s.length)

def getOrAllocatePageGroupWithNextAvailable (address:ℕ) (s:State) : State × ℕ :=
 match s with
 | []=>allocateTrampolinesAndData L address s
 | head::_=>
  -- make sure head page is filled first
  if head.nextAvailable≠L.endIndex then (s,0)
  else
   match head.nextAvailablePage with
   | some page=>(s,page)
   | none=>allocateTrampolinesAndData L address s

def pageAndIndexFrom (tramp:ℕ) (page:ℕ) : State → Option (ℕ × ℕ)
 | []=>none
 | g::rest=>
  if indexForTrampoline L g.address tramp≠0 then
   some (page,indexForTrampoline L g.address tramp)
  else pageAndIndexFrom tramp (page+1) rest

def pageAndIndexContainingIMP (anImp:Imp) (s:State) : Option (ℕ × ℕ) :=
 pageAndIndexFrom L anImp 0 s

def findBefore (s:State) (page:ℕ) : (fuel:ℕ) → Option ℕ → Option (Option ℕ)
 | _,none=>some none
 | 0,some _=>none
 | fuel+1,some iterator=>s[iterator]?.bind fun g =>
  if g.nextAvailablePage=some page then some (some iterator)
  else findBefore s page fuel g.nextAvailablePage

def setNextAvailablePage (page:ℕ) (next:Option ℕ) (s:State) : State :=
 s.modify page fun g=>{g with nextAvailablePage:=next}

def removeFromAvailable (page:ℕ) (s:State) : Option State :=
 (findBefore s page (s.length+1) (some 0)).bind fun iterator =>
  match iterator with
  | none=>some s
  | some iterator=>s[page]?.map fun g =>
   setNextAvailablePage page none (setNextAvailablePage iterator g.nextAvailablePage s)

def setPayload (page index word:ℕ) (s:State) : State :=
 s.modify page fun g=>{g with payload:=Function.update g.payload index word}

def setNextAvailable (page next:ℕ) (s:State) : State :=
 s.modify page fun g=>{g with nextAvailable:=next}

/-- `_imp_implementationWithBlockNoCopy`; `mode` is `argumentModeForBlock(block)`.  `none` is a
fatal error or a loop that does not end. -/
def implementationWithBlockNoCopy (address:ℕ) (block:Block) (mode:ℕ) (s:State) :
 Option (State × Imp) :=
 let found:=getOrAllocatePageGroupWithNextAvailable L address s
 found.1[found.2]?.bind fun g =>
  let index:=g.nextAvailable
  let next:=successor g.payload index
  let advanced:=setNextAvailable found.2 next found.1
  (if next=L.endIndex then removeFromAvailable found.2 advanced else some advanced).bind
   fun s'=>(trampoline L g.address mode index).map fun imp=>(setPayload found.2 index block s',imp)

def impGetBlock (anImp:Imp) (s:State) : Option Block :=
 if anImp=0 then none
 else (pageAndIndexContainingIMP L anImp s).bind fun found=>s[found.1]?.bind fun g =>
  if g.payload found.2 ≤ L.endIndex then none else some (g.payload found.2)

def lastBefore (s:State) (page:ℕ) : (fuel iterator:ℕ) → Option ℕ
 | 0,_=>none
 | fuel+1,iterator=>s[iterator]?.bind fun g =>
  match g.nextAvailablePage with
  | none=>some iterator
  | some next=>if next=page then some iterator else lastBefore s page fuel next

def addToAvailable (page:ℕ) (s:State) : Option State :=
 (lastBefore s page (s.length+1) 0).bind fun iterator=>s[iterator]?.map fun g =>
  if g.nextAvailablePage=none then
   setNextAvailablePage page none (setNextAvailablePage iterator (some page) s)
  else s

/-- `imp_removeBlock`; `none` is a loop that does not end. -/
def impRemoveBlock (anImp:Imp) (s:State) : Option (State × Bool) :=
 if anImp=0 then some (s,false)
 else
  match pageAndIndexContainingIMP L anImp s with
  | none=>some (s,false)
  | some (page,index)=>s[page]?.bind fun g =>
   (addToAvailable page (setNextAvailable page index
    (setPayload page index g.nextAvailable s))).map (·,true)

def freeList (g:PageGroup) : List ℕ := listFrom L.endIndex g.payload L.endIndex g.nextAvailable

end Model

section Addresses

variable {L:Layout}

theorem Layout.startIndex_pos (L:Layout) : 0 < L.startIndex :=
 Nat.div_pos L.header L.slot_pos

theorem Layout.startIndex_lt (L:Layout) : L.startIndex < L.endIndex := L.room

theorem Layout.endIndex_mul_le (L:Layout) : L.endIndex*L.slotSize ≤ L.dataSize :=
 Nat.div_mul_le_self _ _

def Contains (L:Layout) (this tramp:ℕ) : Prop :=
 this ≤ tramp ∧ tramp < this+L.dataSize+L.textSegmentSize

theorem validIndex_iff {index:ℕ} :
 validIndex L index=true ↔ L.startIndex ≤ index ∧ index < L.endIndex := by
 simp [validIndex]

theorem slot_le {index:ℕ} (h:index < L.endIndex) : index*L.slotSize+L.slotSize ≤ L.dataSize := by
 have hle:=L.endIndex_mul_le
 have:=Nat.mul_le_mul_right L.slotSize (show index+1 ≤ L.endIndex from h)
 rw [Nat.add_mul,Nat.one_mul] at this
 omega

theorem mode_le {mode:ℕ} (h:mode < L.argumentModeCount) :
 L.dataSize*(1+mode)+L.dataSize ≤ L.textSegmentSize := by
 have hle:=L.text
 have:=Nat.mul_le_mul_left L.dataSize (show 1+mode+1≤1+L.argumentModeCount by omega)
 rw [Nat.mul_add,Nat.mul_one] at this
 omega

section Imps

variable {this mode index:ℕ} {imp:Imp}

theorem trampoline_eq_some_iff : trampoline L this mode index=some imp ↔
 (L.startIndex ≤ index ∧ index < L.endIndex) ∧
  imp=trampolinesForMode L this mode+index*L.slotSize := by
 rw [trampoline,Option.ite_none_right_eq_some,validIndex_iff,Option.some.injEq,eq_comm (b:=imp)]

variable (hmode:mode < L.argumentModeCount) (h:trampoline L this mode index=some imp)

include hmode h

theorem trampoline_contains : Contains L this imp := by
 obtain ⟨⟨-,hend⟩,rfl⟩:=trampoline_eq_some_iff.mp h
 have hslot:=slot_le hend
 have hm:=mode_le hmode
 have:=L.slot_pos
 unfold trampolinesForMode Contains
 omega

theorem indexForTrampoline_of_trampoline : indexForTrampoline L this imp=index := by
 obtain ⟨⟨hstart,hend⟩,rfl⟩:=trampoline_eq_some_iff.mp h
 have hpos:=L.slot_pos
 have hlow:=Nat.mul_le_mul_right L.slotSize hstart
 have hhigh:=Nat.mul_le_mul_right L.slotSize (show index+1 ≤ L.endIndex from hend)
 rw [Nat.add_mul,Nat.one_mul] at hhigh
 have hle:=L.endIndex_mul_le
 rw [indexForTrampoline,(List.findSome?_eq_some_iff (b:=index)).mpr,Option.getD_some]
 obtain ⟨rest,hrest⟩:=Nat.exists_eq_add_of_lt hmode
 refine ⟨List.range mode,mode,List.range' (mode+1) rest,?_,?_,fun m hm=>?_⟩
 · rw [hrest,Nat.add_right_comm,List.range_add,List.range_succ,List.append_assoc,
    List.range'_eq_map_range]
   rfl
 · simp_all
 · have hlt:=List.mem_range.mp hm
   -- an earlier mode's page ends before this one's begins
   have hpages:=Nat.mul_le_mul_left L.dataSize (show 1+m+1≤1+mode by omega)
   rw [Nat.mul_add L.dataSize (1+m) 1,Nat.mul_one] at hpages
   rw [if_neg]
   unfold trampolinesForMode
   omega

end Imps

theorem indexForTrampoline_of_not_contains {this tramp:ℕ}
 (h:¬ Contains L this tramp) : indexForTrampoline L this tramp=0 := by
 rw [indexForTrampoline,List.findSome?_eq_none_iff.mpr,Option.getD_none]
 intro mode hmode
 have hm:=mode_le (List.mem_range.mp hmode)
 have hle:=L.endIndex_mul_le
 rw [if_neg]
 rintro ⟨hlow,hhigh⟩
 apply h
 unfold trampolinesForMode at hlow hhigh
 exact ⟨by omega,by omega⟩

end Addresses

end ObjcRuntime.Trampolines
