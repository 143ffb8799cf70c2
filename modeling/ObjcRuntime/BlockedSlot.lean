import ObjcRuntime.PageWords

/-!
# The return slot and its blocked marker

`moveTLSAutoreleaseToPool` stores a marker in the slot while it sends `autorelease`, and an
override of the method may call the runtime again. The configuration is arm64, with return-address
elision and pool entries of 48 and 16 bits.
-/
set_option autoImplicit false
namespace ObjcRuntime.BlockedSlot
open AutoreleasePage

structure Slot where
 firstWord : Word
 returnAddress : Word
 deriving DecidableEq

namespace Slot

def empty : Slot := ⟨0,0⟩

def blockedInfo : Slot := ⟨BitVec.allOnes 64,0⟩

def info (obj:Word) (cameFromRootAutorelease returnDisposition:Bool) (returnAddress:Word) : Slot :=
 ⟨obj.extractLsb' 2 62++BitVec.ofBool cameFromRootAutorelease ++
  BitVec.ofBool returnDisposition,returnAddress⟩

def returnedObject (s:Slot) : Word := s.firstWord.extractLsb' 2 62++0#2

def cameFromRootAutorelease (s:Slot) : Bool := s.firstWord.getLsbD 1

def returnDisposition (s:Slot) : Bool := s.firstWord.getLsbD 0

def isBlocked (s:Slot) : Bool := s.firstWord == BitVec.allOnes 64

def isEmpty (s:Slot) : Bool :=
 s.isBlocked || (s.returnedObject == 0 && s.returnAddress == 0)

theorem returnedObject_toNat (s:Slot) : s.returnedObject.toNat=s.firstWord.toNat / 4*4 := by
 have:=s.firstWord.isLt
 rw [returnedObject,BitVec.toNat_append,BitVec.extractLsb'_toNat]
 simp only [BitVec.toNat_ofNat,Nat.shiftLeft_eq,Nat.shiftRight_eq_div_pow,Nat.zero_mod,Nat.or_zero]
 omega

theorem info_toNat (obj:Word) (root disposition:Bool) (returnAddress:Word) :
 (info obj root disposition returnAddress).firstWord.toNat =
  obj.toNat / 4*4+(2*root.toNat+disposition.toNat) := by
 have:=obj.isLt
 grind [info,Nat.shiftRight_eq_div_pow]

theorem returnedObject_info {obj:Word} (h:obj.toNat % 4=0) (root disposition:Bool)
 (returnAddress:Word) : (info obj root disposition returnAddress).returnedObject=obj := by
 have hroot:root.toNat<2:=root.toNat_lt
 have hdisposition:disposition.toNat<2:=disposition.toNat_lt
 apply BitVec.eq_of_toNat_eq
 rw [returnedObject_toNat,info_toNat]
 omega

theorem info_not_blocked {obj:Word} (h:obj.toNat<2^48) (root disposition:Bool)
 (returnAddress:Word) : (info obj root disposition returnAddress).isBlocked=false := by
 have hroot:root.toNat<2:=root.toNat_lt
 grind [disposition.toNat_lt,isBlocked,info_toNat]

end Slot

def markerPointer : Word := Slot.blockedInfo.returnedObject

/-- The pointer of the marker, as a word or as the pointer field of a pool entry. -/
def FromMarker (ptr:ℕ) : Prop := ptr=markerPointer.toNat ∨ ptr=(decode markerPointer).ptr

instance (ptr:ℕ) : Decidable (FromMarker ptr) := by
 unfold FromMarker
 infer_instance

def isTaggedPointerOrNil (obj:Word) : Bool := obj == 0 || obj.getLsbD 63

/-- An object in memory: the runtime asserts that the slot and a pool entry can hold it. -/
structure Object (obj:Word) : Prop where
 ne_nil : obj≠0
 aligned : obj.toNat % 4=0
 fits : obj.toNat<2^48
 elsewhere : ¬FromMarker obj.toNat

def Handed (obj:Word) : Prop :=
 Object obj ∨ isTaggedPointerOrNil obj=true ∧ ¬FromMarker obj.toNat

def setTop (e:Entry) : HotPage → HotPage
 | .page (_::hot) parents children=>.page (e::hot) parents children
 | h=>h

/-- `autorelease`. A word above 48 bits is equal to no entry's pointer, and is read back through
the two fields of the entry it becomes. -/
def autorelease (O:Options) (obj:Word) (h:HotPage) : HotPage :=
 if obj.toNat<2^48 then (autoreleaseFast O obj.toNat h).1
 else setTop (decode obj) (autoreleaseFast {O with coalescing:=.off} obj.toNat h).1

inductive Caller where
 | push
 | prepareOptimizedReturn (obj:Word) (cameFromRootAutorelease:Bool) (returnAddress:Word)
 | acceptOptimizedReturn

inductive Frame where
 | user (tokens:List Token)
 | objcAutorelease (obj:Word)
 | rootAutorelease (obj:Word)
 | prepareOptimizedReturn (obj:Word) (cameFromRootAutorelease:Bool) (returnAddress:Word)
 | moveTLS (info:Slot) (caller:Caller)
 /-- `moveTLSAutoreleaseToPool` in its `objc_autorelease`, with the slot blocked. -/
 | sending (caller:Caller)
 /-- `prepareOptimizedReturn` after the slot is clear; and whether `class_initialize` is behind
  it. -/
 | preparing (obj:Word) (cameFromRootAutorelease:Bool) (returnAddress:Word)
  (initialized:Bool)
 | pushing
 | popping (token:Token)
 | releaseUntil (depth stop:ℕ)
 | releasing (ptr n:ℕ)

structure Config where
 pages : HotPage
 slot : Slot
 released : List ℕ
 hasCustomRR : Word → Bool
 stack : List Frame

def Caller.resume : Caller → List Frame
 | .push=>[.pushing]
 | .prepareOptimizedReturn obj root returnAddress=>[.preparing obj root returnAddress false]
 | .acceptOptimizedReturn=>[]

def accepts (callerAccepts:Word → Bool) (info:Slot) (a:Accepting) (returnAddress:Word) : Bool :=
 a.fits (returnAddress-info.returnAddress).toNat (callerAccepts info.returnAddress)

inductive Act where
 | push | pop | other
 deriving DecidableEq

variable (O:Options) (callerAccepts:Word → Bool)

inductive Step : Config → Act → Config → Prop where
 -- code outside the runtime
 | objcAutorelease {c:Config} {ts fs obj} (top:c.stack=.user ts::fs) (handed:Handed obj) :
  Step c .other {c with stack:=.objcAutorelease obj :: .user ts::fs}
 | rootAutorelease {c:Config} {ts fs obj}
  (top:c.stack=.user ts::fs) (handed:Handed obj) (ne_nil:obj≠0) :
  Step c .other {c with stack:=.rootAutorelease obj :: .user ts::fs}
 | autoreleaseReturnValue {c:Config} {ts fs obj returnAddress} (top:c.stack=.user ts::fs)
  (handed:Handed obj) :
  Step c .other { c with
   stack := .prepareOptimizedReturn obj false returnAddress :: .user ts::fs }
 | acceptNothing {c:Config} {ts fs} (top:c.stack=.user ts::fs) (empty:c.slot.isEmpty=true) :
  Step c .other c
 | accepted {c:Config} {obj:Word} {ts fs a returnAddress} (top:c.stack=.user ts::fs)
  (handed:Handed obj)
  (pending:c.slot.isEmpty=false)
  (fits:accepts callerAccepts c.slot a returnAddress=true) :
  Step c .other { c with
   slot := .empty
   stack := if a=.unsafeClaimAutoreleasedReturnValue ∧ c.slot.returnDisposition=true then
    .releasing obj.toNat 1 :: .user ts::fs
    else .user ts::fs }
 | declined {c:Config} {ts fs a returnAddress} (top:c.stack=.user ts::fs)
  (pending:c.slot.isEmpty=false)
  (unfit:accepts callerAccepts c.slot a returnAddress=false) :
  Step c .other { c with
   slot := .empty
   stack := if c.slot.returnDisposition=true then
    .moveTLS c.slot .acceptOptimizedReturn :: .user ts::fs
    else .user ts::fs }
 | push {c:Config} {ts fs} (top:c.stack=.user ts::fs) :
  Step c .push {c with stack:=.moveTLS c.slot .push :: .user ts::fs}
 | pop {c:Config} {t ts fs} (top:c.stack=.user (t::ts)::fs) :
  Step c .pop {c with stack:=.popping t :: .user ts::fs}
 | call {c:Config} {ts fs} (top:c.stack=.user ts::fs) :
  Step c .other {c with stack:=.user [] :: .user ts::fs}
 | ret {c:Config} {f fs} (top:c.stack=.user []::f::fs) :
  Step c .other {c with stack:=f::fs}
 | overrides {c:Config} {ts fs} (top:c.stack=.user ts::fs) (custom) :
  Step c .other {c with hasCustomRR:=custom}
 -- objc_autorelease
 | autoreleaseNothing {c:Config} {fs obj}
  (top:c.stack=.objcAutorelease obj::fs) (tagged:isTaggedPointerOrNil obj=true) :
  Step c .other {c with stack:=fs}
 | autoreleaseMessage {c:Config} {fs obj} (top:c.stack=.objcAutorelease obj::fs)
  (untagged:isTaggedPointerOrNil obj=false) (custom:c.hasCustomRR obj=true) :
  Step c .other {c with stack:=.user []::fs}
 | autoreleaseDefault {c:Config} {fs obj} (top:c.stack=.objcAutorelease obj::fs)
  (untagged:isTaggedPointerOrNil obj=false) (default:c.hasCustomRR obj=false) :
  Step c .other {c with stack:=.rootAutorelease obj::fs}
 -- rootAutorelease: a tagged pointer or a deallocating object is returned as it is
 | rootReturn {c:Config} {fs obj} (top:c.stack=.rootAutorelease obj::fs) :
  Step c .other {c with stack:=fs}
 | rootPrepare {c:Config} {fs obj returnAddress}
  (top:c.stack=.rootAutorelease obj::fs) (untagged:isTaggedPointerOrNil obj=false) :
  Step c .other {c with stack:=.prepareOptimizedReturn obj true returnAddress::fs}
 -- prepareOptimizedReturn
 | prepareMove {c:Config} {fs obj returnAddress root}
  (top:c.stack=.prepareOptimizedReturn obj root returnAddress::fs)
  (unblocked:c.slot.isBlocked=false) :
  Step c .other { c with
   stack := .moveTLS c.slot (.prepareOptimizedReturn obj root returnAddress)::fs }
 | blockedReturnValue {c:Config} {fs obj returnAddress}
  (top:c.stack=.prepareOptimizedReturn obj false returnAddress::fs)
  (blocked:c.slot.isBlocked=true) :
  Step c .other {c with stack:=.objcAutorelease obj::fs}
 | rootAutorelease2 {c:Config} {fs obj returnAddress}
  (top:c.stack=.prepareOptimizedReturn obj true returnAddress::fs)
  (blocked:c.slot.isBlocked=true) :
  Step c .other {c with pages:=autorelease O obj c.pages,stack:=fs}
 | blockedClass {c:Config} {fs obj returnAddress}
  (top:c.stack=.prepareOptimizedReturn obj true returnAddress::fs)
  (blocked:c.slot.isBlocked=true) : Step c .other {c with stack:=fs}
 | prepareNothing {c:Config} {fs obj returnAddress root initialized}
  (top:c.stack=.preparing obj root returnAddress initialized::fs)
  (tagged:isTaggedPointerOrNil obj=true) :
  Step c .other {c with slot:=.empty,stack:=fs}
 | classInitialize {c:Config} {fs obj returnAddress root}
  (top:c.stack=.preparing obj root returnAddress false::fs)
  (untagged:isTaggedPointerOrNil obj=false) :
  Step c .other {c with stack:=.user [] :: .preparing obj root returnAddress true::fs}
 | setInfo {c:Config} {fs obj returnAddress root initialized}
  (top:c.stack=.preparing obj root returnAddress initialized::fs)
  (untagged:isTaggedPointerOrNil obj=false)
  (fits:root=true ∨ c.hasCustomRR obj=false ∨ callerAccepts returnAddress=true) :
  Step c .other {c with slot:=.info obj root true returnAddress,stack:=fs}
 | sendAutorelease {c:Config} {fs obj returnAddress initialized}
  (top:c.stack=.preparing obj false returnAddress initialized::fs)
  (untagged:isTaggedPointerOrNil obj=false) (custom:c.hasCustomRR obj=true)
  (unfit:callerAccepts returnAddress=false) :
  Step c .other {c with stack:=.objcAutorelease obj::fs}
 -- moveTLSAutoreleaseToPool
 | moveNothing {c:Config} {info:Slot} {k:Caller} {fs}
  (top:c.stack=.moveTLS info k::fs) (none:info.returnedObject=0) :
  Step c .other {c with slot:=.empty,stack:=k.resume++fs}
 | moveToPool {c:Config} {info:Slot} {k:Caller} {fs} (top:c.stack=.moveTLS info k::fs)
  (some:info.returnedObject≠0) (root:info.cameFromRootAutorelease=true) :
  Step c .other { c with
   pages := autorelease O info.returnedObject c.pages
   slot := .empty
   stack := k.resume++fs }
 | moveBlock {c:Config} {info:Slot} {fs k} (top:c.stack=.moveTLS info k::fs)
  (some:info.returnedObject≠0) (root:info.cameFromRootAutorelease=false) :
  Step c .other { c with
   slot := .blockedInfo
   stack := .objcAutorelease info.returnedObject :: .sending k::fs }
 | moveUnblock {c:Config} {k:Caller} {fs} (top:c.stack=.sending k::fs) :
  Step c .other {c with slot:=.empty,stack:=k.resume++fs}
 -- push
 | pushReturn {c:Config} {ts fs} (top:c.stack=.pushing :: .user ts::fs) :
  Step c .other { c with
   pages := (pushBoundary O c.pages).1
   stack := .user ((pushBoundary O c.pages).2::ts)::fs }
 -- pop
 | popTLS {c:Config} {t fs} (top:c.stack=.popping t::fs) (some:c.slot.returnedObject≠0) :
  Step c .other { c with
   slot := .empty
   released := c.slot.returnedObject.toNat::c.released
   stack := .user [] :: .popping t::fs }
 | popUnused {c:Config} {t fs} (top:c.stack=.popping t::fs)
  (none:c.slot.returnedObject=0) (unused:c.pages.pop t=.unused) :
  Step c .other {c with pages:=.nil,stack:=fs}
 | popUntil {c:Config} {t fs depth stop} (top:c.stack=.popping t::fs)
  (none:c.slot.returnedObject=0) (opens:c.pages.pop t=.releaseUntil depth stop) :
  Step c .other {c with stack:=.releaseUntil depth stop::fs}
 | badPop {c:Config} {t fs} (top:c.stack=.popping t::fs)
  (none:c.slot.returnedObject=0) (bad:c.pages.pop t=.badPop) : Step c .other {c with stack:=fs}
 -- releaseUntil
 | takeEntry {c:Config} {e:Entry} {fs depth stop h} (top:c.stack=.releaseUntil depth stop::fs)
  (more:(c.pages.pageAt depth).map List.length≠some stop) (took:c.pages.take=some (e,h)) :
  Step c .other { c with
   pages := h
   stack := if e.ptr=0 then .releaseUntil depth stop::fs
    else .releasing e.ptr (e.count+1) :: .releaseUntil depth stop::fs }
 | untilTLS {c:Config} {fs depth stop} (top:c.stack=.releaseUntil depth stop::fs)
  (done:(c.pages.pageAt depth).map List.length=some stop) (some:c.slot.returnedObject≠0) :
  Step c .other { c with
   slot := .empty
   released := c.slot.returnedObject.toNat::c.released
   stack := .user [] :: .releaseUntil depth stop::fs }
 | popReturn {c:Config} {fs depth stop} (top:c.stack=.releaseUntil depth stop::fs)
  (done:(c.pages.pageAt depth).map List.length=some stop) (none:c.slot.returnedObject=0) :
  Step c .other {c with pages:=popPage O (c.pages.setHot depth),stack:=fs}
 | release {c:Config} {fs ptr n} (top:c.stack=.releasing ptr (n+1)::fs) :
  Step c .other { c with
   released := ptr::c.released
   stack := .user [] :: .releasing ptr n::fs }
 | releasedAll {c:Config} {fs ptr} (top:c.stack=.releasing ptr 0::fs) :
  Step c .other {c with stack:=fs}

def initial : Config := ⟨.nil,.empty,[],fun _=>false,[.user []]⟩

abbrev Reachable (admits:Config → Act → Prop) : Config → Prop :=
 Relation.ReflTransGen (fun c c'=>∃a,admits c a ∧ Step O callerAccepts c a c') initial

theorem Reachable.step {O:Options} {callerAccepts:Word → Bool} {admits:Config → Act → Prop}
 {c c':Config} {a:Act} (run:Reachable O callerAccepts admits c) (admitted:admits c a)
 (step:Step O callerAccepts c a c') : Reachable O callerAccepts admits c' :=
 run.tail ⟨a,admitted,step⟩

def PoolsWait (c:Config) (a:Act) : Prop := a≠.other → c.slot.isBlocked=false

end ObjcRuntime.BlockedSlot
