import ObjcRuntime.CategoryArrays
import ObjcRuntime.ListArrays
import ObjcRuntime.MethodLists
import ObjcRuntime.PartialRuns

/-!
Loading categories and realizing classes. Categories of an unrealized class wait in
`unattachedCategories`; those of a stub class wait under the stub until Swift has built the class
behind it. `attachCategories` fills its buffers from the back and flushes them when they are full.
-/

set_option autoImplicit false
namespace ObjcRuntime.CategoryOrder

open MethodLists CategoryArrays ListArrays PartialRuns
open Function

abbrev ClassId := Nat

inductive ListRef
 | image (n:Nat)
 | heap (n:Nat)
 deriving DecidableEq,Repr

structure Category where
 cls : ClassId
 instanceMethods : Option Nat
 classMethods : Option Nat
 protocols : Option Nat
 instanceProperties : Option Nat
 classProperties : Option Nat
 deriving DecidableEq,Repr

@[ext]
structure Lists where
 methods : List ListRef
 properties : List Nat
 protocols : List Nat
 deriving DecidableEq,Repr

instance : Append Lists where
 append a b := ⟨a.methods++b.methods,a.properties++b.properties,a.protocols++b.protocols⟩

structure ClassRO where
 baseMethods : Option Nat
 baseProperties : Option Nat
 baseProtocols : Option Nat
 deriving DecidableEq,Repr

def ClassRO.lists (ro:ClassRO) : Lists :=
 ⟨(ro.baseMethods.map ListRef.image).toList,ro.baseProperties.toList,ro.baseProtocols.toList⟩

structure ClassRWExt where
 methods : ListArray ListRef
 properties : ListArray Nat
 protocols : ListArray Nat
 deriving DecidableEq

def ClassRWExt.lists (rwe:ClassRWExt) : Lists :=
 ⟨rwe.methods.lists,rwe.properties.lists,rwe.protocols.lists⟩

structure ClassInfo where
 isa : ClassId
 isMeta : Bool
 isStub : Bool
 /-- the stub that is relocated to this class -/
 stub : Option ClassId
 ro : ClassRO
 deriving DecidableEq,Repr

structure Program where
 classes : ClassId → ClassInfo
 category : ℕ → Category
 /-- of the header at the address -/
 hasCategoryClassProperties : ℕ → Bool
 register : Sel → Sel
 initializeSel : Sel
 objcNoopImp : Nat
 ptrauth : Bool

structure State where
 realized : ClassId → Bool
 rwe : ClassId → Option ClassRWExt
 /-- the memory of the method lists -/
 mlists : ListRef → MethodList
 nextList : Nat
 unattachedCategories : ClassId → Option CategoryList
 remappedClasses : ClassId → Option (Option ClassId)

namespace Program

variable (prog:Program)

def target (lc:Located) : ClassId := (prog.category lc.cat).cls

def methodsForMeta (isMeta:Bool) (lc:Located) : Option ListRef :=
 (if isMeta then (prog.category lc.cat).classMethods
  else (prog.category lc.cat).instanceMethods).map .image

def propertiesForMeta (isMeta:Bool) (lc:Located) : Option Nat :=
 if !isMeta then (prog.category lc.cat).instanceProperties
 else if prog.hasCategoryClassProperties lc.hi then (prog.category lc.cat).classProperties
 else none

def protocolsForMeta (isMeta:Bool) (lc:Located) : Option Nat :=
 if isMeta then none else (prog.category lc.cat).protocols

def concerns (isMeta:Bool) (lc:Located) : Bool :=
 let cat:=prog.category lc.cat
 if isMeta then
  cat.classMethods.isSome || cat.protocols.isSome ||
   (prog.hasCategoryClassProperties lc.hi && cat.classProperties.isSome)
 else cat.instanceMethods.isSome || cat.protocols.isSome || cat.instanceProperties.isSome

end Program

section Buffers

variable {L:Type}

def attachBufsiz : Nat := 64

/-- A buffer of `attachCategories` with its count; the last `count` slots are in use. -/
structure Buffer (L:Type) where
 slots : Fin attachBufsiz → Option L
 count : Nat
 bound : count ≤ attachBufsiz

namespace Buffer

def empty : Buffer L := ⟨fun _=>none,0,Nat.zero_le _⟩

theorem empty_room : (empty:Buffer L).count < attachBufsiz :=
 Nat.zero_lt_succ 63

def put (b:Buffer L) (room:b.count < attachBufsiz) (list:L) : Buffer L :=
 { slots := Function.update b.slots ⟨attachBufsiz-(b.count+1),by omega⟩ (some list)
   count := b.count+1
   bound := room }

def used (b:Buffer L) : List L :=
 ((List.finRange attachBufsiz).drop (attachBufsiz-b.count)).filterMap b.slots

/-- Buffers one list of a category, and returns the chunk that had to be attached first. -/
def stage (b:Buffer L) (list:Option L) : Buffer L × List L :=
 match list with
 | none=>(b,[])
 | some list=>
  if room : b.count < attachBufsiz then (b.put room list,[])
  else (empty.put empty_room list,b.used)

@[simp]
theorem used_empty : (empty:Buffer L).used=[] := by
 grind [empty,List.length_finRange,used,List.drop_length]

theorem used_put (b:Buffer L) (room:b.count < attachBufsiz) (list:L) :
 (b.put room list).used=list::b.used := by
 have hlen:attachBufsiz-(b.count+1) < (List.finRange attachBufsiz).length:=by
  rw [List.length_finRange]
  omega
 have next:attachBufsiz-(b.count+1)+1=attachBufsiz-b.count:=by omega
 rw [used,show (b.put room list).count=b.count+1 from rfl,List.drop_eq_getElem_cons hlen,
  next,List.getElem_finRange,List.filterMap_cons_some (b:=list)]
 · rw [used]
   congr 1
   -- the new slot is below the window that was in use
   apply List.filterMap_congr
   intro i hi
   obtain ⟨j,hj,rfl⟩:=List.mem_iff_getElem.mp hi
   rw [List.getElem_drop,List.getElem_finRange]
   apply Function.update_of_ne
   grind [Fin.val_cast]
 · exact Function.update_self ..

theorem stage_used (b:Buffer L) (list:Option L) :
 (b.stage list).1.used++(b.stage list).2=list.toList++b.used := by
 match list with
 | none=>exact List.append_nil _
 | some list=>grind [stage,used_put,used_empty]

end Buffer

end Buffers

variable (prog:Program)

def ofBase {L:Type} (base:Option L) : ListArray L := ListArray.attachLists (.list none) base.toList

def extAlloc (ro:ClassRO) : ClassRWExt :=
 ⟨ofBase (ro.baseMethods.map .image),ofBase ro.baseProperties,ofBase ro.baseProtocols⟩

def extAllocIfNeeded (s:State) (cls:ClassId) : ClassRWExt :=
 (s.rwe cls).getD (extAlloc (prog.classes cls).ro)

def listsOf (s:State) (cls:ClassId) : Lists :=
 match s.rwe cls with
 | some rwe=>rwe.lists
 | none=>(prog.classes cls).ro.lists

def prepareMethodLists (mlists:ListRef → MethodList) (added:List ListRef) : ListRef → MethodList :=
 added.foldl (fun h r=>update h r (prepareMethodList prog.register (h r))) mlists

structure Attaching where
 mlists : ListRef → MethodList
 rwe : ClassRWExt
 methods : Buffer ListRef
 properties : Buffer Nat
 protocols : Buffer Nat

namespace Attaching

def start (mlists:ListRef → MethodList) (rwe:ClassRWExt) : Attaching :=
 ⟨mlists,rwe,.empty,.empty,.empty⟩

def turn (isMeta:Bool) (a:Attaching) (entry:Located) : Attaching :=
 let (methods,mflush):=a.methods.stage (prog.methodsForMeta isMeta entry)
 let (properties,propflush):=a.properties.stage (prog.propertiesForMeta isMeta entry)
 let (protocols,protoflush):=a.protocols.stage (prog.protocolsForMeta isMeta entry)
 { mlists := prepareMethodLists prog a.mlists mflush
   rwe :=
    { methods := a.rwe.methods.attachLists mflush
      properties := a.rwe.properties.attachLists propflush
      protocols := a.rwe.protocols.attachLists protoflush }
   methods,properties,protocols }

def finish (a:Attaching) : Attaching :=
 { mlists := prepareMethodLists prog a.mlists a.methods.used
   rwe :=
    { methods := a.rwe.methods.attachLists a.methods.used
      properties := a.rwe.properties.attachLists a.properties.used
      protocols := a.rwe.protocols.attachLists a.protocols.used }
   methods := .empty,properties := .empty,protocols := .empty }

end Attaching

def setRwe (s:State) (cls:ClassId) (rwe:ClassRWExt) : State :=
 {s with rwe:=update s.rwe cls (some rwe)}

def attachCategories (s:State) (cls:ClassId) (cats:List Located) (isMeta:Bool) : State :=
 let done:=(cats.foldl (Attaching.turn prog isMeta)
  (Attaching.start s.mlists (extAllocIfNeeded prog s cls))).finish prog
 {setRwe s cls done.rwe with mlists:=done.mlists}

inductive AttachTo
 | attachClass
 | attachMetaclass
 | attachClassAndMetaclass
 deriving DecidableEq

/-- `try_emplace`, or `append` to the list that is there. -/
def emplace (lc:Located) : Option CategoryList → Option CategoryList
 | none=>some ⟨lc.cat,lc.hi,[]⟩
 | some list=>list.append lc

/-- `none` is a write outside the list's array. -/
def addForClass (s:State) (lc:Located) (cls:ClassId) : Option State :=
 (emplace lc (s.unattachedCategories cls)).map fun list =>
  {s with unattachedCategories:=update s.unattachedCategories cls (some list)}

def attachToClass (s:State) (cls previously:ClassId) (flags:AttachTo) : State :=
 match s.unattachedCategories previously with
 | none=>s
 | some list=>
  let attached:=match flags with
   | .attachClass=>attachCategories prog s cls list.entries false
   | .attachMetaclass=>attachCategories prog s cls list.entries true
   | .attachClassAndMetaclass=>
    let s:=attachCategories prog s cls list.entries false
    attachCategories prog s (prog.classes cls).isa list.entries true
  { attached with
    unattachedCategories := update s.unattachedCategories previously none }

def getMethodNoSuper (s:State) (cls:ClassId) (sel:Sel) : Option Method :=
 (listsOf prog s cls).methods.findSome? fun r=>searchedMethod (s.mlists r) sel

/-- The list `addMethod` allocates for the bonus `+initialize` of a root metaclass. -/
def bonusList : MethodList :=
 allocateMethodList prog.ptrauth [⟨prog.initializeSel,prog.objcNoopImp⟩] fixedUpMethodList

/-- `addMethod(cls, @selector(initialize), objc_noop_imp, "", NO)` -/
def addBonusMethod (s:State) (cls:ClassId) : State :=
 match getMethodNoSuper prog s cls prog.initializeSel with
 | some _=>s
 | none=>
  let newlist:=.heap s.nextList
  let rwe:=extAllocIfNeeded prog s cls
  let mlists:=update s.mlists newlist (bonusList prog)
  { setRwe s cls {rwe with methods:=rwe.methods.attachLists [newlist]} with
    mlists := prepareMethodLists prog mlists [newlist]
    nextList := s.nextList+1 }

/-- The base lists, which go into a `class_rw_ext_t` only if there is one already. -/
def installBase (s:State) (cls:ClassId) : State :=
 let base:=(prog.classes cls).ro
 let s:={ s with
  mlists := prepareMethodLists prog s.mlists (base.baseMethods.map ListRef.image).toList }
 match s.rwe cls with
 | none=>s
 | some rwe=>setRwe s cls
  { methods := rwe.methods.attachLists (base.baseMethods.map ListRef.image).toList
    properties := rwe.properties.attachLists base.baseProperties.toList
    protocols := rwe.protocols.attachLists base.baseProtocols.toList }

def isRootMetaclass (cls:ClassId) : Bool := (prog.classes cls).isa=cls

def methodizeClass (s:State) (cls:ClassId) (previously:Option ClassId) : State :=
 let isMeta:=(prog.classes cls).isMeta
 let s:=installBase prog s cls
 let s:=if isRootMetaclass prog cls then addBonusMethod prog s cls else s
 let s:=match previously with
  | none=>s
  | some old=>
   attachToClass prog s cls old
    (if isMeta then .attachMetaclass else .attachClassAndMetaclass)
 attachToClass prog s cls cls (if isMeta then .attachMetaclass else .attachClass)

def setRealized (s:State) (cls:ClassId) : State :=
 {s with realized:=update s.realized cls true}

def realizeClassWithoutSwift (s:State) (cls:ClassId) (previously:Option ClassId) : State :=
 if s.realized cls then s
 else
  let s:=setRealized s cls
  let metacls:=(prog.classes cls).isa
  let s :=
   if s.realized metacls then s
   else methodizeClass prog (setRealized s metacls) metacls none
  methodizeClass prog s cls previously

def realizeClass (s:State) (cls:ClassId) : State :=
 match (prog.classes cls).stub with
 | none=>realizeClassWithoutSwift prog s cls none
 | some old=>
  let s:={ s with
   remappedClasses := update s.remappedClasses old (some (some cls)) }
  realizeClassWithoutSwift prog s cls (some old)

def remapClass (s:State) (cls:ClassId) : Option ClassId :=
 match s.remappedClasses cls with
 | none=>some cls
 | some mapped=>mapped

def loadForClass (s:State) (lc:Located) (cls:ClassId) (isMeta:Bool) : Option State :=
 if prog.concerns isMeta lc then
  if s.realized cls then some (attachCategories prog s cls [lc] isMeta)
  else addForClass s lc cls
 else some s

def loadCategory (lc:Located) (s:State) : Option State :=
 match remapClass s (prog.target lc) with
 -- the target class is missing
 | none=>some s
 | some cls=>
  if (prog.classes cls).isStub then
   if prog.concerns false lc || prog.concerns true lc then addForClass s lc cls else some s
  else
   (loadForClass prog s lc cls false).bind fun s =>
    loadForClass prog s lc (prog.classes cls).isa true

inductive Op
 | loadCategories (hi:ℕ) (catlist catlist2:List ℕ)
 | realize (cls:ClassId)

def Op.categories : Op → List Located
 | .loadCategories hi catlist catlist2=>(catlist++catlist2).map fun cat=>⟨cat,hi⟩
 | .realize _=>[]

def step (op:Op) (s:State) : Option State :=
 match op with
 | .loadCategories _ _ _=>run (loadCategory prog) op.categories s
 | .realize cls=>some (realizeClass prog s cls)

end ObjcRuntime.CategoryOrder
