import ObjcRuntime.MethodLookup
import ObjcRuntime.PartialRuns
import ObjcRuntime.SiblingLists

/-!
# The class graph

The realized classes and the operations that change them under `runtimeLock`.  `none` as a state is
`_objc_fatal`, a crash on a nil class or a loop that does not end.  The flags are those of a 64-bit
target.
-/

set_option autoImplicit false
namespace ObjcRuntime.ClassGraph

open MethodLookup (Sel Imp MethodImp Cache msgForwardImpcache)
open SiblingLists
open Function

abbrev Cls := ℕ

inductive Bundle
 | awz
 | rr
 | core
 deriving DecidableEq

inductive Name
 | alloc
 | allocWithZone
 | retain
 | release
 | autorelease
 | tryRetain
 | isDeallocating
 | retainCount
 | allowsWeakReference
 | retainWeakReference
 | new
 | selfSel
 | classSel
 | isKindOfClass
 | respondsToSelector
 | plusInitialize
 deriving DecidableEq

def Bundle.names : Bundle → List Name
 | .awz=>[.alloc,.allocWithZone]
 | .rr=>[.retain,.release,.autorelease,.tryRetain,.isDeallocating,.retainCount,
  .allowsWeakReference,.retainWeakReference]
 | .core=>[.new,.selfSel,.classSel,.isKindOfClass,.respondsToSelector]

def Bundle.scansInstances : Bundle → Bool
 | .awz=>false
 | .rr=>true
 | .core=>true

structure Method where
 name : Sel
 imp : MethodImp

structure Category where
 cls : Cls
 instanceMethods : Option (List Method)
 classMethods : Option (List Method)

def Category.methodsForMeta (isMeta:Bool) (cat:Category) : Option (List Method) :=
 if isMeta then cat.classMethods else cat.instanceMethods

/-- What is read of `class_ro_t`.  `requiresRawIsa` is the process's or the class's need of raw isa
pointers that `realizeClassWithoutSwift` finds. -/
structure Ro where
 isMeta : Bool
 hasCxxStructors : Bool
 hasCxxDtorOnly : Bool
 forbidsAssociatedObjects : Bool
 requiresRawIsa : Bool
 baseMethods : Option (List Method)

structure Flags where
 hasCxxCtor : Bool
 hasCxxDtor : Bool
 hasCustomDeallocInitiation : Bool
 instancesRequireRawIsa : Bool
 forbidsAssociatedObjects : Bool
 hasDefault : Bundle → Bool

def Flags.zero : Flags := ⟨false,false,false,false,false,fun _=>false⟩

def Flags.withEmptyCache (f:Flags) : Flags :=
 { Flags.zero with
   forbidsAssociatedObjects := f.forbidsAssociatedObjects
   hasDefault := fun b=>b=.rr && f.hasDefault b }

structure Program where
 nsObject : Cls
 nsObjectMeta : Cls
 /-- the root class or metaclass of `_TtCs12_SwiftObject` -/
 isSwiftObject : Cls → Bool
 sel : Name → Sel
 noopImp : MethodImp

def Program.nsoClass (prog:Program) (isMeta:Bool) : Cls :=
 if isMeta then prog.nsObjectMeta else prog.nsObject

/-- `links.parent` is the superclass and `links.first none` is `_firstRealizedClass`.  The method
lists are in the order they were attached, so the last is searched first. -/
structure State (preopt:Bool) where
 links : Links Cls
 isa : Cls → Cls
 ro : Cls → Ro
 known : Cls → Bool
 realized : Cls → Bool
 constructing : Cls → Bool
 initialized : Cls → Bool
 flags : Cls → Flags
 lists : Cls → List (List Method)
 cache : Cls → Cache preopt
 unattached : Cls → List Category
 /-- `NSObjectSwizzledMask` -/
 swizzled : Bundle → Bool → Bool
 namedClasses : ℕ
 /-- `getPreoptimizedClassUnreasonableCount`: how many classes dyld knows of. -/
 preoptimizedClasses : ℕ

structure MethodRef where
 cls : Cls
 list : ℕ
 index : ℕ

variable {preopt:Bool}

namespace State

variable (s:State preopt)

def superclass (c:Cls) : Option Cls := s.links.parent c

def isMetaClass (c:Cls) : Bool := (s.ro c).isMeta

def getMeta (c:Cls) : Cls := if s.isMetaClass c then c else s.isa c

def isInitialized (c:Cls) : Bool := s.initialized (s.getMeta c)

def isCustom (b:Bundle) (c:Cls) : Bool := !(s.flags c).hasDefault b

def getImp (c:Cls) (sel:Sel) : Option Imp := (s.cache c).getImp sel

def method (m:MethodRef) : Option Method := (s.lists m.cls)[m.list]?.bind fun l=>l[m.index]?

def categoryLists (c:Cls) : List (List Method) :=
 if (s.ro c).baseMethods.isSome then (s.lists c).drop 1 else s.lists c

/-- An unsigned int. The walks count down before they compare with 0, so 0 counts as 2^32. -/
def unreasonableClassCount : ℕ :=
 ((s.namedClasses+s.preoptimizedClasses+1)*16-1) % 2^32+1

end State

abbrev State.image (superclass:Cls → Option Cls) (isa:Cls → Cls) (ro:Cls → Ro) (known:Cls → Bool)
 (namedClasses:ℕ) : State preopt where
 links := ⟨superclass,fun _=>none,fun _=>none⟩
 isa := isa
 ro := ro
 known := known
 realized := fun _=>false
 constructing := fun _=>false
 initialized := fun _=>false
 flags := fun _=>.zero
 lists := fun _=>[]
 cache := fun _=>.empty
 unattached := fun _=>[]
 swizzled := fun _ _=>false
 namedClasses := namedClasses
 preoptimizedClasses := 0

def methodIn (sel:Sel) : List (List Method) → Option Method
 | []=>none
 | l::newer=>(methodIn sel newer).or (l.find? fun m=>m.name=sel)

def refIn (sel:Sel) : (list:ℕ) → List (List Method) → Option (ℕ × ℕ)
 | _,[]=>none
 | k,l::newer=>(refIn sel (k+1) newer).or ((l.findIdx? fun m=>m.name=sel).map (k,·))

def getMethodNoSuper (s:State preopt) (c:Cls) (sel:Sel) : Option MethodRef :=
 (refIn sel 0 (s.lists c)).map fun r=>⟨c,r.1,r.2⟩

def ownImp (s:State preopt) (c:Cls) (sel:Sel) : Option MethodImp :=
 (methodIn sel (s.lists c)).map (·.imp)

def foreachRealizedClassAndSubclass (top:Cls) (code:Cls → State preopt → State preopt × Bool)
 (s:State preopt) : Option (State preopt) :=
 (walk s.links code top (s.unreasonableClassCount-1) true top s).map (·.1)

def foreachRealizedClassAndMetaclass (code:Cls → State preopt → State preopt × Bool)
 (s:State preopt) : Option (State preopt) :=
 (walkAll s.links code s.unreasonableClassCount (s.unreasonableClassCount-1)
  (s.links.first none) s).map (·.1)

def State.modifyFlags (c:Cls) (f:Flags → Flags) (s:State preopt) : State preopt :=
 {s with flags:=update s.flags c (f (s.flags c))}

def setHasCustomDeallocInitiation : Cls → State preopt → State preopt :=
 fun c=>State.modifyFlags c fun f=>{f with hasCustomDeallocInitiation:=true}

def setInstancesRequireRawIsa : Cls → State preopt → State preopt :=
 fun c=>State.modifyFlags c fun f=>{f with instancesRequireRawIsa:=true}

def setInstancesRequireRawIsaRecursively (cls:Cls) (s:State preopt) : Option (State preopt) :=
 if (s.flags cls).instancesRequireRawIsa then some s
 else foreachRealizedClassAndSubclass cls (fun c s =>
  if (s.flags c).instancesRequireRawIsa then (s,false)
  else (setInstancesRequireRawIsa c s,true)) s

def setCustomDeallocInitiation (cls:Cls) (s:State preopt) : Option (State preopt) :=
 if (s.flags cls).hasCustomDeallocInitiation then some s
 else foreachRealizedClassAndSubclass cls (fun c s =>
  (setHasCustomDeallocInitiation c s,true)) s

def setCustom (b:Bundle) (c:Cls) : State preopt → State preopt :=
 State.modifyFlags c fun f=>{f with hasDefault:=update f.hasDefault b false}

def setDefault (b:Bundle) (c:Cls) : State preopt → State preopt :=
 State.modifyFlags c fun f=>{f with hasDefault:=update f.hasDefault b true}

def setCustomRecursively (b:Bundle) (cls:Cls) (s:State preopt) : Option (State preopt) :=
 foreachRealizedClassAndSubclass cls (fun c s =>
  -- a subclass that is not initialized yet waits for `setInitialized`
  if c≠cls ∧ s.isInitialized c=false then (s,false)
  else if s.isCustom b c then (s,false)
  else (setCustom b c s,true)) s

def markSwizzled (b:Bundle) (isMeta:Bool) (s:State preopt) : State preopt :=
 {s with swizzled:=fun b' m=>s.swizzled b' m || (b'=b && m=isMeta)}

def setNSObjectSwizzled (b:Bundle) (cls:Cls) (isMeta:Bool) (s:State preopt) :
 Option (State preopt) :=
 if s.isInitialized cls then setCustomRecursively b cls (markSwizzled b isMeta s)
 else some (markSwizzled b isMeta s)

def forBundles (f:Bundle → State preopt → Option (State preopt)) (s:State preopt) :
 Option (State preopt) :=
 (f .awz s).bind fun s=>(f .rr s).bind (f .core)

section Scanners

variable (prog:Program)

def isInterestingSelector (b:Bundle) (sel:Sel) : Bool := b.names.any fun n=>prog.sel n=sel

def scanMethodLists (b:Bundle) (lists:List (List Method)) : Bool :=
 lists.any fun l=>l.any fun m=>isInterestingSelector prog b m.name

def knownClassHasDefaultImpl (b:Bundle) (cls:Cls) (isMeta:Bool) : Bool :=
 cls=prog.nsoClass isMeta || (b=.core && prog.isSwiftObject cls)

/-- `none` is a metaclass without a superclass. -/
def scanAddedClass (b:Bundle) (cls:Cls) (isMeta:Bool) (s:State preopt) : Option (State preopt) :=
 (if s.swizzled b isMeta then some true
  -- this class is known to have the default implementations, but categories may not
  else if knownClassHasDefaultImpl prog b cls isMeta then
   some (scanMethodLists prog b (s.categoryLists cls))
  else
   match s.superclass cls with
   | none=>if isMeta then none else some true
   | some p=>some (s.isCustom b p || scanMethodLists prog b (s.lists cls))).map
 fun custom=>if custom then s else setDefault b cls s

def scanInitializedClass (cls metacls:Cls) (b:Bundle) (s:State preopt) : Option (State preopt) :=
 (if b.scansInstances then scanAddedClass prog b cls false s else some s).bind
  (scanAddedClass prog b metacls true)

def scanAddedSubClass (subcls supercls:Cls) (b:Bundle) (s:State preopt) : Option (State preopt) :=
 if s.isCustom b supercls && !s.isCustom b subcls then setCustomRecursively b subcls s else some s

def scanAddedMethodLists (cls:Cls) (lists:List (List Method)) (b:Bundle) (s:State preopt) :
 Option (State preopt) :=
 if s.isCustom b cls then some s
 else if scanMethodLists prog b lists then setCustomRecursively b cls s
 else some s

def swizzledInNSObject (cls:Cls) (isMeta:Bool) (b:Bundle) (s:State preopt) :
 Option (State preopt) :=
 if s.swizzled b isMeta=false ∧ cls=prog.nsoClass isMeta then
  setNSObjectSwizzled b cls isMeta s
 else some s

/-- A method belongs to the class whose lists it is in, so the loops over the methods of NSObject
and its metaclass look at the class of the method. -/
def scanChangedMethodForUnknownClass (m:MethodRef) (b:Bundle) (s:State preopt) :
 Option (State preopt) :=
 (if b.scansInstances then swizzledInNSObject prog m.cls false b s else some s).bind
  (swizzledInNSObject prog m.cls true b)

def scanChangedMethod (cls:Option Cls) (m:MethodRef) (name:Sel) (b:Bundle)
 (s:State preopt) : Option (State preopt) :=
 if isInterestingSelector prog b name=false then some s
 else
  match cls with
  | none=>scanChangedMethodForUnknownClass prog m b s
  | some c=>
   if s.isMetaClass c then swizzledInNSObject prog c true b s
   else if b.scansInstances then swizzledInNSObject prog c false b s
   else some s

def adjustCustomFlagsForMethodChange (cls:Option Cls) (m:MethodRef) (name:Sel) :
 State preopt → Option (State preopt) :=
 forBundles (scanChangedMethod prog cls m name)

end Scanners

def Flags.inherit (super sub:Flags) : Flags :=
 { sub with
   hasCxxCtor := sub.hasCxxCtor || super.hasCxxCtor
   hasCxxDtor := sub.hasCxxDtor || super.hasCxxDtor
   hasCustomDeallocInitiation :=
    sub.hasCustomDeallocInitiation || super.hasCustomDeallocInitiation }

def addRootClass (cls:Cls) (s:State preopt) : State preopt :=
 {s with links:=s.links.link none cls}

def State.linkSubclass (supercls subcls:Cls) (s:State preopt) : State preopt :=
 {s with links:=s.links.link (some supercls) subcls}

def addSubclass (supercls subcls:Cls) (s:State preopt) : Option (State preopt) :=
 (forBundles (scanAddedSubClass subcls supercls)
  ((s.linkSubclass supercls subcls).modifyFlags subcls (Flags.inherit (s.flags supercls)))).bind
 fun s =>
  -- raw isa does not propagate from root class to root metaclass
  if (s.flags supercls).instancesRequireRawIsa && (s.superclass supercls).isSome then
   setInstancesRequireRawIsaRecursively subcls s
  else some s

def removeSubclass (fuel:ℕ) (supercls subcls:Cls) (s:State preopt) : Option (State preopt) :=
 (s.links.unlink fuel (some supercls) subcls).map fun l=>{s with links:=l}

def eraseNolock (c:Cls) (s:State preopt) : State preopt :=
 {s with cache:=update s.cache c (s.cache c).erase}

def flushHandler (predicate:State preopt → Cls → Bool) (c:Cls) (s:State preopt) :
 State preopt × Bool :=
 (if predicate s c then eraseNolock c s else s,true)

def flushCaches (cls:Option Cls) (predicate:State preopt → Cls → Bool) (s:State preopt) :
 Option (State preopt) :=
 match cls with
 | some c=>foreachRealizedClassAndSubclass c (flushHandler predicate) s
 | none=>foreachRealizedClassAndMetaclass (flushHandler predicate) s

def shouldFlush (m:Method) (s:State preopt) (c:Cls) : Bool :=
 s.getImp c m.name=some (m.imp : Imp)

def setImp (m:MethodRef) (imp:MethodImp) (s:State preopt) : State preopt :=
 { s with lists := update s.lists m.cls ((s.lists m.cls).modify m.list fun l =>
  l.modify m.index fun x=>{x with imp:=imp}) }

def attachLists (cls:Cls) (added:List (List Method)) (s:State preopt) : State preopt :=
 {s with lists:=update s.lists cls (s.lists cls++added)}

section Methods

variable (prog:Program)

def methodSetImplementation (cls:Option Cls) (m:MethodRef) (imp:MethodImp)
 (s:State preopt) : Option (State preopt) :=
 match s.method m with
 | none=>some s
 | some old=>(flushCaches cls (shouldFlush old) (setImp m imp s)).bind
  (adjustCustomFlagsForMethodChange prog cls m old.name)

def methodExchangeImplementations (m1 m2:MethodRef) (s:State preopt) : Option (State preopt) :=
 match s.method m1,s.method m2 with
 | some old1,some old2=>
  (flushCaches none (fun s c=>shouldFlush old1 s c || shouldFlush old2 s c)
   (setImp m2 old1.imp (setImp m1 old2.imp s))).bind fun s =>
  (adjustCustomFlagsForMethodChange prog none m1 old1.name s).bind
   (adjustCustomFlagsForMethodChange prog none m2 old2.name)
 | _,_=>some s

def prepareMethodLists (cls:Cls) (added:List (List Method)) (s:State preopt) :
 Option (State preopt) :=
 if s.isInitialized cls then forBundles (scanAddedMethodLists prog cls added) s else some s

def addMethodsFinish (cls:Cls) (newlist:List Method) (s:State preopt) : Option (State preopt) :=
 (prepareMethodLists prog cls [newlist] s).bind fun s =>
  flushCaches (some cls) (fun _ _=>true) (attachLists cls [newlist] s)

def addMethod (cls:Cls) (name:Sel) (imp:MethodImp) (replace:Bool) (s:State preopt) :
 Option (State preopt) :=
 match getMethodNoSuper s cls name with
 | some m=>if replace then methodSetImplementation prog (some cls) m imp s else some s
 | none=>addMethodsFinish prog cls [⟨name,imp⟩] s

def addMethodsLoop (cls:Cls) (replace:Bool) :
 List Method → State preopt → Option (State preopt × List Method)
 | [],s=>some (s,[])
 | x::rest,s=>
  match getMethodNoSuper s cls x.name with
  | some m=>
   (if replace then methodSetImplementation prog (some cls) m x.imp s else some s).bind
    (addMethodsLoop cls replace rest)
  | none=>(addMethodsLoop cls replace rest s).map fun r=>(r.1,x::r.2)

def addMethods (cls:Cls) (methods:List Method) (replace:Bool) (s:State preopt) :
 Option (State preopt) :=
 (addMethodsLoop prog cls replace methods s).bind fun r =>
  if r.2.isEmpty then some r.1 else addMethodsFinish prog cls r.2 r.1

/-- The categories' method lists in load order; `existing` is `ATTACH_EXISTING`. -/
def attachCategories (cls:Cls) (cats:List Category) (isMeta existing:Bool)
 (s:State preopt) : Option (State preopt) :=
 let lists:=cats.filterMap (Category.methodsForMeta isMeta)
 if lists.isEmpty then some s
 else (prepareMethodLists prog cls lists s).bind fun s =>
  if existing then flushCaches (some cls) (fun _ _=>true) (attachLists cls lists s)
  else some (attachLists cls lists s)

def attachToClass (cls:Cls) (s:State preopt) : Option (State preopt) :=
 attachCategories prog cls (s.unattached cls) (s.isMetaClass cls) false
  {s with unattached:=update s.unattached cls []}

def methodizeClass (cls:Cls) (s:State preopt) : Option (State preopt) :=
 (prepareMethodLists prog cls (s.ro cls).baseMethods.toList s).bind fun s =>
 -- root metaclasses get `+initialize` if they do not have it
 (if s.isa cls=cls then addMethod prog cls (prog.sel .plusInitialize) prog.noopImp false s
  else some s).bind (attachToClass prog cls)

def beginRealizing (cls:Cls) (s:State preopt) : State preopt :=
 { s with
   links := s.links.clear cls
   realized := update s.realized cls true
   constructing := update s.constructing cls false
   initialized := update s.initialized cls false
   flags := update s.flags cls .zero
   lists := update s.lists cls (s.ro cls).baseMethods.toList
   cache := update s.cache cls .empty }

def chooseRawIsa (cls:Cls) (s:State preopt) : Option (State preopt) :=
 if s.isMetaClass cls then some (setInstancesRequireRawIsa cls s)
 else if (s.flags cls).instancesRequireRawIsa || (s.ro cls).requiresRawIsa ||
  (s.superclass cls).any fun p =>
   (s.superclass p).isSome && (s.flags p).instancesRequireRawIsa then
  setInstancesRequireRawIsaRecursively cls s
 else some s

def Flags.fromRo (ro:Ro) (super:Option Flags) (f:Flags) : Flags :=
 { f with
   hasCxxDtor := f.hasCxxDtor || ro.hasCxxStructors
   hasCxxCtor := f.hasCxxCtor || (ro.hasCxxStructors && !ro.hasCxxDtorOnly)
   forbidsAssociatedObjects := f.forbidsAssociatedObjects || ro.forbidsAssociatedObjects ||
    super.any (·.forbidsAssociatedObjects) }

def copyRoFlags (cls:Cls) (s:State preopt) : State preopt :=
 s.modifyFlags cls (Flags.fromRo (s.ro cls) ((s.superclass cls).map s.flags))

def connect (cls:Cls) (s:State preopt) : Option (State preopt) :=
 match s.superclass cls with
 | some p=>addSubclass p cls s
 | none=>some (addRootClass cls s)

def finishRealizing (cls:Cls) (s:State preopt) : Option (State preopt) :=
 (chooseRawIsa cls s).bind fun s =>
  (connect cls (copyRoFlags cls s)).bind (methodizeClass prog cls)

def realizeClassWithoutSwift : (fuel:ℕ) → Cls → State preopt → Option (State preopt)
 | 0,_,_=>none
 | fuel+1,cls,s=>
  if s.realized cls then some s
  else
   -- `RW_REALIZED` is set first, for root classes
   (match s.superclass cls with
    | some p=>realizeClassWithoutSwift fuel p (beginRealizing cls s)
    | none=>some (beginRealizing cls s)).bind fun t =>
   (realizeClassWithoutSwift fuel (t.isa cls) t).bind (finishRealizing prog cls)

def State.newClass (cls:Cls) (isa:Cls) (superclass:Option Cls) (ro:Ro) (flags:Flags)
 (lists:List (List Method)) (constructing:Bool) (s:State preopt) : State preopt :=
 { s with
   links := (s.links.clear cls).setParent cls superclass
   isa := update s.isa cls isa
   ro := update s.ro cls ro
   known := update s.known cls true
   realized := update s.realized cls true
   constructing := update s.constructing cls constructing
   initialized := update s.initialized cls false
   flags := update s.flags cls flags
   lists := update s.lists cls lists
   cache := update s.cache cls .empty
   unattached := update s.unattached cls [] }

def Ro.ofPair (isMeta:Bool) : Ro := ⟨isMeta,false,false,false,false,none⟩

def initializeClassPair (superclass:Option Cls) (cls metacls:Cls) (s:State preopt) :
 Option (State preopt) :=
 match superclass with
 | some p=>
  let flags:={ Flags.zero with
   forbidsAssociatedObjects := (s.flags p).forbidsAssociatedObjects }
  let s:=s.newClass cls metacls (some p) (.ofPair false) flags [] true
  let s:=s.newClass metacls (s.isa (s.isa p)) (some (s.isa p)) (.ofPair true) .zero [] true
  (addSubclass p cls (setInstancesRequireRawIsa metacls s)).bind fun s =>
   addSubclass (s.isa p) metacls s
 | none=>
  let s:=s.newClass cls metacls none (.ofPair false) .zero [] true
  let s:=s.newClass metacls metacls (some cls) (.ofPair true) .zero [] true
  addSubclass cls metacls (addRootClass cls (setInstancesRequireRawIsa metacls s))

def verifySuperclass (superclass:Option Cls) (s:State preopt) : Bool :=
 superclass.all fun p=>s.realized p && !s.constructing p

/-- The pair is at the addresses that `calloc` returns; `nil` is returned for a bad superclass. -/
def allocateClassPair (superclass:Option Cls) (cls metacls:Cls) (s:State preopt) :
 Option (State preopt) :=
 if verifySuperclass superclass s then initializeClassPair superclass cls metacls s else some s

def registerClassPair (cls:Cls) (s:State preopt) : State preopt :=
 if s.constructing cls && s.constructing (s.isa cls) then
  { s with
    constructing := update (update s.constructing (s.isa cls) false) cls false
    namedClasses := s.namedClasses+1 }
 else s

/-- The duplicate shares the metaclass; its method lists are copies. -/
def duplicateClass (original duplicate:Cls) (s:State preopt) : Option (State preopt) :=
 (connect duplicate (s.newClass duplicate (s.isa original) (s.superclass original) (s.ro original)
  (s.flags original).withEmptyCache (s.lists original) (s.constructing original))).map
 fun s=>{s with namedClasses:=s.namedClasses+1}

def setSuperclassPointer (cls newSuper:Cls) (s:State preopt) : State preopt :=
 {s with links:=s.links.setParent cls (some newSuper)}

def setSuperclass (fuel:ℕ) (cls newSuper:Cls) (s:State preopt) : Option (State preopt) :=
 (s.superclass cls).bind fun oldSuper =>
 (removeSubclass fuel oldSuper cls s).bind fun s =>
 (removeSubclass fuel (s.isa oldSuper) (s.isa cls) s).bind fun s =>
 (addSubclass newSuper cls (setSuperclassPointer (s.isa cls) (s.isa newSuper)
  (setSuperclassPointer cls newSuper s))).bind fun s =>
 (addSubclass (s.isa newSuper) (s.isa cls) s).bind fun s =>
 (flushCaches (some cls) (fun _ _=>true) s).bind fun s =>
  flushCaches (some (s.isa cls)) (fun _ _=>true) s

def setInitialized (cls:Cls) (s:State preopt) : Option (State preopt) :=
 (forBundles (scanInitializedClass prog cls (s.isa cls)) s).map fun t =>
  {t with initialized:=update t.initialized (s.isa cls) true}

def loadForClass (cat:Category) (cls:Cls) (isMeta:Bool) (s:State preopt) : Option (State preopt) :=
 if (cat.methodsForMeta isMeta).isNone then some s
 else if s.realized cls then attachCategories prog cls [cat] isMeta true s
 else some {s with unattached:=update s.unattached cls (s.unattached cls++[cat])}

def loadCategory (cat:Category) (s:State preopt) : Option (State preopt) :=
 (loadForClass prog cat cat.cls false s).bind fun s =>
  loadForClass prog cat (s.isa cat.cls) true s

def searchChain (sel:Sel) (s:State preopt) : (attempts:ℕ) → Cls → Option Imp
 | attempts,c=>
  match ownImp s c sel with
  | some imp=>some imp
  | none=>
   match s.superclass c,attempts with
   | none,_=>some msgForwardImpcache
   -- a cycle in the superclass chain
   | some _,0=>none
   | some p,attempts+1=>
    match s.getImp p sel with
    | some imp=>some imp
    | none=>searchChain sel s attempts p

/-- `log_and_fill_cache`; `cache_t::insert` takes nothing before `+initialize` is done. -/
def fillCache (sel:Sel) (imp:Imp) (cls:Cls) (s:State preopt) : State preopt :=
 if s.isInitialized cls then
  {s with cache:=update s.cache cls ((s.cache cls).insert sel imp)}
 else s

/-- `lookUpImpOrForward` under the lock. No IMP is returned when the method resolver is to be
called without the lock. -/
def lookUpImpOrForward (fuel:ℕ) (sel:Sel) (cls:Cls) (resolver nocache:Bool)
 (s:State preopt) : Option (State preopt × Option Imp) :=
 (realizeClassWithoutSwift prog fuel cls s).bind fun s =>
  (searchChain sel s (s.unreasonableClassCount-1) cls).map fun imp =>
   if imp=msgForwardImpcache ∧ resolver=true then (s,none)
   else (if nocache then s else fillCache sel imp cls s,some imp)

inductive Op
 | realizeClass (fuel:ℕ) (cls:Cls)
 | loadCategory (cat:Category)
 | addMethod (cls:Cls) (name:Sel) (imp:MethodImp)
 | replaceMethod (cls:Cls) (name:Sel) (imp:MethodImp)
 | addMethodsBulk (cls:Cls) (methods:List Method)
 | replaceMethodsBulk (cls:Cls) (methods:List Method)
 | setImplementation (m:MethodRef) (imp:MethodImp)
 | exchangeImplementations (m1 m2:MethodRef)
 | setSuperclass (fuel:ℕ) (cls newSuper:Cls)
 | duplicateClass (original duplicate:Cls)
 | allocateClassPair (superclass:Option Cls) (cls metacls:Cls)
 | registerClassPair (cls:Cls)
 | setInitialized (cls:Cls)
 | setCustomDeallocInitiation (cls:Cls)
 | lookUp (fuel:ℕ) (sel:Sel) (cls:Cls) (resolver nocache:Bool)

def Op.step : Op → State preopt → Option (State preopt)
 | .realizeClass fuel cls=>realizeClassWithoutSwift prog fuel cls
 | .loadCategory cat=>ClassGraph.loadCategory prog cat
 | .addMethod cls name imp=>ClassGraph.addMethod prog cls name imp false
 | .replaceMethod cls name imp=>ClassGraph.addMethod prog cls name imp true
 | .addMethodsBulk cls methods=>addMethods prog cls methods false
 | .replaceMethodsBulk cls methods=>addMethods prog cls methods true
 | .setImplementation m imp=>methodSetImplementation prog none m imp
 | .exchangeImplementations m1 m2=>methodExchangeImplementations prog m1 m2
 | .setSuperclass fuel cls newSuper=>ClassGraph.setSuperclass fuel cls newSuper
 | .duplicateClass original duplicate=>ClassGraph.duplicateClass original duplicate
 | .allocateClassPair superclass cls metacls=>ClassGraph.allocateClassPair superclass cls metacls
 | .registerClassPair cls=>fun s=>some (ClassGraph.registerClassPair cls s)
 | .setInitialized cls=>ClassGraph.setInitialized prog cls
 | .setCustomDeallocInitiation cls=>ClassGraph.setCustomDeallocInitiation cls
 | .lookUp fuel sel cls resolver nocache=>fun s =>
  (lookUpImpOrForward prog fuel sel cls resolver nocache s).map (·.1)

abbrev run : List Op → State preopt → Option (State preopt) := PartialRuns.run (Op.step prog)

end Methods

end ObjcRuntime.ClassGraph
