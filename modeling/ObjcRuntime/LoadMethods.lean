import ObjcRuntime.Interleaving
import Mathlib.Data.List.ReduceOption

/-!
The calls of `+load` (`objc-loadmethod.mm`). The outermost `call_load_methods` runs the queues
until they are empty; images that a `+load` method loads are scheduled while it runs.
-/

set_option autoImplicit false
namespace ObjcRuntime.LoadMethods

open Interleaving

/-- The classes and categories there are; superclass chains end. -/
structure Program where
 superclass : ℕ → Option ℕ
 depth : ℕ → ℕ
 depth_lt : ∀{cls parent},superclass cls=some parent → depth parent < depth cls
 /-- `getLoadMethod` finds an implementation. -/
 hasLoad : ℕ → Bool
 isSwiftStable : ℕ → Bool
 /-- `remapClass(cat->cls)`. -/
 categoryClass : ℕ → Option ℕ
 categoryHasLoad : ℕ → Bool

/-- The non-lazy lists of an image. A class that is ignored is `none`. -/
structure Image where
 classes : List (Option ℕ)
 categories : List ℕ

inductive Event
 | scheduledClass (cls:ℕ)
 | scheduledCategory (cat:ℕ)
 | calledClass (cls:ℕ)
 | calledCategory (cat:ℕ)
 deriving DecidableEq,Repr

inductive Phase
 | idle
 | classLoop
 | inClasses (rest:List (Option ℕ))
 | inClassLoad (rest:List (Option ℕ))
 /-- In `call_category_loads`, with the rest of the detached list and the categories of it that
  have to wait. -/
 | inCategories (rest:List (Option ℕ)) (waiting:List ℕ)
 | inCategoryLoad (rest:List (Option ℕ)) (waiting:List ℕ)
 | again (moreCategories:Bool)
 deriving DecidableEq,Repr

/-- A queue entry that was removed is nil. -/
structure State where
 /-- `RW_LOADED`. -/
 loaded : ℕ → Bool
 classes : List (Option ℕ)
 categories : List (Option ℕ)
 phase : Phase
 trace : List Event

def State.record (s:State) (e:Event) : State :=
 {s with trace:=s.trace++[e]}

variable (prog:Program)

def addClassToLoadableList (s:State) (cls:ℕ) : State :=
 if prog.hasLoad cls then
  {s with classes:=s.classes++[some cls],trace:=s.trace++[.scheduledClass cls]}
 else s

def addCategoryToLoadableList (s:State) (cat:ℕ) : State :=
 if prog.categoryHasLoad cat then
  {s with categories:=s.categories++[some cat],trace:=s.trace++[.scheduledCategory cat]}
 else s

def State.setLoaded (s:State) (cls:ℕ) : State :=
 {s with loaded:=Function.update s.loaded cls true}

def scheduleClassLoad (s:State) (cls:ℕ) : State :=
 if s.loaded cls then s
 else
  let s :=
   match _h : prog.superclass cls with
   | none=>s
   | some parent=>scheduleClassLoad s parent
  (addClassToLoadableList prog s cls).setLoaded cls
termination_by prog.depth cls
decreasing_by exact prog.depth_lt _h

def scheduleClasses (s:State) (classes:List (Option ℕ)) : State :=
 classes.foldl
  (fun s cls =>
   match cls with
   | none=>s
   | some cls=>scheduleClassLoad prog s cls) s

/-- A round of the second loop; `none` is the fatal error about Swift classes. -/
def scheduleCategory (s:State) (cat:ℕ) : Option State :=
 match prog.categoryClass cat with
 | none=>some s
 | some cls=>
  if prog.isSwiftStable cls then none else some (addCategoryToLoadableList prog s cat)

def prepareLoadMethods (s:State) (image:Image) : Option State :=
 image.categories.foldlM (scheduleCategory prog) (scheduleClasses prog s image.classes)

def hasLoadMethods (image:Image) : Bool :=
 !image.classes.isEmpty || !image.categories.isEmpty

def isLoadable (_cls:ℕ) : Bool := true

/-- One step of the outermost `call_load_methods`, outside the `+load` methods. -/
def advance (s:State) : State :=
 match s.phase with
 | .idle=>s
 | .classLoop=>
  match s.classes with
  | []=>{s with categories:=[],phase:=.inCategories s.categories []}
  | classes=>{s with classes:=[],phase:=.inClasses classes}
 | .inClasses []=>{s with phase:=.classLoop}
 | .inClasses (none::rest)=>{s with phase:=.inClasses rest}
 | .inClasses (some cls::rest)=>{s.record (.calledClass cls) with phase:=.inClassLoad rest}
 | .inClassLoad rest=>{s with phase:=.inClasses rest}
 | .inCategories (none::rest) waiting=>{s with phase:=.inCategories rest waiting}
 | .inCategories (some cat::rest) waiting=>
  match prog.categoryClass cat with
  | none=>{s with phase:=.inCategories rest (waiting++[cat])}
  | some cls=>
   if isLoadable cls then
    {s.record (.calledCategory cat) with phase:=.inCategoryLoad rest waiting}
   else {s with phase:=.inCategories rest (waiting++[cat])}
 | .inCategories [] waiting=>
  { s with
    categories := waiting.map some++s.categories
    phase := .again (!s.categories.isEmpty) }
 | .inCategoryLoad rest waiting=>{s with phase:=.inCategories rest waiting}
 | .again moreCategories=>
  if !s.classes.isEmpty || moreCategories then {s with phase:=.classLoop}
  else {s with phase:=.idle}

def Phase.inLoad : Phase → Bool
 | .inClassLoad _ | .inCategoryLoad _ _=>true
 | _=>false

/-- An image that is loaded outside starts `call_load_methods`; in a `+load` method it is only
scheduled. `admits` says which images may be loaded. -/
inductive Step (admits:State → Image → Prop) : State → State → Prop
 | advance {s:State} : Step admits s (advance prog s)
 | loadImages {s s':State} {image:Image} (outside:s.phase=.idle)
  (some_:hasLoadMethods image=true) (admitted:admits s image)
  (prepared:prepareLoadMethods prog s image=some s') :
  Step admits s {s' with phase:=.classLoop}
 | loadImagesInLoad {s s':State} {image:Image} (inside:s.phase.inLoad=true)
  (some_:hasLoadMethods image=true) (admitted:admits s image)
  (prepared:prepareLoadMethods prog s image=some s') :
  Step admits s s'

def start : State := ⟨fun _=>false,[],[],.idle,[]⟩

def Reached (admits:State → Image → Prop) (s:State) : Prop :=
 Relation.ReflTransGen (Step prog admits) start s

end ObjcRuntime.LoadMethods
