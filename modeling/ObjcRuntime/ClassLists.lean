import ObjcRuntime.ListArrays
import ObjcRuntime.MethodLookup
import ObjcRuntime.PartialRuns

/-!
# The method, property and protocol lists of classes

A class that nobody has added to has the lists of its `class_ro_t`; adding to it gives it a
`class_rw_ext_t`. Lists and arrays are in memory, where several classes can point to them; every
kind of thing has addresses of its own.
-/

set_option autoImplicit false
namespace ObjcRuntime.ClassLists

open ListArrays
open MethodLookup (Sel MethodImp)
open Function

abbrev Cls := ℕ

abbrev Protocol := ℕ

structure Method where
 name : Sel
 imp : MethodImp

/-- `attributes` is the string that `copyPropertyAttributeString` makes. -/
structure Property where
 name : String
 attributes : String
 deriving DecidableEq

inductive Kind where
 | methods
 | properties
 | protocols
 deriving DecidableEq

abbrev Elem : Kind → Type
 | .methods=>Method
 | .properties=>Property
 | .protocols=>Protocol

/-- `base` is what `class_ro_t` points to, `ext` the three words of the `class_rw_ext_t`. -/
structure ClassRw where
 base : Kind → Option ℕ
 ext : Option (Kind → Word)

def ClassRw.word (rw:ClassRw) : Kind → Word := rw.ext.getD fun k=>.list (rw.base k)

/-- `superclasses` has the superclasses of a class from the nearest on. -/
structure State where
 superclasses : Cls → List Cls
 data : Cls → ClassRw
 mem : (k:Kind) → Memory (Elem k)

namespace State

variable (s:State)

def word (c:Cls) (k:Kind) : Word := (s.data c).word k

def lists (c:Cls) (k:Kind) : Option (List ℕ) := (s.word c k).lists (s.mem k)

/-- What `class_copyMethodList` and its siblings go through; `none` is a read of freed memory. -/
def observed (c:Cls) (k:Kind) : Option (List (Elem k)) := (s.word c k).contents (s.mem k)

def newList (k:Kind) (l:ℕ) (es:List (Elem k)) : State :=
 {s with mem:=update s.mem k ((s.mem k).newList l es)}

def modify (k:Kind) (r:ℕ × ℕ) (f:Elem k → Elem k) : State :=
 {s with mem:=update s.mem k ((s.mem k).modify r.1 r.2 f)}

def setWord (c:Cls) (k:Kind) (m:Memory (Elem k)) (w:Word) : State :=
 { s with
   mem := update s.mem k m
   data := update s.data c ⟨(s.data c).base,some (update (s.data c).word k w)⟩ }

def attachLists (c:Cls) (k:Kind) (added:List ℕ) (new:ℕ) : Option State :=
 ((s.mem k).attachLists (s.word c k) added new).map fun r=>s.setWord c k r.1 r.2

def add (c:Cls) (k:Kind) (es:List (Elem k)) (l new:ℕ) : Option State :=
 (s.newList k l es).attachLists c k [l] new

def getMethodNoSuper (c:Cls) (sel:Sel) : Option (Option (ℕ × ℕ)) :=
 (s.lists c .methods).map ((s.mem .methods).locate fun m : Method=>m.name=sel)

def searchProperty (name:String) : List Cls → Option (Option (ℕ × ℕ))
 | []=>some none
 | c::rest=>(s.lists c .properties).bind fun ls =>
  match (s.mem .properties).locate (fun p:Property=>p.name=name) ls with
  | some r=>some (some r)
  | none=>searchProperty name rest

def getProperty (c:Cls) (name:String) : Option (Option (ℕ × ℕ)) :=
 s.searchProperty name (c::s.superclasses c)

def attributes (c:Cls) (name:String) : Option (Option String) :=
 (s.getProperty c name).map fun r =>
  (r.bind (s.mem .properties).get).map fun p : Property=>p.attributes

variable (conforms:Protocol → Protocol → Bool)

/-- `class_conformsToProtocol`; `conforms` is `protocol_conformsToProtocol_nolock`. -/
def conformsToProtocol (c:Cls) (proto:Protocol) : Option Bool :=
 (s.observed c .protocols).map fun ps : List Protocol =>
  ps.any fun p=>p=proto || conforms p proto

def setImplementation (r:ℕ × ℕ) (imp:MethodImp) : State :=
 s.modify .methods r fun m : Method=>{m with imp:=imp}

def addMethod (c:Cls) (name:Sel) (imp:MethodImp) (replace:Bool) (l new:ℕ) : Option State :=
 (s.getMethodNoSuper c name).bind fun found =>
  match found with
  | some r=>some (if replace then s.setImplementation r imp else s)
  | none=>s.add c .methods [(⟨name,imp⟩ : Method)] l new

def setAttributes (r:ℕ × ℕ) (attrs:String) : State :=
 s.modify .properties r fun p : Property=>{p with attributes:=attrs}

def addProperty (c:Cls) (name attrs:String) (replace:Bool) (l new:ℕ) : Option State :=
 (s.getProperty c name).bind fun found =>
  match found with
  | some r=>some (if replace then s.setAttributes r attrs else s)
  | none=>s.add c .properties [(⟨name,attrs⟩ : Property)] l new

def addProtocol (c:Cls) (proto:Protocol) (l new:ℕ) : Option State :=
 (s.conformsToProtocol conforms c proto).bind fun found =>
  if found then some s else s.add c .protocols [(proto:Protocol)] l new

/-- What `objc_duplicateClass` does about the lists. The method lists are copied to the given
addresses; the words for the other lists are copied as they are. -/
def duplicateClass (original duplicate:Cls) (copies:List ℕ) (new:ℕ) : Option State :=
 let superclasses:=update s.superclasses duplicate (s.superclasses original)
 if (s.data original).ext.isSome || ((s.data original).base .methods).isSome then
  ((s.mem .methods).duplicate (s.word original .methods) copies new).map fun r =>
    { superclasses
      mem := update s.mem .methods r.1
      data := update s.data duplicate
       ⟨(s.data original).base,some (update (s.data original).word .methods r.2)⟩ }
 else
  some { s with
   superclasses
   data := update s.data duplicate ⟨(s.data original).base,none⟩ }

end State

/-- Operations on a class. The addresses are those that `malloc` returns; `attachLists` is one of
the calls that `attachCategories` makes for up to 64 lists of its categories. -/
inductive Op where
 | addMethod (name:Sel) (imp:MethodImp) (replace:Bool) (l new:ℕ)
 | setImplementation (r:ℕ × ℕ) (imp:MethodImp)
 | addProperty (name attrs:String) (replace:Bool) (l new:ℕ)
 | addProtocol (proto:Protocol) (l new:ℕ)
 | attachLists (k:Kind) (added:List ℕ) (new:ℕ)

variable (conforms:Protocol → Protocol → Bool) (c:Cls)

def Op.step : Op → State → Option State
 | .addMethod name imp replace l new=>fun s=>s.addMethod c name imp replace l new
 | .setImplementation r imp=>fun s=>some (s.setImplementation r imp)
 | .addProperty name attrs replace l new=>fun s=>s.addProperty c name attrs replace l new
 | .addProtocol proto l new=>fun s=>s.addProtocol conforms c proto l new
 | .attachLists k added new=>fun s=>s.attachLists c k added new

abbrev run : List Op → State → Option State := PartialRuns.run (Op.step conforms c)

def State.Live (s:State) (c:Cls) (k:Kind) : Prop :=
 ∃ls,s.lists c k=some ls ∧ ∀l∈ls,(s.mem k).used l=true

variable {r:ℕ × ℕ}

section Frames

variable {conforms:Protocol → Protocol → Bool} {c d:Cls} {k j:Kind} {s t:State}
 {added:List ℕ} {l new:ℕ}

theorem word_ext (base:Kind → Option ℕ) (e:Kind → Word) : ClassRw.word ⟨base,some e⟩=e := rfl

theorem setWord_word {m:Memory (Elem k)} {w:Word} : (s.setWord c k m w).word d j =
 if d=c ∧ j=k then w else s.word d j := by
 rw [State.word,State.setWord]
 dsimp only
 by_cases hd : d=c
 · subst hd
   rw [update_self]
   by_cases hj : j=k
   · subst hj
     rw [if_pos ⟨rfl,rfl⟩]
     exact update_self ..
   · rw [if_neg fun h=>hj h.2]
     exact update_of_ne hj ..
 · rw [update_of_ne hd,if_neg fun h=>hd h.1]
   rfl

structure Same (d:Cls) (j:Kind) (s t:State) : Prop where
 lists : t.lists d j=s.lists d j
 observed : t.observed d j=s.observed d j
 live : t.Live d j

theorem Same.trans {u:State} (h:Same d j s t) (h':Same d j t u) : Same d j s u :=
 ⟨h'.lists.trans h.lists,h'.observed.trans h.observed,h'.live⟩

theorem State.Live.same (h:s.Live d j) : Same d j s s := ⟨rfl,rfl,h⟩

theorem State.Live.isSome (h:s.Live d j) : (s.lists d j).isSome := by
 obtain ⟨ls,hls,-⟩:=h
 rw [hls]
 rfl

theorem State.Live.observed (h:s.Live d j) : ∃es,s.observed d j=some es := by
 obtain ⟨ls,hls,-⟩:=h
 exact ⟨_,congrArg (Option.map _) hls⟩

theorem State.Live.same_of (h:s.Live d j) (hword:t.word d j=s.word d j)
 (hlists:(s.word d j).lists (t.mem j)=(s.word d j).lists (s.mem j))
 (hlist:∀ls,s.lists d j=some ls → ∀l∈ls,(t.mem j).list l=(s.mem j).list l)
 (hused:∀l,(s.mem j).used l=true → (t.mem j).used l=true) : Same d j s t := by
 have heq:t.lists d j=s.lists d j:=by
  rw [State.lists,hword,hlists]
  rfl
 refine ⟨heq,?_,?_⟩
 · rw [State.observed,hword]
   exact Word.contents_congr hlists hlist
 · obtain ⟨ls,hls,hin⟩:=h
   exact ⟨ls,heq.trans hls,fun l hl=>hused l (hin l hl)⟩

theorem newList_self (es:List (Elem k)) :
 (s.newList k l es).mem k=(s.mem k).newList l es := update_self ..

theorem newList_of_ne (hj:j≠k) (es:List (Elem k)) : (s.newList k l es).mem j=s.mem j :=
 update_of_ne hj ..

theorem modify_self (r:ℕ × ℕ) (f:Elem k → Elem k) :
 (s.modify k r f).mem k=(s.mem k).modify r.1 r.2 f := update_self ..

theorem modify_of_ne (hj:j≠k) (r:ℕ × ℕ) (f:Elem k → Elem k) :
 (s.modify k r f).mem j=s.mem j := update_of_ne hj ..

theorem State.Live.newList (h:s.Live d j) (hl:(s.mem k).used l=false) (es:List (Elem k)) :
 Same d j s (s.newList k l es) := by
 by_cases hj : j=k
 · subst hj
   have hmem:=newList_self (s:=s) (l:=l) es
   refine h.same_of rfl ?_ (fun ls hls m hm=>?_) fun m hm=>?_
   · rw [hmem]
     cases s.word d j <;> rfl
   · obtain ⟨ls',hls',hin⟩:=h
     grind [newList_list]
   · rw [hmem]
     exact newList_used.mpr (.inl hm)
 · have hmem:=newList_of_ne (s:=s) (l:=l) hj es
   refine h.same_of rfl ?_ (fun _ _ m _=>?_) fun m hm=>?_
   · rw [hmem]
   · rw [hmem]
   · rw [hmem]
     exact hm

variable {f:Elem k → Elem k}

theorem modify_mem (w:Word) : w.lists ((s.modify k r f).mem j)=w.lists (s.mem j) ∧
  ((s.modify k r f).mem j).used=(s.mem j).used := by
 by_cases hj : j=k
 · subst hj
   rw [modify_self]
   refine ⟨?_,rfl⟩
   cases w <;> rfl
 · rw [modify_of_ne hj]
   exact ⟨rfl,rfl⟩

theorem modify_lists : (s.modify k r f).lists d j=s.lists d j := (modify_mem _).1

theorem State.Live.modify (h:s.Live d j) : (s.modify k r f).Live d j := by
 obtain ⟨ls,hls,hin⟩:=h
 refine ⟨ls,modify_lists.trans hls,fun l hl=>?_⟩
 rw [(modify_mem (s.word d j)).2]
 exact hin l hl

theorem State.Live.modify_same (h:s.Live d j)
 (hr:j=k → ∀ls,s.lists d j=some ls → r.1∉ls) : Same d j s (s.modify k r f) := by
 refine h.same_of rfl (modify_mem _).1 (fun ls hls m hm=>?_) fun m hm=>?_
 · grind [modify_self,Memory.modify_list,modify_of_ne]
 · rw [(modify_mem (s.word d j)).2]
   exact hm

structure AttachedTo (c:Cls) (k:Kind) (added:List ℕ) (s t:State) : Prop where
 superclasses : t.superclasses=s.superclasses
 others : ∀d j,¬(d=c ∧ j=k) → t.word d j=s.word d j
 mems : ∀j,j≠k → t.mem j=s.mem j
 attached : Attached (s.mem k) (s.word c k) added (t.mem k) (t.word c k)

theorem attachLists_spec (hread:(s.lists c k).isSome) (hnew:(s.mem k).array new=none)
 (added:List ℕ) : ∃t,s.attachLists c k added new=some t ∧ AttachedTo c k added s t := by
 obtain ⟨m,w,heq,hatt⟩:=ListArrays.attachLists_spec hread hnew added
 refine ⟨s.setWord c k m w,congrArg (Option.map _) heq,rfl,fun d j hne=>?_,fun j hj=>?_,?_⟩
 · rw [setWord_word,if_neg hne]
 · exact update_of_ne hj ..
 · rw [setWord_word,if_pos ⟨rfl,rfl⟩,State.setWord]
   grind

theorem AttachedTo.same (h:AttachedTo c k added s t) (hd:¬(d=c ∧ j=k)) (hlive:s.Live d j)
 (hsh:j=k → added≠[] → ¬(s.word c k).Shares (s.word d k)) : Same d j s t := by
 by_cases hj : j=k
 · subst hj
   refine hlive.same_of (h.others d j hd) (h.attached.kept _ hlive.isSome (hsh rfl)) ?_ ?_
   · exact fun _ _ l _=>congrFun h.attached.list l
   · exact fun l hl=>(congrFun h.attached.used l).trans hl
 · grind [hlive.same_of,h.others,h.mems]

theorem AttachedTo.lists (h:AttachedTo c k added s t) :
 t.lists c k=(s.lists c k).map (added ++ ·) := h.attached.lists

theorem AttachedTo.live (h:AttachedTo c k added s t) (hlive:s.Live c k)
 (hused:∀l∈added,(s.mem k).used l=true) : t.Live c k := by
 obtain ⟨ls,hls,hin⟩:=hlive
 refine ⟨added++ls,by rw [h.lists,hls]; rfl,fun l hl=>?_⟩
 grind [h.attached.used]

theorem add_spec (hlive:s.Live c k) (hnew:(s.mem k).array new=none) (es:List (Elem k))
 (hl:(s.mem k).used l=false) : ∃t,s.add c k es l new=some t ∧
  AttachedTo c k [l] (s.newList k l es) t := by
 refine attachLists_spec (hlive.newList hl es).live.isSome ?_ [l]
 rw [newList_self]
 exact hnew

theorem add_same {es:List (Elem k)} (h:AttachedTo c k [l] (s.newList k l es) t)
 (hl:(s.mem k).used l=false) (hd:¬(d=c ∧ j=k)) (hlive:s.Live d j)
 (hsh:j=k → ¬(s.word c k).Shares (s.word d k)) : Same d j s t :=
 (hlive.newList hl es).trans (h.same hd (hlive.newList hl es).live fun hj _=>hsh hj)

theorem add_observed {es:List (Elem k)} (h:AttachedTo c k [l] (s.newList k l es) t)
 (hl:(s.mem k).used l=false) (hlive:s.Live c k) :
 t.observed c k=(s.observed c k).map (es ++ ·) ∧ t.Live c k := by
 have hsame:=hlive.newList hl es
 constructor
 · have hcontents:t.observed c k=((s.newList k l es).observed c k).map
    ([l].flatMap ((s.newList k l es).mem k).list ++ ·) := h.attached.contents
   have hlist:((s.newList k l es).mem k).list l=es:=by
    rw [newList_self]
    exact update_self ..
   rw [hcontents,hsame.observed,List.flatMap_singleton,hlist]
 · refine h.live hsame.live fun m hm=>?_
   grind [newList_self,newList_used]

end Frames

end ObjcRuntime.ClassLists
