import ObjcRuntime.Interleaving
import Mathlib.Data.Finmap

/-!
Associated objects (`objc-references.mm`). A section under `AssociationsManagerLock` is one step;
the retain or copy of a new value and every release are steps of their own. A `DenseMap` is a
finite map, iterated in any order.
-/

set_option autoImplicit false
namespace ObjcRuntime.Associations

open Interleaving

/-- A policy and a value, and the number of the retain or copy by which a set acquired the value,
if it did. The code keeps no such number and nothing here depends on it. -/
structure Association where
 policy : ℕ
 value : ℕ
 serial : Option ℕ
 deriving DecidableEq,Repr

def Association.empty : Association := ⟨0,0,none⟩

/-- The policies of `objc_AssociationPolicy`: assign, retain and copy, nonatomic or not. -/
def publicPolicies : List ℕ := [0,1,3,0o1401,0o1403]

def systemObject : ℕ := 1 <<< 16

def policies : List ℕ := publicPolicies++publicPolicies.map (· ||| systemObject)

namespace Association

def isSystem (a:Association) : Bool :=
 a.policy &&& systemObject≠0

def holdsValue (a:Association) : Bool :=
 a.value≠0 && a.policy &&& 1≠0

def retainsReturned (a:Association) : Bool :=
 a.value≠0 && a.policy &&& (1 <<< 8)≠0

def autoreleasesReturned (a:Association) : Bool :=
 a.value≠0 && a.policy &&& (2 <<< 8)≠0

def acquireValue (policy value copy serial:ℕ) : Association :=
 if value≠0 then
  match policy &&& 0xFF with
  | 1=>⟨policy,value,some serial⟩
  | 3=>⟨policy,copy,if copy≠0 then some serial else none⟩
  | _=>⟨policy,value,none⟩
 else ⟨policy,value,none⟩

end Association

abbrev ObjectAssociationMap := Finmap fun _ : ℕ=>Association

abbrev AssociationsHashMap := Finmap fun _ : ℕ=>ObjectAssociationMap

structure Shared where
 associations : AssociationsHashMap
 acquired : ℕ

def entry (m:AssociationsHashMap) (object key:ℕ) : Option Association :=
 (m.lookup object).bind fun refs=>refs.lookup key

def Shared.stored (s:Shared) : ℕ → ℕ → Option Association :=
 entry s.associations

/-- `DenseMap::try_emplace` and `DenseMap::insert`: a key that is there keeps its value. -/
def emplace {V:ℕ → Type} (m:Finmap V) (key:ℕ) (value:V key) : Finmap V :=
 if key∈m then m else m.insert key value

/-- The locked section of a set with a value: the map, what is left in the local association, and
whether this is the object's first one. -/
def establish (m:AssociationsHashMap) (object key:ℕ) (association:Association) :
 AssociationsHashMap × Association × Bool :=
 let isFirstAssociation:=object∉m
 let m:=emplace m object ∅
 let refs:=(m.lookup object).getD ∅
 match refs.lookup key with
 | none=>(m.insert object (refs.insert key association),.empty,isFirstAssociation)
 | some old=>(m.insert object (refs.insert key association),old,isFirstAssociation)

def clear (m:AssociationsHashMap) (object key:ℕ) (association:Association) :
 AssociationsHashMap × Association :=
 match m.lookup object with
 | none=>(m,association)
 | some refs=>
  match refs.lookup key with
  | none=>(m,association)
  | some old=>
   let refs:=refs.erase key
   if refs.keys.card=0 then (m.erase object,old) else (m.insert object refs,old)

def reinsert (refs:List (Σ _:ℕ,Association)) : ObjectAssociationMap :=
 refs.foldl (fun m ref=>if ref.2.isSystem then emplace m ref.1 ref.2 else m) ∅

/-- The locked section of a removal; `refs` are the object's associations in the order of the
iteration. -/
def takeAssociations (m:AssociationsHashMap) (object:ℕ) (deallocating:Bool)
 (refs:List (Σ _:ℕ,Association)) : AssociationsHashMap :=
 if object∈m then
  let didReInsert:=!deallocating && refs.any fun ref=>ref.2.isSystem
  if didReInsert then m.insert object (reinsert refs) else m.erase object
 else m

inductive Point
 | idle
 | acquire (object key value policy:ℕ)
 | store (object key value:ℕ) (association:Association)
 | note (object:ℕ) (association:Association)
 | release (association:Association)
 | autorelease (object key:ℕ) (association:Association)
 | releaseAll (deallocating:Bool) (refs later:List Association)
 | releaseLater (later:List Association)

inductive Section
 | set (object key:ℕ) (association:Association)
 | clear (object key:ℕ)
 | get (object key:ℕ)
 | remove (object:ℕ) (deallocating:Bool)

inductive Event
 | acquired (t serial value:ℕ)
 | locked (t:ℕ) (does:Section)
 | retained (t object key:ℕ) (association:Association)
 | autoreleased (t:ℕ) (association:Association)
 | returned (t object key:ℕ) (association:Association)
 | noted (t object:ℕ)
 | released (t:ℕ) (association:Association)

def Event.thread : Event → ℕ
 | .acquired t .. | .locked t .. | .retained t .. | .autoreleased t .. | .returned t ..
 | .noted t .. | .released t .. => t

def releaseEvents (t:ℕ) (a:Association) : List Event :=
 if a.holdsValue then [.released t a] else []

/-- The steps of the three functions. Where an object's class forbids associated objects the set
stops the program; it does nothing for no object and no value. -/
inductive ThreadStep (forbids:ℕ → Bool) : Interleaving.ThreadStep Shared Point Event
 | set {t s} (object key value policy:ℕ) (nonnil:object≠0)
  (allowed:forbids object=false) (public_:policy∈policies) :
  ThreadStep forbids t s .idle [] s (.acquire object key value policy)
 | acquire {s:Shared} {association:Association} {t object key value policy}
  (copy:ℕ) (result:.acquireValue policy value copy s.acquired=association) :
  ThreadStep forbids t s (.acquire object key value policy)
   (if association.serial.isSome then [.acquired t s.acquired association.value] else [])
   {s with acquired:=s.acquired+1} (.store object key value association)
 | establish {s:Shared} {t object key value association old m isFirstAssociation} (nonnil:value≠0)
  (result:establish s.associations object key association=(m,old,isFirstAssociation)) :
  ThreadStep forbids t s (.store object key value association)
   [.locked t (.set object key association)] {s with associations:=m}
   (if isFirstAssociation then .note object old else .release old)
 | clear {s:Shared} {t object key association old m}
  (result:clear s.associations object key association=(m,old)) :
  ThreadStep forbids t s (.store object key 0 association)
   [.locked t (.clear object key)] {s with associations:=m} (.release old)
 | note {t s object association} :
  ThreadStep forbids t s (.note object association) [.noted t object] s (.release association)
 | release {t s association} :
  ThreadStep forbids t s (.release association) (releaseEvents t association) s .idle
 | get {s:Shared} {association:Association} {t} (object key:ℕ)
  (found:(s.stored object key).getD .empty=association) :
  ThreadStep forbids t s .idle
   (.locked t (.get object key) ::
    if association.retainsReturned then [.retained t object key association] else [])
   s (.autorelease object key association)
 | autorelease {association:Association} {t s object key} :
  ThreadStep forbids t s (.autorelease object key association)
   ((if association.autoreleasesReturned then [.autoreleased t association] else []) ++
     [.returned t object key association])
   s .idle
 | remove {s:Shared} {t} (object:ℕ) (deallocating:Bool)
  (refs:AList fun _ : ℕ=>Association)
  (order:refs.toFinmap=(s.associations.lookup object).getD ∅) :
  ThreadStep forbids t s .idle [.locked t (.remove object deallocating)]
   { s with
     associations := takeAssociations s.associations object deallocating refs.entries }
   (.releaseAll deallocating (refs.entries.map Sigma.snd) [])
 | releaseOne {a:Association} {t s deallocating refs later} (normal:a.isSystem=false) :
  ThreadStep forbids t s (.releaseAll deallocating (a::refs) later) (releaseEvents t a) s
   (.releaseAll deallocating refs later)
 | putOff {a:Association} {t s deallocating refs later} (system:a.isSystem=true) :
  ThreadStep forbids t s (.releaseAll deallocating (a::refs) later) [] s
   (.releaseAll deallocating refs (if deallocating then later++[a] else later))
 | turnToLater {t s deallocating later} :
  ThreadStep forbids t s (.releaseAll deallocating [] later) [] s (.releaseLater later)
 | releaseLater {t s a later} :
  ThreadStep forbids t s (.releaseLater (a::later)) (releaseEvents t a) s
   (.releaseLater later)
 | removed {t s} : ThreadStep forbids t s (.releaseLater []) [] s .idle

def start : Config Shared Point Event := ⟨⟨∅,0⟩,fun _=>.idle,[]⟩

end ObjcRuntime.Associations
