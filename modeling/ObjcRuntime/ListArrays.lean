import Mathlib.Data.List.Basic

/-!
# Words that point to a list or to an array of lists

Attaching lists puts them in front. In memory it replaces the array by a new one and frees the old
one, so a copy of the word is left with a freed array.
-/

set_option autoImplicit false
namespace ObjcRuntime.ListArrays
open Function

variable {ε L:Type}

inductive WordOf (L A:Type)
 | list (l:Option L)
 | array (a:A)
 deriving DecidableEq

/-- A word with its array at hand. -/
abbrev ListArray (L:Type) := WordOf L (List L)

namespace ListArray

def lists : ListArray L → List L
 | .list l=>l.toList
 | .array ls=>ls

def attachLists : ListArray L → List L → ListArray L
 | a,[]=>a
 -- many lists -> many lists
 | .array old,added=>.array (added++old)
 -- 0 lists -> 1 list
 | .list none,[l]=>.list (some l)
 -- 1 list -> many lists
 | .list old,added=>.array (added++old.toList)

@[simp]
theorem lists_attachLists (a:ListArray L) (added:List L) :
 lists (attachLists a added)=added++lists a := by
 match a,added with
 | .array _,[] | .list _,[] | .list none,[_]=>rfl
 | .list none,_::_::_ | .list (some _),_::_ | .array _,_::_=>rfl

end ListArray

/-- An address without an array is free memory. -/
structure Memory (ε:Type) where
 list : ℕ → List ε
 used : ℕ → Bool
 array : ℕ → Option (List ℕ)

/-- A word with the address of its array. -/
abbrev Word := WordOf ℕ ℕ

namespace Word

/-- `none` is a read of a freed array. -/
def load (m:Memory ε) : Word → Option (ListArray ℕ)
 | .list l=>some (.list l)
 | .array a=>(m.array a).map .array

def lists (m:Memory ε) : Word → Option (List ℕ)
 | .list l=>some l.toList
 | .array a=>m.array a

def contents (m:Memory ε) (w:Word) : Option (List ε) := (w.lists m).map (·.flatMap m.list)

def Shares (w v:Word) : Prop := ∃a,w=.array a ∧ v=.array a

end Word

namespace Memory

variable (m:Memory ε)

def newList (l:ℕ) (es:List ε) : Memory ε :=
 {m with list:=update m.list l es,used:=update m.used l true}

def modify (l i:ℕ) (f:ε → ε) : Memory ε :=
 {m with list:=update m.list l ((m.list l).modify i f)}

/-- A new array is at `new`, and the word's old one is freed. -/
def store (w:Word) (new:ℕ) : ListArray ℕ → Memory ε × Word
 | .list l=>(m,.list l)
 | .array ls=>
  let array:=update m.array new (some ls)
  ({ m with
     array := match w with
      | .list _=>array
      | .array a=>update array a none },.array new)

def attachLists (w:Word) (added:List ℕ) (new:ℕ) : Option (Memory ε × Word) :=
 if added=[] then some (m,w)
 else (w.load m).map fun old=>m.store w new (ListArray.attachLists old added)

def copyLists (m:Memory ε) : (ls copies:List ℕ) → Memory ε
 | l::ls,c::copies=>copyLists (m.newList c (m.list l)) ls copies
 | _,_=>m

def duplicate (w:Word) (copies:List ℕ) (new:ℕ) : Option (Memory ε × Word) :=
 (w.lists m).map fun ls =>
  match w with
  | .list _=>(m.copyLists ls copies,.list copies.head?)
  | .array _=>({ m.copyLists ls copies with
   array := update m.array new (some copies) },.array new)

def locate (p:ε → Bool) (ls:List ℕ) : Option (ℕ × ℕ) :=
 ls.findSome? fun l=>((m.list l).findIdx? p).map (l,·)

def get (r:ℕ × ℕ) : Option ε := (m.list r.1)[r.2]?

end Memory

section Reading

variable {m m':Memory ε} {w:Word}

theorem Word.contents_congr (hlists:w.lists m'=w.lists m)
 (hlist:∀ls,w.lists m=some ls → ∀l∈ls,m'.list l=m.list l) :
 w.contents m'=w.contents m := by
 rw [contents,contents,hlists]
 cases h : w.lists m with
 | none=>rfl
 | some ls=>exact congrArg some (List.flatMap_congr (hlist ls h))

variable {ls:List ℕ}

theorem Memory.locate_congr {p q:ε → Bool} (h:∀l∈ls,(m'.list l).findIdx? q=(m.list l).findIdx? p) :
 m'.locate q ls=m.locate p ls := by
 induction ls with
 | nil=>rfl
 | cons l ls ih=>grind [locate]

theorem Memory.locate_some {p:ε → Bool} {r:ℕ × ℕ} (h:m.locate p ls=some r) :
 r.1∈ls ∧ ∃e,m.get r=some e ∧ p e=true := by
 obtain ⟨l,hl,hr⟩:=List.exists_of_findSome?_eq_some h
 obtain ⟨i,hi,rfl⟩:=Option.map_eq_some_iff.mp hr
 obtain ⟨hlt,hp,-⟩:=List.findIdx?_eq_some_iff_getElem.mp hi
 exact ⟨hl,_,List.getElem?_eq_getElem hlt,hp⟩

theorem Memory.modify_list (m:Memory ε) (l i k:ℕ) (f:ε → ε) :
 (m.modify l i f).list k=if k=l then (m.list l).modify i f else m.list k :=
 update_apply ..

end Reading

structure Attached (m:Memory ε) (w:Word) (added:List ℕ) (m':Memory ε) (w':Word) : Prop where
 lists : w'.lists m'=(w.lists m).map (added ++ ·)
 list : m'.list=m.list
 used : m'.used=m.used
 kept : ∀v : Word,(v.lists m).isSome → (added≠[] → ¬w.Shares v) → v.lists m'=v.lists m
 freed : ∀v : Word,w.Shares v → added≠[] → v.lists m'=none
 unshared : ∀v : Word,(v.lists m).isSome → w'.Shares v → added=[] ∧ w.Shares v

section Attaching

variable {m m':Memory ε} {w w':Word} {added:List ℕ} {new:ℕ}

theorem Attached.nil (m:Memory ε) (w:Word) : Attached m w [] m w where
 lists := by simp
 list := rfl
 used := rfl
 kept _ _ _ := rfl
 freed _ _ hne := absurd rfl hne
 unshared _ _ h := ⟨rfl,h⟩

theorem ne_new {v:Word} (hnew:m.array new=none) (hv:(v.lists m).isSome) : v≠.array new := by
 rintro rfl
 rw [Word.lists,hnew] at hv
 cases hv

theorem Attached.array {a:ℕ} {old:List ℕ} (hnew:m.array new=none)
 (hread:m.array a=some old) (added:List ℕ) (hne:added≠[]) :
 Attached m (.array a) added
  { m with
    array := update (update m.array new (some (added++old))) a none }
  (.array new) := by
 have hna:new≠a:=by grind
 refine ⟨?_,rfl,rfl,fun v hv hsh=>?_,?_,fun v hv hsh=>?_⟩
 · grind [Word.lists]
 · cases v with
   | list l=>rfl
   | array b=>
    have hba:b≠a:=by
     rintro rfl
     exact hsh hne ⟨b,rfl,rfl⟩
    have hbn:b≠new:=by
     rintro rfl
     exact ne_new hnew hv rfl
    exact (update_of_ne hba ..).trans (update_of_ne hbn ..)
 · rintro v ⟨b,heq,rfl⟩ -
   cases heq
   exact update_self ..
 · obtain ⟨b,heq,rfl⟩:=hsh
   cases heq
   exact absurd rfl (ne_new hnew hv)

theorem Attached.ofList {old:Option ℕ} (hnew:m.array new=none) (added:List ℕ) :
 Attached m (.list old) added
  {m with array:=update m.array new (some (added++old.toList))}
  (.array new) := by
 refine ⟨?_,rfl,rfl,fun v hv _=>?_,?_,fun v hv hsh=>?_⟩
 · exact update_self ..
 · cases v with
   | list l=>rfl
   | array b=>
    have hbn:b≠new:=by
     rintro rfl
     exact ne_new hnew hv rfl
    exact update_of_ne hbn ..
 · rintro v ⟨b,heq,-⟩
   cases heq
 · obtain ⟨b,heq,rfl⟩:=hsh
   cases heq
   exact absurd rfl (ne_new hnew hv)

theorem Attached.single (m:Memory ε) (l:ℕ) : Attached m (.list none) [l] m (.list (some l)) where
 lists := rfl
 list := rfl
 used := rfl
 kept _ _ _ := rfl
 freed := by
  rintro v ⟨b,heq,-⟩
  cases heq
 unshared := by
  rintro v-⟨b,heq,-⟩
  cases heq

theorem attachLists_spec (hread:(w.lists m).isSome) (hnew:m.array new=none)
 (added:List ℕ) : ∃m' w',m.attachLists w added new=some (m',w') ∧
  Attached m w added m' w' := by
 cases added with
 | nil=>exact ⟨m,w,rfl,.nil m w⟩
 | cons l rest=>
  rw [Memory.attachLists,if_neg (List.cons_ne_nil l rest)]
  cases w with
  | array a=>
   obtain ⟨old,hold⟩:=Option.isSome_iff_exists.mp hread
   refine ⟨_,_,?_,.array hnew hold (l::rest) (List.cons_ne_nil _ _)⟩
   rw [Word.load,show m.array a=some old from hold]
   rfl
  | list old=>
   match old,rest with
   | some k,rest=>exact ⟨_,_,rfl,.ofList hnew _⟩
   | none,[]=>exact ⟨m,_,rfl,.single m l⟩
   | none,k::rest=>exact ⟨_,_,rfl,.ofList hnew _⟩

theorem Attached.contents (h:Attached m w added m' w') :
 w'.contents m'=(w.contents m).map (added.flatMap m.list ++ ·) := by
 rw [Word.contents,Word.contents,h.lists,h.list,Option.map_map,Option.map_map]
 refine congrArg (fun f=>(w.lists m).map f) (funext fun ls=>?_)
 exact List.flatMap_append

end Attaching

section Copying

variable {m:Memory ε} {w:Word} {ls copies:List ℕ} {new:ℕ}

theorem copyLists_array (m:Memory ε) (ls copies:List ℕ) :
 (m.copyLists ls copies).array=m.array := by
 induction ls generalizing m copies with
 | nil=>rfl
 | cons l ls ih=>
  cases copies with
  | nil=>rfl
  | cons c copies=>exact ih _ copies

theorem newList_used {c l:ℕ} {es:List ε} : (m.newList c es).used l=true ↔ m.used l=true ∨ l=c := by
 by_cases hl : l=c
 · subst hl
   simp [Memory.newList]
 · simp [Memory.newList,hl]

theorem newList_list {c l:ℕ} {es:List ε} (hne:l≠c) : (m.newList c es).list l=m.list l :=
 update_of_ne hne ..

theorem copyLists_spec (hused:∀l∈ls,m.used l=true) (hfree:∀c∈copies,m.used c=false)
 (hnodup:copies.Nodup) (hlen:copies.length=ls.length) :
 (∀l,m.used l=true → (m.copyLists ls copies).list l=m.list l) ∧
 (∀l,(m.copyLists ls copies).used l=true ↔ m.used l=true ∨ l∈copies) ∧
 copies.map (m.copyLists ls copies).list=ls.map m.list := by
 induction ls generalizing m copies with
 | nil=>grind [Memory.copyLists]
 | cons l ls ih=>
  cases copies with
  | nil=>cases hlen
  | cons c copies=>
   obtain ⟨hnot,hnd⟩:=List.nodup_cons.mp hnodup
   have hc:m.used c=false:=hfree c List.mem_cons_self
   have hne:∀{k},m.used k=true → k≠c:=by
    rintro k hk rfl
    rw [hk] at hc
    cases hc
   have hfree':∀d∈copies,(m.newList c (m.list l)).used d=false:=by
    intro d hd
    rw [Bool.eq_false_iff]
    intro hd'
    rcases newList_used.mp hd' with hold|rfl
    · rw [hfree d (List.mem_cons_of_mem _ hd)] at hold
      cases hold
    · exact hnot hd
   obtain ⟨hlist,hu,hcopies⟩:=ih (m:=m.newList c (m.list l))
    (fun k hk=>newList_used.mpr (.inl (hused k (List.mem_cons_of_mem _ hk)))) hfree' hnd
    (Nat.succ.inj hlen)
   refine ⟨fun k hk=>?_,fun k=>?_,?_⟩
   · rw [Memory.copyLists,hlist k (newList_used.mpr (.inl hk)),newList_list (hne hk)]
   · rw [Memory.copyLists,hu,newList_used,List.mem_cons,or_assoc]
   · rw [Memory.copyLists,List.map_cons,List.map_cons,hcopies,hlist c (newList_used.mpr (.inr rfl))]
     refine congrArg₂ List.cons (update_self ..) (List.map_congr_left fun k hk=>?_)
     exact newList_list (hne (hused k (List.mem_cons_of_mem _ hk)))

structure Copied (m:Memory ε) (w:Word) (copies:List ℕ) (m':Memory ε) (w':Word) : Prop where
 lists : w'.lists m'=some copies
 contents : w'.contents m'=w.contents m
 list : ∀l,m.used l=true → m'.list l=m.list l
 used : ∀l,m'.used l=true ↔ m.used l=true ∨ l∈copies
 kept : ∀v : Word,(v.lists m).isSome → v.lists m'=v.lists m
 unshared : ∀v : Word,(v.lists m).isSome → ¬w'.Shares v

theorem Copied.nil (m:Memory ε) : Copied m (.list none) [] m (.list none) where
 lists := rfl
 contents := rfl
 list _ _ := rfl
 used l := by simp
 kept _ _ := rfl
 unshared := by
  rintro v-⟨a,heq,-⟩
  cases heq

theorem duplicate_spec (hread:w.lists m=some ls) (hnew:m.array new=none)
 (hused:∀l∈ls,m.used l=true) (hfree:∀c∈copies,m.used c=false)
 (hnodup:copies.Nodup) (hlen:copies.length=ls.length) :
 ∃m' w',m.duplicate w copies new=some (m',w') ∧ Copied m w copies m' w' := by
 obtain ⟨hlist,hu,hcopies⟩:=copyLists_spec hused hfree hnodup hlen
 have hflat:copies.flatMap (m.copyLists ls copies).list=ls.flatMap m.list:=by
  rw [List.flatMap_def,List.flatMap_def,hcopies]
 cases w with
 | list l=>
  have hls:l.toList=ls:=Option.some.inj hread
  have hhead:copies.head?.toList=copies:=by grind [List.length_eq_one_iff]
  refine ⟨_,_,congrArg (Option.map _) hread,?_,?_,hlist,hu,fun v _=>?_,fun v _=>?_⟩
  · exact congrArg some hhead
  · rw [Word.contents,Word.contents,hread]
    exact congrArg some ((congrArg (List.flatMap _) hhead).trans hflat)
  · cases v with
    | list k=>rfl
    | array b=>exact congrFun (copyLists_array ..) b
  · rintro ⟨b,heq,-⟩
    cases heq
 | array a=>
  have hself:update m.array new (some copies) new=some copies :=
   update_self ..
  refine ⟨_,_,congrArg (Option.map _) hread,hself,?_,hlist,hu,fun v hv=>?_,fun v hv=>?_⟩
  · rw [Word.contents,Word.contents,hread]
    exact (congrArg (Option.map _) hself).trans (congrArg some hflat)
  · cases v with
    | list k=>rfl
    | array b=>
     refine update_of_ne ?_ ..
     rintro rfl
     exact ne_new hnew hv rfl
  · rintro ⟨b,heq,rfl⟩
    cases heq
    exact ne_new hnew hv rfl

end Copying

end ObjcRuntime.ListArrays
