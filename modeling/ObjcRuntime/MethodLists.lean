import ObjcRuntime.BitFields
import ObjcRuntime.KeyedSearch

/-!
`method_list_t`. The entry size and the flags share one word, and lists come in three kinds.
`search_method_list_inline` bisects a list that is marked and has the standard entry size and scans
every other list.
-/

set_option autoImplicit false
namespace ObjcRuntime.MethodLists

open KeyedSearch

abbrev Sel := Nat

structure Method where
 name : Sel
 imp : Nat
 deriving DecidableEq,Repr

inductive Kind
 | big
 | small
 | bigSigned
 deriving DecidableEq,Repr

structure MethodList where
 /-- `bigSignedMethodListFlag`, kept in the list's pointer -/
 bigSigned : Bool
 entsizeAndFlags : BitVec 32
 methods : List Method
 deriving DecidableEq,Repr

def flagMask : BitVec 32 := 0xffff0003
def smallMethodListFlag : BitVec 32 := 0x80000000
def fixedUpMethodList : BitVec 32 := 3
def uniquedMethodList : BitVec 32 := 1
def bigSize : BitVec 32 := 24
def smallSize : BitVec 32 := 12

namespace MethodList

def flags (l:MethodList) : BitVec 32 := l.entsizeAndFlags &&& flagMask

def entsize (l:MethodList) : BitVec 32 := l.entsizeAndFlags &&& ~~~flagMask

def listKind (l:MethodList) : Kind :=
 if l.bigSigned then .bigSigned
 else if l.flags &&& smallMethodListFlag≠0 then .small
 else .big

def isExpectedSize (l:MethodList) : Bool :=
 if l.listKind=.small then l.entsize=smallSize else l.entsize=bigSize

def isUniqued (l:MethodList) : Bool :=
 if l.listKind=.small then true else l.flags &&& uniquedMethodList≠0

def isFixedUp (l:MethodList) : Bool := l.flags &&& 3=fixedUpMethodList

def setFixedUp (l:MethodList) : MethodList :=
 {l with entsizeAndFlags:=l.entsizeAndFlags ||| fixedUpMethodList}

def sortBySELAddress (l:MethodList) : MethodList :=
 {l with methods:=sortByKey Method.name l.methods}

/-- `register` is `sel_registerNameNoLock` of the name a selector stands for. -/
def uniqueSelectors (register:Sel → Sel) (l:MethodList) : MethodList :=
 { l with methods := l.methods.map fun m=>{m with name:=register m.name} }

end MethodList

open MethodList

/-- `entsize_list_tt::byteSize`, whose product is an unsigned int. -/
def byteSize (entsize count:ℕ) : ℕ := 8+count*entsize%2^32

/-- `method_list_t::allocateMethodList`, with the methods its caller writes; the pointers carry the
signed flag where the platform authenticates them. -/
def allocateMethodList (ptrauth:Bool) (methods:List Method) (flags:BitVec 32) : MethodList :=
 { bigSigned := ptrauth,entsizeAndFlags := bigSize ||| flags,methods := methods }

def fixupMethodList (register:Sel → Sel) (mlist:MethodList) (sort:Bool) : MethodList :=
 let uniqued:=if mlist.isUniqued then mlist else mlist.uniqueSelectors register
 let sorted :=
  if sort ∧ uniqued.listKind≠.small ∧ uniqued.entsize=bigSize then
   uniqued.sortBySELAddress
  else uniqued
 if sorted.listKind≠.small then sorted.setFixedUp else sorted

def prepareMethodList (register:Sel → Sel) (mlist:MethodList) : MethodList :=
 if mlist.isFixedUp then mlist else fixupMethodList register mlist true

def findMethodInSortedMethodList (key:Sel) (list:MethodList) : Option Nat :=
 bisect (list.methods.map Method.name) key 0 list.methods.length

def findMethodInUnsortedMethodList (sel:Sel) (list:MethodList) : Option Nat :=
 list.methods.findIdx? (·.name=sel)

def searchMethodListInline (mlist:MethodList) (sel:Sel) : Option Nat :=
 if mlist.isFixedUp && mlist.isExpectedSize then findMethodInSortedMethodList sel mlist
 else findMethodInUnsortedMethodList sel mlist

def searchedMethod (mlist:MethodList) (sel:Sel) : Option Method :=
 (searchMethodListInline mlist sel).bind fun i=>mlist.methods[i]?

def methodListsContainsAny (mlists:List MethodList) (sels:List Sel) : Bool :=
 mlists.any fun mlist =>
  -- unlike the search, this asks for the big entry size, of small lists too
  if mlist.isFixedUp && mlist.entsize=bigSize then
   sels.any fun sel=>(findMethodInSortedMethodList sel mlist).isSome
  else sels.any fun sel=>(findMethodInUnsortedMethodList sel mlist).isSome

section Flags

variable (l:MethodList)

theorem setFixedUp_flags : l.setFixedUp.flags=l.flags ||| fixedUpMethodList := by
 rw [flags,flags,setFixedUp,BitFields.or_and_distrib_right]
 rfl

theorem setFixedUp_entsize : l.setFixedUp.entsize=l.entsize := by
 rw [entsize,entsize,setFixedUp,BitFields.or_and_distrib_right]
 exact BitVec.or_zero

theorem setFixedUp_listKind : l.setFixedUp.listKind=l.listKind := by
 have high:l.setFixedUp.flags &&& smallMethodListFlag=l.flags &&& smallMethodListFlag:=by
  rw [setFixedUp_flags,BitFields.or_and_distrib_right]
  exact BitVec.or_zero
 rw [listKind,listKind,high]
 rfl

theorem setFixedUp_isFixedUp : l.setFixedUp.isFixedUp=true := by
 have low:l.setFixedUp.flags &&& 3=fixedUpMethodList:=by
  grind [setFixedUp_flags,fixedUpMethodList]
 rw [isFixedUp,low]
 rfl

theorem setFixedUp_isExpectedSize : l.setFixedUp.isExpectedSize=l.isExpectedSize := by
 rw [isExpectedSize,isExpectedSize,setFixedUp_listKind,setFixedUp_entsize]

theorem isUniqued_of_isFixedUp (marked:l.isFixedUp=true) : l.isUniqued=true := by
 rw [isUniqued]
 split
 · rfl
 · simp only [isFixedUp,decide_eq_true_eq] at marked
   apply decide_eq_true
   intro zero
   have bit:=congrArg (fun x=>x &&& uniquedMethodList) marked
   simp only [BitVec.and_assoc] at bit
   rw [show (3 : BitVec 32) &&& uniquedMethodList=uniquedMethodList from rfl,zero] at bit
   exact absurd bit (by decide)

end Flags

/-- What an image guarantees of its lists: selectors are registered in a list that says so, and
a list that is marked as fixed up is sorted. -/
structure WellFormed (register:Sel → Sel) (l:MethodList) : Prop where
 registered : l.isUniqued → ∀m∈l.methods,register m.name=m.name
 sorted : l.isFixedUp → l.isExpectedSize → (l.methods.map Method.name).Pairwise (· ≤ ·)

def definitionOf (register:Sel → Sel) (l:MethodList) (sel:Sel) : Option Method :=
 (l.uniqueSelectors register).methods.find? (·.name=sel)

theorem findMethodInSortedMethodList_eq {l:MethodList} (sel:Sel)
 (sorted:(l.methods.map Method.name).Pairwise (· ≤ ·)) :
 findMethodInSortedMethodList sel l=findMethodInUnsortedMethodList sel l := by
 have whole:=bisect_whole sorted sel
 rwa [List.length_map,List.findIdx?_map] at whole

theorem searchMethodListInline_eq {l:MethodList} (sel:Sel)
 (sorted:l.isFixedUp → l.isExpectedSize → (l.methods.map Method.name).Pairwise (· ≤ ·)) :
 searchMethodListInline l sel=findMethodInUnsortedMethodList sel l := by
 rw [searchMethodListInline]
 grind [findMethodInSortedMethodList_eq]

theorem searchedMethod_eq_find? {l:MethodList} (sel:Sel)
 (sorted:l.isFixedUp → l.isExpectedSize → (l.methods.map Method.name).Pairwise (· ≤ ·)) :
 searchedMethod l sel=l.methods.find? (·.name=sel) := by
 rw [←getElem?_findIdx?,searchedMethod,searchMethodListInline_eq sel sorted]
 rfl

section Prepared

variable {register:Sel → Sel} {l:MethodList}

theorem uniqueSelectors_of_registered (h:∀m∈l.methods,register m.name=m.name) :
 l.uniqueSelectors register=l := by
 have same:l.methods.map (fun m=>{m with name:=register m.name})=l.methods:=by
  conv_rhs=>rw [←List.map_id l.methods]
  exact List.map_congr_left fun m hm=>by rw [h m hm]; rfl
 rw [uniqueSelectors,same]

def uniqued (register:Sel → Sel) (l:MethodList) : MethodList :=
 if l.isUniqued then l else l.uniqueSelectors register

theorem uniqued_eq (wf:WellFormed register l) : uniqued register l=l.uniqueSelectors register := by
 grind [uniqued,uniqueSelectors_of_registered,wf.registered]

theorem uniqued_listKind : (uniqued register l).listKind=l.listKind := by
 rw [uniqued]
 split <;> rfl

theorem uniqued_entsize : (uniqued register l).entsize=l.entsize := by
 rw [uniqued]
 split <;> rfl

theorem uniqued_of_small (small:l.listKind=.small) : uniqued register l=l := by
 rw [uniqued,isUniqued,if_pos small,if_pos rfl]

theorem fixupMethodList_eq : fixupMethodList register l true=if l.listKind=.small then l
  else if l.entsize=bigSize then (uniqued register l).sortBySELAddress.setFixedUp
  else (uniqued register l).setFixedUp := by
 have kind:(uniqued register l).sortBySELAddress.listKind=l.listKind:=uniqued_listKind
 simp only [fixupMethodList]
 rw [←uniqued,uniqued_listKind,uniqued_entsize]
 by_cases small : l.listKind=.small
 · simp [small,uniqued_of_small]
 · grind [uniqued_listKind]

theorem prepareMethodList_sorted (unmarked:¬ l.isFixedUp)
 (marked:(prepareMethodList register l).isFixedUp)
 (size:(prepareMethodList register l).isExpectedSize ∨
  (prepareMethodList register l).entsize=bigSize) :
 ((prepareMethodList register l).methods.map Method.name).Pairwise (· ≤ ·) := by
 rw [prepareMethodList,if_neg unmarked,fixupMethodList_eq] at marked size ⊢
 by_cases small : l.listKind=.small
 · grind
 · rw [if_neg small] at size ⊢
   by_cases big : l.entsize=bigSize
   · rw [if_pos big]
     exact sortByKey_sorted Method.name _
   · rw [if_neg big,setFixedUp_isExpectedSize,setFixedUp_entsize,isExpectedSize,
      uniqued_listKind,if_neg small,decide_eq_true_eq,or_self,uniqued_entsize] at size
     exact absurd size big

theorem prepareMethodList_find? (sel:Sel) :
 (prepareMethodList register l).methods.find? (·.name=sel) =
  (uniqued register l).methods.find? (·.name=sel) := by
 rw [prepareMethodList]
 by_cases before : l.isFixedUp
 · rw [if_pos before,uniqued,if_pos (isUniqued_of_isFixedUp l before)]
 · rw [if_neg before,fixupMethodList_eq]
   split
   next small=>rw [uniqued_of_small small]
   next=>
    split
    · exact find?_sortByKey Method.name _ sel
    · rfl

theorem prepareMethodList_searchable
 (sorted:l.isFixedUp → l.isExpectedSize → (l.methods.map Method.name).Pairwise (· ≤ ·))
 (marked:(prepareMethodList register l).isFixedUp)
 (size:(prepareMethodList register l).isExpectedSize) :
 ((prepareMethodList register l).methods.map Method.name).Pairwise (· ≤ ·) := by
 grind [prepareMethodList,prepareMethodList_sorted]

theorem searchedMethod_prepare (wf:WellFormed register l) (sel:Sel) :
 searchedMethod (prepareMethodList register l) sel=definitionOf register l sel := by
 rw [searchedMethod_eq_find? sel (prepareMethodList_searchable wf.sorted),prepareMethodList_find?,
  uniqued_eq wf,definitionOf]

theorem prepareMethodList_idem :
 prepareMethodList register (prepareMethodList register l)=prepareMethodList register l := by
 by_cases before : l.isFixedUp
 · simp [prepareMethodList,before]
 · have fixed:prepareMethodList register l=fixupMethodList register l true:=if_neg before
   rw [fixed]
   by_cases small : l.listKind=.small
   · -- a small list stays unmarked, and fixing it up changes nothing
     grind [fixupMethodList_eq]
   · grind [prepareMethodList,fixupMethodList_eq,setFixedUp_isFixedUp]

theorem isSome_findUnsorted (sel:Sel) :
 (findMethodInUnsortedMethodList sel (prepareMethodList register l)).isSome ↔
  ∃m∈(uniqued register l).methods,m.name=sel := by
 have first:=congrArg Option.isSome (@prepareMethodList_find? register l sel)
 grind [findMethodInUnsortedMethodList]

theorem containsAny_prepared {lists:List MethodList} (sels:List Sel)
 (sorted:∀l∈lists,l.isFixedUp → (l.methods.map Method.name).Pairwise (· ≤ ·)) :
 methodListsContainsAny (lists.map (prepareMethodList register)) sels ↔
  ∃l∈lists,∃sel∈sels,∃m∈(uniqued register l).methods,m.name=sel := by
 simp only [methodListsContainsAny,List.any_map,List.any_eq_true,Function.comp]
 refine exists_congr fun l=>and_congr_right fun hl=>?_
 simp only [←isSome_findUnsorted]
 split
 next both=>
  rw [Bool.and_eq_true,decide_eq_true_eq] at both
  have ordered:((prepareMethodList register l).methods.map Method.name).Pairwise (· ≤ ·):=by
   by_cases before : l.isFixedUp
   · rw [show prepareMethodList register l=l from if_pos before]
     exact sorted l hl before
   · exact prepareMethodList_sorted before both.1 (.inr both.2)
  simp only [findMethodInSortedMethodList_eq _ ordered,List.any_eq_true]
 next=>simp only [List.any_eq_true]

/-- The search of a prepared list finds nothing exactly if no entry has the selector, and else the
entry that came first; `method_lists_contains_any` answers the same question for many lists. -/
theorem search_agrees_with_scan (register:Sel → Sel) (lists:List MethodList)
 (sorted:∀l∈lists,l.isFixedUp → (l.methods.map Method.name).Pairwise (· ≤ ·)) :
 (∀l∈lists,∀sel,(searchMethodListInline (prepareMethodList register l) sel=none ↔
   ∀m∈(uniqued register l).methods,m.name≠sel) ∧
  searchedMethod (prepareMethodList register l) sel =
   (uniqued register l).methods.find? (·.name=sel)) ∧
 ∀sels,methodListsContainsAny (lists.map (prepareMethodList register)) sels ↔
  ∃l∈lists,∃sel∈sels,∃m∈(uniqued register l).methods,m.name=sel := by
 refine ⟨fun l hl sel=>?_,fun sels=>containsAny_prepared sels sorted⟩
 have searchable:(prepareMethodList register l).isFixedUp → _ :=
  prepareMethodList_searchable fun marked _=>sorted l hl marked
 refine ⟨?_,(searchedMethod_eq_find? sel searchable).trans (prepareMethodList_find? sel)⟩
 rw [searchMethodListInline_eq sel searchable,←Option.not_isSome_iff_eq_none,isSome_findUnsorted]
 simp

theorem search_repeated : let l : MethodList:=⟨false,bigSize,[⟨2,10⟩,⟨1,11⟩,⟨2,12⟩]⟩
 searchedMethod (prepareMethodList id l) 2=some ⟨2,10⟩ ∧
  methodListsContainsAny [prepareMethodList id l] [3,1]=true := by
 intro l
 have agrees:=search_agrees_with_scan id [l] (by decide)
 exact ⟨(agrees.1 l (List.mem_singleton_self l) 2).2.trans (by decide),
  (agrees.2 [3,1]).mpr ⟨l,List.mem_singleton_self l,1,by decide,⟨1,11⟩,by decide,rfl⟩⟩

end Prepared

end ObjcRuntime.MethodLists
