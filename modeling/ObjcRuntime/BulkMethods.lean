import ObjcRuntime.MethodLists
import ObjcRuntime.PartialRuns

/-!
`class_addMethodsBulk` and `class_replaceMethodsBulk` stage the methods that are new to the class
in one list that is attached at the end, where a later element of the arrays does not find them.
-/

set_option autoImplicit false
namespace ObjcRuntime.BulkMethods

open MethodLists KeyedSearch PartialRuns

abbrev Lists := List MethodList

def getMethodNoSuper (lists:Lists) (sel:Sel) : Option Method :=
 lists.findSome? fun l=>searchedMethod l sel

/-- 0 is the nil IMP. -/
def lookUpImp (lists:Lists) (sel:Sel) : Option ℕ := (getMethodNoSuper lists sel).map (·.imp)

def setImp (i imp:ℕ) (l:MethodList) : MethodList :=
 { l with methods := l.methods.modify i fun m=>{m with imp:=imp} }

def methodSetImplementation (sel:Sel) (imp:ℕ) : Lists → Lists
 | []=>[]
 | l::rest=>
  if imp=0 then l::rest
  else
   match searchMethodListInline l sel with
   | some i=>setImp i imp l::rest
   | none=>l::methodSetImplementation sel imp rest

section Functions

variable (ptrauth:Bool) (register:Sel → Sel)

def addMethodsFinish (newlist:MethodList) (lists:Lists) : Lists :=
 prepareMethodList register
  (if 1 < newlist.methods.length then newlist.sortBySELAddress else newlist)::lists

def addMethod (replace:Bool) (x:Method) (lists:Lists) : Lists × ℕ :=
 match getMethodNoSuper lists x.name with
 | some m=>
  if replace then
   (methodSetImplementation x.name x.imp lists,if x.imp=0 then 0 else m.imp)
  else (lists,m.imp)
 | none=>
  (addMethodsFinish register (allocateMethodList ptrauth [x] fixedUpMethodList) lists,0)

/-- The loop's state; `newlist` and `failedNames` are in blocks for `count` methods. -/
structure Bulk where
 count : ℕ
 lists : Lists
 newlist : List Method
 failedNames : List Sel

/-- `none` is a write behind one of the blocks. -/
def Bulk.step (replace:Bool) (x:Method) (b:Bulk) : Option Bulk :=
 match getMethodNoSuper b.lists x.name with
 | some m=>
  if replace then some {b with lists:=methodSetImplementation x.name x.imp b.lists}
  else if b.failedNames.length < (b.count+1)%2^32 then
   some {b with failedNames:=b.failedNames++[m.name]}
  else none
 | none=>
  if byteSize 24 b.newlist.length+24≤byteSize 24 b.count then
   some {b with newlist:=b.newlist++[x]}
  else none

def addMethods (replace:Bool) (methods:List Method) (lists:Lists) : Option (Lists × List Sel) :=
 (run (Bulk.step replace) methods ⟨methods.length,lists,[],[]⟩).map fun b =>
  (if 0 < b.newlist.length then
   addMethodsFinish register (allocateMethodList ptrauth b.newlist fixedUpMethodList) b.lists
   else b.lists,b.failedNames)

/-- `class_addMethod` or `class_replaceMethod` for each, and the selectors for which the first says
no, which is when an IMP is returned. -/
def oneByOne (replace:Bool) : List Method → Lists → Lists × List Sel
 | [],lists=>(lists,[])
 | x::rest,lists=>
  let added:=addMethod ptrauth register replace x lists
  let r:=oneByOne replace rest added.1
  (r.1,if added.2=0 then r.2 else x.name::r.2)

end Functions

/-- Lists that are bisected are sorted. -/
def Searchable (lists:Lists) : Prop :=
 ∀l∈lists,l.isFixedUp → l.isExpectedSize → (l.methods.map Method.name).Pairwise (· ≤ ·)

def imps (sel:Sel) (methods:List Method) : List ℕ :=
 (methods.filter (·.name=sel)).map (·.imp)

def put (replace:Bool) (old:Option ℕ) (imp:ℕ) : Option ℕ :=
 if replace=true ∧ imp≠0 then some imp else old.or (some imp)

section Lookup

variable {l:MethodList} {lists:Lists} {sel n:Sel}

theorem imps_cons (x:Method) (rest:List Method) :
 imps n (x::rest)=if x.name=n then x.imp::imps n rest else imps n rest := by grind [imps]

theorem head?_imps (methods:List Method) :
 (imps n methods).head?=(methods.find? (·.name=n)).map (·.imp) := by
 rw [imps,List.head?_map,List.head?_filter]

theorem Searchable.tail (searchable:Searchable (l::lists)) : Searchable lists :=
 fun l hl=>searchable l (List.mem_cons_of_mem _ hl)

theorem lookUpImp_cons (searchable:Searchable (l::lists)) :
 lookUpImp (l::lists) n=(imps n l.methods).head?.or (lookUpImp lists n) := by
 rw [lookUpImp,getMethodNoSuper,List.findSome?_cons,
  searchedMethod_eq_find? n (searchable l List.mem_cons_self),head?_imps]
 cases l.methods.find? (·.name=n) <;> rfl

theorem name_of_found {m:Method} (searchable:Searchable lists)
 (found:getMethodNoSuper lists n=some m) : m.name=n := by
 obtain ⟨l,hl,here⟩:=List.exists_of_findSome?_eq_some found
 rw [searchedMethod_eq_find? n (searchable l hl)] at here
 grind

theorem setImp_names (i imp:ℕ) (l:MethodList) :
 (setImp i imp l).methods.map Method.name=l.methods.map Method.name := by
 apply List.ext_getElem?
 grind [setImp]

theorem head?_imps_setImp {i imp:ℕ} (found:l.methods.findIdx? (·.name=sel)=some i) :
 (imps n (setImp i imp l).methods).head? =
  if n=sel then some imp else (imps n l.methods).head? := by
 have index (xs:List Method) : xs.findIdx? (·.name=n) =
  (xs.map Method.name).findIdx? (· = n) := by rw [List.findIdx?_map]; rfl
 obtain ⟨hi,here,-⟩:=List.findIdx?_eq_some_iff_getElem.mp found
 rw [head?_imps,head?_imps,←getElem?_findIdx?,←getElem?_findIdx?,index,setImp_names,←index,setImp]
 split
 next same=>
  rw [same,found]
  simp [hi]
 next other=>
  cases h : l.methods.findIdx? (·.name=n) with
  | none=>rfl
  | some j=>
   obtain ⟨hj,there,-⟩:=List.findIdx?_eq_some_iff_getElem.mp h
   have apart:i≠j:=by
    rintro rfl
    exact other ((of_decide_eq_true there).symm.trans (of_decide_eq_true here))
   simp [List.getElem?_modify,apart]

theorem methodSetImplementation_spec (imp:ℕ) (searchable:Searchable lists)
 (present:(lookUpImp lists sel).isSome) :
 Searchable (methodSetImplementation sel imp lists) ∧
  ∀n,lookUpImp (methodSetImplementation sel imp lists) n =
   if n=sel then put true (lookUpImp lists n) imp else lookUpImp lists n := by
 induction lists with
 | nil=>cases present
 | cons l lists ih=>
  rw [methodSetImplementation]
  by_cases nil : imp=0
  · grind [Option.isSome_iff_exists,put]
  · have sorted:=searchable l List.mem_cons_self
    have replaced (o:Option ℕ) : put true o imp=some imp:=if_pos ⟨rfl,nil⟩
    simp only [if_neg nil,replaced] at ih ⊢
    rw [searchMethodListInline_eq sel sorted]
    cases h : findMethodInUnsortedMethodList sel l with
    | some i=>
     have kept:Searchable (setImp i imp l::lists):=List.forall_mem_cons.mpr
      ⟨fun marked size=>setImp_names i imp l ▸ sorted marked size,searchable.tail⟩
     refine ⟨kept,fun n=>?_⟩
     rw [lookUpImp_cons kept,lookUpImp_cons searchable,head?_imps_setImp h]
     split <;> rfl
    | none=>
     have missing:(imps sel l.methods).head?=none:=by
      rw [findMethodInUnsortedMethodList] at h
      rw [head?_imps,←getElem?_findIdx?,h]
      rfl
     rw [lookUpImp_cons searchable,missing,Option.none_or] at present
     obtain ⟨kept,values⟩:=ih searchable.tail present
     have kept':Searchable (l::_):=List.forall_mem_cons.mpr ⟨sorted,kept⟩
     refine ⟨kept',fun n=>?_⟩
     rw [lookUpImp_cons kept',lookUpImp_cons searchable,values]
     split
     next same=>rw [same,missing]; rfl
     next=>rfl

theorem addMethodsFinish_spec (ptrauth:Bool) (register:Sel → Sel) (newlist:List Method)
 (searchable:Searchable lists) :
 let lists':=addMethodsFinish register (allocateMethodList ptrauth newlist fixedUpMethodList)
  lists
 Searchable lists' ∧
  ∀n,lookUpImp lists' n=(imps n newlist).head?.or (lookUpImp lists n) := by
 let fresh:=allocateMethodList ptrauth newlist fixedUpMethodList
 let sorted:=if 1 < newlist.length then fresh.sortBySELAddress else fresh
 have both:sorted.isFixedUp=true ∧ (sorted.methods.map Method.name).Pairwise (· ≤ ·) ∧
  ∀n,(imps n sorted.methods).head?=(imps n newlist).head? := by
  have marked:fresh.isFixedUp=true:=decide_eq_true (show
   (bigSize ||| fixedUpMethodList) &&& flagMask &&& 3=fixedUpMethodList by decide)
  by_cases many : 1 < newlist.length
  · rw [show sorted=fresh.sortBySELAddress from if_pos many]
    refine ⟨marked,sortByKey_sorted Method.name newlist,fun n=>?_⟩
    rw [head?_imps,head?_imps]
    exact congrArg _ (find?_sortByKey Method.name newlist n)
  · rw [show sorted=fresh from if_neg many]
    refine ⟨marked,List.pairwise_iff_getElem.mpr fun i j hi hj hij=>?_,fun _=>rfl⟩
    rw [List.length_map] at hj
    exact absurd (show j < newlist.length from hj) (by omega)
 have kept:Searchable (sorted::lists) :=
  List.forall_mem_cons.mpr ⟨fun _ _=>both.2.1,searchable⟩
 intro lists'
 rw [show lists'=sorted::lists from congrArg (· :: lists) (if_pos both.1)]
 exact ⟨kept,fun n=>by rw [lookUpImp_cons kept,both.2.2]⟩

end Lookup

section Folds

variable (ptrauth:Bool) (register:Sel → Sel) (replace:Bool) {lists:Lists} {n:Sel}

theorem addMethod_spec (x:Method) (searchable:Searchable lists) :
 let r:=addMethod ptrauth register replace x lists
 Searchable r.1 ∧ (∀n,lookUpImp r.1 n =
   if n=x.name then put replace (lookUpImp lists n) x.imp else lookUpImp lists n) ∧
  (replace=false → r.2=(lookUpImp lists x.name).getD 0) := by
 rw [addMethod]
 cases h : getMethodNoSuper lists x.name with
 | some m=>
  have own:lookUpImp lists x.name=some m.imp:=by rw [lookUpImp,h]; rfl
  cases replace with
  | false=>
   refine ⟨searchable,fun n=>(?_ : lookUpImp lists n=_),fun _=>by rw [own]; rfl⟩
   split
   next same=>rw [same,own]; rfl
   next=>rfl
  | true=>
   obtain ⟨kept,values⟩:=methodSetImplementation_spec x.imp searchable
    (Option.isSome_iff_exists.mpr ⟨_,own⟩)
   exact ⟨kept,values,nofun⟩
 | none=>
  have own:lookUpImp lists x.name=none:=by rw [lookUpImp,h]; rfl
  obtain ⟨kept,values⟩:=addMethodsFinish_spec ptrauth register [x] searchable
  refine ⟨kept,fun n=>(values n).trans ?_,fun _=>by rw [own]; rfl⟩
  rw [imps_cons]
  split
  next same=>rw [if_pos same.symm,←same,own,put,Option.none_or,ite_self]; rfl
  next other=>rw [if_neg (Ne.symm other)]; rfl

theorem lookUpImp_oneByOne (methods:List Method) (searchable:Searchable lists) :
 lookUpImp (oneByOne ptrauth register replace methods lists).1 n =
  (imps n methods).foldl (put replace) (lookUpImp lists n) := by
 induction methods generalizing lists with
 | nil=>rfl
 | cons x rest ih=>
  obtain ⟨kept,values,-⟩:=addMethod_spec ptrauth register replace x searchable
  refine (ih kept).trans ?_
  grind [imps_cons]

theorem isSome_put (old:Option ℕ) (imp:ℕ) : (put replace old imp).isSome := by
 rw [put]
 split <;> simp

theorem step_present {x m:Method} {b:Bulk} (h:getMethodNoSuper b.lists x.name=some m)
 (searchable:Searchable b.lists) (room:b.failedNames.length < (b.count+1)%2^32) :
 Bulk.step replace x b=some ⟨b.count,(addMethod false id replace x b.lists).1,b.newlist,
  if replace then b.failedNames else b.failedNames++[x.name]⟩ := by
 rw [Bulk.step,addMethod,h]
 cases replace with
 | true=>rfl
 | false =>
  rw [←name_of_found searchable h]
  exact if_pos room

theorem step_absent {x:Method} {b:Bulk} (h:getMethodNoSuper b.lists x.name=none)
 (small:24*b.count < 2^32) (room:b.newlist.length < b.count) :
 Bulk.step replace x b=some {b with newlist:=b.newlist++[x]} := by
 rw [Bulk.step,h]
 refine if_pos ?_
 rw [byteSize,byteSize,Nat.mod_eq_of_lt (by omega),Nat.mod_eq_of_lt (by omega)]
 omega

theorem run_step (methods:List Method) (b:Bulk) (searchable:Searchable b.lists)
 (small:24*b.count < 2^32)
 (room:b.newlist.length+b.failedNames.length+methods.length≤b.count) :
 ∃b',run (Bulk.step replace) methods b=some b' ∧ Searchable b'.lists ∧
  (∀n,lookUpImp b'.lists n=if (lookUpImp b.lists n).isSome then
   (imps n methods).foldl (put replace) (lookUpImp b.lists n) else none) ∧
  b'.newlist=b.newlist++methods.filter (fun x=>(lookUpImp b.lists x.name).isNone) ∧
  (replace=false → b'.failedNames=b.failedNames ++
   (methods.filter fun x=>(lookUpImp b.lists x.name).isSome).map (·.name)) := by
 induction methods generalizing b with
 | nil=>
  refine ⟨b,rfl,searchable,fun n=>?_,(List.append_nil _).symm,fun _=>(List.append_nil _).symm⟩
  cases lookUpImp b.lists n <;> simp [imps]
 | cons x rest ih=>
  obtain ⟨kept,values,-⟩:=addMethod_spec false id replace x searchable
  rw [List.length_cons] at room
  cases h : getMethodNoSuper b.lists x.name with
  | some m=>
   have own:(lookUpImp b.lists x.name).isSome:=by rw [lookUpImp,h]; rfl
   have present (n:Sel) : (lookUpImp (addMethod false id replace x b.lists).1 n).isSome =
    (lookUpImp b.lists n).isSome := by
    rw [values]
    split
    next same=>rw [same,own,isSome_put]
    next=>rfl
   have step:=step_present replace h searchable (by omega)
   obtain ⟨b',run,kept',values',new,failed⟩:=ih ⟨b.count,(addMethod false id replace x b.lists).1,
    b.newlist,if replace then b.failedNames else b.failedNames++[x.name]⟩ kept small (by
     cases replace <;> simp <;> omega)
   refine ⟨b',run_cons step run,kept',fun n=>(values' n).trans ?_,new.trans ?_,
    fun no=>(failed no).trans ?_⟩
   · simp only [present]
     rw [values,imps_cons]
     by_cases same : n=x.name
     · rw [if_pos same,if_pos same.symm]
       rfl
     · rw [if_neg same,if_neg (Ne.symm same)]
   · simp [←Option.not_isSome,present,own]
   · simp only [present]
     simp [own,no]
  | none=>
   have own:lookUpImp b.lists x.name=none:=by rw [lookUpImp,h]; rfl
   have step:=step_absent replace h small (by omega)
   obtain ⟨b',run,kept,values,new,failed⟩:=ih {b with newlist:=b.newlist++[x]} searchable small (by
    simp only [List.length_append,List.length_singleton]
    omega)
   refine ⟨b',run_cons step run,kept,fun n=>(values n).trans ?_,new.trans (by simp [own]),
    fun no=>(failed no).trans (by simp [own])⟩
   rw [imps_cons]
   split
   next some=>
    rw [if_neg]
    grind
   next=>rfl

theorem imps_staged (own:Sel → Option ℕ) (methods:List Method) :
 imps n (methods.filter fun x=>(own x.name).isNone) =
  if (own n).isSome then [] else imps n methods := by
 induction methods with
 | nil=>simp [imps]
 | cons x rest ih=>
  rw [List.filter_cons,imps_cons]
  by_cases same : x.name=n
  · subst same
    cases h : own x.name <;> simp [h,imps_cons,ih] at ih ⊢
  · cases own x.name <;> simp [imps_cons,same,ih]

theorem addMethods_spec (methods:List Method) (searchable:Searchable lists)
 (small:24*methods.length < 2^32) :
 ∃r,addMethods ptrauth register replace methods lists=some r ∧
  (∀n,lookUpImp r.1 n=if (lookUpImp lists n).isSome then
   (imps n methods).foldl (put replace) (lookUpImp lists n) else (imps n methods).head?) ∧
  (replace=false → r.2=(methods.filter fun x=>(lookUpImp lists x.name).isSome).map (·.name)) := by
 obtain ⟨b,ran,kept,values,new,failed⟩:=run_step replace methods ⟨methods.length,lists,[],[]⟩
  searchable small (by simp)
 refine ⟨_,by rw [addMethods,ran,Option.map_some],fun n=>?_,failed⟩
 have attached:lookUpImp (if 0 < b.newlist.length then
   addMethodsFinish register (allocateMethodList ptrauth b.newlist fixedUpMethodList) b.lists
   else b.lists) n=(imps n b.newlist).head?.or (lookUpImp b.lists n) := by
  split
  · exact (addMethodsFinish_spec ptrauth register _ kept).2 n
  next none=>
   rw [List.eq_nil_of_length_eq_zero (Nat.eq_zero_of_not_pos none)]
   rfl
 rw [attached,new,values,List.nil_append,imps_staged]
 cases lookUpImp lists n <;> simp

theorem foldl_put_true (o:Option ℕ) (is:List ℕ) :
 is.foldl (put true) o=((is.filter (· ≠ 0)).getLast?.or o).or is.head? := by
 induction is generalizing o with
 | nil=>simp
 | cons i is ih=>
  rw [List.foldl_cons,ih,put]
  by_cases nil : i=0
  · simp [nil]
  · simp [nil,List.getLast?_cons]

theorem oneByOne_failed_cons (x:Method) (rest:List Method) (searchable:Searchable lists) :
 (oneByOne ptrauth register false (x::rest) lists).2 =
  (if (lookUpImp lists x.name).getD 0=0 then [] else [x.name]) ++
   (oneByOne ptrauth register false rest (addMethod ptrauth register false x lists).1).2 := by
 grind [oneByOne,addMethod_spec]

theorem count_failed (methods:List Method) (searchable:Searchable lists) :
 (oneByOne ptrauth register false methods lists).2.count n=match lookUpImp lists n with
  | some v=>if v=0 then 0 else (imps n methods).length
  | none=>if (imps n methods).head?=some 0 then 0 else (imps n methods).length-1 := by
 induction methods generalizing lists with
 | nil=>cases lookUpImp lists n <;> simp [oneByOne,imps]
 | cons x rest ih=>
  obtain ⟨kept,values,-⟩:=addMethod_spec ptrauth register false x searchable
  rw [oneByOne_failed_cons ptrauth register x rest searchable,List.count_append,ih kept,values,
   imps_cons]
  by_cases same : x.name=n
  · subst same
    cases h : lookUpImp lists x.name with
    | none=>simp [put]
    | some v=>by_cases zero : v=0 <;> simp [put,zero,Nat.add_comm]
  · have other:(if (lookUpImp lists x.name).getD 0=0 then [] else [x.name]).count n=0:=by
     split <;> simp [same]
    rw [other,if_neg same,if_neg (Ne.symm same),Nat.zero_add]

theorem count_present (own:Sel → Option ℕ) (methods:List Method) :
 ((methods.filter fun x=>(own x.name).isSome).map (·.name)).count n =
   if (own n).isSome then (imps n methods).length else 0 := by
 induction methods with
 | nil=>simp [imps]
 | cons x rest ih=>grind [imps_cons]

theorem imps_pos {x:Method} {methods:List Method} (hx:x∈methods) :
 0 < (imps x.name methods).length :=
 List.length_pos_of_mem (List.mem_map_of_mem (List.mem_filter.mpr ⟨hx,decide_eq_true rfl⟩))

theorem oneByOne_failed (own:Sel → Option ℕ) (methods:List Method) (searchable:Searchable lists)
 (agree:∀x∈methods,((own x.name).isSome ↔ (lookUpImp lists x.name).getD 0≠0) ∧
  (lookUpImp lists x.name=none →
   (imps x.name methods).length≤1 ∨ (imps x.name methods).head?=some 0)) :
 (oneByOne ptrauth register false methods lists).2 =
  (methods.filter fun x=>(own x.name).isSome).map (·.name) := by
 induction methods generalizing lists with
 | nil=>rfl
 | cons x rest ih=>
  obtain ⟨kept,values,-⟩:=addMethod_spec ptrauth register false x searchable
  have here:=(agree x List.mem_cons_self).1
  have later:=ih kept fun y hy=>by
   obtain ⟨there,once⟩:=agree y (List.mem_cons_of_mem _ hy)
   rw [values]
   rw [imps_cons] at once
   by_cases same : x.name=y.name
   · rw [if_pos same] at once
     rw [if_pos same.symm]
     cases h : lookUpImp lists y.name with
     | some v=>
      rw [h] at there
      exact ⟨there,nofun⟩
     | none=>
      have more:=imps_pos hy
      have nil:x.imp=0:=by
       rcases once h with few|first
       · rw [List.length_cons] at few
         omega
       · exact Option.some.inj first
      rw [h] at there
      rw [nil]
      exact ⟨there,nofun⟩
   · rw [if_neg (Ne.symm same)]
     rw [if_neg same] at once
     exact ⟨there,once⟩
  rw [oneByOne_failed_cons ptrauth register x rest searchable,later,List.filter_cons]
  by_cases zero : (lookUpImp lists x.name).getD 0=0
  · rw [if_pos zero,if_neg fun some=>here.mp some zero]
    rfl
  · rw [if_neg zero,if_pos (here.mpr zero)]
    rfl

/-- Fewer methods than fill 4 GiB are added. Lookups are then those of adding one by one; the
failures are, exactly if no method of the class is nil and no selector it lacks is given twice with
an effect; and lookups after replacing are, exactly if of a selector the class lacks the last IMP
that is not nil is the first given. -/
theorem bulk_is_fold_iff (methods:List Method) (searchable:Searchable lists)
 (small:24*methods.length < 2^32) :
 ∃added replaced,addMethods ptrauth register false methods lists=some added ∧
 addMethods ptrauth register true methods lists=some replaced ∧
 (∀sel,lookUpImp added.1 sel=lookUpImp (oneByOne ptrauth register false methods lists).1 sel) ∧
 (added.2=(oneByOne ptrauth register false methods lists).2 ↔
  ∀x∈methods,lookUpImp lists x.name≠some 0 ∧ (lookUpImp lists x.name=none →
   (imps x.name methods).length≤1 ∨ (imps x.name methods).head?=some 0)) ∧
 ((∀sel,lookUpImp replaced.1 sel =
   lookUpImp (oneByOne ptrauth register true methods lists).1 sel) ↔
  ∀sel,lookUpImp lists sel=none → ∀imp∈((imps sel methods).filter (· ≠ 0)).getLast?,
   (imps sel methods).head?=some imp) := by
 obtain ⟨added,ranAdd,afterAdd,failed⟩ :=
  addMethods_spec ptrauth register false methods searchable small
 obtain ⟨replaced,ranReplace,afterReplace,-⟩ :=
  addMethods_spec ptrauth register true methods searchable small
 refine ⟨added,replaced,ranAdd,ranReplace,fun sel=>?_,⟨fun same x hx=>?_,fun agree=>?_⟩,
  forall_congr' fun sel=>?_⟩
 · rw [afterAdd,lookUpImp_oneByOne ptrauth register false methods searchable]
   have first (v:ℕ) (is:List ℕ) : is.foldl (put false) (some v)=some v:=by
    induction is with
    | nil=>rfl
    | cons i is ih=>exact ih
   cases lookUpImp lists sel with
   | some v=>rfl
   | none=>cases imps sel methods <;> simp [first,put]
 · have given:=imps_pos hx
   have counts:=congrArg (List.count x.name) same
   rw [failed rfl,count_present,count_failed ptrauth register methods searchable] at counts
   grind
 · rw [failed rfl]
   refine (oneByOne_failed ptrauth register _ methods searchable fun x hx=>?_).symm
   obtain ⟨present,once⟩:=agree x hx
   refine ⟨?_,once⟩
   cases h : lookUpImp lists x.name with
   | none=>simp
   | some v=>simpa [h] using present
 · rw [afterReplace,lookUpImp_oneByOne ptrauth register true methods searchable]
   cases lookUpImp lists sel with
   | none=>
    rw [foldl_put_true]
    cases ((imps sel methods).filter (· ≠ 0)).getLast? <;> simp
   | some v=>simp

theorem bulk_differs : let twice : List Method:=[⟨7,1⟩,⟨7,2⟩]
 ∃added replaced,addMethods false id false twice []=some added ∧
  addMethods false id true twice []=some replaced ∧
  added.2=[] ∧ (oneByOne false id false twice []).2.count 7=1 ∧
  lookUpImp replaced.1 7=some 1 ∧ lookUpImp (oneByOne false id true twice []).1 7=some 2 := by
 intro twice
 have searchable:Searchable []:=nofun
 obtain ⟨added,ranAdd,-,failed⟩:=addMethods_spec false id false twice searchable (by decide)
 obtain ⟨replaced,ranReplace,after,-⟩:=addMethods_spec false id true twice searchable (by decide)
 exact ⟨added,replaced,ranAdd,ranReplace,failed rfl,
  (count_failed false id _ searchable).trans (by decide),(after 7).trans (by decide),
  (lookUpImp_oneByOne false id true _ searchable).trans (by decide)⟩

theorem bulk_agrees : let two : List Method:=[⟨7,1⟩,⟨5,2⟩]
 let lists : Lists:=[⟨false,bigSize,[⟨5,3⟩]⟩]
 ∃added replaced,addMethods false id false two lists=some added ∧
  addMethods false id true two lists=some replaced ∧
  added.2=(oneByOne false id false two lists).2 ∧
  ∀sel,lookUpImp replaced.1 sel=lookUpImp (oneByOne false id true two lists).1 sel := by
 intro two lists
 have searchable:Searchable lists:=fun l hl=>by
  rw [List.mem_singleton.mp hl]
  decide
 obtain ⟨added,replaced,ranAdd,ranReplace,-,failures,lookups⟩ :=
  bulk_is_fold_iff false id two searchable (by decide)
 refine ⟨added,replaced,ranAdd,ranReplace,failures.mpr (by decide),lookups.mpr fun sel _ imp hi=>?_⟩
 -- neither selector is given twice
 by_cases seven : 7=sel
 · subst seven
   simpa [imps,two] using hi
 · by_cases five : 5=sel
   · subst five
     simpa [imps,two] using hi
   · simp [imps,two,seven,five] at hi

end Folds

end ObjcRuntime.BulkMethods
