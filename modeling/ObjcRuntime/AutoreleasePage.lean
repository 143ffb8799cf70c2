import Mathlib

/-!
# Autorelease pool pages

A page is the list of its entries, the one below `next` first. Objects and pool boundaries are
words; nil is the boundary.
-/
set_option autoImplicit false
namespace ObjcRuntime.AutoreleasePage

/-- `AutoreleasePoolEntry`: an object and how often it was autoreleased beyond the first time. -/
structure Entry where
 ptr : ℕ
 count : ℕ
 deriving DecidableEq

def boundary : Entry := ⟨0,0⟩

def maxCount : ℕ := 65535

inductive Coalescing where
 | lru | previous | off
 deriving DecidableEq

structure Options where
 /-- `end() - begin()` -/
 capacity : ℕ
 two_le_capacity : 2 ≤ capacity
 coalescing : Coalescing
 debugPoolAllocation : Bool
 debugMissingPools : Bool
 /-- `HAS_RETURNADDR_AUTORELEASE_ELISION` -/
 elision : Bool

abbrev Page := List Entry

/-- The LRU search: how far below the top the entry is. The entry at `begin()` is left out. -/
def lookBack (obj:ℕ) : ℕ → Page → Option ℕ
 | 0,_=>none
 | _+1,[]=>none
 | _+1,[_]=>none
 | n+1,e::e'::rest=>
  if e=boundary then none
  else if e.ptr=obj ∧ e.count < maxCount then some 0
  else (lookBack obj n (e'::rest)).map (· + 1)

def coalesced (O:Options) (page:Page) (obj:ℕ) : Option ℕ :=
 if obj=0 then none
 else
  match O.coalescing with
  | .lru=>lookBack obj 4 page
  | .previous=>page.head?.bind fun e=>if e.ptr=obj ∧ e.count < maxCount then some 0 else none
  | .off=>none

def add (O:Options) (page:Page) (obj:ℕ) : Page :=
 match (coalesced O page obj).bind fun k=>page[k]?.map fun e=>(k,e) with
 | some (k,e)=>{e with count:=e.count+1} :: page.eraseIdx k
 | none=>⟨obj,0⟩::page

/-- `hotPage_` and the pages linked to it: the hot page, its ancestors with the parent first,
    and its descendants with the child first. -/
inductive HotPage where
 | nil
 | placeholder
 | page (hot:Page) (parents children:List Page)
 deriving DecidableEq

/-- A pool token: the placeholder, or a slot of the page at some depth. -/
inductive Token where
 | placeholder
 | slot (depth index:ℕ)
 deriving DecidableEq

def nextPage (O:Options) : Page → List Page → List Page → HotPage
 | hot,parents,[]=>.page [] (hot::parents) []
 | hot,parents,child::children=>
  if child.length=O.capacity then nextPage O child (hot::parents) children
  else .page child (hot::parents) children

def addHot (O:Options) (obj:ℕ) : HotPage → HotPage × Token
 | .page hot parents children=>
  (.page (add O hot obj) parents children,.slot parents.length hot.length)
 | h=>(h,.placeholder)

def autoreleaseFullPage (O:Options) (obj:ℕ) (hot:Page) (parents children:List Page) :
 HotPage × Token :=
 addHot O obj (nextPage O hot parents children)

/-- The token is that of a boundary; for an object it is not used. -/
def autoreleaseNoPage (O:Options) (obj:ℕ) (placeholder:Bool) : HotPage × Token :=
 if placeholder then addHot O obj (.page (add O [] 0) [] [])
 -- just leaking
 else if obj≠0 ∧ O.debugMissingPools=true then (.nil,.placeholder)
 else if obj=0 ∧ O.debugPoolAllocation=false then (.placeholder,.placeholder)
 else addHot O obj (.page [] [] [])

def autoreleaseFast (O:Options) (obj:ℕ) : HotPage → HotPage × Token
 | .page hot parents children=>
  if hot.length=O.capacity then autoreleaseFullPage O obj hot parents children
  else addHot O obj (.page hot parents children)
 | .placeholder=>autoreleaseNoPage O obj true
 | .nil=>autoreleaseNoPage O obj false

def autoreleaseNewPage (O:Options) (obj:ℕ) : HotPage → HotPage × Token
 | .page hot parents children=>autoreleaseFullPage O obj hot parents children
 | .placeholder=>autoreleaseNoPage O obj true
 | .nil=>autoreleaseNoPage O obj false

def pushBoundary (O:Options) (h:HotPage) : HotPage × Token :=
 if O.debugPoolAllocation then autoreleaseNewPage O 0 h else autoreleaseFast O 0 h

def HotPage.pageAt : HotPage → ℕ → Option Page
 | .page hot parents children,depth=>(parents.reverse++hot::children)[depth]?
 | _,_=>none

/-- `while (page->empty())` of `releaseUntil`, then `--page->next`. There is no entry when
    the loop walks past the cold page. -/
def takeEntry : Page → List Page → List Page → Option (Entry × HotPage)
 | e::hot,parents,children=>some (e,.page hot parents children)
 | [],parent::parents,children=>takeEntry parent parents ([]::children)
 | [],[],_=>none

def HotPage.take : HotPage → Option (Entry × HotPage)
 | .page hot parents children=>takeEntry hot parents children
 | _=>none

def HotPage.setHot : HotPage → ℕ → HotPage
 | .page hot parents children,depth=>
  let pages:=parents.reverse++hot::children
  match pages.drop depth with
  | p::rest=>.page p (pages.take depth).reverse rest
  | []=>.page hot parents children
 | h,_=>h

/-- What `popPage` does after `releaseUntil`: delete empty pages. -/
def popPage (O:Options) : HotPage → HotPage
 | .page hot parents children=>
  if O.debugPoolAllocation=true ∧ hot=[] then
   match parents with
   | parent::parents=>.page parent parents []
   | []=>.nil
  else if O.debugMissingPools=true ∧ hot=[] ∧ parents=[] then .nil
  else if hot.length < O.capacity / 2 then .page hot parents []
  else .page hot parents (children.take 1)
 | h=>h

def HotPage.entryAt (h:HotPage) (depth index:ℕ) : Option Entry :=
 (h.pageAt depth).bind fun page=>page.reverse[index]?

inductive Pop where
 | unused | badPop
 | releaseUntil (depth stop:ℕ)
 deriving DecidableEq

def HotPage.pop (h:HotPage) : Token → Pop
 -- pop back to the start of the first page, if it was ever allocated
 | .placeholder=>if h.pageAt 0=none then .unused else .releaseUntil 0 0
 | .slot depth index=>
  if h.entryAt depth index=some boundary ∨ depth=0 ∧ index=0 then .releaseUntil depth index
  else .badPop

theorem HotPage.pop_eq_unused {h:HotPage} {t:Token} :
 h.pop t=.unused ↔ t=.placeholder ∧ h.pageAt 0=none := by
 cases t <;> grind [HotPage.pop]

theorem HotPage.pop_eq_releaseUntil {h:HotPage} {t:Token} {depth stop:ℕ}
 (opens:h.pop t=.releaseUntil depth stop) :
 t=.slot depth stop ∨ t=.placeholder ∧ depth=0 ∧ stop=0 ∧ h.pageAt 0≠none := by
 cases t <;> grind [HotPage.pop]

theorem HotPage.entryAt_of_badPop {h:HotPage} {t:Token} (bad:h.pop t=.badPop) :
 ∃depth index,t=.slot depth index ∧ h.entryAt depth index≠some boundary := by
 cases t <;> grind [HotPage.pop]

inductive Accepting where
 | retainAutoreleasedReturnValue | claimAutoreleasedReturnValue
 | unsafeClaimAutoreleasedReturnValue
 deriving DecidableEq

def Accepting.expectsNOP : Accepting → Bool
 | .claimAutoreleasedReturnValue=>false
 | _=>true

/-- The test of `acceptOptimizedReturn` on the distance of the two return addresses. -/
def Accepting.fits (a:Accepting) (distance:ℕ) (callerAccepts:Bool) : Bool :=
 distance == (if a.expectsNOP then 8 else 4) || (a.expectsNOP && callerAccepts)

/-- The pages from the hot one to the coldest. The placeholder stands for a page with one
    boundary. -/
def HotPage.pages : HotPage → List Page
 | .nil=>[]
 | .placeholder=>[[boundary]]
 | .page hot parents _=>hot::parents

def HotPage.children : HotPage → List Page
 | .page _ _ children=>children
 | _=>[]

def pending (obj:ℕ) (entries:List Entry) : ℕ :=
 (entries.map fun e=>if e.ptr=obj then e.count+1 else 0).sum

theorem pending_cons (r:ℕ) (e:Entry) (entries:List Entry) :
 pending r (e::entries)=(if e.ptr=r then e.count+1 else 0)+pending r entries := rfl

theorem pending_append (r:ℕ) (a b:List Entry) : pending r (a++b)=pending r a+pending r b := by
 simp [pending]

variable {obj:ℕ} {page:Page} {O:Options}

theorem lookBack_spec {n k:ℕ} (h:lookBack obj n page=some k) :
 (∃e,page[k]?=some e ∧ e.ptr=obj ∧ e.count < maxCount) ∧
  boundary∉page.take (k+1) := by
 induction n generalizing page k with
 | zero=>cases h
 | succ n ih=>
  match page,h with
  | [],h=>cases h
  | [_],h=>cases h
  | e::e'::rest,h=>grind [lookBack,Option.map_eq_some_iff]

theorem coalesced_spec {k:ℕ} (h:coalesced O page obj=some k) :
 obj≠0 ∧ (∃e,page[k]?=some e ∧ e.ptr=obj ∧ e.count < maxCount) ∧
  boundary∉page.take (k+1) := by
 rw [coalesced] at h
 split_ifs at h with hobj
 refine ⟨hobj,?_⟩
 cases hc : O.coalescing with
 | lru=>
  rw [hc] at h
  exact lookBack_spec h
 | previous=>
  rw [hc] at h
  match page,h with
  | e::rest,h=>grind [boundary]
 | off=>
  rw [hc] at h
  cases h

theorem add_none (h:coalesced O page obj=none) : add O page obj=⟨obj,0⟩::page := by
 rw [add,h]
 rfl

theorem add_some {k:ℕ} {e:Entry} (h:coalesced O page obj=some k) (he:page[k]?=some e) :
 add O page obj = {e with count:=e.count+1} :: page.eraseIdx k := by
 rw [add,h]
 simp [he]

theorem add_boundary (O:Options) (page:Page) : add O page 0=boundary::page :=
 add_none (if_pos rfl)

theorem pending_eraseIdx {r k:ℕ} {e:Entry} (h:page[k]?=some e) :
 pending r page=(if e.ptr=r then e.count+1 else 0)+pending r (page.eraseIdx k) := by
 induction page generalizing k with
 | nil=>cases h
 | cons x rest ih=>
  cases k with
  | zero=>
   obtain rfl:=Option.some.inj h
   rfl
  | succ k=>grind [pending_cons]

theorem pending_add (O:Options) (page:Page) (obj r:ℕ) :
 pending r (add O page obj)=pending r page+if r=obj then 1 else 0 := by
 cases h : coalesced O page obj with
 | none=>grind [add_none,pending_cons]
 | some k=>
  obtain ⟨-,⟨e,he,hptr,-⟩,-⟩:=coalesced_spec h
  rw [add_some h he,pending_cons,pending_eraseIdx he]
  grind

theorem add_split (above rest:Page) (h:∀k,coalesced O (above++rest) obj=some k → k < above.length) :
 ∃above',add O (above++rest) obj=above'++rest ∧ above.length ≤ above'.length ∧
  above'≠[] ∧ above'.length ≤ above.length+1 := by
 cases hc : coalesced O (above++rest) obj with
 | none=>exact ⟨⟨obj,0⟩::above,add_none hc,by simp,by simp,by simp⟩
 | some k=>
  obtain ⟨-,⟨e,he,-⟩,-⟩:=coalesced_spec hc
  have hk:=h k hc
  refine ⟨{e with count:=e.count+1} :: above.eraseIdx k,?_,?_,by simp,?_⟩
  · rw [add_some hc he,List.eraseIdx_append_of_lt_length hk]
    rfl
  · grind
  · grind

theorem coalesced_above_boundary {above rest:Page} {k:ℕ}
 (h:coalesced O (above++boundary::rest) obj=some k) : k < above.length := by
 obtain ⟨-,-,hfree⟩:=coalesced_spec h
 by_contra hk
 apply hfree
 rw [List.take_append,List.mem_append]
 right
 obtain ⟨j,hj⟩ : ∃j,k+1-above.length=j+1:=⟨k-above.length,by omega⟩
 rw [hj]
 exact List.mem_cons_self

def Touch (p p':Page) : Prop :=
 ∃u u' v,p=u++v ∧ p'=u'++v ∧ boundary∉u ∧ boundary∉u' ∧ u.length ≤ u'.length

theorem add_moved {k:ℕ} (hc:coalesced O page obj=some k) :
 ∃e u v,page=u++v ∧ u[k]?=some e ∧ e.ptr=obj ∧ boundary∉u ∧
  add O page obj=({e with count:=e.count+1} :: u.eraseIdx k)++v := by
 obtain ⟨-,⟨e,he,hptr,-⟩,hfree⟩:=coalesced_spec hc
 have hk:=(List.getElem?_eq_some_iff.mp he).1
 refine ⟨e,page.take (k+1),page.drop (k+1),(List.take_append_drop ..).symm,?_,hptr,hfree,?_⟩
 · rw [List.getElem?_take_of_lt (by omega),he]
 · rw [add_some hc he,List.cons_append]
   congr 1
   nth_rewrite 1 [←List.take_append_drop (k+1) page]
   refine List.eraseIdx_append_of_lt_length ?_ _
   rw [List.length_take]
   omega

theorem add_touch (O:Options) (page:Page) (hobj:obj≠0) : Touch page (add O page obj) := by
 have hnew:∀n,boundary≠⟨obj,n⟩:=by
  intro n h
  exact hobj (congrArg Entry.ptr h).symm
 cases hc : coalesced O page obj with
 | none=>exact ⟨[],[⟨obj,0⟩],page,rfl,add_none hc,by simp,by simpa using hnew 0,by simp⟩
 | some k=>
  obtain ⟨e,u,v,hpage,he,hptr,hfree,hadd⟩:=add_moved hc
  have hk:=(List.getElem?_eq_some_iff.mp he).1
  refine ⟨u,_,v,hpage,hadd,hfree,?_,?_⟩
  · rw [List.mem_cons,not_or]
    refine ⟨fun h=>hobj ?_,fun h=>hfree (List.eraseIdx_subset h)⟩
    rw [←hptr]
    exact (congrArg Entry.ptr h).symm
  · rw [List.length_cons,List.length_eraseIdx_of_lt hk]
    omega

theorem Touch.boundary {above rest p':Page} (h:Touch (above++boundary::rest) p') :
 ∃above',p'=above'++AutoreleasePage.boundary::rest := by
 obtain ⟨u,u',v,hp,rfl,hu,-,-⟩:=h
 rcases List.append_eq_append_iff.mp hp with ⟨w,rfl,hw⟩|⟨w,rfl,rfl⟩
 · cases w with
   | nil=>exact ⟨u',by rw [←List.nil_append v,←hw]⟩
   | cons x w=>grind
 · exact ⟨u'++w,by rw [List.append_assoc]⟩

theorem Touch.split {above rest p':Page} (h:Touch (above++rest) p') :
 ∃above' rest',p'=above'++rest' ∧ rest'.length=rest.length ∧ Touch rest rest' ∧
  above.length ≤ above'.length := by
 obtain ⟨u,u',v,hp,rfl,hu,hu',hlen⟩:=h
 rcases List.append_eq_append_iff.mp hp with ⟨w,rfl,rfl⟩|⟨w,rfl,rfl⟩
 · -- The touched entries reach below the slot.
   have hw:w.length ≤ u'.length:=by
    rw [List.length_append] at hlen
    omega
   refine ⟨u'.take (u'.length-w.length),u'.drop (u'.length-w.length)++v,?_,?_,?_,?_⟩
   · rw [←List.append_assoc,List.take_append_drop]
   · grind
   · refine ⟨w,_,v,rfl,rfl,fun h=>hu (List.mem_append_right _ h),
      fun h=>hu' (List.mem_of_mem_drop h),?_⟩
     rw [List.length_drop]
     omega
   · grind
 · refine ⟨u'++w,rest,(List.append_assoc ..).symm,rfl,⟨[],[],rest,rfl,rfl,by simp⟩,?_⟩
   grind

theorem add_length (O:Options) (page:Page) (obj:ℕ) :
 page.length ≤ (add O page obj).length ∧ (add O page obj).length ≤ page.length+1 := by
 have hreach:∀k,coalesced O (page++[]) obj=some k → k < page.length:=by
  intro k hk
  obtain ⟨-,⟨e,he,-⟩,-⟩:=coalesced_spec hk
  grind
 obtain ⟨a,ha,hle,-,hlt⟩:=add_split page [] hreach
 grind

end ObjcRuntime.AutoreleasePage
