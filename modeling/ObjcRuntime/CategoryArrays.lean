import Mathlib

/-!
`objc::category_list`: one category in place, or an array. The second word of the union is a
header, whose lowest bit is clear, or `is_array`, `count` and `size`. Memory that was not written
is `none`.
-/

set_option autoImplicit false
namespace ObjcRuntime.CategoryArrays

/-- `locstamped_category_t`, 16 bytes. -/
structure Located where
 cat : ℕ
 hi : ℕ
 deriving DecidableEq

def Legal (lc:Located) : Prop := lc.cat≠0 ∧ lc.hi % 2=0

/-- The first word is `cat`, or the address of `block`. -/
structure CategoryList where
 cat : ℕ
 word : ℕ
 block : List (Option Located)

namespace CategoryList

variable (l:CategoryList)

def isArray : Bool := l.word % 2=1

def arrayCount : ℕ := l.word/2 % 2^31

def size : ℕ := l.word/2^32

def header (count size:ℕ) : ℕ := 1+2*(count % 2^31)+2^32*(size % 2^32)

def count : ℕ := if l.isArray then l.arrayCount else if l.cat=0 then 0 else 1

def array : List (Option Located) :=
 (if l.isArray then l.block else [some ⟨l.cat,l.word⟩]).take l.count

def entries : List Located := l.array.reduceOption

def arrayByteSize (size:ℕ) : ℕ := 16*size % 2^32

def grown (size:ℕ) : ℕ := (size+if size < 8 then 2 else 2^(size.log2-1)) % 2^32

def reallocf (block:List (Option Located)) (bytes:ℕ) : List (Option Located) :=
 block.take (bytes/16)++List.replicate (bytes/16-block.length) none

/-- The write into the array; `none` when it is outside. -/
def put (cat count size:ℕ) (block:List (Option Located)) (lc:Located) : Option CategoryList :=
 if count < block.length then some ⟨cat,header (count+1) size,block.set count (some lc)⟩ else none

def append (lc:Located) : Option CategoryList :=
 if l.isArray then
  if l.arrayCount=l.size then
   put l.cat l.arrayCount (grown l.size) (reallocf l.block (arrayByteSize (grown l.size))) lc
  else put l.cat l.arrayCount l.size l.block lc
 else if l.cat=0 then some ⟨lc.cat,lc.hi,l.block⟩
 else
  let arr:=reallocf [] (arrayByteSize 2)
  some ⟨l.cat,header 2 2,(arr.set 0 (some ⟨l.cat,l.word⟩)).set 1 (some lc)⟩

def erase (cat:ℕ) : CategoryList :=
 if l.isArray then
  let i:=(l.block.take l.arrayCount).findIdx (·.any (·.cat=cat))
  if i < l.arrayCount then
   -- what memmove copies, from entry i+1 to entry i
   let n:=arrayByteSize (l.arrayCount-i-1)/16
   ⟨l.cat,header (l.arrayCount-1) l.size,
    l.block.take i++(l.block.drop (i+1)).take n++l.block.drop (i+n)⟩
  else l
 else if l.cat=cat then ⟨0,0,l.block⟩ else l

theorem isArray_header (c n s:ℕ) (b:List (Option Located)) :
 (⟨c,header n s,b⟩ : CategoryList).isArray=true :=
 decide_eq_true (by simp only [header]; omega)

theorem arrayCount_header {n:ℕ} (h:n < 2^31) (c s:ℕ) (b:List (Option Located)) :
 (⟨c,header n s,b⟩ : CategoryList).arrayCount=n := by
 simp only [arrayCount,header]
 omega

theorem size_header {s:ℕ} (h:s < 2^32) (c n:ℕ) (b:List (Option Located)) :
 (⟨c,header n s,b⟩ : CategoryList).size=s := by
 simp only [size,header]
 omega

end CategoryList

open CategoryList

/-- From the next size on the number of bytes does not fit. -/
def most : ℕ := 3*2^26

def sizes : List ℕ := List.iterate grown 2 53

theorem sizes_grow : ∀s∈sizes,s=most ∨ s < grown s ∧ grown s ≤ most ∧ grown s∈sizes := by
 decide +kernel

theorem sizes_le : ∀s∈sizes,s ≤ most := by decide +kernel

inductive Rep : CategoryList → List Located → Prop
 | empty {block} : Rep ⟨0,0,block⟩ []
 | inline {lc:Located} {block} (legal:Legal lc) :
   Rep ⟨lc.cat,lc.hi,block⟩ [lc]
 | array {cat} {xs:List Located} {block:List (Option Located)} (fits:xs.length ≤ block.length)
  (size:block.length∈sizes) (same:block.take xs.length=xs.map some) :
   Rep ⟨cat,header xs.length block.length,block⟩ xs

theorem not_isArray {lc:Located} (legal:Legal lc) (block:List (Option Located)) :
 (⟨lc.cat,lc.hi,block⟩ : CategoryList).isArray=false :=
 decide_eq_false (by simp [legal.2])

theorem arrayByteSize_div {n:ℕ} (h:n ≤ most) : arrayByteSize n/16=n := by
 rw [most] at h
 rw [arrayByteSize]
 omega

theorem length_reallocf (block:List (Option Located)) {n:ℕ} (h:n ≤ most) :
 (reallocf block (arrayByteSize n)).length=n := by
 rw [reallocf,arrayByteSize_div h]
 simp
 omega

section Operations

variable {l:CategoryList} {xs:List Located} {lc:Located}

structure Agrees (l:CategoryList) (xs:List Located) : Prop where
 count : l.count=xs.length
 array : l.array=xs.map some
 fits : l.isArray=true → l.arrayCount ≤ l.size ∧ l.size=l.block.length

theorem Rep.agrees (rep:Rep l xs) : Agrees l xs := by
 cases rep with
 | empty=>exact ⟨rfl,rfl,nofun⟩
 | inline legal=>
  have small:=not_isArray legal
  exact ⟨by simp [CategoryList.count,small,legal.1],
   by simp [CategoryList.array,CategoryList.count,small,legal.1],by simp [small]⟩
 | @array cat xs block fits size same=>
  have:=sizes_le _ size
  rw [most] at this
  have n:=arrayCount_header (n:=xs.length) (by omega) cat block.length block
  have count:count ⟨cat,header xs.length block.length,block⟩=xs.length:=by
   rw [CategoryList.count,isArray_header,n]
   rfl
  refine ⟨count,?_,fun _=>?_⟩
  · rw [CategoryList.array,isArray_header,count]
    exact same
  · rw [n,size_header (by omega)]
    exact ⟨fits,rfl⟩

theorem Rep.entries (rep:Rep l xs) : l.entries=xs := by
 rw [CategoryList.entries,rep.agrees.array]
 simp [List.reduceOption]

theorem put_spec {c:ℕ} {a:Located} {block:List (Option Located)} (room:xs.length < block.length)
 (size:block.length∈sizes) (same:block.take xs.length=xs.map some) :
 ∃l',put c xs.length block.length block a=some l' ∧ Rep l' (xs++[a]) := by
 refine ⟨_,by rw [put,if_pos room],?_⟩
 have taken:(block.set xs.length (some a)).take (xs.length+1)=(xs++[a]).map some:=by
  simp [List.take_add_one,List.take_set_of_le,same,room]
 have rep:=@Rep.array c (xs++[a]) (block.set xs.length (some a))
 simp only [List.length_append,List.length_set,List.length_singleton] at rep
 exact rep room size taken

theorem Rep.append (rep:Rep l xs) (legal:Legal lc) (few:xs.length < most) :
 ∃l',l.append lc=some l' ∧ Rep l' (xs++[lc]) := by
 cases rep with
 | empty=>exact ⟨_,rfl,.inline legal⟩
 | @inline first block ok=>
  refine ⟨⟨first.cat,header 2 2,[some first,some lc]⟩,?_,?_⟩
  · rw [CategoryList.append,not_isArray ok,if_neg (by simp),if_neg ok.1]
    rfl
  · exact @Rep.array _ [first,lc] [some first,some lc] (Nat.le_refl 2) (by simp [sizes]) rfl
 | @array cat xs block fits size same=>
  have le:=sizes_le _ size
  rw [most] at le
  rw [CategoryList.append,isArray_header,if_pos rfl,arrayCount_header (by omega),
   size_header (by omega)]
  split
  next full=>
   obtain eq | ⟨more,grown_le,grown_size⟩:=sizes_grow _ size
   · omega
   have length:=length_reallocf block grown_le
   have taken:(reallocf block (arrayByteSize (grown block.length))).take xs.length =
     xs.map some := by
    rwa [reallocf,arrayByteSize_div grown_le,List.take_append_of_le_length (by simp; omega),
     List.take_take,Nat.min_eq_left (by omega)]
   have put:=put_spec (c:=cat) (a:=lc) (by omega) (by rwa [length]) taken
   rwa [length] at put
  next=>exact put_spec (by omega) size same

theorem Rep.erase (rep:Rep l xs) (cat:ℕ) : Rep (l.erase cat) (xs.eraseP (·.cat=cat)) := by
 cases rep with
 | empty=>
  rw [CategoryList.erase,if_neg (by simp [isArray])]
  split <;> exact .empty
 | @inline lc block legal=>grind [CategoryList.erase, not_isArray, Rep.empty, Rep.inline]
 | @array first xs block fits size same=>
  have le:=sizes_le _ size
  rw [most] at le
  have found:(block.take xs.length).findIdx (·.any (·.cat=cat))=xs.findIdx (·.cat=cat):=by
   rw [same,List.findIdx_map]
   rfl
  rw [CategoryList.erase,isArray_header,if_pos rfl,arrayCount_header (by omega),
   size_header (by omega)]
  dsimp only
  rw [found]
  split
  next lt=>
   rw [arrayByteSize_div (by rw [most]; omega),List.eraseP_eq_eraseIdx,
    List.findIdx?_eq_some_iff_findIdx_eq.mpr ⟨lt,rfl⟩]
   generalize xs.findIdx (·.cat=cat)=i at lt
   let moved:=block.take i++(block.drop (i+1)).take (xs.length-i-1)
   have length:moved.length=xs.length-1:=by simp [moved]; omega
   have total:(moved++block.drop (i+(xs.length-i-1))).length=block.length:=by grind
   have taken:moved=(xs.eraseIdx i).map some:=by
    rw [List.eraseIdx_eq_take_drop_succ,List.map_append,List.map_take,List.map_drop,←same,
     List.take_take,List.drop_take,Nat.min_eq_left (by omega),←Nat.sub_sub]
   grind [Rep.array]
  next no=>
   rw [List.eraseP_of_forall_not (by grind [List.findIdx_lt_length])]
   exact .array fits size same

end Operations

inductive Run (may:List Located → Prop) : CategoryList → List Located → Prop
 | empty : Run may ⟨0,0,[]⟩ []
 | single {lc:Located} (legal:Legal lc) : Run may ⟨lc.cat,lc.hi,[]⟩ [lc]
 | append {l l':CategoryList} {xs lc} (run:Run may l xs) (legal:Legal lc) (allowed:may xs)
  (done:l.append lc=some l') : Run may l' (xs++[lc])
 | erase {l:CategoryList} {xs:List Located} (run:Run may l xs) (cat) :
   Run may (l.erase cat) (xs.eraseP (·.cat=cat))

def Few (xs:List Located) : Prop := xs.length < most

theorem Run.rep {l:CategoryList} {xs:List Located} (run:Run Few l xs) : Rep l xs := by
 induction run with
 | empty=>exact .empty
 | single legal=>exact .inline legal
 | append run legal few done ih=>
  obtain ⟨l',same,rep⟩:=ih.append legal few
  cases done.symm.trans same
  exact rep
 | erase run cat ih=>exact ih.erase cat

theorem list_in_order {l:CategoryList} {xs:List Located} (run:Run Few l xs) :
 Agrees l xs ∧ ∀lc,Legal lc → Few xs → l.append lc≠none := by
 refine ⟨run.rep.agrees,fun lc legal few=>?_⟩
 obtain ⟨l',done,-⟩:=run.rep.append legal few
 simp [done]

def first : Located := ⟨1,0⟩

theorem first_then_erased : ∃l,Run Few l [first] ∧ Agrees l [first] := by
 have run:Run Few _ ([first]++[⟨2,0⟩]):=.append (.single ⟨by decide,rfl⟩) ⟨by decide,rfl⟩
  (by decide:1 < most) rfl
 have run:=run.erase 2
 exact ⟨_,run,(list_in_order run).1⟩

theorem filled : ∀n ≤ most,∃l,Run Few l (List.replicate n first) := by
 intro n
 induction n with
 | zero=>exact fun _=>⟨_,.empty⟩
 | succ n ih=>
  intro le
  obtain ⟨l,run⟩:=ih (by omega)
  have few:Few (List.replicate n first):=by simpa [Few] using Nat.lt_of_succ_le le
  have legal:Legal first:=⟨by decide,rfl⟩
  obtain ⟨l',done,-⟩:=run.rep.append legal few
  exact ⟨l',List.replicate_succ' ▸ .append run legal few done⟩

/-- The bytes of the next size are counted as 0. -/
theorem write_outside : ∃l xs,Run Few l xs ∧ l.append first=none := by
 obtain ⟨l,run⟩:=filled most (Nat.le_refl _)
 refine ⟨l,_,run,?_⟩
 generalize eq : List.replicate most first=xs at run
 have length:xs.length=most:=by simp [←eq]
 cases run.rep with
 | empty | inline=>exact absurd length (by simp [most])
 | @array cat _ block fits size same=>
  have le:=sizes_le _ size
  have full:block.length=most:=by omega
  rw [append,isArray_header,if_pos rfl,arrayCount_header (by rw [length]; decide),
   size_header (by rw [full]; decide),if_pos (by omega),full]
  exact if_neg (by simp [reallocf,show arrayByteSize (grown most)=0 by decide +kernel])

end ObjcRuntime.CategoryArrays
