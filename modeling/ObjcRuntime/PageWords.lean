import ObjcRuntime.AutoreleasePage

/-!
# The words of a page

`AutoreleasePoolPage::add` on the words between `begin()` and `next`, the one at `begin()` first.
Seen as entries, it is `add`.
-/
set_option autoImplicit false
namespace ObjcRuntime.AutoreleasePage

abbrev Word := BitVec 64

def ptrField (w:Word) : BitVec 48 := w.extractLsb' 0 48

def countField (w:Word) : BitVec 16 := w.extractLsb' 48 16

def incrementCount (w:Word) : Word := (countField w+1)++ptrField w

def memmove (page:List Word) (dst src n:ℕ) : List Word :=
 page.take dst++(page.drop src).take n++page.drop (dst+n)

/-- `offsetEntry->ptr == (uintptr_t)obj && offsetEntry->count < maxCount` -/
def takesIn (w obj:Word) : Bool :=
 (ptrField w).setWidth 64 == obj && (countField w).toNat < maxCount

def findEntry (page:List Word) (obj:Word) : ℕ → ℕ → Option ℕ
 | 0,_=>none
 | n+1,offset=>
  let offsetEntry:=page.getD (page.length-1-offset) 0
  if page.length-1 ≤ offset ∨ offsetEntry=0 then none
  else if takesIn offsetEntry obj then some offset
  else findEntry page obj n (offset+1)

def bringToTop (page:List Word) (offset:ℕ) : List Word :=
 let top:=page.length-1
 let found:=page.getD (top-offset) 0
 let page:=if offset > 0 then
  (memmove page (top-offset) (top-offset+1) offset).set top found
  else page
 page.set top (incrementCount (page.getD top 0))

def foundEntry (coalescing:Coalescing) (page:List Word) (obj:Word) : Option ℕ :=
 if page≠[] ∧ obj≠0 then
  match coalescing with
  | .lru=>findEntry page obj 4 0
  | .previous=>if takesIn (page.getD (page.length-1) 0) obj then some 0 else none
  | .off=>none
 else none

def addWord (coalescing:Coalescing) (page:List Word) (obj:Word) : List Word × ℕ :=
 match foundEntry coalescing page obj with
 | some offset=>(bringToTop page offset,page.length-1)
 | none=>(page++[obj],page.length)

def decode (w:Word) : Entry := ⟨(ptrField w).toNat,(countField w).toNat⟩

def entries (page:List Word) : Page := (page.map decode).reverse

theorem decode_ptr (w:Word) : (decode w).ptr=w.toNat % 2^48 := by
 simp [decode,ptrField,BitVec.extractLsb'_toNat]

theorem decode_count (w:Word) : (decode w).count=w.toNat / 2^48 := by
 grind [w.isLt,decode,countField,Nat.shiftRight_eq_div_pow]

theorem decode_eq_boundary (w:Word) : decode w=boundary ↔ w=0 := by
 constructor
 · intro h
   have hp:=congrArg Entry.ptr h
   have hc:=congrArg Entry.count h
   rw [decode_ptr] at hp
   rw [decode_count] at hc
   simp only [boundary] at hp hc
   apply BitVec.eq_of_toNat_eq
   change w.toNat=0
   omega
 · rintro rfl
   rfl

theorem entry_ext {e e':Entry} (hptr:e.ptr=e'.ptr) (hcount:e.count=e'.count) : e=e' := by
 cases e
 simp_all

variable {obj:Word} {page:List Word}

theorem decode_obj (h:obj.toNat<2^48) : decode obj=⟨obj.toNat,0⟩ := by
 have hp:=decode_ptr obj
 have hc:=decode_count obj
 rw [Nat.mod_eq_of_lt h] at hp
 rw [Nat.div_eq_of_lt h] at hc
 exact entry_ext hp hc

theorem takesIn_iff {w:Word} :
 takesIn w obj=true ↔ (decode w).ptr=obj.toNat ∧ (decode w).count < maxCount := by
 rw [takesIn,Bool.and_eq_true,beq_iff_eq,decide_eq_true_eq]
 refine and_congr ?_ Iff.rfl
 constructor
 · rintro rfl
   simp only [decode,BitVec.toNat_setWidth]
   omega
 · intro h
   apply BitVec.eq_of_toNat_eq
   rw [←h]
   simp only [decode,BitVec.toNat_setWidth]
   omega

theorem decode_incrementCount {w:Word} (h:(decode w).count < maxCount) :
 decode (incrementCount w) = {decode w with count:=(decode w).count+1} := by
 have hbound:(countField w).toNat<65535:=h
 have hone:(1 : BitVec 16).toNat=1:=rfl
 have hptr:=(ptrField w).isLt
 have hword:(incrementCount w).toNat=(countField w+1).toNat*2^48+(ptrField w).toNat:=by
  rw [incrementCount,BitVec.toNat_append,Nat.shiftLeft_eq,Nat.mul_comm,
   ← Nat.two_pow_add_eq_or_of_lt hptr,Nat.mul_comm]
 rw [BitVec.toNat_add,hone] at hword
 have hp:(decode (incrementCount w)).ptr=(decode w).ptr:=by
  rw [decode_ptr,hword]
  change _=(ptrField w).toNat
  omega
 have hc:(decode (incrementCount w)).count=(decode w).count+1:=by
  rw [decode_count,hword]
  change _=(countField w).toNat+1
  omega
 exact entry_ext hp hc

theorem entries_length (page:List Word) : (entries page).length=page.length := by
 simp [entries]

theorem entries_concat (page:List Word) (w:Word) : entries (page++[w])=decode w::entries page := by
 simp [entries]

theorem entries_getElem? (page:List Word) (offset:ℕ) (h:offset < page.length) :
 (entries page)[offset]?=some (decode (page.getD (page.length-1-offset) 0)) := by
 grind [entries]

theorem findEntry_eq (page:List Word) (obj:Word) (n offset:ℕ) : findEntry page obj n offset =
  (lookBack obj.toNat n ((entries page).drop offset)).map (· + offset) := by
 induction n generalizing offset with
 | zero=>rfl
 | succ n ih=>
  rw [findEntry]
  by_cases hbegin : page.length-1 ≤ offset
  · -- At most the entry at `begin()` is left.
    rw [if_pos (.inl hbegin)]
    have hshort:((entries page).drop offset).length≤1:=by
     rw [List.length_drop,entries_length]
     omega
    match hdrop : (entries page).drop offset with
    | [] | [_]=>rfl
    | _::_::_=>
     rw [hdrop] at hshort
     simp at hshort
  · have hlt:offset < (entries page).length:=by
     rw [entries_length]
     omega
    have hget:=entries_getElem? page offset (by omega)
    rw [List.getElem?_eq_getElem hlt,Option.some.injEq] at hget
    obtain ⟨e',rest,hrest⟩ : ∃e' rest,(entries page).drop (offset+1)=e'::rest:=by
     apply List.exists_cons_of_ne_nil
     rw [ne_eq,List.drop_eq_nil_iff,entries_length]
     omega
    rw [List.drop_eq_getElem_cons hlt,hget,hrest,lookBack,ih,hrest]
    by_cases hzero : page.getD (page.length-1-offset) 0=0
    · rw [if_pos (.inr hzero),if_pos ((decode_eq_boundary _).mpr hzero)]
      rfl
    · rw [if_neg (by rw [not_or]; exact ⟨hbegin,hzero⟩),if_neg (mt (decode_eq_boundary _).mp hzero)]
      by_cases hfound : takesIn (page.getD (page.length-1-offset) 0) obj=true
      · rw [if_pos hfound,if_pos (takesIn_iff.mp hfound),Option.map_some,Nat.zero_add]
      · rw [if_neg hfound,if_neg fun h=>hfound (takesIn_iff.mpr h),Option.map_map]
        congr 1
        funext k
        simp only [Function.comp_apply]
        omega

theorem bringToTop_eq {offset:ℕ} (h:offset < page.length) :
 bringToTop page offset=page.eraseIdx (page.length-1-offset) ++
  [incrementCount (page.getD (page.length-1-offset) 0)] := by
 obtain ⟨m,hm⟩ : ∃m,page.length=m+offset+1:=⟨page.length-1-offset,by omega⟩
 have hfound:m < page.length:=by omega
 rw [List.eraseIdx_eq_take_drop_succ]
 simp only [bringToTop,hm,Nat.add_sub_cancel]
 by_cases hzero : offset=0
 · subst hzero
   have hnone:page.drop (m+1)=[]:=List.drop_eq_nil_of_le (by omega)
   simp only [gt_iff_lt,Nat.lt_irrefl,if_false,Nat.add_zero]
   rw [List.set_eq_take_append_cons_drop,if_pos hfound,hnone,List.append_nil]
 · rw [if_pos (by omega)]
   -- The block moved down ends where the found entry goes.
   have hmoved:memmove page m (m+1) offset =
    (page.take m++page.drop (m+1))++page.drop (m+offset) := by
    have hall:(page.drop (m+1)).length ≤ offset:=by
     rw [List.length_drop]
     omega
    rw [memmove,List.take_of_length_le hall]
   have hlen:(page.take m++page.drop (m+1)).length=m+offset:=by
    rw [List.length_append,List.length_take,List.length_drop]
    omega
   have hlast:(page.drop (m+offset)).length=1:=by
    rw [List.length_drop]
    omega
   obtain ⟨w,hw⟩:=List.length_eq_one_iff.mp hlast
   rw [hmoved,hw]
   have hset:∀x,((page.take m++page.drop (m+1))++[w]).set (m+offset) x =
    (page.take m++page.drop (m+1))++[x] := by
    intro x
    rw [List.set_append_right _ _ (by omega),hlen,Nat.sub_self]
    rfl
   rw [hset,List.getD_append_right _ _ _ _ (by omega),hlen,Nat.sub_self,
    List.set_append_right _ _ (by omega),hlen,Nat.sub_self]
   rfl

theorem entries_eraseIdx {offset:ℕ} (h:offset < page.length) :
 entries (page.eraseIdx (page.length-1-offset))=(entries page).eraseIdx offset := by
 rw [List.eraseIdx_eq_take_drop_succ,List.eraseIdx_eq_take_drop_succ,entries,entries,
  List.map_append,List.reverse_append,List.map_take,List.map_drop,List.take_reverse,
  List.drop_reverse,List.length_map]
 congr 3 <;> omega

theorem foundEntry_eq (O:Options) (page:List Word) (obj:Word) :
 foundEntry O.coalescing page obj=coalesced O (entries page) obj.toNat := by
 have hnil:obj=0 ↔ obj.toNat=0:=BitVec.toNat_inj.symm
 rw [coalesced,foundEntry.eq_def]
 by_cases hobj : obj=0
 · rw [if_neg (by simp [hobj]),if_pos (hnil.mp hobj)]
 rw [if_neg (mt hnil.mpr hobj)]
 by_cases hempty : page=[]
 · rw [if_neg (by simp [hempty]),hempty]
   cases O.coalescing <;> rfl
 rw [if_pos ⟨hempty,hobj⟩]
 cases O.coalescing with
 | lru=>
  simp only [findEntry_eq,List.drop_zero]
  exact Option.map_id'
 | previous=>
  have hget:=entries_getElem? page 0 (List.length_pos_iff.mpr hempty)
  rw [Nat.sub_zero] at hget
  simp only [List.head?_eq_getElem?,hget,Option.bind_some,takesIn_iff]
 | off=>rfl

theorem entries_addWord (O:Options) (page:List Word) (h:obj.toNat<2^48) :
 entries (addWord O.coalescing page obj).1=add O (entries page) obj.toNat := by
 rw [addWord,foundEntry_eq]
 cases hc : coalesced O (entries page) obj.toNat with
 | none=>rw [add_none hc,entries_concat,decode_obj h]
 | some k=>
  obtain ⟨-,⟨e,he,-,hcount⟩,-⟩:=coalesced_spec hc
  have hk:k < page.length:=by grind [entries_length]
  have hget:=entries_getElem? page k hk
  rw [he,Option.some.injEq] at hget
  simp only [bringToTop_eq hk]
  rw [add_some hc he,entries_concat,entries_eraseIdx hk,decode_incrementCount (hget ▸ hcount),
   ← hget]

def releases (entries:List Entry) : Multiset ℕ :=
 (entries.map fun e=>Multiset.replicate (e.count+1) e.ptr).sum

/-- The releases of each pool, the innermost first; the last is what lies below every boundary. -/
def pools : Page → List (Multiset ℕ)
 | []=>[0]
 | e::rest=>
  if e=boundary then 0::pools rest
  else (pools rest).modifyHead (Multiset.replicate (e.count+1) e.ptr + ·)

/-- What `add` is for: a boundary opens a pool, an object goes into the innermost one. -/
def addToPools (pools:List (Multiset ℕ)) (obj:ℕ) : List (Multiset ℕ) :=
 if obj=0 then 0::pools else pools.modifyHead (obj ::ₘ ·)

theorem releases_cons (e:Entry) (entries:List Entry) :
 releases (e::entries)=Multiset.replicate (e.count+1) e.ptr+releases entries := rfl

theorem count_releases (r:ℕ) (entries:List Entry) :
 (releases entries).count r=pending r entries := by
 induction entries with
 | nil=>rfl
 | cons e rest ih=>
  rw [releases_cons,pending_cons,Multiset.count_add,Multiset.count_replicate,ih]

theorem pools_append {u:List Entry} (hu:boundary∉u) (v:Page) :
 pools (u++v)=(pools v).modifyHead (releases u + ·) := by
 induction u with
 | nil=>
  have hid:(fun s:Multiset ℕ=>releases []+s)=id:=funext fun s=>zero_add s
  rw [hid,List.nil_append,List.modifyHead_id]
  rfl
 | cons e u ih=>
  rw [List.mem_cons,not_or] at hu
  rw [List.cons_append,pools,if_neg (Ne.symm hu.1),ih hu.2,List.modifyHead_modifyHead]
  congr 1
  grind [releases_cons]

theorem pools_add (O:Options) (page:Page) (obj:ℕ) :
 pools (add O page obj)=addToPools (pools page) obj := by
 by_cases hobj : obj=0
 · rw [hobj,add_boundary,pools,if_pos rfl,addToPools,if_pos rfl]
 rw [addToPools,if_neg hobj]
 have hnew:∀n,(⟨obj,n⟩ : Entry)≠boundary:=fun n h=>hobj (congrArg Entry.ptr h)
 cases hc : coalesced O page obj with
 | none=>
  rw [add_none hc,pools,if_neg (hnew 0)]
  rfl
 | some k=>
  obtain ⟨e,u,v,rfl,he,rfl,hfree,hadd⟩:=add_moved hc
  have hfree':boundary∉{e with count:=e.count+1} :: u.eraseIdx k:=by
   grind [List.eraseIdx_subset]
  have hreleases:releases ({e with count:=e.count+1} :: u.eraseIdx k)=e.ptr ::ₘ releases u := by
   ext r
   grind [count_releases,pending_cons,Multiset.count_cons,pending_eraseIdx]
  rw [hadd,pools_append hfree',pools_append hfree,List.modifyHead_modifyHead,hreleases]
  congr 1
  funext s
  exact Multiset.cons_add _ _ _

def addWords (coalescing:Coalescing) (page objs:List Word) : List Word :=
 objs.foldl (fun page obj=>(addWord coalescing page obj).1) page

theorem addWord_below (O:Options) (obj:Word) {i j:ℕ} (hj:page[j]?=some 0) (hij:i ≤ j) :
 (addWord O.coalescing page obj).1[i]?=page[i]? := by
 have hlt:=(List.getElem?_eq_some_iff.mp hj).1
 rw [addWord,foundEntry_eq]
 cases hc : coalesced O (entries page) obj.toNat with
 | none=>exact List.getElem?_append_left (by omega)
 | some k=>
  obtain ⟨-,⟨e,he,-⟩,hfree⟩:=coalesced_spec hc
  have hk:k < page.length:=by
   rw [←entries_length]
   exact (List.getElem?_eq_some_iff.mp he).1
  have hbelow:j < page.length-1-k:=by
   by_contra habove
   have hget:=entries_getElem? page (page.length-1-j) (by omega)
   rw [show page.length-1-(page.length-1-j)=j by omega,List.getD_eq_getElem?_getD,hj]
    at hget
   apply hfree
   rw [List.mem_iff_getElem?]
   exact ⟨page.length-1-j,by rw [List.getElem?_take_of_lt (by omega),hget]; rfl⟩
  simp only [bringToTop_eq hk]
  rw [List.getElem?_append_left (by rw [List.length_eraseIdx_of_lt (by omega)]; omega),
   List.getElem?_eraseIdx_of_lt (by omega)]

theorem addWords_below (O:Options) (objs:List Word) {i j:ℕ} (hj:page[j]?=some 0) (hij:i ≤ j) :
 (addWords O.coalescing page objs)[i]?=page[i]? := by
 induction objs generalizing page with
 | nil=>rfl
 | cons obj objs ih=>
  have hstep:=addWord_below O obj hj (le_refl j)
  exact (ih (hstep.trans hj)).trans (addWord_below O obj hj hij)

theorem pools_addWords (O:Options) (page:List Word) {objs:List Word}
 (fit:∀obj∈objs,obj.toNat<2^48) :
 pools (entries (addWords O.coalescing page objs)) =
  (objs.map BitVec.toNat).foldl addToPools (pools (entries page)) := by
 induction objs generalizing page with
 | nil=>rfl
 | cons obj objs ih=>
  have hfirst:=entries_addWord O page (fit obj List.mem_cons_self)
  rw [List.map_cons,List.foldl_cons,←pools_add O,←hfirst]
  exact ih _ fun x hx=>fit x (List.mem_cons_of_mem _ hx)

/-- In every mode, each pool holds the releases of what was added to it; a boundary is stored at
the slot that is returned, and the words at boundaries and below stay as they are from then on; and
no count is more than its field holds. -/
theorem coalescing_invisible (O:Options) (page objs:List Word) (fit:∀obj∈objs,obj.toNat<2^48) :
 pools (entries (addWords O.coalescing page objs)) =
  (objs.map BitVec.toNat).foldl addToPools (pools (entries page)) ∧
 (∀earlier later,objs=earlier++later → ∀i j : ℕ,
  (addWords O.coalescing page earlier)[j]?=some 0 → i ≤ j →
   (addWords O.coalescing page objs)[i]?=(addWords O.coalescing page earlier)[i]?) ∧
 (∀earlier later,objs=earlier++0::later →
  (addWord O.coalescing (addWords O.coalescing page earlier) 0).2 =
   (addWords O.coalescing page earlier).length ∧
  (addWords O.coalescing page objs)[(addWords O.coalescing page earlier).length]?=some 0) ∧
 ∀e∈entries (addWords O.coalescing page objs),e.count ≤ maxCount := by
 have hbelow:∀earlier later,objs=earlier++later → ∀i j : ℕ,
  (addWords O.coalescing page earlier)[j]?=some 0 → i ≤ j →
   (addWords O.coalescing page objs)[i]?=(addWords O.coalescing page earlier)[i]? := by
  rintro earlier later rfl i j hj hij
  rw [addWords,List.foldl_append]
  exact addWords_below O later hj hij
 refine ⟨pools_addWords O page fit,hbelow,?_,?_⟩
 · rintro earlier later rfl
   have hpushed:addWord O.coalescing (addWords O.coalescing page earlier) 0 =
    (addWords O.coalescing page earlier++[0],(addWords O.coalescing page earlier).length) := by
    rw [addWord,foundEntry.eq_def,if_neg (by simp)]
   refine ⟨by rw [hpushed],?_⟩
   have hafter:addWords O.coalescing page (earlier++[0]) =
    addWords O.coalescing page earlier++[0] := by
    rw [addWords,List.foldl_concat]
    exact congrArg Prod.fst hpushed
   have hstored:(addWords O.coalescing page (earlier++[0]))[
    (addWords O.coalescing page earlier).length]?=some 0 := by
    rw [hafter]
    simp
   rw [hbelow (earlier++[0]) later (by simp) _ _ hstored (le_refl _),hstored]
 · intro e he
   obtain ⟨w,-,rfl⟩:=List.mem_map.mp (List.mem_reverse.mp he)
   have:=(countField w).isLt
   change (countField w).toNat≤65535
   omega

def lruOptions : Options := ⟨24,by decide,.lru,false,false,true⟩

theorem coalescing_moves_to_top : addWords .lru [] [0,16,32,16]=[0,32,0x1000000000010] ∧
  pools (entries (addWords .lru [] [0,16,32,16]))=[{16,32,16},0] := by
 refine ⟨by decide,?_⟩
 have hpools:=(coalescing_invisible lruOptions [] [0,16,32,16] (by simp)).1
 exact hpools.trans (by decide)

end ObjcRuntime.AutoreleasePage
