import ObjcRuntime.ProbeTable

/-!
# The referrers of one weakly referenced object

`weak_entry_t` overlays four inline referrers with the header of a hash set, so an entry is the
four words of the union and the block that `referrers` points to. Table sizes are not truncated.
-/
set_option autoImplicit false
namespace ObjcRuntime.WeakEntry
open ProbeTable
open scoped List

abbrev Ptr := ℕ

def bswap64 (x:BitVec 64) : BitVec 64 :=
 x.extractLsb' 0 8++x.extractLsb' 8 8++x.extractLsb' 16 8++x.extractLsb' 24 8 ++
  x.extractLsb' 32 8++x.extractLsb' 40 8++x.extractLsb' 48 8++x.extractLsb' 56 8

def ptrHash (p:Ptr) : ℕ :=
 let key:=BitVec.ofNat 64 p
 let key:=key ^^^ (key >>> 4)
 let key:=key*0x8a970be7488fda55#64
 let key:=key ^^^ bswap64 key
 key.toNat % 2^32

def ptrKey (p:Ptr) : Option Ptr := if p=0 then none else some p

/-- `DisguisedPtr` stores the negated address. -/
def disguise (p:ℕ) : ℕ := (2^64-p) % 2^64

def undisguise (v:ℕ) : ℕ := (2^64-v) % 2^64

abbrev weakInlineCount : ℕ := 4

structure Entry where
 referent : Ptr
 word : Fin 4 → ℕ
 block : List Ptr

namespace Entry

def outOfLine (e:Entry) : Bool := e.word 1 % 4 == 2

def inlineReferrer (e:Entry) (i:Fin 4) : Ptr := undisguise (e.word i)

def setInline (e:Entry) (i:Fin 4) (r:Ptr) : Entry :=
 {e with word:=Function.update e.word i (disguise r)}

def numRefs (e:Entry) : ℕ := e.word 1 / 4

def refs (e:Entry) : Table Ptr := ⟨e.block,e.numRefs,e.word 2,e.word 3⟩

def setRefs (e:Entry) (referrers:Ptr) (t:Table Ptr) : Entry :=
 {e with word:=![referrers,2+4*t.num,t.mask,t.maxDisplacement],block:=t.slots}

end Entry

def newEntry (referent referrer:Ptr) : Entry := ⟨referent,![disguise referrer,0,0,0],[]⟩

def tableSize (mask:ℕ) : ℕ := if mask≠0 then mask+1 else 0

def freeInline (e:Entry) : Option (Fin 4) :=
 (List.finRange weakInlineCount).find? fun i=>e.inlineReferrer i == 0

/-- The out-of-line entry that `append_referrer` builds from a full inline one. It is not a
    valid hash set; `grow_refs_and_insert` rehashes it. -/
def moveOutOfLine (addr:Ptr) (e:Entry) : Entry :=
 e.setRefs addr ⟨List.ofFn e.inlineReferrer,weakInlineCount,weakInlineCount-1,0⟩

def insertReferrer (e:Entry) (r:Ptr) : Option Entry :=
 (insert ptrKey ptrHash e.refs r r).map (e.setRefs (e.word 0))

def reinsert (append:Entry → Ptr → Option Entry) : List Ptr → ℕ → Entry → Option Entry
 | [],_,e=>some e
 | old::rest,numRefs,e=>
  if numRefs=0 then some e
  else if old≠0 then (append e old).bind (reinsert append rest (numRefs-1))
  else reinsert append rest numRefs e

def growRefsAndInsert (append:Entry → Ptr → Option Entry) (addr:Ptr) (e:Entry) (r:Ptr) :
 Option Entry :=
 let oldSize:=tableSize (e.word 2)
 let newSize:=if oldSize≠0 then oldSize*2 else 8
 (reinsert append (e.block.take oldSize) e.numRefs (e.setRefs addr (emptyTable newSize 0))).bind
  fun e=>append e r

/-- `append_referrer`, with the address that `calloc` returns. It and
    `grow_refs_and_insert` call each other; two levels are enough. -/
def appendReferrer (addr:Ptr) : ℕ → Entry → Ptr → Option Entry
 | 0,_,_=>none
 | fuel+1,e,r=>
  match if e.outOfLine then none else freeInline e with
  | some i=>some (e.setInline i r)
  | none=>
   let e:=if e.outOfLine then e else moveOutOfLine addr e
   if e.numRefs ≥ tableSize (e.word 2)*3 / 4 then
    growRefsAndInsert (appendReferrer addr fuel) addr e r
   else insertReferrer e r

/-- `remove_referrer`; the flag says that it reported an unknown referrer. -/
def removeReferrer (e:Entry) (r:Ptr) : Option (Entry × Bool) :=
 if e.outOfLine then
  match find ptrKey ptrHash e.refs r with
  | .found i=>some (e.setRefs (e.word 0)
   {e.refs with slots:=e.block.set i 0,num:=e.numRefs-1},false)
  | .absent=>some (e,true)
  | .corrupt=>none
 else
  match (List.finRange weakInlineCount).find? fun i=>e.inlineReferrer i == r with
  | some i=>some (e.setInline i 0,false)
  | none=>some (e,true)

def slots (e:Entry) : List Ptr := if e.outOfLine then e.block else List.ofFn e.inlineReferrer

def stored (e:Entry) : List Ptr := (slots e).filter (· ≠ 0)

section Words
variable (e:Entry) (a:Ptr) (t:Table Ptr)

@[simp] theorem setRefs_outOfLine : (e.setRefs a t).outOfLine=true := by
 simp [Entry.setRefs,Entry.outOfLine]

@[simp] theorem setRefs_refs : (e.setRefs a t).refs=t := by
 simp only [Entry.refs,Entry.setRefs,Entry.numRefs,Matrix.cons_val]
 rw [show (2+4*t.num) / 4=t.num by omega]

@[simp] theorem setRefs_numRefs : (e.setRefs a t).numRefs=t.num := by
 simp only [Entry.setRefs,Entry.numRefs,Matrix.cons_val]
 omega

@[simp] theorem setRefs_mask : (e.setRefs a t).word 2=t.mask := rfl
@[simp] theorem setRefs_referrers : (e.setRefs a t).word 0=a := rfl
@[simp] theorem setRefs_block : (e.setRefs a t).block=t.slots := rfl
@[simp] theorem setRefs_setRefs (b:Ptr) (u:Table Ptr) :
 (e.setRefs a t).setRefs b u=e.setRefs b u := rfl

end Words

theorem ptrKey_eq_some {p k:Ptr} : ptrKey p=some k ↔ p≠0 ∧ p=k := by
 unfold ptrKey
 split_ifs with h <;> simp [h]

theorem ptrKey_zero : ptrKey 0=none := rfl

theorem ptrKey_of_ne {p:Ptr} (h:p≠0) : ptrKey p=some p := ptrKey_eq_some.mpr ⟨h,rfl⟩

theorem undisguise_disguise {p:ℕ} (h:p<2^64) : undisguise (disguise p)=p := by
 unfold undisguise disguise
 omega

/-- A pointer-aligned, non-nil address. -/
structure Aligned (p:ℕ) : Prop where
 ne : p≠0
 lt : p<2^64
 dvd : p % 8=0

def EntrySound (e:Entry) : Prop :=
 if e.outOfLine then
  e.word 0≠0 ∧ Probed ptrKey ptrHash e.refs ∧ 8 ≤ e.word 2+1 ∧ e.numRefs*4 ≤ (e.word 2+1)*3
 else ∀i,e.word i<2^64 ∧ e.word i % 8=0

theorem not_outOfLine_of_dvd {e:Entry} (h:e.word 1 % 8=0) : e.outOfLine=false := by
 simp only [Entry.outOfLine,beq_eq_false_iff_ne]
 omega

theorem entrySound_inline {e:Entry} (h:∀i,e.word i<2^64 ∧ e.word i % 8=0) : EntrySound e := by
 rw [EntrySound,not_outOfLine_of_dvd (h 1).2]
 exact h

theorem entrySound_setRefs (e:Entry) {a:Ptr} {t:Table Ptr} (ha:a≠0)
 (ht:Probed ptrKey ptrHash t) (hsize:8 ≤ t.mask+1)
 (hload:t.num*4 ≤ (t.mask+1)*3) : EntrySound (e.setRefs a t) := by
 rw [EntrySound,setRefs_outOfLine]
 exact ⟨ha,by rwa [setRefs_refs],hsize,by rwa [setRefs_numRefs]⟩

theorem mem_stored {e:Entry} {x:Ptr} : x∈stored e ↔ x∈slots e ∧ x≠0 := by
 simp [stored]

theorem used_ptrKey (l:List Ptr) : used ptrKey l=l.filter (· ≠ 0) := by
 rw [used]
 congr 1
 funext p
 grind [ptrKey]

theorem stored_eq_used (e:Entry) : stored e=used ptrKey (slots e) := (used_ptrKey _).symm

theorem stored_setRefs (e:Entry) (a:Ptr) (t:Table Ptr) :
 stored (e.setRefs a t)=used ptrKey t.slots := by
 rw [stored_eq_used,slots,setRefs_outOfLine]
 rfl

theorem getElem?_inline (e:Entry) (i:Fin 4) :
 (List.ofFn e.inlineReferrer)[(i:ℕ)]?=some (e.inlineReferrer i) := by
 rw [List.getElem?_ofFn,dif_pos i.2]

theorem disguise_word {p:ℕ} (h:p<2^64) (hd:p % 8=0) : disguise p<2^64 ∧ disguise p % 8=0 := by
 unfold disguise
 omega

theorem newEntry_sound (referent:Ptr) {referrer:Ptr} (h:Aligned referrer) :
 EntrySound (newEntry referent referrer) ∧ stored (newEntry referent referrer)=[referrer] := by
 have hd:=disguise_word h.lt h.dvd
 have hzero:undisguise 0=0:=rfl
 have hwords:∀i,(newEntry referent referrer).word i<2^64 ∧
  (newEntry referent referrer).word i % 8=0 := by
  intro i
  fin_cases i
  · exact hd
  all_goals exact ⟨Nat.two_pow_pos 64,rfl⟩
 refine ⟨entrySound_inline hwords,?_⟩
 rw [stored,slots,not_outOfLine_of_dvd (hwords 1).2]
 simp [List.ofFn_succ,newEntry,Entry.inlineReferrer,undisguise_disguise h.lt,hzero,h.ne]

theorem setRefs_refs_self {e:Entry} (h:e.outOfLine=true) : e.setRefs (e.word 0) e.refs=e := by
 obtain ⟨r,w,b⟩:=e
 simp only [Entry.outOfLine,beq_iff_eq] at h
 simp only [Entry.setRefs,Entry.refs,Entry.numRefs,Entry.mk.injEq,true_and,and_true]
 funext i
 fin_cases i
 · rfl
 · simp only [Fin.mk_one,Matrix.cons_val]
   omega
 · rfl
 · rfl

theorem append_roomy (addr:Ptr) (fuel:ℕ) (e:Entry) (a:Ptr) (t:Table Ptr) (r:Ptr)
 (h:t.num < tableSize t.mask*3 / 4) :
 appendReferrer addr (fuel+1) (e.setRefs a t) r =
  (insert ptrKey ptrHash t r r).map (e.setRefs a) := by
 have hload:¬ t.num ≥ tableSize t.mask*3 / 4:=by omega
 rw [appendReferrer]
 simp only [setRefs_outOfLine,↓reduceIte,setRefs_numRefs,setRefs_mask,hload,insertReferrer,
  setRefs_refs,setRefs_referrers]
 cases insert ptrKey ptrHash t r r <;> rfl

theorem reinsert_eq (addr:Ptr) (fuel:ℕ) (e:Entry) (a:Ptr) (l:List Ptr) (n:ℕ)
 (t:Table Ptr) (hn:n=(used ptrKey l).length)
 (hroom:t.num+n ≤ tableSize t.mask*3 / 4) :
 reinsert (appendReferrer addr (fuel+1)) l n (e.setRefs a t) =
  (insertAll ptrKey ptrHash l t).map (e.setRefs a) := by
 induction l generalizing n t with
 | nil=>rfl
 | cons old rest ih=>
  unfold reinsert
  by_cases hz : n=0
  · rw [if_pos hz,insertAll_none (List.length_eq_zero_iff.mp (hn.symm.trans hz))]
    rfl
  · rw [if_neg hz]
    by_cases hold : old=0
    · have hk:ptrKey old=none:=by rw [hold]; rfl
      rw [used_skip hk] at hn
      rw [if_neg (by simp [hold]),insertAll,hk]
      exact ih n t hn hroom
    · have hk:=ptrKey_of_ne hold
      rw [used_cons hk,List.length_cons] at hn
      rw [if_pos hold,insertAll,hk,append_roomy addr fuel e a t old (by omega)]
      cases hins : insert ptrKey ptrHash t old old with
      | none=>simp [hins]
      | some t'=>
       obtain ⟨hmask,hnum⟩:=insert_some hins
       simp only [hins,Option.map_some,Option.bind_some]
       exact ih (n-1) t' (by omega) (by rw [hmask,hnum]; omega)

theorem grow_spec {addr:Ptr} (fuel:ℕ) {e:Entry} {a r:Ptr} {t:Table Ptr} (n:ℕ)
 (haddr:addr≠0) (hr:r≠0) (hn:2 ≤ n) (hmask:t.mask+1=2^n)
 (hlen:t.slots.length=2^n) (hnum:t.num=(used ptrKey t.slots).length) :
 ∃e',growRefsAndInsert (appendReferrer addr (fuel+1)) addr (e.setRefs a t) r=some e' ∧
  EntrySound e' ∧ e'.referent=e.referent ∧ e'.outOfLine=true ∧
  stored e' ~ r::used ptrKey t.slots := by
 have hpow:4≤2^n:=by
  calc 4=2^2 := rfl
   _≤2^n := Nat.pow_le_pow_right (by omega) hn
 have hdouble:2^n*2=2^(n+1):=(pow_succ 2 n).symm
 have hsize:tableSize t.mask=2^n:=by
  rw [tableSize,if_pos (by omega),hmask]
 have hle:t.num≤2^n:=by grind [used]
 have hnewSize:tableSize (emptyTable (2^(n+1)) (0 : Ptr)).mask=2^(n+1):=by
  grind [emptyTable,tableSize]
 obtain ⟨hempty,hnothing⟩:=emptyTable_spec ptrKey ptrHash ptrKey_zero (n+1) (by omega)
 obtain ⟨t₁,hrun,ht₁,hmask₁,hnum₁,hkeys₁⟩ :=
  hempty.toProbed.insertAll_spec t.slots (by simp only [emptyTable]; omega)
 rw [hnothing,List.append_nil] at hkeys₁
 have hmask₁':t₁.mask+1=2^(n+1):=by
  rw [hmask₁]
  simp only [emptyTable]
  omega
 have hnum₁':t₁.num=t.num:=by
  rw [hnum₁,hnum]
  simp [emptyTable]
 have hsize₁:tableSize t₁.mask=2^(n+1):=by rw [hmask₁,hnewSize]
 obtain ⟨t₂,hins,ht₂,hmask₂,hnum₂,hused₂⟩ :=
  ht₁.insert_spec (ptrKey_of_ne hr) (by omega)
 refine ⟨e.setRefs addr t₂,?_,entrySound_setRefs e haddr ht₂ (by omega) (by omega),rfl,
  setRefs_outOfLine ..,?_⟩
 · have hre:=reinsert_eq addr fuel e addr t.slots t.num (emptyTable (2^(n+1)) 0) hnum
    (by rw [hnewSize]; simp only [emptyTable]; omega)
   rw [growRefsAndInsert]
   simp only [setRefs_mask,setRefs_block,setRefs_numRefs,setRefs_setRefs,hsize,
    if_pos (show 2^n≠0 by omega),hdouble]
   rw [List.take_of_length_le (by omega),hre,hrun,Option.map_some,Option.bind_some,
    append_roomy addr fuel e addr t₁ r (by omega),hins]
   rfl
 · rw [stored_setRefs]
   exact hused₂.trans (hkeys₁.cons r)

theorem freeInline_some {e:Entry} {i:Fin 4} (h:freeInline e=some i) : e.inlineReferrer i=0 := by
 have:=List.find?_some h
 simpa using this

theorem freeInline_none {e:Entry} (h:freeInline e=none) (i:Fin 4) :
 e.inlineReferrer i≠0 := by grind [freeInline]

theorem setInline_word (e:Entry) (i j:Fin 4) (r:Ptr) :
 (e.setInline i r).word j=if j=i then disguise r else e.word j :=
 Function.update_apply _ _ _ _

theorem inlineReferrer_setInline (e:Entry) (i j:Fin 4) {r:ℕ} (hr:r<2^64) :
 (e.setInline i r).inlineReferrer j=if j=i then r else e.inlineReferrer j := by
 rw [Entry.inlineReferrer,setInline_word]
 split_ifs
 · exact undisguise_disguise hr
 · rfl

theorem slots_inline {e:Entry} (h:e.outOfLine=false) : slots e=List.ofFn e.inlineReferrer := by
 rw [slots,h]
 rfl

theorem mem_slots_inline {e:Entry} (h:e.outOfLine=false) {x:Ptr} :
 x∈slots e ↔ ∃i,e.inlineReferrer i=x := by
 rw [slots_inline h]
 exact List.mem_ofFn

theorem sound_words {e:Entry} (he:EntrySound e) (ho:e.outOfLine=false) (i:Fin 4) :
 e.word i<2^64 ∧ e.word i % 8=0 := by
 rw [EntrySound,ho] at he
 exact he i

theorem setInline_spec {e:Entry} (he:EntrySound e) (ho:e.outOfLine=false) (i:Fin 4)
 {r:ℕ} (hlt:r<2^64) (hdvd:r % 8=0) :
 EntrySound (e.setInline i r) ∧ (e.setInline i r).outOfLine=false ∧
  slots (e.setInline i r)=(slots e).set i r := by
 have hwords:∀j,(e.setInline i r).word j<2^64 ∧ (e.setInline i r).word j % 8=0:=by
  intro j
  rw [setInline_word]
  split_ifs
  · exact disguise_word hlt hdvd
  · exact sound_words he ho j
 have ho':=not_outOfLine_of_dvd (hwords 1).2
 refine ⟨entrySound_inline hwords,ho',?_⟩
 rw [slots_inline ho',slots_inline ho]
 apply List.ext_getElem
 · simp
 · intro j hj _
   rw [List.getElem_ofFn,List.getElem_set,inlineReferrer_setInline e i _ hlt,List.getElem_ofFn]
   simp only [Fin.ext_iff,eq_comm]

theorem append_sound {e:Entry} (he:EntrySound e) {addr r:Ptr} (haddr:addr≠0) (hr:Aligned r) :
 ∃e',appendReferrer addr 2 e r=some e' ∧ EntrySound e' ∧ e'.referent=e.referent ∧
  e'.outOfLine=(e.outOfLine || decide (4 ≤ (stored e).length)) ∧
  stored e' ~ r::stored e := by
 cases ho : e.outOfLine with
 | false=>
  have hlen:(slots e).length=4:=by rw [slots_inline ho,List.length_ofFn]
  cases hf : freeInline e with
  | some i=>
   have hempty:keyAt ptrKey (slots e) i=none:=by
    rw [keyAt,slots_inline ho,getElem?_inline,freeInline_some hf]
    rfl
   obtain ⟨hsound,hin,hslots⟩:=setInline_spec he ho i hr.lt hr.dvd
   have hkeys:=used_fill (i.2.trans_eq hlen.symm) hempty (ptrKey_of_ne hr.ne)
   rw [←hslots,←stored_eq_used,←stored_eq_used] at hkeys
   have hshort:¬4 ≤ (stored e).length:=by
    have:=hkeys.length_eq
    grind [stored]
   refine ⟨e.setInline i r,by simp [appendReferrer,ho,hf],hsound,rfl,?_,hkeys⟩
   rw [hin,decide_eq_false hshort]
   rfl
  | none=>
   -- All four inline slots are taken: they become the block that is rehashed.
   have hfull:=freeInline_none hf
   have hall:used ptrKey (List.ofFn e.inlineReferrer)=List.ofFn e.inlineReferrer:=by
    grind [used_ptrKey,List.filter_eq_self]
   have hstored:stored e=List.ofFn e.inlineReferrer:=by
    rw [stored_eq_used,slots_inline ho,hall]
   obtain ⟨e',hgrow,hsound,href,hout,hkeys⟩:=grow_spec 0 (e:=e) (a:=addr) (r:=r)
    (t:=⟨List.ofFn e.inlineReferrer,weakInlineCount,weakInlineCount-1,0⟩) 2 haddr hr.ne
    le_rfl rfl (by simp) (by simp only; rw [hall]; simp [weakInlineCount])
   refine ⟨e',?_,hsound,href,?_,?_⟩
   · rw [appendReferrer]
     simp only [ho,Bool.false_eq_true,↓reduceIte,hf]
     rw [if_pos]
     · exact hgrow
     · rw [moveOutOfLine,setRefs_numRefs,setRefs_mask]
       exact (by decide:weakInlineCount ≥ tableSize (weakInlineCount-1)*3 / 4)
   · rw [hout,hstored,List.length_ofFn]
     rfl
   · rw [hstored]
     rwa [hall] at hkeys
 | true=>
  obtain ⟨hptr,hwf,hsize,hload⟩:=(by rw [EntrySound,ho] at he; exact he :
   e.word 0≠0 ∧ Probed ptrKey ptrHash e.refs ∧ 8 ≤ e.word 2+1 ∧ e.numRefs*4 ≤ (e.word 2+1)*3)
  have hstored:stored e=used ptrKey e.refs.slots:=by
   rw [stored_eq_used,slots,ho]
   rfl
  obtain ⟨n,hn⟩:=hwf.pow
  change e.word 2+1=2^n at hn
  have hpow:3 ≤ n:=by
   by_contra hlt
   have : 2^n≤2^2:=Nat.pow_le_pow_right (by omega) (by omega)
   omega
  have hts:tableSize (e.word 2)=e.word 2+1:=if_pos (by omega)
  by_cases hfull : e.numRefs ≥ tableSize (e.word 2)*3 / 4
  · obtain ⟨e',hgrow,hsound,href,hout,hkeys⟩:=grow_spec 0 (e:=e) (a:=e.word 0)
     (r:=r) (t:=e.refs) n haddr hr.ne (by omega) hn (hwf.size.trans hn)
     hwf.length_used.symm
    rw [setRefs_refs_self ho] at hgrow
    refine ⟨e',?_,hsound,href,by rw [hout]; rfl,by rwa [hstored]⟩
    rw [appendReferrer]
    simp only [ho,↓reduceIte]
    rw [if_pos hfull]
    exact hgrow
  · have hmask:e.refs.mask=e.word 2:=rfl
    have hnumRefs:e.refs.num=e.numRefs:=rfl
    obtain ⟨t',hins,hwf',hm,hnum,hused⟩ :=
     hwf.insert_spec (ptrKey_of_ne hr.ne) (by rw [hmask,hnumRefs]; omega)
    refine ⟨e.setRefs (e.word 0) t',?_,entrySound_setRefs e hptr hwf' (by omega) (by omega),rfl,
     by rw [setRefs_outOfLine]; rfl,?_⟩
    · grind [appendReferrer,insertReferrer]
    · rwa [stored_setRefs,hstored]

theorem stored_perm_erase {e e':Entry} {r:Ptr} (h:stored e ~ r::stored e') :
 stored e' ~ (stored e).erase r := by grind

theorem remove_sound {e:Entry} (he:EntrySound e) {r:Ptr} (hr:r≠0) :
 ∃e' unknown,removeReferrer e r=some (e',unknown) ∧ EntrySound e' ∧
  e'.referent=e.referent ∧ e'.outOfLine=e.outOfLine ∧
  stored e' ~ (stored e).erase r := by
 cases ho : e.outOfLine with
 | false=>
  cases hf : (List.finRange weakInlineCount).find? fun i=>e.inlineReferrer i == r with
  | none=>
   refine ⟨e,true,by simp [removeReferrer,ho,hf],he,rfl,ho,?_⟩
   rw [List.erase_of_not_mem]
   intro h
   obtain ⟨i,hi⟩:=(mem_slots_inline ho).mp (mem_stored.mp h).1
   rw [List.find?_eq_none] at hf
   exact absurd hi (by simpa using hf i (List.mem_finRange i))
  | some i=>
   have hi:e.inlineReferrer i=r:=by simpa using List.find?_some hf
   have hlen:(slots e).length=4:=by rw [slots_inline ho,List.length_ofFn]
   obtain ⟨hsound,hin,hslots⟩:=setInline_spec he ho i (r:=0) (by omega) rfl
   refine ⟨e.setInline i 0,false,by simp [removeReferrer,ho,hf],hsound,rfl,hin,?_⟩
   apply stored_perm_erase
   have hget:(slots e)[(i:ℕ)]?=some r:=by rw [slots_inline ho,getElem?_inline,hi]
   rw [stored_eq_used,stored_eq_used,hslots]
   exact used_clear hget (ptrKey_of_ne hr) ptrKey_zero
 | true=>
  obtain ⟨hptr,hwf,hsize,hload⟩:=(by rw [EntrySound,ho] at he; exact he :
   e.word 0≠0 ∧ Probed ptrKey ptrHash e.refs ∧ 8 ≤ e.word 2+1 ∧ e.numRefs*4 ≤ (e.word 2+1)*3)
  have hslots:slots e=e.refs.slots:=by rw [slots,ho]; rfl
  rcases hwf.find_spec r with ⟨i,s,hfind,hi,hk⟩|⟨hfind,hnone⟩
  · obtain ⟨-,rfl⟩:=ptrKey_eq_some.mp hk
    obtain ⟨hwf',hkeys,hpos⟩:=hwf.erase_spec hi hk ptrKey_zero
    refine ⟨_,false,by simp only [removeReferrer,ho,↓reduceIte,hfind]; rfl,
     entrySound_setRefs e hptr hwf' hsize ?_,rfl,setRefs_outOfLine ..,?_⟩
    · change (e.numRefs-1)*4 ≤ (e.word 2+1)*3
      omega
    · grind [stored_setRefs,stored_eq_used]
  · refine ⟨e,true,by simp only [removeReferrer,ho,↓reduceIte,hfind],he,rfl,ho,?_⟩
    rw [List.erase_of_not_mem]
    intro h
    have hx:=mem_stored.mp h
    rw [hslots] at hx
    exact hnone r ⟨hx.1,ptrKey_of_ne hx.2⟩

end ObjcRuntime.WeakEntry
