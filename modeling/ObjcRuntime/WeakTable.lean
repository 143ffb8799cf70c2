import ObjcRuntime.WeakEntry

/-!
# The weak table

`weak_table_t` of `objc-weak.mm`. `none` stands for `_objc_fatal`. A table whose `weak_entries` is
still nil has no slots.
-/
set_option autoImplicit false
namespace ObjcRuntime.WeakTable
open ProbeTable WeakEntry
open Function

def entryKey (e:Entry) : Option Ptr := ptrKey e.referent

def zeroEntry : Entry := ⟨0,fun _=>0,[]⟩

def emptyWeakTable : Table Entry := ⟨[],0,0,0⟩

def weakEntryInsert (t:Table Entry) (newEntry:Entry) : Option (Table Entry) :=
 insert entryKey ptrHash t newEntry newEntry.referent

def weakResize (t:Table Entry) (newSize:ℕ) : Option (Table Entry) :=
 insertAll entryKey ptrHash (t.slots.take (tableSize t.mask)) (emptyTable newSize zeroEntry)

def weakGrowMaybe (t:Table Entry) : Option (Table Entry) :=
 let oldSize:=tableSize t.mask
 if t.num ≥ oldSize*3 / 4 then weakResize t (if oldSize≠0 then oldSize*2 else 64)
 else some t

def weakCompactMaybe (t:Table Entry) : Option (Table Entry) :=
 let oldSize:=tableSize t.mask
 if oldSize ≥ 1024 ∧ oldSize / 16 ≥ t.num then weakResize t (oldSize / 8) else some t

def weakEntryRemove (t:Table Entry) (i:ℕ) : Option (Table Entry) :=
 weakCompactMaybe {t with slots:=t.slots.set i zeroEntry,num:=t.num-1}

def weakEntryForReferent (t:Table Entry) (referent:Ptr) : Find :=
 if t.slots=[] then .absent else find entryKey ptrHash t referent

/-- The test of `weak_unregister_no_lock`. It reads the inline words even when the entry is
    out of line. -/
def looksEmpty (e:Entry) : Bool :=
 if e.outOfLine && e.numRefs != 0 then false
 else (List.finRange weakInlineCount).all fun i=>e.inlineReferrer i == 0

/-- The flag says that the referrer was reported as unknown. -/
def weakUnregisterNoLock (t:Table Entry) (referent referrer:Ptr) : Option (Table Entry × Bool) :=
 if referent=0 then some (t,false)
 else
  match weakEntryForReferent t referent with
  | .corrupt=>none
  | .absent=>some (t,false)
  | .found i=>
   t.slots[i]?.bind fun entry=>(removeReferrer entry referrer).bind fun x =>
    if looksEmpty x.1 then (weakEntryRemove {t with slots:=t.slots.set i x.1} i).map (·,x.2)
    else some ({t with slots:=t.slots.set i x.1},x.2)

inductive DeallocatingOptions where
 | returnNilIfDeallocating | crashIfDeallocating | dontCheckDeallocating
 deriving DecidableEq

/-- What the referent says about forming a weak reference: `rootIsDeallocating`, or
    `allowsWeakReference` of a class with custom retain and release, if it has one. -/
inductive Viability where
 | viable | deallocating | unimplemented
 deriving DecidableEq

def registerReferrer (t:Table Entry) (addr referent referrer:Ptr) : Option (Table Entry) :=
 match weakEntryForReferent t referent with
 | .corrupt=>none
 | .found i=>t.slots[i]?.bind fun entry=>(appendReferrer addr 2 entry referrer).map fun e =>
  {t with slots:=t.slots.set i e}
 | .absent=>(weakGrowMaybe t).bind fun t=>weakEntryInsert t (newEntry referent referrer)

/-- Returns the value to store and the new table. -/
def weakRegisterNoLock (isTagged:Ptr → Bool) (t:Table Entry) (addr referent referrer:Ptr)
 (options:DeallocatingOptions) (viability:Viability) : Option (Ptr × Table Entry) :=
 if referent=0 ∨ isTagged referent then some (referent,t)
 else if options=.dontCheckDeallocating then
  (registerReferrer t addr referent referrer).map fun t=>(referent,t)
 else
  match viability with
  | .unimplemented=>some (0,t)
  | .deallocating=>if options=.crashIfDeallocating then none else some (0,t)
  | .viable=>(registerReferrer t addr referent referrer).map fun t=>(referent,t)

def clearSlot (referent:Ptr) (mem:Ptr → Ptr) (referrer:Ptr) : Ptr → Ptr :=
 if referrer≠0 ∧ mem referrer=referent then update mem referrer 0 else mem

/-- Returns the new table and memory. -/
def weakClearNoLock (t:Table Entry) (mem:Ptr → Ptr) (referent:Ptr) :
 Option (Table Entry × (Ptr → Ptr)) :=
 match weakEntryForReferent t referent with
 | .corrupt=>none
 | .absent=>some (t,mem)
 | .found i=>t.slots[i]?.bind fun entry=>(weakEntryRemove t i).map fun t =>
  (t,(slots entry).foldl (clearSlot referent) mem)

def referrersOf (t:Table Entry) (referent:Ptr) : List Ptr :=
 match weakEntryForReferent t referent with
 | .found i=>(t.slots[i]?.map stored).getD []
 | _=>[]

structure Roomy (t:Table Entry) : Prop where
 table : Wf entryKey ptrHash t
 size : 64 ≤ t.mask+1
 load : t.num*4 ≤ (t.mask+1)*3

variable {t:Table Entry} {e:Entry} {r referrer:Ptr} {i:ℕ} {isTagged:Ptr → Bool}

theorem entryKey_eq_some {k:Ptr} : entryKey e=some k ↔ e.referent≠0 ∧ e.referent=k :=
 ptrKey_eq_some

theorem Roomy.find (ht:Roomy t) (r:Ptr) :
 weakEntryForReferent t r=ProbeTable.find entryKey ptrHash t r := by
 grind [weakEntryForReferent,ht.table.size]

theorem tableSize_eq {mask:ℕ} (h:64 ≤ mask+1) : tableSize mask=mask+1 := if_pos (by omega)

theorem zeroEntry_key : entryKey zeroEntry=none := rfl

theorem resize_spec (ht:Roomy t) (n:ℕ) (hn:6 ≤ n) (hroom:t.num*4≤2^n*3) :
 ∃t',weakResize t (2^n)=some t' ∧ Roomy t' ∧ t'.mask+1=2^n ∧ t'.num=t.num ∧
  ∀k e,Has entryKey t' k e ↔ Has entryKey t k e := by
 have hpow:64≤2^n:=by
  calc 64=2^6 := rfl
   _≤2^n := Nat.pow_le_pow_right (by omega) hn
 obtain ⟨t',hrun,hwf,hmask,hnum,hhas⟩ :=
  rehash_spec ht.table zeroEntry_key n (by omega) (by omega)
 refine ⟨t',?_,⟨hwf,by omega,by omega⟩,hmask,hnum,hhas⟩
 grind [weakResize,tableSize_eq,ht.size,ht.table.size]

theorem six_le_of_size {n:ℕ} (h:64≤2^n) : 6 ≤ n := by
 by_contra hlt
 have : 2^n≤2^5:=Nat.pow_le_pow_right (by omega) (by omega)
 omega

theorem grow_maybe_spec (ht:t=emptyWeakTable ∨ Roomy t) :
 ∃t',weakGrowMaybe t=some t' ∧ Roomy t' ∧ (t'.num+1)*4 ≤ (t'.mask+1)*3 ∧
  ∀k e,Has entryKey t' k e ↔ Has entryKey t k e := by
 rcases ht with rfl|ht
 · obtain ⟨hwf,hempty⟩:=emptyTable_spec entryKey ptrHash zeroEntry_key 6 (by omega)
   refine ⟨emptyTable (2^6) zeroEntry,rfl,⟨hwf,by decide,by decide⟩,by decide,fun k e=>?_⟩
   rw [has_iff,hempty]
   simp [Has,emptyWeakTable]
 · have hsize:=ht.size
   have hload:=ht.load
   obtain ⟨n,hn⟩:=ht.table.pow
   have hdouble:(t.mask+1)*2=2^(n+1):=by rw [hn,←pow_succ]
   have h6:=six_le_of_size (hn ▸ hsize)
   by_cases hfull : t.num ≥ tableSize t.mask*3 / 4
   · obtain ⟨t',hrun,ht',hmask,hnum,hhas⟩:=resize_spec ht (n+1) (by omega) (by omega)
     grind [weakGrowMaybe,tableSize_eq]
   · refine ⟨t,by rw [weakGrowMaybe]; simp only [hfull,↓reduceIte],ht,?_,fun _ _=>Iff.rfl⟩
     grind [tableSize_eq]

theorem compact_maybe_spec (ht:Roomy t) : ∃t',weakCompactMaybe t=some t' ∧ Roomy t' ∧
  ∀k e,Has entryKey t' k e ↔ Has entryKey t k e := by
 have hsize:=tableSize_eq ht.size
 by_cases hsparse : tableSize t.mask ≥ 1024 ∧ tableSize t.mask / 16 ≥ t.num
 · obtain ⟨n,hn⟩:=ht.table.pow
   rw [hsize,hn] at hsparse
   have h10:10 ≤ n:=by
    by_contra hlt
    have : 2^n≤2^9:=Nat.pow_le_pow_right (by omega) (by omega)
    omega
   obtain ⟨m,rfl⟩ : ∃m,n=m+3:=⟨n-3,by omega⟩
   have hdiv:2^(m+3) / 8=2^m:=by grind
   have hpow:2^(m+3)=2^m*8:=by rw [pow_add,show (2 : ℕ)^3=8 from rfl]
   obtain ⟨t',hrun,ht',-,-,hhas⟩:=resize_spec ht m (by omega) (by omega)
   grind [weakCompactMaybe]
 · grind [weakCompactMaybe]

theorem remove_entry_spec (ht:Roomy t) (hi:t.slots[i]?=some e) (hk:entryKey e=some r) :
 ∃t',weakEntryRemove t i=some t' ∧ Roomy t' ∧
  ∀k x,Has entryKey t' k x ↔ k≠r ∧ Has entryKey t k x := by
 obtain ⟨hwf,hhas,hpos⟩:=erase_spec ht.table hi hk zeroEntry_key
 have hload:=ht.load
 obtain ⟨t',hrun,ht',hsame⟩:=compact_maybe_spec
  (t:={t with slots:=t.slots.set i zeroEntry,num:=t.num-1})
  ⟨hwf,ht.size,by simp only; omega⟩
 exact ⟨t',hrun,ht',fun k x=>(hsame k x).trans (hhas k x)⟩

theorem replace_entry (ht:Roomy t) {e':Entry} (hi:t.slots[i]?=some e)
 (hk:entryKey e=some r) (hk':entryKey e'=some r) :
 Roomy {t with slots:=t.slots.set i e'} ∧ ∀k x,Has entryKey {t with slots:=t.slots.set i e'} k x ↔
   if k=r then x=e' else Has entryKey t k x := by
 obtain ⟨hwf,hhas⟩:=replace_spec ht.table hi hk hk'
 exact ⟨⟨hwf,ht.size,ht.load⟩,hhas⟩

theorem insert_entry_spec (ht:t=emptyWeakTable ∨ Roomy t) (hk:entryKey e=some r)
 (hno:∀x,¬ Has entryKey t r x) :
 ∃t',((weakGrowMaybe t).bind fun t=>weakEntryInsert t e)=some t' ∧ Roomy t' ∧
  ∀k x,Has entryKey t' k x ↔ Has entryKey t k x ∨ (k=r ∧ x=e) := by
 obtain ⟨t₁,hgrow,ht₁,hload₁,hhas₁⟩:=grow_maybe_spec ht
 have hsize:=ht₁.size
 obtain ⟨t',hins,hwf,hmask,hnum,hhas⟩:=insert_spec ht₁.table hk
  (fun x h=>hno x ((hhas₁ r x).mp h)) (by omega)
 refine ⟨t',?_,⟨hwf,by omega,by rw [hnum,hmask]; exact hload₁⟩,fun k x=>?_⟩
 · grind [weakEntryInsert,entryKey_eq_some]
 · rw [hhas,hhas₁]

abbrev Location := { p : Ptr // Aligned p }

abbrev NonNil := { p : Ptr // p≠0 }

/-- The referrers registered for each referent, with their number of times. -/
abbrev Registered := Ptr → Multiset Ptr

/-- The table holds the referrers of `m`, and the referents of `grown` have entries out of line. -/
structure Follows (t:Table Entry) (m:Registered) (grown:Ptr → Prop) : Prop where
 table : t=emptyWeakTable ∨ Roomy t
 entry : ∀r e,Has entryKey t r e →
  EntrySound e ∧ (stored e:Multiset Ptr)=m r ∧ (e.outOfLine=true ↔ grown r)
 present : ∀r,(∃e,Has entryKey t r e) ↔ m r≠0 ∨ grown r

theorem follows_empty : Follows emptyWeakTable (fun _=>0) fun _=>False := by
 refine ⟨.inl rfl,fun r e h=>(nomatch h.1),fun r=>?_⟩
 constructor
 · rintro ⟨e,h⟩
   cases h.1
 · grind

theorem lookup_follows {t:Table Entry} (ht:t=emptyWeakTable ∨ Roomy t) (r:Ptr) :
 (∃i e,weakEntryForReferent t r=.found i ∧ t.slots[i]?=some e ∧ entryKey e=some r ∧
  Has entryKey t r e ∧ Roomy t) ∨
 (weakEntryForReferent t r=.absent ∧ ∀e,¬ Has entryKey t r e) := by
 rcases ht with rfl|ht
 · refine .inr ⟨rfl,fun e h=>?_⟩
   cases h.1
 · rw [ht.find r]
   rcases ht.table.toProbed.find_spec r with ⟨i,e,hf,hi,hk⟩|⟨hf,hno⟩
   · exact .inl ⟨i,e,hf,hi,hk,⟨List.mem_of_getElem? hi,hk⟩,ht⟩
   · exact .inr ⟨hf,hno⟩

theorem looksEmpty_iff (e:Entry) : looksEmpty e=true ↔ e.outOfLine=false ∧ stored e=[] := by
 cases ho : e.outOfLine with
 | true=>
  have hword:e.inlineReferrer 1≠0 ∨ e.numRefs≠0:=by
   have hbits:e.word 1 % 4=2:=by simpa [Entry.outOfLine] using ho
   have hnat:(2^64-e.word 1) % 2^64≠0 ∨ e.word 1 / 4≠0:=by omega
   exact hnat
  grind [looksEmpty]
 | false=>
  rw [looksEmpty,ho]
  simp only [Bool.false_and,Bool.false_eq_true,↓reduceIte,List.all_eq_true,List.mem_finRange,
   beq_iff_eq,forall_const,true_and,List.eq_nil_iff_forall_not_mem,mem_stored,
   mem_slots_inline ho]
  grind

theorem foldl_clearSlot (referent:Ptr) (hne:referent≠0) (l:List Ptr) (mem:Ptr → Ptr) (x:Ptr) :
 l.foldl (clearSlot referent) mem x =
  if x∈l ∧ x≠0 ∧ mem x=referent then 0 else mem x := by
 induction l generalizing mem with
 | nil=>simp
 | cons p rest ih=>
  rw [List.foldl_cons,ih]
  by_cases hp : p≠0 ∧ mem p=referent
  · rw [clearSlot,if_pos hp]
    grind
  · rw [clearSlot,if_neg hp]
    grind

section Steps
variable {t t':Table Entry} {m:Registered} {grown:Ptr → Prop} {referent:Ptr}

section

variable (h:Follows t m grown)
include h

theorem Follows.replaced (ht':Roomy t') (e':Entry) {ms:Multiset Ptr}
 {grown':Ptr → Prop}
 (hhas:∀k x,Has entryKey t' k x ↔ if k=referent then x=e' else Has entryKey t k x)
 (hsound:EntrySound e') (hms:(stored e':Multiset Ptr)=ms)
 (hout:e'.outOfLine=true ↔ grown' referent) (hkept:ms≠0 ∨ grown' referent)
 (hothers:∀r,r≠referent → (grown' r ↔ grown r)) :
 Follows t' (update m referent ms) grown' := by
 refine ⟨.inr ht',fun r e he=>?_,fun r=>?_⟩
 · grind [h.entry]
 · simp only [hhas]
   by_cases hr : r=referent
   · simp_all
   · simp only [if_neg hr,update_of_ne hr,hothers r hr]
     exact h.present r

theorem Follows.removed (ht':t'=emptyWeakTable ∨ Roomy t') {grown':Ptr → Prop}
 (hhas:∀k x,Has entryKey t' k x ↔ k≠referent ∧ Has entryKey t k x)
 (hgone:¬grown' referent) (hothers:∀r,r≠referent → (grown' r ↔ grown r)) :
 Follows t' (update m referent 0) grown' := by
 refine ⟨ht',fun r e he=>?_,fun r=>?_⟩
 · grind [h.entry]
 · simp only [hhas]
   grind [h.present]

theorem Follows.absent (hno:∀e,¬ Has entryKey t referent e) :
 m referent=0 ∧ ¬grown referent := by
 have:=h.present referent
 grind

theorem Follows.grown_of_card (hmany:4 < (m referent).card) :
 grown referent := by
 have hne:m referent≠0:=by
  rintro hz
  rw [hz] at hmany
  simp at hmany
 obtain ⟨e,he⟩:=(h.present referent).mpr (.inl hne)
 obtain ⟨-,hms,hout⟩:=h.entry referent e he
 grind [Multiset.coe_card,stored,slots_inline]

theorem follows_register (block:NonNil) (referrer:Location) (hne:referent≠0) :
 ∃t',registerReferrer t block referent referrer=some t' ∧
  Follows t' (update m referent (referrer.1 ::ₘ m referent)) fun r =>
   grown r ∨ 4 < (update m referent (referrer.1 ::ₘ m referent) r).card := by
 have hothers:∀r,r≠referent →
  (grown r ∨ 4 < (update m referent (referrer.1 ::ₘ m referent) r).card ↔ grown r) := by
  grind [h.grown_of_card]
 rcases lookup_follows h.table referent with ⟨i,e,hf,hi,hk,he,hroomy⟩|⟨hf,hno⟩
 · obtain ⟨hsound,hms,hout⟩:=h.entry referent e he
   obtain ⟨e',happ,hsound',hsame,hout',hperm⟩:=append_sound hsound block.2 referrer.2
   have hk':entryKey e'=some referent:=by rwa [entryKey,hsame]
   obtain ⟨hroomy',hhas⟩:=replace_entry hroomy hi hk hk'
   refine ⟨_,by simp [registerReferrer,hf,hi,happ],h.replaced hroomy' e' hhas hsound' ?_ ?_ ?_
    hothers⟩
   · rw [←hms,Multiset.cons_coe]
     exact Multiset.coe_eq_coe.mpr hperm
   · grind [Multiset.card_cons,Multiset.coe_card]
   · exact .inl (Multiset.cons_ne_zero)
 · obtain ⟨hnone,hsmall⟩:=h.absent hno
   have hk:entryKey (newEntry referent referrer)=some referent:=ptrKey_of_ne hne
   obtain ⟨hsound,hst⟩:=newEntry_sound referent referrer.2
   obtain ⟨t',hins,hroomy,hhas⟩:=insert_entry_spec h.table hk hno
   refine ⟨t',by simp only [registerReferrer,hf]; exact hins,
    h.replaced hroomy (newEntry referent referrer) (fun k x=>?_) hsound ?_ ?_ ?_ hothers⟩
   · grind
   · rw [hst,hnone]
     rfl
   · have hin:(newEntry referent referrer).outOfLine=false:=rfl
     simp_all
   · exact .inl (Multiset.cons_ne_zero)

theorem Follows.nil : m 0=0 ∧ ¬grown 0 := by
 refine h.absent fun e he=>?_
 obtain ⟨hne,hz⟩:=entryKey_eq_some.mp he.2
 exact hne hz

theorem follows_unregister (referent:Ptr) (hr:referrer≠0) :
 ∃t' unknown,weakUnregisterNoLock t referent referrer=some (t',unknown) ∧
  Follows t' (update m referent ((m referent).erase referrer)) grown := by
 by_cases hnil : referent=0
 · refine ⟨t,false,by simp [weakUnregisterNoLock,hnil],?_⟩
   grind [h.nil,Multiset.erase_zero,update_eq_self]
 rcases lookup_follows h.table referent with ⟨i,e,hf,hi,hk,he,hroomy⟩|⟨hf,hno⟩
 · obtain ⟨hsound,hms,hout⟩:=h.entry referent e he
   obtain ⟨e',unknown,hrem,hsound',hsame,hout',hperm⟩:=remove_sound hsound hr
   have hk':entryKey e'=some referent:=by rwa [entryKey,hsame]
   obtain ⟨hroomy',hhas⟩:=replace_entry hroomy hi hk hk'
   have hleft:(stored e':Multiset Ptr)=(m referent).erase referrer:=by
    rw [←hms,Multiset.coe_erase]
    exact Multiset.coe_eq_coe.mpr hperm
   rw [←hout'] at hout
   cases hempty : looksEmpty e' with
   | true=>
    obtain ⟨hin,hnone⟩:=(looksEmpty_iff e').mp hempty
    have hi':(t.slots.set i e')[i]?=some e':=by grind
    obtain ⟨t₂,hdel,hroomy₂,hhas₂⟩:=remove_entry_spec hroomy' hi' hk'
    refine ⟨t₂,unknown,by simp [weakUnregisterNoLock,hnil,hf,hi,hrem,hempty,hdel],?_⟩
    rw [←hleft,hnone]
    refine h.removed (.inr hroomy₂) (fun k x=>?_) ?_ fun r _=>Iff.rfl
    · grind
    · grind
   | false=>
    refine ⟨_,unknown,by simp [weakUnregisterNoLock,hnil,hf,hi,hrem,hempty],
     h.replaced hroomy' e' hhas hsound' hleft hout ?_ fun r _=>Iff.rfl⟩
    grind [looksEmpty_iff,Multiset.coe_eq_zero]
 · refine ⟨t,false,by simp [weakUnregisterNoLock,hnil,hf],?_⟩
   grind [h.absent,Multiset.erase_zero,update_eq_self]

theorem follows_clear (referent:NonNil) (mem:Ptr → Ptr) :
 ∃t' mem',weakClearNoLock t mem referent=some (t',mem') ∧
  Follows t' (update m referent.1 0) (fun r=>r≠referent.1 ∧ grown r) ∧
  ∀x,mem' x=if x∈m referent ∧ mem x=referent then 0 else mem x := by
 rcases lookup_follows h.table referent with ⟨i,e,hf,hi,hk,he,hroomy⟩|⟨hf,hno⟩
 · obtain ⟨t',hdel,hroomy',hhas⟩:=remove_entry_spec hroomy hi hk
   refine ⟨t',_,by simp only [weakClearNoLock,hf,hi,hdel]; rfl,
    h.removed (.inr hroomy') hhas (fun hg=>hg.1 rfl) fun r hr=>and_iff_right hr,fun x=>?_⟩
   simp only [←(h.entry referent e he).2.1,Multiset.mem_coe]
   grind [foldl_clearSlot,mem_stored]
 · refine ⟨t,mem,by simp only [weakClearNoLock,hf],
    h.removed h.table (fun k x=>?_) (fun hg=>hg.1 rfl) fun r hr=>and_iff_right hr,fun x=>?_⟩
   · grind
   · simp [(h.absent hno).1]

theorem Follows.mem_referrersOf (r x:Ptr) : x∈referrersOf t r ↔ x∈m r := by
 rcases lookup_follows h.table r with ⟨i,e,hf,hi,hk,he,-⟩|⟨hf,hno⟩
 · rw [referrersOf,hf,←(h.entry r e he).2.1]
   simp [hi]
 · simp [referrersOf,hf,(h.absent hno).1]

end

end Steps

def TableWf (t:Table Entry) : Prop := ∃m grown,Follows t m grown ∧ ∀r,(m r).Nodup

theorem tableWf_empty : TableWf emptyWeakTable :=
 ⟨_,_,follows_empty,fun _=>Multiset.nodup_zero⟩

theorem referrersOf_nodup (ht:TableWf t) (r:Ptr) : (referrersOf t r).Nodup := by
 obtain ⟨m,grown,h,hnodup⟩:=ht
 rcases lookup_follows h.table r with ⟨i,e,hf,hi,hk,he,-⟩|⟨hf,hno⟩
 · rw [referrersOf,hf]
   simpa [hi] using Multiset.coe_nodup.mp ((h.entry r e he).2.1 ▸ hnodup r)
 · simp [referrersOf,hf]

theorem register_spec (ht:TableWf t) {addr referent:Ptr} (haddr:addr≠0)
 (hne:referent≠0) (hr:Aligned referrer) (hnew:referrer∉referrersOf t referent) :
 ∃t',registerReferrer t addr referent referrer=some t' ∧ TableWf t' ∧
  ∀r x,x∈referrersOf t' r ↔ x∈referrersOf t r ∨ (r=referent ∧ x=referrer) := by
 obtain ⟨m,grown,h,hnodup⟩:=ht
 obtain ⟨t',hreg,h'⟩:=follows_register h ⟨addr,haddr⟩ ⟨referrer,hr⟩ hne
 rw [h.mem_referrersOf] at hnew
 refine ⟨t',hreg,⟨_,_,h',fun r=>?_⟩,fun r x=>?_⟩
 · grind [Multiset.nodup_cons]
 · rw [h'.mem_referrersOf,h.mem_referrersOf]
   grind

theorem unregister_spec (ht:TableWf t) (referent:Ptr) (hr:referrer≠0) :
 ∃t' unknown,weakUnregisterNoLock t referent referrer=some (t',unknown) ∧ TableWf t' ∧
  ∀r x,x∈referrersOf t' r ↔ x∈referrersOf t r ∧ ¬ (r=referent ∧ x=referrer) := by
 obtain ⟨m,grown,h,hnodup⟩:=ht
 obtain ⟨t',unknown,hrun,h'⟩:=follows_unregister h referent hr
 refine ⟨t',unknown,hrun,⟨_,_,h',fun r=>?_⟩,fun r x=>?_⟩
 · grind [Multiset.Nodup.erase]
 · rw [h'.mem_referrersOf,h.mem_referrersOf]
   grind [Multiset.Nodup.mem_erase_iff]

theorem clear_spec (ht:TableWf t) {referent:Ptr} (hne:referent≠0) (mem:Ptr → Ptr) :
 ∃t' mem',weakClearNoLock t mem referent=some (t',mem') ∧ TableWf t' ∧
  (∀r x,x∈referrersOf t' r ↔ x∈referrersOf t r ∧ r≠referent) ∧
  ∀x,mem' x=if x∈referrersOf t referent ∧ mem x=referent then 0 else mem x := by
 obtain ⟨m,grown,h,hnodup⟩:=ht
 obtain ⟨t',mem',hrun,h',hmem⟩:=follows_clear h ⟨referent,hne⟩ mem
 refine ⟨t',mem',hrun,⟨_,_,h',fun r=>?_⟩,fun r x=>?_,fun x=>?_⟩
 · grind [Multiset.nodup_zero]
 · rw [h'.mem_referrersOf,h.mem_referrersOf]
   grind
 · simp only [hmem,h.mem_referrersOf]

def Accepts (isTagged:Ptr → Bool) (referent:Ptr) (options:DeallocatingOptions)
 (viability:Viability) : Prop :=
 referent≠0 ∧ isTagged referent=false ∧ (options=.dontCheckDeallocating ∨ viability=.viable)

instance (isTagged:Ptr → Bool) (referent:Ptr) (options:DeallocatingOptions)
 (viability:Viability) : Decidable (Accepts isTagged referent options viability) :=
 inferInstanceAs (Decidable (_ ∧ _))

theorem weakRegisterNoLock_eq (isTagged:Ptr → Bool) (t:Table Entry)
 (addr referent referrer:Ptr) (options:DeallocatingOptions) (viability:Viability) :
 weakRegisterNoLock isTagged t addr referent referrer options viability =
  if Accepts isTagged referent options viability then
   (registerReferrer t addr referent referrer).map fun t=>(referent,t)
  else if referent=0 ∨ isTagged referent=true then some (referent,t)
  else if options=.crashIfDeallocating ∧ viability=.deallocating then none
  else some (0,t) := by
 rw [weakRegisterNoLock.eq_def]
 grind [Accepts]

structure State where
 table : Table Entry
 mem : Ptr → Ptr

inductive Op where
 | register (addr referent referrer:Ptr) (options:DeallocatingOptions) (viability:Viability)
 | unregister (referent referrer:Ptr)
 | clear (referent:Ptr)
 /-- Whatever else the program stores in a location. -/
 | assign (location value:Ptr)

def Op.referent : Op → Option Ptr
 | .register _ referent _ _ _ | .unregister referent _ | .clear referent=>some referent
 | .assign _ _=>none

def step (isTagged:Ptr → Bool) (s:State) : Op → Option State
 | .register addr referent referrer options viability=>
  (weakRegisterNoLock isTagged s.table addr referent referrer options viability).map fun x =>
   {s with table:=x.2}
 | .unregister referent referrer=>(weakUnregisterNoLock s.table referent referrer).map fun x =>
  {s with table:=x.1}
 | .clear referent=>(weakClearNoLock s.table s.mem referent).map fun x=>⟨x.1,x.2⟩
 | .assign location value=>some {s with mem:=update s.mem location value}

def run (isTagged:Ptr → Bool) : List Op → State → Option State
 | [],s=>some s
 | op::ops,s=>(step isTagged s op).bind (run isTagged ops)

/-- What the table is for: the referrers of each referent. -/
structure Registry where
 refs : Ptr → Finset Ptr
 mem : Ptr → Ptr

def Registry.step (isTagged:Ptr → Bool) (a:Registry) : Op → Registry
 | .register _ referent referrer options viability=>
  if Accepts isTagged referent options viability then
   {a with refs:=update a.refs referent (Insert.insert referrer (a.refs referent))}
  else a
 | .unregister referent referrer=>
  {a with refs:=update a.refs referent ((a.refs referent).erase referrer)}
 | .clear referent=>
  { refs := update a.refs referent ∅
    mem := fun x=>if x∈a.refs referent ∧ a.mem x=referent then 0 else a.mem x }
 | .assign location value=>{a with mem:=update a.mem location value}

/-- Referrers are aligned, `calloc` succeeds, no referrer is registered twice, and the
    caller did not ask for a crash. -/
def Legal (isTagged:Ptr → Bool) (a:Registry) : Op → Prop
 | .register addr referent referrer options viability=>
  addr≠0 ∧ Aligned referrer ∧ referrer∉a.refs referent ∧
   (referent=0 ∨ isTagged referent=true ∨ options≠.crashIfDeallocating ∨
    viability≠.deallocating)
 | .unregister _ referrer=>referrer≠0
 | .clear referent=>referent≠0
 | .assign _ _=>True

def LegalRun (isTagged:Ptr → Bool) : Registry → List Op → Prop
 | _,[]=>True
 | a,op::ops=>Legal isTagged a op ∧ LegalRun isTagged (a.step isTagged op) ops

def Registry.run (isTagged:Ptr → Bool) (a:Registry) (ops:List Op) : Registry :=
 ops.foldl (Registry.step isTagged) a

structure Refines (s:State) (a:Registry) : Prop where
 table : TableWf s.table
 mem : s.mem=a.mem
 refs : ∀r,r≠0 → ∀x,x∈referrersOf s.table r ↔ x∈a.refs r

variable {s:State} {a:Registry}

theorem refines_register (h:Refines s a) {addr referent:Ptr} {options:DeallocatingOptions}
 {viability:Viability}
 (hl:Legal isTagged a (.register addr referent referrer options viability)) :
 ∃s',step isTagged s (.register addr referent referrer options viability)=some s' ∧
  Refines s' (a.step isTagged (.register addr referent referrer options viability)) := by
 obtain ⟨haddr,hal,hnew,hcrash⟩:=hl
 by_cases hacc : Accepts isTagged referent options viability
 · obtain ⟨t',hreg,ht',hrefs⟩:=register_spec h.table haddr hacc.1 hal
    fun hx=>hnew ((h.refs referent hacc.1 referrer).mp hx)
   refine ⟨⟨t',s.mem⟩,?_,ht',?_,fun r hr x=>?_⟩
   · rw [step,weakRegisterNoLock_eq,if_pos hacc,hreg]
     rfl
   · rw [Registry.step,if_pos hacc]
     exact h.mem
   · rw [Registry.step,if_pos hacc,hrefs,h.refs r hr]
     grind
 · refine ⟨s,?_,by rw [Registry.step,if_neg hacc]; exact h⟩
   rw [step,weakRegisterNoLock_eq,if_neg hacc]
   by_cases hnil : referent=0 ∨ isTagged referent=true
   · rw [if_pos hnil]
     rfl
   · rw [if_neg hnil,if_neg]
     · rfl
     · grind

/-- Every legal call runs to its end and acts on the map. -/
theorem refines_step (h:Refines s a) {op:Op} (hl:Legal isTagged a op) :
 ∃s',step isTagged s op=some s' ∧ Refines s' (a.step isTagged op) := by
 cases op with
 | register addr referent referrer options viability=>exact refines_register h hl
 | unregister referent referrer=>
  obtain ⟨t',unknown,hrun,ht',hrefs⟩:=unregister_spec h.table referent hl
  refine ⟨⟨t',s.mem⟩,by rw [step,hrun]; rfl,ht',h.mem,fun r hr x=>?_⟩
  rw [hrefs,h.refs r hr]
  by_cases hrr : r=referent
  · subst r
    simp [Registry.step,and_comm]
  · simp [Registry.step,hrr]
 | clear referent=>
  obtain ⟨t',mem',hrun,ht',hrefs,hmem⟩:=clear_spec h.table hl s.mem
  refine ⟨⟨t',mem'⟩,by rw [step,hrun]; rfl,ht',?_,fun r hr x=>?_⟩
  · funext x
    simp only [Registry.step,hmem,h.refs referent hl,h.mem]
  · rw [hrefs,h.refs r hr]
    by_cases hrr : r=referent
    · subst r
      simp [Registry.step]
    · simp [Registry.step,hrr]
 | assign location value=>
  refine ⟨_,rfl,h.table,?_,h.refs⟩
  simp only [Registry.step,h.mem]

theorem refines_run (ops:List Op) (h:Refines s a) (hl:LegalRun isTagged a ops) :
 ∃s',run isTagged ops s=some s' ∧ Refines s' (a.run isTagged ops) := by
 induction ops generalizing s a with
 | nil=>exact ⟨s,rfl,h⟩
 | cons op ops ih=>
  obtain ⟨s₁,hs,h₁⟩:=refines_step h hl.1
  obtain ⟨s',hrun,h'⟩:=ih h₁ hl.2
  exact ⟨s',by rw [run,hs]; exact hrun,h'⟩

theorem refines_empty (mem:Ptr → Ptr) : Refines ⟨emptyWeakTable,mem⟩ ⟨fun _=>∅,mem⟩ := by
 refine ⟨tableWf_empty,rfl,fun r _ x=>?_⟩
 have : referrersOf emptyWeakTable r=[]:=rfl
 simp [this]

/-- After any legal sequence of calls the table holds exactly the registered referrers,
    each once. The next call touches only its own referent, and clearing writes nil to the
    referrers that still hold the referent and to nothing else. -/
theorem weakTable_refines_map (isTagged:Ptr → Bool) (mem:Ptr → Ptr) (ops:List Op)
 (legal:LegalRun isTagged ⟨fun _=>∅,mem⟩ ops) :
 ∃s,run isTagged ops ⟨emptyWeakTable,mem⟩=some s ∧
  s.mem=(Registry.run isTagged ⟨fun _=>∅,mem⟩ ops).mem ∧
  (∀r,r≠0 → (referrersOf s.table r).Nodup ∧
   ∀x,x∈referrersOf s.table r ↔ x∈(Registry.run isTagged ⟨fun _=>∅,mem⟩ ops).refs r) ∧
  ∀op,Legal isTagged (Registry.run isTagged ⟨fun _=>∅,mem⟩ ops) op →
   ∃s',step isTagged s op=some s' ∧ (∀r,r≠0 → op.referent≠some r →
     ∀x,x∈referrersOf s'.table r ↔ x∈referrersOf s.table r) ∧
    ∀r,op=.clear r → ∀x,
     s'.mem x=if x∈referrersOf s.table r ∧ s.mem x=r then 0 else s.mem x := by
 obtain ⟨s,hrun,h⟩:=refines_run ops (refines_empty mem) legal
 refine ⟨s,hrun,h.mem,fun r hr=>⟨referrersOf_nodup h.table r,h.refs r hr⟩,fun op hop=>?_⟩
 obtain ⟨s',hs,h'⟩:=refines_step h hop
 refine ⟨s',hs,fun r hr hne x=>?_,fun r hclear x=>?_⟩
 · rw [h'.refs r hr,h.refs r hr]
   cases op with
   | register addr referent referrer options viability=>
    have hrr:r≠referent:=fun heq=>hne (by rw [heq]; rfl)
    simp only [Registry.step]
    split_ifs
    · simp [hrr]
    · rfl
   | unregister referent referrer | clear referent=>
    have hrr:r≠referent:=fun heq=>hne (by rw [heq]; rfl)
    simp [Registry.step,hrr]
   | assign location value=>rfl
 · subst hclear
   have hr:r≠0:=hop
   simp only [h'.mem,Registry.step,h.refs r hr,h.mem]

instance (p:ℕ) : Decidable (Aligned p) :=
 decidable_of_iff (p≠0 ∧ p<2^64 ∧ p % 8=0)
  ⟨fun h=>⟨h.1,h.2.1,h.2.2⟩,fun h=>⟨h.ne,h.lt,h.dvd⟩⟩

/-- Five referrers of one object, so that its entry moves out of line, and one of another;
    one referrer is unregistered and the object cleared. -/
def sampleOps : List Op :=
 [.register 8 4096 800 .crashIfDeallocating .viable,
  .register 8 4096 808 .crashIfDeallocating .viable,
  .register 8 4096 816 .crashIfDeallocating .viable,
  .register 8 4096 824 .crashIfDeallocating .viable,
  .register 8 4096 832 .crashIfDeallocating .viable,
  .register 8 8192 840 .dontCheckDeallocating .viable,
  .assign 800 4096,.unregister 4096 808]

theorem weakTable_sample : ∃s,run (fun _=>false) sampleOps ⟨emptyWeakTable,fun _=>0⟩=some s ∧
  (∀x,x∈referrersOf s.table 4096 ↔ x∈({800,816,824,832} : Finset ℕ)) ∧
  ∃s',step (fun _=>false) s (.clear 4096)=some s' ∧ s'.mem 800=0 := by
 have hlegal:LegalRun (fun _=>false) ⟨fun _=>∅,fun _=>0⟩ sampleOps:=by
  refine ⟨?_,?_,?_,?_,?_,?_,trivial,?_,trivial⟩
  all_goals unfold Legal; decide
 obtain ⟨s,hrun,hmem,hrefs,hnext⟩ :=
  weakTable_refines_map (fun _=>false) (fun _=>0) sampleOps hlegal
 obtain ⟨s',hs',-,hclear⟩:=hnext (.clear 4096) (by unfold Legal; decide)
 have hset:(Registry.run (fun _=>false) ⟨fun _=>∅,fun _=>0⟩ sampleOps).refs 4096 =
  ({800,816,824,832} : Finset ℕ) := by decide
 refine ⟨s,hrun,fun x=>?_,s',hs',?_⟩
 · rw [(hrefs 4096 (by decide)).2,hset]
 · rw [hclear 4096 rfl,if_pos]
   refine ⟨((hrefs 4096 (by decide)).2 800).mpr (by rw [hset]; decide),?_⟩
   rw [hmem]
   decide

end ObjcRuntime.WeakTable
