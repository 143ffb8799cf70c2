import Mathlib

/-!
# Open addressing without tombstones

A table of `mask + 1` slots, a power of two. A search does not stop at an empty slot but gives up
once it is further from the hash than any insertion has ever gone, so erasing leaves a hole and
nothing else.
-/
set_option autoImplicit false
namespace ObjcRuntime.ProbeTable
open scoped List

structure Table (σ:Type) where
 slots : List σ
 num : ℕ
 mask : ℕ
 maxDisplacement : ℕ

inductive Find where
 | found (index:ℕ)
 | absent
 | corrupt
 deriving DecidableEq

variable {σ K:Type} (key:σ → Option K) (hash:K → ℕ)

def keyAt (slots:List σ) (i:ℕ) : Option K := slots[i]?.bind key

def findLoop [DecidableEq K] (t:Table σ) (k:K) (start:ℕ) : ℕ → ℕ → ℕ → Find
 | 0,_,_=>.corrupt
 | fuel+1,index,displacement=>
  if keyAt key t.slots index=some k then .found index
  else
   let index:=(index+1) &&& t.mask
   if index=start then .corrupt
   else if displacement+1 > t.maxDisplacement then .absent
   else findLoop t k start fuel index (displacement+1)

def find [DecidableEq K] (t:Table σ) (k:K) : Find :=
 findLoop key t k (hash k &&& t.mask) (t.mask+1) (hash k &&& t.mask) 0

def emptyLoop (t:Table σ) (start:ℕ) : ℕ → ℕ → ℕ → Option (ℕ × ℕ)
 | 0,_,_=>none
 | fuel+1,index,displacement=>
  if keyAt key t.slots index=none then some (index,displacement)
  else
   let index:=(index+1) &&& t.mask
   if index=start then none else emptyLoop t start fuel index (displacement+1)

def insert (t:Table σ) (s:σ) (k:K) : Option (Table σ) :=
 (emptyLoop key t (hash k &&& t.mask) (t.mask+1) (hash k &&& t.mask) 0).map fun x =>
  { t with
    slots := t.slots.set x.1 s
    num := t.num+1
    maxDisplacement := if x.2 > t.maxDisplacement then x.2 else t.maxDisplacement }

def insertAll : List σ → Table σ → Option (Table σ)
 | [],t=>some t
 | s::rest,t=>
  match key s with
  | none=>insertAll rest t
  | some k=>(insert key hash t s k).bind (insertAll rest)

def emptyTable (n:ℕ) (s:σ) : Table σ := ⟨List.replicate n s,0,n-1,0⟩

def pos (mask h d:ℕ) : ℕ := (h+d) % (mask+1)

theorem and_mask {mask:ℕ} (hpow:∃n,mask+1=2^n) (x:ℕ) : x &&& mask=x % (mask+1) := by
 obtain ⟨n,hn⟩:=hpow
 rw [show mask=2^n-1 by omega,Nat.and_two_pow_sub_one_eq_mod,show 2^n-1+1=2^n by omega]

theorem pos_lt (mask h d:ℕ) : pos mask h d < mask+1 := Nat.mod_lt _ (by omega)

theorem pos_succ (mask h d:ℕ) : (pos mask h d+1) % (mask+1)=pos mask h (d+1) := by
 rw [pos,pos,Nat.mod_add_mod,Nat.add_assoc]

theorem pos_inj {mask h d e:ℕ} (hd:d < mask+1) (he:e < mask+1)
 (heq:pos mask h d=pos mask h e) : d=e := by
 have:=Nat.ModEq.add_left_cancel' h heq
 rwa [Nat.ModEq,Nat.mod_eq_of_lt hd,Nat.mod_eq_of_lt he] at this

variable {i:ℕ} {t:Table σ} {slots:List σ} {k:K} {s:σ}

theorem exists_pos (mask h:ℕ) (hi:i < mask+1) : ∃d < mask+1,pos mask h d=i := by
 have hr:=Nat.mod_lt h (show 0 < mask+1 by omega)
 refine ⟨(i+(mask+1-h % (mask+1))) % (mask+1),Nat.mod_lt _ (by omega),?_⟩
 rw [pos,Nat.add_mod_mod,←Nat.mod_add_mod,
  show h % (mask+1)+(i+(mask+1-h % (mask+1)))=i+(mask+1) by omega,
  Nat.add_mod_right,Nat.mod_eq_of_lt hi]

/-- A table that may hold a key in several slots. -/
structure Probed (t:Table σ) : Prop where
 size : t.slots.length=t.mask+1
 pow : ∃n,t.mask+1=2^n
 near : ∀i k,keyAt key t.slots i=some k → ∃d ≤ t.maxDisplacement,pos t.mask (hash k) d=i
 num : t.num=t.slots.countP fun s=>(key s).isSome
 room : t.maxDisplacement < t.mask

structure Wf (t:Table σ) : Prop extends Probed key hash t where
 nodup : (t.slots.filterMap key).Nodup

def Has (t:Table σ) (k:K) (s:σ) : Prop := s∈t.slots ∧ key s=some k

def used (slots:List σ) : List σ := slots.filter fun s=>(key s).isSome

variable {key hash}

theorem keyAt_eq_some : keyAt key slots i=some k ↔ ∃s,slots[i]?=some s ∧ key s=some k := by
 rw [keyAt,Option.bind_eq_some_iff]

theorem keyAt_set (hi:i < slots.length) (s:σ) (j:ℕ) :
 keyAt key (slots.set i s) j=if i=j then key s else keyAt key slots j := by grind [keyAt]

theorem exists_keyAt_of_has (h:Has key t k s) :
 ∃i,t.slots[i]?=some s ∧ keyAt key t.slots i=some k := by
 obtain ⟨i,hi⟩:=List.mem_iff_getElem?.mp h.1
 exact ⟨i,hi,keyAt_eq_some.mpr ⟨s,hi,h.2⟩⟩

theorem has_iff : Has key t k s ↔ s∈used key t.slots ∧ key s=some k := by grind [Has,used]

theorem keys_used (slots:List σ) : (used key slots).filterMap key=slots.filterMap key := by
 rw [used,List.filterMap_filter]
 congr 1
 funext s
 cases key s <;> rfl

theorem used_eraseIdx (key:σ → Option K) (hi:slots[i]?=some s) :
 used key slots ~ used key (s::slots.eraseIdx i) := by
 obtain ⟨hlt,rfl⟩:=List.getElem?_eq_some_iff.mp hi
 exact ((List.getElem_cons_eraseIdx_perm hlt).filter _).symm

theorem used_set (hi:i < slots.length) (s:σ) :
 used key (slots.set i s) ~ used key (s::slots.eraseIdx i) := by
 have hset:=used_eraseIdx key (List.getElem?_set_self hi (a:=s))
 rwa [List.eraseIdx_set_eq] at hset

theorem used_cons (hs:key s=some k) (l:List σ) : used key (s::l)=s::used key l :=
 List.filter_cons_of_pos (by rw [hs]; rfl)

theorem used_skip (hs:key s=none) (l:List σ) : used key (s::l)=used key l :=
 List.filter_cons_of_neg (by simp [hs])

theorem used_fill (hi:i < slots.length) (hempty:keyAt key slots i=none) (hs:key s=some k) :
 used key (slots.set i s) ~ s::used key slots := by
 have hold:key slots[i]=none:=by rwa [keyAt,List.getElem?_eq_getElem hi] at hempty
 have hslots:=used_eraseIdx key (List.getElem?_eq_getElem hi)
 rw [used_skip hold] at hslots
 refine (used_set hi s).trans ?_
 rw [used_cons hs]
 exact hslots.symm.cons s

theorem used_clear {z:σ} (hi:slots[i]?=some s) (hs:key s=some k) (hz:key z=none) :
 used key slots ~ s::used key (slots.set i z) := by
 have hlt:i < slots.length:=(List.getElem?_eq_some_iff.mp hi).1
 refine (used_eraseIdx key hi).trans ?_
 rw [used_cons hs]
 exact (used_skip hz _ ▸ used_set hlt z).symm.cons s

theorem Probed.length_used (ht:Probed key hash t) : (used key t.slots).length=t.num := by
 rw [ht.num,List.countP_eq_length_filter,used]

section Has

variable {u:Table σ} (h:used key u.slots ~ s::used key t.slots) (hs:key s=some k)
include h hs

theorem has_cons (k':K) (x:σ) : Has key u k' x ↔ Has key t k' x ∨ (k'=k ∧ x=s) := by
 rw [has_iff,has_iff,h.mem_iff,List.mem_cons]
 grind

theorem nodup_cons : (u.slots.filterMap key).Nodup ↔
 (∀x,¬ Has key t k x) ∧ (t.slots.filterMap key).Nodup := by
 rw [←keys_used,(h.filterMap key).nodup_iff,List.filterMap_cons_some hs,List.nodup_cons,keys_used]
 simp [Has]

end Has

theorem Has.unique (ht:Wf key hash t) {s':σ} (h:Has key t k s) (h':Has key t k s') :
 s=s' := by
 obtain ⟨i,hi⟩:=List.mem_iff_getElem?.mp h.1
 have hused:=used_eraseIdx key hi
 rw [used_cons h.2] at hused
 have hnone:=((nodup_cons (t:={t with slots:=t.slots.eraseIdx i}) hused h.2).mp ht.nodup).1
 exact (((has_cons hused h.2 k s').mp h').resolve_left (hnone s')).2.symm

theorem findLoop_spec [DecidableEq K] (ht:Probed key hash t) (k:K) (fuel d:ℕ)
 (hfuel:d+fuel=t.mask+1) (hd:d ≤ t.maxDisplacement)
 (hbefore:∀e < d,keyAt key t.slots (pos t.mask (hash k) e)≠some k) :
 (∃i,findLoop key t k (pos t.mask (hash k) 0) fuel (pos t.mask (hash k) d) d=.found i ∧
  keyAt key t.slots i=some k) ∨
 (findLoop key t k (pos t.mask (hash k) 0) fuel (pos t.mask (hash k) d) d=.absent ∧
  ∀i,keyAt key t.slots i≠some k) := by
 have hroom:=ht.room
 induction fuel generalizing d with
 | zero=>omega
 | succ fuel ih=>
  unfold findLoop
  by_cases hk : keyAt key t.slots (pos t.mask (hash k) d)=some k
  · rw [if_pos hk]
    exact .inl ⟨_,rfl,hk⟩
  · have hstart:pos t.mask (hash k) (d+1)≠pos t.mask (hash k) 0:=fun h=>by
     have:=pos_inj (by omega) (by omega) h
     omega
    have hnext:∀e < d+1,keyAt key t.slots (pos t.mask (hash k) e)≠some k:=by
     intro e he
     rcases Nat.lt_succ_iff_lt_or_eq.mp he with he|rfl
     · exact hbefore e he
     · exact hk
    simp only [if_neg hk,and_mask ht.pow,pos_succ,if_neg hstart]
    by_cases hfar : d+1 > t.maxDisplacement
    · rw [if_pos hfar]
      refine .inr ⟨rfl,fun i hi=>?_⟩
      obtain ⟨e,he,rfl⟩:=ht.near i k hi
      exact absurd hi (hnext e (by omega))
    · rw [if_neg hfar]
      exact ih (d+1) (by omega) (by omega) hnext

theorem find_start (hpow:∃n,t.mask+1=2^n) (k:K) : hash k &&& t.mask=pos t.mask (hash k) 0 := by
 rw [and_mask hpow]
 rfl

theorem Probed.find_spec [DecidableEq K] (ht:Probed key hash t) (k:K) :
 (∃i s,find key hash t k=.found i ∧ t.slots[i]?=some s ∧ key s=some k) ∨
  (find key hash t k=.absent ∧ ∀s,¬ Has key t k s) := by
 rw [find,find_start ht.pow]
 rcases findLoop_spec ht k (t.mask+1) 0 (by omega) (by omega) (by omega) with
  ⟨i,hfind,hi⟩ | ⟨hfind,hno⟩
 · grind [keyAt_eq_some]
 · grind [exists_keyAt_of_has]

theorem emptyLoop_spec (hpow:∃n,t.mask+1=2^n) (h fuel d d₀:ℕ)
 (hfuel:d+fuel=t.mask+1) (hd:d ≤ d₀) (hd₀:d₀ < t.mask+1)
 (hempty:keyAt key t.slots (pos t.mask h d₀)=none)
 (hfirst:∀e < d₀,keyAt key t.slots (pos t.mask h e)≠none) :
 emptyLoop key t (pos t.mask h 0) fuel (pos t.mask h d) d=some (pos t.mask h d₀,d₀) := by
 induction fuel generalizing d with
 | zero=>omega
 | succ fuel ih=>
  unfold emptyLoop
  rcases Nat.lt_or_eq_of_le hd with hlt|rfl
  · have hstart:pos t.mask h (d+1)≠pos t.mask h 0:=fun he=>by
     have:=pos_inj (by omega) (by omega) he
     omega
    simp only [if_neg (hfirst d hlt),and_mask hpow,pos_succ,if_neg hstart]
    exact ih (d+1) (by omega) (by omega)
  · rw [if_pos hempty]

theorem length_le_countP (key:σ → Option K) {j:ℕ} (hj:j < slots.length)
 (h:∀i,i < slots.length → i≠j → keyAt key slots i≠none) :
 slots.length ≤ (slots.countP fun s=>(key s).isSome)+1 := by
 have hall:(slots.eraseIdx j).countP (fun s=>(key s).isSome)=(slots.eraseIdx j).length:=by
  grind [List.countP_eq_length,List.mem_eraseIdx_iff_getElem,keyAt,Option.isSome_iff_ne_none]
 grind [List.eraseIdx_sublist]

theorem exists_empty (ht:Probed key hash t) (h:ℕ) (hroom:t.num < t.mask) :
 ∃d < t.mask,keyAt key t.slots (pos t.mask h d)=none ∧
  ∀e < d,keyAt key t.slots (pos t.mask h e)≠none := by
 classical
 have hsize:=ht.size
 have hnum:=ht.num
 have hex:∃d < t.mask,keyAt key t.slots (pos t.mask h d)=none:=by
  by_contra hfull
  push Not at hfull
  have hlast:=pos_lt t.mask h t.mask
  have hcount:=length_le_countP key (hlast.trans_eq hsize.symm) fun i hi hne=>by
   obtain ⟨d,hd,rfl⟩:=exists_pos t.mask h (hi.trans_eq hsize)
   grind
  omega
 refine ⟨Nat.find hex,(Nat.find_spec hex).1,(Nat.find_spec hex).2,fun e he hnone=>?_⟩
 exact Nat.find_min hex he ⟨he.trans (Nat.find_spec hex).1,hnone⟩

theorem Probed.insert_spec (ht:Probed key hash t) (hs:key s=some k) (hroom:t.num < t.mask) :
 ∃t',insert key hash t s k=some t' ∧ Probed key hash t' ∧ t'.mask=t.mask ∧
  t'.num=t.num+1 ∧ used key t'.slots ~ s::used key t.slots := by
 obtain ⟨d,hd,hempty,hfirst⟩:=exists_empty ht (hash k) hroom
 have hsize:=ht.size
 have hi:pos t.mask (hash k) d < t.slots.length:=(pos_lt _ _ _).trans_eq hsize.symm
 have hloop:=emptyLoop_spec ht.pow (hash k) (t.mask+1) 0 d (by omega) (by omega) (by omega)
  hempty hfirst
 refine ⟨{ t with
  slots := t.slots.set (pos t.mask (hash k) d) s
  num := t.num+1
  maxDisplacement := if d > t.maxDisplacement then d else t.maxDisplacement },
  by rw [insert,find_start ht.pow,hloop]; rfl,?_,rfl,rfl,used_fill hi hempty hs⟩
 refine ⟨by simpa using hsize,ht.pow,?_,?_,?_⟩
 · grind [keyAt_set,ht.near]
 · simp only
   rw [List.countP_eq_length_filter,←ht.length_used]
   exact (used_fill hi hempty hs).length_eq.symm
 · have:=ht.room
   simp only
   split_ifs <;> omega

theorem insert_spec (ht:Wf key hash t) (hs:key s=some k) (hnew:∀x,¬ Has key t k x)
 (hroom:t.num < t.mask) :
 ∃t',insert key hash t s k=some t' ∧ Wf key hash t' ∧ t'.mask=t.mask ∧
  t'.num=t.num+1 ∧ ∀k' x,Has key t' k' x ↔ Has key t k' x ∨ (k'=k ∧ x=s) := by
 obtain ⟨t',hins,hprobed,hmask,hnum,hused⟩:=ht.toProbed.insert_spec hs hroom
 exact ⟨t',hins,⟨hprobed,(nodup_cons hused hs).mpr ⟨hnew,ht.nodup⟩⟩,hmask,hnum,
  has_cons hused hs⟩

theorem insert_some {t':Table σ} (h:insert key hash t s k=some t') :
 t'.mask=t.mask ∧ t'.num=t.num+1 := by
 obtain ⟨x,-,rfl⟩:=Option.map_eq_some_iff.mp h
 exact ⟨rfl,rfl⟩

theorem Probed.erase_spec (ht:Probed key hash t) {z:σ} (hi:t.slots[i]?=some s)
 (hs:key s=some k) (hz:key z=none) :
 Probed key hash {t with slots:=t.slots.set i z,num:=t.num-1} ∧
  used key t.slots ~ s::used key (t.slots.set i z) ∧ 0 < t.num := by
 have hlt:i < t.slots.length:=(List.getElem?_eq_some_iff.mp hi).1
 have hused:=used_clear hi hs hz
 have hnum:=ht.length_used
 rw [hused.length_eq,List.length_cons] at hnum
 refine ⟨⟨by simpa using ht.size,ht.pow,?_,?_,ht.room⟩,hused,by omega⟩
 · grind [keyAt_set,ht.near]
 · simp only
   rw [List.countP_eq_length_filter,←hnum]
   rfl

theorem erase_spec (ht:Wf key hash t) {z:σ} (hi:t.slots[i]?=some s) (hs:key s=some k)
 (hz:key z=none) :
 Wf key hash {t with slots:=t.slots.set i z,num:=t.num-1} ∧
  (∀k' x,Has key {t with slots:=t.slots.set i z,num:=t.num-1} k' x ↔
   k'≠k ∧ Has key t k' x) ∧ 0 < t.num := by
 obtain ⟨hprobed,hused,hpos⟩:=ht.toProbed.erase_spec hi hs hz
 obtain ⟨hnone,hnodup⟩ :=
  (nodup_cons (t:={t with slots:=t.slots.set i z,num:=t.num-1}) hused hs).mp ht.nodup
 refine ⟨⟨hprobed,hnodup⟩,fun k' x=>?_,hpos⟩
 rw [has_cons (t:={t with slots:=t.slots.set i z,num:=t.num-1}) hused hs k' x]
 grind

theorem replace_spec [DecidableEq K] (ht:Wf key hash t) {s':σ} (hi:t.slots[i]?=some s)
 (hs:key s=some k) (hs':key s'=some k) :
 Wf key hash {t with slots:=t.slots.set i s'} ∧
  ∀k' x,Has key {t with slots:=t.slots.set i s'} k' x ↔
   if k'=k then x=s' else Has key t k' x := by
 have hlt:i < t.slots.length:=(List.getElem?_eq_some_iff.mp hi).1
 have hsame:∀j,keyAt key (t.slots.set i s') j=keyAt key t.slots j:=by
  grind [keyAt_set,keyAt_eq_some]
 -- without the slot, the table is the same before and after
 have hused:=used_cons hs (t.slots.eraseIdx i) ▸ used_eraseIdx key hi
 have hused':=used_cons hs' (t.slots.eraseIdx i) ▸ used_set hlt s'
 have hcons:=nodup_cons (t:={t with slots:=t.slots.eraseIdx i}) hused hs
 have hcons':=nodup_cons (t:={t with slots:=t.slots.eraseIdx i})
  (u:={t with slots:=t.slots.set i s'}) hused' hs'
 obtain ⟨hnone,hnodup⟩:=hcons.mp ht.nodup
 refine ⟨⟨⟨by simpa using ht.size,ht.pow,?_,?_,ht.room⟩,hcons'.mpr ⟨hnone,hnodup⟩⟩,fun k' x=>?_⟩
 · grind [ht.near]
 · simp only
   rw [List.countP_eq_length_filter,←ht.length_used,hused.length_eq]
   exact hused'.length_eq.symm
 · rw [has_cons (t:={t with slots:=t.slots.eraseIdx i}) hused hs k' x,
    has_cons (t:={t with slots:=t.slots.eraseIdx i}) (u:={t with slots:=t.slots.set i s'})
     hused' hs' k' x]
   grind

theorem emptyTable_spec (key:σ → Option K) (hash:K → ℕ) {z:σ} (hz:key z=none) (n:ℕ) (hn:0 < n) :
 Wf key hash (emptyTable (2^n) z) ∧ used key (emptyTable (2^n) z).slots=[] := by
 have hpow:1<2^n:=Nat.one_lt_two_pow hn.ne'
 have hused:used key (emptyTable (2^n) z).slots=[]:=by
  rw [used,emptyTable,List.filter_replicate,hz]
  rfl
 refine ⟨⟨⟨?_,⟨n,?_⟩,fun i k h=>?_,?_,?_⟩,?_⟩,hused⟩
 · simp only [emptyTable,List.length_replicate]
   omega
 · simp only [emptyTable]
   omega
 · grind [keyAt,emptyTable]
 · simp [emptyTable,List.countP_replicate,hz]
 · simp only [emptyTable]
   omega
 · rw [←keys_used,hused]
   exact List.nodup_nil

theorem Probed.insertAll_spec (l:List σ) (ht:Probed key hash t)
 (hroom:t.num+(used key l).length ≤ t.mask) :
 ∃t',insertAll key hash l t=some t' ∧ Probed key hash t' ∧ t'.mask=t.mask ∧
  t'.num=t.num+(used key l).length ∧ used key t'.slots ~ used key l++used key t.slots := by
 induction l generalizing t with
 | nil=>exact ⟨t,rfl,ht,rfl,rfl,.refl _⟩
 | cons s rest ih=>
  cases hs : key s with
  | none=>grind [insertAll,used_skip]
  | some k=>
   rw [used_cons hs,List.length_cons] at hroom ⊢
   obtain ⟨t₁,hins,ht₁,hmask₁,hnum₁,hused₁⟩:=ht.insert_spec hs (by omega)
   obtain ⟨t',hrun,ht',hmask,hnum,hused⟩:=ih ht₁ (by omega)
   refine ⟨t',by rw [insertAll,hs]; simp only [hins,Option.bind_some,hrun],ht',
    hmask.trans hmask₁,by omega,hused.trans ?_⟩
   exact (hused₁.append_left _).trans List.perm_middle

theorem insertAll_none {l:List σ} (h:used key l=[]) (t:Table σ) :
 insertAll key hash l t=some t := by
 induction l with
 | nil=>rfl
 | cons s rest ih=>grind [insertAll,used_cons,used_skip]

theorem rehash_spec (ht:Wf key hash t) {z:σ} (hz:key z=none) (n:ℕ) (hn:0 < n) (hroom:t.num<2^n) :
 ∃t',insertAll key hash t.slots (emptyTable (2^n) z)=some t' ∧ Wf key hash t' ∧
  t'.mask+1=2^n ∧ t'.num=t.num ∧ ∀k x,Has key t' k x ↔ Has key t k x := by
 obtain ⟨hwf,hempty⟩:=emptyTable_spec key hash hz n hn
 have hlen:=ht.length_used
 have hmask:(emptyTable (2^n) z).mask=2^n-1:=rfl
 have hnone:(emptyTable (2^n) z).num=0:=rfl
 obtain ⟨t',hrun,hprobed,hm,hnum,hused⟩:=hwf.insertAll_spec t.slots (by omega)
 rw [hempty,List.append_nil] at hused
 refine ⟨t',hrun,⟨hprobed,?_⟩,by omega,by omega,fun k x=>by rw [has_iff,has_iff,hused.mem_iff]⟩
 rw [←keys_used,(hused.filterMap key).nodup_iff,keys_used]
 exact ht.nodup

end ObjcRuntime.ProbeTable
