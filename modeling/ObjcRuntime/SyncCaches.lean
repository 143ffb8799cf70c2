import ObjcRuntime.SyncData

/-!
A thread's two caches as counts: for every node, how often the thread has it locked.
-/

set_option autoImplicit false
namespace ObjcRuntime.SyncData
open Function

def lockCounts (l:List SyncCacheItem) (n:ℕ) : ℕ :=
 (l.map fun item=>if item.data=n then item.lockCount else 0).sum

@[simp]
theorem lockCounts_cons (item:SyncCacheItem) (l:List SyncCacheItem) (n:ℕ) :
 lockCounts (item::l) n=(if item.data=n then item.lockCount else 0)+lockCounts l n := by
 simp [lockCounts]

variable {l:List SyncCacheItem}

theorem lockCounts_perm {l':List SyncCacheItem} (h:l.Perm l') : lockCounts l=lockCounts l' := by
 funext n
 exact (h.map _).sum_eq

theorem lockCounts_eq_zero {n:ℕ} (h:∀item∈l,item.data≠n) : lockCounts l n=0 := by
 induction l with
 | nil=>rfl
 | cons item l ih=>simp_all

theorem lockCounts_pos_of_mem {item:SyncCacheItem} (mem:item∈l)
 (positive:0 < item.lockCount) : 0 < lockCounts l item.data := by
 induction l with
 | nil=>cases mem
 | cons other l ih=>grind [lockCounts_cons]

structure Clean (l:List SyncCacheItem) : Prop where
 distinct : (l.map SyncCacheItem.data).Nodup
 positive : ∀item∈l,0 < item.lockCount

theorem Clean.perm {l':List SyncCacheItem} (h:Clean l) (p:l.Perm l') : Clean l' :=
 ⟨(p.map _).nodup_iff.mp h.distinct,fun item hitem=>h.positive item (p.mem_iff.mpr hitem)⟩

theorem Clean.lockCounts_pos_iff (h:Clean l) (n:ℕ) : 0 < lockCounts l n ↔ ∃item∈l,item.data=n := by
 constructor
 · grind [lockCounts_eq_zero]
 · grind [lockCounts_pos_of_mem,h.positive]

def Usage.count (why:Usage) (k:ℕ) : ℕ :=
 match why with
 | .acquire=>k+1
 | .release=>k-1
 | .check=>k

section Use

variable {item:SyncCacheItem} {rest:List SyncCacheItem} {why:Usage} {w:ℕ}

theorem Clean.lockCounts_rest (h:Clean (item::rest)) : lockCounts rest item.data=0 := by
 grind [lockCounts_eq_zero,h.distinct]

theorem Clean.tail (h:Clean (item::rest)) : Clean rest :=
 ⟨(List.nodup_cons.mp h.distinct).2,fun other mem=>h.positive other (List.mem_cons_of_mem _ mem)⟩

theorem Clean.replace (h:Clean (item::rest)) {k:ℕ} (hk:0 < k) : Clean (⟨item.data,k⟩::rest) := by
 refine ⟨h.distinct,?_⟩
 rintro other (_|⟨_,mem⟩)
 · exact hk
 · exact h.positive other (List.mem_cons_of_mem _ mem)

theorem SyncCacheItem.use_of_count_eq_zero (positive:0 < item.lockCount)
 (h:why.count item.lockCount=0) : item.use w why=none := by
 cases why with
 | acquire=>cases h
 | release=>exact if_pos h
 | check=>exact absurd h positive.ne'

theorem SyncCacheItem.use_of_count_pos (fits:why=.acquire → item.lockCount+1 < 2^w)
 (h:0 < why.count item.lockCount) : item.use w why=some ⟨item.data,why.count item.lockCount⟩ := by
 cases why with
 | acquire=>rw [SyncCacheItem.use,Nat.mod_eq_of_lt (fits rfl),Usage.count]
 | release=>exact if_neg h.ne'
 | check=>rfl

theorem Clean.use (h:Clean (item::rest)) (fits:why=.acquire → item.lockCount+1 < 2^w) :
 Clean ((item.use w why).toList++rest) := by
 rcases Nat.eq_zero_or_pos (why.count item.lockCount) with zero|pos
 · rw [item.use_of_count_eq_zero (h.positive item List.mem_cons_self) zero]
   exact h.tail
 · rw [item.use_of_count_pos fits pos]
   exact h.replace pos

theorem Clean.lockCounts_head (h:Clean (item::rest)) :
 lockCounts (item::rest) item.data=item.lockCount := by
 rw [lockCounts_cons,if_pos rfl,h.lockCounts_rest,Nat.add_zero]

theorem Clean.lockCounts_use (h:Clean (item::rest))
 (fits:why=.acquire → item.lockCount+1 < 2^w) : lockCounts ((item.use w why).toList++rest) =
  update (lockCounts (item::rest)) item.data
   (why.count (lockCounts (item::rest) item.data)) := by
 have alone:=h.lockCounts_head
 grind [item.use_of_count_eq_zero,h.positive,item.use_of_count_pos,lockCounts]

theorem Clean.use_isNone (h:Clean (item::rest)) (fits:why=.acquire → item.lockCount+1 < 2^w) :
 (item.use w why).isNone=decide (lockCounts ((item.use w why).toList++rest) item.data=0) := by
 rw [h.lockCounts_use fits,update_self,h.lockCounts_head]
 grind [item.use_of_count_eq_zero,h.positive,item.use_of_count_pos]

end Use

theorem removeSlot_perm {α:Type} (before:List α) (x:α) (after:List α) :
 (removeSlot (before++x::after) before.length).Perm (before++after) := by
 rcases List.eq_nil_or_concat after with rfl|⟨after,last,rfl⟩
 · simp [removeSlot]
 · have hlast:(before++x::(after++[last])).getLast?=some last:=by
    rw [←List.cons_append,←List.append_assoc,List.getLast?_concat]
   simp only [removeSlot,List.concat_eq_append,hlast]
   simp only [List.set_append,Nat.lt_irrefl,if_false,Nat.sub_self,List.set_cons_zero]
   rw [←List.cons_append,←List.append_assoc,List.dropLast_concat]
   exact (List.perm_append_singleton last after).symm.append_left before

def Caches.items (c:Caches) : List SyncCacheItem :=
 c.fast.toList++c.cache.elim [] SyncCache.list

def Caches.count (c:Caches) (n:ℕ) : ℕ :=
 lockCounts c.items n

def Caches.Holds (c:Caches) (n:ℕ) : Prop :=
 ∃item∈c.items,item.data=n

structure Caches.Wf (c:Caches) : Prop where
 clean : Clean c.items
 room : ∀cache,c.cache=some cache → 0 < cache.allocated ∧ cache.list.length ≤ cache.allocated

def Caches.OpenSlot (c:Caches) : Prop :=
 ∀cache,c.cache=some cache → cache.list.length < cache.allocated

theorem Caches.Wf.count_pos_iff {c:Caches} (wf:c.Wf) (n:ℕ) : 0 < c.count n ↔ c.Holds n :=
 wf.clean.lockCounts_pos_iff n

theorem Caches.Wf.eq_of_perm {c:Caches} (wf:c.Wf) (c':Caches) (p:c.items.Perm c'.items)
 (room:∀cache,c'.cache=some cache → 0 < cache.allocated ∧ cache.list.length ≤ cache.allocated) :
 c'.Wf ∧ c'.count=c.count :=
 ⟨⟨wf.clean.perm p,room⟩,(lockCounts_perm p).symm⟩

section Search

variable {s:Shared} {object:ℕ} {why:Usage} {c:Caches}

structure Found (s:Shared) (object:ℕ) (why:Usage) (c:Caches) (n:ℕ) (c':Caches) : Prop where
 object : s.object n=object
 held : 0 < c.count n
 wf : c'.Wf
 count : c'.count=update c.count n (why.count (c.count n))
 fewer : c'.items.length ≤ c.items.length

structure Missed (s:Shared) (object:ℕ) (c c':Caches) : Prop where
 none : ∀n,0 < c.count n → s.object n≠object
 wf : c'.Wf
 count : c'.count=c.count
 fewer : c'.items.length ≤ c.items.length
 openSlot : c'.OpenSlot

def Searched (s:Shared) (object:ℕ) (why:Usage) (c:Caches) (r:CacheResult) : Prop :=
 (∃n c',r=.found n (decide (c'.count n=0)) c' ∧ Found s object why c n c') ∨
  ∃c',r=.missed c' ∧ Missed s object c c'

variable {item:SyncCacheItem}

theorem SyncCacheItem.isBuggy_eq_false (live:0 < s.threadCount item.data)
 (positive:0 < item.lockCount) :
 item.isBuggy s=false := by grind [SyncCacheItem.isBuggy]

theorem SyncCacheItem.length_use (item:SyncCacheItem) (w:ℕ) (why:Usage) :
 (item.use w why).toList.length≤1 := by
 cases item.use w why <;> simp

theorem Caches.Wf.found {rest:List SyncCacheItem} {w:ℕ} (wide:32 ≤ w) (wf:c.Wf)
 (fits:why=.acquire → ∀n,s.object n=object → c.count n+1 < 2^32)
 (c':Caches) (before:c.items.Perm (item::rest))
 (after:c'.items.Perm ((item.use w why).toList++rest)) (object_eq:s.object item.data=object)
 (room:∀cache,c'.cache=some cache → 0 < cache.allocated ∧ cache.list.length ≤ cache.allocated) :
 (item.use w why).isNone=decide (c'.count item.data=0) ∧
  Found s object why c item.data c' := by
 have clean:=wf.clean.perm before
 have count:c.count=lockCounts (item::rest):=lockCounts_perm before
 have count':c'.count=lockCounts ((item.use w why).toList++rest):=lockCounts_perm after
 have room':why=.acquire → item.lockCount+1 < 2^w:=by
  intro acquire
  have bound:=fits acquire item.data object_eq
  rw [count,clean.lockCounts_head] at bound
  exact bound.trans_le (Nat.pow_le_pow_right Nat.two_pos wide)
 refine ⟨count' ▸ clean.use_isNone room',object_eq,?_,⟨(clean.use room').perm after.symm,room⟩,
  ?_,?_⟩
 · rw [count]
   exact lockCounts_pos_of_mem List.mem_cons_self (clean.positive item List.mem_cons_self)
 · rw [count,count',clean.lockCounts_use room']
 · have used:=item.length_use w why
   rw [before.length_eq,after.length_eq,List.length_append,List.length_cons]
   omega

theorem SyncCache.openSlot_list (cache:SyncCache) : cache.openSlot.list=cache.list := by
 unfold SyncCache.openSlot
 split <;> rfl

theorem SyncCache.openSlot_room {cache:SyncCache} (pos:0 < cache.allocated)
 (fits:cache.list.length ≤ cache.allocated) (few:cache.list.length < 2^31) :
 cache.openSlot.list.length < cache.openSlot.allocated := by grind [SyncCache.openSlot]

theorem exists_of_findIdx? {p:SyncCacheItem → Bool} {i:ℕ} (h:l.findIdx? p=some i) :
 ∃before item after,l=before++item::after ∧ i=before.length ∧ p item=true := by
 obtain ⟨lt,hp,-⟩:=List.findIdx?_eq_some_iff_getElem.mp h
 refine ⟨l.take i,l[i],l.drop (i+1),?_,?_,hp⟩
 · rw [List.cons_getElem_drop_succ,List.take_append_drop]
 · rw [List.length_take,Nat.min_eq_left lt.le]

theorem useSlot_perm {cache:SyncCache} {before after:List SyncCacheItem}
 (split:cache.list=before++item::after) (why:Usage) :
 (useSlot why cache before.length item).list.Perm
  ((item.use 32 why).toList++(before++after)) := by
 cases h : item.use 32 why with
 | none=>grind [useSlot,removeSlot_perm]
 | some used=>grind [useSlot]

theorem useSlot_allocated (cache:SyncCache) (i:ℕ) (item:SyncCacheItem) :
 (useSlot why cache i item).allocated=cache.allocated := by
 unfold useSlot
 split <;> rfl

theorem searchCache_spec (wf:c.Wf) (live:∀n,0 < c.count n → 0 < s.threadCount n)
 (fits:why=.acquire → ∀n,s.object n=object → c.count n+1 < 2^32) (few:c.items.length < 2^31)
 (other:∀item,c.fast=some item → s.object item.data≠object) :
 Searched s object why c (searchCache s object why c) := by
 obtain ⟨fast,cache⟩:=c
 cases cache with
 | none=>
  refine .inr ⟨_,rfl,fun n held=>?_,wf,rfl,le_rfl,fun _ h=>by cases h⟩
  obtain ⟨item,mem,rfl⟩:=(wf.count_pos_iff n).mp held
  grind [Caches.items]
 | some cache=>
  obtain ⟨pos,room⟩:=wf.room cache rfl
  have slot:=SyncCache.openSlot_room pos room (by simp [Caches.items] at few; omega)
  have list:=cache.openSlot_list
  simp only [searchCache,fetchCache,Bool.false_eq_true,if_false,Option.map_some]
  -- from here on the cache is the one with an open slot
  generalize cache.openSlot=fetched at *
  have same:(Caches.mk fast (some cache)).items=(Caches.mk fast (some fetched)).items:=by
   simp only [Caches.items,Option.elim_some,list]
  cases found : fetched.list.findIdx? (fun item=>decide (s.object item.data=object)) with
  | none=>
   have absent:=List.findIdx?_eq_none_iff.mp found
   obtain ⟨wf',count⟩:=wf.eq_of_perm ⟨fast,some fetched⟩ (.of_eq same)
    (by rintro _ ⟨⟩; omega)
   refine .inr ⟨_,rfl,fun n held=>?_,wf',count,same.symm ▸ le_rfl,by rintro _ ⟨⟩; exact slot⟩
   obtain ⟨item,mem,rfl⟩:=(wf.count_pos_iff n).mp held
   grind [Caches.items]
  | some i=>
   obtain ⟨before,item,after,split,rfl,hobject⟩:=exists_of_findIdx? found
   have perm:(Caches.mk fast (some cache)).items.Perm
    (item::(fast.toList++(before++after))) := by grind [Caches.items]
   have mem:item∈(Caches.mk fast (some cache)).items :=
    perm.mem_iff.mpr List.mem_cons_self
   have positive:=wf.clean.positive item mem
   have sound:item.isBuggy s=false :=
    item.isBuggy_eq_false (live item.data (lockCounts_pos_of_mem mem positive)) positive
   have slots:=useSlot_perm split why
   have length:=slots.length_eq
   have used:=item.length_use 32 why
   have total:=congrArg List.length split
   have here:fetched.list[before.length]?=some item:=by simp [split]
   simp only [here,sound,Bool.false_eq_true,if_false]
   obtain ⟨removed,hfound⟩:=wf.found (s:=s) le_rfl fits
    ⟨fast,some (useSlot why fetched before.length item)⟩ perm
    ((slots.append_left _).trans (List.perm_append_comm_assoc _ _ _)) (of_decide_eq_true hobject)
    (by
     rintro _ ⟨⟩
     rw [useSlot_allocated]
     simp only [List.length_append,List.length_cons] at length total
     omega)
   exact .inl ⟨_,_,by rw [removed],hfound⟩

variable (object why) in
theorem searchCaches_spec (wf:c.Wf) (live:∀n,0 < c.count n → 0 < s.threadCount n)
 (fits:why=.acquire → ∀n,s.object n=object → c.count n+1 < 2^32) (few:c.items.length < 2^31) :
 Searched s object why c (searchCaches s object why c) := by
 unfold searchCaches
 split
 next item fast=>
  split
  next same=>
   have items:c.items=item::c.cache.elim [] SyncCache.list:=by
    rw [Caches.items,fast]
    rfl
   have mem:item∈c.items:=items ▸ List.mem_cons_self
   have positive:=wf.clean.positive item mem
   rw [item.isBuggy_eq_false (live item.data (lockCounts_pos_of_mem mem positive)) positive]
   obtain ⟨removed,found⟩:=wf.found (s:=s) (w:=64) (by omega) fits ⟨item.use 64 why,c.cache⟩
    (.of_eq items)
    (.refl _) same wf.room
   exact .inl ⟨_,_,by rw [if_neg Bool.false_ne_true,removed],found⟩
  grind [searchCache_spec]
 grind [searchCache_spec]

end Search

theorem Caches.Wf.save {c:Caches} (wf:c.Wf) (slot:c.OpenSlot) {n:ℕ} (fresh:c.count n=0) :
 ∃c',c.save n=.ok c' ∧ c'.Wf ∧ c'.count=update c.count n 1 ∧ c'.items.length=c.items.length+1 := by
 have clean:Clean (⟨n,1⟩::c.items):=by
  constructor
  · rw [List.map_cons,List.nodup_cons]
    refine ⟨fun mem=>?_,wf.clean.distinct⟩
    obtain ⟨item,hitem,rfl⟩:=List.mem_map.mp mem
    exact (lockCounts_pos_of_mem hitem (wf.clean.positive item hitem)).ne' fresh
  · rintro item (_|⟨_,mem⟩)
    · exact Nat.one_pos
    · exact wf.clean.positive item mem
 have count:lockCounts (⟨n,1⟩::c.items)=update c.count n 1:=by
  grind [lockCounts_cons,Caches.count]
 have saved:∃c',c.save n=.ok c' ∧ c'.items.Perm (⟨n,1⟩::c.items) ∧ ∀cache,c'.cache=some cache →
   0 < cache.allocated ∧ cache.list.length ≤ cache.allocated := by
  obtain ⟨fast,cache⟩:=c
  cases fast with
  | none=>exact ⟨_,rfl,.refl _,wf.room⟩
  | some item=>
   cases cache with
   | none=>
    refine ⟨_,rfl,.swap _ _ _,?_⟩
    rintro _ ⟨⟩
    exact ⟨Nat.succ_pos 3,Nat.succ_le_succ (Nat.zero_le 3)⟩
   | some cache=>
    have room:=slot cache rfl
    refine ⟨_,if_pos room,?_,?_⟩
    · exact ((List.perm_append_singleton _ _).cons item).trans (.swap _ _ _)
    · grind
 obtain ⟨c',hsave,perm,room⟩:=saved
 exact ⟨c',hsave,⟨clean.perm perm.symm,room⟩,(lockCounts_perm perm).trans count,perm.length_eq⟩

end ObjcRuntime.SyncData
