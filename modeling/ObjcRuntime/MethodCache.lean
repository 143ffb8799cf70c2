import ObjcRuntime.DescendingProbe

/-!
# The method cache

`cache_t` of the arm64 LP64 configuration, with the bucket arrays on a heap.  Imps are kept
decoded.
-/

set_option autoImplicit false
namespace ObjcRuntime.MethodCache
open DescendingProbe

structure Bucket where
 imp : ℕ
 sel : ℕ
 deriving DecidableEq

def Bucket.zero : Bucket := ⟨0,0⟩

def selAt (b:List Bucket) (i:ℕ) : ℕ := (b.getD i .zero).sel

def stopsAt (b:List Bucket) (sel i:ℕ) : Bool := selAt b i == 0 || selAt b i == sel

def initCacheSize : ℕ := 2
def maxCacheSize : ℕ := 65536
def fullUtilizationCacheSize : ℕ := 8

def cacheFillRatio (capacity:ℕ) : ℕ := capacity*7 / 8

/-- `cache_hash`; `preopt` is `CONFIG_USE_PREOPT_CACHES`. -/
def cacheHash (preopt:Bool) (sel mask:ℕ) : ℕ :=
 (if preopt then sel ^^^ (sel >>> 7) else sel) &&& mask

def cacheNext (i mask:ℕ) : ℕ := next mask i

def bytesForCapacity (cap:ℕ) : ℕ := 16*cap
def emptyBytes : ℕ := 16*1025

/-- The bucket arrays by address, and the list of shared empty arrays that
`emptyBucketsForCapacity` keeps. -/
structure Heap where
 arrays : List (List Bucket)
 emptyBucketsList : List ℕ

namespace Heap

def array (h:Heap) (id:ℕ) : List Bucket := h.arrays.getD id []

def calloc (h:Heap) (n:ℕ) : Heap × ℕ :=
 ({h with arrays:=h.arrays++[List.replicate n .zero]},h.arrays.length)

def store (h:Heap) (id i:ℕ) (b:Bucket) : Heap :=
 {h with arrays:=h.arrays.set id ((h.array id).set i b)}

def initial : Heap := ⟨[List.replicate 1025 .zero],[]⟩

end Heap

def emptyBuckets : ℕ := 0

def emptyBucketsForCapacity (h:Heap) (capacity:ℕ) (allocate:Bool) : Heap × Option ℕ :=
 if bytesForCapacity capacity ≤ emptyBytes then (h,some emptyBuckets)
 else
  let index:=Nat.log2 capacity
  if index < h.emptyBucketsList.length then (h,h.emptyBucketsList[index]?)
  else if allocate then
   let (h',newBuckets):=h.calloc capacity
   let more:=List.replicate (index+1-h.emptyBucketsList.length) newBuckets
   ({h' with emptyBucketsList:=h.emptyBucketsList++more},some newBuckets)
  else (h,none)

/-- `cache_t`, with the two halves of `_bucketsAndMaybeMask` as fields and the class's
"disallow preoptimized caches" bit. -/
structure Cache where
 buckets : ℕ
 mask : ℕ
 occupied : ℕ
 disallowPreopt : Bool
 deriving DecidableEq

namespace Cache

def initializeToEmpty : Cache := ⟨emptyBuckets,0,0,false⟩

def capacity (c:Cache) : ℕ := if c.mask≠0 then c.mask+1 else 0

def setBucketsAndMask (c:Cache) (newBuckets newMask:ℕ) : Cache :=
 {c with buckets:=newBuckets,mask:=newMask,occupied:=0}

/-- `_occupied` has sixteen bits. -/
def incrementOccupied (c:Cache) : Cache :=
 {c with occupied:=(c.occupied+1) % 2^16}

def isConstantEmptyCache (c:Cache) (h:Heap) : Bool :=
 c.occupied == 0 && (emptyBucketsForCapacity h c.capacity false).2 == some c.buckets

/-- Arrays of the heap are aligned, so the marker bit of a preoptimized cache is clear. -/
def isConstantOptimizedCache (c:Cache) (preopt:Bool) : Bool :=
 preopt && c.mask == 0 && c.buckets != emptyBuckets

def reallocate (h:Heap) (c:Cache) (newCapacity:ℕ) : Heap × Cache :=
 let (h',newBuckets):=h.calloc newCapacity
 (h',c.setBucketsAndMask newBuckets (newCapacity-1))

def makeRoom (h:Heap) (c:Cache) : Heap × Cache :=
 let newOccupied:=c.occupied+1
 if c.isConstantEmptyCache h then
  reallocate h c (if c.capacity=0 then initCacheSize else c.capacity)
 else if newOccupied ≤ cacheFillRatio c.capacity then (h,c)
 else if c.capacity ≤ fullUtilizationCacheSize ∧ newOccupied ≤ c.capacity then (h,c)
 else
  let doubled:=if c.capacity≠0 then c.capacity*2 else initCacheSize
  reallocate h c (if maxCacheSize < doubled then maxCacheSize else doubled)

def findSlot (preopt:Bool) (h:Heap) (c:Cache) (sel:ℕ) : Option ℕ :=
 scan (stopsAt (h.array c.buckets) sel) c.mask (cacheHash preopt sel c.mask) (c.mask+1)
  (cacheHash preopt sel c.mask)

end Cache

inductive Fatal where
 | preoptimizedCache
 | badCache
 deriving DecidableEq

abbrev State := Heap × Cache

def storeEntry (preopt:Bool) (s:State) (sel imp:ℕ) : Except Fatal State :=
 match s.2.findSlot preopt s.1 sel with
 | some i=>
  if selAt (s.1.array s.2.buckets) i=0 then
   .ok (s.1.store s.2.buckets i ⟨imp,sel⟩,s.2.incrementOccupied)
  else .ok s
 | none=>.error .badCache

def insert (preopt:Bool) (s:State) (sel imp:ℕ) : Except Fatal State :=
 if s.2.isConstantOptimizedCache preopt then .error .preoptimizedCache
 else storeEntry preopt (s.2.makeRoom s.1) sel imp

def eraseNolock (preopt:Bool) (s:State) : State :=
 if s.2.isConstantOptimizedCache preopt then
  (s.1,{s.2.setBucketsAndMask emptyBuckets 0 with disallowPreopt:=true})
 else if 0 < s.2.occupied then
  let (h,buckets):=emptyBucketsForCapacity s.1 s.2.capacity true
  (h,s.2.setBucketsAndMask (buckets.getD emptyBuckets) (s.2.capacity-1))
 else s

/-- The probe of a lookup: the slot of `sel` before the first empty bucket. -/
def lookup (preopt:Bool) (s:State) (sel:ℕ) : Option ℕ :=
 (s.2.findSlot preopt s.1 sel).filter fun i=>selAt (s.1.array s.2.buckets) i == sel

/-- What happens to one class's cache; `elsewhere` is another class's erasure, which shares the
list of empty arrays. -/
inductive Op where
 | insert (sel imp:ℕ)
 | erase
 | elsewhere (capacity:ℕ)

def Op.Valid : Op → Prop
 | .insert sel _=>sel≠0
 | _=>True

def step (preopt:Bool) (s:State) : Op → Except Fatal State
 | .insert sel imp=>insert preopt s sel imp
 | .erase=>.ok (eraseNolock preopt s)
 | .elsewhere capacity=>.ok ((emptyBucketsForCapacity s.1 capacity true).1,s.2)

def run (preopt:Bool) (s:State) : List Op → Except Fatal State
 | []=>.ok s
 | op::ops=>do
  let s' ← step preopt s op
  run preopt s' ops

structure Heap.Valid (h:Heap) : Prop where
 base : h.arrays[emptyBuckets]?=some (List.replicate 1025 .zero)
 shared : ∀{k id:ℕ},h.emptyBucketsList[k]?=some id →
  ∃n,2^k ≤ n ∧ h.arrays[id]?=some (List.replicate n .zero)

def fillLimit (capacity:ℕ) : ℕ :=
 if capacity ≤ fullUtilizationCacheSize then capacity else cacheFillRatio capacity

structure Packed (preopt:Bool) (b:List Bucket) (mask occupied:ℕ) : Prop where
 length : b.length=mask+1
 count : occupied=b.countP (fun x=>x.sel != 0)
 limit : occupied ≤ fillLimit (mask+1)
 distinct : ∀{i j:ℕ},selAt b i≠0 → selAt b i=selAt b j → i=j
 reach : ∀{i:ℕ},selAt b i≠0 → ∀d < distance mask (cacheHash preopt (selAt b i) mask) i,
  selAt b (slotAt mask (cacheHash preopt (selAt b i) mask) d)≠0

def MaskOk (mask:ℕ) : Prop := ∃k,1 ≤ k ∧ k≤16 ∧ mask+1=2^k

structure Owned (preopt:Bool) (h:Heap) (c:Cache) (b:List Bucket) : Prop where
 mask : MaskOk c.mask
 base : c.buckets≠emptyBuckets
 unshared : c.buckets∉h.emptyBucketsList
 array : h.arrays[c.buckets]?=some b
 packed : Packed preopt b c.mask c.occupied

inductive Holds (preopt:Bool) (h:Heap) (c:Cache) : Prop where
 | fresh (buckets:c.buckets=emptyBuckets) (mask:c.mask=0) (occupied:c.occupied=0)
 | erased (mask:MaskOk c.mask) (occupied:c.occupied=0)
  (shared:emptyBucketsForCapacity h c.capacity false=(h,some c.buckets))
 | owned (b:List Bucket) (owned:Owned preopt h c b)

structure Inv (preopt:Bool) (s:State) : Prop where
 heap : s.1.Valid
 holds : Holds preopt s.1 s.2

variable {id i sel:ℕ} {s:State}

theorem Heap.array_eq {h:Heap} {b:List Bucket} (hb:h.arrays[id]?=some b) : h.array id=b := by
 rw [Heap.array,List.getD_eq_getElem?_getD,hb,Option.getD_some]

theorem selAt_zeroed (n i:ℕ) : selAt (List.replicate n .zero) i=0 := by
 rw [selAt,List.getD_eq_getElem?_getD,List.getElem?_replicate]
 split <;> rfl

theorem selAt_of_le {b:List Bucket} (hi:b.length ≤ i) : selAt b i=0 := by
 rw [selAt,List.getD_eq_getElem?_getD,List.getElem?_eq_none hi]
 rfl

theorem selAt_set {b:List Bucket} (hi:i < b.length) (x:Bucket) (j:ℕ) :
 selAt (b.set i x) j=if i=j then x.sel else selAt b j := by grind [selAt]

structure Heap.Grows (h h':Heap) : Prop where
 arrays : h.arrays <+: h'.arrays
 shared : ∃more,h'.emptyBucketsList=h.emptyBucketsList++more ∧ ∀id∈more,h.arrays.length ≤ id

theorem Heap.Grows.refl (h:Heap) : h.Grows h :=
 ⟨List.prefix_rfl,[],by simp,by simp⟩

theorem Heap.Grows.get {h h':Heap} (hg:h.Grows h') {b:List Bucket}
 (hb:h.arrays[id]?=some b) : h'.arrays[id]?=some b := by
 obtain ⟨more,hmore⟩:=hg.arrays
 grind

theorem Heap.Grows.unshared {h h':Heap} (hg:h.Grows h') (hid:id < h.arrays.length)
 (hun:id∉h.emptyBucketsList) : id∉h'.emptyBucketsList := by grind [hg.shared]

theorem emptyBucketsForCapacity_found {h h':Heap} (hg:h.Grows h') {capacity:ℕ}
 (hfound:emptyBucketsForCapacity h capacity false=(h,some id)) :
 emptyBucketsForCapacity h' capacity false=(h',some id) := by
 obtain ⟨more,hmore,-⟩:=hg.shared
 grind [emptyBucketsForCapacity]

theorem Heap.calloc_grows (h:Heap) (n:ℕ) : h.Grows (h.calloc n).1 :=
 ⟨List.prefix_append _ _,[],by simp [Heap.calloc],by simp⟩

theorem Heap.calloc_get (h:Heap) (n:ℕ) :
 (h.calloc n).1.arrays[(h.calloc n).2]?=some (List.replicate n .zero) := by
 simp [Heap.calloc]

theorem Heap.Valid.calloc {h:Heap} (hv:h.Valid) (n:ℕ) : (h.calloc n).1.Valid where
 base := (h.calloc_grows n).get hv.base
 shared hk := by
  obtain ⟨m,hm,harr⟩:=hv.shared hk
  exact ⟨m,hm,(h.calloc_grows n).get harr⟩

theorem emptyBucketsForCapacity_spec {h:Heap} (hv:h.Valid) (capacity:ℕ) :
 ∃h' id,emptyBucketsForCapacity h capacity true=(h',some id) ∧ h'.Valid ∧ h.Grows h' ∧
  emptyBucketsForCapacity h' capacity false=(h',some id) := by
 unfold emptyBucketsForCapacity
 by_cases hsmall : bytesForCapacity capacity ≤ emptyBytes
 · exact ⟨h,emptyBuckets,by simp [hsmall],hv,.refl h,by simp [hsmall]⟩
 by_cases hindex : Nat.log2 capacity < h.emptyBucketsList.length
 · exact ⟨h,h.emptyBucketsList[Nat.log2 capacity],by simp [hsmall,hindex],hv,.refl h,
    by simp [hsmall,hindex]⟩
 -- the shared array is new: it stands for every size up to this one
 have hsize:2^Nat.log2 capacity ≤ capacity:=by
  apply Nat.log2_self_le
  rintro rfl
  simp [bytesForCapacity] at hsmall
 let more:=List.replicate (Nat.log2 capacity+1-h.emptyBucketsList.length)
  (h.calloc capacity).2
 refine ⟨⟨(h.calloc capacity).1.arrays,h.emptyBucketsList++more⟩,(h.calloc capacity).2,
  by simp only [if_neg hsmall,if_neg hindex,if_true]; rfl,?_,?_,?_⟩
 · refine ⟨(hv.calloc capacity).base,fun {k id} hk=>?_⟩
   have hklen:=(List.getElem?_eq_some_iff.mp hk).1
   simp only [more,List.length_append,List.length_replicate] at hklen
   rcases Nat.lt_or_ge k h.emptyBucketsList.length with hold|hnew
   · rw [List.getElem?_append_left hold] at hk
     exact (hv.calloc capacity).shared hk
   · rw [List.getElem?_append_right hnew,List.getElem?_replicate,if_pos (by omega)] at hk
     cases hk
     refine ⟨capacity,le_trans (Nat.pow_le_pow_right (by omega) (by omega)) hsize,?_⟩
     exact h.calloc_get capacity
 · refine ⟨(h.calloc_grows capacity).arrays,_,rfl,fun id hid=>?_⟩
   rw [(List.mem_replicate.mp hid).2]
   exact le_rfl
 · have hlong:Nat.log2 capacity < (h.emptyBucketsList++more).length:=by
    simp only [more,List.length_append,List.length_replicate]
    omega
   simp only [if_neg hsmall,if_pos hlong]
   rw [List.getElem?_append_right (by omega),List.getElem?_replicate,if_pos (by omega)]

theorem shared_zeroed {h:Heap} (hv:h.Valid) {k:ℕ}
 (hfound:emptyBucketsForCapacity h (2^k) false=(h,some id)) :
 ∃n,2^k ≤ n ∧ h.arrays[id]?=some (List.replicate n .zero) := by
 unfold emptyBucketsForCapacity at hfound
 split at hfound
 · grind [bytesForCapacity,emptyBytes,hv.base]
 · grind [Nat.log2_two_pow,hv.shared]

theorem cacheHash_le (preopt:Bool) (sel mask:ℕ) : cacheHash preopt sel mask ≤ mask :=
 Nat.and_le_right

theorem fillLimit_le (capacity:ℕ) : fillLimit capacity ≤ capacity := by
 unfold fillLimit cacheFillRatio
 split <;> omega

theorem packed_zeroed (preopt:Bool) (mask:ℕ) :
 Packed preopt (List.replicate (mask+1) .zero) mask 0 where
 length := List.length_replicate
 count := by simp [List.countP_replicate,Bucket.zero]
 limit := Nat.zero_le _
 distinct hi := absurd (selAt_zeroed _ _) hi
 reach hi := absurd (selAt_zeroed _ _) hi

section PackedLemmas

variable {preopt:Bool} {b:List Bucket} {mask occupied:ℕ}

section

variable (hp:Packed preopt b mask occupied)
include hp

theorem Packed.le_mask (hi:selAt b i≠0) : i ≤ mask := by
 by_contra hlt
 exact hi (selAt_of_le (by rw [hp.length]; omega))

theorem Packed.exists_empty
 (hroom:occupied+1 ≤ fillLimit (mask+1)) : ∃i ≤ mask,selAt b i=0 := by
 by_contra hfull
 push Not at hfull
 have hall:b.countP (fun x=>x.sel != 0)=b.length:=by
  rw [List.countP_eq_length]
  intro x hx
  obtain ⟨i,hi,rfl⟩:=List.getElem_of_mem hx
  have hne:=hfull i (by have:=hp.length; omega)
  grind [selAt]
 grind [hp.count,hp.length,fillLimit_le]

theorem Packed.found (hi:selAt b i≠0) :
 scan (stopsAt b (selAt b i)) mask (cacheHash preopt (selAt b i) mask) (mask+1)
  (cacheHash preopt (selAt b i) mask)=some i := by
 have hle:=hp.le_mask hi
 have hfirst:=cacheHash_le preopt (selAt b i) mask
 have hslot:=slotAt_distance (cacheHash preopt (selAt b i) mask) hle
 have hscan:=scan_eq_some (stopsAt b (selAt b i)) hfirst (distance_le hfirst hle)
 rw [hslot] at hscan
 apply hscan
 · simp [stopsAt]
 · intro d hd
   have hfull:=hp.reach hi d hd
   have hother:selAt b (slotAt mask (cacheHash preopt (selAt b i) mask) d)≠selAt b i:=by
    intro hsame
    have hd':=distance_slotAt (cacheHash preopt (selAt b i) mask)
     (hd.le.trans (distance_le hfirst hle))
    rw [hp.distinct hfull hsame] at hd'
    omega
   simp [stopsAt,hfull,hother]

theorem Packed.scan_ends
 (hroom:occupied+1 ≤ fillLimit (mask+1)) (sel:ℕ) :
 ∃d ≤ mask,scan (stopsAt b sel) mask (cacheHash preopt sel mask) (mask+1)
  (cacheHash preopt sel mask)=some (slotAt mask (cacheHash preopt sel mask) d) ∧
  (selAt b (slotAt mask (cacheHash preopt sel mask) d)=0 ∨
   selAt b (slotAt mask (cacheHash preopt sel mask) d)=sel) ∧
  ∀e < d,selAt b (slotAt mask (cacheHash preopt sel mask) e)≠0 ∧
   selAt b (slotAt mask (cacheHash preopt sel mask) e)≠sel := by
 obtain ⟨i,hi,hempty⟩:=hp.exists_empty hroom
 obtain ⟨d,hd,hscan,hstop,hbefore⟩:=exists_scan (stopsAt b sel)
  (cacheHash_le preopt sel mask) hi (by simp [stopsAt,hempty])
 grind [stopsAt]

theorem Packed.store
 (hroom:occupied+1 ≤ fillLimit (mask+1)) {d:ℕ} (imp:ℕ) (hsel:sel≠0)
 (hd:d ≤ mask) (hempty:selAt b (slotAt mask (cacheHash preopt sel mask) d)=0)
 (hbefore:∀e < d,selAt b (slotAt mask (cacheHash preopt sel mask) e)≠0 ∧
  selAt b (slotAt mask (cacheHash preopt sel mask) e)≠sel) :
 Packed preopt (b.set (slotAt mask (cacheHash preopt sel mask) d) ⟨imp,sel⟩) mask
  (occupied+1) := by
 have hfirst:=cacheHash_le preopt sel mask
 have hslot:=slotAt_le hfirst hd
 have hin:slotAt mask (cacheHash preopt sel mask) d < b.length:=by
  rw [hp.length]
  omega
 -- the selector is nowhere else: its scan would have met it
 have habsent:∀j,selAt b j≠sel:=by grind [hp.le_mask,slotAt_distance,hp.reach]
 refine ⟨by rw [List.length_set,hp.length],?_,hroom,?_,?_⟩
 · grind [selAt,hp.count]
 · grind [selAt_set,hp.distinct]
 · grind [selAt_set,distance_slotAt,hp.reach]

end

end PackedLemmas

theorem MaskOk.ne_zero {mask:ℕ} (hm:MaskOk mask) : mask≠0 := by
 obtain ⟨k,hk,-,hpow⟩:=hm
 grind

theorem MaskOk.capacity {c:Cache} (hm:MaskOk c.mask) : c.capacity=c.mask+1 := by
 rw [Cache.capacity,if_pos hm.ne_zero]

theorem MaskOk.double {mask:ℕ} (hm:MaskOk mask) :
 ∃mask',mask ≤ mask' ∧ MaskOk mask' ∧ (if maxCacheSize < (mask+1)*2 then maxCacheSize
  else (mask+1)*2)=mask'+1 := by
 obtain ⟨k,hk,hmax,hpow⟩:=hm
 have hle:=Nat.pow_le_pow_right (n:=2) (by omega) hmax
 by_cases hlarge : maxCacheSize < (mask+1)*2
 · rw [if_pos hlarge]
   exact ⟨65535,by omega,⟨16,by omega,le_rfl,by norm_num⟩,rfl⟩
 · rw [if_neg hlarge]
   refine ⟨mask*2+1,by omega,⟨k+1,by omega,?_,by rw [Nat.pow_succ]; omega⟩,by omega⟩
   grind [maxCacheSize]

theorem Heap.Valid.shared_lt {h:Heap} (hv:h.Valid) (hid:id∈h.emptyBucketsList) :
 id < h.arrays.length := by grind [List.mem_iff_getElem?,hv.shared]

theorem emptyBucketsForCapacity_mem {h:Heap} {capacity:ℕ}
 (hfound:(emptyBucketsForCapacity h capacity false).2=some id) :
 id=emptyBuckets ∨ id∈h.emptyBucketsList := by
 unfold emptyBucketsForCapacity at hfound
 grind

section Calls

variable {preopt:Bool} {h h':Heap} {c:Cache}

variable {b:List Bucket}

theorem Owned.grow (ho:Owned preopt h c b) (hg:h.Grows h') : Owned preopt h' c b where
 mask := ho.mask
 base := ho.base
 unshared := hg.unshared (List.getElem?_eq_some_iff.mp ho.array).1 ho.unshared
 array := hg.get ho.array
 packed := ho.packed

theorem Holds.grow (hh:Holds preopt h c) (hg:h.Grows h') : Holds preopt h' c := by
 cases hh with
 | fresh hb hm ho=>exact .fresh hb hm ho
 | erased hm ho hs=>exact .erased hm ho (emptyBucketsForCapacity_found hg hs)
 | owned b ho=>exact .owned b (ho.grow hg)

theorem reallocate_owned (preopt:Bool) (hv:h.Valid) {mask:ℕ} (hm:MaskOk mask) :
 (c.reallocate h (mask+1)).1.Valid ∧
  Owned preopt (c.reallocate h (mask+1)).1 (c.reallocate h (mask+1)).2
   (List.replicate (mask+1) .zero) := by
 have hpos:=(List.getElem?_eq_some_iff.mp hv.base).1
 refine ⟨hv.calloc (mask+1),hm,?_,?_,h.calloc_get (mask+1),packed_zeroed preopt mask⟩
 · exact Nat.ne_of_gt hpos
 · intro hid
   exact Nat.lt_irrefl _ (hv.shared_lt hid)

theorem Owned.not_constantEmpty (ho:Owned preopt h c b) : c.isConstantEmptyCache h=false := by
 by_contra hempty
 grind [Cache.isConstantEmptyCache,emptyBucketsForCapacity_mem,ho.base,ho.unshared]

/-- What `insert` works on: an array of the cache's own that has room.  It is the array the cache
had or a new one, and not a smaller one. -/
structure Roomy (preopt:Bool) (s s':State) (b:List Bucket) : Prop where
 heap : s'.1.Valid
 owned : Owned preopt s'.1 s'.2 b
 room : s'.2.occupied+1 ≤ fillLimit (s'.2.mask+1)
 capacity : s.2.capacity ≤ s'.2.capacity
 kept : s'=s ∨ ∃n,b=List.replicate n .zero

theorem reallocate_roomy (hv:h.Valid) {mask:ℕ} (hm:MaskOk mask) (hle:c.capacity ≤ mask+1) :
 Roomy preopt (h,c) (c.reallocate h (mask+1)) (List.replicate (mask+1) .zero) := by
 obtain ⟨hv',howned⟩:=reallocate_owned preopt (c:=c) hv hm
 refine ⟨hv',howned,?_,by rwa [howned.mask.capacity],.inr ⟨mask+1,rfl⟩⟩
 change 0+1 ≤ fillLimit (mask+1)
 have:=hm.ne_zero
 unfold fillLimit cacheFillRatio fullUtilizationCacheSize
 split <;> omega

theorem Owned.roomy (ho:Owned preopt h c b) (hv:h.Valid)
 (hroom:c.occupied+1 ≤ fillLimit c.capacity) : Roomy preopt (h,c) (h,c) b :=
 ⟨hv,ho,by rwa [ho.mask.capacity] at hroom,le_rfl,.inl rfl⟩

theorem makeRoom_spec (hv:h.Valid) (hh:Holds preopt h c) :
 ∃b,Roomy preopt (h,c) (c.makeRoom h) b := by
 cases hh with
 | fresh hb hm ho=>
  have hcap:c.capacity=0:=by simp [Cache.capacity,hm]
  have hnew:c.makeRoom h=c.reallocate h (1+1):=by
   simp [Cache.makeRoom,Cache.isConstantEmptyCache,ho,hb,hcap,emptyBucketsForCapacity,
    bytesForCapacity,initCacheSize]
  rw [hnew]
  exact ⟨_,reallocate_roomy hv ⟨1,le_rfl,by omega,rfl⟩ (by omega)⟩
 | erased hm ho hs=>
  have hempty:c.isConstantEmptyCache h:=by simp [Cache.isConstantEmptyCache,ho,hs]
  have hcap:=hm.capacity
  rw [Cache.makeRoom,if_pos hempty,if_neg (by omega),hcap]
  exact ⟨_,reallocate_roomy hv hm hcap.le⟩
 | owned b ho=>
  have hcap:=ho.mask.capacity
  rw [Cache.makeRoom,if_neg (by simp [ho.not_constantEmpty])]
  split
  · case isTrue hratio =>
    refine ⟨b,ho.roomy hv ?_⟩
    unfold fillLimit cacheFillRatio at *
    split <;> omega
  split
  · case isTrue hfull =>
    exact ⟨b,ho.roomy hv (by rw [fillLimit,if_pos hfull.1]; exact hfull.2)⟩
  · obtain ⟨mask',hle,hm,hsize⟩:=ho.mask.double
    have hpos:c.mask+1≠0:=by omega
    simp only [hcap,if_pos hpos,hsize]
    exact ⟨_,reallocate_roomy hv hm (hcap.trans_le (by omega))⟩

theorem Heap.Valid.store (hv:h.Valid) (ho:Owned preopt h c b) (i:ℕ) (x:Bucket) :
 (h.store c.buckets i x).Valid where
 base := by
  rw [Heap.store,List.getElem?_set_ne ho.base]
  exact hv.base
 shared {k id} hk := by grind [hv.shared,Heap.store,ho.unshared]

def slots (s:State) : List Bucket := (s.1.array s.2.buckets).take s.2.capacity

theorem Owned.slots_eq (ho:Owned preopt s.1 s.2 b) : slots s=b := by
 rw [slots,Heap.array_eq ho.array,List.take_of_length_le]
 rw [ho.packed.length,ho.mask.capacity]

theorem Owned.incremented (ho:Owned preopt h c b) (hroom:c.occupied+1 ≤ fillLimit (c.mask+1)) :
 c.incrementOccupied = {c with occupied:=c.occupied+1} := by
 obtain ⟨k,-,hmax,hpow⟩:=ho.mask
 have hle:=Nat.pow_le_pow_right (n:=2) (by omega) hmax
 have hsmall:c.occupied+1<2^16:=by
  unfold fillLimit cacheFillRatio fullUtilizationCacheSize at hroom
  split at hroom <;> omega
 rw [Cache.incrementOccupied,Nat.mod_eq_of_lt hsmall]

theorem storeEntry_spec {s':State} (hr:Roomy preopt s s' b) (imp:ℕ) (hsel:sel≠0) :
 ∃t b',storeEntry preopt s' sel imp=.ok t ∧ t.1.Valid ∧ Owned preopt t.1 t.2 b' ∧
  t.2.capacity=s'.2.capacity ∧ (∀e∈b',e∈b ∨ e=⟨imp,sel⟩) ∧
  ∃e∈b',e.sel=sel ∧ (e.imp=imp ∨ e∈b) := by
 obtain ⟨d,hd,hscan,hend,hbefore⟩:=hr.owned.packed.scan_ends hr.room sel
 have harray:=Heap.array_eq hr.owned.array
 have hin:slotAt s'.2.mask (cacheHash preopt sel s'.2.mask) d < b.length:=by
  rw [hr.owned.packed.length]
  have:=slotAt_le (cacheHash_le preopt sel s'.2.mask) hd
  omega
 rw [storeEntry,Cache.findSlot,harray,hscan]
 by_cases hempty : selAt b (slotAt s'.2.mask (cacheHash preopt sel s'.2.mask) d)=0
 · simp only [if_pos hempty]
   rw [hr.owned.incremented hr.room]
   refine ⟨_,_,rfl,hr.heap.store hr.owned _ _,⟨hr.owned.mask,hr.owned.base,
    hr.owned.unshared,?_,hr.owned.packed.store hr.room imp hsel hd hempty hbefore⟩,rfl,
    fun e he=>List.mem_or_eq_of_mem_set he,⟨imp,sel⟩,List.mem_set hin _,rfl,.inl rfl⟩
   rw [Heap.store,List.getElem?_set_self (List.getElem?_eq_some_iff.mp hr.owned.array).1,harray]
 · simp only [if_neg hempty]
   refine ⟨s',b,rfl,hr.heap,hr.owned,rfl,fun e he=>.inl he,_,List.getElem_mem hin,?_,
    .inr (List.getElem_mem hin)⟩
   have hfound:=hend.resolve_left hempty
   rwa [selAt,List.getD_eq_getElem _ _ hin] at hfound

theorem Inv.not_optimized (hi:Inv preopt s) : s.2.isConstantOptimizedCache preopt=false := by
 unfold Cache.isConstantOptimizedCache
 cases hi.holds with
 | fresh hb hm ho=>simp [hb]
 | erased hm ho hs=>simp [hm.ne_zero]
 | owned b ho=>simp [ho.mask.ne_zero]

theorem Roomy.mem_slots {s':State} (hr:Roomy preopt s s' b) {e:Bucket} (he:e∈b)
 (hsel:e.sel≠0) : e∈slots s := by
 rcases hr.kept with hsame|⟨n,hzero⟩
 · have howned:=hr.owned
   rw [hsame] at howned
   exact howned.slots_eq ▸ he
 · rw [hzero] at he
   rw [(List.mem_replicate.mp he).2] at hsel
   exact absurd rfl hsel

theorem insert_spec (hi:Inv preopt s) (imp:ℕ) (hsel:sel≠0) :
 ∃t,insert preopt s sel imp=.ok t ∧ Inv preopt t ∧ s.2.capacity ≤ t.2.capacity ∧
  (∀e∈slots t,e.sel≠0 → e∈slots s ∨ e=⟨imp,sel⟩) ∧
  ∃e∈slots t,e.sel=sel ∧ (e.imp=imp ∨ e∈slots s) := by
 obtain ⟨b,hr⟩:=makeRoom_spec hi.heap hi.holds
 obtain ⟨t,b',hstore,hv,ho,hcap,hfrom,e,he,hesel,heimp⟩:=storeEntry_spec hr imp hsel
 have hslots:slots t=b':=ho.slots_eq
 rw [insert,if_neg (by simp [hi.not_optimized])]
 refine ⟨t,hstore,⟨hv,.owned b' ho⟩,hcap ▸ hr.capacity,fun x hx hxsel=>?_,e,
  hslots ▸ he,hesel,heimp.imp_right fun hold=>hr.mem_slots hold (hesel ▸ hsel)⟩
 exact (hfrom x (hslots ▸ hx)).imp_left fun hold=>hr.mem_slots hold hxsel

theorem erase_spec (hi:Inv preopt s) :
 Inv preopt (eraseNolock preopt s) ∧ (eraseNolock preopt s).2.capacity=s.2.capacity := by
 rw [eraseNolock,if_neg (by simp [hi.not_optimized])]
 split
 · case isTrue hpos =>
   obtain ⟨h',id,hempty,hv,-,hfound⟩:=emptyBucketsForCapacity_spec hi.heap s.2.capacity
   have hmask:MaskOk s.2.mask:=by
    cases hi.holds with
    | fresh hb hm ho=>omega
    | erased hm ho hs=>exact hm
    | owned b ho=>exact ho.mask
   have hsub:s.2.capacity-1=s.2.mask:=by rw [hmask.capacity]; omega
   rw [hempty,hsub]
   exact ⟨⟨hv,.erased hmask rfl hfound⟩,rfl⟩
 · exact ⟨hi,rfl⟩

end Calls

section Runs

variable {preopt:Bool}

theorem inv_initial (preopt:Bool) : Inv preopt (Heap.initial,Cache.initializeToEmpty) where
 heap := ⟨rfl,fun {k id} (hk:([] : List ℕ)[k]?=some id)=>by simp at hk⟩
 holds := .fresh rfl rfl rfl

theorem step_spec (hi:Inv preopt s) {op:Op} (hop:op.Valid) :
 ∃t,step preopt s op=.ok t ∧ Inv preopt t ∧ s.2.capacity ≤ t.2.capacity := by
 cases op with
 | insert sel imp=>
  obtain ⟨t,ht,hinv,hcap,-⟩:=insert_spec hi imp hop
  exact ⟨t,ht,hinv,hcap⟩
 | erase=>exact ⟨_,rfl,(erase_spec hi).1,(erase_spec hi).2.ge⟩
 | elsewhere capacity=>
  obtain ⟨h',id,hempty,hv,hg,-⟩:=emptyBucketsForCapacity_spec hi.heap capacity
  exact ⟨_,rfl,by rw [hempty]; exact ⟨hv,hi.holds.grow hg⟩,le_rfl⟩

theorem run_spec (hi:Inv preopt s) {ops:List Op} (hops:∀op∈ops,op.Valid) :
 ∃t,run preopt s ops=.ok t ∧ Inv preopt t ∧ s.2.capacity ≤ t.2.capacity := by
 induction ops generalizing s with
 | nil=>exact ⟨s,rfl,hi,le_rfl⟩
 | cons op ops ih=>
  obtain ⟨t,ht,hinv,hcap⟩:=step_spec hi (hops op List.mem_cons_self)
  obtain ⟨u,hu,hinv',hcap'⟩:=ih hinv fun o ho=>hops o (List.mem_cons_of_mem _ ho)
  refine ⟨u,?_,hinv',hcap.trans hcap'⟩
  rw [run,ht]
  exact hu

theorem run_append (s:State) (ops more:List Op) :
 run preopt s (ops++more)=(run preopt s ops >>= fun t=>run preopt t more) := by
 induction ops generalizing s with
 | nil=>rfl
 | cons op ops ih=>
  rw [List.cons_append,run,run,bind_assoc]
  congr 1
  funext t
  exact ih t

/-- The capacity and the contents of a cache agree with its counters, and lookups find what is
stored. -/
structure Structured (preopt:Bool) (s:State) : Prop where
 capacity : s.2.capacity=0 ∨ ∃k,1 ≤ k ∧ k≤16 ∧ s.2.capacity=2^k
 length : (slots s).length=s.2.capacity
 occupied : s.2.occupied=(slots s).countP (fun b=>b.sel != 0)
 distinct : ∀{i j:ℕ},selAt (slots s) i≠0 → selAt (slots s) i=selAt (slots s) j → i=j
 found : ∀{i:ℕ},selAt (slots s) i≠0 → lookup preopt s (selAt (slots s) i)=some i

theorem structured_empty {n:ℕ} (hcap:s.2.capacity=0 ∨ MaskOk s.2.mask)
 (hocc:s.2.occupied=0) (harr:s.1.arrays[s.2.buckets]?=some (List.replicate n .zero))
 (hn:s.2.capacity ≤ n) : Structured preopt s := by
 have hslots:slots s=List.replicate s.2.capacity .zero:=by
  rw [slots,Heap.array_eq harr,List.take_replicate,Nat.min_eq_left hn]
 refine ⟨hcap.imp_right ?_,by rw [hslots,List.length_replicate],?_,?_,?_⟩
 · rintro hm
   obtain ⟨k,hk,hmax,hpow⟩:=hm
   exact ⟨k,hk,hmax,(MaskOk.capacity ⟨k,hk,hmax,hpow⟩).trans hpow⟩
 · simp [hslots,hocc,List.countP_replicate,Bucket.zero]
 · grind [selAt_zeroed]
 · grind [selAt_zeroed]

theorem Inv.structured (hi:Inv preopt s) : Structured preopt s := by
 cases hi.holds with
 | fresh hb hm ho=>grind [Cache.capacity,structured_empty,hi.heap.base]
 | erased hm ho hs=>
  obtain ⟨k,hk,hmax,hpow⟩:=hm
  have hcap:=(MaskOk.capacity ⟨k,hk,hmax,hpow⟩).trans hpow
  rw [hcap] at hs
  obtain ⟨n,hn,harr⟩:=shared_zeroed hi.heap hs
  exact structured_empty (.inr ⟨k,hk,hmax,hpow⟩) ho harr (hcap ▸ hn)
 | owned b ho=>
  obtain ⟨k,hk,hmax,hpow⟩:=ho.mask
  have hcap:=ho.mask.capacity
  refine ⟨.inr ⟨k,hk,hmax,hcap.trans hpow⟩,?_,?_,?_,?_⟩
  · rw [ho.slots_eq,ho.packed.length,hcap]
  · rw [ho.slots_eq]
    exact ho.packed.count
  · rw [ho.slots_eq]
    exact ho.packed.distinct
  · intro i hne
    rw [ho.slots_eq] at hne ⊢
    rw [lookup,Cache.findSlot,Heap.array_eq ho.array,ho.packed.found hne]
    simp

/-- Every sequence of insertions and erasures of a cache that starts empty runs without a fatal
error; at each point the cache is structured, it never shrinks, and an insertion leaves an entry
for its selector. -/
theorem cache_run_structured (preopt:Bool) (ops:List Op) (hops:∀op∈ops,op.Valid) :
 ∃s,run preopt (Heap.initial,.initializeToEmpty) ops=.ok s ∧ Structured preopt s ∧
  (∀more : List Op,(∀op∈more,op.Valid) →
   ∃t,run preopt (Heap.initial,.initializeToEmpty) (ops++more)=.ok t ∧
    s.2.capacity ≤ t.2.capacity) ∧
  ∀sel imp,sel≠0 →
   ∃t,run preopt (Heap.initial,.initializeToEmpty) (ops++[.insert sel imp])=.ok t ∧
    ∃e∈slots t,e.sel=sel ∧ (e.imp=imp ∨ e∈slots s) := by
 obtain ⟨s,hrun,hinv,-⟩:=run_spec (inv_initial preopt) hops
 refine ⟨s,hrun,hinv.structured,fun more hmore=>?_,fun sel imp hsel=>?_⟩
 · obtain ⟨t,ht,-,hcap⟩:=run_spec hinv hmore
   exact ⟨t,by rw [run_append,hrun]; exact ht,hcap⟩
 · obtain ⟨t,ht,-,-,-,e,he,hentry⟩:=insert_spec hinv imp hsel
   refine ⟨t,?_,e,he,hentry⟩
   rw [run_append,hrun]
   change step preopt s (.insert sel imp) >>= _=_
   rw [step,ht]
   rfl

theorem cache_run_erased_and_refilled :
 ∃s,run true (Heap.initial,.initializeToEmpty) [.insert 3 7,.erase,.insert 5 9]=.ok s ∧
  Structured true s ∧ s.2.capacity=2 ∧ s.2.occupied=1 := by
 obtain ⟨s,hrun,hs,-⟩:=cache_run_structured true
  [.insert 3 7,.erase,.insert 5 9] (by simp [Op.Valid])
 refine ⟨s,hrun,hs,?_⟩
 have hcache:(run true (Heap.initial,.initializeToEmpty)
  [.insert 3 7,.erase,.insert 5 9]).map Prod.snd=.ok ⟨2,1,1,false⟩ := rfl
 rw [hrun] at hcache
 have hc:s.2=⟨2,1,1,false⟩:=by injection hcache
 rw [hc]
 exact ⟨rfl,rfl⟩

end Runs

end ObjcRuntime.MethodCache
