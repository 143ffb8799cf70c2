import ObjcRuntime.CacheReaders

/-!
# Who owns a bucket array

The caches of all classes over one heap, with the garbage that `collect_free` adds and
`collectNolock` frees. Whether an array is a shared empty one is inferred by
`isConstantEmptyCache`. A destroyed cache is not used again.
-/
set_option autoImplicit false
namespace ObjcRuntime.CacheOwnership
open MethodCache CacheReaders
open Function

inductive Event where
 | write (array:ℕ)
 | collect (array:ℕ) (caches:ℕ → Option Cache)
 | free (array:ℕ)

/-- The log has the latest event first, and `garbage` the latest array. -/
structure World where
 heap : Heap
 caches : ℕ → Option Cache
 garbage : List ℕ
 garbageByteSize : ℕ
 log : List Event

namespace World

def setCache (w:World) (c:ℕ) (h:Heap) (m:Cache) : World :=
 {w with heap:=h,caches:=update w.caches c (some m)}

def free (w:World) (array:ℕ) : World :=
 { w with
   heap := {w.heap with arrays:=w.heap.arrays.set array []}
   log := .free array::w.log }

def freeGarbage : List ℕ → World → World
 | [],w=>w
 | dead::garbage,w=>freeGarbage garbage {w.free dead with garbage:=garbage}

def garbageThreshold : ℕ := 32*1024

/-- `collectNolock`; `inCritical` is what `_collecting_in_critical` answers. -/
def collectNolock (w:World) (collectALot inCritical:Bool) : World :=
 if w.garbageByteSize < garbageThreshold ∧ collectALot=false then w
 else if collectALot=false ∧ inCritical=true then w
 else {freeGarbage w.garbage w with garbageByteSize:=0}

def collectFree (w:World) (data capacity:ℕ) (inCritical:Bool) : World :=
 collectNolock { w with
  garbage := data::w.garbage
  garbageByteSize := w.garbageByteSize+bytesForCapacity capacity
  log := .collect data w.caches::w.log } false inCritical

def collectAll (w:World) (capacity:ℕ) (inCritical:Bool) (arrays:List ℕ) : World :=
 arrays.foldl (fun w data=>w.collectFree data capacity inCritical) w

def storeEntry (preopt:Bool) (w:World) (c:ℕ) (m:Cache) (sel imp:ℕ) : Except Fatal World :=
 match m.findSlot preopt w.heap sel with
 | some i=>
  if selAt (w.heap.array m.buckets) i=0 then
   .ok { w.setCache c (w.heap.store m.buckets i ⟨imp,sel⟩) m.incrementOccupied with
    log := .write m.buckets::w.log }
  else .ok w
 | none=>.error .badCache

def insert (preopt:Bool) (w:World) (c:ℕ) (m:Cache) (sel imp:ℕ) (inCritical:Bool) :
 Except Fatal World :=
 if m.isConstantOptimizedCache preopt then .error .preoptimizedCache
 else
  let s:=m.makeRoom w.heap
  storeEntry preopt ((w.setCache c s.1 s.2).collectAll m.capacity inCritical
   (insertDiscards (w.heap,m))) c s.2 sel imp

def eraseNolock (preopt:Bool) (w:World) (c:ℕ) (m:Cache) (inCritical:Bool) : World :=
 let s:=MethodCache.eraseNolock preopt (w.heap,m)
 (w.setCache c s.1 s.2).collectAll m.capacity inCritical
  (if m.isConstantOptimizedCache preopt then [] else eraseDiscards (w.heap,m))

def canBeFreed (preopt:Bool) (h:Heap) (m:Cache) : Bool :=
 !m.isConstantEmptyCache h && !m.isConstantOptimizedCache preopt

def destroy (preopt:Bool) (w:World) (c:ℕ) (m:Cache) : World :=
 let gone:={w with caches:=update w.caches c none}
 if canBeFreed preopt w.heap m then gone.free m.buckets else gone

end World

inductive Op where
 | initializeToEmpty (c:ℕ)
 | insert (c sel imp:ℕ) (inCritical:Bool)
 | eraseNolock (c:ℕ) (inCritical:Bool)
 | destroy (c:ℕ)
 | collectNolock (collectALot inCritical:Bool)

def Op.Valid : Op → Prop
 | .insert _ sel _ _=>sel≠0
 | _=>True

def step (preopt:Bool) (w:World) : Op → Except Fatal World
 | .initializeToEmpty c=>
  .ok (if (w.caches c).isNone then w.setCache c w.heap .initializeToEmpty else w)
 | .insert c sel imp inCritical=>
  match w.caches c with
  | some m=>w.insert preopt c m sel imp inCritical
  | none=>.ok w
 | .eraseNolock c inCritical=>
  match w.caches c with
  | some m=>.ok (w.eraseNolock preopt c m inCritical)
  | none=>.ok w
 | .destroy c=>
  match w.caches c with
  | some m=>.ok (w.destroy preopt c m)
  | none=>.ok w
 | .collectNolock collectALot inCritical=>.ok (w.collectNolock collectALot inCritical)

def run (preopt:Bool) (w:World) : List Op → Except Fatal World
 | []=>.ok w
 | op::ops=>do
  let w' ← step preopt w op
  run preopt w' ops

def initial : World := ⟨Heap.initial,fun _=>none,[],0,[]⟩

def Shared (h:Heap) (a:ℕ) : Prop := a=emptyBuckets ∨ a∈h.emptyBucketsList

def Event.collected : Event → Option ℕ
 | .collect a _=>some a
 | _=>none

def Event.freed : Event → Option ℕ
 | .free a=>some a
 | _=>none

def Event.written : Event → Option ℕ
 | .write a=>some a
 | _=>none

structure Linear (w:World) : Prop where
 shared : ∀a,Shared w.heap a → a∉w.log.filterMap Event.written ∧
  a∉w.log.filterMap Event.collected ∧ a∉w.log.filterMap Event.freed
 used_once : ∀c d m n,c≠d → w.caches c=some m → w.caches d=some n →
  m.buckets=n.buckets → Shared w.heap m.buckets
 collected_once : (w.log.filterMap Event.collected).Nodup
 replaced : ∀a caches,.collect a caches∈w.log → ∀c m,caches c=some m → m.buckets≠a
 freed_once : (w.log.filterMap Event.freed).Nodup

structure Unused (w:World) (a:ℕ) : Prop where
 unshared : ¬Shared w.heap a
 allocated : a < w.heap.arrays.length
 dropped : ∀c m,w.caches c=some m → m.buckets≠a

structure Sound (preopt:Bool) (w:World) : Prop where
 heap : w.heap.Valid
 holds : ∀c m,w.caches c=some m → Holds preopt w.heap m
 used_once : ∀c d m n,c≠d → w.caches c=some m → w.caches d=some n →
  m.buckets=n.buckets → Shared w.heap m.buckets
 garbage : ∀a∈w.garbage,Unused w a
 garbage_once : w.garbage.Nodup
 freed : ∀a∈w.log.filterMap Event.freed,Unused w a ∧ a∉w.garbage
 freed_once : (w.log.filterMap Event.freed).Nodup
 collected : ∀a∈w.log.filterMap Event.collected,a∈w.garbage ∨ a∈w.log.filterMap Event.freed
 collected_once : (w.log.filterMap Event.collected).Nodup
 replaced : ∀a caches,.collect a caches∈w.log → ∀c m,caches c=some m → m.buckets≠a
 written : ∀a∈w.log.filterMap Event.written,¬Shared w.heap a ∧ a < w.heap.arrays.length

variable {h:Heap} {a:ℕ} {b:List Bucket} {n:Cache}

section Sound

variable {preopt:Bool} {w:World} {c:ℕ} {m:Cache}

theorem Sound.linear (hs:Sound preopt w) : Linear w where
 shared a ha := by
  refine ⟨fun h=>(hs.written a h).1 ha,fun h=>?_,fun h=>(hs.freed a h).1.unshared ha⟩
  rcases hs.collected a h with hgarbage|hfreed
  · exact (hs.garbage a hgarbage).unshared ha
  · exact (hs.freed a hfreed).1.unshared ha
 used_once := hs.used_once
 collected_once := hs.collected_once
 replaced := hs.replaced
 freed_once := hs.freed_once

theorem not_shared_grow {h':Heap} (hg:h.Grows h') (ha:¬Shared h a)
 (hlt:a < h.arrays.length) : ¬Shared h' a := by
 rintro (hbase|hmem)
 · exact ha (.inl hbase)
 · exact hg.unshared hlt (fun h=>ha (.inr h)) hmem

theorem Shared.grow {h':Heap} (hg:h.Grows h') (ha:Shared h a) : Shared h' a := by
 obtain ⟨more,hmore,-⟩:=hg.shared
 exact ha.imp_right fun hmem=>hmore ▸ List.mem_append_left _ hmem

theorem holds_allocated (hv:h.Valid) (hh:Holds preopt h m) : m.buckets < h.arrays.length := by
 have hbase:=(List.getElem?_eq_some_iff.mp hv.base).1
 cases hh with
 | fresh hb hm ho=>exact hb ▸ hbase
 | erased hm ho hfound=>
  rcases emptyBucketsForCapacity_mem (congrArg Prod.snd hfound) with hb|hmem
  · exact hb ▸ hbase
  · exact hv.shared_lt hmem
 | owned b ho=>exact (List.getElem?_eq_some_iff.mp ho.array).1

theorem Owned.not_shared (ho:Owned preopt h m b) :
 ¬Shared h m.buckets := fun hsh=>hsh.elim ho.base ho.unshared

theorem update_caches {caches:ℕ → Option Cache} {d:ℕ} (hn:update caches c (some m) d=some n) :
 (d=c ∧ m=n) ∨ (d≠c ∧ caches d=some n) := by
 by_cases hd : d=c
 · grind
 · grind

section

variable (hs:Sound preopt w)
include hs

theorem Sound.setCache (hg:w.heap.Grows h) (hv:h.Valid) (hh:Holds preopt h m)
 (hbuckets:(∃n,w.caches c=some n ∧ m.buckets=n.buckets) ∨
  m.buckets=w.heap.arrays.length ∨ Shared h m.buckets) :
 Sound preopt (w.setCache c h m) := by
 have hother:∀d n,d≠c → w.caches d=some n → m.buckets=n.buckets → Shared h m.buckets := by
  intro d n hd hn heq
  rcases hbuckets with ⟨old,hold,hsame⟩|hnew|hshared
  · rw [hsame]
    exact (hs.used_once c d old n hd.symm hold hn (hsame ▸ heq)).grow hg
  · have:=holds_allocated hs.heap (hs.holds d n hn)
    omega
  · exact hshared
 have hunused:∀{a},Unused w a → Unused (w.setCache c h m) a:=by
  intro a hu
  have hun:=not_shared_grow hg hu.unshared hu.allocated
  refine ⟨hun,hu.allocated.trans_le hg.arrays.length_le,fun d n hn=>?_⟩
  rcases update_caches hn with ⟨rfl,rfl⟩|⟨-,hn⟩
  · rcases hbuckets with ⟨old,hold,hsame⟩|hnew|hshared
    · exact hsame ▸ hu.dropped d old hold
    · have:=hu.allocated
      omega
    · rintro rfl
      exact hun hshared
  · exact hu.dropped d n hn
 refine ⟨hv,fun d n hn=>?_,fun d e n k hde hn hk heq=>?_,
  fun a ha=>hunused (hs.garbage a ha),hs.garbage_once,
  fun a ha=>⟨hunused (hs.freed a ha).1,(hs.freed a ha).2⟩,hs.freed_once,
  hs.collected,hs.collected_once,hs.replaced,fun a ha=>?_⟩
 · rcases update_caches hn with ⟨rfl,rfl⟩|⟨-,hn⟩
   · exact hh
   · exact (hs.holds d n hn).grow hg
 · rcases update_caches hn with ⟨rfl,rfl⟩|⟨hd,hn'⟩
   · rcases update_caches hk with ⟨rfl,-⟩|⟨he,hk'⟩
     · exact absurd rfl hde
     · exact hother e k he hk' heq
   · rcases update_caches hk with ⟨rfl,rfl⟩|⟨-,hk'⟩
     · exact heq ▸ hother d n hd hn' heq.symm
     · exact (hs.used_once d e n k hde hn' hk' heq).grow hg
 · obtain ⟨hun,hlt⟩:=hs.written a ha
   exact ⟨not_shared_grow hg hun hlt,hlt.trans_le hg.arrays.length_le⟩

theorem Sound.free {garbage:List ℕ} (ha:Unused w a)
 (hfreed:a∉w.log.filterMap Event.freed) (hrest:a∉garbage)
 (hsub:garbage.Sublist w.garbage) (hall:∀b∈w.garbage,b=a ∨ b∈garbage) :
 Sound preopt {w.free a with garbage:=garbage} := by
 have hun:a≠emptyBuckets ∧ a∉w.heap.emptyBucketsList:=not_or.mp ha.unshared
 have hunused:∀{b},Unused w b → Unused {w.free a with garbage:=garbage} b:=by
  intro b hu
  exact ⟨hu.unshared,hu.allocated.trans_eq List.length_set.symm,hu.dropped⟩
 refine ⟨valid_release hs.heap hun.1 hun.2 [],fun c m hm=>?_,hs.used_once,
  fun b hb=>hunused (hs.garbage b (hsub.subset hb)),hs.garbage_once.sublist hsub,?_,?_,?_,
  hs.collected_once,?_,fun b hb=>?_⟩
 · exact holds_release (hs.holds c m hm) (ha.dropped c m hm).symm []
 · refine List.forall_mem_cons.mpr ⟨⟨hunused ha,hrest⟩,fun b hb=>?_⟩
   exact ⟨hunused (hs.freed b hb).1,fun hin=>(hs.freed b hb).2 (hsub.subset hin)⟩
 · exact List.nodup_cons.mpr ⟨hfreed,hs.freed_once⟩
 · intro b hb
   change b∈garbage ∨ b∈a::w.log.filterMap Event.freed
   rcases hs.collected b hb with hin|hgone
   · grind
   · exact .inr (List.mem_cons_of_mem _ hgone)
 · intro b caches hb
   rcases List.mem_cons.mp hb with heq|hb
   · cases heq
   · exact hs.replaced b caches hb
 · exact ⟨(hs.written b hb).1,(hs.written b hb).2.trans_eq List.length_set.symm⟩

theorem Sound.freeGarbage : Sound preopt (World.freeGarbage w.garbage w) := by
 generalize hgarbage : w.garbage=garbage
 induction garbage generalizing w with
 | nil=>exact hs
 | cons dead garbage ih=>
  have hin:dead∈w.garbage:=hgarbage ▸ List.mem_cons_self
  have honce:=hgarbage ▸ hs.garbage_once
  refine ih (hs.free (hs.garbage dead hin) (fun h=>(hs.freed dead h).2 hin)
   (List.nodup_cons.mp honce).1 (hgarbage ▸ List.sublist_cons_self ..) fun b hb=>?_) rfl
  exact List.mem_cons.mp (hgarbage ▸ hb)

theorem Sound.setByteSize (n:ℕ) : Sound preopt {w with garbageByteSize:=n} := by
 have hunused:∀{a},Unused w a → Unused {w with garbageByteSize:=n} a :=
  fun hu=>⟨hu.unshared,hu.allocated,hu.dropped⟩
 exact ⟨hs.heap,hs.holds,hs.used_once,fun a ha=>hunused (hs.garbage a ha),hs.garbage_once,
  fun a ha=>⟨hunused (hs.freed a ha).1,(hs.freed a ha).2⟩,hs.freed_once,hs.collected,
  hs.collected_once,hs.replaced,hs.written⟩

theorem Sound.collectNolock (collectALot inCritical:Bool) :
 Sound preopt (w.collectNolock collectALot inCritical) := by
 unfold World.collectNolock
 grind [hs.freeGarbage.setByteSize]

theorem Sound.collectFree (ha:Unused w a)
 (hfreed:a∉w.log.filterMap Event.freed) (hgarbage:a∉w.garbage) (capacity:ℕ)
 (inCritical:Bool) : Sound preopt (w.collectFree a capacity inCritical) := by
 have hnew:a∉w.log.filterMap Event.collected :=
  fun h=>(hs.collected a h).elim hgarbage hfreed
 have hunused:∀{b},Unused w b → Unused { w with
  garbage := a::w.garbage
  garbageByteSize := w.garbageByteSize+bytesForCapacity capacity
  log := .collect a w.caches::w.log } b :=
  fun hu=>⟨hu.unshared,hu.allocated,hu.dropped⟩
 have hput:Sound preopt { w with
  garbage := a::w.garbage
  garbageByteSize := w.garbageByteSize+bytesForCapacity capacity
  log := .collect a w.caches::w.log } := by
  refine ⟨hs.heap,hs.holds,hs.used_once,?_,
   List.nodup_cons.mpr ⟨hgarbage,hs.garbage_once⟩,fun b hb=>?_,hs.freed_once,?_,
   List.nodup_cons.mpr ⟨hnew,hs.collected_once⟩,fun b caches hb=>?_,hs.written⟩
  · exact List.forall_mem_cons.mpr ⟨hunused ha,fun b hb=>hunused (hs.garbage b hb)⟩
  · refine ⟨hunused (hs.freed b hb).1,fun hin=>?_⟩
    rcases List.mem_cons.mp hin with rfl|hin
    · exact hfreed hb
    · exact (hs.freed b hb).2 hin
  · refine List.forall_mem_cons.mpr ⟨.inl List.mem_cons_self,fun b hb=>?_⟩
    exact (hs.collected b hb).imp_left (List.mem_cons_of_mem _)
  · rcases List.mem_cons.mp hb with heq|hb
    · cases heq
      exact ha.dropped
    · exact hs.replaced b caches hb
 exact hput.collectNolock false inCritical

theorem Sound.store (hc:w.caches c=some m)
 (ho:Owned preopt w.heap m b) {i:ℕ} {x:Bucket} (hn:n.buckets=m.buckets)
 (hh:Holds preopt (w.heap.store m.buckets i x) n) :
 Sound preopt { w.setCache c (w.heap.store m.buckets i x) n with
  log := .write m.buckets::w.log } := by
 have hlt:=(List.getElem?_eq_some_iff.mp ho.array).1
 have hun:¬Shared w.heap m.buckets:=Owned.not_shared ho
 have hlen:(w.heap.store m.buckets i x).arrays.length=w.heap.arrays.length:=List.length_set
 have hunused:∀{a},Unused w a → Unused { w.setCache c (w.heap.store m.buckets i x) n with
  log := .write m.buckets::w.log } a := by
  intro a hu
  refine ⟨hu.unshared,hu.allocated.trans_eq hlen.symm,fun d k hk=>?_⟩
  rcases update_caches hk with ⟨rfl,rfl⟩|⟨-,hk⟩
  · exact hn ▸ hu.dropped d m hc
  · exact hu.dropped d k hk
 refine ⟨hs.heap.store ho i x,fun d k hk=>?_,fun d e k l hde hk hl heq=>?_,
  fun a ha=>hunused (hs.garbage a ha),hs.garbage_once,
  fun a ha=>⟨hunused (hs.freed a ha).1,(hs.freed a ha).2⟩,hs.freed_once,hs.collected,
  hs.collected_once,fun a caches ha=>?_,?_⟩
 · rcases update_caches hk with ⟨rfl,rfl⟩|⟨hd,hk⟩
   · exact hh
   · refine holds_release (hs.holds d k hk) (fun heq=>?_) _
     exact hun (hs.used_once c d m k hd.symm hc hk heq)
 · rcases update_caches hk with ⟨rfl,rfl⟩|⟨hd,hk'⟩
   · rcases update_caches hl with ⟨rfl,-⟩|⟨he,hl'⟩
     · exact absurd rfl hde
     · exact absurd (hs.used_once d e m l hde hc hl' (hn ▸ heq)) hun
   · rcases update_caches hl with ⟨rfl,rfl⟩|⟨-,hl'⟩
     · exact absurd (hs.used_once e d m k hde.symm hc hk' (hn ▸ heq.symm)) hun
     · exact hs.used_once d e k l hde hk' hl' heq
 · rcases List.mem_cons.mp ha with heq|ha
   · cases heq
   · exact hs.replaced a caches ha
 · refine List.forall_mem_cons.mpr ⟨⟨hun,hlt.trans_eq hlen.symm⟩,fun a ha=>?_⟩
   exact ⟨(hs.written a ha).1,(hs.written a ha).2.trans_eq hlen.symm⟩

theorem Sound.own (hc:w.caches c=some m) (ho:Owned preopt w.heap m b) :
 m.buckets∉w.garbage ∧ m.buckets∉w.log.filterMap Event.freed ∧
  ∀d n,d≠c → w.caches d=some n → n.buckets≠m.buckets := by
 refine ⟨fun h=>(hs.garbage _ h).dropped c m hc rfl,fun h=>(hs.freed _ h).1.dropped c m hc rfl,
  fun d n hd hn heq=>?_⟩
 exact Owned.not_shared ho (hs.used_once c d m n hd.symm hc hn heq.symm)

theorem Sound.replaced_unused (hc:w.caches c=some m)
 (ho:Owned preopt w.heap m b) (hg:w.heap.Grows h) (hn:n.buckets≠m.buckets) :
 Unused (w.setCache c h n) m.buckets := by
 have hlt:=(List.getElem?_eq_some_iff.mp ho.array).1
 refine ⟨not_shared_grow hg (Owned.not_shared ho) hlt,hlt.trans_le hg.arrays.length_le,
  fun d k hk=>?_⟩
 rcases update_caches hk with ⟨rfl,rfl⟩|⟨hd,hk⟩
 · exact hn
 · exact (hs.own hc ho).2.2 d k hd hk

end

structure Kept (w w':World) : Prop where
 caches : w'.caches=w.caches
 shared : w'.heap.emptyBucketsList=w.heap.emptyBucketsList

theorem freeGarbage_kept (garbage:List ℕ) (w:World) : Kept w (World.freeGarbage garbage w) := by
 induction garbage generalizing w with
 | nil=>exact ⟨rfl,rfl⟩
 | cons dead garbage ih=>
  have hrest:=ih {w.free dead with garbage:=garbage}
  exact ⟨hrest.caches,hrest.shared⟩

theorem collectFree_kept (w:World) (a capacity:ℕ) (inCritical:Bool) :
 Kept w (w.collectFree a capacity inCritical) := by
 unfold World.collectFree World.collectNolock
 split
 · exact ⟨rfl,rfl⟩
 split
 · exact ⟨rfl,rfl⟩
 · have hfreed:=freeGarbage_kept (a::w.garbage) { w with
    garbage := a::w.garbage
    garbageByteSize := w.garbageByteSize+bytesForCapacity capacity
    log := .collect a w.caches::w.log }
   exact ⟨hfreed.caches,hfreed.shared⟩

theorem Sound.replace (hs:Sound preopt w) (hc:w.caches c=some m)
 (hg:w.heap.Grows h) (hv:h.Valid) (hh:Holds preopt h n)
 (hbuckets:n.buckets=m.buckets ∨ n.buckets=w.heap.arrays.length ∨ Shared h n.buckets)
 {discards:List ℕ}
 (hdiscards:discards=[] ∨ discards=[m.buckets] ∧ (∃b,Owned preopt w.heap m b) ∧ n.buckets≠m.buckets)
 (capacity:ℕ) (inCritical:Bool) :
 Sound preopt ((w.setCache c h n).collectAll capacity inCritical discards) ∧
  Kept (w.setCache c h n) ((w.setCache c h n).collectAll capacity inCritical discards) := by
 have hset:Sound preopt (w.setCache c h n) :=
  hs.setCache hg hv hh (hbuckets.imp_left fun heq=>⟨m,hc,heq⟩)
 rcases hdiscards with rfl|⟨rfl,⟨b,ho⟩,hne⟩
 · exact ⟨hset,rfl,rfl⟩
 · obtain ⟨hgarbage,hfreed,-⟩:=hs.own hc ho
   exact ⟨hset.collectFree (hs.replaced_unused hc ho hg hne) hfreed hgarbage capacity inCritical,
    collectFree_kept ..⟩

theorem insertDiscards_cases {s:State} (hi:Inv preopt s) :
 insertDiscards s=[] ∨ insertDiscards s=[s.2.buckets] ∧ (∃b,Owned preopt s.1 s.2 b) ∧
  (s.2.makeRoom s.1).2.buckets≠s.2.buckets := by
 unfold insertDiscards
 split
 · exact .inl rfl
 · case isFalse hdyn =>
   push Not at hdyn
   exact .inr ⟨rfl,owned_of_dynamic hi hdyn.1,hdyn.2⟩

section

variable (hs:Sound preopt w)
include hs

theorem Sound.storeEntry (hc:w.caches c=some m)
 (ho:Owned preopt w.heap m b) (hroom:m.occupied+1 ≤ fillLimit (m.mask+1)) {sel:ℕ}
 (imp:ℕ) (hsel:sel≠0) :
 ∃w',w.storeEntry preopt c m sel imp=.ok w' ∧ Sound preopt w' := by
 have hroomy:Roomy preopt (w.heap,m) (w.heap,m) b:=⟨hs.heap,ho,hroom,le_rfl,.inl rfl⟩
 obtain ⟨t,b',hstore,-,ho',-⟩:=storeEntry_spec hroomy imp hsel
 unfold MethodCache.storeEntry at hstore
 unfold World.storeEntry
 cases hfind : m.findSlot preopt w.heap sel with
 | none=>
  rw [hfind] at hstore
  cases hstore
 | some i=>
  rw [hfind] at hstore
  by_cases hempty : selAt (w.heap.array m.buckets) i=0
  · simp only [if_pos hempty] at hstore ⊢
    injection hstore with hstore
    subst hstore
    exact ⟨_,rfl,hs.store hc ho rfl (.owned b' ho')⟩
  · grind

theorem Sound.insert (hc:w.caches c=some m) {sel:ℕ} (imp:ℕ)
 (hsel:sel≠0) (inCritical:Bool) :
 ∃w',w.insert preopt c m sel imp inCritical=.ok w' ∧ Sound preopt w' := by
 have hi:Inv preopt (w.heap,m):=⟨hs.heap,hs.holds c m hc⟩
 obtain ⟨b,hr⟩:=makeRoom_spec hi.heap hi.holds
 obtain ⟨hg,hmoved⟩:=makeRoom_grows w.heap m
 have hbuckets:(m.makeRoom w.heap).2.buckets=m.buckets ∨
  (m.makeRoom w.heap).2.buckets=w.heap.arrays.length ∨
  Shared (m.makeRoom w.heap).1 (m.makeRoom w.heap).2.buckets := by grind
 obtain ⟨hs',hkept⟩:=hs.replace hc hg hr.heap (.owned b hr.owned) hbuckets
  (insertDiscards_cases hi) m.capacity inCritical
 rw [World.insert,if_neg (by simp [hi.not_optimized])]
 have hc':((w.setCache c (m.makeRoom w.heap).1 (m.makeRoom w.heap).2).collectAll m.capacity
  inCritical (insertDiscards (w.heap,m))).caches c=some (m.makeRoom w.heap).2 := by
  rw [hkept.caches]
  exact update_self ..
 -- the array is still the cache's own after the garbage is collected
 have hown:∃b,Owned preopt ((w.setCache c (m.makeRoom w.heap).1
  (m.makeRoom w.heap).2).collectAll m.capacity inCritical
  (insertDiscards (w.heap,m))).heap (m.makeRoom w.heap).2 b := by
  cases hs'.holds c _ hc' with
  | fresh hb hm ho=>exact absurd hb hr.owned.base
  | erased hm ho hfound=>
   rcases emptyBucketsForCapacity_mem (congrArg Prod.snd hfound) with hb|hmem
   · exact absurd hb hr.owned.base
   · rw [hkept.shared] at hmem
     exact absurd hmem hr.owned.unshared
  | owned b ho=>exact ⟨b,ho⟩
 obtain ⟨b',ho'⟩:=hown
 exact hs'.storeEntry hc' ho' hr.room imp hsel

theorem Sound.eraseNolock (hc:w.caches c=some m) (inCritical:Bool) :
 Sound preopt (w.eraseNolock preopt c m inCritical) := by
 have hi:Inv preopt (w.heap,m):=⟨hs.heap,hs.holds c m hc⟩
 obtain ⟨herased,-⟩:=erase_spec hi
 rw [World.eraseNolock,if_neg (by simp [hi.not_optimized])]
 by_cases hpos : 0 < m.occupied
 · obtain ⟨hg,hshared⟩:=erase_occupied hi hpos
   obtain ⟨b,ho⟩:=owned_of_occupied hi hpos
   refine (hs.replace hc hg herased.heap herased.holds (.inr (.inr hshared)) (.inr ⟨?_,⟨b,ho⟩,?_⟩)
    m.capacity inCritical).1
   · exact if_pos hpos
   · intro heq
     have hlt:=(List.getElem?_eq_some_iff.mp ho.array).1
     exact not_shared_grow hg (Owned.not_shared ho) hlt (heq ▸ hshared)
 · have hsame:=erase_unoccupied hi hpos
   have hnone:eraseDiscards (w.heap,m)=[]:=if_neg hpos
   refine (hs.replace hc ?_ herased.heap herased.holds ?_ (.inl hnone) m.capacity inCritical).1
   · rw [hsame]
     exact .refl _
   · exact .inl (by rw [hsame])

theorem Sound.drop (c:ℕ) :
 Sound preopt {w with caches:=update w.caches c none} := by
 have hold:∀{d n},update w.caches c none d=some n → w.caches d=some n:=by grind
 have hunused:∀{a},Unused w a → Unused {w with caches:=update w.caches c none} a :=
  fun hu=>⟨hu.unshared,hu.allocated,fun d n hn=>hu.dropped d n (hold hn)⟩
 exact ⟨hs.heap,fun d n hn=>hs.holds d n (hold hn),
  fun d e n k hde hn hk=>hs.used_once d e n k hde (hold hn) (hold hk),
  fun a ha=>hunused (hs.garbage a ha),hs.garbage_once,
  fun a ha=>⟨hunused (hs.freed a ha).1,(hs.freed a ha).2⟩,hs.freed_once,hs.collected,
  hs.collected_once,hs.replaced,hs.written⟩

theorem Sound.destroy (hc:w.caches c=some m) :
 Sound preopt (w.destroy preopt c m) := by
 have hi:Inv preopt (w.heap,m):=⟨hs.heap,hs.holds c m hc⟩
 unfold World.destroy
 split
 · case isTrue hfree =>
   rw [World.canBeFreed,Bool.and_eq_true,Bool.not_eq_true'] at hfree
   obtain ⟨b,ho⟩:=owned_of_dynamic hi (by simp [hfree.1])
   obtain ⟨hgarbage,hfreed,hothers⟩:=hs.own hc ho
   have hunused:Unused {w with caches:=update w.caches c none} m.buckets:=by
    refine ⟨Owned.not_shared ho,(List.getElem?_eq_some_iff.mp ho.array).1,fun d n hn=>?_⟩
    grind
   exact (hs.drop c).free hunused hfreed hgarbage (List.Sublist.refl _) fun b hb=>.inr hb
 · exact hs.drop c

theorem Sound.step {op:Op} (hop:op.Valid) :
 ∃w',step preopt w op=.ok w' ∧ Sound preopt w' := by
 cases op with
 | initializeToEmpty c=>
  refine ⟨_,rfl,?_⟩
  split
  · exact hs.setCache (.refl _) hs.heap (.fresh rfl rfl rfl) (.inr (.inr (.inl rfl)))
  · exact hs
 | insert c sel imp inCritical=>
  simp only [CacheOwnership.step]
  cases hc : w.caches c with
  | some m=>exact hs.insert hc imp hop inCritical
  | none=>exact ⟨w,rfl,hs⟩
 | eraseNolock c inCritical=>grind [CacheOwnership.step,hs.eraseNolock]
 | destroy c=>grind [CacheOwnership.step,hs.destroy]
 | collectNolock collectALot inCritical=>
  exact ⟨_,rfl,hs.collectNolock collectALot inCritical⟩

end

theorem sound_initial (preopt:Bool) : Sound preopt initial where
 heap := (inv_initial preopt).heap
 holds c m hm := by cases hm
 used_once c d m n _ hm := by cases hm
 garbage a ha := by cases ha
 garbage_once := List.nodup_nil
 freed a ha := by cases ha
 freed_once := List.nodup_nil
 collected a ha := by cases ha
 collected_once := List.nodup_nil
 replaced a caches ha := by cases ha
 written a ha := by cases ha

theorem Sound.run (hs:Sound preopt w) {ops:List Op} (hops:∀op∈ops,op.Valid) :
 ∃w',run preopt w ops=.ok w' ∧ Sound preopt w' := by
 induction ops generalizing w with
 | nil=>exact ⟨w,rfl,hs⟩
 | cons op ops ih=>
  obtain ⟨hop,hrest⟩:=List.forall_mem_cons.mp hops
  obtain ⟨w₁,hstep,hs₁⟩:=hs.step hop
  obtain ⟨w₂,hrun,hs₂⟩:=ih hs₁ hrest
  refine ⟨w₂,?_,hs₂⟩
  rw [CacheOwnership.run,hstep]
  exact hrun

/-- Over every sequence of operations on any caches, none fails, and the bucket arrays are owned
linearly. -/
theorem bucket_arrays_linear (preopt:Bool) (ops:List Op) (hops:∀op∈ops,op.Valid) :
 ∃w,run preopt initial ops=.ok w ∧ Linear w := by
 obtain ⟨w,hrun,hs⟩:=(sound_initial preopt).run hops
 exact ⟨w,hrun,hs.linear⟩

theorem arrays_of_two_caches :
 ∃w,run true initial [.initializeToEmpty 0,.initializeToEmpty 1,.insert 0 3 7 false,
  .insert 1 3 7 false,.eraseNolock 0 true,.insert 0 4 9 false,.collectNolock true false,
  .destroy 1]=.ok w ∧
  Linear w ∧ w.log.filterMap Event.freed=[2,1] ∧
  w.log.filterMap Event.collected=[1] ∧ w.log.filterMap Event.written=[3,2,1] := by
 obtain ⟨w,hrun,hlinear⟩:=bucket_arrays_linear true [.initializeToEmpty 0,
  .initializeToEmpty 1,.insert 0 3 7 false,.insert 1 3 7 false,.eraseNolock 0 true,
  .insert 0 4 9 false,.collectNolock true false,.destroy 1] (by simp [Op.Valid])
 have hlog:(run true initial [.initializeToEmpty 0,.initializeToEmpty 1,.insert 0 3 7 false,
  .insert 1 3 7 false,.eraseNolock 0 true,.insert 0 4 9 false,.collectNolock true false,
  .destroy 1]).map (fun w=>(w.log.filterMap Event.freed,w.log.filterMap Event.collected,
   w.log.filterMap Event.written))=.ok ([2,1],[1],[3,2,1]) := by
  decide +kernel
 rw [hrun] at hlog
 injection hlog with hlog
 obtain ⟨hfreed,hrest⟩:=Prod.mk.injEq .. ▸ hlog
 obtain ⟨hcollected,hwritten⟩:=Prod.mk.injEq .. ▸ hrest
 exact ⟨w,hrun,hlinear,hfreed,hcollected,hwritten⟩

end Sound

end ObjcRuntime.CacheOwnership
