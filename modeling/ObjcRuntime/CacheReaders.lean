import ObjcRuntime.MethodCache

/-!
# Lock-free readers of the method cache

A reader loads the word that holds the array and its mask, then one bucket at a time; a writer,
which holds `runtimeLock`, stores one word or one bucket at a time.
-/

set_option autoImplicit false
namespace ObjcRuntime.CacheReaders
open MethodCache DescendingProbe

/-- The registers of a lookup: `p1`, `p10`, `p11`, `p12` and, as an index, `p13`. -/
structure Probe where
 sel : ℕ
 array : ℕ
 mask : ℕ
 first : ℕ
 bucket : ℕ
 wrapped : Bool

inductive Reader where
 | idle
 | probing (p:Probe)
 | done (imp:Option ℕ)

def Probe.start (preopt:Bool) (sel:ℕ) (c:Cache) : Probe :=
 ⟨sel,c.buckets,c.mask,cacheHash preopt sel c.mask,cacheHash preopt sel c.mask,false⟩

def Probe.next (p:Probe) (b:Bucket) : Reader :=
 if b.sel=p.sel then .done (some b.imp)
 else if b.sel=0 then .done none
 else if p.wrapped then
  if p.first+1 < p.bucket then .probing {p with bucket:=p.bucket-1} else .done none
 else if 0 < p.bucket then .probing {p with bucket:=p.bucket-1}
 else .probing {p with bucket:=p.mask,wrapped:=true}

/-- The writer that holds `runtimeLock`: none, or one between the two halves of `insert`. -/
inductive Writer where
 | idle
 | storing (sel imp:ℕ)

structure Config where
 mem : State
 garbage : List ℕ
 writer : Writer
 readers : ℕ → Reader

def insertDiscards (s:State) : List ℕ :=
 if s.2.isConstantEmptyCache s.1 ∨ (s.2.makeRoom s.1).2.buckets=s.2.buckets then []
 else [s.2.buckets]

def eraseDiscards (s:State) : List ℕ := if 0 < s.2.occupied then [s.2.buckets] else []

inductive Label where
 | load (r sel:ℕ)
 | probe (r:ℕ)
 | recover (r:ℕ)
 | makeRoom (sel imp:ℕ)
 | store
 | erase
 | elsewhere (capacity:ℕ)
 | free (array:ℕ)
 deriving DecidableEq

def Config.setReader (c:Config) (r:ℕ) (x:Reader) : Config :=
 {c with readers:=Function.update c.readers r x}

theorem Config.setReader_self (c:Config) (r:ℕ) (x:Reader) : (c.setReader r x).readers r=x := by
 simp [Config.setReader]

theorem Config.setReader_of_ne (c:Config) {r r':ℕ} (hr:r≠r') (x:Reader) :
 (c.setReader r' x).readers r=c.readers r := by
 simp [Config.setReader,hr]

def Config.releaseArray (c:Config) (a:ℕ) : Config :=
 { c with
   mem := ({c.mem.1 with arrays:=c.mem.1.arrays.set a []},c.mem.2)
   garbage := c.garbage.erase a }

inductive Step (preopt:Bool) : Config → Label → Config → Prop where
 | load {c:Config} {r sel} (idle:c.readers r=.idle) (cmd:sel≠0) :
  Step preopt c (.load r sel) (c.setReader r (.probing (.start preopt sel c.mem.2)))
 | probe {c:Config} {r} {p:Probe} {array:List Bucket} {b} (reading:c.readers r=.probing p)
  (mapped:c.mem.1.arrays[p.array]?=some array) (pair:array[p.bucket]?=some b) :
  Step preopt c (.probe r) (c.setReader r (p.next b))
 /-- A restartable range: the lookup is sent to its miss path. -/
 | recover {c:Config} {r} {p:Probe} (reading:c.readers r=.probing p) :
  Step preopt c (.recover r) (c.setReader r (.done none))
 | makeRoom {c:Config} {sel imp} (idle:c.writer=.idle) (nonzero:sel≠0)
  (dynamic:c.mem.2.isConstantOptimizedCache preopt=false) :
  Step preopt c (.makeRoom sel imp)
   { c with
     mem := c.mem.2.makeRoom c.mem.1
     garbage := insertDiscards c.mem++c.garbage
     writer := .storing sel imp }
 | store {c:Config} {sel imp:ℕ} {mem} (writing:c.writer=.storing sel imp)
  (stored:storeEntry preopt c.mem sel imp=.ok mem) :
  Step preopt c .store {c with mem:=mem,writer:=.idle}
 | erase {c:Config} (idle:c.writer=.idle) : Step preopt c .erase
   { c with
     mem := eraseNolock preopt c.mem
     garbage := eraseDiscards c.mem++c.garbage }
 | elsewhere {c:Config} {capacity} (idle:c.writer=.idle) : Step preopt c (.elsewhere capacity)
   {c with mem:=((emptyBucketsForCapacity c.mem.1 capacity true).1,c.mem.2)}
 /-- Garbage is freed when no reader is probing it. -/
 | free {c:Config} {a} (garbage:a∈c.garbage) (unread:∀r p,c.readers r=.probing p → p.array≠a) :
  Step preopt c (.free a) (c.releaseArray a)

inductive Path (preopt:Bool) : Config → List (Label × Config) → Config → Prop where
 | refl (c) : Path preopt c [] c
 | snoc {c d e:Config} {trace l} (path:Path preopt c trace d) (step:Step preopt d l e) :
  Path preopt c (trace++[(l,e)]) e

def initial : Config :=
 ⟨(Heap.initial,.initializeToEmpty),[],.idle,fun _=>.idle⟩

structure Good (preopt:Bool) (c:Config) : Prop where
 inv : Inv preopt c.mem
 storing : ∀{sel imp:ℕ},c.writer=.storing sel imp → sel≠0 ∧ ∃s b,Roomy preopt s c.mem b
 garbage : ∀a∈c.garbage,a≠emptyBuckets ∧ a∉c.mem.1.emptyBucketsList ∧
  a≠c.mem.2.buckets ∧ a < c.mem.1.arrays.length

theorem good_initial (preopt:Bool) : Good preopt initial where
 inv := inv_initial preopt
 storing hw := by cases hw
 garbage a ha := by cases ha

variable {s:State} {a:ℕ} {h:Heap} {b:List Bucket} {l:Label}
 {trace:List (Label × Config)} {seen:List Config}

section Writers

variable {preopt:Bool} {c c':Config}

theorem makeRoom_grows (h:Heap) (c:Cache) : h.Grows (c.makeRoom h).1 ∧
  (c.makeRoom h=(h,c) ∨ (c.makeRoom h).2.buckets=h.arrays.length) := by
 rw [Cache.makeRoom]
 by_cases hempty : c.isConstantEmptyCache h
 · rw [if_pos hempty]
   exact ⟨h.calloc_grows _,.inr rfl⟩
 rw [if_neg hempty]
 split
 · exact ⟨.refl h,.inl rfl⟩
 split
 · exact ⟨.refl h,.inl rfl⟩
 · exact ⟨h.calloc_grows _,.inr rfl⟩

theorem owned_of_occupied (hi:Inv preopt s) (hpos:0 < s.2.occupied) :
 ∃b,Owned preopt s.1 s.2 b := by
 cases hi.holds with
 | fresh hb hm ho | erased hm ho hs=>omega
 | owned b ho=>exact ⟨b,ho⟩

theorem owned_of_dynamic (hi:Inv preopt s) (hdyn:¬s.2.isConstantEmptyCache s.1) :
 ∃b,Owned preopt s.1 s.2 b := by
 cases hi.holds with
 | fresh hb hm ho=>
  grind [Cache.isConstantEmptyCache,Cache.capacity,emptyBucketsForCapacity,bytesForCapacity]
 | erased hm ho hs=>exact absurd (by simp [Cache.isConstantEmptyCache,ho,hs]) hdyn
 | owned b ho=>exact ⟨b,ho⟩

theorem erase_occupied (hi:Inv preopt s) (hpos:0 < s.2.occupied) :
 s.1.Grows (eraseNolock preopt s).1 ∧ ((eraseNolock preopt s).2.buckets=emptyBuckets ∨
    (eraseNolock preopt s).2.buckets∈(eraseNolock preopt s).1.emptyBucketsList) := by
 rw [eraseNolock,if_neg (by simp [hi.not_optimized]),if_pos hpos]
 obtain ⟨h',id,hempty,-,hg,hfound⟩:=emptyBucketsForCapacity_spec hi.heap s.2.capacity
 rw [hempty]
 exact ⟨hg,emptyBucketsForCapacity_mem (congrArg Prod.snd hfound)⟩

theorem erase_unoccupied (hi:Inv preopt s) (hpos:¬0 < s.2.occupied) : eraseNolock preopt s=s := by
 rw [eraseNolock,if_neg (by simp [hi.not_optimized]),if_neg hpos]

theorem storeEntry_cases {t:State} {sel imp:ℕ} (h:storeEntry preopt s sel imp=.ok t) :
 t=s ∨ ∃i,t=(s.1.store s.2.buckets i ⟨imp,sel⟩,s.2.incrementOccupied) := by
 unfold storeEntry at h
 grind

theorem Good.garbage_apart (hg:Good preopt c) (s':State) (hgrow:c.mem.1.Grows s'.1)
 (hbuckets:s'.2.buckets=c.mem.2.buckets ∨ s'.2.buckets=c.mem.1.arrays.length ∨
  s'.2.buckets=emptyBuckets ∨ s'.2.buckets∈s'.1.emptyBucketsList)
 (ha:a∈c.garbage) :
 a≠emptyBuckets ∧ a∉s'.1.emptyBucketsList ∧ a≠s'.2.buckets ∧
  a < s'.1.arrays.length := by
 obtain ⟨hbase,hun,hcur,hlt⟩:=hg.garbage a ha
 grind [hgrow.unshared,hgrow.arrays.length_le]

variable {m:Cache}

theorem owned_apart {h':Heap} (ho:Owned preopt h m b) (hgrow:h.Grows h') :
 m.buckets≠emptyBuckets ∧ m.buckets∉h'.emptyBucketsList ∧
  m.buckets < h'.arrays.length := by
 have hlt:=(List.getElem?_eq_some_iff.mp ho.array).1
 exact ⟨ho.base,hgrow.unshared hlt ho.unshared,hlt.trans_le hgrow.arrays.length_le⟩

theorem Good.makeRoom (hg:Good preopt c) {sel imp:ℕ} (hsel:sel≠0) : Good preopt { c with
  mem := c.mem.2.makeRoom c.mem.1
  garbage := insertDiscards c.mem++c.garbage
  writer := .storing sel imp } := by
 obtain ⟨b,hroomy⟩:=makeRoom_spec hg.inv.heap hg.inv.holds
 obtain ⟨hgrow,hmoved⟩:=makeRoom_grows c.mem.1 c.mem.2
 refine ⟨⟨hroomy.heap,.owned b hroomy.owned⟩,?_,fun a ha=>?_⟩
 · grind
 · rcases List.mem_append.mp ha with hnow|hbefore
   · unfold insertDiscards at hnow
     split at hnow
     · cases hnow
     · case isFalse hdyn =>
       push Not at hdyn
       rw [List.mem_singleton] at hnow
       obtain ⟨b₀,ho⟩:=owned_of_dynamic hg.inv hdyn.1
       grind [owned_apart]
   · grind [hg.garbage_apart]

theorem Good.erase (hg:Good preopt c) (hidle:c.writer=.idle) : Good preopt { c with
  mem := eraseNolock preopt c.mem
  garbage := eraseDiscards c.mem++c.garbage } := by
 refine ⟨(erase_spec hg.inv).1,fun hw=>absurd (hidle.symm.trans hw) (by simp),fun a ha=>?_⟩
 by_cases hpos : 0 < c.mem.2.occupied
 · obtain ⟨hgrow,hshared⟩:=erase_occupied hg.inv hpos
   rcases List.mem_append.mp ha with hnow|hbefore
   · rw [eraseDiscards,if_pos hpos,List.mem_singleton] at hnow
     obtain ⟨b,ho⟩:=owned_of_occupied hg.inv hpos
     grind [owned_apart]
   · exact hg.garbage_apart _ hgrow (.inr (.inr hshared)) hbefore
 · grind [erase_unoccupied,hg.inv,eraseDiscards,hg.garbage]

theorem Good.store (hg:Good preopt c) {sel imp:ℕ} (hw:c.writer=.storing sel imp)
 {mem:State} (hs:storeEntry preopt c.mem sel imp=.ok mem) :
 Good preopt {c with mem:=mem,writer:=.idle} ∧ ∃b,Owned preopt mem.1 mem.2 b := by
 obtain ⟨hsel,s,b,hroomy⟩:=hg.storing hw
 obtain ⟨t,b',ht,hv,ho,-,-⟩:=storeEntry_spec hroomy imp hsel
 cases ht.symm.trans hs
 refine ⟨⟨⟨hv,.owned b' ho⟩,fun hw=>absurd hw (by simp),fun a ha=>?_⟩,b',ho⟩
 obtain ⟨hbase,hun,hcur,hlt⟩:=hg.garbage a ha
 rcases storeEntry_cases hs with rfl|⟨i,rfl⟩
 · exact ⟨hbase,hun,hcur,hlt⟩
 · exact ⟨hbase,hun,hcur,by simpa [Heap.store] using hlt⟩

theorem Good.elsewhere (hg:Good preopt c) (hidle:c.writer=.idle) (capacity:ℕ) :
 Good preopt { c with
  mem := ((emptyBucketsForCapacity c.mem.1 capacity true).1,c.mem.2) } := by
 obtain ⟨h',id,hempty,hv,hgrow,-⟩:=emptyBucketsForCapacity_spec hg.inv.heap capacity
 rw [hempty]
 refine ⟨⟨hv,hg.inv.holds.grow hgrow⟩,fun hw=>absurd (hidle.symm.trans hw) (by simp),fun a ha=>?_⟩
 exact hg.garbage_apart (h',c.mem.2) hgrow (.inl rfl) ha

theorem owned_release (ho:Owned preopt h m b) (ha:a≠m.buckets) (x:List Bucket) :
 Owned preopt {h with arrays:=h.arrays.set a x} m b where
 mask := ho.mask
 base := ho.base
 unshared := ho.unshared
 array := (List.getElem?_set_ne ha).trans ho.array
 packed := ho.packed

theorem emptyBucketsForCapacity_release {capacity id:ℕ} (a:ℕ) (x:List Bucket)
 (hfound:emptyBucketsForCapacity h capacity false=(h,some id)) :
 emptyBucketsForCapacity {h with arrays:=h.arrays.set a x} capacity false =
  ({h with arrays:=h.arrays.set a x},some id) := by
 unfold emptyBucketsForCapacity at hfound ⊢
 grind

theorem valid_release (hv:h.Valid) (hbase:a≠emptyBuckets) (hun:a∉h.emptyBucketsList)
 (x:List Bucket) :
 ({h with arrays:=h.arrays.set a x} : Heap).Valid := by
 refine ⟨(List.getElem?_set_ne hbase).trans hv.base,fun {k id} hk=>?_⟩
 grind [hv.shared]

theorem holds_release (hh:Holds preopt h m) (ha:a≠m.buckets) (x:List Bucket) :
 Holds preopt {h with arrays:=h.arrays.set a x} m := by
 cases hh with
 | fresh hb hm ho=>exact .fresh hb hm ho
 | erased hm ho hs=>exact .erased hm ho (emptyBucketsForCapacity_release a x hs)
 | owned b ho=>exact .owned b (owned_release ho ha x)

theorem Good.free (hg:Good preopt c) (ha:a∈c.garbage) : Good preopt (c.releaseArray a) := by
 obtain ⟨hbase,hun,hcur,-⟩:=hg.garbage a ha
 have hvalid:=valid_release hg.inv.heap hbase hun []
 refine ⟨⟨hvalid,holds_release hg.inv.holds hcur []⟩,fun hw=>?_,fun a' ha'=>?_⟩
 · obtain ⟨hsel,s,b,hroomy⟩:=hg.storing hw
   refine ⟨hsel,(c.releaseArray a).mem,b,hvalid,owned_release hroomy.owned hcur [],hroomy.room,
    le_rfl,.inl rfl⟩
 · simpa [Config.releaseArray] using hg.garbage a' (List.mem_of_mem_erase ha')

theorem good_step (hg:Good preopt c) (hs:Step preopt c l c') : Good preopt c' := by
 cases hs with
 | load idle cmd | probe reading mapped pair | recover reading=>
  exact ⟨hg.inv,hg.storing,hg.garbage⟩
 | makeRoom idle nonzero dynamic=>exact hg.makeRoom nonzero
 | store writing stored=>exact (hg.store writing stored).1
 | erase idle=>exact hg.erase idle
 | elsewhere idle=>exact hg.elsewhere idle _
 | free garbage unread=>exact hg.free garbage

theorem good_path (hg:Good preopt c) (hp:Path preopt c trace c') : Good preopt c' := by
 induction hp with
 | refl=>exact hg
 | snoc path step ih=>exact good_step ih step

theorem arrays_step (hg:Good preopt c) (hs:Step preopt c l c') (hb:c.mem.1.arrays[a]?=some b) :
 c'.mem.1.arrays[a]?=some b ∨ (∃i x,c'.mem.1.arrays[a]?=some (b.set i x) ∧ slots c'.mem=b.set i x) ∨
  l=.free a := by
 cases hs with
 | load idle cmd | probe reading mapped pair | recover reading=>exact .inl hb
 | makeRoom idle nonzero dynamic=>exact .inl ((makeRoom_grows c.mem.1 c.mem.2).1.get hb)
 | @store sel imp _ writing stored=>
  obtain ⟨-,b',ho⟩:=hg.store writing stored
  rcases storeEntry_cases stored with rfl|⟨i,rfl⟩
  · exact .inl hb
  · by_cases ha : c.mem.2.buckets=a
    · right; left
      subst ha
      have hlt:=(List.getElem?_eq_some_iff.mp hb).1
      have hset:(c.mem.1.store c.mem.2.buckets i ⟨imp,sel⟩).arrays[c.mem.2.buckets]? =
       some (b.set i ⟨imp,sel⟩) := by
       rw [Heap.store,List.getElem?_set_self hlt,Heap.array_eq hb]
      refine ⟨i,_,hset,?_⟩
      rw [ho.slots_eq]
      exact Option.some.inj (ho.array.symm.trans hset)
    · exact .inl ((List.getElem?_set_ne ha).trans hb)
 | erase idle=>
  left
  by_cases hpos : 0 < c.mem.2.occupied
  · exact (erase_occupied hg.inv hpos).1.get hb
  · simp only [erase_unoccupied hg.inv hpos]
    exact hb
 | @elsewhere capacity idle=>
  obtain ⟨h',id,hempty,-,hgrow,-⟩:=emptyBucketsForCapacity_spec hg.inv.heap capacity
  left
  rw [hempty]
  exact hgrow.get hb
 | @free x garbage unread=>
  by_cases ha : x=a
  · exact .inr (.inr (by rw [ha]))
  · exact .inl ((List.getElem?_set_ne ha).trans hb)

end Writers

def Probe.left (p:Probe) : ℕ := if p.wrapped then p.bucket+1 else p.bucket+p.mask+2

def HeldIn (seen:List Config) (sel imp:ℕ) : Prop :=
 ∃c∈seen,∃e∈slots c.mem,e.sel=sel ∧ e.imp=imp

def probesOf (r:ℕ) (trace:List (Label × Config)) : ℕ :=
 trace.countP fun x=>x.1=.probe r

/-- The lookup of `sel` by reader `r` that loaded the word of `m`: the array is large enough and
holds for `sel` only what the class's array held since, or the lookup is over. -/
inductive Follows (sel:ℕ) (m:Cache) (seen:List Config) (probes:ℕ) (c:Config) : Reader → Prop where
 | probing (p:Probe) (array:List Bucket) (cmd:p.sel=sel) (buckets:p.array=m.buckets)
  (mask:p.mask=m.mask) (bucket:p.bucket ≤ p.mask) (spent:probes+p.left≤2*m.mask+2)
  (mapped:c.mem.1.arrays[p.array]?=some array) (large:p.mask < array.length)
  (held:∀e∈array,e.sel=sel → HeldIn seen sel e.imp) :
  Follows sel m seen probes c (.probing p)
 | miss : Follows sel m seen probes c (.done none)
 | hit (imp) (held:HeldIn seen sel imp) : Follows sel m seen probes c (.done (some imp))

section Lookup

variable {preopt:Bool} {c c':Config} {r sel:ℕ} {m:Cache}

theorem HeldIn.append {imp:ℕ} (h:HeldIn seen sel imp) (more:List Config) :
 HeldIn (seen++more) sel imp := by
 obtain ⟨d,hd,he⟩:=h
 exact ⟨d,List.mem_append_left _ hd,he⟩

theorem current_array (hi:Inv preopt s) :
 ∃array,s.1.arrays[s.2.buckets]?=some array ∧ s.2.mask < array.length ∧
  ∀e∈array,e.sel≠0 → e∈slots s := by
 have hzero:∀{n:ℕ} {e:Bucket},e∈List.replicate n Bucket.zero → e.sel=0:=by
  intro n e he
  rw [(List.mem_replicate.mp he).2]
  rfl
 cases hi.holds with
 | fresh hb hm ho=>grind [hi.heap.base]
 | erased hm ho hs=>
  have hcap:=hm.capacity
  obtain ⟨k,hk,hmax,hpow⟩:=hm
  grind [shared_zeroed,hi.heap]
 | owned b ho=>
  refine ⟨b,ho.array,by rw [ho.packed.length]; omega,fun e he _=>?_⟩
  rwa [ho.slots_eq]

theorem follows_load (hg:Good preopt c) (hs:Step preopt c (.load r sel) c') :
 Follows sel c.mem.2 [c'] 0 c' (c'.readers r) := by
 cases hs with
 | load idle cmd=>
  obtain ⟨array,harr,hlarge,hheld⟩:=current_array hg.inv
  rw [Config.setReader_self]
  refine .probing _ array rfl rfl rfl (cacheHash_le _ _ _) ?_ harr hlarge fun e he hsel=>?_
  · grind [cacheHash_le,Probe.left,Probe.start]
  · exact ⟨_,List.mem_singleton_self _,e,hheld e he (hsel ▸ cmd),hsel,rfl⟩

theorem Probe.next_cases (p:Probe) (b:Bucket) (hbucket:p.bucket ≤ p.mask) :
 (b.sel=p.sel ∧ p.next b=.done (some b.imp)) ∨ p.next b=.done none ∨
  ∃q : Probe,p.next b=.probing q ∧ q.sel=p.sel ∧ q.array=p.array ∧
   q.mask=p.mask ∧ q.bucket ≤ q.mask ∧ q.left+1=p.left := by
 unfold Probe.next Probe.left
 grind

theorem Follows.frame {probes:ℕ} {x:Reader} (hf:Follows sel m seen probes c x)
 (hx:c.readers r=x) (hg:Good preopt c) (hs:Step preopt c l c') :
 Follows sel m (seen++[c']) probes c' x := by
 cases hf with
 | miss=>exact .miss
 | hit imp held=>exact .hit imp (held.append _)
 | probing p array cmd buckets mask bucket spent mapped large held=>
  rcases arrays_step hg hs mapped with hsame|⟨i,b,hset,hslots⟩|hfree
  · exact .probing p array cmd buckets mask bucket spent hsame large
     fun e he hsel=>(held e he hsel).append _
  · refine .probing p _ cmd buckets mask bucket spent hset (by rwa [List.length_set]) ?_
    intro e he hsel
    exact ⟨c',List.mem_append_right _ (List.mem_singleton_self _),e,hslots ▸ he,hsel,rfl⟩
  · subst hfree
    cases hs with
    | free garbage unread=>exact absurd rfl (unread r p hx)

theorem Follows.step (hf:Follows sel m seen (probesOf r trace) c (c.readers r))
 (hg:Good preopt c) (hs:Step preopt c l c') :
 Follows sel m (seen++[c']) (probesOf r (trace++[(l,c')])) c' (c'.readers r) := by
 have hframe:=hf.frame rfl hg hs
 have hcount:probesOf r (trace++[(l,c')])=probesOf r trace+if l=.probe r then 1 else 0 := by
  simp [probesOf,List.countP_append,List.countP_singleton]
 rw [hcount]
 cases hs with
 | @load r' sel' idle cmd=>
  rw [if_neg (by simp)]
  by_cases hr : r=r'
  · subst hr
    rw [idle] at hf
    cases hf
  · rwa [Config.setReader_of_ne c hr]
 | @probe r' p array b reading mapped pair=>
  by_cases hr : r=r'
  · subst hr
    rw [reading] at hframe
    rw [if_pos rfl,Config.setReader_self]
    cases hframe with
    | probing _ array' cmd buckets mask bucket spent mapped' large held=>
     cases mapped.symm.trans mapped'
     refine (?_ : ∀x,x=p.next b → Follows sel m _ _ _ x) _ rfl
     intro x hx
     rcases p.next_cases b bucket with
      ⟨hsel,hhit⟩ | hmiss | ⟨q,hq,hcmd,harr,hmask,hle,hleft⟩
     · rw [hx.trans hhit]
       exact .hit _ (held b (List.mem_of_getElem? pair) (hsel.trans cmd))
     · rw [hx.trans hmiss]
       exact .miss
     · rw [hx.trans hq]
       exact .probing q array (hcmd.trans cmd) (harr.trans buckets) (hmask.trans mask) hle
        (by omega) (harr ▸ mapped) (hmask ▸ large) held
  · rwa [if_neg (by simp [Ne.symm hr]),Config.setReader_of_ne c hr]
 | @recover r' p reading=>
  rw [if_neg (by simp)]
  by_cases hr : r=r'
  · subst hr
    rw [Config.setReader_self]
    exact .miss
  · rwa [Config.setReader_of_ne c hr]
 | makeRoom idle nonzero dynamic | store writing stored | erase idle | elsewhere idle
 | free garbage unread=>rwa [if_neg (by simp)]

theorem follows_path (hg:Good preopt c) (hf:Follows sel m [c] 0 c (c.readers r))
 (hp:Path preopt c trace c') :
 Follows sel m (c::trace.map Prod.snd) (probesOf r trace) c' (c'.readers r) := by
 induction hp with
 | refl=>exact hf
 | snoc path step ih=>
  have hnext:=ih.step (good_path hg path) step
  rwa [List.map_append,List.map_singleton,←List.cons_append]

/-- In every interleaving with the writers a lookup makes at most `2 * mask + 2` probes, all inside
the array it loaded, is never stuck, and hits only with an imp that the class's array of the moment
held for the selector at some point of the lookup. -/
theorem cacheLookup_sound {before after:List (Label × Config)} {c₀ c₁ c₂:Config}
 (hreach:Path preopt initial before c₀) (hload:Step preopt c₀ (.load r sel) c₁)
 (hpath:Path preopt c₁ after c₂) :
 (∀p,c₂.readers r=.probing p → p.array=c₀.mem.2.buckets ∧ p.mask=c₀.mem.2.mask ∧
  (∃array,c₂.mem.1.arrays[p.array]?=some array ∧ p.bucket < array.length) ∧
  probesOf r after<2*p.mask+2 ∧ ∃c₃,Step preopt c₂ (.probe r) c₃) ∧
 c₂.readers r≠.idle ∧
 ∀imp,c₂.readers r=.done (some imp) →
  ∃c∈c₁::after.map Prod.snd,∃e∈slots c.mem,e.sel=sel ∧ e.imp=imp := by
 have hg:=good_path (good_initial preopt) hreach
 have hf:=follows_path (good_step hg hload) (follows_load hg hload) hpath
 refine ⟨fun p hp=>?_,fun hidle=>?_,fun imp himp=>?_⟩
 · rw [hp] at hf
   cases hf with
   | probing _ array cmd buckets mask bucket spent mapped large held=>
    have hin:p.bucket < array.length:=bucket.trans_lt large
    have hpos:0 < p.left:=by unfold Probe.left; split <;> omega
    exact ⟨buckets,mask,⟨array,mapped,hin⟩,by omega,_,
     .probe hp mapped (List.getElem?_eq_getElem hin)⟩
 · rw [hidle] at hf
   cases hf
 · rw [himp] at hf
   cases hf with
   | hit _ held=>exact held

theorem cacheLookup_hits_erased_array :
 ∃before after c₀ c₁ c₂,Path false initial before c₀ ∧ Step false c₀ (.load 0 3) c₁ ∧
  Path false c₁ after c₂ ∧ c₂.readers 0=.done (some 7) ∧ c₂.mem.2.occupied=0 ∧
  ∃c∈c₁::after.map Prod.snd,∃e∈slots c.mem,e.sel=3 ∧ e.imp=7 := by
 suffices hrun : ∃before after c₀ c₁ c₂,Path false initial before c₀ ∧
  Step false c₀ (.load 0 3) c₁ ∧ Path false c₁ after c₂ ∧
  c₂.readers 0=.done (some 7) ∧ c₂.mem.2.occupied=0 by
  obtain ⟨before,after,c₀,c₁,c₂,hreach,hload,hpath,hhit,hempty⟩:=hrun
  exact ⟨before,after,c₀,c₁,c₂,hreach,hload,hpath,hhit,hempty,
   (cacheLookup_sound hreach hload hpath).2.2 7 hhit⟩
 exact ⟨_,_,_,_,_,Path.snoc (Path.snoc (Path.refl initial)
  (@Step.makeRoom false initial 3 7 rfl (by decide) rfl)) (@Step.store false _ 3 7 _ rfl rfl),
  @Step.load false _ 0 3 rfl (by decide),
  Path.snoc (Path.snoc (Path.refl _) (@Step.erase false _ rfl))
   (@Step.probe false _ 0 _ _ _ rfl rfl rfl),rfl,rfl⟩

end Lookup

end ObjcRuntime.CacheReaders
