import ObjcRuntime.CacheReaders

/-!
# The two loops of `CacheLookup`

The macro of the arm64 LP64 messenger on its registers, which hold addresses of buckets. It scans
down from the hashed bucket to the first one, then from the last one to the bucket above the first
it probed. Imps are stored as `imp ^ isa`.
-/
set_option autoImplicit false
namespace ObjcRuntime.CacheLookup
open MethodCache CacheReaders DescendingProbe

/-- `CACHE_MASK_STORAGE` of an LP64 target; preoptimized caches exist with `HIGH_16` only. -/
inductive MaskStorage where
 | high16BigAddrs
 | high16 (preopt:Bool)

namespace MaskStorage

def preopt : MaskStorage → Bool
 | .high16BigAddrs=>false
 | .high16 preopt=>preopt

def addressLimit : MaskStorage → ℕ
 | .high16BigAddrs=>2^48
 | .high16 _=>2^44

end MaskStorage

def bucketsAndMask (buckets mask:ℕ) : ℕ := mask <<< 48 ||| buckets

/-- `secondLoop` is set from label 4 on. -/
structure Registers where
 p1 : ℕ
 p10 : ℕ
 p11 : ℕ
 p12 : ℕ
 p13 : ℕ
 secondLoop : Bool

def loadCache (σ:MaskStorage) (word sel:ℕ) : Registers :=
 match σ with
 | .high16BigAddrs=>
  let p11:=word >>> 48
  let p10:=word &&& 0xffffffffffff
  let p12:=sel % 2^32 &&& p11 % 2^32
  ⟨sel,p10,p11,p12,p10+p12 <<< 4,false⟩
 | .high16 preopt=>
  let p10:=word &&& (if preopt then 0x0000fffffffffffe else 0x0000ffffffffffff)
  let p12:=(if preopt then sel ^^^ (sel >>> 7) else sel) &&& word >>> 48
  ⟨sel,p10,word,p12,p10+p12 <<< 4,false⟩

def wrapAround (σ:MaskStorage) (r:Registers) : Registers :=
 let last:=match σ with
  | .high16BigAddrs=>(r.p11 % 2^32) <<< 4
  | .high16 _=>r.p11 >>> 44
 {r with p13:=r.p10+last,p12:=r.p10+r.p12 <<< 4,secondLoop:=true}

inductive Next where
 | again (r:Registers)
 | hit (p17:ℕ)
 | miss

/-- From one `ldp` to the next, or out of the macro. -/
def step (σ:MaskStorage) (r:Registers) (p17 p9:ℕ) : Next :=
 let p13:=(r.p13+(2^64-16)) % 2^64
 if p9=r.p1 then .hit p17
 else if p9=0 then .miss
 else if r.secondLoop then
  if r.p12 < p13 then .again {r with p13:=p13} else .miss
 else if r.p10 ≤ p13 then .again {r with p13:=p13}
 else .again (wrapAround σ r)

/-- The addresses that are read and how the macro is left; `none` if the fuel runs out. -/
def scanBuckets (σ:MaskStorage) (mem:ℕ → ℕ × ℕ) : ℕ → Registers → List ℕ × Option Next
 | 0,_=>([],none)
 | fuel+1,r=>
  match step σ r (mem r.p13).1 (mem r.p13).2 with
  | .again r'=>
   let rest:=scanBuckets σ mem fuel r'
   (r.p13::rest.1,rest.2)
  | out=>([r.p13],some out)

inductive Mode where
 | normal | getimp | lookup

def cacheHit (mode:Mode) (isa p17:ℕ) : ℕ :=
 match mode with
 | .getimp=>if p17=0 then 0 else p17 ^^^ isa
 | _=>p17 ^^^ isa

def encodeImp (imp isa:ℕ) : ℕ := if imp=0 then 0 else imp ^^^ isa

def Maps (mem:ℕ → ℕ × ℕ) (base mask isa:ℕ) (b:List Bucket) : Prop :=
 ∀i ≤ mask,mem (base+16*i)=(encodeImp (b.getD i .zero).imp isa,selAt b i)

structure Placed (σ:MaskStorage) (base:ℕ) : Prop where
 aligned : base % 16=0
 ne_zero : base≠0
 fits : base<σ.addressLimit

theorem cacheHit_encodeImp (mode:Mode) {imp isa:ℕ} (himp:imp≠0) (hisa:imp≠isa) :
 cacheHit mode isa (encodeImp imp isa)=imp := by
 have hne:imp ^^^ isa≠0:=fun h=>hisa (Nat.xor_eq_zero_iff.mp h)
 have hback:imp ^^^ isa ^^^ isa=imp:=Nat.xor_xor_cancel_right ..
 rw [encodeImp,if_neg himp]
 cases mode with
 | normal=>exact hback
 | getimp=>exact (if_neg hne).trans hback
 | lookup=>exact hback

structure Represents (σ:MaskStorage) (base:ℕ) (p:Probe) (r:Registers) : Prop where
 sel : r.p1=p.sel
 buckets : r.p10=base
 mask : r.p11=match σ with
  | .high16BigAddrs=>p.mask
  | .high16 _=>bucketsAndMask base p.mask
 first : r.p12=if p.wrapped then base+16*p.first else p.first
 bucket : r.p13=base+16*p.bucket
 loop : r.secondLoop=p.wrapped

variable {r:Registers}

section Registers

variable {σ:MaskStorage} {base mask:ℕ}

theorem Placed.lt (hp:Placed σ base) : base<2^48 := by
 have hfits:=hp.fits
 cases σ with
 | high16BigAddrs=>exact hfits
 | high16 _=>exact Nat.lt_trans (m:=2^44) hfits (by decide)

theorem Placed.le (hp:Placed σ base) : 16 ≤ base := by
 have:=hp.aligned
 have:=hp.ne_zero
 omega

theorem bucketsAndMask_eq (hbase:base<2^48) : bucketsAndMask base mask=mask*2^48+base := by
 rw [bucketsAndMask,←Nat.shiftLeft_add_eq_or_of_lt hbase,Nat.shiftLeft_eq]

theorem and_even_mask {x:ℕ} (hx:x % 2=0) : x &&& 0x0000fffffffffffe=x % 2^48 := by
 have hdouble:x=(x / 2) <<< 1:=by
  rw [Nat.shiftLeft_eq]
  omega
 have hmask:0x0000fffffffffffe=(2^47-1) <<< 1:=by decide
 rw [hmask]
 nth_rewrite 1 [hdouble]
 rw [←Nat.shiftLeft_and_distrib,Nat.and_two_pow_sub_one_eq_mod,Nat.shiftLeft_eq]
 omega

theorem and_ones_mask (x:ℕ) : x &&& 0xffffffffffff=x % 2^48 :=
 Nat.and_two_pow_sub_one_eq_mod x 48

theorem and_low_half {x m:ℕ} (hm:m<2^32) : x % 2^32 &&& m % 2^32=x &&& m := by
 rw [←Nat.and_mod_two_pow]
 exact Nat.mod_eq_of_lt (Nat.and_le_right.trans_lt hm)

theorem loadCache_represents (hp:Placed σ base) (hmask:mask<2^16) {c:Cache}
 (hc:c.mask=mask) (sel:ℕ) :
 Represents σ base (Probe.start σ.preopt sel c) (loadCache σ (bucketsAndMask base mask) sel) := by
 have hlt:=hp.lt
 have haligned:=hp.aligned
 have hword:bucketsAndMask base mask=mask*2^48+base:=bucketsAndMask_eq hlt
 have hshift:bucketsAndMask base mask >>> 48=mask:=by omega
 have hlow:bucketsAndMask base mask % 2^48=base:=by
  rw [hword]
  omega
 subst hc
 cases σ with
 | high16BigAddrs=>
  have hfirst:sel % 2^32 &&& bucketsAndMask base c.mask >>> 48 % 2^32 =
   cacheHash false sel c.mask := by
   rw [hshift,and_low_half (by omega)]
   rfl
  have hbase:bucketsAndMask base c.mask &&& 0xffffffffffff=base:=by
   rw [and_ones_mask,hlow]
  refine ⟨rfl,hbase,hshift,hfirst,?_,rfl⟩
  simp only [loadCache,hbase,hfirst,Nat.shiftLeft_eq]
  change _=base+16*cacheHash false sel c.mask
  omega
 | high16 preopt=>
  have hfirst:(if preopt then sel ^^^ (sel >>> 7) else sel) &&&
   bucketsAndMask base c.mask >>> 48=cacheHash preopt sel c.mask := by
   rw [hshift]
   rfl
  have hbase:(bucketsAndMask base c.mask &&&
   if preopt then 0x0000fffffffffffe else 0x0000ffffffffffff)=base := by
   cases preopt with
   | false=>exact (and_ones_mask _).trans hlow
   | true=>exact (and_even_mask (by rw [hword]; omega)).trans hlow
  refine ⟨rfl,hbase,rfl,hfirst,?_,rfl⟩
  simp only [loadCache,hbase,hfirst,Nat.shiftLeft_eq]
  change _=base+16*cacheHash preopt sel c.mask
  omega

inductive Agree (σ:MaskStorage) (base p17:ℕ) : Reader → Next → Prop where
 | again {q:Probe} {r:Registers} (represents:Represents σ base q r) :
  Agree σ base p17 (.probing q) (.again r)
 | hit (imp:ℕ) : Agree σ base p17 (.done (some imp)) (.hit p17)
 | miss : Agree σ base p17 (.done none) .miss

theorem Represents.wrapAround {p:Probe} (h:Represents σ base p r) (hp:Placed σ base)
 (hmask:p.mask<2^16) (hloop:p.wrapped=false) :
 Represents σ base {p with bucket:=p.mask,wrapped:=true} (wrapAround σ r) := by
 have hfits:=hp.fits
 have hfirst:r.p12=p.first:=by
  rw [h.first,hloop]
  rfl
 refine ⟨h.sel,h.buckets,h.mask,?_,?_,rfl⟩
 · simp only [CacheLookup.wrapAround,h.buckets,hfirst,Nat.shiftLeft_eq,if_true]
   omega
 · have hm:=h.mask
   cases σ with
   | high16BigAddrs=>
    simp only [CacheLookup.wrapAround,h.buckets,hm,Nat.shiftLeft_eq]
    omega
   | high16 preopt=>
    have hsmall:base<2^44:=hfits
    simp only [CacheLookup.wrapAround,h.buckets,hm,bucketsAndMask_eq hp.lt,
     Nat.shiftRight_eq_div_pow]
    omega

theorem Represents.step {p:Probe} (h:Represents σ base p r) (hp:Placed σ base)
 (hmask:p.mask<2^16) (hbucket:p.bucket ≤ p.mask) (p17 imp s:ℕ) :
 Agree σ base p17 (p.next ⟨imp,s⟩) (step σ r p17 s) := by
 have hlt:=hp.lt
 have hle:=hp.le
 have hdown:(r.p13+(2^64-16)) % 2^64=base+16*p.bucket-16:=by
  rw [h.bucket]
  omega
 have hmoved:0 < p.bucket → base+16*p.bucket-16=base+16*(p.bucket-1):=by omega
 unfold Probe.next CacheLookup.step
 simp only [h.sel,hdown,h.loop,h.buckets]
 by_cases hhit : s=p.sel
 · rw [if_pos hhit,if_pos hhit]
   exact .hit imp
 rw [if_neg hhit,if_neg hhit]
 by_cases hzero : s=0
 · rw [if_pos hzero,if_pos hzero]
   exact .miss
 rw [if_neg hzero,if_neg hzero]
 cases hloop : p.wrapped with
 | true=>
  have hfirst:r.p12=base+16*p.first:=by rw [h.first,hloop,if_pos rfl]
  have hagain:r.p12 < base+16*p.bucket-16 ↔ p.first+1 < p.bucket:=by
   rw [hfirst]
   omega
  simp only [if_true,hagain]
  split
  · exact .again ⟨rfl,rfl,h.mask,hfirst,hmoved (by omega),rfl⟩
  · exact .miss
 | false=>
  have hagain:base ≤ base+16*p.bucket-16 ↔ 0 < p.bucket:=by omega
  simp only [Bool.false_eq_true,if_false,hagain]
  split
  · case isTrue hpos =>
    have hfirst:r.p12=p.first:=by rw [h.first,hloop,if_neg Bool.false_ne_true]
    exact .again ⟨rfl,rfl,h.mask,hfirst,hmoved hpos,rfl⟩
  · exact .again (h.wrapAround hp hmask hloop)

end Registers

def probeAt (preopt:Bool) (sel:ℕ) (c:Cache) (d:ℕ) : Probe :=
 { Probe.start preopt sel c with
   bucket := slotAt c.mask (cacheHash preopt sel c.mask) d
   wrapped := decide (cacheHash preopt sel c.mask < d) }

section Order

variable {preopt:Bool} {sel d:ℕ} {c:Cache}

theorem probeAt_zero : probeAt preopt sel c 0=Probe.start preopt sel c := by
 simp [probeAt,Probe.start,slotAt_zero]

theorem probeAt_bucket_le : (probeAt preopt sel c d).bucket ≤ c.mask := by
 grind [cacheHash_le,probeAt,slotAt]

def GoesOn (preopt:Bool) (sel:ℕ) (c:Cache) (d:ℕ) : Prop :=
 d ≤ cacheHash preopt sel c.mask ∨ d < c.mask

theorem probeAt_next {b:Bucket} (hzero:b.sel≠0) (hsel:b.sel≠sel) : (GoesOn preopt sel c d →
  (probeAt preopt sel c d).next b=.probing (probeAt preopt sel c (d+1))) ∧
 (¬GoesOn preopt sel c d → (probeAt preopt sel c d).next b=.done none) := by
 have hfirst:=cacheHash_le preopt sel c.mask
 have hother:b.sel≠(probeAt preopt sel c d).sel:=hsel
 have hbucket:(probeAt preopt sel c d).bucket=slotAt c.mask (cacheHash preopt sel c.mask) d := rfl
 unfold GoesOn Probe.next
 rw [if_neg hother,if_neg hzero]
 by_cases hwrapped : cacheHash preopt sel c.mask < d
 · have hloop:(probeAt preopt sel c d).wrapped=true:=decide_eq_true hwrapped
   rw [if_pos hloop]
   have hmore:(probeAt preopt sel c d).first+1 < (probeAt preopt sel c d).bucket ↔ d < c.mask := by
    rw [hbucket,slotAt,if_neg (by omega)]
    change cacheHash preopt sel c.mask+1<_ ↔ _
    omega
   refine ⟨fun hon=>?_,fun hend=>if_neg fun h=>hend (.inr (hmore.mp h))⟩
   rw [if_pos (hmore.mpr (by omega))]
   simp only [probeAt,slotAt,hwrapped,Nat.lt_succ_of_lt hwrapped,Nat.not_le.mpr hwrapped,
    Nat.not_le.mpr (Nat.lt_succ_of_lt hwrapped),if_false,decide_true]
   rfl
 · have hin:d ≤ cacheHash preopt sel c.mask:=by omega
   have hloop:¬(probeAt preopt sel c d).wrapped=true:=by simpa [probeAt] using hwrapped
   rw [if_neg hloop]
   refine ⟨fun _=>?_,fun hend=>absurd (.inl hin) hend⟩
   rcases Nat.lt_or_eq_of_le hin with hlt|heq
   · grind [probeAt,slotAt]
   · -- the first bucket of the array: on to the last one
     grind [probeAt,slotAt,Probe.start]

end Order

section Scan

variable {σ:MaskStorage} {mem:ℕ → ℕ × ℕ} {base isa sel:ℕ} {b:List Bucket} {c:Cache}

def slotOf (σ:MaskStorage) (sel:ℕ) (c:Cache) (d:ℕ) : ℕ :=
 slotAt c.mask (cacheHash σ.preopt sel c.mask) d

def addressAt (σ:MaskStorage) (base sel:ℕ) (c:Cache) (d:ℕ) : ℕ :=
 base+16*slotOf σ sel c d

def OtherAt (σ:MaskStorage) (b:List Bucket) (sel:ℕ) (c:Cache) (d:ℕ) : Prop :=
 selAt b (slotOf σ sel c d)≠0 ∧ selAt b (slotOf σ sel c d)≠sel

variable (hp:Placed σ base) (hmask:c.mask<2^16) (hm:Maps mem base c.mask isa b)
include hp hmask hm

theorem agree_at {d:ℕ} (hr:Represents σ base (probeAt σ.preopt sel c d) r) :
 r.p13=addressAt σ base sel c d ∧ Agree σ base (mem r.p13).1
   ((probeAt σ.preopt sel c d).next (b.getD (slotOf σ sel c d) .zero))
   (step σ r (mem r.p13).1 (mem r.p13).2) := by
 have haddress:r.p13=addressAt σ base sel c d:=hr.bucket
 refine ⟨haddress,?_⟩
 have hread:=hm (probeAt σ.preopt sel c d).bucket probeAt_bucket_le
 rw [←hr.bucket] at hread
 rw [hread]
 exact hr.step hp hmask probeAt_bucket_le _ _ _

theorem scan_passes {n d k:ℕ} (hr:Represents σ base (probeAt σ.preopt sel c d) r)
 (hother:∀e,d ≤ e → e < d+n → OtherAt σ b sel c e ∧ GoesOn σ.preopt sel c e) :
 ∃r',Represents σ base (probeAt σ.preopt sel c (d+n)) r' ∧ scanBuckets σ mem (n+k) r =
   ((List.range' d n).map (addressAt σ base sel c)++(scanBuckets σ mem k r').1,
     (scanBuckets σ mem k r').2) := by
 induction n generalizing d r with
 | zero=>exact ⟨r,hr,by rw [Nat.zero_add]; rfl⟩
 | succ n ih=>
  obtain ⟨hstop,hon⟩:=hother d le_rfl (by omega)
  obtain ⟨haddress,hagree⟩:=agree_at hp hmask hm hr
  rw [(probeAt_next hstop.1 hstop.2).1 hon] at hagree
  cases hs : step σ r (mem r.p13).1 (mem r.p13).2 with
  | hit | miss=>rw [hs] at hagree; cases hagree
  | again r₁=>
   rw [hs] at hagree
   cases hagree with
   | again hr₁=>
    obtain ⟨r',hr',hscan⟩:=ih hr₁ fun e he hlt=>hother e (by omega) (by omega)
    refine ⟨r',by rw [←Nat.add_assoc,Nat.add_right_comm]; exact hr',?_⟩
    rw [Nat.add_right_comm,scanBuckets,hs]
    simp only [hscan,List.range'_succ,List.map_cons,List.cons_append,haddress]

theorem scan_stops {d k:ℕ} (hr:Represents σ base (probeAt σ.preopt sel c d) r) :
 (selAt b (slotOf σ sel c d)=sel →
  scanBuckets σ mem (k+1) r=([addressAt σ base sel c d],some (.hit (encodeImp
   (b.getD (slotOf σ sel c d) .zero).imp isa)))) ∧
 (selAt b (slotOf σ sel c d)≠sel → selAt b (slotOf σ sel c d)=0 ∨ ¬GoesOn σ.preopt sel c d →
  scanBuckets σ mem (k+1) r=([addressAt σ base sel c d],some .miss)) := by
 obtain ⟨haddress,hagree⟩:=agree_at hp hmask hm hr
 have hread:=hm (probeAt σ.preopt sel c d).bucket probeAt_bucket_le
 rw [←hr.bucket] at hread
 refine ⟨fun hsel=>?_,fun hother hend=>?_⟩
 · have hstep:step σ r (mem r.p13).1 (mem r.p13).2=.hit (mem r.p13).1:=by
    have hp9:(mem r.p13).2=r.p1:=by
     rw [hread]
     exact hsel.trans hr.sel.symm
    exact if_pos hp9
   rw [scanBuckets,hstep,haddress.symm,hread]
   rfl
 · have hmiss:(probeAt σ.preopt sel c d).next
    (b.getD (slotOf σ sel c d) .zero)=.done none := by
    by_cases hzero : selAt b (slotOf σ sel c d)=0
    · exact (if_neg hother).trans (if_pos hzero)
    · exact (probeAt_next hzero hother).2 (hend.resolve_left hzero)
   rw [hmiss] at hagree
   cases hs : step σ r (mem r.p13).1 (mem r.p13).2 with
   | hit | again=>rw [hs] at hagree; cases hagree
   | miss=>rw [scanBuckets,hs,haddress]

theorem scan_whole {n:ℕ} (hn:n≤2*c.mask+1)
 (hother:∀e < n,OtherAt σ b sel c e ∧ GoesOn σ.preopt sel c e) {out:Next}
 (hout:∀{k:ℕ} {r:Registers},Represents σ base (probeAt σ.preopt sel c n) r →
  scanBuckets σ mem (k+1) r=([addressAt σ base sel c n],some out)) :
 ∃reads,scanBuckets σ mem (2*(c.mask+1))
  (loadCache σ (bucketsAndMask base c.mask) sel)=(reads,some out) ∧
  reads.length≤2*(c.mask+1) ∧ ∀a∈reads,∃i ≤ c.mask,a=base+16*i := by
 have hstart:=loadCache_represents hp hmask (c:=c) rfl sel
 rw [←probeAt_zero] at hstart
 obtain ⟨r,hr,hscan⟩:=scan_passes hp hmask hm (n:=n) (k:=2*c.mask+1-n+1) hstart
  fun e _ he=>hother e (by omega)
 rw [Nat.zero_add] at hr
 have hfuel:n+(2*c.mask+1-n+1)=2*(c.mask+1):=by omega
 rw [hfuel,hout hr] at hscan
 refine ⟨_,hscan,?_,?_⟩
 · simp only [List.length_append,List.length_map,List.length_range',List.length_singleton]
   omega
 · intro a ha
   have hmem:∃d,a=addressAt σ base sel c d:=by
    rcases List.mem_append.mp ha with hbefore|hlast
    · obtain ⟨d,-,rfl⟩:=List.mem_map.mp hbefore
      exact ⟨d,rfl⟩
    · exact ⟨n,List.mem_singleton.mp hlast⟩
   obtain ⟨d,rfl⟩:=hmem
   exact ⟨_,@probeAt_bucket_le σ.preopt sel d c,rfl⟩

theorem scan_spec (hsel:sel≠0) (hreach:∀i ≤ c.mask,selAt b i=sel →
  ∀d < distance c.mask (cacheHash σ.preopt sel c.mask) i,selAt b (slotOf σ sel c d)≠0) :
 ∃reads out,scanBuckets σ mem (2*(c.mask+1))
  (loadCache σ (bucketsAndMask base c.mask) sel)=(reads,some out) ∧
  reads.length≤2*(c.mask+1) ∧ (∀a∈reads,∃i ≤ c.mask,a=base+16*i) ∧
  ((∃i ≤ c.mask,selAt b i=sel ∧ out=.hit (encodeImp (b.getD i .zero).imp isa)) ∨
    (∀i ≤ c.mask,selAt b i≠sel) ∧ out=.miss) := by
 have hfirst:=cacheHash_le σ.preopt sel c.mask
 by_cases hstop : ∃d,d ≤ c.mask ∧ ¬OtherAt σ b sel c d
 · classical
   obtain ⟨hd,hends⟩:=Nat.find_spec hstop
   have hother:∀e < Nat.find hstop,OtherAt σ b sel c e ∧ GoesOn σ.preopt sel c e:=by
    intro e he
    have hmin:=Nat.find_min hstop he
    exact ⟨by_contra fun h=>hmin ⟨by omega,h⟩,.inr (by omega)⟩
   generalize Nat.find hstop=d at hd hends hother
   by_cases hfound : selAt b (slotOf σ sel c d)=sel
   · obtain ⟨reads,hscan,hlen,hin⟩:=scan_whole hp hmask hm (by omega) hother
      fun hr=>(scan_stops hp hmask hm hr).1 hfound
     exact ⟨reads,_,hscan,hlen,hin,.inl ⟨_,slotAt_le hfirst hd,hfound,rfl⟩⟩
   · have hempty:selAt b (slotOf σ sel c d)=0:=by
      by_contra hne
      exact hends ⟨hne,hfound⟩
     obtain ⟨reads,hscan,hlen,hin⟩:=scan_whole hp hmask hm (by omega) hother
      fun hr=>(scan_stops hp hmask hm hr).2 hfound (.inl hempty)
     refine ⟨reads,_,hscan,hlen,hin,.inr ⟨fun i hi hentry=>?_,rfl⟩⟩
     -- an entry would lie before the empty bucket, where all buckets have other selectors
     have hslot:=slotAt_distance (cacheHash σ.preopt sel c.mask) hi
     rcases Nat.lt_trichotomy (distance c.mask (cacheHash σ.preopt sel c.mask) i) d with
      hlt | heq | hgt
     · refine (hother _ hlt).1.2 ?_
       rw [slotOf,hslot]
       exact hentry
     · grind [slotOf]
     · exact hreach i hi hentry d hgt hempty
 · -- a full array without the selector: the scan comes round
   have hall:∀d ≤ c.mask,OtherAt σ b sel c d:=by grind
   have habsent:∀i ≤ c.mask,selAt b i≠sel:=by
    intro i hi hentry
    refine (hall _ (distance_le hfirst hi)).2 ?_
    rw [slotOf,slotAt_distance _ hi]
    exact hentry
   have hround:∀d,d ≤ max c.mask (cacheHash σ.preopt sel c.mask+1) → OtherAt σ b sel c d:=by
    intro d hd
    rcases Nat.lt_or_ge c.mask d with hgt|hle
    · -- the hashed bucket is the last one and is read twice
      grind [slotOf,slotAt,OtherAt]
    · exact hall d hle
   obtain ⟨reads,hscan,hlen,hin⟩:=scan_whole hp hmask hm
    (n:=max c.mask (cacheHash σ.preopt sel c.mask+1)) (by omega)
    (fun e he=>⟨hround e he.le,by unfold GoesOn; omega⟩)
    fun hr=>(scan_stops hp hmask hm hr).2 (hround _ le_rfl).2
     (.inr (by unfold GoesOn; omega))
   exact ⟨reads,_,hscan,hlen,hin,.inr ⟨habsent,rfl⟩⟩

end Scan

section Runs

variable {preopt:Bool} {s:State}

/-- The buckets that the mask gives access to: the entries of the cache, each where a scan for its
selector comes to it before an empty bucket. -/
structure Readable (preopt:Bool) (s:State) : Prop where
 mask : s.2.mask<2^16
 entry : ∀i ≤ s.2.mask,selAt (s.1.array s.2.buckets) i≠0 →
  (s.1.array s.2.buckets).getD i .zero∈slots s
 index : ∀e∈slots s,∃i ≤ s.2.mask,(s.1.array s.2.buckets).getD i .zero=e
 reach : ∀i ≤ s.2.mask,selAt (s.1.array s.2.buckets) i≠0 →
  ∀d < distance s.2.mask (cacheHash preopt (selAt (s.1.array s.2.buckets) i) s.2.mask) i,
   selAt (s.1.array s.2.buckets)
    (slotAt s.2.mask (cacheHash preopt (selAt (s.1.array s.2.buckets) i) s.2.mask) d)≠0

theorem mask_lt (hs:Structured preopt s) : s.2.mask<2^16 := by
 have hcap:s.2.capacity≤2^16:=by
  rcases hs.capacity with hzero|⟨k,-,hk,hpow⟩
  · omega
  · rw [hpow]
    exact Nat.pow_le_pow_right (by omega) hk
 unfold Cache.capacity at hcap
 split at hcap <;> omega

theorem slots_index (hs:Structured preopt s) {e:Bucket} (he:e∈slots s) :
 ∃i ≤ s.2.mask,(s.1.array s.2.buckets).getD i .zero=e := by
 obtain ⟨i,hi,rfl⟩:=List.getElem_of_mem he
 have hlt:i < s.2.capacity:=hs.length ▸ hi
 refine ⟨i,?_,?_⟩
 · unfold Cache.capacity at hlt
   split at hlt <;> omega
 · grind [slots]

theorem readable_zeroed (hs:Structured preopt s) {n:ℕ}
 (harr:s.1.arrays[s.2.buckets]?=some (List.replicate n .zero)) : Readable preopt s := by
 have hnone:∀i,selAt (s.1.array s.2.buckets) i=0:=by
  intro i
  rw [Heap.array_eq harr]
  exact selAt_zeroed n i
 exact ⟨mask_lt hs,fun i _ h=>absurd (hnone i) h,fun e he=>slots_index hs he,
  fun i _ h=>absurd (hnone i) h⟩

theorem readable_of_inv (hi:Inv preopt s) : Readable preopt s := by
 have hs:=hi.structured
 cases hi.holds with
 | fresh hb hm ho=>exact readable_zeroed hs (hb ▸ hi.heap.base)
 | erased hm ho hshared=>
  have hcap:=hm.capacity
  obtain ⟨k,hk,hmax,hpow⟩:=hm
  grind [shared_zeroed,hi.heap,readable_zeroed]
 | owned b ho=>
  have harr:=Heap.array_eq ho.array
  refine ⟨mask_lt hs,fun i hle _=>?_,fun e he=>slots_index hs he,fun i _ hne=>?_⟩
  · have hlt:i < b.length:=by
     rw [ho.packed.length]
     omega
    rw [ho.slots_eq,harr,List.getD_eq_getElem _ _ hlt]
    exact List.getElem_mem hlt
  · rw [harr] at hne ⊢
    exact ho.packed.reach hne

/-- On the array that any run of insertions and erasures leaves, `CacheLookup` ends after at most
`2 * (mask + 1)` reads, all inside the array: with the selector's imp if the array has an entry for
it, and else with a miss. -/
theorem cacheLookup_finds_entries (σ:MaskStorage) (ops:List Op) (hops:∀op∈ops,op.Valid) :
 ∃s,run σ.preopt (Heap.initial,.initializeToEmpty) ops=.ok s ∧
  ∀(mode:Mode) (mem:ℕ → ℕ × ℕ) (base isa sel:ℕ),sel≠0 → Placed σ base →
   Maps mem base s.2.mask isa (s.1.array s.2.buckets) →
   ∃reads out,scanBuckets σ mem (2*(s.2.mask+1))
    (loadCache σ (bucketsAndMask base s.2.mask) sel)=(reads,some out) ∧
    reads.length≤2*(s.2.mask+1) ∧ (∀a∈reads,∃i ≤ s.2.mask,a=base+16*i) ∧
    ((∃e∈slots s,e.sel=sel ∧ out=.hit (encodeImp e.imp isa) ∧
     (e.imp≠0 → e.imp≠isa → cacheHit mode isa (encodeImp e.imp isa)=e.imp)) ∨
     (∀e∈slots s,e.sel≠sel) ∧ out=.miss) := by
 obtain ⟨s,hrun,hinv,-⟩:=run_spec (inv_initial σ.preopt) hops
 refine ⟨s,hrun,fun mode mem base isa sel hsel hp hm=>?_⟩
 have hread:=readable_of_inv hinv
 obtain ⟨reads,out,hscan,hlen,hin,hout⟩:=scan_spec hp hread.mask hm hsel
  fun i hi hentry=>by
   subst hentry
   exact hread.reach i hi hsel
 refine ⟨reads,out,hscan,hlen,hin,?_⟩
 rcases hout with ⟨i,hi,hentry,rfl⟩|⟨habsent,rfl⟩
 · refine .inl ⟨_,hread.entry i hi (hentry ▸ hsel),hentry,rfl,?_⟩
   exact fun himp hisa=>cacheHit_encodeImp mode himp hisa
 · refine .inr ⟨fun e he hentry=>?_,rfl⟩
   obtain ⟨i,hi,rfl⟩:=hread.index e he
   exact habsent i hi hentry

def arrayMemory (base isa:ℕ) (b:List Bucket) (a:ℕ) : ℕ × ℕ :=
 (encodeImp (b.getD ((a-base) / 16) .zero).imp isa,selAt b ((a-base) / 16))

theorem maps_arrayMemory (base mask isa:ℕ) (b:List Bucket) :
 Maps (arrayMemory base isa b) base mask isa b := by
 intro i _
 grind [arrayMemory]

/-- Two buckets, both used: a third selector is missed after the scan has come round. -/
theorem cacheLookup_of_full_array :
 ∃s,run true (Heap.initial,.initializeToEmpty) [.insert 3 7,.insert 4 9]=.ok s ∧
  (∀e∈slots s,e.sel≠0) ∧ (slots s).length=2 ∧
  ∃reads,scanBuckets (.high16 true) (arrayMemory 4096 64 (slots s)) 4
   (loadCache (.high16 true) (bucketsAndMask 4096 1) 6)=(reads,some .miss) ∧
   reads.length≤4 := by
 obtain ⟨s,hrun,hfind⟩:=cacheLookup_finds_entries (.high16 true)
  [.insert 3 7,.insert 4 9] (by simp [Op.Valid])
 have hcache:(run true (Heap.initial,.initializeToEmpty) [.insert 3 7,.insert 4 9]).map
  (fun s=>(s.2,s.1.array s.2.buckets))=.ok (⟨1,1,2,false⟩,[⟨9,4⟩,⟨7,3⟩]) := by
  decide +kernel
 have hrun':run true (Heap.initial,.initializeToEmpty) [.insert 3 7,.insert 4 9]=.ok s:=hrun
 rw [hrun'] at hcache
 have hpair:(s.2,s.1.array s.2.buckets)=(⟨1,1,2,false⟩,[⟨9,4⟩,⟨7,3⟩]):=by
  injection hcache
 obtain ⟨hs,harray⟩:=Prod.mk.injEq .. ▸ hpair
 have hslots:slots s=[⟨9,4⟩,⟨7,3⟩]:=by
  rw [slots,harray,hs]
  rfl
 have hmaps:Maps (arrayMemory 4096 64 (slots s)) 4096 s.2.mask 64 (s.1.array s.2.buckets):=by
  rw [hslots,harray]
  exact maps_arrayMemory _ _ _ _
 obtain ⟨reads,out,hscan,hlen,-,hout⟩:=hfind .normal _ 4096 64 6 (by decide)
  ⟨by decide,by decide,by decide⟩ hmaps
 rw [hs] at hscan hlen
 refine ⟨s,hrun',by rw [hslots]; decide,by rw [hslots]; rfl,reads,?_,hlen⟩
 rcases hout with ⟨e,he,hsel,-⟩|⟨-,rfl⟩
 · rw [hslots] at he
   rcases List.mem_pair.mp he with rfl|rfl <;> cases hsel
 · exact hscan

end Runs

end ObjcRuntime.CacheLookup
