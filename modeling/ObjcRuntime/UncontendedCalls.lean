import ObjcRuntime.RetainConservation

/-!
# One thread alone

Without contention each call is a function of the isa word and the side table entry. The fuel is
more than the longest path.
-/
set_option autoImplicit false
namespace ObjcRuntime.UncontendedCalls
open AtomicPrograms Isa SideTable RetainRelease RetainThreads RetainInvariant RetainConservation

variable {L:Layout} {info:Class L → ClassInfo}

structure Object (L:Layout) where
 isa : Word L
 entry : Entry

inductive Op where
 | retain | tryRetain | release | setWeaklyReferenced
 deriving DecidableEq

inductive Answer where
 | retain (r:RetainResult)
 | release (r:ReleaseResult)
 | done
 deriving DecidableEq

def fuel : ℕ := 16

def callRetain (info:Class L → ClassInfo) (tryRetain:Bool) (o:Object L) :
 Option (RetainResult × Object L) :=
 (solo (rootRetain info tryRetain) fuel (.enter .fast) o.isa o.entry).map fun x =>
  (x.1,⟨x.2.1,x.2.2⟩)

def callRelease (info:Class L → ClassInfo) (o:Object L) : Option (ReleaseResult × Object L) :=
 (solo (rootRelease info) fuel (.enter .fast) o.isa o.entry).map fun x=>(x.1,⟨x.2.1,x.2.2⟩)

def callSetWeaklyReferenced (o:Object L) : Option (Object L) :=
 (solo setWeaklyReferencedNolock fuel (.enter : WeakPc L) o.isa o.entry).map fun x=>⟨x.2.1,x.2.2⟩

def callChangeIsa (info:Class L → ClassInfo) (newCls:Class L) (o:Object L) : Option (Object L) :=
 (solo (changeIsa info newCls) fuel .enter o.isa o.entry).map fun x=>⟨x.2.1,x.2.2⟩

def call (info:Class L → ClassInfo) (o:Object L) : Op → Option (Answer × Object L)
 | .retain=>(callRetain info false o).map fun x=>(.retain x.1,x.2)
 | .tryRetain=>(callRetain info true o).map fun x=>(.retain x.1,x.2)
 | .release=>(callRelease info o).map fun x=>(.release x.1,x.2)
 | .setWeaklyReferenced=>(callSetWeaklyReferenced o).map fun x=>(.done,x)

def retained (o:Object L) : Object L where
 isa := retainNewisa o.isa
 entry := if (o.isa.addRC 1).2 then
  (sidetableAddExtraRCNolock (BitVec.ofNat 64 L.rcHalf) o.entry).1 else o.entry

theorem callRetain_nonpointer (tryRetain:Bool) (o:Object L) (hn:o.isa.nonpointer=true) :
 callRetain info tryRetain o=some (if o.isa.isDeallocating then (.deallocating,o)
  else (.retained,retained o)) := by
 obtain ⟨w,e⟩:=o
 change w.nonpointer=true at hn
 cases hd : w.isDeallocating with
 | true=>simp [callRetain,solo,fuel,rootRetain,retainLoop,hn,hd]
 | false=>
  cases hc : (w.addRC 1).2 with
  | false=>simp [callRetain,solo,fuel,rootRetain,retainLoop,retained,hn,hd,hc]
  | true=>
   cases tryRetain <;>
    simp [callRetain,solo,fuel,rootRetain,retainLoop,retained,hn,hd,hc]

def borrowed (o:Object L) : Object L where
 isa := borrowNewisa o.isa (sidetableSubExtraRCNolock (BitVec.ofNat 64 L.rcHalf) o.entry).2
 entry :=
  if emptySideTable (sidetableSubExtraRCNolock (BitVec.ofNat 64 L.rcHalf) o.entry).2 then none
  else (sidetableSubExtraRCNolock (BitVec.ofNat 64 L.rcHalf) o.entry).1

theorem callRelease_inline (o:Object L) (hn:o.isa.nonpointer=true) (he:o.isa.extraRc.val≠0) :
 callRelease info o=some (if o.isa.subRC.1.isDeallocating then .dealloc else .released,
  ⟨o.isa.subRC.1,o.entry⟩) := by
 obtain ⟨w,e⟩:=o
 change w.nonpointer=true at hn
 change w.extraRc.val≠0 at he
 have hd:w.isDeallocating=false:=by simp [Word.isDeallocating,he]
 have hc:w.subRC.2=false:=by rw [subRC_eq]; exact decide_eq_false he
 cases hz : w.subRC.1.isDeallocating <;>
  simp [callRelease,solo,fuel,rootRelease,releaseLoop,releaseExit,hn,hd,hc,hz]

theorem callRelease_dead (o:Object L) (hn:o.isa.nonpointer=true) (hd:o.isa.isDeallocating=true) :
 callRelease info o=some (.alreadyDeallocating,o) := by
 obtain ⟨w,e⟩:=o
 change w.nonpointer=true at hn
 change w.isDeallocating=true at hd
 simp [callRelease,solo,fuel,rootRelease,releaseLoop,releaseExit,hn,hd]

theorem callRelease_borrow (o:Object L) (hn:o.isa.nonpointer=true)
 (he:o.isa.extraRc.val=0) (hs:o.isa.hasSidetableRc=true)
 (hb:0 < (sidetableSubExtraRCNolock (BitVec.ofNat 64 L.rcHalf) o.entry).2.borrowed.toNat) :
 callRelease info o=some (.released,borrowed o) := by
 obtain ⟨w,e⟩:=o
 change w.nonpointer=true at hn
 change w.extraRc.val=0 at he
 change w.hasSidetableRc=true at hs
 have hd:w.isDeallocating=false:=by simp [Word.isDeallocating,hs]
 have hc:w.subRC.2=true:=by rw [subRC_eq]; exact decide_eq_true he
 cases hz : emptySideTable (sidetableSubExtraRCNolock (BitVec.ofNat 64 L.rcHalf) e).2 <;>
  simp [callRelease,solo,fuel,rootRelease,releaseLoop,releaseUnderflow,borrowStored,borrowed,
   sidetableClearExtraRCNolock,hn,hs,hd,hc,hb,hz]

theorem callSetWeaklyReferenced_nonpointer (o:Object L) (hn:o.isa.nonpointer=true) :
 callSetWeaklyReferenced o=some ⟨{o.isa with weaklyReferenced:=true},o.entry⟩ := by
 obtain ⟨w,e⟩:=o
 change w.nonpointer=true at hn
 cases hk : w.weaklyReferenced with
 | true=>
  have hw:{w with weaklyReferenced:=true}=w:=by rw [←hk]
  change callSetWeaklyReferenced ⟨w,e⟩=some ⟨{w with weaklyReferenced:=true},e⟩
  rw [hw]
  simp [callSetWeaklyReferenced,solo,fuel,setWeaklyReferencedNolock,weakLoop,hn,hk]
 | false=>simp [callSetWeaklyReferenced,solo,fuel,setWeaklyReferencedNolock,weakLoop,hn,hk]

theorem callChangeIsa_to_raw (newCls:Class L) (o:Object L) (hn:o.isa.nonpointer=true)
 (hraw:¬ Capable info newCls) :
 callChangeIsa info newCls o=some ⟨(Word.zero L).setClass newCls,
  (sidetableMoveExtraRCNolock (BitVec.ofNat 64 o.isa.extraRc.val) o.isa.isDeallocating
   o.isa.weaklyReferenced o.entry).1⟩ := by
 obtain ⟨w,e⟩:=o
 change w.nonpointer=true at hn
 have hloop:∀newisa,changeLoop info newCls false newisa w=.lock w (newisa.setClass newCls):=by
  intro newisa
  unfold changeLoop
  rw [if_neg fun h=>hraw h.2,hn]
  rfl
 simp [callChangeIsa,solo,fuel,changeIsa,hloop]

theorem callRetain_raw (o:Object L) (hn:o.isa.nonpointer=false)
 (hm:(info o.isa.shiftcls).isMetaClass=false) :
 callRetain info false o=some (.retained,⟨o.isa,(sidetableRetain o.entry).1⟩) := by
 obtain ⟨w,e⟩:=o
 change w.nonpointer=false at hn
 change (info w.shiftcls).isMetaClass=false at hm
 simp [callRetain,solo,fuel,rootRetain,retainLoop,hn,hm]

theorem callTryRetain_raw (o:Object L) (hn:o.isa.nonpointer=false)
 (hm:(info o.isa.shiftcls).isMetaClass=false) :
 callRetain info true o=some (if (sidetableTryRetain o.entry).2 then .retained else .deallocating,
  ⟨o.isa,(sidetableTryRetain o.entry).1⟩) := by
 obtain ⟨w,e⟩:=o
 change w.nonpointer=false at hn
 change (info w.shiftcls).isMetaClass=false at hm
 simp [callRetain,solo,fuel,rootRetain,retainLoop,hn,hm]

theorem callRelease_raw (o:Object L) (hn:o.isa.nonpointer=false)
 (hm:(info o.isa.shiftcls).isMetaClass=false) :
 callRelease info o=some (if (sidetableRelease o.entry).2 then .dealloc else .released,
  ⟨o.isa,(sidetableRelease o.entry).1⟩) := by
 obtain ⟨w,e⟩:=o
 change w.nonpointer=false at hn
 change (info w.shiftcls).isMetaClass=false at hm
 simp [callRelease,solo,fuel,rootRelease,releaseLoop,hn,hm]

theorem callSetWeaklyReferenced_raw (o:Object L) (hn:o.isa.nonpointer=false) :
 callSetWeaklyReferenced o=some ⟨o.isa,(sidetableSetWeaklyReferencedNolock o.entry).1⟩ := by
 obtain ⟨w,e⟩:=o
 change w.nonpointer=false at hn
 simp [callSetWeaklyReferenced,solo,fuel,setWeaklyReferencedNolock,weakLoop,hn]

def total (o:Object L) : ℕ := o.isa.extraRc.val+count o.entry

structure Steady (o:Object L) : Prop where
 nonpointer : o.isa.nonpointer=true
 flags : flags o.entry=0
 dvd : L.rcHalf ∣ count o.entry
 le : count o.entry ≤ saturation
 side : o.isa.hasSidetableRc=true ↔ 0 < count o.entry

theorem steady_fresh {w:Word L} (hw:Fresh info w) : Steady (⟨w,none⟩ : Object L) := by
 have hnone:count none=0 ∧ flags none=0:=by decide
 refine ⟨hw.nonpointer,hnone.2,?_,?_,?_⟩
 · simp_all
 · grind
 · grind [hw.hasSidetableRc]

variable {o:Object L}

theorem Steady.deallocating_iff (ho:Steady o) : o.isa.isDeallocating=true ↔ total o=0 := by
 have hs:=ho.side
 grind [isDeallocating_iff,total]

theorem Steady.room (ho:Steady o) (h:count o.entry < saturation) :
 count o.entry+L.rcHalf ≤ saturation := by
 obtain ⟨a,ha⟩:=ho.dvd
 obtain ⟨b,hb⟩:=rcHalf_dvd L
 have hpos:=L.rcHalf_bounds
 rw [ha,hb] at h ⊢
 have : a < b:=lt_of_mul_lt_mul_left h (Nat.zero_le _)
 calc L.rcHalf*a+L.rcHalf=L.rcHalf*(a+1) := by ring
  _ ≤ L.rcHalf*b := Nat.mul_le_mul_left _ this

theorem Steady.retained (ho:Steady o) :
 Steady (retained o) ∧ (retained o).isa.shiftcls=o.isa.shiftcls ∧
  (count o.entry < saturation → total (retained o)=total o+1) ∧
  (saturation ≤ count o.entry → count (UncontendedCalls.retained o).entry=count o.entry) := by
 cases hc : (o.isa.addRC 1).2 with
 | false=>
  obtain ⟨hnew,hval⟩:=retainNewisa_plain o.isa hc
  have hentry:(UncontendedCalls.retained o).entry=o.entry:=by
   simp [UncontendedCalls.retained,hc]
  have hisa:(UncontendedCalls.retained o).isa=retainNewisa o.isa:=rfl
  refine ⟨⟨?_,?_,?_,?_,?_⟩,?_,?_,?_⟩
  · rw [hisa,hnew]
    exact ho.nonpointer
  · rw [hentry]
    exact ho.flags
  · rw [hentry]
    exact ho.dvd
  · rw [hentry]
    exact ho.le
  · rw [hentry,hisa,hnew]
    exact ho.side
  · rw [hisa,hnew]
    rfl
  · grind [total]
  · intro _
    rw [hentry]
 | true=>
  obtain ⟨hnew,hval,hmax⟩:=retainNewisa_carry o.isa hc
  have hentry:(UncontendedCalls.retained o).entry =
   (sidetableAddExtraRCNolock (BitVec.ofNat 64 L.rcHalf) o.entry).1 := by
   simp [UncontendedCalls.retained,hc]
  have hisa:(UncontendedCalls.retained o).isa=retainNewisa o.isa:=rfl
  -- The entry is either pinned, and then stays as it is, or has room for the half.
  obtain ⟨hcount,hflags⟩ : count (UncontendedCalls.retained o).entry =
   (if count o.entry < saturation then count o.entry+L.rcHalf else count o.entry) ∧
   SideTable.flags (UncontendedCalls.retained o).entry=0 := by
   grind [addExtraRC_spec,rcHalf_lt,ho.flags,addExtraRC_pinned]
  have hsat:0 < saturation:=by decide
  refine ⟨⟨?_,hflags,?_,?_,?_⟩,?_,?_,?_⟩
  · rw [hisa,hnew]
    exact ho.nonpointer
  · rw [hcount]
    split_ifs
    · exact ho.dvd.add dvd_rfl
    · exact ho.dvd
  · rw [hcount]
    split_ifs with hp
    · exact ho.room hp
    · exact ho.le
  · grind
  · rw [hisa,hnew]
    rfl
  · grind [total]
  · grind

theorem Steady.released (ho:Steady o) (he:o.isa.extraRc.val≠0) :
 Steady ⟨o.isa.subRC.1,o.entry⟩ ∧ o.isa.subRC.1.shiftcls=o.isa.shiftcls ∧
  total ⟨o.isa.subRC.1,o.entry⟩+1=total o := by
 obtain ⟨hval,hn,hs,hcls⟩:=subRC_val o.isa he
 refine ⟨⟨hn.trans ho.nonpointer,ho.flags,ho.dvd,ho.le,?_⟩,hcls,?_⟩
 · rw [hs]
   exact ho.side
 · simp only [total,hval]
   omega

theorem Steady.borrowed (ho:Steady o) (he:o.isa.extraRc.val=0) (hs:o.isa.hasSidetableRc=true) :
 0 < (sidetableSubExtraRCNolock (BitVec.ofNat 64 L.rcHalf) o.entry).2.borrowed.toNat ∧
  Steady (borrowed o) ∧ (UncontendedCalls.borrowed o).isa.shiftcls=o.isa.shiftcls ∧
  count (UncontendedCalls.borrowed o).entry+L.rcHalf=count o.entry ∧
  total (UncontendedCalls.borrowed o)+1=total o := by
 have hb:=L.rcHalf_bounds
 have hr:=L.rcRange
 have hle:L.rcHalf ≤ count o.entry:=Nat.le_of_dvd (ho.side.mp hs) ho.dvd
 have hlt:=count_lt o.entry
 obtain ⟨hc',hf',hborrow⟩:=subExtraRC_spec L.rcHalf o.entry (by omega) hle
 have hborrowed:(BitVec.ofNat 64 L.rcHalf : Size).toNat=L.rcHalf:=by
  rw [BitVec.toNat_ofNat,Nat.mod_eq_of_lt (by omega)]
 have hempty:emptySideTable (sidetableSubExtraRCNolock (BitVec.ofNat 64 L.rcHalf) o.entry).2 =
  decide (count o.entry-L.rcHalf=0) := by
  rw [hborrow,emptySideTable,Bool.eq_iff_iff,beq_iff_eq,decide_eq_true_eq,←BitVec.toNat_inj,
   BitVec.toNat_ofNat,Nat.mod_eq_of_lt (by omega)]
  rfl
 have hextra:(UncontendedCalls.borrowed o).isa.extraRc.val=L.rcHalf-1:=by
  change ((sidetableSubExtraRCNolock _ o.entry).2.borrowed.toNat-1) % 2^L.rcBits=_
  rw [hborrow,hborrowed,Nat.mod_eq_of_lt (by omega)]
 have hside:(UncontendedCalls.borrowed o).isa.hasSidetableRc =
  !decide (count o.entry-L.rcHalf=0) := by
  change (!emptySideTable _)=_
  rw [hempty]
 obtain ⟨hcount,hflags⟩ : count (UncontendedCalls.borrowed o).entry=count o.entry-L.rcHalf ∧
  SideTable.flags (UncontendedCalls.borrowed o).entry=0 := by
  simp only [UncontendedCalls.borrowed,hempty,decide_eq_true_eq]
  split_ifs with hz
  · rw [hz]
    decide
  · exact ⟨hc',hf'.trans ho.flags⟩
 refine ⟨by rw [hborrow,hborrowed]; omega,⟨ho.nonpointer,hflags,?_,?_,?_⟩,rfl,by omega,?_⟩
 · rw [hcount]
   exact Nat.dvd_sub ho.dvd dvd_rfl
 · have:=ho.le
   omega
 · rw [hside,hcount]
   simp
   omega
 · rw [total,total,hextra,hcount,he]
   omega

theorem Steady.call (info:Class L → ClassInfo) (ho:Steady o) (op:Op) :
 ∃a o',call info o op=some (a,o') ∧ Steady o' := by
 have retain:∀b,∃r o',callRetain info b o=some (r,o') ∧ Steady o':=by
  intro b
  rw [callRetain_nonpointer b o ho.nonpointer]
  grind [ho.retained]
 have release:∃r o',callRelease info o=some (r,o') ∧ Steady o':=by
  by_cases he : o.isa.extraRc.val=0
  · cases hs : o.isa.hasSidetableRc with
    | false=>
     have hd:o.isa.isDeallocating=true:=(isDeallocating_iff _).mpr ⟨he,hs⟩
     exact ⟨_,_,callRelease_dead o ho.nonpointer hd,ho⟩
    | true=>
     obtain ⟨hb,hsteady,-⟩:=ho.borrowed he hs
     exact ⟨_,_,callRelease_borrow o ho.nonpointer he hs hb,hsteady⟩
  · exact ⟨_,_,callRelease_inline o ho.nonpointer he,(ho.released he).1⟩
 cases op with
 | retain=>
  obtain ⟨r,o',h,hs⟩:=retain false
  exact ⟨.retain r,o',by rw [UncontendedCalls.call,h]; rfl,hs⟩
 | tryRetain=>
  obtain ⟨r,o',h,hs⟩:=retain true
  exact ⟨.retain r,o',by rw [UncontendedCalls.call,h]; rfl,hs⟩
 | release=>
  obtain ⟨r,o',h,hs⟩:=release
  exact ⟨.release r,o',by rw [UncontendedCalls.call,h]; rfl,hs⟩
 | setWeaklyReferenced=>
  refine ⟨.done,⟨{o.isa with weaklyReferenced:=true},o.entry⟩,?_,?_⟩
  · rw [UncontendedCalls.call,callSetWeaklyReferenced_nonpointer o ho.nonpointer]
    rfl
  · exact ⟨ho.nonpointer,ho.flags,ho.dvd,ho.le,ho.side⟩

def pinned (o:Object L) : Bool := isPinned (refcnt o.entry)

theorem pinned_iff (o:Object L) : pinned o=true ↔ saturation ≤ count o.entry := by
 rw [pinned,isPinned_refcnt,decide_eq_true_eq]

def SeqStep (info:Class L → ClassInfo) (o o':Object L) : Prop :=
 ∃op a,call info o op=some (a,o')

def UnsaturatedStep (info:Class L → ClassInfo) (o o':Object L) : Prop :=
 SeqStep info o o' ∧ pinned o'=false

def callAll (info:Class L → ClassInfo) (guard:Object L → Bool) :
 List Op → Object L → Option (Object L)
 | [],o=>some o
 | op::ops,o=>(call info o op).bind fun x =>
  if guard x.2 then callAll info guard ops x.2 else none

theorem run_of_callAll {guard:Object L → Bool} {rel:Object L → Object L → Prop}
 (hrel:∀o o',SeqStep info o o' → guard o'=true → rel o o') (ops:List Op)
 {o':Object L} (h:callAll info guard ops o=some o') : Relation.ReflTransGen rel o o' := by
 induction ops generalizing o with
 | nil=>
  obtain rfl:=Option.some.inj h
  exact .refl
 | cons op ops ih=>
  simp only [callAll,Option.bind_eq_some_iff,Option.ite_none_right_eq_some] at h
  obtain ⟨⟨a,d⟩,hd,hg,htail⟩:=h
  exact .head (hrel o d ⟨op,a,hd⟩ hg) (ih htail)

theorem Steady.step {o':Object L} (ho:Steady o) (h:SeqStep info o o') : Steady o' := by
 obtain ⟨op,a,h⟩:=h
 obtain ⟨a',x,hx,hs⟩:=ho.call info op
 grind

theorem Steady.run {o':Object L} (ho:Steady o)
 (run:Relation.ReflTransGen (SeqStep info) o o') : Steady o' := by
 induction run with
 | refl=>exact ho
 | tail _ step ih=>exact ih.step step

/-- The `n`-th release from here is the first that starts deallocation. -/
def StartsDeallocAfter (info:Class L → ClassInfo) : ℕ → Object L → Prop
 | 0,_=>False
 | n+1,o=>
  match callRelease info o with
  | none=>False
  | some (r,o')=>if r=.dealloc then n=0 else StartsDeallocAfter info n o'

theorem Steady.startsDeallocAfter (ho:Steady o) (n:ℕ) :
 StartsDeallocAfter info n o ↔ 0 < n ∧ n=total o := by
 induction n generalizing o with
 | zero=>simp [StartsDeallocAfter]
 | succ n ih=>
  have hb:=L.rcHalf_bounds
  have hdead:=ho.deallocating_iff
  unfold StartsDeallocAfter
  by_cases he : o.isa.extraRc.val=0
  · cases hs : o.isa.hasSidetableRc with
    | false=>
     have hd:o.isa.isDeallocating=true:=(isDeallocating_iff _).mpr ⟨he,hs⟩
     rw [callRelease_dead o ho.nonpointer hd]
     simp only [reduceCtorEq,↓reduceIte,ih ho]
     have:=hdead.mp hd
     omega
    | true=>
     obtain ⟨hpos,hsteady,-,hcount,htotal⟩:=ho.borrowed he hs
     rw [callRelease_borrow o ho.nonpointer he hs hpos]
     simp only [reduceCtorEq,↓reduceIte,ih hsteady]
     simp only [total] at htotal ⊢
     omega
  · obtain ⟨hsteady,-,htotal⟩:=ho.released he
    rw [callRelease_inline o ho.nonpointer he]
    have hz:=hsteady.deallocating_iff
    by_cases hd : o.isa.subRC.1.isDeallocating=true
    · simp only [hd,↓reduceIte]
      have:=hz.mp hd
      omega
    · simp only [hd,Bool.false_eq_true,reduceCtorEq,↓reduceIte,ih hsteady]
      have : total (⟨o.isa.subRC.1,o.entry⟩ : Object L)≠0:=fun h=>hd (hz.mpr h)
      omega

theorem raw_startsDeallocAfter (hn:o.isa.nonpointer=false)
 (hm:(info o.isa.shiftcls).isMetaClass=false) (hf:flags o.entry<2)
 (hc:count o.entry < saturation) (n:ℕ) :
 StartsDeallocAfter info n o ↔ 0 < n ∧ n=count o.entry+1 := by
 induction n generalizing o with
 | zero=>simp [StartsDeallocAfter]
 | succ n ih=>
  unfold StartsDeallocAfter
  rw [callRelease_raw o hn hm]
  by_cases hz : count o.entry=0
  · obtain ⟨-,-,hlast⟩:=release_last o.entry hz hf
    simp only [hlast,↓reduceIte]
    omega
  · obtain ⟨hc',hf',hmore⟩:=release_spec o.entry (by omega) hc
    simp only [hmore,Bool.false_eq_true,reduceCtorEq,↓reduceIte]
    have htail:=ih (o:=⟨o.isa,(sidetableRelease o.entry).1⟩) hn hm (hf'.trans_lt hf)
     (hc'.trans_lt (by omega))
    rw [htail,hc']
    omega

end ObjcRuntime.UncontendedCalls
