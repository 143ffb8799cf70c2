import ObjcRuntime.UncontendedCalls

set_option autoImplicit false
namespace ObjcRuntime.Saturation
open AtomicPrograms Isa SideTable RetainRelease RetainThreads RetainInvariant RetainConservation
open UncontendedCalls

variable {L:Layout} {info:Class L → ClassInfo}

structure FreshObject (info:Class L → ClassInfo) (o:Object L) : Prop where
 entry : o.entry=none
 valid : ValidClass info o.isa.shiftcls
 nonpointer : o.isa.nonpointer=true → o.isa.extraRc.val=1 ∧ o.isa.hasSidetableRc=false

def Along (info:Class L → ClassInfo) (P:Object L → UncontendedCalls.Op → Answer → Object L → Prop) :
 List UncontendedCalls.Op → Object L → Prop
 | [],_=>True
 | op::ops,o=>∃a o',call info o op=some (a,o') ∧ P o op a o' ∧ Along info P ops o'

def Underflows (o:Object L) (op:UncontendedCalls.Op) : Prop :=
 op=.release ∧ o.isa.nonpointer=true ∧ o.isa.extraRc.val=0

def RawObject (info:Class L → ClassInfo) (o:Object L) : Prop :=
 o.isa.nonpointer=false ∧ (info o.isa.shiftcls).isMetaClass=false

variable {o:Object L}

theorem RawObject.call (ho:RawObject info o) (op:UncontendedCalls.Op) :
 ∃a e,call info o op=some (a,⟨o.isa,e⟩) ∧ (pinned o=true →
  pinned (⟨o.isa,e⟩ : Object L)=true ∧ a≠.release .dealloc) := by
 obtain ⟨hn,hm⟩:=ho
 obtain ⟨w,e⟩:=o
 cases op with
 | retain=>
  refine ⟨_,_,by rw [UncontendedCalls.call,callRetain_raw _ hn hm]; rfl,fun hp=>⟨?_,by simp⟩⟩
  grind [pinned,sidetableRetain,refcnt_some]
 | tryRetain=>
  refine ⟨_,_,by rw [UncontendedCalls.call,callTryRetain_raw _ hn hm]; rfl,fun hp=>⟨?_,by simp⟩⟩
  cases e with
  | none=>exact absurd (show isPinned 0=true from hp) (by decide)
  | some r=>
   change isPinned r=true at hp
   simp only [pinned,sidetableTryRetain,hp,↓reduceIte]
   split_ifs <;> exact hp
 | release=>
  refine ⟨_,_,by rw [UncontendedCalls.call,callRelease_raw _ hn hm]; rfl,fun hp=>?_⟩
  cases e with
  | none=>exact absurd (show isPinned 0=true from hp) (by decide)
  | some r=>
   change isPinned r=true at hp
   have hl:¬ r < deallocatingFlag:=by
    rw [isPinned_eq,decide_eq_true_eq] at hp
    rw [BitVec.lt_def]
    change ¬ r.toNat<2
    omega
   simp only [pinned,sidetableRelease,hl,hp,↓reduceIte,refcnt_some]
   exact ⟨trivial,by simp⟩
 | setWeaklyReferenced=>
  refine ⟨_,_,by rw [UncontendedCalls.call,callSetWeaklyReferenced_raw _ hn]; rfl,
   fun hp=>⟨?_,by simp⟩⟩
  grind [isPinned,pinned,sidetableSetWeaklyReferencedNolock,refcnt_some]

theorem pinned_retain (info:Class L → ClassInfo) (ho:Steady o) (hp:pinned o=true) (tryRetain:Bool) :
 callRetain info tryRetain o=some (.retained,retained o) ∧ pinned (retained o)=true := by
 have hcount:=(pinned_iff o).mp hp
 have hsat:0 < saturation:=by decide
 have hlive:o.isa.isDeallocating=false:=by
  simp [Word.isDeallocating,ho.side.mpr (by omega)]
 grind [callRetain_nonpointer,ho.nonpointer,pinned_iff,ho.retained]

theorem pinned_call (ho:Steady o) (hp:pinned o=true) (op:UncontendedCalls.Op) :
 ∃a o',call info o op=some (a,o') ∧
  (pinned o'=true ∧ a≠.release .dealloc ↔ ¬ Underflows o op) := by
 have hcount:=(pinned_iff o).mp hp
 have hsat:0 < saturation:=by decide
 have hside:=ho.side.mpr (by omega)
 cases op with
 | retain=>
  obtain ⟨hcall,hkept⟩:=pinned_retain info ho hp false
  refine ⟨_,_,by rw [call,hcall]; rfl,?_⟩
  simp [hkept,Underflows]
 | tryRetain=>
  obtain ⟨hcall,hkept⟩:=pinned_retain info ho hp true
  refine ⟨_,_,by rw [call,hcall]; rfl,?_⟩
  simp [hkept,Underflows]
 | release=>
  by_cases he : o.isa.extraRc.val=0
  · obtain ⟨hpos,hsteady,-,hless,-⟩:=ho.borrowed he hside
    refine ⟨_,_,by rw [call,callRelease_borrow o ho.nonpointer he hside hpos]; rfl,?_⟩
    have hb:=L.rcHalf_bounds
    have hle:=ho.le
    grind [pinned_iff,Underflows,ho.nonpointer]
  · refine ⟨_,_,by rw [call,callRelease_inline o ho.nonpointer he]; rfl,?_⟩
    grind [Word.isDeallocating,subRC_val,pinned,Underflows]
 | setWeaklyReferenced=>
  refine ⟨_,_,by rw [call,callSetWeaklyReferenced_nonpointer o ho.nonpointer]; rfl,?_⟩
  grind [pinned,Underflows]

def Valid (info:Class L → ClassInfo) (o:Object L) : Prop := Steady o ∨ RawObject info o

theorem valid_step {o':Object L} (ho:Valid info o) (h:SeqStep info o o') : Valid info o' := by
 rcases ho with ho|ho
 · exact .inl (ho.step h)
 · obtain ⟨op,a,h⟩:=h
   obtain ⟨a',e,hcall,-⟩:=ho.call op
   rw [h] at hcall
   obtain ⟨-,rfl⟩:=Prod.mk.inj (Option.some.inj hcall)
   exact .inr ho

theorem valid_run {o':Object L} (ho:Valid info o)
 (run:Relation.ReflTransGen (SeqStep info) o o') : Valid info o' := by
 induction run with
 | refl=>exact ho
 | tail _ step ih=>exact valid_step ih step

theorem valid_fresh (ho:FreshObject info o) : Valid info o := by
 obtain ⟨w,e⟩:=o
 obtain ⟨he,hvalid,hnp⟩:=ho
 obtain rfl : e=none:=he
 cases hn : w.nonpointer with
 | true=>exact .inl (steady_fresh ⟨hn,(hnp hn).1,(hnp hn).2,hvalid⟩)
 | false=>exact .inr ⟨hn,hvalid.2⟩

theorem pinned_step (ho:Valid info o) (hp:pinned o=true) (op:UncontendedCalls.Op) :
 ∃a o',call info o op=some (a,o') ∧
  (pinned o'=true ∧ a≠.release .dealloc ↔ ¬ Underflows o op) := by
 rcases ho with ho|ho
 · exact pinned_call ho hp op
 · obtain ⟨a,e,hcall,hkeep⟩:=ho.call op
   refine ⟨a,_,hcall,iff_of_true (hkeep hp) ?_⟩
   rintro ⟨-,hn,-⟩
   rw [ho.1] at hn
   cases hn

/-- Saturation lasts, and no release starts deallocation, exactly as long as no release of
    a nonpointer object finds its inline count at zero. -/
theorem pinned_permanent_iff {o₀ o:Object L} (fresh:FreshObject info o₀)
 (run:Relation.ReflTransGen (SeqStep info) o₀ o) (hp:pinned o=true)
 (ops:List UncontendedCalls.Op) :
 Along info (fun _ _ a o'=>pinned o'=true ∧ a≠.release .dealloc) ops o ↔
  Along info (fun o op _ _=>¬ Underflows o op) ops o := by
 have ho:=valid_run (valid_fresh fresh) run
 clear run
 induction ops generalizing o with
 | nil=>exact Iff.rfl
 | cons op ops ih=>
  obtain ⟨a,o',hcall,hiff⟩:=pinned_step ho hp op
  have ho':=valid_step ho ⟨op,a,hcall⟩
  constructor
  · rintro ⟨b,x,hx,hkeep,htail⟩
    obtain ⟨rfl,rfl⟩:=Prod.mk.inj (Option.some.inj (hcall.symm.trans hx))
    exact ⟨a,o',hcall,hiff.mp hkeep,(ih hkeep.1 ho').mp htail⟩
  · rintro ⟨b,x,hx,hno,htail⟩
    obtain ⟨rfl,rfl⟩:=Prod.mk.inj (Option.some.inj (hcall.symm.trans hx))
    have hkeep:=hiff.mpr hno
    exact ⟨a,o',hcall,hkeep,(ih hkeep.1 ho').mpr htail⟩

theorem exists_pinned (info:Class L → ClassInfo) (d:ℕ) (ho:Steady o) (hpos:0 < total o)
 (hd:saturation+2^L.rcBits ≤ total o+d) :
 ∃o',Relation.ReflTransGen (SeqStep info) o o' ∧ Steady o' ∧ pinned o'=true := by
 induction d generalizing o with
 | zero=>grind [pinned_iff,total]
 | succ d ih=>
  by_cases hp : saturation ≤ count o.entry
  · exact ⟨o,.refl,ho,(pinned_iff o).mpr hp⟩
  · obtain ⟨hsteady,-,htotal,-⟩:=ho.retained
    have hmore:=htotal (not_le.mp hp)
    obtain ⟨o',run,ho',hp'⟩:=ih hsteady (by omega) (by omega)
    refine ⟨o',.head ⟨.retain,.retain .retained,?_⟩ run,ho',hp'⟩
    have hlive:¬ o.isa.isDeallocating=true:=fun h=>by
     have:=ho.deallocating_iff.mp h
     omega
    rw [call,callRetain_nonpointer false o ho.nonpointer,if_neg hlive]
    rfl

theorem unpinned_after (info:Class L → ClassInfo) (n:ℕ) (ho:Steady o) (hp:pinned o=true)
 (hn:o.isa.extraRc.val=n) :
 ∃o',callAll info (fun _=>true) (List.replicate (n+1) .release) o=some o' ∧
  pinned o'=false := by
 have hcount:=(pinned_iff o).mp hp
 have hsat:0 < saturation:=by decide
 have hside:=ho.side.mpr (by omega)
 induction n generalizing o with
 | zero=>
  obtain ⟨hpos,hsteady,-,hless,-⟩:=ho.borrowed hn hside
  refine ⟨borrowed o,?_,?_⟩
  · simp [callAll,call,callRelease_borrow o ho.nonpointer hn hside hpos]
  · have hb:=L.rcHalf_bounds
    have hle:=ho.le
    rw [←Bool.not_eq_true,pinned_iff]
    omega
 | succ n ih=>
  have he:o.isa.extraRc.val≠0:=by omega
  obtain ⟨hsteady,-,-⟩:=ho.released he
  obtain ⟨hval,-,hs,-⟩:=subRC_val o.isa he
  obtain ⟨o',hrun,hp'⟩:=ih (o:=⟨o.isa.subRC.1,o.entry⟩) hsteady hp
   (by simp only; omega) hcount
   (by simp only; rw [hs]; exact hside)
  refine ⟨o',?_,hp'⟩
  rw [List.replicate_succ,callAll,call,callRelease_inline o ho.nonpointer he]
  exact hrun

theorem freshObject_ordinary :
 FreshObject (fun _:Class .arm64e=>ordinaryClass) ⟨Word.init 1 false,none⟩ :=
 ⟨rfl,by decide,fun _=>⟨by decide,by decide⟩⟩

theorem pinned_retain_release (info:Class L → ClassInfo) (ho:Steady o) (hp:pinned o=true) :
 ∃a o',Steady o' ∧ pinned o'=true ∧ ¬ Underflows (retained o) .release ∧
  call info (retained o) .release=some (a,o') := by
 obtain ⟨-,hkept⟩:=pinned_retain info ho hp false
 have hpos:(retained o).isa.extraRc.val≠0:=by
  have hb:=L.rcHalf_bounds
  change (retainNewisa o.isa).extraRc.val≠0
  cases hc : (o.isa.addRC 1).2 with
  | false=>
   obtain ⟨hnew,hval⟩:=retainNewisa_plain o.isa hc
   grind
  | true=>
   obtain ⟨hnew,hval,-⟩:=retainNewisa_carry o.isa hc
   grind
 have hsteady:=ho.retained.1
 exact ⟨_,_,(hsteady.released hpos).1,hkept,fun h=>hpos h.2.2,
  by rw [call,callRelease_inline _ hsteady.nonpointer hpos]; rfl⟩

theorem fresh_pinned : ∃o : Object .arm64e,
 Relation.ReflTransGen (SeqStep fun _=>ordinaryClass) ⟨Word.init 1 false,none⟩ o ∧
  Steady o ∧ pinned o=true :=
 exists_pinned (fun _=>ordinaryClass) (saturation+2^Layout.arm64e.rcBits)
  ((valid_fresh freshObject_ordinary).resolve_right fun h=>absurd h.1 (by decide)) (by decide)
  (by omega)

theorem pinned_permanent_balanced : ∃o : Object .arm64e,
  Relation.ReflTransGen (SeqStep fun _=>ordinaryClass) ⟨Word.init 1 false,none⟩ o ∧
  pinned o=true ∧
  Along (fun _=>ordinaryClass) (fun _ _ a o'=>pinned o'=true ∧ a≠.release .dealloc)
   [.retain,.release,.tryRetain,.release] o := by
 obtain ⟨o,run,ho,hp⟩:=fresh_pinned
 refine ⟨o,run,hp,(pinned_permanent_iff freshObject_ordinary run hp _).mpr ?_⟩
 obtain ⟨a₁,o₁,ho₁,hp₁,hno₁,hcall₁⟩:=pinned_retain_release (fun _=>ordinaryClass) ho hp
 obtain ⟨a₂,o₂,-,-,hno₂,hcall₂⟩:=pinned_retain_release (fun _=>ordinaryClass) ho₁ hp₁
 refine ⟨_,_,by rw [call,(pinned_retain _ ho hp false).1]; rfl,by simp [Underflows],
  _,_,hcall₁,hno₁,_,_,by rw [call,(pinned_retain _ ho₁ hp₁ true).1]; rfl,by simp [Underflows],
  _,_,hcall₂,hno₂,trivial⟩

/-- `sidetable_subExtraRC_nolock` does not look at the pinned bit. -/
theorem pinned_cleared_by_releases : ∃(o o':Object .arm64e) (n:ℕ),
  Relation.ReflTransGen (SeqStep fun _=>ordinaryClass) ⟨Word.init 1 false,none⟩ o ∧
  pinned o=true ∧
  callAll (fun _=>ordinaryClass) (fun _=>true) (List.replicate n .release) o=some o' ∧
  pinned o'=false := by
 obtain ⟨o,run,ho,hp⟩:=fresh_pinned
 obtain ⟨o',hcalls,hp'⟩:=unpinned_after (fun _=>ordinaryClass) o.isa.extraRc.val ho hp rfl
 exact ⟨o,o',_,run,hp,hcalls,hp'⟩

end ObjcRuntime.Saturation
