import ObjcRuntime.UncontendedCalls

set_option autoImplicit false
namespace ObjcRuntime.ChangeIsaState
open AtomicPrograms Isa SideTable RetainRelease RetainThreads RetainInvariant RetainConservation
open UncontendedCalls

variable {L:Layout} {info:Class L → ClassInfo}

def rootRetainCount (o:Object L) : Size :=
 if o.isa.nonpointer then
  BitVec.ofNat 64 o.isa.extraRc.val +
   if o.isa.hasSidetableRc then sidetableGetExtraRCNolock o.entry else 0
 else sidetableRetainCount o.entry

def rootIsDeallocating (o:Object L) : Bool :=
 if o.isa.nonpointer then o.isa.isDeallocating else sidetableIsDeallocating o.entry

def isWeaklyReferenced (o:Object L) : Bool :=
 if o.isa.nonpointer then o.isa.weaklyReferenced else sidetableIsWeaklyReferenced o.entry

structure SameState (info:Class L → ClassInfo) (o o':Object L) : Prop where
 retainCount : rootIsDeallocating o=false → sidetableRetainCount o'.entry=rootRetainCount o
 deallocating : rootIsDeallocating o'=rootIsDeallocating o
 weak : isWeaklyReferenced o'=isWeaklyReferenced o
 notPinned : pinned o'=false
 releases : ∀n,StartsDeallocAfter info n o ↔ StartsDeallocAfter info n o'

theorem rootRetainCount_toNat {o:Object L} (ho:Steady o) : (rootRetainCount o).toNat=total o := by
 have hl:=ho.le
 have hb:=L.rcHalf_bounds
 have hr:=L.rcRange
 have hx:=o.isa.extraRc.isLt
 unfold saturation at hl
 have hget:(sidetableGetExtraRCNolock o.entry).toNat=count o.entry:=by
  rw [sidetableGetExtraRCNolock,BitVec.toNat_ushiftRight,Nat.shiftRight_eq_div_pow]
  rfl
 rw [rootRetainCount,if_pos ho.nonpointer,BitVec.toNat_add,BitVec.toNat_ofNat,total]
 by_cases hs : o.isa.hasSidetableRc=true
 · rw [if_pos hs,hget]
   omega
 · have hz:¬ 0 < count o.entry:=fun h=>hs (ho.side.mpr h)
   rw [if_neg hs,show BitVec.toNat (0 : Size)=0 from rfl]
   omega

/-- From every reachable state, `changeIsa` to a raw isa carries the logical state over
    exactly when the inline count is not zero and the total fits the side table. -/
theorem changeIsa_to_raw_preserves_state {w:Word L} (hw:Fresh info w) {o:Object L}
 (run:Relation.ReflTransGen (UnsaturatedStep info) ⟨w,none⟩ o) {newCls:Class L}
 (hvalid:ValidClass info newCls) (hraw:¬ Capable info newCls) :
 ∃o',callChangeIsa info newCls o=some o' ∧
  (SameState info o o' ↔ o.isa.extraRc.val≠0 ∧ total o ≤ saturation) := by
 have ho:Steady o:=(steady_fresh hw).run (run.lift id fun _ _ h=>h.1)
 refine ⟨_,callChangeIsa_to_raw newCls o ho.nonpointer hraw,?_⟩
 have hzero:((Word.zero L).setClass newCls).nonpointer=false:=by cases L <;> rfl
 by_cases he : o.isa.extraRc.val=0
 · constructor
   · intro h
     have hp:=moveExtraRC_zero o.isa.isDeallocating o.isa.weaklyReferenced o.entry ho.flags
     have hn:=h.notPinned
     rw [pinned,he,hp] at hn
     cases hn
   · exact fun h=>absurd he h.1
 · have hle:=ho.le
   have hx:=o.isa.extraRc.isLt
   have hb:=L.rcHalf_bounds
   have hr:=L.rcRange
   have halive:o.isa.isDeallocating=false:=by simp [Word.isDeallocating,he]
   unfold saturation at hle
   obtain ⟨hcount,hflags⟩:=moveExtraRC_spec o.isa.extraRc.val o.isa.isDeallocating
    o.isa.weaklyReferenced o.entry (by omega) ho.flags (by omega)
   rw [halive] at hcount hflags ⊢
   generalize hm : (sidetableMoveExtraRCNolock (BitVec.ofNat 64 o.isa.extraRc.val) false
    o.isa.weaklyReferenced o.entry).1=e at hcount hflags ⊢
   have hk:=Bool.toNat_le o.isa.weaklyReferenced
   simp only [Bool.toNat_false,mul_zero,zero_add] at hflags
   constructor
   · intro h
     refine ⟨he,?_⟩
     have hn:¬ pinned (⟨(Word.zero L).setClass newCls,e⟩ : Object L)=true:=by
      simp [h.notPinned]
     grind [pinned_iff,total]
   · rintro ⟨-,htotal⟩
     rw [total] at htotal
     have hfit:count e < saturation:=by omega
     have hf2:flags e<2:=by omega
     refine ⟨fun _=>?_,?_,?_,?_,fun n=>?_⟩
     · grind [BitVec.eq_of_toNat_eq,rootRetainCount_toNat,sidetableRetainCount_toNat,total]
     · rw [rootIsDeallocating,rootIsDeallocating,if_neg (by simp [hzero]),if_pos ho.nonpointer,
        halive,sidetableIsDeallocating_eq]
       exact decide_eq_false (not_le.mpr hf2)
     · rw [isWeaklyReferenced,isWeaklyReferenced,if_neg (by simp [hzero]),if_pos ho.nonpointer,
        sidetableIsWeaklyReferenced_eq,hflags]
       cases o.isa.weaklyReferenced <;> rfl
     · grind [pinned_iff]
     · rw [ho.startsDeallocAfter,raw_startsDeallocAfter hzero hvalid.2 hf2 hfit,total]
       simp only
       omega

def rawClass (c:Class .arm64e) : ClassInfo :=
 {ordinaryClass with canAllocNonpointer:=decide (c.val≠2)}

theorem changeIsa_to_raw_weakly_referenced : ∃o o' : Object .arm64e,
  Relation.ReflTransGen (UnsaturatedStep rawClass) ⟨Word.init 1 false,none⟩ o ∧
  o.isa.weaklyReferenced=true ∧ callChangeIsa rawClass 2 o=some o' ∧
  SameState rawClass o o' := by
 have hw:Fresh rawClass (Word.init 1 false : Word .arm64e) :=
  ⟨by decide,by decide,by decide,by decide⟩
 have heval:(callAll rawClass (fun o=>!pinned o) [.retain,.setWeaklyReferenced,.tryRetain,.release]
  ⟨Word.init 1 false,none⟩).any (fun o=>decide (o.isa.weaklyReferenced=true ∧
   o.isa.extraRc.val≠0 ∧ total o ≤ saturation))=true := by decide
 simp only [Option.any_eq_true,decide_eq_true_eq] at heval
 obtain ⟨o,ho,hweak,hholds⟩:=heval
 have run:Relation.ReflTransGen (UnsaturatedStep rawClass) ⟨Word.init 1 false,none⟩ o :=
  run_of_callAll (fun a b hs hg=>⟨hs,by simpa using hg⟩) _ ho
 have hraw:¬ Capable rawClass (2 : Class .arm64e):=fun h=>absurd h.2 (by decide)
 have hvalid:ValidClass rawClass (2 : Class .arm64e):=by decide
 obtain ⟨o',hc,hiff⟩:=changeIsa_to_raw_preserves_state hw run hvalid hraw
 exact ⟨o,o',run,hweak,hc,hiff.mpr hholds⟩

/-- 255 retains spill one half to the side table and 128 releases use up the other; the
    live object, with 128 references, is then moved to a pinned count. -/
theorem changeIsa_to_raw_pins_live_object : ∃o o' : Object .arm64e,
  Relation.ReflTransGen (UnsaturatedStep rawClass) ⟨Word.init 1 false,none⟩ o ∧
  rootIsDeallocating o=false ∧ rootRetainCount o=128 ∧
  callChangeIsa rawClass 2 o=some o' ∧
  sidetableRetainCount o'.entry≠rootRetainCount o ∧ pinned o'=true := by
 have heval:(callAll rawClass (fun o=>!pinned o)
  (List.replicate 255 .retain++List.replicate 128 .release) ⟨Word.init 1 false,none⟩).any
  (fun o=>decide (rootIsDeallocating o=false ∧ rootRetainCount o=128) &&
   (callChangeIsa rawClass 2 o).any fun o' =>
    decide (sidetableRetainCount o'.entry≠rootRetainCount o ∧ pinned o'=true))=true := by
  decide +kernel
 simp only [Option.any_eq_true,Bool.and_eq_true,decide_eq_true_eq] at heval
 obtain ⟨o,ho,⟨hdead,hcount⟩,o',hc,hne,hp⟩:=heval
 exact ⟨o,o',run_of_callAll (fun a b hs hg=>⟨hs,by simpa using hg⟩) _ ho,hdead,hcount,hc,hne,hp⟩

end ObjcRuntime.ChangeIsaState
