import ObjcRuntime.ChangeIsaState
import ObjcRuntime.RawRetainCount
import ObjcRuntime.Saturation
import ObjcRuntime.WeakEntryLife

/-!
# What an object leaves in its side table

One object through its calls, with its entry of `refcnts` and the weak table that it shares.
-/
set_option autoImplicit false
namespace ObjcRuntime.Deallocation
open Isa SideTable RetainRelease RetainThreads RetainInvariant UncontendedCalls ChangeIsaState
open WeakEntry (Ptr)
open WeakTable (NonNil Location Call DeallocatingOptions Viability Follows)
open ProbeTable (Has)
open Function

variable {L:Layout}

structure State (L:Layout) where
 obj : Object L
 weak : WeakTable.State

/-- A step of the object's history. `hook` is what `allowsWeakReference` of a class with custom
    retain and release says; `elsewhere` is a call for another object of the side table. -/
inductive Op (info:Class L → ClassInfo) (this:NonNil) where
 | retain
 | tryRetain
 | release
 | storeWeak (block:NonNil) (location:Location) (options:DeallocatingOptions)
  (hook:Viability)
 | unregister (location:Location)
 | changeIsa (newCls:Class L) (valid:ValidClass info newCls)
 | elsewhere (call:Call) (other:call.op.referent≠some this)

section Model

variable (isTagged:Ptr → Bool) (info:Class L → ClassInfo) (this:NonNil)

def viability (o:Object L) (hook:Viability) : Viability :=
 if (info o.isa.shiftcls).hasCustomRR then hook
 else if rootIsDeallocating o then .deallocating else .viable

/-- The part of `storeWeak` that assigns the new value. -/
def storeWeak (block:NonNil) (location:Location) (options:DeallocatingOptions)
 (hook:Viability) (s:State L) : Option (State L) :=
 (WeakTable.weakRegisterNoLock isTagged s.weak.table block this location options
  (viability info s.obj hook)).bind fun x =>
   if x.1=0 then some { s with weak := {s.weak with table:=x.2} }
   else (callSetWeaklyReferenced s.obj).map fun o=>⟨o,{s.weak with table:=x.2}⟩

def counted (op:UncontendedCalls.Op) (s:State L) : Option (State L) :=
 (call info s.obj op).map fun x=>{s with obj:=x.2}

variable {info this}

/-- `none` is `_objc_fatal`. -/
def Op.step (s:State L) : Op info this → Option (State L)
 | .retain=>counted info .retain s
 | .tryRetain=>counted info .tryRetain s
 | .release=>counted info .release s
 | .storeWeak block location options hook=>
  Deallocation.storeWeak isTagged info this block location options hook s
 | .unregister location=>(WeakTable.step isTagged s.weak (.unregister this location)).map fun w =>
  {s with weak:=w}
 | .changeIsa newCls _=>(callChangeIsa info newCls s.obj).map fun o=>{s with obj:=o}
 | .elsewhere call _=>(WeakTable.step isTagged s.weak call.op).map fun w=>{s with weak:=w}

def run (s:State L) : List (Op info this) → Option (State L)
 | []=>some s
 | op::ops=>(op.step isTagged s).bind fun s=>run s ops

def Op.call (s:State L) : Op info this → Option Call
 | .storeWeak block location options hook=>
  some (.register block this location options (viability info s.obj hook))
 | .elsewhere call _=>some call
 | _=>none

variable (this)

def weakClear (s:State L) : Option (State L) :=
 (WeakTable.step isTagged s.weak (.clear this)).map fun w=>{s with weak:=w}

def eraseRefcnt (s:State L) : State L := { s with obj := {s.obj with entry:=none} }

def sidetableClearDeallocating (s:State L) : Option (State L) :=
 match s.obj.entry with
 | none=>some s
 | some refcnt=>
  if refcnt &&& weaklyReferencedFlag != 0 then (weakClear isTagged this s).map eraseRefcnt
  else some (eraseRefcnt s)

def clearDeallocatingSlow (s:State L) : Option (State L) :=
 (if s.obj.isa.weaklyReferenced then weakClear isTagged this s else some s).map fun s' =>
  if s.obj.isa.hasSidetableRc then eraseRefcnt s' else s'

def clearDeallocating (s:State L) : Option (State L) :=
 if !s.obj.isa.nonpointer then sidetableClearDeallocating isTagged this s
 else if s.obj.isa.weaklyReferenced || s.obj.isa.hasSidetableRc then
  clearDeallocatingSlow isTagged this s
 else some s

/-- `rootDealloc` as far as the side table goes; `hasCxxDtor` is the isa's bit or the class's. -/
def rootDealloc (hasCxxDtor:Bool) (s:State L) : Option (State L) :=
 if s.obj.isa.nonpointer && !s.obj.isa.weaklyReferenced && !s.obj.isa.hasAssoc && !hasCxxDtor &&
  !s.obj.isa.hasSidetableRc then some s
 else clearDeallocating isTagged this s

def weakIsRegisteredNoLock (s:State L) : Bool :=
 WeakTable.weakEntryForReferent s.weak.table this != .absent

def sidetablePresent (s:State L) : Bool :=
 s.obj.entry.isSome || weakIsRegisteredNoLock this s

def initIsa (cls:Class L) (nonpointer hasCxxDtor:Bool) : Word L :=
 if nonpointer then Word.init cls hasCxxDtor else (Word.zero L).setClass cls

end Model

def WeaklyPresent (this:NonNil) (s:State L) : Prop :=
 ∃e,Has WeakTable.entryKey s.weak.table this e

/-- A nonpointer object's entry is covered by `has_sidetable_rc`. -/
structure Kept (info:Class L → ClassInfo) (o:Object L) : Prop where
 steady : o.isa.nonpointer=true → Steady o
 counted : o.isa.nonpointer=true → o.isa.hasSidetableRc=false → o.entry=none
 valid : ValidClass info o.isa.shiftcls

/-- Whatever the object has in its side table is covered by the bit that `clearDeallocating`
    tests. -/
structure Covered (info:Class L → ClassInfo) (this:NonNil) (s:State L) : Prop where
 table : ∃m grown,Follows s.weak.table m grown
 obj : Kept info s.obj
 flagged : WeaklyPresent this s → isWeaklyReferenced s.obj=true

section Words

theorem sidetableIsWeaklyReferenced_set (e:Entry) :
 sidetableIsWeaklyReferenced (sidetableSetWeaklyReferencedNolock e).1=true := by
 have ho:=or_bit_toNat (refcnt e) 0 (by omega)
 rw [sidetableIsWeaklyReferenced,weak_bit,sidetableSetWeaklyReferencedNolock,refcnt_some,
  weaklyReferencedFlag,decide_eq_true_eq,ho]
 split_ifs <;> omega

theorem flagged_toNat {w:Size} (hw:w.toNat % 4=0) (d k:Bool) :
 (if k then (if d then w ||| deallocatingFlag else w) ||| weaklyReferencedFlag
  else if d then w ||| deallocatingFlag else w).toNat % 2=k.toNat := by
 have hd:=or_flag_spec (w:=w) d 1 (by omega) (by omega)
 have hb:=Bool.toNat_le k
 have hk:=or_flag_spec (w:=if d then w ||| 1#64 <<< 1 else w) k 0 (by omega)
  (by rw [hd]; omega)
 refine (congrArg (· % 2) hk).trans ?_
 rw [hd]
 omega

theorem sidetableIsWeaklyReferenced_move (n:Size) (d k:Bool) {e:Entry} (hf:flags e=0) :
 sidetableIsWeaklyReferenced (sidetableMoveExtraRCNolock n d k e).1=k := by
 have hw:=refcnt_toNat e
 have hshift:((n-1) <<< rcShift).toNat % 4=0:=by
  rw [rcShift,BitVec.toNat_shiftLeft,Nat.shiftLeft_eq]
  omega
 have hsum:(if (addc (refcnt e) ((n-1) <<< rcShift)).2 then rcPinned
  else (addc (refcnt e) ((n-1) <<< rcShift)).1).toNat % 4=0 := by
  split
  · decide
  · rw [addc,BitVec.toNat_add]
    omega
 have hflag:(refcnt (sidetableMoveExtraRCNolock n d k e).1).toNat % 2=k.toNat :=
  flagged_toNat hsum d k
 have hbit:sidetableIsWeaklyReferenced (sidetableMoveExtraRCNolock n d k e).1 =
  decide ((refcnt (sidetableMoveExtraRCNolock n d k e).1).toNat % 2=1) := weak_bit _
 rw [hbit]
 cases k <;> simp [hflag]

theorem isWeaklyReferenced_raw {w:Word L} (hw:w.nonpointer=false) (e:Entry) :
 isWeaklyReferenced ⟨w,e⟩=sidetableIsWeaklyReferenced e := by
 rw [isWeaklyReferenced,if_neg (by simp [hw])]

theorem isWeaklyReferenced_nonpointer {w:Word L} (hw:w.nonpointer=true) (e:Entry) :
 isWeaklyReferenced ⟨w,e⟩=w.weaklyReferenced := by
 rw [isWeaklyReferenced,if_pos hw]

end Words

section Calls

variable {info:Class L → ClassInfo} {o:Object L}

theorem Kept.raw (h:Kept info o) (hn:o.isa.nonpointer=false) (e:Entry) : Kept info ⟨o.isa,e⟩ :=
 ⟨fun hp=>absurd hp (by simp [hn]),fun hp=>absurd hp (by simp [hn]),h.valid⟩

theorem Kept.after_retain (h:Kept info o) (hn:o.isa.nonpointer=true) :
 Kept info (retained o) ∧ isWeaklyReferenced (retained o)=isWeaklyReferenced o := by
 obtain ⟨hsteady,hcls,-⟩:=(h.steady hn).retained
 have hflag:(retained o).isa.weaklyReferenced=o.isa.weaklyReferenced ∧
  ((retained o).isa.hasSidetableRc=false →
    o.isa.hasSidetableRc=false ∧ (retained o).entry=o.entry) := by
  cases hc : (o.isa.addRC 1).2 with
  | false=>
   simp only [UncontendedCalls.retained,(retainNewisa_plain o.isa hc).1,hc]
   exact ⟨rfl,fun hs=>⟨hs,rfl⟩⟩
  | true=>
   simp [UncontendedCalls.retained,(retainNewisa_carry o.isa hc).1]
 refine ⟨⟨fun _=>hsteady,fun _ hs=>?_,hcls ▸ h.valid⟩,?_⟩
 · grind [h.counted]
 · rw [isWeaklyReferenced,isWeaklyReferenced,if_pos hsteady.nonpointer,if_pos hn,hflag.1]

theorem Kept.retain (h:Kept info o) (tryRetain:Bool) :
 ∃r o',callRetain info tryRetain o=some (r,o') ∧ Kept info o' ∧
  isWeaklyReferenced o'=isWeaklyReferenced o := by
 cases hn : o.isa.nonpointer with
 | true=>
  rw [callRetain_nonpointer tryRetain o hn]
  grind [h.after_retain]
 | false=>
  have hraw:∀e,flags e=flags o.entry →
   isWeaklyReferenced (⟨o.isa,e⟩ : Object L)=isWeaklyReferenced o := by
   intro e he
   rw [isWeaklyReferenced_raw hn,isWeaklyReferenced_raw hn,sidetableIsWeaklyReferenced_eq,
    sidetableIsWeaklyReferenced_eq,he]
  cases tryRetain with
  | false=>
   exact ⟨_,_,callRetain_raw o hn h.valid.2,h.raw hn _,hraw _ (flags_retain o.entry)⟩
  | true=>
   exact ⟨_,_,callTryRetain_raw o hn h.valid.2,h.raw hn _,hraw _ (flags_tryRetain o.entry)⟩

theorem Kept.release (h:Kept info o) : ∃r o',callRelease info o=some (r,o') ∧ Kept info o' ∧
  isWeaklyReferenced o'=isWeaklyReferenced o := by
 cases hn : o.isa.nonpointer with
 | true=>
  have hsteady:=h.steady hn
  by_cases he : o.isa.extraRc.val=0
  · cases hs : o.isa.hasSidetableRc with
    | false=>
     exact ⟨_,_,callRelease_dead o hn ((Isa.isDeallocating_iff _).mpr ⟨he,hs⟩),h,rfl⟩
    | true=>
     obtain ⟨hpos,hborrowed,hcls,-⟩:=hsteady.borrowed he hs
     refine ⟨_,_,callRelease_borrow o hn he hs hpos,⟨fun _=>hborrowed,fun _ hside=>?_,
      hcls ▸ h.valid⟩,?_⟩
     · grind [UncontendedCalls.borrowed,borrowNewisa]
     · rw [isWeaklyReferenced,isWeaklyReferenced,if_pos hborrowed.nonpointer,if_pos hn]
       rfl
  · obtain ⟨hreleased,hcls,-⟩:=hsteady.released he
    have hsame:o.isa.subRC.1.hasSidetableRc=o.isa.hasSidetableRc ∧
     o.isa.subRC.1.weaklyReferenced=o.isa.weaklyReferenced := by
     rw [subRC_eq]
     exact ⟨rfl,rfl⟩
    refine ⟨_,_,callRelease_inline o hn he,⟨fun _=>hreleased,fun _ hside=>?_,hcls ▸ h.valid⟩,?_⟩
    · exact h.counted hn (hsame.1 ▸ hside)
    · rw [isWeaklyReferenced,isWeaklyReferenced,if_pos hreleased.nonpointer,if_pos hn]
      exact hsame.2
 | false=>
  refine ⟨_,_,callRelease_raw o hn h.valid.2,h.raw hn _,?_⟩
  rw [isWeaklyReferenced_raw hn,isWeaklyReferenced_raw hn,sidetableIsWeaklyReferenced_eq,
   sidetableIsWeaklyReferenced_eq,show flags (sidetableRelease o.entry).1 % 2=_ from
   flags_apply_weak .release o.entry (by simp)]

theorem Kept.setWeaklyReferenced (h:Kept info o) :
 ∃o',callSetWeaklyReferenced o=some o' ∧ Kept info o' ∧ isWeaklyReferenced o'=true := by
 cases hn : o.isa.nonpointer with
 | true=>
  have hs:=h.steady hn
  refine ⟨_,callSetWeaklyReferenced_nonpointer o hn,⟨fun _=>⟨hs.nonpointer,hs.flags,hs.dvd,
   hs.le,hs.side⟩,h.counted,h.valid⟩,?_⟩
  exact isWeaklyReferenced_nonpointer (w:={o.isa with weaklyReferenced:=true}) hn _
 | false=>
  exact ⟨_,callSetWeaklyReferenced_raw o hn,h.raw hn _,
   (isWeaklyReferenced_raw hn _).trans (sidetableIsWeaklyReferenced_set o.entry)⟩

theorem callChangeIsa_to_nonpointer (newCls:Class L) (hn:o.isa.nonpointer=true)
 (hcap:Capable info newCls) :
 callChangeIsa info newCls o =
  some ⟨changeNonpointer newCls (info newCls).hasCxxDtor o.isa,o.entry⟩ := by
 obtain ⟨w,e⟩:=o
 change w.nonpointer=true at hn
 have hloop:∀newisa,changeLoop info newCls false newisa w =
  .store false false w (changeNonpointer newCls (info newCls).hasCxxDtor w) := by
  intro newisa
  rw [changeLoop,if_pos ⟨.inr hn,hcap⟩]
 simp [callChangeIsa,AtomicPrograms.solo,fuel,RetainRelease.changeIsa,hloop]

theorem callChangeIsa_raw (newCls:Class L) (hn:o.isa.nonpointer=false) (hcls:o.isa.shiftcls.val≠0) :
 callChangeIsa info newCls o=some ⟨(Word.zero L).setClass newCls,o.entry⟩ := by
 obtain ⟨w,e⟩:=o
 change w.nonpointer=false at hn
 have hbits:=bits_ne_zero w hcls
 have hloop:∀newisa,changeLoop info newCls false newisa w =
  .store false false w (newisa.setClass newCls) := by grind [changeLoop]
 simp [callChangeIsa,AtomicPrograms.solo,fuel,RetainRelease.changeIsa,hloop]

theorem Kept.changeIsa (h:Kept info o) {newCls:Class L} (hvalid:ValidClass info newCls) :
 ∃o',callChangeIsa info newCls o=some o' ∧ Kept info o' ∧
  isWeaklyReferenced o'=isWeaklyReferenced o := by
 have hzero:((Word.zero L).setClass newCls).nonpointer=false:=by cases L <;> rfl
 have hraw:∀e,Kept info ⟨(Word.zero L).setClass newCls,e⟩:=fun e =>
  ⟨fun hp=>absurd hp (by simp [hzero]),fun hp=>absurd hp (by simp [hzero]),hvalid⟩
 cases hn : o.isa.nonpointer with
 | true=>
  have hs:=h.steady hn
  by_cases hcap : Capable info newCls
  · have hbits:=bits_ne_zero o.isa h.valid.1
    refine ⟨_,callChangeIsa_to_nonpointer newCls hn hcap,?_⟩
    rw [changeNonpointer,if_neg hbits,isWeaklyReferenced,isWeaklyReferenced,if_pos hn]
    exact ⟨⟨fun _=>⟨hs.nonpointer,hs.flags,hs.dvd,hs.le,hs.side⟩,h.counted,hvalid⟩,rfl⟩
  · refine ⟨_,callChangeIsa_to_raw newCls o hn hcap,hraw _,?_⟩
    rw [isWeaklyReferenced_raw hzero,sidetableIsWeaklyReferenced_move _ _ _ hs.flags,
     isWeaklyReferenced_nonpointer hn]
 | false=>
  refine ⟨_,callChangeIsa_raw newCls hn h.valid.1,hraw _,?_⟩
  rw [isWeaklyReferenced_raw hzero,isWeaklyReferenced_raw hn]

end Calls

section Steps

variable {info:Class L → ClassInfo} {this:NonNil} {isTagged:Ptr → Bool} {s s':State L}

theorem present_of_step {m:WeakTable.Registered} {grown:Ptr → Prop} {t t':WeakTable.State}
 (h:Follows t.table m grown) {call:Call}
 (h':Follows t'.table (m.after isTagged call) (WeakTable.outgrown isTagged m grown call))
 (hpresent:∃e,Has WeakTable.entryKey t'.table this e) :
 (∃e,Has WeakTable.entryKey t.table this e) ∨
  ∃block location options viability,call=.register block this location options viability ∧
   WeakTable.Accepts isTagged this options viability := by
 have hafter:=(h'.present this).mp hpresent
 by_contra hnot
 push Not at hnot
 obtain ⟨hno,hnoregister⟩:=hnot
 obtain ⟨hnone,hsmall⟩:=h.absent hno
 have hsame:m.after isTagged call this=0:=by
  cases call with
  | register block referent referrer options viability=>
   simp only [WeakTable.Registered.after]
   split_ifs with hacc
   · by_cases hr : referent=this
     · subst hr
       exact absurd hacc (hnoregister block referrer options viability rfl)
     · rw [update_of_ne (Ne.symm hr),hnone]
   · exact hnone
  | unregister referent referrer=>
   by_cases hr : referent=this
   · subst hr
     rw [WeakTable.Registered.after,update_self,hnone,Multiset.erase_zero]
   · rw [WeakTable.Registered.after,update_of_ne (Ne.symm hr),hnone]
  | clear referent=>
   by_cases hr : referent.1=this.1
   · rw [WeakTable.Registered.after,hr,update_self]
   · rw [WeakTable.Registered.after,update_of_ne (Ne.symm hr),hnone]
 rcases hafter with hne|hgrown
 · exact hne hsame
 · cases call with
   | register block referent referrer options viability=>
    rcases hgrown with hg|hcard
    · exact hsmall hg
    · rw [hsame] at hcard
      simp at hcard
   | unregister referent referrer=>exact hsmall hgrown
   | clear referent=>exact hsmall hgrown.2

section

variable (h:Covered info this s)
include h

theorem Covered.replace {o:Object L} (ho:Kept info o)
 (hflag:isWeaklyReferenced o=isWeaklyReferenced s.obj) :
 Covered info this {s with obj:=o} :=
 ⟨h.table,ho,fun hp=>hflag.trans (h.flagged hp)⟩

theorem Covered.weakStep {call:Call} {t':WeakTable.State}
 (hstep:WeakTable.step isTagged s.weak call.op=some t')
 (hcall:∀block location options viability,call≠.register block this location options viability) :
 Covered info this {s with weak:=t'} := by
 obtain ⟨m,grown,hfollows⟩:=h.table
 rcases WeakTable.follows_step isTagged hfollows call with ⟨t'',hstep',hfollows'⟩|⟨hnone,-⟩
 · rw [hstep,Option.some.injEq] at hstep'
   subst hstep'
   refine ⟨⟨_,_,hfollows'⟩,h.obj,fun hp=>?_⟩
   rcases present_of_step hfollows hfollows' hp with hold|⟨_,_,_,_,hreg,-⟩
   · exact h.flagged hold
   · exact absurd hreg (hcall _ _ _ _)
 · rw [hstep] at hnone
   cases hnone

theorem Covered.weakStep_returns (isTagged:Ptr → Bool) (call:Call) :
 (∃t',WeakTable.step isTagged s.weak call.op=some t') ∨ call.Crashes isTagged := by
 obtain ⟨m,grown,hfollows⟩:=h.table
 rcases WeakTable.follows_step isTagged hfollows call with ⟨t',hstep,-⟩|⟨-,hcrash⟩
 · exact .inl ⟨t',hstep⟩
 · exact .inr hcrash

theorem Covered.storeWeak (htag:isTagged this=false) (block:NonNil)
 (location:Location) (options:DeallocatingOptions) (hook:Viability) :
 (∃s',storeWeak isTagged info this block location options hook s=some s' ∧ Covered info this s') ∨
 (Call.register block this location options (viability info s.obj hook)).Crashes isTagged := by
 obtain ⟨m,grown,hfollows⟩:=h.table
 have hreal:¬ (this.1=0 ∨ isTagged this=true):=by simp [this.2,htag]
 rw [Deallocation.storeWeak,WeakTable.weakRegisterNoLock_eq]
 by_cases hacc : WeakTable.Accepts isTagged this options (viability info s.obj hook)
 · obtain ⟨t',hreg,hfollows'⟩:=WeakTable.follows_register hfollows block location this.2
   obtain ⟨o,hset,hkept,hflag⟩:=h.obj.setWeaklyReferenced
   refine .inl ⟨⟨o,{s.weak with table:=t'}⟩,?_,⟨_,_,hfollows'⟩,hkept,fun _=>hflag⟩
   grind
 · rw [if_neg hacc,if_neg hreal]
   by_cases hcrash : options=.crashIfDeallocating ∧ viability info s.obj hook=.deallocating
   · exact .inr ⟨this.2,htag,hcrash.1,hcrash.2⟩
   · rw [if_neg hcrash]
     exact .inl ⟨s,rfl,h⟩

theorem Covered.step (htag:isTagged this=false) (op:Op info this) :
 (∃s',op.step isTagged s=some s' ∧ Covered info this s') ∨
 ∃call,op.call s=some call ∧ call.Crashes isTagged := by
 cases op with
 | retain=>
  obtain ⟨r,o,hcall,hkept,hflag⟩:=h.obj.retain false
  grind [h.replace,Op.step,counted,UncontendedCalls.call]
 | tryRetain=>
  obtain ⟨r,o,hcall,hkept,hflag⟩:=h.obj.retain true
  grind [h.replace,Op.step,counted,UncontendedCalls.call]
 | release=>
  obtain ⟨r,o,hcall,hkept,hflag⟩:=h.obj.release
  refine .inl ⟨_,?_,h.replace hkept hflag⟩
  simp only [Op.step,counted,UncontendedCalls.call,hcall]
  rfl
 | storeWeak block location options hook=>
  exact (h.storeWeak htag block location options hook).imp_right fun hcrash=>⟨_,rfl,hcrash⟩
 | unregister location=>
  rcases h.weakStep_returns isTagged (.unregister this location) with
   ⟨t',hstep⟩ | hcrash
  · exact .inl ⟨_,congrArg (Option.map _) hstep,h.weakStep hstep (by simp)⟩
  · exact hcrash.elim
 | changeIsa newCls valid=>
  obtain ⟨o,hcall,hkept,hflag⟩:=h.obj.changeIsa valid
  exact .inl ⟨_,congrArg (Option.map _) hcall,h.replace hkept hflag⟩
 | elsewhere call other=>
  rcases h.weakStep_returns isTagged call with ⟨t',hstep⟩|hcrash
  · refine .inl ⟨_,congrArg (Option.map _) hstep,h.weakStep hstep ?_⟩
    rintro block location options viability rfl
    exact other rfl
  · exact .inr ⟨call,rfl,hcrash⟩

theorem Covered.run (htag:isTagged this=false) (ops:List (Op info this)) :
 (∃s',run isTagged s ops=some s' ∧ Covered info this s') ∨
 ∃earlier op later s₁ call,ops=earlier++op::later ∧
  run isTagged s earlier=some s₁ ∧ op.call s₁=some call ∧ call.Crashes isTagged := by
 induction ops generalizing s with
 | nil=>exact .inl ⟨s,rfl,h⟩
 | cons op ops ih=>
  rcases h.step htag op with ⟨s₁,hstep,h₁⟩|⟨call,hcall,hcrash⟩
  · rcases ih h₁ with ⟨s',hrun,h'⟩|⟨earlier,bad,later,s₂,call,rfl,hrun,hcrash⟩
    · exact .inl ⟨s',by rw [Deallocation.run,hstep]; exact hrun,h'⟩
    · exact .inr ⟨op::earlier,bad,later,s₂,call,rfl,
       by rw [Deallocation.run,hstep]; exact hrun,hcrash⟩
  · exact .inr ⟨[],op,ops,s,call,rfl,rfl,hcall,hcrash⟩

end

end Steps

structure Clean (this:NonNil) (s:State L) : Prop where
 entry : s.obj.entry=none
 table : ∃m grown,Follows s.weak.table m grown
 absent : ¬ WeaklyPresent this s

def born (cls:Class L) (nonpointer hasCxxDtor:Bool) (s:State L) : State L :=
 {s with obj:=⟨initIsa cls nonpointer hasCxxDtor,s.obj.entry⟩}

section Life

variable {info:Class L → ClassInfo} {this:NonNil} {isTagged:Ptr → Bool} {s:State L}

theorem Clean.not_present (h:Clean this s) : sidetablePresent this s=false := by
 obtain ⟨m,grown,hfollows⟩:=h.table
 rw [sidetablePresent,h.entry,weakIsRegisteredNoLock]
 rcases WeakTable.lookup_follows hfollows.table this with ⟨i,e,-,-,-,he,-⟩|⟨habsent,-⟩
 · exact absurd ⟨e,he⟩ h.absent
 · rw [habsent]
   rfl

theorem Clean.born_obj (h:Clean this s) (cls:Class L) (nonpointer hasCxxDtor:Bool) :
 (born cls nonpointer hasCxxDtor s).obj=⟨initIsa cls nonpointer hasCxxDtor,none⟩ := by
 rw [born,h.entry]

theorem Clean.covered (h:Clean this s) {cls:Class L} (hvalid:ValidClass info cls)
 (nonpointer hasCxxDtor:Bool) : Covered info this (born cls nonpointer hasCxxDtor s) := by
 refine ⟨h.table,?_,fun hp=>absurd hp h.absent⟩
 rw [h.born_obj]
 cases nonpointer with
 | true=>
  have hfresh:RetainConservation.Fresh info (Word.init cls hasCxxDtor) :=
   ⟨rfl,by cases L <;> rfl,by cases L <;> rfl,hvalid⟩
  exact ⟨fun _=>steady_fresh hfresh,fun _ _=>rfl,hvalid⟩
 | false=>
  have hzero:((Word.zero L).setClass cls).nonpointer=false:=by cases L <;> rfl
  exact ⟨fun hp=>absurd hp (by simp [initIsa,hzero]),fun _ _=>rfl,hvalid⟩

theorem Clean.born_state (h:Clean this s) (cls:Class L) (nonpointer hasCxxDtor:Bool) :
 rootRetainCount (born cls nonpointer hasCxxDtor s).obj=1 ∧
  rootIsDeallocating (born cls nonpointer hasCxxDtor s).obj=false ∧
  isWeaklyReferenced (born cls nonpointer hasCxxDtor s).obj=false := by
 rw [h.born_obj]
 cases nonpointer with
 | true=>cases L <;> exact ⟨rfl,rfl,rfl⟩
 | false=>
  have hzero:(initIsa cls false hasCxxDtor:Word L).nonpointer=false:=by cases L <;> rfl
  rw [isWeaklyReferenced_raw hzero,rootRetainCount,rootIsDeallocating,
   if_neg (by simp [hzero]),if_neg (by simp [hzero])]
  change sidetableRetainCount none=1 ∧ sidetableIsDeallocating none=false ∧
   sidetableIsWeaklyReferenced none=false
  decide

section

variable (h:Covered info this s)
include h

theorem Covered.weakClear (isTagged:Ptr → Bool) :
 ∃s',weakClear isTagged this s=some s' ∧ s'.obj=s.obj ∧
  (∃m grown,Follows s'.weak.table m grown) ∧ ¬ WeaklyPresent this s' := by
 obtain ⟨m,grown,hfollows⟩:=h.table
 obtain ⟨t',mem',hclear,hfollows',-⟩:=WeakTable.follows_clear hfollows this s.weak.mem
 refine ⟨⟨s.obj,⟨t',mem'⟩⟩,?_,rfl,⟨_,_,hfollows'⟩,fun hp=>?_⟩
 · simp only [Deallocation.weakClear,WeakTable.step,hclear,Option.map_some]
 · rcases (hfollows'.present this).mp hp with hne|hgrown
   · exact hne (update_self ..)
   · exact hgrown.1 rfl

theorem Covered.sidetableClearDeallocating (hn:s.obj.isa.nonpointer=false) :
 ∃s',sidetableClearDeallocating isTagged this s=some s' ∧ Clean this s' := by
 have hraw:isWeaklyReferenced s.obj=sidetableIsWeaklyReferenced s.obj.entry :=
  isWeaklyReferenced_raw hn _
 rw [Deallocation.sidetableClearDeallocating]
 cases he : s.obj.entry with
 | none=>
  refine ⟨s,rfl,he,h.table,fun hp=>?_⟩
  have hflag:=h.flagged hp
  rw [hraw,he] at hflag
  exact absurd hflag (by decide)
 | some refcnt=>
  rw [he] at hraw
  cases hw : refcnt &&& weaklyReferencedFlag != 0 with
  | true=>
   obtain ⟨s',hclear,-,htable,habsent⟩:=h.weakClear isTagged
   refine ⟨eraseRefcnt s',?_,rfl,htable,habsent⟩
   simp only [hw,if_true,hclear,Option.map_some]
  | false=>
   refine ⟨eraseRefcnt s,by simp only [hw,Bool.false_eq_true,if_false],rfl,h.table,fun hp=>?_⟩
   have hflag:=h.flagged hp
   rw [hraw,sidetableIsWeaklyReferenced,refcnt_some,hw] at hflag
   cases hflag

theorem Covered.clearDeallocatingSlow (hn:s.obj.isa.nonpointer=true) :
 ∃s',clearDeallocatingSlow isTagged this s=some s' ∧ Clean this s' := by
 have hcleared:∃s',(if s.obj.isa.weaklyReferenced then Deallocation.weakClear isTagged this s
  else some s)=some s' ∧ s'.obj=s.obj ∧ (∃m grown,Follows s'.weak.table m grown) ∧
  ¬ WeaklyPresent this s' := by
  cases hw : s.obj.isa.weaklyReferenced with
  | true=>exact h.weakClear isTagged
  | false=>
   refine ⟨s,rfl,rfl,h.table,fun hp=>?_⟩
   have hflag:=h.flagged hp
   rw [isWeaklyReferenced,if_pos hn,hw] at hflag
   cases hflag
 obtain ⟨s',hclear,hobj,htable,habsent⟩:=hcleared
 rw [Deallocation.clearDeallocatingSlow,hclear,Option.map_some]
 cases hs : s.obj.isa.hasSidetableRc with
 | true=>exact ⟨eraseRefcnt s',rfl,rfl,htable,habsent⟩
 | false=>exact ⟨s',rfl,by rw [hobj]; exact h.obj.counted hn hs,htable,habsent⟩

theorem Covered.clearDeallocating :
 ∃s',clearDeallocating isTagged this s=some s' ∧ Clean this s' := by
 rw [Deallocation.clearDeallocating]
 cases hn : s.obj.isa.nonpointer with
 | false=>exact h.sidetableClearDeallocating hn
 | true=>
  cases hbits : s.obj.isa.weaklyReferenced || s.obj.isa.hasSidetableRc with
  | true=>exact h.clearDeallocatingSlow hn
  | false=>
   rw [Bool.or_eq_false_iff] at hbits
   refine ⟨s,rfl,h.obj.counted hn hbits.2,h.table,fun hp=>?_⟩
   have hflag:=h.flagged hp
   grind [isWeaklyReferenced]

theorem Covered.rootDealloc (hasCxxDtor:Bool) :
 ∃s',rootDealloc isTagged this hasCxxDtor s=some s' ∧ Clean this s' := by
 rw [Deallocation.rootDealloc]
 split
 · case isTrue hfast =>
   simp only [Bool.and_eq_true,Bool.not_eq_true'] at hfast
   obtain ⟨⟨⟨⟨hn,hweak⟩,-⟩,-⟩,hside⟩:=hfast
   refine ⟨s,rfl,h.obj.counted hn hside,h.table,fun hp=>?_⟩
   have hflag:=h.flagged hp
   grind [isWeaklyReferenced]
 · exact h.clearDeallocating

end

end Life

/-- Whatever an object has been through, `clearDeallocating` and `rootDealloc` leave nothing of it
    in its side table, and a new object at its address starts with a retain count of one, neither
    deallocating nor weakly referenced; only a weak store that was told to crash keeps a history
    from coming that far. -/
theorem dealloc_leaves_no_residue (isTagged:Ptr → Bool) (info:Class L → ClassInfo)
 (this:NonNil) (htag:isTagged this=false) (s:State L) (hclean:Clean this s)
 (cls:Class L) (hvalid:ValidClass info cls) (nonpointer hasCxxDtor:Bool)
 (ops:List (Op info this)) :
 (∃s',run isTagged (born cls nonpointer hasCxxDtor s) ops=some s' ∧
  ∀dealloc : State L → Option (State L),(dealloc=clearDeallocating isTagged this ∨
    ∃dtor,dealloc=rootDealloc isTagged this dtor) →
   ∃s'',dealloc s'=some s'' ∧ Clean this s'' ∧ sidetablePresent this s''=false ∧
    ∀(cls':Class L) (nonpointer' hasCxxDtor':Bool),
     rootRetainCount (born cls' nonpointer' hasCxxDtor' s'').obj=1 ∧
     rootIsDeallocating (born cls' nonpointer' hasCxxDtor' s'').obj=false ∧
     isWeaklyReferenced (born cls' nonpointer' hasCxxDtor' s'').obj=false) ∨
 ∃earlier op later s₁ call,ops=earlier++op::later ∧
  run isTagged (born cls nonpointer hasCxxDtor s) earlier=some s₁ ∧
  op.call s₁=some call ∧ call.Crashes isTagged := by
 rcases (hclean.covered hvalid nonpointer hasCxxDtor).run htag ops with ⟨s',hrun,h⟩|hcrash
 · refine .inl ⟨s',hrun,fun dealloc hdealloc=>?_⟩
   have hcleared:∃s'',dealloc s'=some s'' ∧ Clean this s'':=by
    rcases hdealloc with rfl|⟨dtor,rfl⟩
    · exact h.clearDeallocating
    · exact h.rootDealloc dtor
   obtain ⟨s'',hrun',hclean'⟩:=hcleared
   exact ⟨s'',hrun',hclean',hclean'.not_present,hclean'.born_state⟩
 · exact .inr hcrash

theorem raw_object_leaves_no_residue :
 ∃s' s'',run (fun _=>false) (born 1 true false ⟨⟨Word.zero .arm64e,none⟩,
  ⟨WeakTable.emptyWeakTable,fun _=>0⟩⟩)
  ([.retain,.storeWeak ⟨512,by decide⟩ ⟨800,by decide⟩ .returnNilIfDeallocating .viable,
   .changeIsa 2 (by decide),.release,.release] : List (Op rawClass ⟨4096,by decide⟩)) =
   some s' ∧
  clearDeallocating (fun _=>false) ⟨4096,by decide⟩ s'=some s'' ∧
  sidetablePresent ⟨4096,by decide⟩ s''=false := by
 have hclean:Clean (⟨4096,by decide⟩ : NonNil) (⟨⟨Word.zero .arm64e,none⟩,
  ⟨WeakTable.emptyWeakTable,fun _=>0⟩⟩ : State .arm64e) := by
  refine ⟨rfl,⟨_,_,WeakTable.follows_empty⟩,?_⟩
  rintro ⟨e,he⟩
  cases he.1
 rcases dealloc_leaves_no_residue (fun _=>false) rawClass ⟨4096,by decide⟩ rfl _ hclean 1
  (by decide) true false
  [.retain,.storeWeak ⟨512,by decide⟩ ⟨800,by decide⟩ .returnNilIfDeallocating .viable,
   .changeIsa 2 (by decide),.release,.release] with
  ⟨s',hrun,hdealloc⟩ | ⟨earlier,op,later,s₁,call,hops,-,hcall,hcrash⟩
 · obtain ⟨s'',hclear,-,hgone,-⟩:=hdealloc _ (.inl rfl)
   exact ⟨s',s'',hrun,hclear,hgone⟩
 · have hmem:op∈earlier++op::later:=by simp
   rw [←hops] at hmem
   simp only [List.mem_cons,List.not_mem_nil,or_false] at hmem
   rcases hmem with rfl|rfl|rfl|rfl|rfl
   all_goals cases hcall
   exact absurd hcrash.2.2.1 (by decide)

end ObjcRuntime.Deallocation
