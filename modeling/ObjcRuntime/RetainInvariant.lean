import ObjcRuntime.RetainThreads

set_option autoImplicit false
namespace ObjcRuntime.RetainInvariant
open AtomicPrograms Isa SideTable RetainRelease LockBalance RetainThreads

variable {L:Layout} {T:Type} {info:Class L → ClassInfo}

def mustHold : Pc L → Bool
 | .retain true (.ret .deallocating)=>false
 | .retain true _=>true
 | .retain false p=>retainOwns p
 | .release p=>releaseOwns p
 | .change _ (.store locked _ _ _)=>locked
 | .change _ (.moveExtraRC _) | .change _ (.unlock _)=>true
 | _=>false

/-- Labels at which it may hold it: a `tryRetain` that returns nil has possibly given
    its caller's lock away. -/
def mayHold : Pc L → Bool
 | .retain true _=>true
 | p=>mustHold p

/-- No reference is left: the object is deallocating, in either representation. -/
def dead (m:Memory (Word L) Entry T) : Bool :=
 if m.word.nonpointer then m.word.isDeallocating else decide (2 ≤ flags m.table)

/-- The part of the count outside the side table: inline, or the bias of a raw isa. -/
def inlineCount (m:Memory (Word L) Entry T) : ℕ :=
 if m.word.nonpointer then m.word.extraRc.val else if flags m.table<2 then 1 else 0

@[simp] theorem dead_setHolder (m:Memory (Word L) Entry T) (h:Option T) :
 dead (m.setHolder h)=dead m := rfl
@[simp] theorem inlineCount_setHolder (m:Memory (Word L) Entry T) (h:Option T) :
 inlineCount (m.setHolder h)=inlineCount m := rfl

def Live (w:Word L) : Prop := w.nonpointer=true ∧ w.isDeallocating=false

def RetainOk (tryRetain:Bool) (m:Memory (Word L) Entry T) : RetainPc L → Prop
 | .enter variant=>variant≠.fastOrMsgSend
 | .lockOverflow oldisa=>tryRetain=false ∧ Live oldisa
 | .store variant locked oldisa=>Live oldisa ∧ (locked=true → variant=.full) ∧
  ((oldisa.addRC 1).2=true → locked=true)
 | .addExtraRC=>m.word.nonpointer=true
 | .unlock r=>(r=.retained ∧ tryRetain=false) ∨ (r=.deallocating ∧ dead m=true)
 | .tableRetainLock | .tableRetain=>tryRetain=false ∧ m.word.nonpointer=false
 | .tableRetainUnlock=>tryRetain=false
 | .tableTryRetain=>tryRetain=true ∧ m.word.nonpointer=false
 | .ret r=>r=.retained ∨ (r=.deallocating ∧ dead m=true)

/-- The lock holder knows that the isa is nonpointer and the side table in use. -/
def Borrowing (m:Memory (Word L) Entry T) : Prop :=
 m.word.nonpointer=true ∧ m.word.hasSidetableRc=true

def BorrowOk (m:Memory (Word L) Entry T) (b:Borrow) : Prop :=
 b.borrowed.toNat=L.rcHalf ∧ b.remaining.toNat=count m.table

def ReleaseOk (m:Memory (Word L) Entry T) : ReleasePc L → Prop
 | .enter variant=>variant≠.fastOrMsgSend
 | .store variant locked oldisa=>oldisa.nonpointer=true ∧ oldisa.extraRc.val≠0 ∧
  (locked=true → variant=.full)
 | .borrow oldisa=>Borrowing m ∧ oldisa.extraRc.val=0
 | .storeBorrow oldisa b=>Borrowing m ∧ BorrowOk m b ∧ oldisa.extraRc.val=0
 | .storeBorrowAgain oldisa b=>Borrowing m ∧ BorrowOk m b ∧
  oldisa.extraRc.val+(L.rcHalf-1) < 2^L.rcBits
 | .putBack b=>Borrowing m ∧ BorrowOk m b
 | .clearExtraRC r=>m.word.nonpointer=true ∧ m.word.hasSidetableRc=false ∧
  count m.table=0 ∧ r=.released
 | .tableReleaseLock | .tableRelease=>m.word.nonpointer=false
 | .unlock r | .tableReleaseUnlock r | .ret r=>r=.released ∨ r=.dealloc
 | _=>True

def Capable (info:Class L → ClassInfo) (c:Class L) : Prop :=
 (info c).isFuture=false ∧ (info c).canAllocNonpointer=true

/-- A prepared isa that differs from the old one in its class bits only. -/
def SameCount (oldisa newisa:Word L) : Prop :=
 newisa.nonpointer=oldisa.nonpointer ∧ (oldisa.nonpointer=true →
   newisa.extraRc=oldisa.extraRc ∧ newisa.hasSidetableRc=oldisa.hasSidetableRc)

def ChangeOk (info:Class L → ClassInfo) (newCls:Class L) (m:Memory (Word L) Entry T) :
 ChangePc L → Prop
 | .lock oldisa newisa=>oldisa.nonpointer=true ∧ newisa.nonpointer=false ∧ newisa.shiftcls=newCls
 | .store locked transcribe oldisa newisa=>newisa.shiftcls=newCls ∧
  (newisa.nonpointer=true → Capable info newCls) ∧
  (if transcribe then locked=true ∧ oldisa.nonpointer=true ∧ newisa.nonpointer=false
   else SameCount oldisa newisa)
 | .moveExtraRC oldisa=>m.word.nonpointer=false ∧ flags m.table=0 ∧ oldisa.extraRc.val≠0
 | _=>True

def Ok (info:Class L → ClassInfo) (m:Memory (Word L) Entry T) : Pc L → Prop
 | .retain tryRetain p=>RetainOk tryRetain m p
 | .weakLoadDone r=>r=.retained ∨ (r=.deallocating ∧ dead m=true)
 | .release p=>ReleaseOk m p
 | .change newCls p=>ValidClass info newCls ∧ ChangeOk info newCls m p
 | .weakLoadLock=>True

/-- The side table holds multiples of `RC_HALF` and no flags, and `has_sidetable_rc` says
    whether any count is there or on its way. -/
def Shape (m:Memory (Word L) Entry T) (pending:ℕ) : Prop :=
 m.word.nonpointer=true → flags m.table=0 ∧ L.rcHalf ∣ count m.table ∧
  (m.word.hasSidetableRc=true ↔ 0 < count m.table+pending)

structure Frame (t:T) (m m':Memory (Word L) Entry T) : Prop where
 holder : ∀u,u≠t → (m'.holder=some u ↔ m.holder=some u)
 locked : ∀u,u≠t → m.holder=some u → m'.table=m.table ∧ m'.word.nonpointer=m.word.nonpointer ∧
  (m.word.nonpointer=true → m'.word.hasSidetableRc=m.word.hasSidetableRc)
 raw : m.word.nonpointer=false → m'.word.nonpointer=false
 dead : dead m=true → dead m'=true

theorem Frame.refl (t:T) (m:Memory (Word L) Entry T) : Frame t m m :=
 ⟨fun _ _=>Iff.rfl,fun _ _ _=>⟨rfl,rfl,fun _=>rfl⟩,id,id⟩

theorem Frame.lock (t:T) (m:Memory (Word L) Entry T) (h:m.holder=none) :
 Frame t m (m.setHolder (some t)) := by
 refine ⟨fun u hu=>?_,fun _ _ _=>⟨rfl,rfl,fun _=>rfl⟩,id,id⟩
 simp [h,hu.symm,Memory.setHolder]

theorem Frame.word (t:T) (m:Memory (Word L) Entry T) (w:Word L) (hn:w.nonpointer=m.word.nonpointer)
 (hs:m.word.nonpointer=true → w.hasSidetableRc=m.word.hasSidetableRc)
 (hd:RetainInvariant.dead m=true → RetainInvariant.dead (m.setWord w)=true) :
 Frame t m (m.setWord w) :=
 ⟨fun _ _=>Iff.rfl,fun _ _ _=>⟨rfl,hn,hs⟩,fun h=>hn.trans h,hd⟩

theorem Frame.held (t:T) (m m':Memory (Word L) Entry T) (h:m.holder=some t)
 (h':m'.holder=some t ∨ m'.holder=none)
 (hr:m.word.nonpointer=false → m'.word.nonpointer=false)
 (hd:RetainInvariant.dead m=true → RetainInvariant.dead m'=true) : Frame t m m' := by
 refine ⟨fun u hu=>?_,fun u hu hm=>?_,hr,hd⟩
 · rcases h' with h'|h' <;> simp [h,h',hu.symm]
 · rw [h] at hm
   exact absurd (Option.some.inj hm).symm hu

variable {m:Memory (Word L) Entry T} {tryRetain locked:Bool} {q:Pc L} {newCls:Class L}

/-- A label's facts survive a step of another thread: they are under the lock, or about
    something that never changes back. -/
theorem Ok.stable {t u:T} {m':Memory (Word L) Entry T} {p:Pc L} (hf:Frame t m m')
 (hu:u≠t) (hm:mustHold p=true → m.holder=some u) (h:Ok info m p) :
 Ok info m' p := by
 have held:=fun hp=>hf.locked u hu (hm hp)
 cases p with
 | weakLoadLock=>exact h
 | weakLoadDone r=>exact h.imp id fun h=>⟨h.1,hf.dead h.2⟩
 | retain tryRetain p=>
  cases p with
  | enter variant | lockOverflow oldisa | store variant locked oldisa=>exact h
  | addExtraRC=>exact (held (by cases tryRetain <;> rfl)).2.1.trans h
  | unlock r | ret r=>exact h.imp id fun h=>⟨h.1,hf.dead h.2⟩
  | tableRetainLock | tableRetain | tableTryRetain=>exact ⟨h.1,hf.raw h.2⟩
  | tableRetainUnlock=>exact h
 | release p=>
  have borrowing:releaseOwns p=true → Borrowing m → Borrowing m':=fun hp hb =>
   ⟨(held hp).2.1.trans hb.1,((held hp).2.2 hb.1).trans hb.2⟩
  have borrowOk:∀b,releaseOwns p=true → BorrowOk m b → BorrowOk m' b:=fun b hp hb =>
   ⟨hb.1,hb.2.trans (by rw [(held hp).1])⟩
  cases p with
  | borrow oldisa=>exact ⟨borrowing rfl h.1,h.2⟩
  | storeBorrow oldisa b | storeBorrowAgain oldisa b=>
   exact ⟨borrowing rfl h.1,borrowOk b rfl h.2.1,h.2.2⟩
  | putBack b=>exact ⟨borrowing rfl h.1,borrowOk b rfl h.2⟩
  | clearExtraRC r=>
   obtain ⟨ht,hn,hs⟩:=held rfl
   exact ⟨hn.trans h.1,(hs h.1).trans h.2.1,by rw [ht]; exact h.2.2.1,h.2.2.2⟩
  | tableReleaseLock | tableRelease=>exact hf.raw h
  | _=>exact h
 | change newCls p=>
  refine ⟨h.1,?_⟩
  cases p with
  | moveExtraRC oldisa=>
   obtain ⟨ht,hn,_⟩:=held rfl
   exact ⟨hn.trans h.2.1,by rw [ht]; exact h.2.2.1,h.2.2.2⟩
  | _=>exact h.2

variable [DecidableEq T] [Fintype T]

structure Inv (info:Class L → ClassInfo) (c:Config L T) : Prop where
 valid : ValidClass info c.mem.word.shiftcls
 ok : ∀t p,(c.threads t).pc=some p → Ok info c.mem p
 must : ∀t p,(c.threads t).pc=some p → mustHold p=true → c.mem.holder=some t
 may : ∀t,c.mem.holder=some t → ∃p,(c.threads t).pc=some p ∧ mayHold p=true
 shape : Shape c.mem c.pending
 count : c.refs=SideTable.count c.mem.table+c.pending+inlineCount c.mem
 dealloc : c.deallocs+c.dying=(dead c.mem).toNat
 ledger : 1+c.retains=c.releases+c.booked
 bounded : c.Bounded

theorem mustHold_of_pending (p:Pc L) (h:p.pending≠0) : mustHold p=true := by
 cases p with
 | weakLoadLock | weakLoadDone r=>exact absurd rfl h
 | retain tryRetain p=>
  cases p with
  | addExtraRC=>cases tryRetain <;> rfl
  | _=>exact absurd rfl h
 | release p=>
  cases p with
  | storeBorrow oldisa b | storeBorrowAgain oldisa b | putBack b=>rfl
  | _=>exact absurd rfl h
 | change newCls p=>
  cases p with
  | moveExtraRC oldisa=>rfl
  | _=>exact absurd rfl h

structure Quiet (p q:Pc L) : Prop where
 pending : q.pending=p.pending
 credit : q.credit=p.credit
 dying : q.dying=p.dying
 releasing : q.releasing=p.releasing

section Moves
variable {c:Config L T} {t:T} {p:Pc L}

theorem sum_of_put (f:Pc L → ℕ) (hp:(c.threads t).pc=some p) (x:Thread L) :
 ∑ u,((c.put t x).threads u).of f+f p = ∑ u,(c.threads u).of f+x.of f := by
 have h:=sum_update c.threads t x (Thread.of f)
 rw [show (c.threads t).of f=f p by simp [Thread.of,hp]] at h
 exact h

abbrev goTo (c:Config L T) (t:T) (q:Pc L) (m:Memory (Word L) Entry T) : Config L T :=
 {c.put t ⟨some q,(c.threads t).owned⟩ with mem:=m}

def Keeps (info:Class L → ClassInfo) (c:Config L T) (t:T) (q:Pc L)
 (m:Memory (Word L) Entry T) : Prop :=
 (goTo c t q m).Bounded → Inv info (goTo c t q m)

variable (hI:Inv info c)
include hI

omit [DecidableEq T] in
theorem Inv.other_pending {u:T} (hu:c.mem.holder≠some u) : (c.threads u).of Pc.pending=0 := by
 unfold Thread.of
 cases hq : (c.threads u).pc with
 | none=>rfl
 | some q=>
  by_contra hne
  exact hu (hI.must u q hq (mustHold_of_pending q hne))

omit [DecidableEq T] in
theorem Inv.count_lt : SideTable.count c.mem.table < saturation := by
 have h1:=hI.count
 have h2:c.refs < saturation:=hI.bounded
 omega

variable (hp:(c.threads t).pc=some p)
include hp

omit [DecidableEq T] in
theorem Inv.pending_holder (hh:c.mem.holder=some t) : c.pending=p.pending := by
 have hz:∀u∈Finset.univ,u≠t → (c.threads u).of Pc.pending=0:=fun u _ hu =>
  hI.other_pending fun h=>hu (Option.some.inj (h.symm.trans hh))
 rw [Config.pending,Finset.sum_eq_single_of_mem t (Finset.mem_univ t) hz,Thread.of,hp]
 rfl

omit [DecidableEq T] in
theorem Inv.mayHold_of_holder (hh:c.mem.holder=some t) : mayHold p=true := by grind [hI.may]

theorem Inv.move (q:Pc L) (m:Memory (Word L) Entry T)
 (valid:ValidClass info m.word.shiftcls) (ok:Ok info m q)
 (must:mustHold q=true → m.holder=some t) (may:m.holder=some t → mayHold q=true)
 (frame:Frame t c.mem m)
 (shape:∀pending,pending+p.pending=c.pending+q.pending → Shape m pending)
 (count:SideTable.count m.table+q.pending+inlineCount m+p.credit =
  SideTable.count c.mem.table+p.pending+inlineCount c.mem+q.credit)
 (dying:(dead c.mem).toNat+q.dying=(dead m).toNat+p.dying)
 (releasing:q.releasing=p.releasing) :
 Keeps info c t q m := by
 intro bounded
 have hpend:=sum_of_put Pc.pending hp ⟨some q,(c.threads t).owned⟩
 have hdy:=sum_of_put Pc.dying hp ⟨some q,(c.threads t).owned⟩
 have hrefs:=sum_update c.threads t ⟨some q,(c.threads t).owned⟩ Thread.refs
 have hbook:=sum_update c.threads t ⟨some q,(c.threads t).owned⟩
  (fun x=>x.owned+x.of Pc.releasing)
 simp only [Thread.refs,Thread.of,hp,Option.elim_some] at hpend hdy hrefs hbook
 have pcOf:∀u v,((c.put t ⟨some q,(c.threads t).owned⟩).threads u).pc=some v →
  (u=t ∧ v=q) ∨ (u≠t ∧ (c.threads u).pc=some v) := by
  intro u v hv
  by_cases hu : u=t
  · subst u
    simp only [Config.put,Function.update_self,Option.some.injEq] at hv
    exact .inl ⟨rfl,hv.symm⟩
  · simp only [Config.put,Function.update_of_ne hu] at hv
    exact .inr ⟨hu,hv⟩
 have hcount:=hI.count
 have hdealloc:=hI.dealloc
 have hledger:=hI.ledger
 constructor
 · exact valid
 · intro u v hv
   rcases pcOf u v hv with ⟨rfl,rfl⟩|⟨hu,hv⟩
   · exact ok
   · exact (hI.ok u v hv).stable frame hu (hI.must u v hv)
 · intro u v hv hm
   rcases pcOf u v hv with ⟨rfl,rfl⟩|⟨hu,hv⟩
   · exact must hm
   · exact (frame.holder u hu).mpr (hI.must u v hv hm)
 · intro u hu
   by_cases hut : u=t
   · subst u
     exact ⟨q,by simp [Config.put],may hu⟩
   · obtain ⟨v,hv,hm⟩:=hI.may u ((frame.holder u hut).mp hu)
     exact ⟨v,by simpa [Config.put,Function.update_of_ne hut] using hv,hm⟩
 · exact shape _ hpend
 · simp only [Config.refs,Config.pending,Config.put,Thread.refs,Thread.of] at hcount hpend ⊢
   omega
 · simp only [Config.dying,Config.put,Thread.of] at hdealloc hdy ⊢
   omega
 · simp only [Config.booked,Config.put,Thread.of] at hledger hbook ⊢
   omega
 · exact bounded

theorem Inv.rehold (q:Pc L) (h:Option T) (ok:Ok info (c.mem.setHolder h) q)
 (must:mustHold q=true → h=some t) (may:h=some t → mayHold q=true)
 (frame:Frame t c.mem (c.mem.setHolder h)) (quiet:Quiet p q) :
 Keeps info c t q (c.mem.setHolder h) := by
 obtain ⟨pending,credit,dying,releasing⟩:=quiet
 refine hI.move hp q _ hI.valid ok must may frame (fun x hx=>?_) ?_ ?_ releasing
 · obtain rfl : x=c.pending:=by omega
   exact hI.shape
 · rw [setHolder_table,inlineCount_setHolder]
   omega
 · rw [dead_setHolder]
   omega

theorem Inv.silent (q:Pc L) (ok:Ok info c.mem q) (must:mustHold q=true → mustHold p=true)
 (may:mayHold p=true → mayHold q=true) (quiet:Quiet p q) : Keeps info c t q c.mem :=
 hI.rehold hp q c.mem.holder ok (fun h=>hI.must t p hp (must h))
  (fun hh=>may (hI.mayHold_of_holder hp hh)) (.refl t c.mem) quiet

theorem Inv.lock (q:Pc L) (hh:c.mem.holder=none) (ok:Ok info (c.mem.setHolder (some t)) q)
 (may:mayHold q=true) (quiet:Quiet p q) : Keeps info c t q (c.mem.setHolder (some t)) :=
 hI.rehold hp q _ ok (fun _=>rfl) (fun _=>may) (.lock t c.mem hh) quiet

theorem Inv.unlock (q:Pc L) (hh:c.mem.holder=some t) (ok:Ok info (c.mem.setHolder none) q)
 (must:mustHold q=false) (quiet:Quiet p q) : Keeps info c t q (c.mem.setHolder none) :=
 hI.rehold hp q none ok (by simp [must]) nofun (.held t c.mem _ hh (.inr rfl) id id) quiet

theorem Inv.recount {w:Word L} (hw:∃n,w=c.mem.word.setExtraRc n)
 (hn:c.mem.word.nonpointer=true) (live:dead c.mem=false) (ok:Ok info (c.mem.setWord w) q)
 (must:mustHold q=true → mustHold p=true) (may:mayHold p=true → mayHold q=true)
 (pending:q.pending=p.pending)
 (count:w.extraRc.val+p.credit=c.mem.word.extraRc.val+q.credit)
 (dying:q.dying=w.isDeallocating.toNat+p.dying) (releasing:q.releasing=p.releasing) :
 Keeps info c t q (c.mem.setWord w) := by
 obtain ⟨n,rfl⟩:=hw
 refine hI.move hp q _ hI.valid ok (fun h=>hI.must t p hp (must h))
  (fun hh=>may (hI.mayHold_of_holder hp hh))
  (.word t c.mem _ rfl (fun _=>rfl) (by simp [live])) (fun x hx=>?_) ?_ ?_ releasing
 · obtain rfl : x=c.pending:=by omega
   exact hI.shape
 · simp only [inlineCount,setWord_word,setWord_table,setExtraRc_nonpointer,hn,if_true]
   omega
 · rw [live,dying,show dead (c.mem.setWord (c.mem.word.setExtraRc n))=_ from if_pos hn]
   exact Nat.zero_add _

theorem Inv.access (e:Entry) (hh:c.mem.holder=some t) (ok:Ok info (c.mem.setTable e) q)
 (may:mayHold q=true) (hd:dead c.mem=true → dead (c.mem.setTable e)=true)
 (shape:Shape (c.mem.setTable e) q.pending)
 (count:SideTable.count e+q.pending+inlineCount (c.mem.setTable e)+p.credit =
  SideTable.count c.mem.table+p.pending+inlineCount c.mem+q.credit)
 (dying:(dead c.mem).toNat+q.dying=(dead (c.mem.setTable e)).toNat+p.dying)
 (releasing:q.releasing=p.releasing) :
 Keeps info c t q (c.mem.setTable e) := by
 refine hI.move hp q _ hI.valid ok (fun _=>hh) (fun _=>may)
  (.held t c.mem _ hh (.inl hh) id hd) (fun x hx=>?_) count dying releasing
 have:=hI.pending_holder hp hh
 obtain rfl : x=q.pending:=by omega
 exact shape

section Accesses
variable {e:Entry} (hh:c.mem.holder=some t) (ok:Ok info (c.mem.setTable e) q)
 (may:mayHold q=true) (count:SideTable.count e+q.pending+p.credit =
  SideTable.count c.mem.table+p.pending+q.credit) (dying:q.dying=p.dying)
 (releasing:q.releasing=p.releasing)
include hh ok may count dying releasing

theorem Inv.access_nonpointer (hn:c.mem.word.nonpointer=true) (hf:flags e=0)
 (hdvd:L.rcHalf ∣ SideTable.count e)
 (hs:c.mem.word.hasSidetableRc=true ↔ 0 < SideTable.count e+q.pending) :
 Keeps info c t q (c.mem.setTable e) := by
 have hdead:dead (c.mem.setTable e)=dead c.mem:=by simp [dead,hn]
 refine hI.access hp e hh ok may hdead.trans (fun _=>⟨hf,hdvd,hs⟩) ?_
  (by rw [hdead,dying]) releasing
 simp only [inlineCount,setTable_word,hn,if_true]
 omega

theorem Inv.access_raw (hn:c.mem.word.nonpointer=false)
 (hf:flags e<2 ↔ flags c.mem.table<2) : Keeps info c t q (c.mem.setTable e) := by
 have hdead:dead (c.mem.setTable e)=dead c.mem:=by
  grind [dead,setTable_word,setTable_table]
 refine hI.access hp e hh ok may hdead.trans (fun h=>?_) ?_ (by rw [hdead,dying]) releasing
 · exact absurd (hn.symm.trans h) Bool.false_ne_true
 · simp only [inlineCount,setTable_word,setTable_table,hn,Bool.false_eq_true,↓reduceIte,hf]
   omega

end Accesses

end Moves

section Retain
variable {c:Config L T} {t:T}

omit [DecidableEq T] [Fintype T] in
theorem retainLoop_ok (tryRetain:Bool) (variant:RRVariant) (locked:Bool)
 (m:Memory (Word L) Entry T) (hl:locked=true → variant=.full) :
 RetainOk tryRetain m (retainLoop tryRetain variant locked m.word) := by
 have hdead:m.word.nonpointer=true → m.word.isDeallocating=true → dead m=true:=by
  intro hn hd
  simp [dead,hn,hd]
 unfold retainLoop
 cases hn : m.word.nonpointer with
 | false=>cases tryRetain <;> cases locked <;> exact ⟨rfl,hn⟩
 | true=>
  cases hd : m.word.isDeallocating with
  | true=>cases locked <;> exact .inr ⟨rfl,hdead hn hd⟩
  | false=>
   have live:Live m.word:=⟨hn,hd⟩
   simp only [Bool.not_true,Bool.false_eq_true,↓reduceIte]
   split_ifs with hc hv ht
   · exact RRVariant.noConfusion
   · exact ⟨by simpa using (Bool.and_eq_true_iff.mp ht).1,live⟩
   · exact ⟨live,fun _=>not_not.mp hv,fun _=>rfl⟩
   · exact ⟨live,hl,fun h=>absurd h hc⟩

theorem retainLoop_quiet (tryRetain:Bool) (variant:RRVariant) (locked:Bool) (w:Word L) :
 (Pc.retain tryRetain (retainLoop tryRetain variant locked w)).pending=0 ∧
  (Pc.retain tryRetain (retainLoop tryRetain variant locked w)).credit=0 := by
 unfold retainLoop
 split_ifs <;> exact ⟨rfl,rfl⟩

theorem retainNewisa_plain (w:Word L) (h:(w.addRC 1).2=false) :
 retainNewisa w=w.setExtraRc (w.extraRc.val+1) ∧
  (retainNewisa w).extraRc.val=w.extraRc.val+1 := by
 have hb:=L.rcHalf_bounds
 have hr:=L.rcRange
 rw [addRC_eq w 1 (by omega)] at h
 have hlt:w.extraRc.val+1<2^L.rcBits:=by simpa using h
 have he:retainNewisa w=w.setExtraRc (w.extraRc.val+1):=by grind [retainNewisa,addRC_eq]
 exact ⟨he,by rw [he,setExtraRc_val,Nat.mod_eq_of_lt hlt]⟩

theorem retainNewisa_carry (w:Word L) (h:(w.addRC 1).2=true) :
 retainNewisa w = {w.setExtraRc L.rcHalf with hasSidetableRc:=true} ∧
  (retainNewisa w).extraRc.val=L.rcHalf ∧ w.extraRc.val+1=2*L.rcHalf := by
 have hb:=L.rcHalf_bounds
 have hr:=L.rcRange
 have hw:=w.extraRc.isLt
 rw [addRC_eq w 1 (by omega)] at h
 have hge:2^L.rcBits ≤ w.extraRc.val+1:=by simpa using h
 have he:retainNewisa w = {w.setExtraRc L.rcHalf with hasSidetableRc:=true}:=by
  rw [retainNewisa,addRC_eq w 1 (by omega)]
  simp [hge,Word.setExtraRc]
 refine ⟨he,?_,by omega⟩
 rw [he]
 change L.rcHalf % 2^L.rcBits=L.rcHalf
 exact Nat.mod_eq_of_lt (by omega)

theorem Inv.retain_stored (hI:Inv info c) {variant:RRVariant}
 (hp:(c.threads t).pc=some (.retain tryRetain (.store variant locked c.mem.word)))
 (q:RetainPc L)
 (hq:q=if variant≠.full then .ret .retained
  else if (c.mem.word.addRC 1).2 then .addExtraRC
  else if !tryRetain && locked then .unlock .retained else .ret .retained) :
 Keeps info c t (.retain tryRetain q) (c.mem.setWord (retainNewisa c.mem.word)) := by
 obtain ⟨⟨hn,hlive⟩,hfull,hcarry⟩:=hI.ok t _ hp
 have hnotdead:dead c.mem=false:=by simp [dead,hn,hlive]
 cases hc : (c.mem.word.addRC 1).2 with
 | false=>
  obtain ⟨hnew,hval⟩:=retainNewisa_plain c.mem.word hc
  have hexit:q=if !tryRetain && locked then .unlock .retained else .ret .retained:=by
   rw [hq,hc]
   cases locked <;> simp_all
  have halive:0=(retainNewisa c.mem.word).isDeallocating.toNat+0:=by
   simp [Word.isDeallocating,hval]
  cases tryRetain with
  | true=>
   subst hexit
   exact hI.recount hp ⟨_,hnew⟩ hn hnotdead (.inl rfl) id (fun _=>rfl) rfl hval halive rfl
  | false=>
   subst hexit
   cases locked with
   | false=>
    exact hI.recount hp ⟨_,hnew⟩ hn hnotdead (.inl rfl) (by simp [mustHold,retainOwns])
     (by simp [mayHold,mustHold,retainOwns]) rfl hval halive rfl
   | true=>
    exact hI.recount hp ⟨_,hnew⟩ hn hnotdead (.inl ⟨rfl,rfl⟩) id id rfl hval halive rfl
 | true=>
  -- The overflow: half of the count leaves the isa and is in flight until `addExtraRC`.
  obtain ⟨hnew,hval,hmax⟩:=retainNewisa_carry c.mem.word hc
  have hlk:=hcarry hc
  obtain rfl : q=.addExtraRC:=by rw [hq,hc]; simp [hfull hlk]
  have hh:c.mem.holder=some t :=
   hI.must t _ hp (by cases tryRetain <;> simp [mustHold,retainOwns,hlk])
  have hn':(retainNewisa c.mem.word).nonpointer=true:=by rw [hnew]; exact hn
  have hs':(retainNewisa c.mem.word).hasSidetableRc=true:=by rw [hnew]
  have hb:=L.rcHalf_bounds
  have halive:dead (c.mem.setWord (retainNewisa c.mem.word))=false:=by
   simp [dead,hn',Word.isDeallocating,hs']
  obtain ⟨hf,hdvd,-⟩:=hI.shape hn
  refine hI.move hp _ _ ?_ hn' (fun _=>hh) (fun _=>by cases tryRetain <;> rfl)
   (.held t c.mem _ hh (.inl hh) (by simp [hn]) (by simp [hnotdead])) (fun x hx _=>?_) ?_ ?_ rfl
  · rw [setWord_word,hnew]
    exact hI.valid
  · change x+0=_+L.rcHalf at hx
    rw [setWord_table,setWord_word,hs']
    exact ⟨hf,hdvd,by simp; omega⟩
  · change _+L.rcHalf+inlineCount _+0=_+0+_+1
    simp only [inlineCount,setWord_word,setWord_table,hn,hn',if_true,hval]
    omega
  · rw [halive,hnotdead]
    rfl

theorem Inv.retain_addExtraRC (hI:Inv info c)
 (hp:(c.threads t).pc=some (.retain tryRetain .addExtraRC)) (q:RetainPc L)
 (hq:q=if !tryRetain then .unlock .retained else .ret .retained) (e:Entry)
 (he:e=(sidetableAddExtraRCNolock (BitVec.ofNat 64 L.rcHalf) c.mem.table).1) :
 Keeps info c t (.retain tryRetain q) (c.mem.setTable e) := by
 have hn:c.mem.word.nonpointer=true:=hI.ok t _ hp
 have hh:=hI.must t _ hp (by cases tryRetain <;> rfl)
 have hpend:c.pending=L.rcHalf:=hI.pending_holder hp hh
 obtain ⟨hf,hdvd,hsrc⟩:=hI.shape hn
 obtain ⟨hc',hf'⟩:=addExtraRC_spec L.rcHalf c.mem.table (rcHalf_lt L) hI.count_lt
 rw [←he] at hc' hf'
 subst hq
 cases tryRetain with
 | false=>
  refine hI.access_nonpointer hp hh (.inl ⟨rfl,rfl⟩) rfl ?_ rfl rfl hn (hf'.trans hf)
   (hc' ▸ hdvd.add dvd_rfl) (hsrc.trans ?_)
  · exact congrArg (· + 0+1) hc'
  · rw [hc',hpend]
    rfl
 | true=>
  refine hI.access_nonpointer hp hh (.inl rfl) rfl ?_ rfl rfl hn (hf'.trans hf)
   (hc' ▸ hdvd.add dvd_rfl) (hsrc.trans ?_)
  · exact congrArg (· + 0+1) hc'
  · rw [hc',hpend]
    rfl

theorem Inv.retain_step (hI:Inv info c) {p:RetainPc L}
 (hp:(c.threads t).pc=some (.retain tryRetain p))
 (hs:(code info (.retain tryRetain p)).Step t c.mem q m) :
 Keeps info c t q m := by
 have hok:=hI.ok t _ hp
 have hmust:=hI.must t _ hp
 -- Seeing another word changes nothing but the label.
 have reload:∀variant locked,retainOwns p=locked → mustHold (.retain true p)=true →
  (Pc.retain tryRetain p).pending=0 → (Pc.retain tryRetain p).credit=0 →
  (locked=true → variant=.full) →
  q=.retain tryRetain (retainLoop tryRetain variant locked c.mem.word) → m=c.mem →
  Keeps info c t q m := by
  rintro variant locked owns held hpend hcred hl rfl rfl
  obtain ⟨hpend',hcred'⟩:=retainLoop_quiet tryRetain variant locked c.mem.word
  have howns:=(retainLoop_owns variant locked c.mem.word hl).2.trans owns.symm
  refine hI.silent hp _ (retainLoop_ok tryRetain variant locked c.mem hl) ?_ ?_
   ⟨hpend'.trans hpend.symm,hcred'.trans hcred.symm,rfl,rfl⟩
  · cases tryRetain
    · exact fun h=>howns.symm.trans h
    · exact fun _=>held
  · cases tryRetain
    · exact fun h=>howns.trans h
    · exact fun _=>rfl
 cases p with
 | enter variant=>
  obtain ⟨hq,hm⟩:=hs
  have hmeta:=hI.valid.2
  have hv:¬ (variant=.fastOrMsgSend ∧ (info c.mem.word.shiftcls).hasCustomRR=true) :=
   fun h=>hok h.1
  simp only [hv,hmeta,Bool.and_false,Bool.false_eq_true,↓reduceIte] at hq
  exact reload variant false rfl rfl rfl rfl nofun hq hm
 | lockOverflow oldisa=>
  obtain ⟨hh,rfl,rfl⟩:=hs
  obtain ⟨rfl,hlive⟩:=hok
  exact hI.lock hp _ hh ⟨hlive,fun _=>rfl,fun _=>rfl⟩ rfl ⟨rfl,rfl,rfl,rfl⟩
 | store variant locked oldisa=>
  rcases hs with ⟨rfl,rfl,rfl⟩|⟨hq,hm⟩
  · exact hI.retain_stored hp _ rfl
  · exact reload variant locked rfl rfl rfl rfl hok.2.1 hq hm
 | addExtraRC=>
  obtain ⟨rfl,rfl⟩:=hs
  exact hI.retain_addExtraRC hp _ rfl _ rfl
 | unlock r=>
  obtain ⟨hh,rfl,rfl⟩:=hs
  rcases hok with ⟨rfl,rfl⟩|⟨rfl,hd⟩
  · exact hI.unlock hp _ hh (.inl rfl) rfl ⟨rfl,rfl,rfl,rfl⟩
  · refine hI.unlock hp _ hh (.inr ⟨rfl,hd⟩) ?_ ⟨rfl,rfl,rfl,rfl⟩
    cases tryRetain <;> rfl
 | tableRetainLock=>
  obtain ⟨hh,rfl,rfl⟩:=hs
  obtain ⟨rfl,hn⟩:=hok
  exact hI.lock hp _ hh ⟨rfl,hn⟩ rfl ⟨rfl,rfl,rfl,rfl⟩
 | tableRetain=>
  obtain ⟨rfl,rfl⟩:=hs
  obtain ⟨rfl,hn⟩:=hok
  obtain ⟨hc',hf'⟩:=retain_spec c.mem.table hI.count_lt
  exact hI.access_raw hp (hmust rfl) rfl rfl hc' rfl rfl hn (by rw [hf'])
 | tableRetainUnlock=>
  obtain ⟨hh,rfl,rfl⟩:=hs
  obtain rfl : tryRetain=false:=hok
  exact hI.unlock hp _ hh (.inl rfl) rfl ⟨rfl,rfl,rfl,rfl⟩
 | tableTryRetain=>
  obtain ⟨rfl,rfl⟩:=hs
  obtain ⟨rfl,hn⟩:=hok
  by_cases hd : 2 ≤ flags c.mem.table
  · have hsame:c.mem.setTable c.mem.table=c.mem:=rfl
    rw [tryRetain_deallocating c.mem.table hd,hsame]
    have hdead:dead c.mem=true:=by simp [dead,hn,hd]
    exact hI.silent hp _ (.inr ⟨rfl,hdead⟩) nofun (fun _=>rfl)
     ⟨rfl,rfl,rfl,rfl⟩
  · obtain ⟨hc',hf',hr⟩:=tryRetain_spec c.mem.table (by omega) hI.count_lt
    rw [hr]
    exact hI.access_raw hp (hmust rfl) (.inl rfl) rfl hc' rfl rfl hn (by rw [hf'])
 | ret r=>
  cases tryRetain with
  | false=>exact hs.elim
  | true=>
   obtain ⟨hh,rfl,rfl⟩:=hs
   refine hI.unlock hp _ hh hok rfl ⟨rfl,?_,rfl,rfl⟩
   cases r <;> rfl

end Retain

section Release
variable {c:Config L T} {t:T}

theorem subRC_val (w:Word L) (h:w.extraRc.val≠0) :
 w.subRC.1.extraRc.val=w.extraRc.val-1 ∧ w.subRC.1.nonpointer=w.nonpointer ∧
  w.subRC.1.hasSidetableRc=w.hasSidetableRc ∧ w.subRC.1.shiftcls=w.shiftcls := by
 have hw:=w.extraRc.isLt
 rw [subRC_eq]
 refine ⟨?_,rfl,rfl,rfl⟩
 rw [setExtraRc_val,show w.extraRc.val+2^L.rcBits-1=w.extraRc.val-1+2^L.rcBits by omega,
  Nat.add_mod_right]
 exact Nat.mod_eq_of_lt (by omega)

omit [DecidableEq T] in
theorem refs_pos_of_credit {p:Pc L} (hp:(c.threads t).pc=some p) (hc:0 < p.credit) :
 0 < c.refs := by
 have h:(c.threads t).refs ≤ c.refs :=
  Finset.single_le_sum (f:=fun u=>(c.threads u).refs) (fun _ _=>Nat.zero_le _)
   (Finset.mem_univ t)
 grind [Thread.refs,Thread.of]

omit [DecidableEq T] in
theorem Inv.refs_of_dead (hI:Inv info c) (hn:c.mem.word.nonpointer=true) :
 c.mem.word.isDeallocating=true ↔ c.refs=0 := by
 obtain ⟨-,-,hs⟩:=hI.shape hn
 grind [hI.count,isDeallocating_iff,inlineCount]

omit [DecidableEq T] in
theorem Inv.releaseLoop_ok (hI:Inv info c) (variant:RRVariant) (locked:Bool)
 (hl:locked=true → variant=.full) (halive:0 < c.refs) :
 ReleaseOk c.mem (releaseLoop variant locked c.mem.word) ∧
  releasePending (releaseLoop variant locked c.mem.word)=1 ∧
  (Pc.release (releaseLoop variant locked c.mem.word)).pending=0 ∧
  (Pc.release (releaseLoop variant locked c.mem.word)).dying=0 := by
 unfold releaseLoop
 cases hn : c.mem.word.nonpointer with
 | false=>cases locked <;> exact ⟨hn,rfl,rfl,rfl⟩
 | true=>
  have hlive:c.mem.word.isDeallocating=false:=by
   rw [←Bool.not_eq_true,hI.refs_of_dead hn]
   omega
  simp only [hlive,Bool.not_true,Bool.false_eq_true,↓reduceIte]
  rw [subRC_eq]
  by_cases he : c.mem.word.extraRc.val=0
  · have hs:c.mem.word.hasSidetableRc=true:=by
     by_contra hs
     have:=(isDeallocating_iff c.mem.word).mpr ⟨he,by simpa using hs⟩
     rw [hlive] at this
     cases this
    simp only [he,decide_true,↓reduceIte,releaseUnderflow,hs]
    split_ifs with hv hk
    · exact ⟨RRVariant.noConfusion,rfl,rfl,rfl⟩
    · exact ⟨trivial,rfl,rfl,rfl⟩
    · exact ⟨⟨⟨hn,hs⟩,he⟩,rfl,rfl,rfl⟩
  · simp only [he,decide_false,Bool.false_eq_true,↓reduceIte]
    exact ⟨⟨hn,he,hl⟩,rfl,rfl,rfl⟩

theorem releaseExit_quiet (locked:Bool) (r:ReleaseResult) :
 (Pc.release (releaseExit locked r:ReleasePc L)).pending=0 ∧
  (Pc.release (releaseExit locked r:ReleasePc L)).credit=0 ∧
  (Pc.release (releaseExit locked r:ReleasePc L)).dying=(decide (r=.dealloc)).toNat := by
 cases locked <;> cases r <;> exact ⟨rfl,rfl,rfl⟩

theorem Inv.release_stored (hI:Inv info c) {variant:RRVariant}
 (hp:(c.threads t).pc=some (.release (.store variant locked c.mem.word)))
 (q:ReleasePc L)
 (hq:q=if c.mem.word.subRC.1.isDeallocating then releaseExit locked .dealloc
  else if variant≠.full then .ret .released else releaseExit locked .released) :
 Keeps info c t (.release q) (c.mem.setWord c.mem.word.subRC.1) := by
 obtain ⟨hn,he,hfull⟩:=hI.ok t _ hp
 obtain ⟨hval,-⟩:=subRC_val c.mem.word he
 have hnotdead:dead c.mem=false:=by simp [dead,hn,Word.isDeallocating,he]
 -- Without the lock the variant may be fast; either way the exit matches the lock.
 have hq':q=releaseExit locked (if c.mem.word.subRC.1.isDeallocating then .dealloc
  else .released) := by
  rw [hq]
  split_ifs with h1 h2
  · rfl
  · cases locked with
    | false=>rfl
    | true=>exact absurd (hfull rfl) h2
  · rfl
 obtain ⟨hpend,hcred,hdy⟩:=releaseExit_quiet (L:=L) locked
  (if c.mem.word.subRC.1.isDeallocating then .dealloc else .released)
 have howns:=(releaseExit_owns (L:=L) locked
  (if c.mem.word.subRC.1.isDeallocating then .dealloc else .released)).2
 rw [←hq'] at hpend hcred hdy howns
 refine hI.recount hp ⟨_,congrArg Prod.fst (subRC_eq _)⟩ hn hnotdead ?_
  (fun h=>howns.symm.trans h) (fun h=>howns.trans h) hpend ?_ ?_ rfl
 · rw [hq']
   cases locked <;> cases c.mem.word.subRC.1.isDeallocating
   · exact .inl rfl
   · exact .inr rfl
   · exact .inl rfl
   · exact .inr rfl
 · rw [hcred,hval]
   change _+1=_+0
   omega
 · rw [hdy]
   cases c.mem.word.subRC.1.isDeallocating <;> rfl

theorem Inv.borrow_stored (hI:Inv info c) {p:ReleasePc L} {b:Borrow} (w:Word L)
 (hp:(c.threads t).pc=some (.release p)) (hown:releaseOwns p=true)
 (hpend:(Pc.release p).pending=L.rcHalf) (hcred:releasePending p=1)
 (hdy:(Pc.release p).dying=0)
 (hb:Borrowing c.mem) (hok:BorrowOk c.mem b)
 (hn:w.nonpointer=true) (hs:w.hasSidetableRc = !emptySideTable b)
 (hval:w.extraRc.val=c.mem.word.extraRc.val+(L.rcHalf-1))
 (hcls:w.shiftcls=c.mem.word.shiftcls) :
 Keeps info c t (.release (borrowStored b .released)) (c.mem.setWord w) := by
 obtain ⟨hnp,hsrc⟩:=hb
 have hh:=hI.must t _ hp hown
 obtain ⟨hf,hdvd,hiff⟩:=hI.shape hnp
 have hH:=L.rcHalf_bounds
 have hempty:emptySideTable b=decide (SideTable.count c.mem.table=0):=by
  rw [emptySideTable,←hok.2,Bool.eq_iff_iff,beq_iff_eq,decide_eq_true_iff]
  constructor
  · intro h
    rw [h]
    rfl
  · exact fun h=>BitVec.eq_of_toNat_eq h
 have hnotdead:dead c.mem=false:=by simp [dead,hnp,Word.isDeallocating,hsrc]
 have halive:dead (c.mem.setWord w)=false:=by
  have : w.extraRc.val≠0:=by omega
  simp [dead,hn,Word.isDeallocating,this]
 have hq:(Pc.release (borrowStored b .released) : Pc L).pending=0 ∧
  (Pc.release (borrowStored b .released) : Pc L).credit=0 ∧
  (Pc.release (borrowStored b .released) : Pc L).dying=0 := by
  unfold borrowStored
  split <;> exact ⟨rfl,rfl,rfl⟩
 refine hI.move hp _ _ ?_ ?_ (fun _=>hh) (fun _=>(borrowStored_owns b _).2)
  (.held t c.mem _ hh (.inl hh) (by simp [hnp]) (by simp [hnotdead])) (fun x hx _=>?_) ?_ ?_ rfl
 · rw [setWord_word,hcls]
   exact hI.valid
 · unfold borrowStored
   split_ifs with h
   · rw [hempty] at h
     exact ⟨hn,by rw [setWord_word,hs,hempty,h]; rfl,by simpa using h,rfl⟩
   · exact .inl rfl
 · rw [hq.1,hI.pending_holder hp hh] at hx
   rw [setWord_table,setWord_word,hs,hempty]
   refine ⟨hf,hdvd,?_⟩
   simp
   omega
 · rw [hq.1,hq.2.1,hpend]
   change _+0+inlineCount _+releasePending p=_+_+_+0
   simp only [inlineCount,setWord_word,setWord_table,hn,hnp,if_true,hval,hcred]
   omega
 · rw [hnotdead,halive,hq.2.2,hdy]

omit [DecidableEq T] in
/-- "Side table is empty after all" never happens. -/
theorem Inv.release_borrow (hI:Inv info c) {oldisa:Word L}
 (hp:(c.threads t).pc=some (.release (.borrow oldisa))) :
 L.rcHalf ≤ SideTable.count c.mem.table := by
 obtain ⟨⟨hn,hs⟩,-⟩:=hI.ok t _ hp
 have hh:=hI.must t _ hp rfl
 obtain ⟨-,hdvd,hiff⟩:=hI.shape hn
 have hpend:c.pending=0:=hI.pending_holder hp hh
 exact Nat.le_of_dvd (by have := hiff.mp hs; omega) hdvd

theorem Inv.release_step (hI:Inv info c) {p:ReleasePc L}
 (hp:(c.threads t).pc=some (.release p)) (hs:(code info (.release p)).Step t c.mem q m) :
 Keeps info c t q m := by
 have hok:=hI.ok t _ hp
 have hmust:=hI.must t _ hp
 have hH:=L.rcHalf_bounds
 have hR:=L.rcRange
 have again:∀variant locked,releasePending p=1 → (Pc.release p).pending=0 →
  (Pc.release p).dying=0 → releaseOwns p=locked → (locked=true → variant=.full) →
  q=.release (releaseLoop variant locked c.mem.word) → m=c.mem →
  Keeps info c t q m := by
  rintro variant locked hcred hpend hdy hown hl rfl rfl
  have halive:=refs_pos_of_credit hp (show 0 < (Pc.release p).credit by
   change 0 < releasePending p; omega)
  obtain ⟨ok,hc',hp',hd'⟩:=hI.releaseLoop_ok variant locked hl halive
  have howns:=(releaseLoop_owns variant locked c.mem.word hl).2.trans hown.symm
  exact hI.silent hp _ ok (fun h=>howns.symm.trans h) (fun h=>howns.trans h)
   ⟨hp'.trans hpend.symm,hc'.trans hcred.symm,hd'.trans hdy.symm,rfl⟩
 cases p with
 | enter variant=>
  obtain ⟨hq,hm⟩:=hs
  have hmeta:=hI.valid.2
  have hv:¬ (variant=.fastOrMsgSend ∧ (info c.mem.word.shiftcls).hasCustomRR=true) :=
   fun h=>hok h.1
  simp only [hv,hmeta,Bool.and_false,Bool.false_eq_true,↓reduceIte] at hq
  exact again variant false rfl rfl rfl rfl (by simp) hq hm
 | reload=>
  obtain ⟨hq,hm⟩:=hs
  exact again .full true rfl rfl rfl rfl (fun _=>rfl) hq hm
 | store variant locked oldisa=>
  rcases hs with ⟨rfl,rfl,rfl⟩|⟨hq,hm⟩
  · exact hI.release_stored hp _ rfl
  · exact again variant locked rfl rfl rfl rfl hok.2.2 hq hm
 | lockUnderflow=>
  obtain ⟨hh,rfl,rfl⟩:=hs
  exact hI.lock hp _ hh trivial rfl ⟨rfl,rfl,rfl,rfl⟩
 | borrow oldisa=>
  obtain ⟨rfl,rfl⟩:=hs
  have hle:=hI.release_borrow hp
  obtain ⟨⟨hn,hsrc⟩,he⟩:=hok
  obtain ⟨hf,hdvd,hiff⟩:=hI.shape hn
  obtain ⟨hc',hf',hb⟩:=subExtraRC_spec L.rcHalf c.mem.table (by omega) hle
  have hlt:=SideTable.count_lt c.mem.table
  have hborrowed:(BitVec.ofNat 64 L.rcHalf).toNat=L.rcHalf:=by
   rw [BitVec.toNat_ofNat]
   omega
  simp only [hb,hborrowed,show L.rcHalf > 0 by omega,↓reduceIte]
  refine hI.access_nonpointer hp (hmust rfl) ⟨⟨hn,hsrc⟩,⟨hborrowed,?_⟩,he⟩ rfl ?_ rfl rfl hn
   (hf'.trans hf) (hc' ▸ Nat.dvd_sub hdvd dvd_rfl) (iff_of_true hsrc ?_)
  · rw [setTable_table,hc',BitVec.toNat_ofNat]
    omega
  · change _+L.rcHalf+1=_+0+1
    omega
  · change 0<_+L.rcHalf
    omega
 | storeBorrow oldisa b=>
  obtain ⟨hb,hbo,he⟩:=hok
  rcases hs with ⟨rfl,rfl,rfl⟩|⟨rfl,rfl⟩
  · refine hI.borrow_stored (borrowNewisa c.mem.word b) hp rfl rfl rfl rfl hb hbo hb.1 rfl ?_ rfl
    change (b.borrowed.toNat-1) % 2^L.rcBits=_
    rw [hbo.1,he,Nat.mod_eq_of_lt (by omega),Nat.zero_add]
  · have hadd:=addRC_eq c.mem.word (b.borrowed.toNat-1) (by rw [hbo.1]; omega)
    dsimp only
    split_ifs with h
    · refine hI.silent hp _ ⟨hb,hbo,?_⟩ id id ⟨rfl,rfl,rfl,rfl⟩
      rw [hadd,hbo.1] at h
      simp at h
      exact h.2
    · exact hI.silent hp _ ⟨hb,hbo⟩ id id ⟨rfl,rfl,rfl,rfl⟩
 | storeBorrowAgain oldisa b=>
  obtain ⟨hb,hbo,he⟩:=hok
  rcases hs with ⟨rfl,rfl,rfl⟩|⟨rfl,rfl⟩
  · have hadd:=addRC_eq c.mem.word (b.borrowed.toNat-1) (by rw [hbo.1]; omega)
    have hval:(borrowAgainNewisa c.mem.word b).extraRc.val =
     c.mem.word.extraRc.val+(L.rcHalf-1) := by
     rw [hbo.1] at hadd
     simp only [borrowAgainNewisa,hbo.1,hadd,setExtraRc_val]
     exact Nat.mod_eq_of_lt he
    have hlive:(borrowAgainNewisa c.mem.word b).isDeallocating=false:=by
     rw [←Bool.not_eq_true,isDeallocating_iff]
     omega
    simp only [hlive,Bool.false_eq_true,↓reduceIte]
    refine hI.borrow_stored _ hp rfl rfl rfl rfl hb hbo ?_ rfl hval ?_
    · simp only [borrowAgainNewisa,hadd,setExtraRc_nonpointer]
      exact hb.1
    · simp only [borrowAgainNewisa,hadd,Word.setExtraRc]
  · exact hI.silent hp _ ⟨hb,hbo⟩ id id ⟨rfl,rfl,rfl,rfl⟩
 | putBack b=>
  obtain ⟨rfl,rfl⟩:=hs
  obtain ⟨⟨hn,hsrc⟩,hbo⟩:=hok
  obtain ⟨hf,hdvd,hiff⟩:=hI.shape hn
  have hpend:c.pending=L.rcHalf:=hI.pending_holder hp (hmust rfl)
  have hborrowed:b.borrowed=BitVec.ofNat 64 L.rcHalf:=by
   apply BitVec.eq_of_toNat_eq
   rw [hbo.1,BitVec.toNat_ofNat]
   omega
  obtain ⟨hc',hf'⟩:=addExtraRC_spec L.rcHalf c.mem.table (rcHalf_lt L) hI.count_lt
  rw [hborrowed]
  exact hI.access_nonpointer hp (hmust rfl) trivial rfl (congrArg (· + 0+1) hc') rfl rfl hn
   (hf'.trans hf) (hc' ▸ hdvd.add dvd_rfl) (iff_of_true hsrc (by omega))
 | clearExtraRC r=>
  obtain ⟨rfl,rfl⟩:=hs
  obtain ⟨hn,hsrc,hz,rfl⟩:=hok
  obtain ⟨hclear,hflags⟩:=clearExtraRC_spec c.mem.table
  exact hI.access_nonpointer hp (hmust rfl) (.inl rfl) rfl (by rw [hclear,hz]; rfl) rfl rfl hn
   hflags (hclear ▸ dvd_zero _) (by rw [hsrc,hclear]; simp [Pc.pending])
 | unlock r | tableReleaseUnlock r=>
  obtain ⟨hh,rfl,rfl⟩:=hs
  refine hI.unlock hp _ hh hok rfl ⟨rfl,rfl,?_,rfl⟩
  cases r <;> rfl
 | tableReleaseLock=>
  obtain ⟨hh,rfl,rfl⟩:=hs
  exact hI.lock hp _ hh hok rfl ⟨rfl,rfl,rfl,rfl⟩
 | tableRelease=>
  obtain ⟨rfl,rfl⟩:=hs
  have hn:c.mem.word.nonpointer=false:=hok
  have hpend:c.pending=0:=hI.pending_holder hp (hmust rfl)
  have halive:=refs_pos_of_credit hp (show 0<1 by omega)
  have hcount:=hI.count
  simp only [inlineCount,hn,Bool.false_eq_true,↓reduceIte] at hcount
  have hlt:=hI.count_lt
  by_cases hz : SideTable.count c.mem.table=0
  · have hf:flags c.mem.table<2:=by
     by_contra hf
     rw [if_neg hf] at hcount
     omega
    obtain ⟨hc',hf',hr⟩:=release_last c.mem.table hz hf
    simp only [hr,↓reduceIte]
    have hd:dead c.mem=false:=by simp [dead,hn]; omega
    have hd':dead (c.mem.setTable (sidetableRelease c.mem.table).1)=true:=by
     simp [dead,hn,hf']
    refine hI.access hp _ (hmust rfl) (.inr rfl) rfl (fun _=>hd')
     (fun h=>absurd (hn.symm.trans h) Bool.false_ne_true) ?_ ?_ rfl
    · rw [hc',hz]
      change 0+0+inlineCount _+1=0+0+_+0
      simp [inlineCount,hn,hf',hf]
    · rw [hd,hd']
      rfl
  · obtain ⟨hc',hf',hr⟩:=release_spec c.mem.table (by omega) hlt
    simp only [hr,Bool.false_eq_true,↓reduceIte]
    refine hI.access_raw hp (hmust rfl) (.inl rfl) rfl ?_ rfl rfl hn (by rw [hf'])
    change _+0+1=_+0+0
    omega
 | ret r=>exact hs.elim

end Release

section Change
variable {c:Config L T} {t:T}

theorem bits_ne_zero (w:Word L) (h:w.shiftcls.val≠0) : w.bits≠0 := by
 intro hz
 have hb:=bits_toNat w
 rw [hz,show BitVec.toNat (0 : Size)=0 from rfl] at hb
 cases L <;> simp only [Word.lowBits] at hb <;> omega

def changeOwns : ChangePc L → Bool
 | .store locked _ _ _=>locked
 | .moveExtraRC _ | .unlock _=>true
 | _=>false

omit [DecidableEq T] [Fintype T] in
/-- One pass of the loop over the current word, when `newisa` is not a nonpointer isa left
    over from a pass that saw a nonpointer word. -/
theorem changeLoop_ok (newCls:Class L) (locked:Bool) (newisa:Word L)
 (m:Memory (Word L) Entry T) (hvalid:ValidClass info m.word.shiftcls)
 (hcap:newisa.nonpointer=true → Capable info newCls)
 (hstale:newisa.nonpointer=true → m.word.nonpointer=true) :
 ChangeOk info newCls m (changeLoop info newCls locked newisa m.word) ∧
  changeOwns (changeLoop info newCls locked newisa m.word)=locked ∧
  (Pc.change newCls (changeLoop info newCls locked newisa m.word)).pending=0 := by
 have hbits:=bits_ne_zero m.word hvalid.1
 unfold changeLoop
 split_ifs with h1 h2 h3
 · have hn:m.word.nonpointer=true:=by simp_all
   simp only [changeNonpointer,hbits,↓reduceIte]
   exact ⟨⟨rfl,fun _=>h1.2,rfl,fun _=>⟨rfl,rfl⟩⟩,rfl,rfl⟩
 · have hraw:newisa.nonpointer=false:=by
    rw [←Bool.not_eq_true]
    exact fun h=>h1 ⟨.inr h2,hcap h⟩
   cases locked with
   | true=>simp at h3
   | false=>exact ⟨⟨h2,hraw,rfl⟩,rfl,rfl⟩
 · have hraw:newisa.nonpointer=false:=by
    rw [←Bool.not_eq_true]
    exact fun h=>h1 ⟨.inr h2,hcap h⟩
   cases locked with
   | true=>exact ⟨⟨rfl,fun h=>absurd (hraw.symm.trans h) Bool.false_ne_true,rfl,h2,hraw⟩,rfl,rfl⟩
   | false=>simp at h3
 · have hraw:newisa.nonpointer=false:=by simp_all
   exact ⟨⟨rfl,fun h=>absurd (hraw.symm.trans h) Bool.false_ne_true,
    hraw.trans (Bool.eq_false_iff.mpr h2).symm,fun h=>absurd h h2⟩,rfl,rfl⟩

theorem mustHold_change (newCls:Class L) (p:ChangePc L) :
 mustHold (.change newCls p)=changeOwns p := by
 cases p <;> rfl

theorem Inv.change_publish (hI:Inv info c) {newisa:Word L}
 (hp:(c.threads t).pc=some (.change newCls (.store locked true c.mem.word newisa)))
 (hextra:c.mem.word.extraRc.val≠0) :
 Keeps info c t (.change newCls (.moveExtraRC c.mem.word)) (c.mem.setWord newisa) := by
 obtain ⟨hv,hcls,-,hlk,hn,hraw⟩:=hI.ok t _ hp
 have hh:=hI.must t _ hp hlk
 obtain ⟨hf,-,-⟩:=hI.shape hn
 have hnotdead:dead c.mem=false:=by simp [dead,hn,Word.isDeallocating,hextra]
 have hnotdead':dead (c.mem.setWord newisa)=false:=by simp [dead,hraw,hf]
 refine hI.move hp _ _ (by rw [setWord_word,hcls]; exact hv) ⟨hv,hraw,hf,hextra⟩ (fun _=>hh)
  (fun _=>rfl) (.held t c.mem _ hh (.inl hh) (fun _=>hraw) (by simp [hnotdead]))
  (fun x _ h=>absurd (hraw.symm.trans h) Bool.false_ne_true) ?_ ?_ rfl
 · change _+(c.mem.word.extraRc.val-1)+inlineCount _+0=_+0+_+0
   grind [inlineCount,setWord_word,setWord_table]
 · rw [hnotdead,hnotdead']
   rfl

theorem Inv.change_stored (hI:Inv info c) {newisa:Word L}
 (hp:(c.threads t).pc=some (.change newCls (.store locked false c.mem.word newisa))) :
 Keeps info c t (.change newCls (if locked then .unlock c.mem.word else .ret c.mem.word))
  (c.mem.setWord newisa) := by
 obtain ⟨hv,hcls,-,hsame,hcount⟩:=hI.ok t _ hp
 have hmust:=hI.must t _ hp
 have hdead:dead (c.mem.setWord newisa)=dead c.mem:=by
  simp only [dead,setWord_word,setWord_table,hsame]
  split_ifs with hn
  · simp [Word.isDeallocating,hcount hn]
  · rfl
 refine hI.move hp _ _ (by rw [setWord_word,hcls]; exact hv) ⟨hv,?_⟩ ?_ ?_
  (.word t c.mem _ hsame (fun hn=>(hcount hn).2) fun h=>hdead.trans h) ?_ ?_ ?_ rfl
 · cases locked <;> trivial
 · cases locked
   · exact fun h=>by cases h
   · exact fun _=>hmust rfl
 · intro hh
   have hm:=hI.mayHold_of_holder hp hh
   cases locked
   · cases hm
   · rfl
 · intro x hx hn
   rw [setWord_word,hsame] at hn
   have hx':x=c.pending:=by cases locked <;> exact hx
   rw [hx',setWord_table,setWord_word,(hcount hn).2]
   exact hI.shape hn
 · have hin:inlineCount (c.mem.setWord newisa)=inlineCount c.mem:=by
    simp only [inlineCount,setWord_word,setWord_table,hsame]
    by_cases hn : c.mem.word.nonpointer=true
    · simp only [hn,↓reduceIte,(hcount hn).1]
    · simp only [hn,Bool.false_eq_true,↓reduceIte]
      rfl
   rw [hin]
   cases locked <;> rfl
 · rw [hdead]
   cases locked <;> rfl

theorem Inv.change_step (hI:Inv info c) {p:ChangePc L} (hp:(c.threads t).pc=some (.change newCls p))
 (hs:(code info (.change newCls p)).Step t c.mem q m) (hstale:¬ c.StaleRetry t)
 (hmove:¬ EmptyMove c (goTo c t q m)) :
 Keeps info c t q m := by
 have hok:=hI.ok t _ hp
 have hmust:=hI.must t _ hp
 have again:∀locked newisa,changeOwns p=locked → (Pc.change newCls p).pending=0 →
  (newisa.nonpointer=true → Capable info newCls) →
  (newisa.nonpointer=true → c.mem.word.nonpointer=true) →
  q=.change newCls (changeLoop info newCls locked newisa c.mem.word) → m=c.mem →
  Keeps info c t q m := by
  rintro locked newisa hown hpend hcap hst rfl rfl
  obtain ⟨ok,howns,hp'⟩:=changeLoop_ok newCls locked newisa c.mem hI.valid hcap hst
  have hw:=howns.trans hown.symm
  refine hI.silent hp _ ⟨hok.1,ok⟩ ?_ ?_ ⟨hp'.trans hpend.symm,rfl,rfl,rfl⟩
  · rw [mustHold_change,mustHold_change,hw]
    exact id
  · change mustHold _=true → mustHold _=true
    rw [mustHold_change,mustHold_change,hw]
    exact id
 cases p with
 | enter=>
  obtain ⟨hq,hm⟩:=hs
  have hzero:(Word.zero L).nonpointer=false:=by cases L <;> rfl
  exact again false (Word.zero L) rfl rfl (fun h=>by rw [hzero] at h; cases h)
   (fun h=>by rw [hzero] at h; cases h) hq hm
 | lock oldisa newisa=>
  obtain ⟨hh,rfl,rfl⟩:=hs
  obtain ⟨hv,hn,hraw,hcls⟩:=hok
  exact hI.lock hp _ hh ⟨hv,hcls,fun h=>(by rw [hraw] at h; cases h),rfl,hn,hraw⟩
   rfl ⟨rfl,rfl,rfl,rfl⟩
 | store locked transcribe oldisa newisa=>
  rcases hs with ⟨rfl,rfl,rfl⟩|⟨hq,hm⟩
  · cases transcribe with
    | false=>exact hI.change_stored hp
    | true=>
     obtain ⟨-,-,-,-,hn,hraw⟩:=hok
     exact hI.change_publish hp (fun he=>hmove ⟨hn,hraw,he⟩)
  · refine again locked newisa rfl rfl hok.2.2.1 (fun h=>?_) hq hm
    by_contra hr
    exact hstale (by simpa only [Config.StaleRetry,hp] using ⟨h,Bool.eq_false_iff.mpr hr⟩)
 | moveExtraRC oldisa=>
  obtain ⟨rfl,rfl⟩:=hs
  obtain ⟨hv,hn,hf,he⟩:=hok
  have hh:=hmust rfl
  have hpend:c.pending=oldisa.extraRc.val-1:=hI.pending_holder hp hh
  have hlive:oldisa.isDeallocating=false:=by
   rw [←Bool.not_eq_true,isDeallocating_iff]
   exact fun h=>he h.1
  have hbound:SideTable.count c.mem.table+oldisa.extraRc.val-1<2^62:=by
   have h1:=hI.count
   have h2:c.refs<2^61:=hI.bounded
   omega
  obtain ⟨hc',hf'⟩:=moveExtraRC_spec oldisa.extraRc.val oldisa.isDeallocating
   oldisa.weaklyReferenced c.mem.table (by omega) hf hbound
  refine hI.access_raw hp hh ⟨hv,trivial⟩ rfl ?_ rfl rfl hn ?_
  · rw [hc']
    change _+0+0=_+(oldisa.extraRc.val-1)+0
    omega
  · rw [hf',hlive,hf,Bool.toNat_false]
    have:=Bool.toNat_le oldisa.weaklyReferenced
    omega
 | unlock oldisa=>
  obtain ⟨hh,rfl,rfl⟩:=hs
  exact hI.unlock hp _ hh ⟨hok.1,trivial⟩ rfl ⟨rfl,rfl,rfl,rfl⟩
 | ret oldisa=>exact hs.elim

end Change

end ObjcRuntime.RetainInvariant
