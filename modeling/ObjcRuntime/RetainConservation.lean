import ObjcRuntime.RetainInvariant

set_option autoImplicit false
namespace ObjcRuntime.RetainConservation
open AtomicPrograms Isa SideTable RetainRelease RetainThreads RetainInvariant
open Function

variable {L:Layout} {T:Type} {info:Class L → ClassInfo}

structure Fresh (info:Class L → ClassInfo) (w:Word L) : Prop where
 nonpointer : w.nonpointer=true
 extraRc : w.extraRc.val=1
 hasSidetableRc : w.hasSidetableRc=false
 valid : ValidClass info w.shiftcls

theorem retain_store_nonpointer (w:Word L) : (retainNewisa w).nonpointer=w.nonpointer := by
 cases hc : (w.addRC 1).2 with
 | false=>rw [(retainNewisa_plain w hc).1]; rfl
 | true=>rw [(retainNewisa_carry w hc).1]; rfl

variable {t:T} {c:Config L T}

variable {m m':Memory (Word L) Entry T}

theorem nonpointer_of_step {p q:Pc L} (hok:Ok info m p)
 (hs:(code info p).Step t m q m') (hc:∀newCls x,p≠.change newCls x) :
 m'.word.nonpointer=m.word.nonpointer := by
 cases p with
 | weakLoadLock=>rw [hs.2.2]; rfl
 | weakLoadDone r=>exact hs.elim
 | change newCls x=>exact absurd rfl (hc newCls x)
 | retain tryRetain p=>
  cases p with
  | store variant locked oldisa=>
   rcases hs with ⟨rfl,-,rfl⟩|⟨-,rfl⟩
   · exact retain_store_nonpointer m.word
   · rfl
  | enter variant=>rw [hs.2]
  | lockOverflow oldisa | unlock r | tableRetainLock | tableRetainUnlock=>rw [hs.2.2]; rfl
  | addExtraRC | tableRetain | tableTryRetain=>rw [hs.2]; rfl
  | ret r=>
   cases tryRetain with
   | false=>exact hs.elim
   | true=>rw [hs.2.2]; rfl
 | release p=>
  cases p with
  | store variant locked oldisa=>
   rcases hs with ⟨rfl,-,rfl⟩|⟨-,rfl⟩
   · rw [setWord_word,subRC_eq]
     rfl
   · rfl
  | storeBorrow oldisa b=>
   rcases hs with ⟨rfl,-,rfl⟩|⟨-,rfl⟩ <;> rfl
  | storeBorrowAgain oldisa b=>
   rcases hs with ⟨rfl,-,rfl⟩|⟨-,rfl⟩
   · have hb:=L.rcHalf_bounds
     have hr:=L.rcRange
     have hborrowed:b.borrowed.toNat=L.rcHalf:=hok.2.1.1
     rw [setWord_word,borrowAgainNewisa,addRC_eq _ _ (by omega)]
     rfl
   · rfl
  | enter variant | reload=>rw [hs.2]
  | lockUnderflow | unlock r | tableReleaseLock | tableReleaseUnlock r=>rw [hs.2.2]; rfl
  | borrow oldisa | putBack b | clearExtraRC r | tableRelease=>rw [hs.2]; rfl
  | ret r=>exact hs.elim

theorem raw_of_step {p q:Pc L} (hok:Ok info m p)
 (hs:(code info p).Step t m q m') (hraw:m.word.nonpointer=false) :
 m'.word.nonpointer=false := by
 by_cases hc : ∃newCls x,p=.change newCls x
 · obtain ⟨newCls,x,rfl⟩:=hc
   cases x with
   | enter=>rw [hs.2,hraw]
   | lock oldisa newisa=>rw [hs.2.2]; exact hraw
   | store locked transcribe oldisa newisa=>
    rcases hs with ⟨rfl,-,rfl⟩|⟨-,rfl⟩
    · obtain ⟨-,-,-,hnew⟩:=hok
      cases transcribe with
      | true=>exact hnew.2.2
      | false=>exact hnew.1.trans hraw
    · exact hraw
   | moveExtraRC oldisa=>rw [hs.2]; exact hraw
   | unlock oldisa=>rw [hs.2.2]; exact hraw
   | ret oldisa=>exact hs.elim
 · rw [nonpointer_of_step hok hs fun newCls x h=>hc ⟨newCls,x,h⟩,hraw]

theorem ret_cases {p:Pc L} {r:Outcome L} (hr:code info p=.ret r) :
 (∃x,(p=.weakLoadDone x ∨ p=.retain false (.ret x)) ∧ r=.retain x) ∨
  (∃x,p=.release (.ret x) ∧ r=.release x) ∨
  ∃newCls oldisa x,p=.change newCls (.ret oldisa) ∧ r=.change x := by
 cases p with
 | weakLoadLock=>cases hr
 | weakLoadDone x=>exact .inl ⟨x,.inl rfl,(Instr.ret.inj hr).symm⟩
 | retain tryRetain p=>
  cases tryRetain with
  | true=>cases p <;> cases hr
  | false=>
   cases p with
   | ret x=>exact .inl ⟨x,.inr rfl,(Instr.ret.inj hr).symm⟩
   | _=>cases hr
 | release p=>
  cases p with
  | ret x=>exact .inr (.inl ⟨x,rfl,(Instr.ret.inj hr).symm⟩)
  | _=>cases hr
 | change newCls p=>
  cases p with
  | ret oldisa=>exact .inr (.inr ⟨newCls,oldisa,_,rfl,(Instr.ret.inj hr).symm⟩)
  | _=>cases hr

variable [DecidableEq T]

theorem settle_retain (c:Config L T) (t:T) (x:RetainResult) : c.settle t (.retain x) =
  { c.put t ⟨none,(c.threads t).owned+if x=.retained then 1 else 0⟩ with
    retains := c.retains+if x=.retained then 1 else 0 } := by
 unfold Config.settle
 dsimp only
 split_ifs <;> rfl

theorem settle_threads (c:Config L T) (t:T) (r:Outcome L) :
 (c.settle t r).mem=c.mem ∧ ∃n,(c.settle t r).threads=update c.threads t ⟨none,n⟩ := by
 cases r with
 | retain x=>exact settle_retain c t x ▸ ⟨rfl,_,rfl⟩
 | release x | change x=>exact ⟨rfl,_,rfl⟩

variable [Fintype T]

theorem inv_swap (hI:Inv info c) (x:Thread L)
 (retains releases deallocs:ℕ) (free:c.mem.holder≠some t)
 (ok:∀q,x.pc=some q → Ok info c.mem q ∧ mustHold q=false) (pending:x.of Pc.pending=0)
 (refs:x.refs=(c.threads t).refs)
 (dealloc:deallocs+x.of Pc.dying=c.deallocs+(c.threads t).of Pc.dying)
 (ledger:retains+c.releases+(c.threads t).owned+(c.threads t).of Pc.releasing =
  c.retains+releases+x.owned+x.of Pc.releasing) :
 Inv info {c.put t x with retains:=retains,releases:=releases,deallocs:=deallocs} := by
 have hpend:=sum_update c.threads t x (Thread.of Pc.pending)
 have hdy:=sum_update c.threads t x (Thread.of Pc.dying)
 have hrefs:=sum_update c.threads t x Thread.refs
 have hbook:=sum_update c.threads t x (fun x=>x.owned+x.of Pc.releasing)
 rw [pending,hI.other_pending free] at hpend
 have hrefs':(∑ u,(update c.threads t x u).refs)=c.refs:=by
  change _ = ∑ u,(c.threads u).refs
  omega
 have hcount:=hI.count
 have hdealloc:=hI.dealloc
 have hledger:=hI.ledger
 have other:∀u v,((c.put t x).threads u).pc=some v →
  (u=t ∧ x.pc=some v) ∨ (c.threads u).pc=some v := by
  intro u v hv
  by_cases hu : u=t
  · subst u
    simp only [Config.put,update_self] at hv
    exact .inl ⟨rfl,hv⟩
  · simp only [Config.put,update_of_ne hu] at hv
    exact .inr hv
 constructor
 · exact hI.valid
 · intro u v hv
   rcases other u v hv with ⟨rfl,hx⟩|hv
   · exact (ok v hx).1
   · exact hI.ok u v hv
 · intro u v hv hm
   rcases other u v hv with ⟨rfl,hx⟩|hv
   · rw [(ok v hx).2] at hm
     cases hm
   · exact hI.must u v hv hm
 · intro u hu
   have hut:u≠t:=fun h=>free (h ▸ hu)
   obtain ⟨v,hv,hm⟩:=hI.may u hu
   exact ⟨v,by simpa [Config.put,update_of_ne hut] using hv,hm⟩
 · have : Config.pending { c.put t x with
    retains := retains,releases := releases,deallocs := deallocs }=c.pending := by
    simpa [Config.pending,Config.put] using hpend
   rw [this]
   exact hI.shape
 · simp only [Config.refs,Config.pending,Config.put] at hcount hpend hrefs' ⊢
   omega
 · simp only [Config.dying,Config.put] at hdealloc hdy ⊢
   omega
 · simp only [Config.booked,Config.put] at hledger hbook ⊢
   omega
 · exact hrefs'.trans_lt hI.bounded

omit [DecidableEq T] in
theorem inv_idle_free (hI:Inv info c) (h:(c.threads t).pc=none) :
 c.mem.holder≠some t := by grind [hI.may]

theorem inv_handOver {u:T} {n:ℕ} (hI:Inv info c) (hu:u≠t) (h:(c.threads t).owned=n+1) :
 Inv info ((c.put t ⟨(c.threads t).pc,n⟩).put u ⟨(c.threads u).pc,(c.threads u).owned+1⟩) := by
 let threads:=update (update c.threads t ⟨(c.threads t).pc,n⟩) u
  ⟨(c.threads u).pc,(c.threads u).owned+1⟩
 have hpc:∀v,(threads v).pc=(c.threads v).pc:=by grind
 have hof:∀(f:Pc L → ℕ) v,(threads v).of f=(c.threads v).of f:=by
  intro f v
  rw [Thread.of,Thread.of,hpc]
 have howned:∀f : Pc L → ℕ,∑ v,((threads v).owned+(threads v).of f) =
  ∑ v,((c.threads v).owned+(c.threads v).of f) := by
  intro f
  have h1:=sum_update c.threads t ⟨(c.threads t).pc,n⟩ Thread.owned
  have h2:=sum_update (update c.threads t ⟨(c.threads t).pc,n⟩) u
   ⟨(c.threads u).pc,(c.threads u).owned+1⟩ Thread.owned
  rw [update_of_ne hu] at h2
  simp only [hof,Finset.sum_add_distrib]
  simp only [threads] at h1 h2 ⊢
  omega
 have hsum:∀f : Pc L → ℕ,∑ v,(threads v).of f = ∑ v,(c.threads v).of f:=fun f =>
  Finset.sum_congr rfl fun v _=>hof f v
 constructor
 · exact hI.valid
 · exact fun v p hv=>hI.ok v p ((hpc v).symm.trans hv)
 · exact fun v p hv=>hI.must v p ((hpc v).symm.trans hv)
 · intro v hv
   obtain ⟨p,hp,hm⟩:=hI.may v hv
   exact ⟨p,(hpc v).trans hp,hm⟩
 · change Shape c.mem (∑ v,(threads v).of Pc.pending)
   rw [hsum]
   exact hI.shape
 · refine (howned Pc.credit).trans (hI.count.trans ?_)
   exact congrArg (SideTable.count c.mem.table + · + inlineCount c.mem) (hsum Pc.pending).symm
 · exact (congrArg (c.deallocs + ·) (hsum Pc.dying)).trans hI.dealloc
 · exact hI.ledger.trans (congrArg (c.releases + ·) (howned Pc.releasing).symm)
 · exact (howned Pc.credit).trans_lt hI.bounded

theorem inv_ret {p:Pc L} {r:Outcome L} (hI:Inv info c) (hp:(c.threads t).pc=some p)
 (hr:code info p=.ret r) : Inv info (c.settle t r) := by
 have free (hm:mayHold p=false) : c.mem.holder≠some t:=by
  intro hh
  rw [hI.mayHold_of_holder hp hh] at hm
  cases hm
 rcases ret_cases hr with ⟨x,hx,rfl⟩|⟨x,rfl,rfl⟩|⟨newCls,oldisa,x,rfl,rfl⟩
 · obtain ⟨hm,hd,hrel,hcr⟩ : mayHold p=false ∧ p.dying=0 ∧ p.releasing=0 ∧
    p.credit=if x=.retained then 1 else 0 := by
    rcases hx with rfl|rfl <;> cases x <;> exact ⟨rfl,rfl,rfl,rfl⟩
   rw [settle_retain]
   refine inv_swap hI ⟨none,_⟩ _ c.releases c.deallocs (free hm) (fun _ h=>by cases h) rfl ?_ ?_ ?_
   · simp [Thread.refs,Thread.of,hp,hcr]
   · simp [Thread.of,hp,hd]
   · simp only [Thread.of,hp,hrel,Option.elim]
     omega
 · refine inv_swap hI ⟨none,(c.threads t).owned⟩ c.retains (c.releases+1)
    (if x=.dealloc then c.deallocs+1 else c.deallocs) (free rfl) (fun _ h=>by cases h) rfl ?_ ?_ ?_
   · simp [Thread.refs,Thread.of,hp,Pc.credit,releasePending]
   · cases x <;> simp [Thread.of,hp,Pc.dying]
   · simp only [Thread.of,hp,Option.elim,Pc.releasing]
     omega
 · refine inv_swap hI ⟨none,(c.threads t).owned⟩ c.retains c.releases c.deallocs (free rfl)
    (fun _ h=>by cases h) rfl ?_ ?_ ?_
   · simp [Thread.refs,Thread.of,hp,Pc.credit]
   · simp [Thread.of,hp,Pc.dying]
   · simp [Thread.of,hp,Pc.releasing]

variable {c':Config L T}

theorem inv_step (hI:Inv info c) (hs:CarefulStep info c c') : Inv info c' := by
 obtain ⟨t,hs,hstale,hmove,hb⟩:=hs
 have start:∀q,(c.threads t).pc=none → Ok info c.mem q → mustHold q=false →
  q.pending=0 → q.credit=0 → q.dying=0 → q.releasing=0 →
  Inv info (c.put t ⟨some q,(c.threads t).owned⟩) := by
  intro q hp ok must pending credit dying releasing
  refine inv_swap hI ⟨some q,(c.threads t).owned⟩ c.retains c.releases c.deallocs
   (inv_idle_free hI hp) ?_ pending ?_ ?_ ?_
  · grind
  · simp [Thread.refs,Thread.of,hp,credit]
  · simp [Thread.of,hp,dying]
  · simp [Thread.of,hp,releasing]
 cases hs with
 | retain hp=>exact start _ hp RRVariant.noConfusion rfl rfl rfl rfl rfl
 | weakLoad hp=>exact start _ hp trivial rfl rfl rfl rfl rfl
 | change newCls hp valid=>exact start _ hp ⟨valid,trivial⟩ rfl rfl rfl rfl rfl
 | @release n hp=>
  refine inv_swap hI ⟨some (.release (.enter .fast)),n⟩ c.retains c.releases c.deallocs
   (inv_idle_free hI (by rw [hp])) ?_ rfl ?_ ?_ ?_
  · intro q hq
    obtain rfl:=Option.some.inj hq
    exact ⟨RRVariant.noConfusion,rfl⟩
  · simp [Thread.refs,Thread.of,hp,Pc.credit,releasePending]
  · simp [Thread.of,hp,Pc.dying]
  · simp only [Thread.of,hp,Option.elim,Pc.releasing]
    omega
 | handOver u hu h=>exact inv_handOver hI hu h
 | @run p q m hp hstep=>
  cases p with
  | weakLoadLock=>
   obtain ⟨hh,rfl,rfl⟩:=hstep
   exact hI.lock hp _ hh RRVariant.noConfusion rfl ⟨rfl,rfl,rfl,rfl⟩ hb
  | weakLoadDone r=>exact hstep.elim
  | retain tryRetain p=>exact hI.retain_step hp hstep hb
  | release p=>exact hI.release_step hp hstep hb
  | change newCls p=>exact hI.change_step hp hstep hstale hmove hb
 | ret hp hr=>exact inv_ret hI hp hr

theorem inv_initial {w:Word L} (hw:Fresh info w) (t:T) : Inv info (initial w t) := by
 have hpc:∀u,((initial w t).threads u).pc=none:=by
  intro u
  by_cases hu : u=t
  · subst u
    simp [initial]
  · simp [initial,update_of_ne hu]
 have hzero:∀f : Pc L → ℕ,∀u,((initial w t).threads u).of f=0:=by
  intro f u
  rw [Thread.of,hpc]
  rfl
 have howned:∑ u,((initial w t).threads u).owned=1:=by
  have h:=sum_update (fun _:T=>(⟨none,0⟩ : Thread L)) t ⟨none,1⟩ Thread.owned
  simp only [Finset.sum_const_zero] at h
  exact h
 have hrefs:(initial w t).refs=1:=by simp [Config.refs,Thread.refs,hzero,howned]
 have hpending:(initial w t).pending=0:=by simp [Config.pending,hzero]
 have hnone:SideTable.count none=0 ∧ flags none=0:=by decide
 constructor
 · exact hw.valid
 · intro u p hp
   rw [hpc] at hp
   cases hp
 · intro u p hp
   rw [hpc] at hp
   cases hp
 · intro u hu
   cases hu
 · intro _
   grind [initial,dvd_zero,hw.hasSidetableRc]
 · grind [initial,inlineCount,hw.extraRc]
 · rw [show (initial w t).dying=0 by simp [Config.dying,hzero]]
   simp [initial,dead,hw.nonpointer,Word.isDeallocating,hw.extraRc]
 · simp [Config.booked,hzero,howned]
   rfl
 · rw [Config.Bounded,hrefs]
   decide

theorem inv_run (hI:Inv info c)
 (run:Relation.ReflTransGen (CarefulStep info) c c') : Inv info c' := by
 induction run with
 | refl=>exact hI
 | tail _ step ih=>exact inv_step ih step

theorem raw_run (hI:Inv info c)
 (run:Relation.ReflTransGen (CarefulStep info) c c') (hraw:c.mem.word.nonpointer=false) :
 c'.mem.word.nonpointer=false := by
 induction run with
 | refl=>exact hraw
 | @tail b d hrun step ih=>
  have hb:=inv_run hI hrun
  obtain ⟨t,hs,-⟩:=step
  cases hs with
  | run hp hstep=>exact raw_of_step (hb.ok t _ hp) hstep ih
  | ret hp hr=>rw [(settle_threads ..).1]; exact ih
  | _=>exact ih

omit [Fintype T] in
theorem other_pc {u:T} (hs:Step info t c c') (hu:u≠t) :
 (c'.threads u).pc=(c.threads u).pc := by
 cases hs with
 | @handOver n v hv h=>
  by_cases huv : u=v
  · subst u
    simp [Config.put]
  · simp [Config.put,update_of_ne huv,update_of_ne hu]
 | @ret p r hp hr=>
  obtain ⟨-,n,hthreads⟩:=settle_threads c t r
  rw [hthreads,update_of_ne hu]
 | _=>simp [Config.put,update_of_ne hu]

/-- No call of `changeIsa` is in flight and none has run. -/
structure Plain (c:Config L T) : Prop where
 nonpointer : c.mem.word.nonpointer=true
 idle : ∀t,(c.threads t).changing=false

theorem plain_step (hI:Inv info c) (hp:Plain c) (hs:PlainStep info c c') :
 CarefulStep info c c' ∧ Plain c' := by
 obtain ⟨t,hs,hidle,hb⟩:=hs
 have hnp:c'.mem.word.nonpointer=true:=by
  cases hs with
  | @run p q m hpc hstep=>
   refine (nonpointer_of_step (hI.ok t p hpc) hstep ?_).trans hp.nonpointer
   rintro newCls x rfl
   have:=hp.idle t
   rw [Thread.changing,hpc] at this
   cases this
  | ret hpc hr=>rw [(settle_threads ..).1]; exact hp.nonpointer
  | _=>exact hp.nonpointer
 have hnostale:¬ c.StaleRetry t:=by
  intro h
  have:=hp.idle t
  grind [Config.StaleRetry,Thread.changing]
 refine ⟨⟨t,hs,hnostale,fun h=>?_,hb⟩,hnp,fun u=>?_⟩
 · exact Bool.false_ne_true (h.2.1.symm.trans hnp)
 · by_cases hu : u=t
   · rw [hu,hidle]
   · rw [Thread.changing,other_pc hs hu]
     exact hp.idle u

theorem plain_run (hI:Inv info c) (hp:Plain c)
 (run:Relation.ReflTransGen (PlainStep info) c c') : Inv info c' ∧ Plain c' := by
 induction run with
 | refl=>exact ⟨hI,hp⟩
 | tail _ step ih=>grind [plain_step,inv_step]

omit [Fintype T] in
theorem plain_initial {w:Word L} (hw:Fresh info w) (t:T) : Plain (initial w t) := by
 refine ⟨hw.nonpointer,fun u=>?_⟩
 by_cases hu : u=t
 · subst u
   simp [initial,Thread.changing]
 · simp [initial,Thread.changing,update_of_ne hu]

omit [DecidableEq T] [Fintype T] in
theorem dying_of_step {p q:Pc L}
 (hs:(code info p).Step t m q m') (hp:p.dying=1) : q.dying=1 := by
 cases p with
 | release p=>
  cases p with
  | clearExtraRC r=>
   obtain rfl : r=.dealloc:=by cases r <;> first | rfl | cases hp
   rw [hs.1]
   rfl
  | unlock r | tableReleaseUnlock r=>
   obtain rfl : r=.dealloc:=by cases r <;> first | rfl | cases hp
   rw [hs.2.1]
   rfl
  | ret r=>exact hs.elim
  | _=>cases hp
 | _=>cases hp

theorem dying_le (p:Pc L) : p.dying≤1 := by
 unfold Pc.dying
 split <;> omega

omit [Fintype T] in
theorem deallocs_step (hs:Step info t c c') :
 (c'.deallocs=c.deallocs+1 ∧ (c.threads t).of Pc.dying=1 ∧ (c'.threads t).of Pc.dying=0) ∨
  (c'.deallocs=c.deallocs ∧ (c.threads t).of Pc.dying ≤ (c'.threads t).of Pc.dying) := by
 cases hs with
 | @run p q m hp hstep=>
  refine .inr ⟨rfl,?_⟩
  simp only [Config.put,update_self,Thread.of,hp,Option.elim_some]
  grind [dying_le,dying_of_step]
 | @ret p r hp hr=>
  obtain ⟨-,n,hthreads⟩:=settle_threads c t r
  have hpd:(c.threads t).of Pc.dying=p.dying:=by simp [Thread.of,hp]
  rw [hthreads,update_self,hpd]
  rcases ret_cases hr with ⟨x,hx,rfl⟩|⟨x,rfl,rfl⟩|⟨newCls,oldisa,x,rfl,rfl⟩
  · refine .inr ⟨by rw [settle_retain]; rfl,?_⟩
    rcases hx with rfl|rfl <;> exact le_rfl
  · cases x with
    | dealloc=>exact .inl ⟨rfl,rfl,rfl⟩
    | _=>exact .inr ⟨rfl,le_rfl⟩
  · exact .inr ⟨rfl,le_rfl⟩
 | @handOver n u hu h=>
  refine .inr ⟨rfl,le_of_eq ?_⟩
  simp [Config.put,update_of_ne hu.symm,Thread.of]
 | retain hp | weakLoad hp | release hp | change newCls hp valid=>
  exact .inr ⟨rfl,by simp [Thread.of,hp]⟩

theorem dying_step (hs:Step info t c c') :
 c'.dying+(c.threads t).of Pc.dying=c.dying+(c'.threads t).of Pc.dying :=
 sum_change (fun u=>(c'.threads u).of Pc.dying) (fun u=>(c.threads u).of Pc.dying) t
  fun u hu=>by simp only [Thread.of,other_pc hs hu]

omit [DecidableEq T] in
theorem refs_eq_zero (hI:Inv info c) (hn:c.mem.word.nonpointer=true) :
 c.deallocs+c.dying=if c.refs=0 then 1 else 0 := by
 rw [hI.dealloc,dead,if_pos hn]
 grind [hI.refs_of_dead]

omit [DecidableEq T] [Fintype T] in
theorem quiescent_zero (hq:Quiescent c) (f:Pc L → ℕ) (t:T) : (c.threads t).of f=0 := by
 rw [Thread.of,hq t]
 rfl

omit [DecidableEq T] in
theorem quiescent_refs (hI:Inv info c) (hq:Quiescent c) :
 c.pending=0 ∧ c.dying=0 ∧ c.refs+c.releases=1+c.retains := by
 have hledger:=hI.ledger
 have hrefs:c.refs=c.booked:=by
  simp only [Config.refs,Config.booked,Thread.refs,quiescent_zero hq]
 refine ⟨?_,?_,by omega⟩
 · simp only [Config.pending,quiescent_zero hq,Finset.sum_const_zero]
 · simp only [Config.dying,quiescent_zero hq,Finset.sum_const_zero]

/-- For any number of threads in `rootRetain`, `rootTryRetain` under the lock and `rootRelease`:
    the two words and the counts in flight are the references outstanding; `rootRelease` returns
    true once, from the release that took the last one; and a borrow never finds the side table
    empty. -/
theorem rootRetain_rootRelease_conservation {w:Word L} (hw:Fresh info w) (t₀:T)
 {c:Config L T} (run:Relation.ReflTransGen (PlainStep info) (initial w t₀) c) :
 (Quiescent c → c.mem.word.extraRc.val+count c.mem.table+c.releases=1+c.retains ∧
  (c.mem.word.hasSidetableRc=true ↔ 0 < count c.mem.table) ∧
  c.deallocs=if c.releases=1+c.retains then 1 else 0) ∧
 c.mem.word.extraRc.val+count c.mem.table+c.pending=c.refs ∧
 c.deallocs+c.dying=(if c.refs=0 then 1 else 0) ∧
 (∀t c',Step info t c c' → (c'.threads t).changing=false → c'.Bounded → (0 < c.refs ∧ c'.refs=0 ↔
   (c.threads t).of Pc.dying=0 ∧ (c'.threads t).of Pc.dying=1) ∧
  (c'.deallocs=c.deallocs+1 ↔ (c.threads t).of Pc.dying=1 ∧ (c'.threads t).of Pc.dying=0)) ∧
 ∀t oldisa,(c.threads t).pc=some (.release (.borrow oldisa)) →
  0 < (sidetableSubExtraRCNolock (BitVec.ofNat 64 L.rcHalf) c.mem.table).2.borrowed.toNat := by
 obtain ⟨hI,hp⟩:=plain_run (inv_initial hw t₀) (plain_initial hw t₀) run
 have hcount:=hI.count
 rw [inlineCount,if_pos hp.nonpointer] at hcount
 have hzero:=refs_eq_zero hI hp.nonpointer
 refine ⟨fun hq=>?_,by omega,hzero,fun t c' hs hidle hb=>?_,fun t oldisa hpc=>?_⟩
 · obtain ⟨hpending,hdying,hrefs⟩:=quiescent_refs hI hq
   obtain ⟨-,-,hside⟩:=hI.shape hp.nonpointer
   rw [hpending] at hside
   refine ⟨by omega,hside,?_⟩
   rw [hdying] at hzero
   by_cases h : c.refs=0
   · rw [if_pos (by omega)]
     rw [if_pos h] at hzero
     omega
   · rw [if_neg (by omega)]
     rw [if_neg h] at hzero
     omega
 · obtain ⟨hcareful,hp'⟩:=plain_step hI hp ⟨t,hs,hidle,hb⟩
   have hzero':=refs_eq_zero (inv_step hI hcareful) hp'.nonpointer
   have hdying:=dying_step hs
   have hle:(c.threads t).of Pc.dying ≤ c.dying :=
    Finset.single_le_sum (f:=fun u=>(c.threads u).of Pc.dying) (fun _ _=>Nat.zero_le _)
     (Finset.mem_univ t)
   split_ifs at hzero hzero' <;> rcases deallocs_step hs with h|h <;> omega
 · have hb:=L.rcHalf_bounds
   obtain ⟨-,-,hborrow⟩ :=
    subExtraRC_spec L.rcHalf c.mem.table (by omega) (hI.release_borrow hpc)
   rw [hborrow,BitVec.toNat_ofNat,Nat.mod_eq_of_lt (by omega)]
   omega

/-- Two threads: the second one's store fails because the first retained meanwhile. -/
def contendedSchedule : List (Fin 2 × Action .arm64e) :=
 [(1,.retain),(1,.go),(0,.retain),(0,.go),(0,.go),(0,.go),(1,.go),(1,.go),(1,.go),
   (0,.release),(0,.go),(1,.release),(1,.go),(0,.go),(1,.go),(1,.go),(0,.go),
   (1,.go),(0,.release),(0,.go),(0,.go),(0,.go)]

theorem conservation_contended : ∃c : Config .arm64e (Fin 2),
  Relation.ReflTransGen (PlainStep fun _=>ordinaryClass) (initial (Word.init 1 false) 0) c ∧
  Quiescent c ∧ c.retains=2 ∧ c.releases=3 ∧
  c.mem.word.extraRc.val+count c.mem.table+c.releases=1+c.retains ∧ c.deallocs=1 := by
 have hw:Fresh (fun _=>ordinaryClass) (Word.init 1 false : Word .arm64e) :=
  ⟨by decide,by decide,by decide,by decide⟩
 have heval:(execs (fun _=>ordinaryClass)
  (fun t _ c'=>!(c'.threads t).changing && decide c'.Bounded) contendedSchedule
  (initial (Word.init 1 false) 0)).map
   (fun c=>(decide (Quiescent c),c.retains,c.releases))=some (true,2,3) := by decide
 obtain ⟨c,hc,hv⟩:=Option.map_eq_some_iff.mp heval
 simp only [Prod.mk.injEq,decide_eq_true_eq] at hv
 have run:Relation.ReflTransGen (PlainStep fun _=>ordinaryClass)
  (initial (Word.init 1 false) 0) c:=by
  refine run_of_execs (fun t a b hs hg=>⟨t,hs,?_⟩) contendedSchedule hc
  simpa using hg
 obtain ⟨hcount,-,hdealloc⟩:=(rootRetain_rootRelease_conservation hw 0 run).1 hv.1
 exact ⟨c,run,hv.1,hv.2.1,hv.2.2,hcount,by rw [hdealloc,hv.2.1,hv.2.2]; rfl⟩

/-- The count as the runtime reads it, with `rootRetainCount` for a nonpointer isa; a raw
    object that is deallocating has no implicit reference left. -/
def logicalCount (m:Memory (Word L) Entry T) : ℕ :=
 if m.word.nonpointer then m.word.extraRc.val+if m.word.hasSidetableRc then count m.table else 0
 else count m.table+if flags m.table<2 then 1 else 0

omit [DecidableEq T] in
theorem logicalCount_eq (hI:Inv info c) (hpending:c.pending=0) : logicalCount c.mem=c.refs := by
 have hcount:=hI.count
 unfold logicalCount
 unfold inlineCount at hcount
 cases hn : c.mem.word.nonpointer with
 | false=>grind
 | true=>
  obtain ⟨-,-,hside⟩:=hI.shape hn
  grind

/-- `changeIsa` among retains and releases, whenever no retry carries a nonpointer `newisa`
    over to a raw isa and no count of zero is moved to the side table. -/
theorem changeIsa_concurrent {w:Word L} (hw:Fresh info w) (t₀:T) {c:Config L T}
 (run:Relation.ReflTransGen (CarefulStep info) (initial w t₀) c) :
 (Quiescent c → logicalCount c.mem+c.releases=1+c.retains) ∧
 ∀c',Relation.ReflTransGen (CarefulStep info) c c' → c.mem.word.nonpointer=false →
  c'.mem.word.nonpointer=false := by
 have hI:=inv_run (inv_initial hw t₀) run
 refine ⟨fun hq=>?_,fun c' run'=>raw_run hI run'⟩
 obtain ⟨hpending,-,hrefs⟩:=quiescent_refs hI hq
 rw [logicalCount_eq hI hpending]
 exact hrefs

def mixedClasses (c:Class .arm64e) : ClassInfo :=
 if c.val=2 then {ordinaryClass with canAllocNonpointer:=false} else ordinaryClass

/-- The second thread makes the isa raw and retains; the first releases. -/
def rawSchedule : List (Fin 2 × Action .arm64e) :=
 [(1,.retain),(1,.go),(1,.go),(1,.go),(1,.change 2),(1,.go),(1,.go),(0,.change 3),
   (0,.go),(0,.go),(0,.go),(1,.go),(1,.go),(1,.go),(1,.go),(1,.go),
   (0,.release),(0,.go),(0,.go),(0,.go),(0,.go),(0,.go)]

theorem changeIsa_to_raw_run : ∃c : Config .arm64e (Fin 2),
  Relation.ReflTransGen (CarefulStep mixedClasses) (initial (Word.init 1 false) 0) c ∧
  Quiescent c ∧ c.mem.word.nonpointer=false ∧ c.retains=1 ∧ c.releases=1 ∧
  logicalCount c.mem+1=1+1 := by
 have hw:Fresh mixedClasses (Word.init 1 false : Word .arm64e) :=
  ⟨by decide,by decide,by decide,by decide⟩
 have heval:(execs mixedClasses
  (fun t c c'=>decide (¬ c.StaleRetry t ∧ ¬ EmptyMove c c' ∧ c'.Bounded)) rawSchedule
  (initial (Word.init 1 false) 0)).map (fun c=>(decide (Quiescent c),c.mem.word.nonpointer,
   c.retains,c.releases))=some (true,false,1,1) := by decide
 obtain ⟨c,hc,hv⟩:=Option.map_eq_some_iff.mp heval
 simp only [Prod.mk.injEq,decide_eq_true_eq] at hv
 have run:Relation.ReflTransGen (CarefulStep mixedClasses) (initial (Word.init 1 false) 0) c :=
  run_of_execs (fun t a b hs hg=>⟨t,hs,of_decide_eq_true hg⟩) rawSchedule hc
 have hcount:=(changeIsa_concurrent hw 0 run).1 hv.1
 rw [hv.2.2.1,hv.2.2.2] at hcount
 exact ⟨c,run,hv.1,hv.2.1,hv.2.2.1,hv.2.2.2,hcount⟩

/-- The first thread prepares a nonpointer isa and loses the race to one that makes the isa
    raw and retains the object; its retry stores the stale nonpointer word. -/
def staleSchedule : List (Fin 2 × Action .arm64e) :=
 [(0,.change 3),(0,.go),(1,.change 2),(1,.go),(1,.go),(1,.go),(1,.go),(1,.go),
   (1,.go),(1,.retain),(1,.go),(1,.go),(1,.go),(1,.go),(1,.go)]

theorem changeIsa_revives_nonpointer : ∃c c' : Config .arm64e (Fin 2),
  Relation.ReflTransGen (fun a b=>∃t,Step mixedClasses t a b)
   (initial (Word.init 1 false) 0) c ∧
  Relation.ReflTransGen (fun a b=>∃t,Step mixedClasses t a b) c c' ∧
  c.mem.word.nonpointer=false ∧ c'.mem.word.nonpointer=true ∧ Quiescent c' ∧
  logicalCount c'.mem+c'.releases≠1+c'.retains := by
 have heval:(execs mixedClasses (fun _ _ _=>true) staleSchedule
  (initial (Word.init 1 false) 0)).any (fun c=>!c.mem.word.nonpointer &&
   (execs mixedClasses (fun _ _ _=>true) [(0,.go),(0,.go),(0,.go)] c).any fun c' =>
    decide (c'.mem.word.nonpointer=true ∧ Quiescent c' ∧
     logicalCount c'.mem+c'.releases≠1+c'.retains))=true := by decide
 simp only [Option.any_eq_true,Bool.and_eq_true,Bool.not_eq_true',decide_eq_true_eq] at heval
 obtain ⟨c,hc,hraw,c',hc',hn,hq,hcount⟩:=heval
 exact ⟨c,c',run_of_execs (fun t a b hs _=>⟨t,hs⟩) staleSchedule hc,
  run_of_execs (fun t a b hs _=>⟨t,hs⟩) _ hc',hraw,hn,hq,hcount⟩

end ObjcRuntime.RetainConservation
