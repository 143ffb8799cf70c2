import ObjcRuntime.WeakHeap

/-!
# Weak variables are zeroing and sound

Each call in progress relies on variables that it alone initializes or destroys, live variables
that it shares, a reference that it holds, an object that it disposes of.
-/
set_option autoImplicit false
namespace ObjcRuntime.WeakReferences
open ProbeTable WeakEntry WeakTable AtomicPrograms
open Function

def LoadAfter.claim : LoadAfter → Option (Ptr × Status)
 | .done=>none
 | .copyTo dst=>some (dst,.initializing)

def Store.claim (s:Store) : Option (Ptr × Status) :=
 if s.haveOld && s.haveNew then none
 else some (s.location,if s.haveOld then .destroying else .initializing)

/-- The variable that the call alone may touch, and its status. -/
def Pc.claim : Pc → Option (Ptr × Status)
 | .storeRetry s | .storeLock s _ | .storeInitialize s=>s.claim
 | .initNil location _=>some (location,.initializing)
 | .loadRetry _ k | .loadLock _ _ k | .loadInitialize _ _ k | .loadReturn _ k=>k.claim
 | .moveRetry dst _ | .moveLock dst _ _=>some (dst,.initializing)
 | _=>none

def After.held : After → Option Ptr
 | .done=>none
 | .release obj=>some obj

def Pc.held : Pc → Option Ptr
 | .storeRetry s | .storeLock s _ | .storeInitialize s | .storeCallout s _=>s.after.held
 | .initNil _ after=>after.held
 | .loadReturn result _=>some result
 | .release obj=>some obj
 | _=>none

def Pc.disposes : Pc → Option Ptr
 | .clearDeallocating obj | .clearDeallocatingSlow obj=>some obj
 | _=>none

def claimOf (p:Option Pc) : Option (Ptr × Status) := p.bind Pc.claim

def usesOf (p:Option Pc) : List Ptr := p.elim [] Pc.uses

def disposesOf (p:Option Pc) : Option Ptr := p.bind Pc.disposes

def heldBy (obj:Ptr) (p:Option Pc) : ℕ := if p.bind Pc.held=some obj then 1 else 0

variable {x obj:Ptr} {s:Status} {p:Option Pc} {h:Heap} {owned:Ptr → ℕ}
 {isInitialized:ℕ → Bool}

theorem Pc.claim_status {p:Pc} (h:p.claim=some (x,s)) : s=.initializing ∨ s=.destroying := by
 have store:∀a : Store,a.claim=some (x,s) → s=.initializing ∨ s=.destroying:=by
  grind [Store.claim]
 have load:∀k : LoadAfter,k.claim=some (x,s) → s=.initializing ∨ s=.destroying:=by
  intro k hk
  cases k with
  | done=>cases hk
  | copyTo dst=>exact .inl (Prod.mk.inj (Option.some.inj hk)).2.symm
 cases p with
 | storeRetry a | storeLock a oldObj | storeInitialize a=>exact store a h
 | loadRetry location k | loadLock location obj k | loadInitialize location obj k
 | loadReturn result k=>exact load k h
 | initNil location after | moveRetry dst src | moveLock dst src obj=>
  exact .inl (Prod.mk.inj (Option.some.inj h)).2.symm
 | storeCallout a result | release obj | clearDeallocating obj | clearDeallocatingSlow obj=>cases h

theorem claimOf_status (h:claimOf p=some (x,s)) :
 s≠.uninit ∧ s≠.live ∧ s.isWeak=(s == .destroying) := by
 cases p with
 | none=>cases h
 | some p=>
  rcases Pc.claim_status h with rfl|rfl
  · decide
  · decide

variable {E:Env} {T:Type} [Fintype T] {c:Config T} {t:T}

structure Inv (E:Env) (c:Config T) : Prop where
 heap : HeapInv E c.heap ∅
 claim : ∀t x s,claimOf (c.pc t)=some (x,s) → c.heap.status x=s
 exclusive : ∀t u x s s',claimOf (c.pc t)=some (x,s) → claimOf (c.pc u)=some (x,s') → t=u
 uses : ∀t x,x∈usesOf (c.pc t) → c.heap.status x=.live
 disposes : ∀t obj,disposesOf (c.pc t)=some obj →
  E.Real obj ∧ (c.heap.objs obj).phase=.deallocating
 disposer : ∀t u obj,disposesOf (c.pc t)=some obj → disposesOf (c.pc u)=some obj → t=u
 refs : ∀obj,E.Real obj → (c.heap.objs obj).refs=c.owned obj + ∑ t,heldBy obj (c.pc t)
 phase : ∀obj,E.Real obj → ((c.heap.objs obj).phase=.live ↔ 0 < (c.heap.objs obj).refs)

def Free (c:Config T) (t:T) (x:Ptr) : Prop :=
 ∀u,u≠t → (∀s,claimOf (c.pc u)≠some (x,s)) ∧ x∉usesOf (c.pc u)

theorem Inv.free_claimed (hi:Inv E c) (h:claimOf (c.pc t)=some (x,s)) : Free c t x := by
 intro u hu
 refine ⟨fun s' hs'=>hu (hi.exclusive u t x s' s hs' h),fun hx=>?_⟩
 have hlive:=hi.uses u x hx
 rw [hi.claim t x s h] at hlive
 exact (claimOf_status h).2.1 hlive

theorem Inv.free_uninit (hi:Inv E c) (h:c.heap.status x=.uninit) : Free c t x := by
 intro u _
 refine ⟨fun s hs=>?_,fun hx=>?_⟩
 · have heq:=hi.claim u x s hs
   exact (claimOf_status hs).1 (heq.symm.trans h)
 · grind [hi.uses]

theorem Inv.free_unused (hi:Inv E c) (h:c.heap.status x=.live)
 (hu:∀u,x∉usesOf (c.pc u)) : Free c t x := by
 intro u _
 refine ⟨fun s hs=>?_,hu u⟩
 exact (claimOf_status hs).2.1 ((hi.claim u x s hs).symm.trans h)

variable [DecidableEq T]

/-- The rule for a step of `t`: what it has to show about itself and about the others. -/
theorem Inv.goto (hi:Inv E c) (t:T) (heap:HeapInv E h ∅)
 (status:∀x,h.status x≠c.heap.status x → Free c t x)
 (claim:∀x s,claimOf p=some (x,s) → h.status x=s ∧ Free c t x)
 (uses:∀x,x∈usesOf p → h.status x=.live)
 (disposes:∀obj,disposesOf p=some obj → E.Real obj ∧ (h.objs obj).phase=.deallocating ∧
  ∀u,u≠t → disposesOf (c.pc u)≠some obj)
 (others:∀u obj,u≠t → disposesOf (c.pc u)=some obj → (h.objs obj).phase=(c.heap.objs obj).phase)
 (refs:∀obj,E.Real obj → (h.objs obj).refs+heldBy obj (c.pc t)+c.owned obj =
  (c.heap.objs obj).refs+heldBy obj p+owned obj)
 (phase:∀obj,E.Real obj → ((h.objs obj).phase=.live ↔ 0 < (h.objs obj).refs)) :
 Inv E ⟨h,owned,isInitialized,update c.pc t p⟩ := by
 have pc:∀u,(u=t ∧ update c.pc t p u=p) ∨ (u≠t ∧ update c.pc t p u=c.pc u) := by grind
 have kept:∀u x,u≠t → ((∃s,claimOf (c.pc u)=some (x,s)) ∨ x∈usesOf (c.pc u)) →
  h.status x=c.heap.status x := by
  intro u x hu hx
  by_contra hne
  obtain ⟨hclaim,huses⟩:=status x hne u hu
  grind
 refine ⟨heap,?_,?_,?_,?_,?_,?_,phase⟩
 · grind [hi.claim]
 · intro u v x s s' hs hs'
   rcases pc u with ⟨hu,hp⟩|⟨hu,hp⟩ <;> rcases pc v with ⟨hv,hq⟩|⟨hv,hq⟩ <;>
    simp only [hp] at hs <;> simp only [hq] at hs'
   · exact hu.trans hv.symm
   · exact absurd hs' (((claim x s hs).2 v hv).1 s')
   · exact absurd hs (((claim x s' hs').2 u hu).1 s)
   · exact hi.exclusive u v x s s' hs hs'
 · grind [hi.uses]
 · grind [hi.disposes]
 · intro u v obj ho ho'
   rcases pc u with ⟨hu,hp⟩|⟨hu,hp⟩ <;> rcases pc v with ⟨hv,hq⟩|⟨hv,hq⟩ <;>
    simp only [hp] at ho <;> simp only [hq] at ho'
   · exact hu.trans hv.symm
   · exact absurd ho' ((disposes obj ho).2.2 v hv)
   · exact absurd ho ((disposes obj ho').2.2 u hu)
   · exact hi.disposer u v obj ho ho'
 · intro obj hreal
   have hsum:=sum_update c.pc t p (heldBy obj)
   have hold:=hi.refs obj hreal
   have hnew:=refs obj hreal
   simp only
   omega

theorem Inv.jump (hi:Inv E c) {q:Option Pc} (hpc:c.pc t=q)
 (claim:∀x s,claimOf p=some (x,s) → claimOf q=some (x,s))
 (uses:∀x,x∈usesOf p → c.heap.status x=.live)
 (disposes:∀obj,disposesOf p=some obj → disposesOf q=some obj)
 (held:∀obj,E.Real obj → heldBy obj p=heldBy obj q) :
 Inv E ⟨c.heap,c.owned,isInitialized,update c.pc t p⟩ := by
 subst hpc
 refine hi.goto t hi.heap (fun x hne=>absurd rfl hne) (fun x s hs=>?_) uses (fun obj hobj=>?_)
  (fun _ _ _ _=>rfl) (fun obj hreal=>?_) hi.phase
 · exact ⟨hi.claim t x s (claim x s hs),hi.free_claimed (claim x s hs)⟩
 · grind [disposes,hi.disposer]
 · rw [held obj hreal]

theorem Inv.stay (hi:Inv E c) {p q:Pc} (hpc:c.pc t=some q) (claim:p.claim=q.claim)
 (uses:p.uses=q.uses) (disposes:p.disposes=q.disposes) (held:p.held=q.held) :
 Inv E ⟨c.heap,c.owned,isInitialized,update c.pc t (some p)⟩ := by
 refine hi.jump hpc (fun x s hs=>?_) (fun x hx=>hi.uses t x ?_) (fun obj hobj=>?_)
  fun obj _=>?_
 · exact claim.symm.trans hs
 · rw [hpc]
   change x∈p.uses at hx
   rw [uses] at hx
   exact hx
 · exact disposes.symm.trans hobj
 · change (if p.held=some obj then 1 else 0)=if q.held=some obj then 1 else 0
   rw [held]

theorem initWeak_relies (location newObj:Ptr) (crash:Bool) (after:After) :
 (initWeak location newObj crash after).claim=some (location,.initializing) ∧
  (initWeak location newObj crash after).uses=[] ∧
  (initWeak location newObj crash after).disposes=none ∧
  (initWeak location newObj crash after).held=after.held := by
 rw [initWeak]
 split_ifs
 · exact ⟨rfl,rfl,rfl,rfl⟩
 · exact ⟨rfl,rfl,rfl,rfl⟩

theorem after_relies (after:After) :
 claimOf after.next=none ∧ usesOf after.next=[] ∧ disposesOf after.next=none ∧
  ∀obj,heldBy obj after.next=if after.held=some obj then 1 else 0 := by
 cases after with
 | done | release obj=>exact ⟨rfl,rfl,rfl,fun _=>rfl⟩

theorem Inv.retag (hi:Inv E c) {q:Option Pc} (hpc:c.pc t=q) (heap:HeapInv E h ∅)
 (counts:SameCounts c.heap h)
 (status:∀y,h.status y=if y=x then s else c.heap.status y) (free:Free c t x)
 (claim:∀y s',claimOf p=some (y,s') → y=x ∧ s'=s)
 (uses:∀y,y∈usesOf p → y≠x ∧ c.heap.status y=.live) (disposes:disposesOf p=none)
 (held:∀obj,heldBy obj p=heldBy obj q) :
 Inv E (c.goto t p h) := by
 subst hpc
 refine hi.goto t heap (fun y hne=>?_) (fun y s' hs=>?_) (fun y hy=>?_) (fun obj hobj=>?_)
  (fun _ obj _ _=>(counts obj).2) (fun obj _=>?_) fun obj hreal=>?_
 · grind
 · grind
 · grind
 · rw [disposes] at hobj
   cases hobj
 · rw [(counts obj).1,held]
 · rw [(counts obj).1,(counts obj).2]
   exact hi.phase obj hreal

theorem Inv.begin_claim (hi:Inv E c) (idle:c.pc t=none) {p:Pc}
 (fresh:c.heap.status x=.uninit) (aligned:Aligned x)
 (claim:p.claim=some (x,.initializing)) (uses:∀y,y∈p.uses → c.heap.status y=.live)
 (disposes:p.disposes=none) (held:p.held=none) :
 Inv E (c.goto t (some p) (c.heap.setStatus x .initializing)) := by
 refine hi.retag idle (hi.heap.setStatus aligned (by rw [fresh]; rfl)) (fun _=>⟨rfl,rfl⟩)
  (setStatus_status x .initializing) (hi.free_uninit fresh) (fun y s hs=>?_) (fun y hy=>?_)
  disposes fun obj=>?_
 · have heq:=claim.symm.trans hs
   grind
 · refine ⟨fun heq=>?_,uses y hy⟩
   have hlive:=uses y hy
   rw [heq,fresh] at hlive
   cases hlive
 · change (if p.held=some obj then 1 else 0)=_
   rw [held]
   rfl

theorem Inv.begin_destroy (hi:Inv E c) (idle:c.pc t=none) (live:c.heap.status x=.live)
 (unused:∀u p,c.pc u=some p → x∉p.uses) :
 Inv E (c.goto t (some (.storeRetry ⟨true,false,false,x,0,none,.done⟩))
  (c.heap.setStatus x .destroying)) := by
 have hfree:Free c t x:=by
  refine hi.free_unused live fun u hx=>?_
  cases hp : c.pc u with
  | none=>
   rw [hp] at hx
   cases hx
  | some p=>
   rw [hp] at hx
   exact unused u p hp hx
 refine hi.retag idle (hi.heap.setStatus (hi.heap.aligned x ?_) (by rw [live]; rfl))
  (fun _=>⟨rfl,rfl⟩) (setStatus_status x .destroying) hfree (fun y s hs=>?_)
  nofun rfl fun _=>rfl
 · rw [live]
   exact Status.noConfusion
 · obtain ⟨rfl,rfl⟩:=Prod.mk.inj (Option.some.inj hs)
   exact ⟨rfl,rfl⟩

theorem Inv.initNil (hi:Inv E c) {after:After} (pc:c.pc t=some (.initNil x after)) :
 Inv E (c.goto t after.next ((c.heap.write x 0).setStatus x .live)) := by
 have hclaim:claimOf (c.pc t)=some (x,.initializing):=by rw [pc]; rfl
 have hst:=hi.claim t x _ hclaim
 have hal:Aligned x:=hi.heap.aligned x (by rw [hst]; exact Status.noConfusion)
 obtain ⟨hno,huses,hdis,hheld⟩:=after_relies after
 have hheap:=(hi.heap.detach_plain x (by rw [hst]; rfl)).write_unreal .live hal
  (.inl rfl) fun hreal=>hreal.1 rfl
 rw [insert_empty_eq,Set.sdiff_self] at hheap
 refine hi.retag pc hheap (fun _=>⟨rfl,rfl⟩) (fun y=>write_status y) (hi.free_claimed hclaim)
  (fun y s hs=>?_) (fun y hy=>?_) hdis fun obj=>hheld obj
 · rw [hno] at hs
   cases hs
 · rw [huses] at hy
   cases hy

omit [DecidableEq T] in
theorem Inv.store_location (hi:Inv E c) {s:Store} {oldObj:Ptr}
 (pc:c.pc t=some (.storeLock s oldObj)) :
 Aligned s.location ∧ (s.haveOld=false → (c.heap.status s.location).isWeak=false) ∧
  ((if s.haveNew then Status.live else .uninit)≠c.heap.status s.location →
   Free c t s.location) := by
 have hclaim:claimOf (c.pc t)=s.claim:=by rw [pc]; rfl
 have huses:s.haveOld=true → s.haveNew=true → c.heap.status s.location=.live:=by
  intro ho hn
  refine hi.uses t s.location ?_
  rw [pc]
  change _∈if s.haveOld && s.haveNew then [s.location] else []
  grind
 by_cases hboth : (s.haveOld && s.haveNew)=true
 · grind [hi.heap.aligned]
 · rw [Store.claim,if_neg hboth] at hclaim
   have hst:=hi.claim t _ _ hclaim
   refine ⟨hi.heap.aligned _ ?_,fun h=>?_,fun _=>hi.free_claimed hclaim⟩
   · grind
   · rw [hst,h]
     rfl

theorem Inv.storeCommit (hi:Inv E c) {s:Store} {oldObj addr result:Ptr} {v:Viability}
 (pc:c.pc t=some (.storeLock s oldObj))
 (same:s.haveOld=true → c.heap.mem s.location=oldObj) (allocated:addr≠0)
 (honest:Honest E c.heap s.newObj v)
 (ran:storeSection E c.heap s oldObj addr v=some (result,h)) :
 Inv E (c.goto t (some (.storeCallout s result)) h) := by
 obtain ⟨hal,hplain,hfree⟩:=hi.store_location pc
 obtain ⟨hheap,hcounts,hstatus⟩ :=
  storeSection_spec hi.heap hal same hplain allocated honest ran
 refine hi.goto t hheap (fun x hne=>?_) nofun nofun
  nofun (fun _ obj _ _=>(hcounts obj).2) (fun obj _=>?_)
  fun obj hreal=>?_
 · grind
 · rw [(hcounts obj).1,pc]
   rfl
 · rw [(hcounts obj).1,(hcounts obj).2]
   exact hi.phase obj hreal

omit [DecidableEq T] in
theorem Inv.move_locations (hi:Inv E c) {dst src:Ptr} (pc:c.pc t=some (.moveLock dst src obj)) :
 claimOf (c.pc t)=some (dst,.initializing) ∧ Aligned dst ∧
  (c.heap.status dst).isWeak=false ∧ Aligned src ∧ (c.heap.status src).isWeak=true := by
 have hclaim:claimOf (c.pc t)=some (dst,.initializing):=by rw [pc]; rfl
 have hdst:=hi.claim t dst _ hclaim
 have hsrc:c.heap.status src=.live:=by
  refine hi.uses t src ?_
  rw [pc]
  exact List.mem_singleton_self src
 refine ⟨hclaim,hi.heap.aligned dst ?_,by rw [hdst]; rfl,hi.heap.aligned src ?_,by rw [hsrc]; rfl⟩
 · rw [hdst]
   exact Status.noConfusion
 · rw [hsrc]
   exact Status.noConfusion

theorem Inv.moveCommit (hi:Inv E c) {dst src addr:Ptr}
 (pc:c.pc t=some (.moveLock dst src obj)) (same:c.heap.mem src=obj)
 (allocated:addr≠0) (ran:moveSection E c.heap dst src obj addr=some h) :
 Inv E (c.goto t none h) := by
 obtain ⟨hclaim,hdst,hplain,hsrc,hweak⟩:=hi.move_locations pc
 obtain ⟨hheap,hcounts,hstatus⟩ :=
  moveSection_spec hi.heap hdst hsrc same hweak hplain allocated ran
 exact hi.retag pc hheap hcounts hstatus (hi.free_claimed hclaim) nofun
  nofun rfl fun _=>rfl

theorem setObj_apply (h:Heap) (obj:Ptr) (o:Obj) (r:Ptr) :
 (h.setObj obj o).objs r=if r=obj then o else h.objs r :=
 update_apply ..

theorem heldBy_eq (r obj:Ptr) (h:p.bind Pc.held=some obj) :
 heldBy r p=if r=obj then 1 else 0 := by grind [heldBy]

theorem Inv.setObj (hi:Inv E c) {q:Option Pc} {o:Obj}
 (hpc:c.pc t=q) (heap:HeapInv E (c.heap.setObj obj o) ∅) (claim:claimOf p=claimOf q)
 (uses:usesOf p=[])
 (disposes:disposesOf p=none ∨ disposesOf p=some obj ∧ E.Real obj ∧ o.phase=.deallocating)
 (others:∀u,u≠t → disposesOf (c.pc u)≠some obj)
 (held:∀r,E.Real r → r≠obj → heldBy r q+c.owned r=heldBy r p+owned r)
 (refs:E.Real obj → o.refs+heldBy obj q+c.owned obj=(c.heap.objs obj).refs+heldBy obj p+owned obj)
 (phase:E.Real obj → (o.phase=.live ↔ 0 < o.refs)) :
 Inv E ⟨c.heap.setObj obj o,owned,c.isInitialized,update c.pc t p⟩ := by
 subst hpc
 refine hi.goto t heap (fun x hne=>absurd rfl hne) (fun x s hs=>?_) (fun x hx=>?_)
  (fun r hr=>?_) (fun u r hu hr=>?_) (fun r hreal=>?_) fun r hreal=>?_
 · rw [claim] at hs
   exact ⟨hi.claim t x s hs,hi.free_claimed hs⟩
 · rw [uses] at hx
   cases hx
 · grind [setObj_apply]
 · grind [setObj_apply]
 · grind [setObj_apply]
 · grind [setObj_apply,hi.phase]

omit [DecidableEq T] in
theorem Inv.live_disposer (hi:Inv E c) (hlive:(c.heap.objs obj).phase=.live) (u:T) :
 disposesOf (c.pc u)≠some obj := by
 intro hdis
 rw [(hi.disposes u obj hdis).2] at hlive
 cases hlive

omit [DecidableEq T] in
theorem Inv.retain_heap (hi:Inv E c) (obj:Ptr) : HeapInv E (c.heap.retain obj) ∅ :=
 hi.heap.setObj obj fun x hx hrefers=>hi.heap.weak x obj hx hrefers

theorem Inv.retained (hi:Inv E c) {q:Option Pc} (hpc:c.pc t=q)
 (hlive:(c.heap.objs obj).phase=.live) (claim:claimOf p=claimOf q)
 (uses:usesOf p=[]) (disposes:disposesOf p=none)
 (held:∀r,heldBy r p+owned r=heldBy r q+c.owned r+if r=obj then 1 else 0) :
 Inv E ⟨c.heap.retain obj,owned,c.isInitialized,update c.pc t p⟩ := by
 refine hi.setObj hpc (hi.retain_heap obj) claim uses (.inl disposes)
  (fun u _=>hi.live_disposer hlive u) (fun r _ hne=>?_) (fun _=>?_) fun _=>?_
 · grind
 · grind [Obj.retain]
 · simp [Obj.retain,hlive]

omit [DecidableEq T] in
theorem Inv.held_live (hi:Inv E c) (hreal:E.Real obj) (held:(c.pc t).bind Pc.held=some obj) :
 (c.heap.objs obj).phase=.live ∧ 0 < (c.heap.objs obj).refs := by
 have hle:heldBy obj (c.pc t) ≤ ∑ u,heldBy obj (c.pc u) :=
  Finset.single_le_sum (f:=fun u=>heldBy obj (c.pc u)) (fun _ _=>Nat.zero_le _)
   (Finset.mem_univ t)
 grind [heldBy,hi.refs,hi.phase]

theorem Inv.rootRelease (hi:Inv E c) (pc:c.pc t=some (.release obj)) (hreal:E.Real obj) :
 Inv E (c.goto t (if (c.heap.release obj).2 then some (.clearDeallocating obj) else none)
  (c.heap.release obj).1) := by
 obtain ⟨hlive,hpos⟩:=hi.held_live hreal (show (c.pc t).bind Pc.held=some obj by rw [pc]; rfl)
 have hheld:∀r,heldBy r (some (Pc.release obj))=if r=obj then 1 else 0 :=
  fun r=>heldBy_eq r obj rfl
 by_cases hlast : (c.heap.objs obj).refs-1=0
 · have hrel:c.heap.release obj =
    (c.heap.setObj obj ⟨.deallocating,0,(c.heap.objs obj).weak⟩,true) := by
    simp [Heap.release,Obj.release,hlast]
   rw [hrel]
   refine hi.setObj pc (hi.heap.setObj obj fun x hx hrefers=>?_) rfl rfl
    (.inr ⟨rfl,hreal,rfl⟩) (fun u _=>hi.live_disposer hlive u) (fun r _ hne=>?_)
    (fun _=>?_) fun _=>by simp
   · exact ⟨(hi.heap.weak x obj hx hrefers).1,Phase.noConfusion⟩
   · rw [hheld,if_neg hne]
     rfl
   · rw [hheld,if_pos rfl]
     change 0+1+c.owned obj=(c.heap.objs obj).refs+0+c.owned obj
     omega
 · have hrel:c.heap.release obj =
    (c.heap.setObj obj ⟨.live,(c.heap.objs obj).refs-1,(c.heap.objs obj).weak⟩,false) := by
    simp [Heap.release,Obj.release,hlast,hlive]
   rw [hrel]
   refine hi.setObj pc (hi.heap.setObj obj fun x hx hrefers=>?_) rfl rfl (.inl rfl)
    (fun u _=>hi.live_disposer hlive u) (fun r _ hne=>?_) (fun _=>?_) fun _=>?_
   · exact ⟨(hi.heap.weak x obj hx hrefers).1,Phase.noConfusion⟩
   · rw [hheld,if_neg hne]
     rfl
   · rw [hheld,if_pos rfl]
     change (c.heap.objs obj).refs-1+1+c.owned obj=(c.heap.objs obj).refs+0+c.owned obj
     omega
   · simp only [true_iff]
     omega

theorem Inv.clear (hi:Inv E c) {q:Pc} (pc:c.pc t=some q)
 (disposes:q.disposes=some obj) (held:q.held=none)
 (heap:HeapInv E (h.setObj obj {h.objs obj with phase:=.cleared}) ∅)
 (hobjs:h.objs=c.heap.objs) (hstatus:h.status=c.heap.status) :
 Inv E (c.goto t none (h.setObj obj {h.objs obj with phase:=.cleared})) := by
 have hdis:disposesOf (c.pc t)=some obj:=by rw [pc]; exact disposes
 obtain ⟨hreal,hphase⟩:=hi.disposes t obj hdis
 have hzero:¬ 0 < (c.heap.objs obj).refs:=by
  rw [←hi.phase obj hreal,hphase]
  exact Phase.noConfusion
 refine hi.goto t heap (fun x hne=>absurd (congrFun hstatus x) hne) nofun
  nofun nofun (fun u r hu hr=>?_) (fun r hr=>?_)
  fun r hr=>?_
 · grind [setObj_apply,hi.disposer]
 · grind [heldBy,setObj_apply]
 · rw [setObj_apply,hobjs]
   grind [hi.phase]

theorem Inv.alloc (hi:Inv E c) (idle:c.pc t=none) (hreal:E.Real obj)
 (gone:(c.heap.objs obj).phase=.cleared) :
 Inv E ((c.goto t none (c.heap.setObj obj ⟨.live,1,false⟩)).own obj (c.owned obj+1)) := by
 have hzero:¬ 0 < (c.heap.objs obj).refs:=by grind [hi.phase]
 refine hi.setObj idle (hi.heap.setObj obj fun x hx hrefers=>?_) rfl rfl (.inl rfl)
  (fun u _ hdis=>?_) (fun r _ hne=>?_) (fun _=>?_) fun _=>by simp
 · exact absurd gone (hi.heap.weak x obj hx hrefers).2
 · rw [(hi.disposes u obj hdis).2] at gone
   cases gone
 · change _=_+update c.owned obj (c.owned obj+1) r
   rw [update_of_ne hne]
 · grind

theorem mayRetain_live (may:MayRetain E h obj true) :
 (h.objs obj).phase=.live := by grind [MayRetain]

theorem Inv.loadCommit (hi:Inv E c) {location:Ptr} {k:LoadAfter} {retained:Bool}
 (pc:c.pc t=some (.loadLock location obj k)) (may:MayRetain E c.heap obj retained) :
 Inv E (c.goto t (some (.loadReturn (if retained then obj else 0) k))
  (if retained then c.heap.retain obj else c.heap)) := by
 cases retained with
 | true=>
  refine hi.retained pc (mayRetain_live may) rfl rfl rfl fun r=>?_
  rw [heldBy_eq r obj rfl]
  change _=0+c.owned r+_
  omega
 | false=>
  refine hi.jump pc (fun x s hs=>hs) nofun nofun
   fun r hreal=>?_
  rw [heldBy_eq r 0 rfl,if_neg hreal.1]
  rfl

variable {c':Config T}

theorem inv_step (hi:Inv E c) (step:Step E t c c') : Inv E c' := by
 cases step with
 | storeWeak location newObj crash idle live | loadWeakRetained location idle live=>
  refine hi.jump idle nofun (fun x hx=>?_) nofun
   fun _ _=>rfl
  rw [List.mem_singleton.mp hx]
  exact live
 | initWeak location newObj crash idle fresh aligned=>
  obtain ⟨hclaim,huses,hdis,hheld⟩:=initWeak_relies location newObj crash .done
  exact hi.begin_claim idle fresh aligned hclaim (fun y hy=>by rw [huses] at hy; cases hy)
   hdis hheld
 | destroyWeak location idle live unused=>exact hi.begin_destroy idle live unused
 | copyWeak dst src idle live fresh aligned | moveWeak dst src idle live fresh aligned=>
  refine hi.begin_claim idle fresh aligned rfl (fun y hy=>?_) rfl rfl
  rw [List.mem_singleton.mp hy]
  exact live
 | retain obj idle real owned=>
  have hlive:(c.heap.objs obj).phase=.live:=by
   rw [hi.phase obj real,hi.refs obj real]
   omega
  refine hi.retained idle hlive rfl rfl rfl fun r=>?_
  change _+update c.owned obj (c.owned obj+1) r=_
  grind
 | release obj idle owned=>
  refine hi.goto t hi.heap (fun x hne=>absurd rfl hne) nofun
   nofun nofun (fun _ _ _ _=>rfl) (fun r _=>?_) hi.phase
  rw [idle,heldBy_eq r obj (p:=some (.release obj)) rfl]
  change (c.heap.objs r).refs+0+c.owned r =
   (c.heap.objs r).refs+_+update c.owned obj (c.owned obj-1) r
  grind
 | alloc obj idle real gone=>exact hi.alloc idle real gone
 | assign location value idle plain=>
  refine hi.goto t (hi.heap.assign value (by rw [plain]; rfl)) (fun x hne=>absurd rfl hne)
   nofun nofun nofun
   (fun _ _ _ _=>rfl) (fun r _=>?_) hi.phase
  rw [idle]
  rfl
 | storeRead pc | storeChanged pc changed | storeUninitialized pc same needs
 | storeInitialized pc isInitialized | loadChanged pc changed
 | loadUninitialized pc same custom needs | loadInitialized pc isInitialized
 | moveChanged pc changed | clearSlow pc=>exact hi.stay pc rfl rfl rfl rfl
 | storeCommit addr viability pc same ready allocated valid honest ran=>
  exact hi.storeCommit pc same allocated honest ran
 | @storeReturn s result pc=>
  obtain ⟨hclaim,huses,hdis,hheld⟩:=after_relies s.after
  refine hi.jump pc (fun x s hs=>?_) (fun x hx=>?_) (fun r hr=>?_) fun r _=>hheld r
  · rw [hclaim] at hs
    cases hs
  · rw [huses] at hx
    cases hx
  · rw [hdis] at hr
    cases hr
 | initNil pc=>exact hi.initNil pc
 | @loadRead location k pc=>
  by_cases hreal : E.Real (c.heap.mem location)
  · rw [if_pos hreal]
    exact hi.stay pc rfl rfl rfl rfl
  · rw [if_neg hreal]
    refine hi.jump pc (fun x s hs=>hs) nofun nofun
     fun r hr=>?_
    have hne:r≠c.heap.mem location:=fun heq=>hreal (heq ▸ hr)
    rw [heldBy_eq r (c.heap.mem location) rfl,if_neg hne]
    rfl
 | loadCommit retained pc same may=>exact hi.loadCommit pc may
 | @loadDone result pc=>
  refine hi.goto t hi.heap (fun x hne=>absurd rfl hne) nofun
   nofun nofun (fun _ _ _ _=>rfl) (fun r _=>?_) hi.phase
  rw [pc,heldBy_eq r result rfl]
  change (c.heap.objs r).refs+_+c.owned r =
   (c.heap.objs r).refs+0+update c.owned result (c.owned result+1) r
  grind
 | @copyInit result dst pc=>
  obtain ⟨hclaim,huses,hdis,hheld⟩:=initWeak_relies dst result true (.release result)
  exact hi.stay pc hclaim huses hdis hheld
 | @moveRead dst src pc=>
  by_cases hz : c.heap.mem src=0
  · rw [if_pos hz]
    exact hi.jump pc (fun x s hs=>hs) nofun nofun
     fun _ _=>rfl
  · rw [if_neg hz]
    exact hi.stay pc rfl rfl rfl rfl
 | moveCommit addr pc same allocated ran=>exact hi.moveCommit pc same allocated ran
 | @released obj pc unreal=>
  refine hi.jump pc nofun nofun nofun
   fun r hr=>?_
  have hne:r≠obj:=fun heq=>unreal (heq ▸ hr)
  rw [heldBy_eq r obj (p:=some (.release obj)) rfl,if_neg hne]
  rfl
 | rootRelease pc real=>exact hi.rootRelease pc real
 | @clearFast obj pc never=>
  refine hi.clear pc rfl rfl (hi.heap.setObj obj fun x hx hrefers=>?_) rfl rfl
  grind [hi.heap.weak]
 | @clearCommit obj h pc ran=>
  have hdis:disposesOf (c.pc t)=some obj:=by rw [pc]; rfl
  obtain ⟨h',hrun,hheap,hobjs,hstatus⟩:=clearSection_spec hi.heap (hi.disposes t obj hdis).1
  obtain rfl : h=h':=Option.some.inj (ran.symm.trans hrun)
  exact hi.clear pc rfl rfl hheap hobjs hstatus

omit [DecidableEq T] in
theorem inv_initial (h:Initial E c) : Inv E c := by
 have hplain:∀x r,¬ c.heap.Refers E x r:=by
  intro x r hx
  have hw:=hx.1
  rw [h.uninit] at hw
  cases hw
 have hpc:∀t,c.pc t=none:=h.idle
 refine ⟨⟨fun i=>?_,fun r _ x=>?_,fun x r _ hx=>absurd hx (hplain x r),fun x hx=>?_⟩,
  fun t x s hs=>?_,fun t u x s s' hs _=>?_,fun t x hx=>?_,fun t obj ho=>?_,
  fun t u obj ho _=>?_,fun obj hreal=>?_,fun obj hreal=>?_⟩
 · rw [h.tables i]
   exact tableWf_empty
 · grind [referrersOf,emptyWeakTable,h.tables]
 · exact absurd (h.uninit x) hx
 · rw [hpc] at hs
   cases hs
 · rw [hpc] at hs
   cases hs
 · rw [hpc] at hx
   cases hx
 · rw [hpc] at ho
   cases ho
 · rw [hpc] at ho
   cases ho
 · grind [heldBy,Finset.sum_eq_zero,h.refs]
 · grind [h.phase,h.refs]

theorem inv_reachable (h:Reachable E c) : Inv E c := by
 obtain ⟨c₀,hinit,run⟩:=h
 induction run with
 | refl=>exact inv_initial hinit
 | tail _ step ih=>
  obtain ⟨t,step⟩:=step
  exact inv_step ih step

omit [Fintype T] in
theorem goto_pc (c:Config T) (t:T) (p:Option Pc) (h:Heap) : (c.goto t p h).pc t=p :=
 update_self ..

omit [Fintype T] in
theorem load_retains (step:Step E t c c') {location:Ptr} {k:LoadAfter}
 (pc:c.pc t=some (.loadLock location obj k)) (pc':c'.pc t=some (.loadReturn obj k))
 (hne:obj≠0) : (c.heap.objs obj).phase=.live ∧ c'.heap=c.heap.retain obj := by
 cases step with
 | loadCommit retained hpc same may=>
  rw [pc] at hpc
  obtain ⟨rfl,rfl,rfl⟩:=Pc.loadLock.inj (Option.some.inj hpc)
  cases retained with
  | true=>exact ⟨mayRetain_live may,rfl⟩
  | false=>grind [goto_pc]
 | loadChanged hpc changed=>
  rw [goto_pc] at pc'
  cases pc'
 | loadUninitialized hpc same custom needs=>
  rw [goto_pc] at pc'
  cases pc'
 | _=>simp_all

/-- In every reachable state each weak variable that holds an object is registered for it. A load
    that succeeds finds a live object and adds one reference to it alone, and the object lives
    until the load has returned. No weak variable holds an object whose deallocation has been
    cleared. The locked sections never find a table corrupt. -/
theorem weak_references_zeroing_and_sound (E:Env) (c:Config T) (reachable:Reachable E c) :
 (∀x,(c.heap.status x).isWeak=true → E.Real (c.heap.mem x) →
  x∈referrersOf (c.heap.tables (E.sideTable (c.heap.mem x))) (c.heap.mem x)) ∧
 (∀t c' location obj k,E.Real obj → Step E t c c' → c.pc t=some (.loadLock location obj k) →
  c'.pc t=some (.loadReturn obj k) →
  (c.heap.objs obj).phase=.live ∧ (c'.heap.objs obj).phase=.live ∧
   (c'.heap.objs obj).refs=(c.heap.objs obj).refs+1 ∧
   ∀r,r≠obj → c'.heap.objs r=c.heap.objs r) ∧
 (∀t obj k,E.Real obj → c.pc t=some (.loadReturn obj k) →
  (c.heap.objs obj).phase=.live ∧ 0 < (c.heap.objs obj).refs) ∧
 (∀obj,E.Real obj → (c.heap.objs obj).phase=.cleared →
  ∀x,(c.heap.status x).isWeak=true → c.heap.mem x≠obj) ∧
 (∀t s oldObj addr v,c.pc t=some (.storeLock s oldObj) →
  (s.haveOld=true → c.heap.mem s.location=oldObj) → addr≠0 →
  (s.crashIfDeallocating=true → v≠.deallocating) →
  ∃x,storeSection E c.heap s oldObj addr v=some x) ∧
 (∀t dst src obj addr,c.pc t=some (.moveLock dst src obj) → c.heap.mem src=obj → addr≠0 →
  ∃h,moveSection E c.heap dst src obj addr=some h) ∧
 ∀t obj,c.pc t=some (.clearDeallocatingSlow obj) → ∃h,clearSection E c.heap obj=some h := by
 have hi:=inv_reachable reachable
 refine ⟨fun x hweak hreal=>?_,fun t c' location obj k hreal step pc pc'=>?_,
  fun t obj k hreal pc=>?_,fun obj hreal hgone x hweak hm=>?_,
  fun t s oldObj addr v pc same haddr hcrash=>?_,fun t dst src obj addr pc same haddr=>?_,
  fun t obj pc=>?_⟩
 · exact (hi.heap.registered _ hreal.1 x).mpr ⟨Set.notMem_empty x,hweak,rfl,hreal⟩
 · obtain ⟨hlive,hheap⟩:=load_retains step pc pc' hreal.1
   refine ⟨hlive,?_,?_,fun r hne=>?_⟩
   · rw [hheap,Heap.retain,setObj_apply,if_pos rfl]
     exact hlive
   · rw [hheap,Heap.retain,setObj_apply,if_pos rfl]
     rfl
   · rw [hheap,Heap.retain,setObj_apply,if_neg hne]
 · exact hi.held_live hreal (show (c.pc t).bind Pc.held=some obj by rw [pc]; rfl)
 · exact (hi.heap.weak x obj (Set.notMem_empty x) ⟨hweak,hm,hreal⟩).2 hgone
 · obtain ⟨hal,hplain,-⟩:=hi.store_location pc
   exact storeSection_runs hi.heap hal same hplain haddr hcrash
 · obtain ⟨-,hdst,hplain,hsrc,-⟩:=hi.move_locations pc
   exact moveSection_runs hi.heap hdst hsrc same hplain haddr
 · have hdis:disposesOf (c.pc t)=some obj:=by rw [pc]; rfl
   obtain ⟨h,hrun,-⟩:=clearSection_spec hi.heap (hi.disposes t obj hdis).1
   exact ⟨h,hrun⟩

omit [Fintype T] in
theorem Reachable.step (h:Reachable E c) (s:Step E t c c') : Reachable E c' := by
 obtain ⟨c₀,hinit,run⟩:=h
 exact ⟨c₀,hinit,run.tail ⟨t,s⟩⟩

/-- Odd addresses are tagged, and there are 64 side tables as in `StripedMap`. -/
def sampleEnv : Env where
 isTagged p := p % 2 == 1
 sideTable p := ((p >>> 4) ^^^ (p >>> 9)) % 64
 getIsa _ := 0
 hasCustomRR _ := false

def sampleStart : Config (Fin 2) where
 heap := ⟨fun _=>0,fun _=>.uninit,fun _=>emptyWeakTable,
  fun p=>if p=4096 then ⟨.live,1,false⟩ else ⟨.cleared,0,false⟩⟩
 owned p := if p=4096 then 1 else 0
 isInitialized _ := true
 pc _ := none

theorem sampleStart_initial : Initial sampleEnv sampleStart := by
 refine ⟨fun _=>rfl,fun _=>rfl,fun _=>rfl,fun obj _=>?_,fun obj _=>?_⟩
 · by_cases h : obj=4096 <;> simp [sampleStart,h]
 · by_cases h : obj=4096 <;> simp [sampleStart,h]

theorem weak_load_loses_race : ∃c : Config (Fin 2),Reachable sampleEnv c ∧
 (c.heap.status 800).isWeak=true ∧ (c.heap.objs 4096).phase=.cleared ∧ c.heap.mem 800≠4096 := by
 have r0:Reachable sampleEnv sampleStart:=⟨_,sampleStart_initial,.refl⟩
 have r1:=r0.step (.initWeak (t:=0) 800 4096 true rfl rfl (by decide))
 have r2:=r1.step (.storeRead (t:=0) rfl)
 have r3:=r2.step (.storeCommit (t:=0) 8 .viable rfl nofun (by decide) (by decide)
  nofun rfl rfl)
 have r4:=r3.step (.storeReturn (t:=0) rfl)
 -- The other thread has read the variable when the last reference goes away.
 have r5:=r4.step (.loadWeakRetained (t:=1) 800 rfl rfl)
 have r6:=r5.step (.loadRead (t:=1) rfl)
 have r7:=r6.step (.release (t:=0) 4096 rfl (by decide))
 have r8:=r7.step (.rootRelease (t:=0) rfl (by decide))
 have r9:=r8.step (.loadCommit (t:=1) false rfl rfl rfl)
 have r10:=r9.step (.clearSlow (t:=0) rfl)
 have r11:=r10.step (.clearCommit (t:=0) rfl rfl)
 exact ⟨_,r11,rfl,rfl,(weak_references_zeroing_and_sound sampleEnv _ r11).2.2.2.1 4096
  (by decide) rfl 800 rfl⟩

end ObjcRuntime.WeakReferences
