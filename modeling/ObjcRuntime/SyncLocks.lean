import ObjcRuntime.SyncCaches

/-!
`@synchronized` is a recursive lock per object. A node's `threadCount` counts its `users`: the
threads with an item for it in their caches, and those between the change of `threadCount` and that
of their cache. While a node has users its object stays. A node whose mutex is held may be given to
another object, but its new user then waits for the mutex.
-/

set_option autoImplicit false
namespace ObjcRuntime.SyncData

open Interleaving RecursiveMutex
open Function

/-- A step between a cache and `threadCount`: the thread uses the node, but has no item. -/
def Point.Pins (n:ℕ) : Point → Prop
 | .searched _ _ result=>result=some n
 | .decrement _ data=>data=n
 | _=>False

/-- The locks that the caches count and the thread has yet to take. -/
def Point.toLock (n:ℕ) : Point → ℕ
 | .lock _ data=>if data=n then 1 else 0
 | _=>0

/-- The locks that the caches do not count any more and the thread has yet to give up. -/
def Point.toUnlock (n:ℕ) : Point → ℕ
 | .decrement _ data | .tryUnlock _ data=>if data=n then 1 else 0
 | _=>0

/-- The items that are still to go into the caches. -/
def Point.toSave : Point → ℕ
 | .searchList _ _ | .searched _ _ _=>1
 | _=>0

def Caches.Without (c:Caches) (s:Shared) (object:ℕ) : Prop :=
 ∀n,0 < c.count n → s.object n≠object

def PointOk (s:Shared) (c:Caches) : Point → Prop
 | .idle=>True
 | .searchList why object=>why=.acquire ∧ c.Without s object ∧ c.OpenSlot
 | .searched why object result=>
  why=.acquire ∧ c.Without s object ∧ c.OpenSlot ∧ ∃n,result=some n ∧ s.object n=object
 | .lock object data=>0 < c.count data ∧ s.object data=object
 | .decrement _ data=>c.count data=0
 | .tryUnlock _ _=>True

structure SharedOk (E:Env) (users:ℕ → Finset ℕ) (s:Shared) (tr:List Event) : Prop where
 counts : ∀n,s.threadCount n=(users n).card
 listed : ∀i n,n∈s.list i ↔ n < s.allocated ∧ E.stripe (s.object n)=i
 nodup : ∀i,(s.list i).Nodup
 injective : ∀m n,m < s.allocated → n < s.allocated → s.object m=s.object n → m=n
 fresh : ∀n,s.allocated ≤ n → users n=∅ ∧ s.mutex n=none
 noFault : s.fault=none
 few : ∀n,∀t∈users n,t < 2^31-1
 exits : ∀t object success,Event.exited t object success∈tr → success=true

/-- At most `2^31-1` threads enter; each is inside an object less than `2^32` times, and has less
than `2^31` nodes. -/
def Env.Moderate (E:Env) : Prop := ∀t th object,E.enters t th object →
 t < 2^31-1 ∧ th.inside object+1 < 2^32 ∧ th.caches.items.length+1 < 2^31

structure Bounded (t:ℕ) (th:Thread) : Prop where
 small : ∀n,th.caches.count n < 2^32
 held : th.caches.items.length+th.point.toSave < 2^31
 few : th.point=.idle ∨ t < 2^31-1

structure ThreadOk (users:ℕ → Finset ℕ) (t:ℕ) (s:Shared) (th:Thread) : Prop where
 bounded : Bounded t th
 wf : th.caches.Wf
 uses : ∀n,t∈users n ↔ 0 < th.caches.count n ∨ th.point.Pins n
 owns : ∀n,owned t (s.mutex n)+th.point.toLock n=th.caches.count n+th.point.toUnlock n
 inside : ∀n,0 < th.caches.count n → th.inside (s.object n)+th.point.toLock n=th.caches.count n
 outside : ∀object,th.caches.Without s object → th.inside object=0
 point : PointOk s th.caches th.point

variable {n:ℕ} {events:List Event} {mutex:Option Hold}

section Facts

variable {E:Env} {users:ℕ → Finset ℕ} {t:ℕ} {s:Shared} {tr:List Event}
 {th:Thread}

theorem SharedOk.lt_allocated (ok:SharedOk E users s tr) (use:t∈users n) :
 n < s.allocated := by grind [ok.fresh]

theorem SharedOk.threadCount_pos (ok:SharedOk E users s tr) (use:t∈users n) :
 0 < s.threadCount n := by grind [ok.counts]

theorem SharedOk.unused (ok:SharedOk E users s tr) (h:s.threadCount n=0) :
 users n=∅ := by grind [ok.counts]

theorem ThreadOk.use_of_count (ok:ThreadOk users t s th) (h:0 < th.caches.count n) : t∈users n :=
 (ok.uses n).mpr (.inl h)

theorem ThreadOk.object_injective (ok:ThreadOk users t s th)
 (shared:SharedOk E users s tr) {m:ℕ} (hm:0 < th.caches.count m)
 (hn:0 < th.caches.count n) (same:s.object m=s.object n) : m=n :=
 shared.injective m n (shared.lt_allocated (ok.use_of_count hm))
  (shared.lt_allocated (ok.use_of_count hn)) same

theorem SharedOk.of_no_exit (ok:SharedOk E users s tr)
 (h:∀t object success,Event.exited t object success∈events → success=true) :
 SharedOk E users s (tr++events) :=
 { ok with
   exits := fun t object success mem=>by
    rcases List.mem_append.mp mem with old|new
    · exact ok.exits t object success old
    · exact h t object success new }

end Facts

structure Frame (t:ℕ) (users users':ℕ → Finset ℕ) (s s':Shared) : Prop where
 uses : ∀u,u≠t → ∀n,u∈users' n ↔ u∈users n
 owns : ∀u,u≠t → ∀n,owned u (s'.mutex n)=owned u (s.mutex n)
 object : ∀u n,u∈users n → s'.object n=s.object n

theorem Frame.refl (t:ℕ) (users:ℕ → Finset ℕ) (s:Shared) : Frame t users users s s :=
 ⟨fun _ _ _=>.rfl,fun _ _ _=>rfl,fun _ _ _=>rfl⟩

theorem Caches.without_congr {c:Caches} {s s':Shared}
 (same:∀n,0 < c.count n → s'.object n=s.object n) (object:ℕ) :
 c.Without s' object ↔ c.Without s object := by
 constructor
 · intro h n held
   exact same n held ▸ h n held
 · intro h n held
   exact (same n held).symm ▸ h n held

theorem ThreadOk.frame {t u:ℕ} {users users':ℕ → Finset ℕ} {s s':Shared} {th:Thread}
 (other:u≠t) (frame:Frame t users users' s s') (ok:ThreadOk users u s th) :
 ThreadOk users' u s' th := by
 have same:∀n,0 < th.caches.count n → s'.object n=s.object n:=fun n held =>
  frame.object u n (ok.use_of_count held)
 have without:=Caches.without_congr same
 refine ⟨ok.bounded,ok.wf,fun n=>(frame.uses u other n).trans (ok.uses n),fun n=>?_,fun n held=>?_,
  fun object h=>ok.outside object ((without object).mp h),?_⟩
 · rw [frame.owns u other]
   exact ok.owns n
 · rw [same n held]
   exact ok.inside n held
 · have point:=ok.point
   cases h : th.point with
   | idle=>trivial
   | searchList why object=>
    rw [h] at point
    exact ⟨point.1,(without object).mpr point.2.1,point.2.2⟩
   | searched why object result=>
    rw [h] at point
    obtain ⟨acquire,hwithout,slot,n,hn,hobject⟩:=point
    have use:u∈users n:=(ok.uses n).mpr (.inr (h ▸ hn))
    exact ⟨acquire,(without object).mpr hwithout,slot,n,hn,(frame.object u n use).trans hobject⟩
   | lock object data=>
    rw [h] at point
    exact ⟨point.1,(same data point.1).trans point.2⟩
   | decrement object data=>
    rw [h] at point
    exact point
   | tryUnlock object data=>trivial

def Keeps (E:Env) (users:ℕ → Finset ℕ) (t:ℕ) (s:Shared) (tr:List Event)
 (events:List Event) (s':Shared) (th':Thread) : Prop :=
 ∃users',SharedOk E users' s' (tr++events) ∧ ThreadOk users' t s' th' ∧
  Frame t users users' s s'

section Steps

variable {E:Env} {users:ℕ → Finset ℕ} {t:ℕ} {s:Shared} {tr:List Event}
 {th:Thread} {object data:ℕ}

theorem Keeps.local {th':Thread} (shared:SharedOk E users s tr)
 (exits:∀t object success,Event.exited t object success∈events → success=true)
 (own:ThreadOk users t s th') : Keeps E users t s tr events s th' :=
 ⟨users,shared.of_no_exit exits,own,.refl t users s⟩

theorem noExit : ∀t object success,Event.exited t object success∈[] → success=true :=
 nofun

theorem exit_success (t object:ℕ) : ∀u other success,
 Event.exited u other success∈[Event.exited t object true] → success=true := by grind

theorem enter_no_exit (t object:ℕ) : ∀u other success,
 Event.exited u other success∈[Event.entered t object] → success=true := by grind

theorem mem_insert_at {p u:ℕ} :
 u∈update users p (insert t (users p)) n ↔ u∈users n ∨ (u=t ∧ p=n) := by
 by_cases same : n=p
 · grind
 · rw [update_of_ne same]
   tauto

theorem frame_setMutex (others:∀u,u≠t → owned u mutex=owned u (s.mutex data)) :
 Frame t users users s {s with mutex:=update s.mutex data mutex} := by
 refine ⟨fun _ _ _=>.rfl,fun u other n=>?_,fun _ _ _=>rfl⟩
 grind

theorem owns_tryUnlock (ok:ThreadOk users t s th) (at_unlock:th.point=.tryUnlock object data) :
 owned t (s.mutex data)=th.caches.count data+1 := by
 have:=ok.owns data
 simpa [at_unlock,Point.toLock,Point.toUnlock] using this

theorem exists_tryUnlock (ok:ThreadOk users t s th) (at_unlock:th.point=.tryUnlock object data) :
 ∃mutex,RecursiveMutex.tryUnlock t (s.mutex data)=some mutex := by
 apply Option.isSome_iff_exists.mp
 grind [tryUnlock_isSome,owns_tryUnlock]

/-- Thread `t` comes to use node `p`, whose object stays if the node was in use. -/
structure Joined (E:Env) (users:ℕ → Finset ℕ) (t:ℕ) (s:Shared) (tr:List Event)
 (object p:ℕ) (s':Shared) : Prop where
 shared : SharedOk E (update users p (insert t (users p))) s' tr
 given : s'.object p=object
 kept : ∀u n,u∈users n → s'.object n=s.object n
 mutex : s'.mutex=s.mutex
 absent : t∉users p

theorem ThreadOk.count_up {c':Caches} (ok:Bounded t th) (busy:t < 2^31-1)
 (below:th.caches.count n+1 < 2^32) (few:c'.items.length < 2^31) (wf:c'.Wf)
 (count:∀m,c'.count m=if m=n then th.caches.count n+1 else th.caches.count m)
 (given:s.object n=object) (within:th.inside object=th.caches.count n)
 (uses:∀m,t∈users m ↔ 0 < th.caches.count m ∨ m=n)
 (owns:∀m,owned t (s.mutex m)=th.caches.count m)
 (inside:∀m,0 < th.caches.count m → th.inside (s.object m)=th.caches.count m)
 (outside:∀other,th.caches.Without s other → th.inside other=0) :
 ThreadOk users t s {th with caches:=c',point:=.lock object n} := by
 refine ⟨⟨fun m=>?_,few,.inr busy⟩,wf,fun m=>?_,fun m=>?_,fun m hm=>?_,fun other h=>?_,?_⟩
 · rw [count]
   split
   · exact below
   · exact ok.small m
 · grind [Point.Pins]
 · grind [Point.toLock,Point.toUnlock]
 · grind [Point.toLock]
 · refine outside other fun m hm=>h m ?_
   rw [count]
   split <;> omega
 · exact ⟨by rw [count,if_pos rfl]; omega,given⟩

variable (shared:SharedOk E users s tr)
include shared

theorem SharedOk.card_le (n:ℕ) : (users n).card≤2^31-1 := by
 have sub:users n⊆Finset.range (2^31-1):=fun t use=>Finset.mem_range.mpr (shared.few n t use)
 exact (Finset.card_le_card sub).trans_eq (Finset.card_range _)

theorem SharedOk.few_insert (busy:t < 2^31-1) (p n:ℕ) :
 ∀u∈update users p (insert t (users p)) n,u < 2^31-1 := by
 intro u use
 rcases mem_insert_at.mp use with old|⟨rfl,-⟩
 · exact shared.few n u old
 · exact busy

theorem SharedOk.join {p:ℕ} (busy:t < 2^31-1) (unused:t∉users p) (lt:p < s.allocated) :
 SharedOk E (update users p (insert t (users p)))
  {s with threadCount:=update s.threadCount p ((s.threadCount p+1).bmod (2^32))} tr := by
 have few:=shared.few_insert busy p
 have card:(insert t (users p)).card≤2^31-1:=by
  have sub:insert t (users p)⊆Finset.range (2^31-1):=fun u use=>
   Finset.mem_range.mpr (few p u (by rwa [update_self]))
  exact (Finset.card_le_card sub).trans_eq (Finset.card_range _)
 rw [Finset.card_insert_of_notMem unused] at card
 refine {shared with counts:=fun n=>?_,fresh:=fun n hn=>?_,few:=few}
 · by_cases same : n=p
   · subst same
     simp only [update_self]
     rw [Finset.card_insert_of_notMem unused,shared.counts,
      Int.bmod_eq_of_le_mul_two (by omega) (by omega)]
     rfl
   · simp only [update_of_ne same]
     exact shared.counts n
 · grind [shared.fresh]

theorem SharedOk.recycle {p:ℕ} (busy:t < 2^31-1) (unused:users p=∅)
 (listed:p∈s.list (E.stripe object))
 (absent:∀n∈s.list (E.stripe object),s.object n≠object) :
 SharedOk E (update users p (insert t (users p)))
  { s with
    object := update s.object p object
    threadCount := update s.threadCount p 1 } tr := by
 obtain ⟨lt,hstripe⟩:=(shared.listed _ p).mp listed
 have new:∀n,n < s.allocated → s.object n≠object:=fun n hn same =>
  absent n ((shared.listed _ n).mpr ⟨hn,congrArg E.stripe same⟩) same
 refine { shared with
  counts := fun n=>?_,listed := fun i n=>?_,injective := fun m n hm hn same=>?_,
  fresh := fun n hn=>?_,few := shared.few_insert busy p }
 · grind [shared.counts]
 · grind [shared.listed]
 · grind [shared.injective]
 · grind [shared.fresh]

theorem SharedOk.allocate (busy:t < 2^31-1)
 (absent:∀n∈s.list (E.stripe object),s.object n≠object) :
 SharedOk E (update users s.allocated (insert t (users s.allocated)))
  { s with
    object := update s.object s.allocated object
    threadCount := update s.threadCount s.allocated 1
    mutex := update s.mutex s.allocated none
    list := update s.list (E.stripe object) (s.allocated::s.list (E.stripe object))
    allocated := s.allocated+1 } tr := by
 have unused:=(shared.fresh s.allocated le_rfl).1
 have new:∀n,n < s.allocated → s.object n≠object:=fun n hn same =>
  absent n ((shared.listed _ n).mpr ⟨hn,congrArg E.stripe same⟩) same
 have unlisted:∀i,s.allocated∉s.list i:=fun i mem =>
  absurd ((shared.listed i _).mp mem).1 (Nat.lt_irrefl _)
 refine { shared with
  counts := fun n=>?_,listed := fun i n=>?_,nodup := fun i=>?_,
  injective := fun m n hm hn same=>?_,fresh := fun n hn=>?_,few := shared.few_insert busy _ }
 · grind [shared.counts]
 · grind [shared.listed]
 · grind [shared.nodup]
 · grind [shared.injective]
 · grind [shared.fresh]

theorem SharedOk.setMutex (mutex:Option Hold) (lt:data < s.allocated) :
 SharedOk E users {s with mutex:=update s.mutex data mutex} tr := by
 refine {shared with fresh:=fun n hn=>⟨(shared.fresh n hn).1,?_⟩}
 change update s.mutex data mutex n=none
 rw [update_of_ne (lt.trans_le hn).ne']
 exact (shared.fresh n hn).2

variable (object) in
theorem searchList_acquire (busy:t < 2^31-1) (without:∀n,t∈users n → s.object n≠object) :
 ∃p,(s.searchList E.stripe object .acquire).2=some p ∧
  Joined E users t s tr object p (s.searchList E.stripe object .acquire).1 := by
 simp only [Shared.searchList,if_true]
 split
 next p found=>
  have same:s.object p=object:=by simpa using List.find?_some found
  have unused:t∉users p:=fun use=>without p use same
  have lt:=((shared.listed _ p).mp (List.mem_of_find?_eq_some found)).1
  exact ⟨p,rfl,shared.join busy unused lt,same,fun _ _ _=>rfl,rfl,unused⟩
 next notFound=>
  have absent:∀n∈s.list (E.stripe object),s.object n≠object:=fun n mem =>
   of_decide_eq_false (Bool.eq_false_iff.mpr (List.find?_eq_none.mp notFound n mem))
  split
  next p found=>
   have unused:users p=∅:=shared.unused (by simpa using List.find?_some found)
   refine ⟨p,rfl,shared.recycle busy unused (List.mem_of_find?_eq_some found) absent,
    update_self ..,fun u n use=>update_of_ne ?_ ..,rfl,?_⟩
   · grind
   · grind
  next=>
   obtain ⟨unused,free⟩:=shared.fresh s.allocated le_rfl
   refine ⟨s.allocated,rfl,shared.allocate busy absent,update_self ..,
    fun u n use=>update_of_ne (shared.lt_allocated use).ne ..,?_,?_⟩
   · grind
   · grind

variable (ok:ThreadOk users t s th)
include ok

theorem keeps_enter (idle:th.point=.idle) (busy:t < 2^31-1) (room:th.inside object+1 < 2^32)
 (few:th.caches.items.length+1 < 2^31) :
 Keeps E users t s tr [] (callId2data s th object .acquire).1
  (callId2data s th object .acquire).2 := by
 have live:∀n,0 < th.caches.count n → 0 < s.threadCount n:=fun n held =>
  shared.threadCount_pos (ok.use_of_count held)
 have uses:=ok.uses
 have owns:=ok.owns
 have inside:=ok.inside
 simp only [idle,Point.Pins,Point.toLock,Point.toUnlock,or_false,Nat.add_zero]
  at uses owns inside
 have fits:∀n,s.object n=object → th.caches.count n+1 < 2^32:=by
  rintro n rfl
  rcases Nat.eq_zero_or_pos (th.caches.count n) with zero|held
  · omega
  · rwa [inside n held] at room
 rcases searchCaches_spec object .acquire ok.wf live (fun _=>fits) (by omega) with
  ⟨n,c',result,found⟩|⟨c',result,missed⟩
 · have count:∀m,c'.count m=if m=n then th.caches.count n+1 else th.caches.count m :=
    fun m=>by rw [found.count,update_apply]; rfl
   have held:=found.held
   have removed:decide (c'.count n=0)=false:=by grind
   simp only [callId2data,result,removed,Bool.false_eq_true,if_false,Point.ofUsage]
   refine .local shared noExit (.count_up ok.bounded busy (fits n found.object)
    (by have:=found.fewer; omega) found.wf count found.object ?_ (fun m=>?_) owns inside ok.outside)
   · rw [←found.object,inside n held]
   · grind
 · simp only [callId2data,result]
   apply Keeps.local shared noExit
   refine ⟨⟨missed.count ▸ ok.bounded.small,by have:=missed.fewer; simp only [Point.toSave]; omega,
    .inr busy⟩,missed.wf,?_,?_,?_,?_,rfl,?_,missed.openSlot⟩
   all_goals simp only [Caches.Without,missed.count,Point.Pins,Point.toLock,Point.toUnlock,
    or_false,Nat.add_zero]
   · exact uses
   · exact owns
   · exact inside
   · exact ok.outside
   · exact missed.none

theorem callId2data_release (entered:0 < th.inside object) :
 ∃n c',Found s object .release th.caches n c' ∧
  callId2data s (th.leave object) object .release=(s,{ th.leave object with
   caches := c'
   point := if c'.count n=0 then .decrement object n else .tryUnlock object n }) := by
 have live:∀n,0 < th.caches.count n → 0 < s.threadCount n:=fun n held =>
  shared.threadCount_pos (ok.use_of_count held)
 rcases searchCaches_spec object .release ok.wf live nofun
  (by have:=ok.bounded.held; omega) with ⟨n,c',result,found⟩|⟨_,_,missed⟩
 · refine ⟨n,c',found,?_⟩
   have leave:(th.leave object).caches=th.caches:=rfl
   simp only [callId2data,leave,result,decide_eq_true_eq]
   rfl
 · exact absurd (ok.outside object missed.none) entered.ne'

theorem keeps_exit (idle:th.point=.idle) (entered:0 < th.inside object) :
 Keeps E users t s tr [] (callId2data s (th.leave object) object .release).1
  (callId2data s (th.leave object) object .release).2 := by
 have uses:=ok.uses
 have owns:=ok.owns
 have inside:=ok.inside
 simp only [idle,Point.Pins,Point.toLock,Point.toUnlock,or_false,Nat.add_zero]
  at uses owns inside
 obtain ⟨n,c',found,call⟩:=callId2data_release shared ok entered
 have count:∀m,c'.count m=if m=n then th.caches.count n-1 else th.caches.count m :=
  fun m=>by rw [found.count,update_apply]; rfl
 have held:=found.held
 have here:=inside n held
 rw [found.object] at here
 -- the inside of the object and the count of its node go down together
 have without:∀other,c'.Without s other → (th.leave object).inside other=0:=by
  intro other h
  simp only [Thread.leave,update_apply]
  split
  next same=>
   by_contra more
   exact h n (by rw [count,if_pos rfl]; omega) (found.object.trans same.symm)
  next differs=>
   apply ok.outside other
   intro m hm
   by_cases same : m=n
   · rw [same,found.object]
     exact Ne.symm differs
   · exact h m (by rwa [count,if_neg same])
 have within:∀m,0 < c'.count m → (th.leave object).inside (s.object m)=c'.count m:=by
  intro m hm
  rw [count] at hm ⊢
  simp only [Thread.leave,update_apply]
  by_cases same : m=n
  · rw [same,if_pos found.object,if_pos rfl,here]
  · rw [if_neg same] at hm ⊢
    rw [if_neg fun h=>same (ok.object_injective shared hm held (h.trans found.object.symm))]
    exact inside m hm
 have surplus:∀m,owned t (s.mutex m)=c'.count m+if n=m then 1 else 0:=by grind
 have still:∀m,t∈users m ↔ 0 < c'.count m ∨ (c'.count n=0 ∧ n=m):=by grind
 have bounded:∀point:Point,point.toSave=0 → Bounded t {th.leave object with caches:=c',point}:=by
  intro point saved
  refine ⟨fun m=>?_,?_,.inr (shared.few n t (ok.use_of_count held))⟩
  · have:=ok.bounded.small n
    rw [count]
    split
    · omega
    · exact ok.bounded.small m
  · grind [ok.bounded.held,found.fewer]
 rw [call]
 apply Keeps.local shared noExit
 split
 next zero=>
  refine ⟨bounded _ rfl,found.wf,fun m=>(still m).trans ?_,surplus,within,without,zero⟩
  simp [Point.Pins,zero]
 next more=>
  refine ⟨bounded _ rfl,found.wf,fun m=>(still m).trans ?_,surplus,within,without,trivial⟩
  simp [Point.Pins,more]

theorem keeps_searchList {why:Usage} (at_list:th.point=.searchList why object) :
 Keeps E users t s tr [] (s.searchList E.stripe object why).1
  {th with point:=.searched why object (s.searchList E.stripe object why).2} := by
 have point:=ok.point
 have uses:=ok.uses
 have owns:=ok.owns
 have inside:=ok.inside
 rw [at_list] at point
 simp only [at_list,Point.Pins,Point.toLock,Point.toUnlock,or_false,Nat.add_zero]
  at uses owns inside
 obtain ⟨rfl,without,slot⟩:=point
 have busy:=ok.bounded.few.resolve_left (by simp [at_list])
 obtain ⟨p,result,joined⟩:=searchList_acquire object shared busy
  fun n use=>without n ((uses n).mp use)
 have same:∀n,0 < th.caches.count n →
  (s.searchList E.stripe object .acquire).1.object n=s.object n :=
  fun n held=>joined.kept t n (ok.use_of_count held)
 rw [result]
 have held:=ok.bounded.held
 rw [at_list] at held
 refine ⟨_,joined.shared.of_no_exit noExit,⟨⟨ok.bounded.small,held,.inr busy⟩,ok.wf,fun n=>?_,
  fun n=>?_,fun n held=>?_,
  fun other h=>ok.outside other ((Caches.without_congr same other).mp h),rfl,
  (Caches.without_congr same object).mpr without,slot,p,rfl,joined.given⟩,
  fun u other n=>?_,fun u _ n=>by rw [joined.mutex],joined.kept⟩
 · rw [mem_insert_at,uses]
   simp [Point.Pins]
 · rw [joined.mutex]
   exact owns n
 · rw [same n held]
   exact inside n held
 · rw [mem_insert_at]
   simp [other]

theorem keeps_searched {why:Usage} {result:Option ℕ}
 (at_done:th.point=.searched why object result) :
 Keeps E users t s tr (finishId2data t s th why object result).2.2
  (finishId2data t s th why object result).1
  (finishId2data t s th why object result).2.1 := by
 have point:=ok.point
 have uses:=ok.uses
 have owns:=ok.owns
 have inside:=ok.inside
 rw [at_done] at point
 obtain ⟨rfl,without,slot,n,rfl,given⟩:=point
 simp only [at_done,Point.Pins,Point.toLock,Point.toUnlock,Nat.add_zero,Option.some.injEq]
  at uses owns inside
 have zero:th.caches.count n=0:=by
  by_contra held
  exact without n (Nat.pos_of_ne_zero held) given
 obtain ⟨c',saved,wf,hcount,length⟩:=ok.wf.save slot zero
 have busy:=ok.bounded.few.resolve_left (by simp [at_done])
 have held:=ok.bounded.held
 rw [at_done] at held
 have count:∀m,c'.count m=if m=n then th.caches.count n+1 else th.caches.count m :=
  fun m=>by rw [hcount,update_apply,zero]
 have finish:finishId2data t s th .acquire object (some n) =
  (s,{th with caches:=c',point:=.lock object n},[]) := by
  simp [finishId2data,given,saved]
 rw [finish]
 refine .local shared noExit (.count_up ok.bounded busy (by omega) (length ▸ held) wf count given ?_
  (fun m=>?_) owns inside ok.outside)
 · rw [ok.outside object without,zero]
 · rw [uses,eq_comm]

theorem keeps_lock (at_lock:th.point=.lock object data)
 (locked:RecursiveMutex.lock t (s.mutex data)=some mutex) :
 Keeps E users t s tr [.entered t object]
  {s with mutex:=update s.mutex data mutex}
  { th with
    point := .idle
    inside := update th.inside object (th.inside object+1) } := by
 have point:=ok.point
 have uses:=ok.uses
 have owns:=ok.owns
 have inside:=ok.inside
 rw [at_lock] at point
 obtain ⟨held,given⟩:=point
 simp only [at_lock,Point.Pins,Point.toLock,Point.toUnlock,Nat.add_zero,or_false]
  at uses owns inside
 have here:=inside data held
 rw [given,if_pos rfl] at here
 have held':=ok.bounded.held
 rw [at_lock] at held'
 have room:owned t (s.mutex data) < 2^32:=by
  have:=owns data
  have:=ok.bounded.small data
  omega
 refine ⟨users,(shared.setMutex mutex (shared.lt_allocated (ok.use_of_count held))).of_no_exit
  (enter_no_exit t object),⟨⟨ok.bounded.small,held',.inl rfl⟩,ok.wf,fun n=>?_,fun n=>?_,
   fun n hn=>?_,
  fun other h=>?_,trivial⟩,frame_setMutex fun u other=>?_⟩
 · simpa [Point.Pins] using uses n
 · grind [Point.toLock,Point.toUnlock,owned_lock]
 · grind [Point.toLock,ok.object_injective]
 · change update th.inside object _ other=0
   rw [update_of_ne fun same=>h data held (given.trans same.symm)]
   exact ok.outside other h
 · rw [owned_lock locked room,if_neg other]

theorem keeps_decrement (at_decrement:th.point=.decrement object data) :
 Keeps E users t s tr []
  {s with threadCount:=update s.threadCount data ((s.threadCount data-1).bmod (2^32))}
  {th with point:=.tryUnlock object data} := by
 have zero:=ok.point
 have uses:=ok.uses
 have owns:=ok.owns
 have inside:=ok.inside
 rw [at_decrement] at zero
 change th.caches.count data=0 at zero
 simp only [at_decrement,Point.Pins,Point.toLock,Point.toUnlock,Nat.add_zero]
  at uses owns inside
 have use:t∈users data:=(uses data).mpr (.inr rfl)
 have left:∀u n,u∈update users data ((users data).erase t) n ↔
  u∈users n ∧ ¬(u=t ∧ n=data) := by grind
 have held:=ok.bounded.held
 rw [at_decrement] at held
 refine ⟨update users data ((users data).erase t),?_,⟨⟨ok.bounded.small,held,
  .inr (shared.few data t use)⟩,ok.wf,fun n=>?_,owns,
  inside,ok.outside,trivial⟩,fun u other n=>?_,fun _ _ _=>rfl,fun _ _ _=>rfl⟩
 · apply SharedOk.of_no_exit _ noExit
   refine {shared with counts:=fun n=>?_,fresh:=fun n hn=>?_,few:=fun n u hu=>?_}
   · by_cases same : n=data
     · subst same
       have pos:=Finset.card_pos.mpr ⟨t,use⟩
       simp only [update_self]
       have card:=shared.card_le n
       rw [Finset.card_erase_of_mem use,shared.counts,
        Int.bmod_eq_of_le_mul_two (by omega) (by omega)]
       omega
     · simp only [update_of_ne same]
       exact shared.counts n
   · grind [shared.fresh]
   · exact shared.few n u ((left u n).mp hu).1
 · grind [Point.Pins]
 · rw [left]
   simp [other]

theorem keeps_tryUnlock (at_unlock:th.point=.tryUnlock object data)
 (unlocked:RecursiveMutex.tryUnlock t (s.mutex data)=some mutex) :
 Keeps E users t s tr [.exited t object true]
  {s with mutex:=update s.mutex data mutex} {th with point:=.idle} := by
 have surplus:=owns_tryUnlock ok at_unlock
 have uses:=ok.uses
 have owns:=ok.owns
 have inside:=ok.inside
 simp only [at_unlock,Point.Pins,Point.toLock,Point.toUnlock,Nat.add_zero,or_false]
  at uses owns inside
 have held:=ok.bounded.held
 rw [at_unlock] at held
 have lt:data < s.allocated:=by
  by_contra h
  rw [(shared.fresh data (Nat.le_of_not_lt h)).2] at surplus
  cases surplus
 refine ⟨users,(shared.setMutex mutex lt).of_no_exit (exit_success t object),
  ⟨⟨ok.bounded.small,held,.inl rfl⟩,ok.wf,fun n=>?_,fun n=>?_,inside,ok.outside,trivial⟩,
  frame_setMutex fun u other=>?_⟩
 · simpa [Point.Pins] using uses n
 · grind [Point.toLock,Point.toUnlock,owned_tryUnlock]
 · rw [owned_tryUnlock unlocked,if_neg other]

theorem ThreadStep.keeps {s':Shared} {th':Thread} (moderate:E.Moderate)
 (step:ThreadStep E t s th events s' th') :
 Keeps E users t s tr events s' th' := by
 cases step with
 | enterNil=>exact .local shared noExit ok
 | exitNil=>exact .local shared (exit_success t 0) ok
 | enter object idle _ enters=>
  obtain ⟨busy,room,few⟩:=moderate t th object enters
  exact keeps_enter shared ok idle busy room few
 | exit object idle _ entered=>exact keeps_exit shared ok idle entered
 | searchList at_list=>exact keeps_searchList shared ok at_list
 | searched at_done=>exact keeps_searched shared ok at_done
 | lock at_lock locked=>exact keeps_lock shared ok at_lock locked
 | decrement at_decrement=>exact keeps_decrement shared ok at_decrement
 | tryUnlock at_unlock unlocked=>exact keeps_tryUnlock shared ok at_unlock unlocked
 | notOwner at_unlock refused=>grind [exists_tryUnlock]

theorem exit_returns (idle:th.point=.idle) (entered:0 < th.inside object) :
 ∃s' th',ThreadRun (ThreadStep E) t s th [.exited t object true] s' th' := by
 by_cases nil : object=0
 · subst nil
   exact ⟨s,th,.cons (ThreadStep.exitNil idle) (.nil s th)⟩
 -- from the `tryUnlock` on
 have last:∀{users s tr th n},SharedOk E users s tr → ThreadOk users t s th →
  th.point=.tryUnlock object n →
  ∃s' th',ThreadRun (ThreadStep E) t s th [.exited t object true] s' th' := by
  intro users s tr th n _ ok at_unlock
  obtain ⟨mutex,unlocked⟩:=exists_tryUnlock ok at_unlock
  exact ⟨_,_,.cons (ThreadStep.tryUnlock at_unlock unlocked) (.nil _ _)⟩
 obtain ⟨users₁,shared₁,ok₁,-⟩:=keeps_exit shared ok idle entered
 obtain ⟨n,c',-,call⟩:=callId2data_release shared ok entered
 have first:ThreadStep E t s th [] _ _:=.exit object idle nil entered
 rw [call] at shared₁ ok₁ first
 by_cases zero : c'.count n=0
 · have at_decrement:(if c'.count n=0 then Point.decrement object n
    else .tryUnlock object n)=.decrement object n := if_pos zero
   obtain ⟨users₂,shared₂,ok₂,-⟩:=keeps_decrement shared₁ ok₁ at_decrement
   obtain ⟨s',th',rest⟩:=last shared₂ ok₂ rfl
   exact ⟨s',th',.cons first (.cons (.decrement at_decrement) rest)⟩
 · obtain ⟨s',th',rest⟩:=last shared₁ ok₁ (if_neg zero)
   exact ⟨s',th',.cons first rest⟩

end Steps

theorem start_ok (E:Env) :
 Holds (SharedOk E fun _=>∅) (fun t s _ th=>ThreadOk (fun _=>∅) t s th) start := by
 constructor
 · exact ⟨fun _=>rfl,fun _ _=>by simp [start],fun _=>List.nodup_nil,
    fun m _ hm=>absurd hm (Nat.not_lt_zero m),fun _ _=>⟨rfl,rfl⟩,rfl,
    nofun,nofun⟩
 · intro t
   refine ⟨⟨fun _=>Nat.two_pow_pos _,Nat.two_pow_pos _,.inl rfl⟩,
    ⟨⟨List.nodup_nil,nofun⟩,nofun⟩,fun n=>?_,
    fun _=>rfl,fun n h=>absurd h (Nat.not_lt_zero 0),fun _ _=>rfl,trivial⟩
   simp [start,Point.Pins,Caches.count,Caches.items,lockCounts]

theorem reachable_ok {E:Env} (moderate:E.Moderate) {c:Config Shared Thread Event}
 (run:Reachable (ThreadStep E) start c) :
 HoldsWith (SharedOk E) (fun users t s _ th=>ThreadOk users t s th) c := by
 refine HoldsWith.reachable ?_ ⟨_,start_ok E⟩ run
 intro users t s tr th events s' th' shared ok step
 obtain ⟨users',shared',ok',frame⟩:=step.keeps shared ok moderate
 exact ⟨users',shared',ok',fun other old=>old.frame other frame⟩

theorem SharedOk.nodup_objects {E:Env} {users:ℕ → Finset ℕ} {s:Shared}
 {tr:List Event} (shared:SharedOk E users s tr) (i:ℕ) :
 ((s.list i).map s.object).Nodup := by
 grind [List.Nodup.map_on,shared.nodup,shared.injective,shared.listed]

theorem ThreadOk.owned_of_inside {users:ℕ → Finset ℕ} {t object:ℕ} {s:Shared} {th:Thread}
 (ok:ThreadOk users t s th) (inside:0 < th.inside object) :
 ∃n,t∈users n ∧ s.object n=object ∧ 0 < owned t (s.mutex n) := by
 have some:¬th.caches.Without s object:=fun h=>inside.ne' (ok.outside object h)
 simp only [Caches.Without,ne_eq,not_forall,not_not] at some
 obtain ⟨n,held,rfl⟩:=some
 refine ⟨n,ok.use_of_count held,rfl,?_⟩
 have owns:=ok.owns n
 have within:=ok.inside n held
 omega

/-- Whatever the threads do, as long as each exits only what it entered: two threads are never
inside the same object, every exit returns with success, no object has two nodes, no node in use
gets another object, the thread counts are those of the caches between calls, and `id2data` finds
nothing amiss. -/
theorem synchronized_recursive_lock (E:Env) (moderate:E.Moderate)
 (c:Config Shared Thread Event) (run:Reachable (ThreadStep E) start c) :
 (∀t u object,0 < (c.threads t).inside object → 0 < (c.threads u).inside object → t=u) ∧
 (∀t object success,Event.exited t object success∈c.trace → success=true) ∧
 (∀t object,(c.threads t).point=.idle → 0 < (c.threads t).inside object →
  ∃s th,ThreadRun (ThreadStep E) t c.shared (c.threads t)
   [.exited t object true] s th) ∧
 (∀i,((c.shared.list i).map c.shared.object).Nodup) ∧
 (∀c',Step (ThreadStep E) c c' → ∀n,0 < c.shared.threadCount n →
  c'.shared.object n=c.shared.object n) ∧
 ((∀t,(c.threads t).point=.idle) → ∀n,{t | (c.threads t).caches.Holds n}.Finite ∧
   c.shared.threadCount n = {t | (c.threads t).caches.Holds n}.ncard) ∧
 c.shared.fault=none := by
 obtain ⟨users,shared,threads⟩:=reachable_ok moderate run
 refine ⟨fun t u object ht hu=>?_,shared.exits,
  fun t object idle entered=>exit_returns shared (threads t) idle entered,
  shared.nodup_objects,fun c' step n pos=>?_,fun idle n=>?_,shared.noFault⟩
 · obtain ⟨m,hm,hobject,mine⟩:=(threads t).owned_of_inside ht
   obtain ⟨n,hn,rfl,yours⟩:=(threads u).owned_of_inside hu
   have same:m=n :=
    shared.injective m n (shared.lt_allocated hm) (shared.lt_allocated hn) hobject
   subst same
   exact owned_exclusive mine yours
 · cases step with
   | mk t events s th hstep=>
    obtain ⟨_,-,-,frame⟩:=hstep.keeps shared (threads t) moderate
    rw [shared.counts] at pos
    obtain ⟨u,hu⟩:=Finset.card_pos.mp (by exact_mod_cast pos)
    exact frame.object u n hu
 · have holders:{t | (c.threads t).caches.Holds n}=(users n:Set ℕ):=by
    ext t
    have uses:=(threads t).uses n
    rw [idle t] at uses
    simpa [Point.Pins,(threads t).wf.count_pos_iff n] using uses.symm
   rw [holders,Set.ncard_coe_finset]
   exact ⟨Finset.finite_toSet _,shared.counts n⟩

def calm : Env where
 stripe := id
 enters t th object := t < 2^31-1 ∧ th.inside object+1 < 2^32 ∧ th.caches.items.length+1 < 2^31

theorem second_waits : ∃c,Reachable (ThreadStep calm) start c ∧ (c.threads 0).inside 7=1 ∧
 (c.threads 1).point=.lock 7 0 ∧ c.shared.mutex 0=some ⟨0,0⟩ := by
 have first:ThreadRun (ThreadStep calm) 0 start.shared (start.threads 0) _ _ _ :=
  .cons (.enter 7 rfl (by decide) ⟨by decide,by decide,by decide⟩) <| .cons (.searchList rfl) <|
  .cons (.searched rfl) <| .cons (.lock rfl rfl) <| .nil _ _
 have second:ThreadRun (ThreadStep calm) 1 sevenEntered (start.threads 1) _ _ _ :=
  .cons (.enter 7 rfl (by decide) ⟨by decide,by decide,by decide⟩) <| .cons (.searchList rfl) <|
  .cons (.searched rfl) <| .nil _ _
 exact ⟨_,(first.reachable rfl rfl).trans (second.reachable rfl rfl),rfl,rfl,rfl⟩

theorem synchronized_two_threads : ∃c,Reachable (ThreadStep calm) start c ∧
 (c.threads 0).inside 7=1 ∧ (c.threads 1).point=.lock 7 0 ∧
 (∀u,0 < (c.threads u).inside 7 → 0=u) ∧ c.shared.fault=none := by
 obtain ⟨c,run,inside,waits,-⟩:=second_waits
 obtain ⟨exclusive,-,-,-,-,-,noFault⟩:=synchronized_recursive_lock calm (fun _ _ _ h=>h) c run
 exact ⟨c,run,inside,waits,fun u hu=>exclusive 0 u 7 (inside ▸ Nat.one_pos) hu,noFault⟩

/-- Thread 0 has entered object 7, and object 8 `k+1` times. -/
def deepShared (k:ℕ) : Shared where
 object := update (update (fun _=>0) 0 7) 1 8
 threadCount := update (update (fun _=>0) 0 1) 1 1
 mutex := update (update sevenEntered.mutex 1 none) 1 (some ⟨0,k%2^32⟩)
 list := update (update (fun _=>[]) 7 [0]) 8 [1]
 allocated := 2
 fault := none

def deepThread (k:ℕ) : Thread where
 caches := ⟨some ⟨0,1⟩,some ⟨4,[⟨1,(k+1)%2^32⟩]⟩⟩
 point := .idle
 inside := update (update (fun _=>0) 7 1) 8 (k+1)

theorem enter_again {E:Env} (all:∀t th object,E.enters t th object) {k:ℕ} (low:k+1 < 2^32) :
 ThreadRun (ThreadStep E) 0 (deepShared k) (deepThread k) [.entered 0 8] (deepShared (k+1))
  (deepThread (k+1)) := by
 have positive:(k+1)%4294967296≠0:=by omega
 have call:callId2data (deepShared k) (deepThread k) 8 .acquire=(deepShared k,
  {deepThread k with caches:=(deepThread (k+1)).caches,point:=.lock 8 1}) := by
  simp [callId2data,searchCaches,searchCache,fetchCache,SyncCache.openSlot,deepShared,deepThread,
   SyncCacheItem.isBuggy,SyncCacheItem.use,useSlot,Point.ofUsage,positive]
 have enter:ThreadStep E 0 (deepShared k) (deepThread k) [] _ _ :=
  .enter 8 rfl (by decide) (all _ _ _)
 rw [call] at enter
 have mutex:(deepShared (k+1)).mutex=update (deepShared k).mutex 1 (some ⟨0,(k%2^32+1)%2^32⟩):=by
  simp [deepShared]
 have shared:deepShared (k+1)={deepShared k with mutex:=(deepShared (k+1)).mutex}:=rfl
 have thread:deepThread (k+1)=⟨(deepThread (k+1)).caches,.idle,
  update (deepThread k).inside 8 ((deepThread k).inside 8+1)⟩ := by
  simp [deepThread]
 rw [shared,mutex,thread]
 exact .cons enter (.cons (ThreadStep.lock rfl rfl) (.nil _ _))

theorem enter_deeper {E:Env} (all:∀t th object,E.enters t th object) {c:Config Shared Thread Event}
 (k:ℕ) (low:k < 2^32) (shared:c.shared=deepShared 0) (thread:c.threads 0=deepThread 0) :
 ∃c',Reachable (ThreadStep E) c c' ∧ c'.shared=deepShared k ∧ c'.threads 0=deepThread k := by
 induction k with
 | zero=>exact ⟨c,.refl,shared,thread⟩
 | succ k ih=>
  obtain ⟨d,run,hs,ht⟩:=ih (by omega)
  exact ⟨_,run.trans ((enter_again all low).reachable hs ht),rfl,rfl⟩

/-- After `2^32` nested enters of an object that is not in the fast cache, its lock count is 0. -/
theorem nested_enters_fatal : ∃c,Reachable (ThreadStep anyEnter) start c ∧
 (c.threads 0).point=.idle ∧ (c.threads 0).inside 8=2^32 ∧
 (callId2data c.shared ((c.threads 0).leave 8) 8 .release).1.fault=some .cacheIsBuggy := by
 have enter:ThreadRun (ThreadStep anyEnter) 0 start.shared (start.threads 0) _ _ _ :=
  .cons (.enter 7 rfl (by decide) trivial) <| .cons (.searchList rfl) <|
  .cons (.searched rfl) <| .cons (.lock rfl rfl) <|
  .cons (.enter 8 rfl (by decide) trivial) <| .cons (.searchList rfl) <|
  .cons (.searched rfl) <| .cons (.lock rfl rfl) <| .nil _ _
 obtain ⟨c,run,shared,thread⟩:=enter_deeper (E:=anyEnter) (fun _ _ _=>trivial) (2^32-1)
  (by omega) (c:=⟨_,update start.threads 0 _,_⟩) rfl rfl
 refine ⟨c,(enter.reachable rfl rfl).trans run,?_⟩
 rw [shared,thread]
 exact ⟨rfl,rfl,rfl⟩

def Moves (E:Env) (c:Config Shared Thread Event) (t:ℕ) : Prop :=
 ∃events s th,ThreadStep E t c.shared (c.threads t) events s th

/-- A thread in a call goes on, unless it waits for the mutex of its object; then another thread is
inside that object, or is on its way out and goes on. -/
theorem blocked_by_owner (E:Env) (moderate:E.Moderate) (c:Config Shared Thread Event)
 (run:Reachable (ThreadStep E) start c) (t:ℕ) : Moves E c t ∨ ∃object data u,
  (c.threads t).point=.lock object data ∧ u≠t ∧ (0 < (c.threads u).inside object ∨
   0 < (c.threads u).point.toUnlock data ∧ Moves E c u) := by
 obtain ⟨users,shared,threads⟩:=reachable_ok moderate run
 have leaves:∀u data,0 < (c.threads u).point.toUnlock data → Moves E c u:=by
  intro u data leaving
  cases at_point : (c.threads u).point with
  | decrement=>exact ⟨_,_,_,.decrement at_point⟩
  | tryUnlock=>
   obtain ⟨mutex,unlocked⟩:=exists_tryUnlock (threads u) at_point
   exact ⟨_,_,_,.tryUnlock at_point unlocked⟩
  | _=>simp [at_point,Point.toUnlock] at leaving
 cases at_point : (c.threads t).point with
 | idle=>exact .inl ⟨_,_,_,.enterNil at_point⟩
 | searchList=>exact .inl ⟨_,_,_,.searchList at_point⟩
 | searched=>exact .inl ⟨_,_,_,.searched at_point⟩
 | decrement object data | tryUnlock object data =>
  exact .inl (leaves t data (by simp [at_point,Point.toUnlock]))
 | lock object data=>
  cases locked : RecursiveMutex.lock t (c.shared.mutex data) with
  | some mutex=>exact .inl ⟨_,_,_,.lock at_point locked⟩
  | none=>
   obtain ⟨u,ne,owner⟩ : ∃u,u≠t ∧ 0 < owned u (c.shared.mutex data):=by
    cases held : c.shared.mutex data with
    | none=>simp [held,RecursiveMutex.lock] at locked
    | some hold=>
     refine ⟨hold.owner,fun same=>?_,by simp [owned]⟩
     simp [held,RecursiveMutex.lock,same] at locked
   refine .inr ⟨object,data,u,rfl,ne,?_⟩
   have owns:=(threads u).owns data
   rcases Nat.eq_zero_or_pos ((c.threads u).point.toUnlock data) with stays|leaving
   · have inside:=(threads u).inside data (by omega)
     have same:=(threads t).point
     rw [at_point] at same
     rw [same.2] at inside
     exact .inl (by omega)
   · exact .inr ⟨leaving,leaves u data leaving⟩

theorem second_blocked_by_first : ∃c,Reachable (ThreadStep calm) start c ∧ ¬Moves calm c 1 ∧
 ∃object data u,(c.threads 1).point=.lock object data ∧ u≠1 ∧ (0 < (c.threads u).inside object ∨
  0 < (c.threads u).point.toUnlock data ∧ Moves calm c u) := by
 obtain ⟨c,run,-,waits,held⟩:=second_waits
 have blocked:¬Moves calm c 1:=by
  rintro ⟨events,s,th,step⟩
  cases step <;> simp_all [RecursiveMutex.lock]
 exact ⟨c,run,blocked,(blocked_by_owner calm (fun _ _ _ h=>h) c run 1).resolve_left blocked⟩

end ObjcRuntime.SyncData
