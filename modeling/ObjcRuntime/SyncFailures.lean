import ObjcRuntime.SyncCaches

/-!
Calls of `objc_sync_try_enter` and `objc_sync_exit` that fail. `id2data` does its bookkeeping
before the mutex is asked, and nothing is undone.
-/

set_option autoImplicit false
namespace ObjcRuntime.SyncData

open Interleaving
open Function

/-- A thread that may also call `objc_sync_try_enter`, with what is known of its call: the caches
and the shared state when it began, the shared state when it went to search the list, and what it
has added to each `threadCount`. -/
structure Caller where
 thread : Thread
 trying : Bool
 caches : Caches
 began : Shared
 looked : Shared
 added : ℕ → ℤ

def Caller.after (l:Caller) (th:Thread) (s s':Shared) : Caller :=
 let change:=fun n=>s'.threadCount n-s.threadCount n
 match l.thread.point with
 | .idle=>⟨th,false,l.thread.caches,s,s,change⟩
 | .searchList _ _=>⟨th,l.trying,l.caches,l.began,s,fun n=>l.added n+change n⟩
 | _=>⟨th,l.trying,l.caches,l.began,l.looked,fun n=>l.added n+change n⟩

def Caller.Uncached (l:Caller) (object:ℕ) : Prop :=
 ∀item∈l.caches.items,l.began.object item.data≠object

def Caller.Unlisted (E:Env) (l:Caller) (object:ℕ) : Prop :=
 ∀n∈l.looked.list (E.stripe object),l.looked.object n≠object

inductive Answer
 | event (e:Event)
 /-- `objc_sync_try_enter` returns NO. -/
 | refused (t object:ℕ)
 deriving DecidableEq,Repr

def Answer.failed : Answer → Bool
 | .event (.exited _ _ success)=>!success
 | .event _=>false
 | .refused _ _=>true

/-- `objc_sync_try_enter` goes as `objc_sync_enter` does up to the mutex, and `objc_sync_exit` may
be called at any time. -/
inductive CallStep (E:Env) : Interleaving.ThreadStep Shared Caller Answer
 | step {t s s'} {l:Caller} {th} {events:List Event} (h:ThreadStep E t s l.thread events s' th) :
  CallStep E t s l (events.map .event) s' (l.after th s s')
 | tryEnter {t s} {l:Caller} (object) (idle:l.thread.point=.idle) (nonnil:object≠0) :
  CallStep E t s l [] (callId2data s l.thread object .acquire).1
   { l.after (callId2data s l.thread object .acquire).2 s
    (callId2data s l.thread object .acquire).1 with trying := true }
 | exit {t s} {l:Caller} (object) (idle:l.thread.point=.idle) (nonnil:object≠0) :
  CallStep E t s l [] (callId2data s l.thread object .release).1
   (l.after (callId2data s l.thread object .release).2 s (callId2data s l.thread object .release).1)
 | refused {t} {s:Shared} {l:Caller} {object data:ℕ} (trying:l.trying=true)
  (at_lock:l.thread.point=.lock object data) (held:RecursiveMutex.lock t (s.mutex data)=none) :
  CallStep E t s l [.refused t object] s (l.after {l.thread with point:=.idle} s s)

def Caller.Changed (E:Env) (l:Caller) : Prop :=
 match l.thread.point with
 | .idle=>True
 | .searchList _ object =>
  l.thread.caches.count=l.caches.count ∧ l.added=0 ∧ l.Uncached object
 | .searched _ object none =>
  l.thread.caches.count=l.caches.count ∧ l.added=0 ∧ l.Uncached object ∧ l.Unlisted E object
 | .searched why object (some n) =>
  l.thread.caches.count n=l.caches.count n ∧ (why=.release → l.added n≠0 ∧ ¬l.Unlisted E object)
 | .lock _ data=>l.thread.caches.count data≠l.caches.count data
 | .decrement object data | .tryUnlock object data =>
  l.thread.caches.count data≠l.caches.count data ∧ ¬l.Uncached object

section Counts

variable {s:Shared} {object data:ℕ} {why:Usage} {c c':Caches} {removed:Bool}

theorem searchCache_found (h:searchCache s object why c=.found data removed c') :
 ∃item rest,c.items.Perm (item::rest) ∧ c'.items.Perm ((item.use 32 why).toList++rest) ∧
  0 < item.lockCount ∧ s.object item.data=object ∧ data=item.data ∧
  removed=(item.use 32 why).isNone := by
 obtain ⟨fast,cache⟩:=c
 unfold searchCache at h
 cases cache with
 | none=>cases h
 | some cache=>
  have list:=cache.openSlot_list
  simp only [fetchCache,Bool.false_eq_true,if_false,Option.map_some] at h
  generalize cache.openSlot=fetched at *
  split at h
  · cases h
  next i found=>
   obtain ⟨before,item,after,split,rfl,same⟩:=exists_of_findIdx? found
   have slots:=useSlot_perm split why
   simp only [split,List.getElem?_append_right (Nat.le_refl _),Nat.sub_self,
    List.getElem?_cons_zero] at h
   split at h
   · cases h
   next sound=>
    cases h
    refine ⟨item,fast.toList++(before++after),?_,?_,?_,of_decide_eq_true same,rfl,rfl⟩
    · grind [Caches.items]
    · exact (slots.append_left _).trans (List.perm_append_comm_assoc _ _ _)
    · grind [SyncCacheItem.isBuggy]

theorem searchCaches_found (h:searchCaches s object why c=.found data removed c') :
 ∃w item rest,(w=32 ∨ w=64) ∧ c.items.Perm (item::rest) ∧
  c'.items.Perm ((item.use w why).toList++rest) ∧ 0 < item.lockCount ∧
  s.object item.data=object ∧ data=item.data ∧ removed=(item.use w why).isNone := by
 unfold searchCaches at h
 grind [Caches.items,SyncCacheItem.isBuggy,searchCache_found]

theorem searchCaches_missed (h:searchCaches s object why c=.missed c') :
 c'.count=c.count ∧ ∀item∈c.items,s.object item.data≠object := by
 obtain ⟨missed,other⟩ : searchCache s object why c=.missed c' ∧
  ∀item∈c.fast.toList,s.object item.data≠object := by grind [searchCaches]
 obtain ⟨fast,cache⟩:=c
 cases cache with
 | none=>
  cases missed
  exact ⟨rfl,by simpa [Caches.items] using other⟩
 | some cache=>
  have list:=cache.openSlot_list
  simp only [searchCache,fetchCache,Bool.false_eq_true,if_false,Option.map_some] at missed
  split at missed
  next none=>
   cases missed
   refine ⟨?_,?_⟩
   · funext n
     simp [Caches.count,Caches.items,list]
   · grind [Caches.items]
  next found=>
   obtain ⟨before,item,after,split,rfl,-⟩:=exists_of_findIdx? found
   grind

theorem searchCaches_acquire (h:searchCaches s object .acquire c=.found data removed c') :
 removed=false ∧ c'.count data≠c.count data := by
 obtain ⟨w,item,rest,width,before,after,-,-,rfl,rfl⟩:=searchCaches_found h
 refine ⟨rfl,?_⟩
 rw [Caches.count,Caches.count,lockCounts_perm before,lockCounts_perm after]
 rcases width with rfl|rfl <;> simp [SyncCacheItem.use,lockCounts_cons] <;> omega

theorem searchCaches_release (h:searchCaches s object .release c=.found data removed c') :
 c'.count data≠c.count data ∧ ∃item∈c.items,s.object item.data=object := by
 obtain ⟨w,item,rest,-,before,after,positive,same,rfl,-⟩:=searchCaches_found h
 refine ⟨?_,item,before.mem_iff.mpr List.mem_cons_self,same⟩
 rw [Caches.count,Caches.count,lockCounts_perm before,lockCounts_perm after]
 simp only [SyncCacheItem.use]
 split <;> simp [lockCounts_cons] <;> omega

theorem save_count (h:c.save data=.ok c') : c'.count data=c.count data+1 := by
 obtain ⟨fast,cache⟩:=c
 cases fast <;> cases cache <;>
  grind [Caches.save,fetchCache,SyncCache.openSlot,Caches.count,Caches.items,lockCounts]

end Counts

section Calls

variable {E:Env} {t:ℕ} {s s':Shared} {l l':Caller} {answers:List Answer}

theorem callId2data_changed {why:Usage} (object:ℕ) (th:Thread)
 (idle:l.thread.point=.idle) (noCheck:why≠.check) (point:th.point=.idle)
 (same:th.caches=l.thread.caches) :
 (l.after (callId2data s th object why).2 s (callId2data s th object why).1).Changed E := by
 rw [Caller.after,idle]
 simp only [←same]
 unfold callId2data
 split
 · simp [Caller.Changed,point]
 next data removed caches found=>
  cases why with
  | acquire=>
   obtain ⟨rfl,count⟩:=searchCaches_acquire found
   exact count
  | release=>
   obtain ⟨count,item,mem,cached⟩:=searchCaches_release found
   cases removed <;> exact ⟨count,fun none=>none item mem cached⟩
  | check=>exact absurd rfl noCheck
 next caches missed=>
  obtain ⟨count,none⟩:=searchCaches_missed missed
  refine ⟨count,?_,none⟩
  funext n
  exact Int.sub_self _

theorem finishId2data_changed {why:Usage} {object:ℕ} {result:Option ℕ} (h:l.Changed E)
 (at_done:l.thread.point=.searched why object result) :
 (l.after (finishId2data t s l.thread why object result).2.1 s
  (finishId2data t s l.thread why object result).1).Changed E := by
 have unchanged:(l.after l.thread s s).Changed E:=by
  cases result <;>
   simpa [Caller.after,Caller.Changed,at_done,Caller.Uncached,Caller.Unlisted] using h
 cases result with
 | none=>
  by_cases acquire : why=.acquire
  · simpa [finishId2data,acquire,Caller.after,at_done] using unchanged
  · simp [finishId2data,acquire,Caller.after,Caller.Changed,at_done]
 | some data=>
  simp only [Caller.Changed,at_done] at h
  rw [finishId2data]
  split
  · simp [Caller.after,Caller.Changed,at_done]
  · split
    · exact unchanged
    · split
      · exact unchanged
      · split
        next caches saved=>
         have count:=save_count saved
         simp [Caller.after,Caller.Changed,at_done,←h.1,count]
        · exact unchanged

theorem bmod_succ_ne (x:ℤ) : (x+1).bmod (2^32)≠x := by
 intro same
 have rest:=@Int.bmod_emod (x+1) (2^32)
 rw [same] at rest
 omega

theorem searchList_changed {why:Usage} {object:ℕ} (h:l.Changed E)
 (at_list:l.thread.point=.searchList why object) :
 (l.after {l.thread with point:=.searched why object (s.searchList E.stripe object why).2} s
  (s.searchList E.stripe object why).1).Changed E := by
 obtain ⟨count,zero,uncached⟩ : l.thread.caches.count=l.caches.count ∧ l.added=0 ∧
  l.Uncached object := by
  simpa [Caller.Changed,at_list] using h
 rw [Caller.after,at_list]
 unfold Shared.searchList
 simp only
 split
 next p found=>
  have same:s.object p=object:=by simpa using List.find?_some found
  refine ⟨congrFun count p,fun _=>⟨?_,fun none=>?_⟩⟩
  · simpa [zero,sub_eq_zero] using bmod_succ_ne (s.threadCount p)
  · exact none p (List.mem_of_find?_eq_some found) same
 next absent=>
  split
  next acquire=>
   split <;> exact ⟨congrFun count _,fun release=>nomatch acquire.symm.trans release⟩
  next=>
   refine ⟨count,?_,uncached,fun n mem=>?_⟩
   · simp [zero]
     rfl
   · simpa using List.find?_eq_none.mp absent n mem

theorem CallStep.changed (h:l.Changed E) (step:CallStep E t s l answers s' l') : l'.Changed E := by
 cases step with
 | tryEnter object idle nonnil=>exact callId2data_changed object _ idle nofun idle rfl
 | exit object idle nonnil=>exact callId2data_changed object _ idle nofun idle rfl
 | refused _ at_lock held=>simp [Caller.after,at_lock,Caller.Changed]
 | step base=>
  cases base with
  | enterNil idle | exitNil idle=>simp [Caller.after,idle,Caller.Changed]
  | enter object idle nonnil=>exact callId2data_changed object _ idle nofun idle rfl
  | exit object idle nonnil entered=>exact callId2data_changed object _ idle nofun idle rfl
  | searchList at_list=>exact searchList_changed h at_list
  | searched at_done=>exact finishId2data_changed h at_done
  | lock at_lock locked=>simp [Caller.after,at_lock,Caller.Changed]
  | decrement at_decrement=>simpa [Caller.after,at_decrement,Caller.Changed,Caller.Uncached] using h
  | tryUnlock at_unlock unlocked=>simp [Caller.after,at_unlock,Caller.Changed]
  | notOwner at_unlock refused=>simp [Caller.after,at_unlock,Caller.Changed]

def callers : Config Shared Caller Answer :=
 ⟨start.shared,fun t=>⟨start.threads t,false,⟨none,none⟩,start.shared,start.shared,fun _=>0⟩,[]⟩

theorem reachable_changed {c:Config Shared Caller Answer}
 (run:Reachable (CallStep E) callers c) (t:ℕ) : (c.threads t).Changed E := by
 have sound:Sound (CallStep E) (fun _ _=>True) fun _ _ _ l=>l.Changed E :=
  ⟨fun _ h step=>⟨trivial,step.changed h⟩,fun _ _ _ h _=>h⟩
 have begun:Holds (fun _ _=>True) (fun _ _ _ l=>l.Changed E) callers :=
  ⟨trivial,fun _=>trivial⟩
 exact (begun.reachable sound run).threads t

end Calls

/-- In every interleaving, a call that fails leaves the counts of its thread's caches, the thread
counts and the mutexes as they were exactly if it is an `objc_sync_exit` of an object that had no
item in the caches when it began, and no node when it searched the list. -/
theorem failed_call_unchanged_iff (E:Env) (c:Config Shared Caller Answer)
 (run:Reachable (CallStep E) callers c) (t:ℕ) (answers:List Answer) (s':Shared)
 (l':Caller) (step:CallStep E t c.shared (c.threads t) answers s' l')
 (a:Answer) (given:a∈answers) (failed:a.failed=true) :
 (l'.thread.caches.count=l'.caches.count ∧ l'.added=0 ∧ s'.mutex=c.shared.mutex) ↔
  ∃object,a=.event (.exited t object false) ∧ l'.Uncached object ∧ l'.Unlisted E object := by
 have changed:=reachable_changed run t
 generalize c.threads t=l at *
 cases step with
 | tryEnter object idle nonnil | exit object idle nonnil=>cases given
 | @refused _ _ _ _ data _ at_lock held=>
  rw [Caller.Changed,at_lock] at changed
  rw [Caller.after,at_lock]
  obtain rfl:=List.mem_singleton.mp given
  exact iff_of_false (fun h=>changed (congrFun h.1 data)) (by simp)
 | step base=>
  cases base with
  | @searched _ _ _ why object result at_done=>
   rw [Caller.Changed,at_done] at changed
   rw [Caller.after,at_done]
   cases result with
   | none=>
    obtain ⟨count,zero,uncached,unlisted⟩:=changed
    cases why with
    | acquire=>cases given
    | release | check=>
     obtain rfl:=List.mem_singleton.mp given
     refine iff_of_true ⟨count,?_,rfl⟩ ⟨object,rfl,uncached,unlisted⟩
     funext n
     simp [finishId2data,zero]
   | some data=>
    cases why with
    | acquire=>grind [finishId2data,Answer.failed]
    | release=>
     obtain ⟨added,listed⟩:=changed.2 rfl
     obtain rfl:=List.mem_singleton.mp given
     refine iff_of_false (fun h=>added ?_) ?_
     · simpa [finishId2data] using congrFun h.2.1 data
     · rintro ⟨_,⟨⟩,-,unlisted⟩
       exact listed unlisted
    | check=>simp [finishId2data] at given
  | @notOwner _ _ _ _ data at_unlock refused=>
   rw [Caller.Changed,at_unlock] at changed
   rw [Caller.after,at_unlock]
   obtain rfl:=List.mem_singleton.mp given
   refine iff_of_false (fun h=>changed.1 (congrFun h.1 data)) ?_
   rintro ⟨_,⟨⟩,uncached,-⟩
   exact changed.2 uncached
  | _=>grind [Answer.failed]

/-- Thread 0 is inside object 7, and thread 1 exits object 9. -/
theorem unknown_exit_unchanged : ∃c answers s' l',Reachable (CallStep anyEnter) callers c ∧
  (c.threads 0).thread.inside 7=1 ∧
  CallStep anyEnter 1 c.shared (c.threads 1) answers s' l' ∧
  answers=[.event (.exited 1 9 false)] ∧ l'.thread.caches.count=l'.caches.count ∧ l'.added=0 := by
 have enter:ThreadRun (CallStep anyEnter) 0 callers.shared (callers.threads 0) _ _ _ :=
  .cons (.step (.enter 7 rfl (by decide) trivial)) <| .cons (.step (.searchList rfl)) <|
  .cons (.step (.searched rfl)) <| .cons (.step (.lock rfl rfl)) <| .nil _ _
 have exit:ThreadRun (CallStep anyEnter) 1 sevenEntered (callers.threads 1) _ _ _ :=
  .cons (.exit 9 rfl (by decide)) <| .cons (.step (.searchList rfl)) <| .nil _ _
 have reached:=(enter.reachable rfl rfl).trans (exit.reachable rfl rfl)
 obtain ⟨counts,added,-⟩ :=
  (failed_call_unchanged_iff anyEnter _ reached 1 _ _ _ (.step (.searched rfl)) _ (.head _) rfl).mpr
   ⟨9,rfl,nofun,nofun⟩
 exact ⟨_,_,_,_,reached,rfl,.step (.searched rfl),rfl,counts,added⟩

/-- While thread 0 is inside object 7, thread 1 does not get in and thread 2 is not the owner; the
node then counts three threads, and thread 1 has it in its cache. -/
theorem failed_calls_leave_counts : ∃c,Reachable (CallStep anyEnter) callers c ∧
  c.trace=[.event (.entered 0 7),.refused 1 7,.event (.exited 2 7 false)] ∧
  (c.threads 1).caches.count 0=0 ∧ (c.threads 1).thread.caches.count 0=1 ∧
  (c.threads 2).added 0=1 ∧ c.shared.threadCount 0=3 := by
 have enter:ThreadRun (CallStep anyEnter) 0 callers.shared (callers.threads 0) _ _ _ :=
  .cons (.step (.enter 7 rfl (by decide) trivial)) <| .cons (.step (.searchList rfl)) <|
  .cons (.step (.searched rfl)) <| .cons (.step (.lock rfl rfl)) <| .nil _ _
 have tryEnter:ThreadRun (CallStep anyEnter) 1 sevenEntered (callers.threads 1) _ _ _ :=
  .cons (.tryEnter 7 rfl (by decide)) <| .cons (.step (.searchList rfl)) <|
  .cons (.step (.searched rfl)) <| .cons (.refused rfl rfl rfl) <| .nil _ _
 have exit:ThreadRun (CallStep anyEnter) 2
  {sevenEntered with threadCount:=update sevenEntered.threadCount 0 2}
  (callers.threads 2) _ _ _ :=
  .cons (.exit 7 rfl (by decide)) <| .cons (.step (.searchList rfl)) <|
  .cons (.step (.searched rfl)) <| .nil _ _
 exact ⟨_,((enter.reachable rfl rfl).trans (tryEnter.reachable rfl rfl)).trans
  (exit.reachable rfl rfl),rfl,rfl,rfl,rfl,rfl⟩

end ObjcRuntime.SyncData
