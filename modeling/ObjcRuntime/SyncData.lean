import Mathlib
import ObjcRuntime.Interleaving
import ObjcRuntime.RecursiveMutex

/-!
`@synchronized`: the `SyncData` nodes of `objc-sync.mm` and the two caches in which a thread keeps
the nodes it has locked. Nodes and objects are named by numbers (`nil` is `0`). Counters wrap as
their types do.
-/

set_option autoImplicit false
namespace ObjcRuntime.SyncData

open Interleaving
open Function

inductive Usage
 | acquire
 | release
 | check
 deriving DecidableEq,Repr

/-- The three calls of `_objc_fatal` in `id2data`, and a write through a null pointer or
outside the cache's slots. -/
inductive Fault
 | fastcacheIsBuggy
 | cacheIsBuggy
 | id2dataIsBuggy
 | badWrite
 deriving DecidableEq,Repr

structure SyncCacheItem where
 data : ℕ
 lockCount : ℕ
 deriving DecidableEq,Repr

/-- The slots in use; `allocated` is how many there is room for. -/
structure SyncCache where
 allocated : ℕ
 list : List SyncCacheItem
 deriving DecidableEq,Repr

/-- The fast cache (`syncData` with `syncLockCount`) and the cache in the thread's own data. -/
structure Caches where
 fast : Option SyncCacheItem
 cache : Option SyncCache
 deriving DecidableEq,Repr

structure Shared where
 object : ℕ → ℕ
 threadCount : ℕ → ℤ
 mutex : ℕ → Option RecursiveMutex.Hold
 list : ℕ → List ℕ
 allocated : ℕ
 fault : Option Fault

def SyncCache.openSlot (c:SyncCache) : SyncCache :=
 if c.allocated=c.list.length then {c with allocated:=c.allocated*2%2^32} else c

def fetchCache (create:Bool) (c:Option SyncCache) : Option SyncCache :=
 (if create then some (c.getD ⟨4,[]⟩) else c).map SyncCache.openSlot

/-- What `switch (why)` leaves of a cached item, whose count has `w` bits. -/
def SyncCacheItem.use (w:ℕ) (why:Usage) (item:SyncCacheItem) : Option SyncCacheItem :=
 match why with
 | .acquire=>some {item with lockCount:=(item.lockCount+1)%2^w}
 | .release=>
  if item.lockCount-1=0 then none else some {item with lockCount:=item.lockCount-1}
 | .check=>some item

def removeSlot {α:Type} (l:List α) (i:ℕ) : List α :=
 match l.getLast? with
 | none=>l
 | some last=>(l.set i last).dropLast

inductive CacheResult
 | fatal (fault:Fault)
 /-- The node of the object, and whether its item went out of the cache. -/
 | found (data:ℕ) (removed:Bool) (caches:Caches)
 | missed (caches:Caches)

section Search

variable (s:Shared) (object:ℕ) (why:Usage)

def SyncCacheItem.isBuggy (item:SyncCacheItem) : Bool :=
 s.threadCount item.data≤0 || item.lockCount≤0

def useSlot (cache:SyncCache) (i:ℕ) (item:SyncCacheItem) : SyncCache :=
 match item.use 32 why with
 | some used=>{cache with list:=cache.list.set i used}
 | none=>{cache with list:=removeSlot cache.list i}

def searchCache (c:Caches) : CacheResult :=
 match fetchCache false c.cache with
 | none=>.missed c
 | some cache=>
  match cache.list.findIdx? (fun item=>s.object item.data=object) with
  | none=>.missed {c with cache:=some cache}
  | some i=>
   match cache.list[i]? with
   | none=>.missed {c with cache:=some cache}
   | some item=>
    if item.isBuggy s then .fatal .cacheIsBuggy
    else .found item.data (item.use 32 why).isNone
     {c with cache:=some (useSlot why cache i item)}

def searchCaches (c:Caches) : CacheResult :=
 match c.fast with
 | some item=>
  if s.object item.data=object then
   if item.isBuggy s then .fatal .fastcacheIsBuggy
   else .found item.data (item.use 64 why).isNone {c with fast:=item.use 64 why}
  else searchCache s object why c
 | none=>searchCache s object why c

end Search

/-- The part of `id2data` under the list's spinlock. -/
def Shared.searchList (stripe:ℕ → ℕ) (s:Shared) (object:ℕ) (why:Usage) : Shared × Option ℕ :=
 let nodes:=s.list (stripe object)
 match nodes.find? (fun p=>s.object p=object) with
 | some p=>
  ({s with threadCount:=update s.threadCount p ((s.threadCount p+1).bmod (2^32))},some p)
 | none=>
  if why=.acquire then
   match nodes.find? (fun p=>s.threadCount p=0) with
   | some firstUnused=>
    ({ s with
     object := update s.object firstUnused object
     threadCount := update s.threadCount firstUnused 1 },some firstUnused)
   | none=>
    ({ s with
     object := update s.object s.allocated object
     threadCount := update s.threadCount s.allocated 1
     mutex := update s.mutex s.allocated none
     list := update s.list (stripe object) (s.allocated::nodes)
     allocated := s.allocated+1 },some s.allocated)
  else (s,none)

def Caches.save (c:Caches) (data:ℕ) : Except Fault Caches :=
 match c.fast with
 | none=>.ok {c with fast:=some ⟨data,1⟩}
 | some _=>
  match if c.cache.isNone then fetchCache true c.cache else c.cache with
  | none=>.error .badWrite
  | some cache=>
   if cache.list.length < cache.allocated then
    .ok { c with cache := some {cache with list:=cache.list++[⟨data,1⟩]} }
   else .error .badWrite

/-- Where a thread stands in `objc_sync_enter` or `objc_sync_exit`. -/
inductive Point
 | idle
 /-- The caches have no item for the object; the list is next. -/
 | searchList (why:Usage) (object:ℕ)
 | searched (why:Usage) (object:ℕ) (result:Option ℕ)
 | lock (object data:ℕ)
 /-- The item is out of the cache; `AtomicDecrement` is next. -/
 | decrement (object data:ℕ)
 | tryUnlock (object data:ℕ)
 deriving DecidableEq,Repr

structure Thread where
 caches : Caches
 point : Point
 /-- For each object, the enters that returned and that no exit was called for yet. -/
 inside : ℕ → ℕ

def Thread.leave (th:Thread) (object:ℕ) : Thread :=
 {th with inside:=update th.inside object (th.inside object-1)}

inductive Event
 | entered (t object:ℕ)
 /-- `objc_sync_exit` returns; with `OBJC_SYNC_SUCCESS` or not. -/
 | exited (t object:ℕ) (success:Bool)
 deriving DecidableEq,Repr

def Point.ofUsage (why:Usage) (object data:ℕ) : Point :=
 match why with
 | .acquire=>.lock object data
 | .release=>.tryUnlock object data
 | .check=>.idle

/-- `id2data` up to the first step that other threads can see. -/
def callId2data (s:Shared) (th:Thread) (object:ℕ) (why:Usage) : Shared × Thread :=
 match searchCaches s object why th.caches with
 | .fatal fault=>({s with fault:=some fault},th)
 | .found data removed caches=>
  (s,{ th with
        caches := caches
        point := if removed then .decrement object data else .ofUsage why object data })
 | .missed caches=>(s,{th with caches:=caches,point:=.searchList why object})

/-- `id2data` after `done`, and the return of `objc_sync_exit` if there is no node. -/
def finishId2data (t:ℕ) (s:Shared) (th:Thread) (why:Usage) (object:ℕ) :
 Option ℕ → Shared × Thread × List Event
 | none=>
  -- `objc_sync_enter` would use the mutex of a null node
  if why=.acquire then ({s with fault:=some .badWrite},th,[])
  else (s,{th with point:=.idle},[.exited t object false])
 | some data=>
  if why=.release then (s,{th with point:=.idle},[.exited t object false])
  else if why≠.acquire then ({s with fault:=some .id2dataIsBuggy},th,[])
  else if s.object data≠object then ({s with fault:=some .id2dataIsBuggy},th,[])
  else
   match th.caches.save data with
   | .ok caches=>(s,{th with caches:=caches,point:=.lock object data},[])
   | .error fault=>({s with fault:=some fault},th,[])

structure Env where
 stripe : ℕ → ℕ
 /-- Which threads call `objc_sync_enter`, and when. -/
 enters : ℕ → Thread → ℕ → Prop

/-- The steps of a thread. It calls `objc_sync_exit` only for an enter of its own that returned
before; the list section, every update of `threadCount` and every use of a mutex is one step. -/
inductive ThreadStep (E:Env) : Interleaving.ThreadStep Shared Thread Event
 | enterNil {th:Thread} {t s} (idle:th.point=.idle) : ThreadStep E t s th [] s th
 | exitNil {th:Thread} {t s} (idle:th.point=.idle) :
  ThreadStep E t s th [.exited t 0 true] s th
 | enter {th:Thread} {t s} (object:ℕ) (idle:th.point=.idle)
  (nonnil:object≠0) (enters:E.enters t th object) :
  ThreadStep E t s th [] (callId2data s th object .acquire).1
   (callId2data s th object .acquire).2
 | exit {th:Thread} {t s} (object:ℕ) (idle:th.point=.idle)
  (nonnil:object≠0) (entered:0 < th.inside object) :
  ThreadStep E t s th [] (callId2data s (th.leave object) object .release).1
   (callId2data s (th.leave object) object .release).2
 | searchList {s:Shared} {th:Thread} {t why object}
  (at_list:th.point=.searchList why object) :
  ThreadStep E t s th [] (s.searchList E.stripe object why).1
   {th with point:=.searched why object (s.searchList E.stripe object why).2}
 | searched {th:Thread} {t s why object result}
  (at_done:th.point=.searched why object result) :
  ThreadStep E t s th (finishId2data t s th why object result).2.2
   (finishId2data t s th why object result).1 (finishId2data t s th why object result).2.1
 | lock {s:Shared} {th:Thread} {t object data mutex} (at_lock:th.point=.lock object data)
  (locked:RecursiveMutex.lock t (s.mutex data)=some mutex) :
  ThreadStep E t s th [.entered t object]
   {s with mutex:=update s.mutex data mutex}
   { th with
     point := .idle
     inside := update th.inside object (th.inside object+1) }
 | decrement {s:Shared} {th:Thread} {t object data}
  (at_decrement:th.point=.decrement object data) :
  ThreadStep E t s th []
   {s with threadCount:=update s.threadCount data ((s.threadCount data-1).bmod (2^32))}
   {th with point:=.tryUnlock object data}
 | tryUnlock {s:Shared} {th:Thread} {t object data mutex}
  (at_unlock:th.point=.tryUnlock object data)
  (unlocked:RecursiveMutex.tryUnlock t (s.mutex data)=some mutex) :
  ThreadStep E t s th [.exited t object true]
   {s with mutex:=update s.mutex data mutex} {th with point:=.idle}
 | notOwner {s:Shared} {th:Thread} {t object data}
  (at_unlock:th.point=.tryUnlock object data)
  (refused:RecursiveMutex.tryUnlock t (s.mutex data)=none) :
  ThreadStep E t s th [.exited t object false] s {th with point:=.idle}

def start : Config Shared Thread Event where
 shared := ⟨fun _=>0,fun _=>0,fun _=>none,fun _=>[],0,none⟩
 threads := fun _=>⟨⟨none,none⟩,.idle,fun _=>0⟩
 trace := []

def anyEnter : Env := ⟨id,fun _ _ _=>True⟩

def sevenEntered : Shared where
 object := update (fun _=>0) 0 7
 threadCount := update (fun _=>0) 0 1
 mutex := update (update (fun _=>none) 0 none) 0 (some ⟨0,0⟩)
 list := update (fun _=>[]) 7 [0]
 allocated := 1
 fault := none

end ObjcRuntime.SyncData
