import ObjcRuntime.WeakTable
import ObjcRuntime.UncontendedCalls

/-!
# Weak variables

A section under side table locks is one step, as is every read of a variable outside a lock. An
object is its reference count, its `weakly_referenced` bit and how far its deallocation has come.
Classes with custom retain and release answer the weak hooks as they like, but not yes for an
object that is deallocating. A call inside another one is run as a thread of its own.
-/
set_option autoImplicit false
namespace ObjcRuntime.WeakReferences
open ProbeTable WeakEntry WeakTable AtomicPrograms
open Function

inductive Phase where
 | live | deallocating | cleared
 deriving DecidableEq

structure Obj where
 phase : Phase
 refs : ℕ
 weak : Bool
 deriving DecidableEq

def Obj.retain (o:Obj) : Obj := {o with refs:=o.refs+1}

def Obj.release (o:Obj) : Obj :=
 { o with
   refs := o.refs-1
   phase := if o.refs-1=0 then .deallocating else o.phase }

/-- A location is a weak variable from the end of its initialization to the end of its
    destruction. -/
inductive Status where
 | uninit | initializing | live | destroying
 deriving DecidableEq

def Status.isWeak : Status → Bool
 | .live | .destroying=>true
 | _=>false

structure Env where
 isTagged : Ptr → Bool
 sideTable : Ptr → ℕ
 getIsa : Ptr → ℕ
 hasCustomRR : Ptr → Bool

def Env.Real (E:Env) (obj:Ptr) : Prop := obj≠0 ∧ E.isTagged obj=false

instance (E:Env) (obj:Ptr) : Decidable (E.Real obj) := inferInstanceAs (Decidable (_ ∧ _))

structure Heap where
 mem : Ptr → Ptr
 status : Ptr → Status
 tables : ℕ → Table Entry
 objs : Ptr → Obj

/-- What follows a call: nothing, or the `objc_release` of `objc_copyWeak`. -/
inductive After where
 | done
 | release (obj:Ptr)
 deriving DecidableEq

structure Store where
 haveOld : Bool
 haveNew : Bool
 crashIfDeallocating : Bool
 location : Ptr
 newObj : Ptr
 previouslyInitializedClass : Option ℕ
 after : After
 deriving DecidableEq

inductive LoadAfter where
 | done
 | copyTo (dst:Ptr)
 deriving DecidableEq

inductive Pc where
 | storeRetry (s:Store)
 | storeLock (s:Store) (oldObj:Ptr)
 | storeInitialize (s:Store)
 | storeCallout (s:Store) (result:Ptr)
 | initNil (location:Ptr) (after:After)
 | loadRetry (location:Ptr) (k:LoadAfter)
 | loadLock (location obj:Ptr) (k:LoadAfter)
 | loadInitialize (location obj:Ptr) (k:LoadAfter)
 | loadReturn (result:Ptr) (k:LoadAfter)
 | moveRetry (dst src:Ptr)
 | moveLock (dst src obj:Ptr)
 | release (obj:Ptr)
 | clearDeallocating (obj:Ptr)
 | clearDeallocatingSlow (obj:Ptr)
 deriving DecidableEq

/-- `owned` counts the references that the program itself holds. -/
structure Config (T:Type) where
 heap : Heap
 owned : Ptr → ℕ
 isInitialized : ℕ → Bool
 pc : T → Option Pc

variable (E:Env)

def Heap.setTable (h:Heap) (obj:Ptr) (t:Table Entry) : Heap :=
 {h with tables:=update h.tables (E.sideTable obj) t}

def Heap.write (h:Heap) (location value:Ptr) : Heap :=
 {h with mem:=update h.mem location value}

def Heap.setStatus (h:Heap) (location:Ptr) (s:Status) : Heap :=
 {h with status:=update h.status location s}

def Heap.setObj (h:Heap) (obj:Ptr) (o:Obj) : Heap :=
 {h with objs:=update h.objs obj o}

def Heap.unregister (h:Heap) (obj location:Ptr) : Option Heap :=
 (weakUnregisterNoLock (h.tables (E.sideTable obj)) obj location).map fun x=>h.setTable E obj x.1

/-- Returns the value that `weak_register_no_lock` lets the caller store. -/
def Heap.register (h:Heap) (addr obj location:Ptr) (options:DeallocatingOptions)
 (viability:Viability) : Option (Ptr × Heap) :=
 (weakRegisterNoLock E.isTagged (h.tables (E.sideTable obj)) addr obj location options
  viability).map
  fun x=>(x.1,h.setTable E obj x.2)

def Heap.setWeaklyReferenced (h:Heap) (obj:Ptr) : Heap :=
 if E.Real obj then h.setObj obj {h.objs obj with weak:=true} else h

def storeSection (h:Heap) (s:Store) (oldObj addr:Ptr) (viability:Viability) : Option (Ptr × Heap) :=
 (if s.haveOld then h.unregister E oldObj s.location else some h).bind fun h =>
  if s.haveNew then
   (h.register E addr s.newObj s.location
    (if s.crashIfDeallocating then .crashIfDeallocating else .returnNilIfDeallocating)
    viability).map fun x =>
     (x.1,((x.2.setWeaklyReferenced E x.1).write s.location x.1).setStatus s.location .live)
  else some (0,h.setStatus s.location .uninit)

def moveSection (h:Heap) (dst src obj addr:Ptr) : Option Heap :=
 (h.unregister E obj src).bind fun h =>
  (h.register E addr obj dst .dontCheckDeallocating .viable).map fun x =>
   ((x.2.write dst obj).write src 0).setStatus dst .live

/-- The locked section of `clearDeallocating_slow` and `sidetable_clearDeallocating`. -/
def clearSection (h:Heap) (obj:Ptr) : Option Heap :=
 if (h.objs obj).weak then
  (weakClearNoLock (h.tables (E.sideTable obj)) h.mem obj).map fun x =>
   {h.setTable E obj x.1 with mem:=x.2}
 else some h

/-- The answers that `weak_register_no_lock` may get about `obj`. -/
def Honest (h:Heap) (obj:Ptr) (v:Viability) : Prop :=
 if E.hasCustomRR obj then v=.viable → (h.objs obj).phase=.live
 else v=if (h.objs obj).phase=.live then .viable else .deallocating

/-- The answers of `rootTryRetain`, or of `retainWeakReference`. -/
def MayRetain (h:Heap) (obj:Ptr) (b:Bool) : Prop :=
 if E.hasCustomRR obj then b=true → (h.objs obj).phase=.live
 else b=decide ((h.objs obj).phase=.live)

def Heap.retain (h:Heap) (obj:Ptr) : Heap := h.setObj obj (h.objs obj).retain

def Heap.release (h:Heap) (obj:Ptr) : Heap × Bool :=
 (h.setObj obj (h.objs obj).release,(h.objs obj).refs-1=0)

/-- Weak variables that the call uses together with other threads. -/
def Pc.uses : Pc → List Ptr
 | .storeRetry s | .storeLock s _ | .storeInitialize s=>
  if s.haveOld && s.haveNew then [s.location] else []
 | .loadRetry location _ | .loadLock location _ _ | .loadInitialize location _ _=>[location]
 | .moveRetry _ src | .moveLock _ src _=>[src]
 | _=>[]

variable {T:Type} [DecidableEq T]

def Config.goto (c:Config T) (t:T) (pc:Option Pc) (h:Heap) : Config T :=
 {c with heap:=h,pc:=update c.pc t pc}

def Config.own (c:Config T) (obj:Ptr) (n:ℕ) : Config T :=
 {c with owned:=update c.owned obj n}

def After.next : After → Option Pc
 | .done=>none
 | .release obj=>some (.release obj)

def initWeak (location newObj:Ptr) (crash:Bool) (after:After) : Pc :=
 if newObj=0 then .initNil location after
 else .storeRetry ⟨false,true,crash,location,newObj,none,after⟩

def NeedsInitialize (c:Config T) (s:Store) : Prop :=
 s.haveNew=true ∧ s.newObj≠0 ∧ some (E.getIsa s.newObj)≠s.previouslyInitializedClass ∧
  c.isInitialized (E.getIsa s.newObj)=false

instance (c:Config T) (s:Store) : Decidable (NeedsInitialize E c s) :=
 inferInstanceAs (Decidable (_ ∧ _))

inductive Step (t:T) (c:Config T) : Config T → Prop where
 -- objc_storeWeak, objc_storeWeakOrNil
 | storeWeak (location newObj crash) (idle:c.pc t=none) (live:c.heap.status location=.live) :
  Step t c (c.goto t (some (.storeRetry ⟨true,true,crash,location,newObj,none,.done⟩)) c.heap)
 | initWeak (location newObj crash) (idle:c.pc t=none) (fresh:c.heap.status location=.uninit)
  (aligned:Aligned location) :
  Step t c (c.goto t (some (WeakReferences.initWeak location newObj crash .done))
   (c.heap.setStatus location .initializing))
 | destroyWeak (location) (idle:c.pc t=none) (live:c.heap.status location=.live)
  (unused:∀u p,c.pc u=some p → location∉p.uses) :
  Step t c (c.goto t (some (.storeRetry ⟨true,false,false,location,0,none,.done⟩))
   (c.heap.setStatus location .destroying))
 | loadWeakRetained (location) (idle:c.pc t=none) (live:c.heap.status location=.live) :
  Step t c (c.goto t (some (.loadRetry location .done)) c.heap)
 | copyWeak (dst src) (idle:c.pc t=none) (live:c.heap.status src=.live)
  (fresh:c.heap.status dst=.uninit) (aligned:Aligned dst) :
  Step t c (c.goto t (some (.loadRetry src (.copyTo dst))) (c.heap.setStatus dst .initializing))
 | moveWeak (dst src) (idle:c.pc t=none) (live:c.heap.status src=.live)
  (fresh:c.heap.status dst=.uninit) (aligned:Aligned dst) :
  Step t c (c.goto t (some (.moveRetry dst src)) (c.heap.setStatus dst .initializing))
 -- what the program does with its references and with memory that holds no weak variable
 | retain (obj) (idle:c.pc t=none) (real:E.Real obj) (owned:0 < c.owned obj) :
  Step t c ((c.goto t none (c.heap.retain obj)).own obj (c.owned obj+1))
 | release (obj) (idle:c.pc t=none) (owned:0 < c.owned obj) :
  Step t c ((c.goto t (some (.release obj)) c.heap).own obj (c.owned obj-1))
 | alloc (obj) (idle:c.pc t=none) (real:E.Real obj) (gone:(c.heap.objs obj).phase=.cleared) :
  Step t c ((c.goto t none (c.heap.setObj obj ⟨.live,1,false⟩)).own obj (c.owned obj+1))
 | assign (location value) (idle:c.pc t=none) (plain:c.heap.status location=.uninit) :
  Step t c (c.goto t none (c.heap.write location value))
 -- storeWeak
 | storeRead {s:Store} (pc:c.pc t=some (.storeRetry s)) :
  Step t c (c.goto t (some (.storeLock s (if s.haveOld then c.heap.mem s.location else 0))) c.heap)
 | storeChanged {s:Store} {oldObj:Ptr} (pc:c.pc t=some (.storeLock s oldObj))
  (changed:s.haveOld=true ∧ c.heap.mem s.location≠oldObj) :
  Step t c (c.goto t (some (.storeRetry s)) c.heap)
 | storeUninitialized {s:Store} {oldObj:Ptr} (pc:c.pc t=some (.storeLock s oldObj))
  (same:s.haveOld=true → c.heap.mem s.location=oldObj) (needs:NeedsInitialize E c s) :
  Step t c (c.goto t (some (.storeInitialize s)) c.heap)
 | storeInitialized {s:Store} (pc:c.pc t=some (.storeInitialize s)) (isInitialized) :
  Step t c { c.goto t (some (.storeRetry { s with
   previouslyInitializedClass := some (E.getIsa s.newObj) })) c.heap with
    isInitialized := isInitialized }
 | storeCommit {s:Store} {oldObj result:Ptr} {h} (addr:Ptr) (viability:Viability)
  (pc:c.pc t=some (.storeLock s oldObj)) (same:s.haveOld=true → c.heap.mem s.location=oldObj)
  (ready:¬ NeedsInitialize E c s) (allocated:addr≠0)
  (valid:E.Real s.newObj → (c.heap.objs s.newObj).phase≠.cleared)
  (honest:Honest E c.heap s.newObj viability)
  (ran:storeSection E c.heap s oldObj addr viability=some (result,h)) :
  Step t c (c.goto t (some (.storeCallout s result)) h)
 | storeReturn {s:Store} {result:Ptr} (pc:c.pc t=some (.storeCallout s result)) :
  Step t c (c.goto t s.after.next c.heap)
 | initNil {location} {after:After} (pc:c.pc t=some (.initNil location after)) :
  Step t c (c.goto t after.next ((c.heap.write location 0).setStatus location .live))
 -- objc_loadWeakRetained
 | loadRead {location k} (pc:c.pc t=some (.loadRetry location k)) :
  Step t c (c.goto t (some (if E.Real (c.heap.mem location)
   then .loadLock location (c.heap.mem location) k
   else .loadReturn (c.heap.mem location) k)) c.heap)
 | loadChanged {location obj:Ptr} {k} (pc:c.pc t=some (.loadLock location obj k))
  (changed:c.heap.mem location≠obj) :
  Step t c (c.goto t (some (.loadRetry location k)) c.heap)
 | loadUninitialized {location obj k} (pc:c.pc t=some (.loadLock location obj k))
  (same:c.heap.mem location=obj) (custom:E.hasCustomRR obj=true)
  (needs:c.isInitialized (E.getIsa obj)=false) :
  Step t c (c.goto t (some (.loadInitialize location obj k)) c.heap)
 | loadInitialized {location obj:Ptr} {k} (pc:c.pc t=some (.loadInitialize location obj k))
  (isInitialized) :
  Step t c {c.goto t (some (.loadRetry location k)) c.heap with isInitialized:=isInitialized}
 -- A class that this thread is initializing need not be initialized.
 | loadCommit {location obj:Ptr} {k} (retained) (pc:c.pc t=some (.loadLock location obj k))
  (same:c.heap.mem location=obj) (may:MayRetain E c.heap obj retained) :
  Step t c (c.goto t (some (.loadReturn (if retained then obj else 0) k))
   (if retained then c.heap.retain obj else c.heap))
 | loadDone {result} (pc:c.pc t=some (.loadReturn result .done)) :
  Step t c ((c.goto t none c.heap).own result (c.owned result+1))
 | copyInit {result dst} (pc:c.pc t=some (.loadReturn result (.copyTo dst))) :
  Step t c (c.goto t (some (WeakReferences.initWeak dst result true (.release result))) c.heap)
 -- objc_moveWeak
 | moveRead {dst src} (pc:c.pc t=some (.moveRetry dst src)) :
  Step t c (c.goto t (some (if c.heap.mem src=0 then .initNil dst .done
   else .moveLock dst src (c.heap.mem src))) c.heap)
 | moveChanged {dst src obj:Ptr} (pc:c.pc t=some (.moveLock dst src obj))
  (changed:c.heap.mem src≠obj) :
  Step t c (c.goto t (some (.moveRetry dst src)) c.heap)
 | moveCommit {dst src obj:Ptr} {h} (addr:Ptr) (pc:c.pc t=some (.moveLock dst src obj))
  (same:c.heap.mem src=obj) (allocated:addr≠0)
  (ran:moveSection E c.heap dst src obj addr=some h) :
  Step t c (c.goto t none h)
 -- objc_release, and the deallocation it may start
 | released {obj:Ptr} (pc:c.pc t=some (.release obj)) (unreal:¬ E.Real obj) :
  Step t c (c.goto t none c.heap)
 | rootRelease {obj} (pc:c.pc t=some (.release obj)) (real:E.Real obj) :
  Step t c (c.goto t (if (c.heap.release obj).2 then some (.clearDeallocating obj) else none)
   (c.heap.release obj).1)
 -- An object that was never weakly referenced may skip the locked section.
 | clearFast {obj} (pc:c.pc t=some (.clearDeallocating obj))
  (never:(c.heap.objs obj).weak=false) :
  Step t c (c.goto t none (c.heap.setObj obj {c.heap.objs obj with phase:=.cleared}))
 | clearSlow {obj} (pc:c.pc t=some (.clearDeallocating obj)) :
  Step t c (c.goto t (some (.clearDeallocatingSlow obj)) c.heap)
 | clearCommit {obj} {h:Heap} (pc:c.pc t=some (.clearDeallocatingSlow obj))
  (ran:clearSection E c.heap obj=some h) :
  Step t c (c.goto t none (h.setObj obj {h.objs obj with phase:=.cleared}))

/-- No weak variable yet, and every reference is the program's own. -/
structure Initial (c:Config T) : Prop where
 idle : ∀t,c.pc t=none
 uninit : ∀location,c.heap.status location=.uninit
 tables : ∀i,c.heap.tables i=emptyWeakTable
 refs : ∀obj,E.Real obj → (c.heap.objs obj).refs=c.owned obj
 phase : ∀obj,E.Real obj → (c.heap.objs obj).phase=if c.owned obj=0 then .cleared else .live

def Reachable (c:Config T) : Prop :=
 ∃c₀,Initial E c₀ ∧ Relation.ReflTransGen (fun a b=>∃t,Step E t a b) c₀ c

section Represents
open Isa SideTable RetainRelease RetainThreads RetainInvariant UncontendedCalls

variable {L:Layout} {info:Class L → ClassInfo} {o:Object L} {a:Obj}

/-- An isa word and a side table entry hold what the model knows about the object. -/
structure Represents (o:Object L) (a:Obj) : Prop where
 steady : Steady o
 refs : total o=a.refs
 weak : o.isa.weaklyReferenced=a.weak
 phase : a.phase=.live ↔ 0 < a.refs

theorem Represents.deallocating_iff (h:Represents o a) :
 o.isa.isDeallocating=true ↔ a.phase≠.live := by
 rw [h.steady.deallocating_iff,h.refs,Ne,h.phase]
 omega

theorem retained_weaklyReferenced (o:Object L) :
 (retained o).isa.weaklyReferenced=o.isa.weaklyReferenced := by
 change (retainNewisa o.isa).weaklyReferenced=_
 cases hc : (o.isa.addRC 1).2 with
 | false=>
  rw [(retainNewisa_plain o.isa hc).1]
  rfl
 | true=>
  rw [(retainNewisa_carry o.isa hc).1]
  rfl

theorem Represents.callRetain (h:Represents o a) (hroom:count o.entry < saturation) (b:Bool) :
 ∃r o',UncontendedCalls.callRetain info b o=some (r,o') ∧ (r=.retained ↔ a.phase=.live) ∧
  Represents o' (if a.phase=.live then a.retain else a) := by
 rw [callRetain_nonpointer b o h.steady.nonpointer]
 have hdead:=h.deallocating_iff
 by_cases hlive : a.phase=.live
 · have hno:o.isa.isDeallocating=false:=by grind
   obtain ⟨hsteady,-,htotal,-⟩:=h.steady.retained
   refine ⟨.retained,retained o,by rw [hno]; rfl,by simp [hlive],?_⟩
   rw [if_pos hlive]
   refine ⟨hsteady,?_,(retained_weaklyReferenced o).trans h.weak,?_⟩
   · rw [htotal hroom,h.refs]
     rfl
   · simp [Obj.retain,hlive]
 · grind

theorem Represents.callRelease (h:Represents o a) (hlive:a.phase=.live) :
 ∃r o',UncontendedCalls.callRelease info o=some (r,o') ∧
  (r=.dealloc ↔ a.refs-1=0) ∧ Represents o' a.release := by
 have hpos:=h.phase.mp hlive
 have hrefs:=h.refs
 have hno:o.isa.isDeallocating=false:=by grind [h.deallocating_iff]
 have hphase:a.release.phase=.live ↔ 0 < a.release.refs:=by grind [Obj.release]
 by_cases he : o.isa.extraRc.val=0
 · have hs:o.isa.hasSidetableRc=true:=by grind [isDeallocating_iff]
   obtain ⟨hb,hsteady,-,hcount,htotal⟩:=h.steady.borrowed he hs
   have hside:=L.rcHalf_bounds
   have hmany:1 < total o:=by
    rw [total]
    omega
   refine ⟨.released,borrowed o,callRelease_borrow o h.steady.nonpointer he hs hb,?_,hsteady,
    ?_,h.weak,hphase⟩
   · grind
   · change _=a.refs-1
     omega
 · obtain ⟨hsteady,-,htotal⟩:=h.steady.released he
   refine ⟨_,_,callRelease_inline o h.steady.nonpointer he,?_,hsteady,?_,?_,hphase⟩
   · have hz:=hsteady.deallocating_iff
     grind
   · change _=a.refs-1
     omega
   · change o.isa.subRC.1.weaklyReferenced=_
     rw [subRC_eq]
     exact h.weak

theorem Represents.callSetWeaklyReferenced (h:Represents o a) :
 ∃o',UncontendedCalls.callSetWeaklyReferenced o=some o' ∧
  Represents o' {a with weak:=true} := by
 refine ⟨_,callSetWeaklyReferenced_nonpointer o h.steady.nonpointer,?_,h.refs,rfl,h.phase⟩
 exact ⟨h.steady.nonpointer,h.steady.flags,h.steady.dvd,h.steady.le,h.steady.side⟩

def Obj.call (a:Obj) : UncontendedCalls.Op → Obj
 | .retain | .tryRetain=>if a.phase=.live then a.retain else a
 | .release=>a.release
 | .setWeaklyReferenced=>{a with weak:=true}

def Obj.Answers (a:Obj) : Answer → Prop
 | .retain r=>r=.retained ↔ a.phase=.live
 | .release r=>r=.dealloc ↔ a.refs-1=0
 | .done=>True

/-- As long as nobody releases what is deallocating and the count stays low, the isa word and the
side table do and answer what the model does. -/
def Simulates (info:Class L → ClassInfo) : List UncontendedCalls.Op → Object L → Obj → Prop
 | [],o,a=>Represents o a
 | op::ops,o,a=>(op=.release → a.phase=.live) → a.refs < saturation → ∃r o',
  call info o op=some (r,o') ∧ a.Answers r ∧ Simulates info ops o' (a.call op)

theorem Represents.simulates (h:Represents o a) (ops:List UncontendedCalls.Op) :
 Simulates info ops o a := by
 induction ops generalizing o a with
 | nil=>exact h
 | cons op ops ih=>
  intro hlive hroom
  rw [←h.refs,total] at hroom
  cases op with
  | retain | tryRetain=>
   obtain ⟨r,o',hcall,hr,ho'⟩:=h.callRetain (by omega) _
   exact ⟨.retain r,o',by rw [call,hcall]; rfl,hr,ih ho'⟩
  | release=>
   obtain ⟨r,o',hcall,hr,ho'⟩:=h.callRelease (hlive rfl)
   exact ⟨.release r,o',by rw [call,hcall]; rfl,hr,ih ho'⟩
  | setWeaklyReferenced=>
   obtain ⟨o',hcall,ho'⟩:=h.callSetWeaklyReferenced
   exact ⟨.done,o',by rw [call,hcall]; rfl,trivial,ih ho'⟩

/-- A new object's isa word and side table count as the weak references rely on. -/
theorem new_object_simulates (info:Class L → ClassInfo) (cls:Class L) (hasCxxDtor:Bool)
 (ops:List UncontendedCalls.Op) :
 Simulates info ops ⟨Word.init cls hasCxxDtor,none⟩ ⟨.live,1,false⟩ := by
 have none:count none=0 ∧ flags none=0:=by decide
 refine Represents.simulates ⟨⟨rfl,none.2,?_,?_,?_⟩,?_,?_,by simp⟩ ops
 · simp [none.1]
 · simp [none.1]
 · cases L <;> simp [none.1] <;> rfl
 · rw [total,none.1]
   cases L <;> rfl
 · cases L <;> rfl

end Represents

end ObjcRuntime.WeakReferences
