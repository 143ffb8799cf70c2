import ObjcRuntime.ClassInitialize

/-!
`+initialize` is sent once to a class, and superclasses are marked first. The thread that claims a
class is the one that finishes it: a class is put off only behind a superclass of the same thread.
-/

set_option autoImplicit false
namespace ObjcRuntime.ClassInitialize

open Interleaving
open Function

variable {superOf:ClassId → Option ClassId}

def Shared.finishAll (sh:Shared) (marked:List ClassId) : Shared :=
 marked.foldl Shared.finish sh

theorem finishAll_eq (sh:Shared) (marked:List ClassId) : sh.finishAll marked =
 {sh with
  initialized:=fun c=>sh.initialized c || c∈marked
  initializing:=fun c=>sh.initializing c && c∉marked
  pending:=sh.pending.filter (·.supercls∉marked)} := by
 induction marked generalizing sh with
 | nil=>simp [Shared.finishAll]
 | cons d marked ih=>
  refine (ih (sh.finish d)).trans ?_
  simp only [Shared.finish,Shared.mk.injEq,List.filter_filter]
  refine ⟨?_,?_,?_,trivial⟩ <;> grind

theorem finishAll_initialized (sh:Shared) (marked:List ClassId) (c:ClassId) :
 (sh.finishAll marked).initialized c=true ↔ sh.initialized c=true ∨ c∈marked := by
 simp [finishAll_eq]

theorem finishAll_initializing (sh:Shared) (marked:List ClassId) (c:ClassId) :
 (sh.finishAll marked).initializing c=true ↔ sh.initializing c=true ∧ c∉marked := by
 simp [finishAll_eq]

theorem mem_finishAll_pending (sh:Shared) (marked:List ClassId) (p:PendingInitialize) :
 p∈(sh.finishAll marked).pending ↔ p∈sh.pending ∧ p.supercls∉marked := by
 simp [finishAll_eq]

/-- Before the loop: the classes to finish are held, what waits for a held class is held too, and
no class is in line twice. -/
structure CanFinish (sh:Shared) (l:InitializingClasses) (todo:List ClassId) : Prop where
 held : ∀c∈todo,c∈l.held
 waiting : ∀p∈sh.pending,p.supercls∈l.held → p.subclass∈l.held
 once : (todo++sh.pending.map (·.subclass)).Nodup

structure Finished (sh:Shared) (l:InitializingClasses) (todo:List ClassId) (sh':Shared)
 (l':InitializingClasses) (marked:List ClassId) : Prop where
 shared : sh'=sh.finishAll marked
 list : ∀c,c∈l'.held ↔ c∈l.held ∧ c∉marked
 held : ∀c∈marked,c∈l.held
 all : ∀c∈todo,c∈marked
 order : Throughout (fun before c=>c∈todo ∨ ∃p∈sh.pending,p.subclass=c ∧ p.supercls∈before) marked

theorem CanFinish.next {sh:Shared} {l l':InitializingClasses} {c:ClassId}
 {rest:List ClassId} (h:CanFinish sh l (c::rest)) (hl':l.forget c=some l') :
 CanFinish (sh.finish c) l' (sh.pendingOf c++rest) := by
 have mem:=InitializingClasses.mem_forget hl'
 have once:=List.nodup_cons.mp h.once
 have notPending:∀p∈sh.pending,p.subclass≠c:=fun p hp same =>
  once.1 (List.mem_append_right _ (List.mem_map.mpr ⟨p,hp,same⟩))
 refine ⟨fun d hd=>(mem d).mpr ?_,fun p hp hsuper=>(mem _).mpr ?_,?_⟩
 · rcases List.mem_append.mp hd with waits|later
   · obtain ⟨p,hp,rfl⟩:=List.mem_map.mp waits
     grind [h.waiting,h.held]
   · exact ⟨h.held d (List.mem_cons_of_mem _ later),
      fun same=>once.1 (List.mem_append_left _ (same ▸ later))⟩
 · have hp':=(List.mem_filter.mp hp).1
   exact ⟨h.waiting p hp' ((mem _).mp hsuper).1,notPending p hp'⟩
 · have perm:(sh.pendingOf c++rest++(sh.finish c).pending.map (·.subclass)).Perm
    (rest++sh.pending.map (·.subclass)) := by
    have split:=(List.filter_append_perm (·.supercls=c) sh.pending).map (·.subclass)
    rw [List.map_append] at split
    have swap:(sh.pendingOf c++rest++(sh.finish c).pending.map (·.subclass)).Perm
     (rest++sh.pendingOf c++(sh.finish c).pending.map (·.subclass)) :=
     List.perm_append_comm.append_right _
    rw [List.append_assoc rest] at swap
    refine swap.trans (List.Perm.append_left rest ?_)
    simpa [Shared.pendingOf,Shared.finish,decide_not] using split
   exact perm.nodup_iff.mpr once.2

theorem Finished.cons {sh sh':Shared} {l l' l'':InitializingClasses} {c:ClassId}
 {rest marked:List ClassId} (h:c∈l.held) (hl':l.forget c=some l')
 (done:Finished (sh.finish c) l' (sh.pendingOf c++rest) sh' l'' marked) :
 Finished sh l (c::rest) sh' l'' (c::marked) := by
 have mem:=InitializingClasses.mem_forget hl'
 refine ⟨done.shared,fun d=>?_,fun d hd=>?_,fun d hd=>?_,?_⟩
 · rw [done.list,mem,List.mem_cons,not_or,and_assoc]
 · grind [done.held]
 · grind [done.all]
 · refine (throughout_singleton (.inl List.mem_cons_self)).append
    fun before d after split=>?_
   rcases done.order before d after split with listed|⟨p,hp,hsub,hsuper⟩
   · rcases List.mem_append.mp listed with waits|later
     · obtain ⟨p,hp,hsub⟩:=List.mem_map.mp waits
       grind
     · exact .inl (List.mem_cons_of_mem _ later)
   · exact .inr ⟨p,(List.mem_filter.mp hp).1,hsub,List.mem_cons_of_mem _ hsuper⟩

theorem finishInitializing_spec (sh:Shared) (l:InitializingClasses) (todo:List ClassId)
 (h:CanFinish sh l todo) :
 ∃sh' l' marked,finishInitializing sh l todo=some (sh',l',marked) ∧
  Finished sh l todo sh' l' marked := by
 induction sh,l,todo using finishInitializing.induct with
 | case1 sh l=>
  exact ⟨sh,l,[],by rw [finishInitializing],rfl,by simp,nofun,nofun,throughout_nil _⟩
 | case2 sh l c rest none=>
  obtain ⟨l',hl'⟩:=InitializingClasses.forget_isSome (h.held c List.mem_cons_self)
  rw [none] at hl'
  cases hl'
 | case3 sh l c rest l' hl' ih=>
  obtain ⟨sh',l'',marked,eq,done⟩:=ih (h.next hl')
  refine ⟨sh',l'',c::marked,?_,done.cons (h.held c List.mem_cons_self) hl'⟩
  rw [finishInitializing]
  simp only [hl',eq,Option.map_some]

def EventOk (superOf:ClassId → Option ClassId) (before:List Event) : Event → Prop
 | .began _ c=>∀u,.began u c∉before
 | .started t c=>.began t c∈before ∧ ∀u,.started u c∉before
 | .ended c=>∃t,.started t c∈before
 | .marked c=>.ended c∈before ∧ ∀p,superOf c=some p → .marked p∈before
 | .returned t c=>.marked c∈before ∨ .began t c∈before

structure SharedOk (superOf:ClassId → Option ClassId) (sh:Shared) (tr:List Event) : Prop where
 fatal : sh.fatal=none
 marked : ∀c,sh.initialized c=true ↔ .marked c∈tr
 begun : ∀c,sh.initializing c=true ∨ sh.initialized c=true ↔ ∃t,.began t c∈tr
 apart : ∀c,sh.initializing c=true → sh.initialized c=true → False
 unique : ∀t u c,.began t c∈tr → .began u c∈tr → t=u
 pending : ∀p∈sh.pending,superOf p.subclass=some p.supercls ∧ .ended p.subclass∈tr ∧
  ∃t,.began t p.subclass∈tr ∧ .began t p.supercls∈tr
 once : (sh.pending.map (·.subclass)).Nodup
 history : Throughout (EventOk superOf) tr

def Point.active : Point → Bool
 | .record | .callbacks | .running | .finish _=>true
 | _=>false

section FrameOk

variable (superOf) (t:ℕ) (sh:Shared) (tr:List Event) (l:InitializingClasses)

def Ready (c:ClassId) : Prop :=
 ∀p,superOf c=some p → sh.initialized p=true ∨ p∈l.held

def FrameOk (f:Frame) : Prop :=
 match f.point with
 | .start=>True
 | .superclass=>True
 | .tryLock=>Ready superOf sh l f.cls
 | .record=>Ready superOf sh l f.cls ∧ .began t f.cls∈tr ∧ f.cls∉l.held ∧ ∀u,.started u f.cls∉tr
 | .callbacks=>Ready superOf sh l f.cls ∧ f.cls∈l.held ∧ ∀u,.started u f.cls∉tr
 | .running=>Ready superOf sh l f.cls ∧ f.cls∈l.held ∧ .started t f.cls∈tr
 | .finish _=>Ready superOf sh l f.cls ∧ f.cls∈l.held ∧ .ended f.cls∈tr
 | .checkInitializing=>∃u,.began u f.cls∈tr
 | .checkMine=>∃u,.began u f.cls∈tr
 | .waitForInitializeToComplete=>∃u,.began u f.cls∈tr
 | .checkInitialized=>sh.initialized f.cls=true

end FrameOk

/-- Calls wait for calls: below the innermost frame a call is in user code or in the call for its
superclass. -/
def StackOk (superOf:ClassId → Option ClassId) : List Frame → Prop
 | []=>True
 | [_]=>True
 | g::f::rest=>
  (f.point=.superclass ∧ superOf f.cls=some g.cls ∨ f.point=.callbacks ∨
   f.point=.running) ∧ StackOk superOf (f::rest)

def activeClasses (frames:List Frame) : List ClassId :=
 (frames.filter (·.point.active)).map (·.cls)

structure ThreadOk (superOf:ClassId → Option ClassId) (t:ℕ) (sh:Shared) (tr:List Event)
 (th:Thread) : Prop where
 owns : ∀c∈th.list.held,.began t c∈tr ∧ sh.initializing c=true
 frames : ∀f∈th.frames,FrameOk superOf t sh tr th.list f
 active : (activeClasses th.frames).Nodup
 pending : ∀p∈sh.pending,.began t p.subclass∈tr → p.subclass∈th.list.held ∧
  p.supercls∈th.list.held ∧ p.subclass∉activeClasses th.frames
 stack : StackOk superOf th.frames

theorem activeClasses_cons (f:Frame) (fs:List Frame) :
 activeClasses (f::fs)=if f.point.active then f.cls::activeClasses fs
  else activeClasses fs := by
 rw [activeClasses,List.filter_cons]
 split <;> rfl

variable {f:Frame} {e:Event} {th:Thread} {point:Point}

theorem mem_activeClasses {fs:List Frame} (hf:f∈fs) (h:f.point.active=true) :
 f.cls∈activeClasses fs :=
 List.mem_map.mpr ⟨f,List.mem_filter.mpr ⟨hf,h⟩,rfl⟩

theorem activeClasses_resume (fs:List Frame) : activeClasses (resume fs)=activeClasses fs := by
 match fs with
 | []=>rfl
 | ⟨c,point⟩::rest=>cases point <;> rfl

theorem SharedOk.started_of_initialized {sh:Shared} {tr:List Event}
 (h:SharedOk superOf sh tr) {c:ClassId} (hc:sh.initialized c=true) :
 ∃t,.started t c∈tr := by
 obtain ⟨before,after,split⟩:=List.append_of_mem ((h.marked c).mp hc)
 have hended:=(h.history before _ after split).1
 obtain ⟨before',after',split'⟩:=List.append_of_mem hended
 have whole:tr=before' ++ .ended c::(after' ++ .marked c::after):=by grind
 obtain ⟨t,ht⟩:=h.history before' _ _ whole
 exact ⟨t,by rw [whole]; exact List.mem_append_left _ ht⟩

inductive Effect (superOf:ClassId → Option ClassId) (t:ℕ) (sh:Shared) (tr:List Event)
 (l:InitializingClasses) : List Event → Shared → InitializingClasses → Prop
 | quiet (events:List Event) (noBegan:∀u c,.began u c∉events)
  (noMark:∀c,.marked c∉events)
  (mine:∀u c,.started u c∈events → .began t c∈tr) :
  Effect superOf t sh tr l events sh l
 | claim (c:ClassId) (fresh:∀u,.began u c∉tr) :
  Effect superOf t sh tr l [.began t c] (sh.setInitializing c) l
 | record (c:ClassId) (l':InitializingClasses) (mine:.began t c∈tr)
  (unstarted:∀u,.started u c∉tr) (h:l.record c=some l') :
  Effect superOf t sh tr l [] sh l'
 | finish (c:ClassId) (sh':Shared) (l':InitializingClasses) (marked:List ClassId)
  (rest:List Event) (h:Finished sh l [c] sh' l' marked) (held:c∈l.held)
  (hrest:rest=[] ∨ rest=[.returned t c]) :
  Effect superOf t sh tr l (marked.map .marked++rest) sh' l'
 | putOff (c p:ClassId) (rest:List Event) (hp:superOf c=some p) (held:c∈l.held)
  (super:p∈l.held) (ended:.ended c∈tr) (fresh:∀q∈sh.pending,q.subclass≠c)
  (hrest:rest=[] ∨ rest=[.returned t c]) :
  Effect superOf t sh tr l rest {sh with pending:=⟨p,c⟩::sh.pending} l

def EventsOk (superOf:ClassId → Option ClassId) (tr events:List Event) : Prop :=
 Throughout (fun before e=>EventOk superOf (tr++before) e) events

theorem eventsOk_nil (tr:List Event) : EventsOk superOf tr [] := throughout_nil _

theorem eventsOk_singleton {tr:List Event} (h:EventOk superOf tr e) : EventsOk superOf tr [e] :=
 throughout_singleton (by rwa [List.append_nil])

section Effects

variable {t:ℕ} {sh:Shared} {tr:List Event} {l:InitializingClasses} {c:ClassId}
 {fs:List Frame} {threw unwinding:Bool}

theorem canFinish (shok:SharedOk superOf sh tr)
 (ok:ThreadOk superOf t sh tr ⟨⟨c,.finish threw⟩::fs,unwinding,l⟩) :
 CanFinish sh l [c] := by
 obtain ⟨-,held,-⟩:=ok.frames _ List.mem_cons_self
 refine ⟨fun d hd=>List.mem_singleton.mp hd ▸ held,fun p hp hsuper=>?_,?_⟩
 · obtain ⟨-,-,u,hsub,hsuper'⟩:=shok.pending p hp
   have same:=shok.unique _ _ _ (ok.owns _ hsuper).1 hsuper'
   exact (ok.pending p hp (same ▸ hsub)).1
 · refine List.nodup_cons.mpr ⟨fun hmem=>?_,shok.once⟩
   obtain ⟨p,hp,rfl⟩:=List.mem_map.mp hmem
   exact (ok.pending p hp (ok.owns _ held).1).2.2 (mem_activeClasses List.mem_cons_self rfl)

variable {sh':Shared} {l':InitializingClasses} {marked:List ClassId}

theorem Finished.eventsOk (shok:SharedOk superOf sh tr) (done:Finished sh l [c] sh' l' marked)
 (ended:.ended c∈tr) (ready:∀p,superOf c=some p → sh.initialized p=true) :
 EventsOk superOf tr (marked.map .marked) := by
 intro before e after split
 obtain ⟨first,rest,rfl,rfl,hrest⟩:=List.map_eq_append_iff.mp split
 obtain ⟨d,last,rfl,rfl,rfl⟩:=List.map_eq_cons_iff.mp hrest
 rcases done.order first d last rfl with self|⟨p,hp,rfl,hsuper⟩
 · rw [List.mem_singleton] at self
   subst self
   exact ⟨List.mem_append_left _ ended,
    fun p hp=>List.mem_append_left _ ((shok.marked p).mp (ready p hp))⟩
 · obtain ⟨hsuperOf,hended,-⟩:=shok.pending p hp
   refine ⟨List.mem_append_left _ hended,fun q hq=>List.mem_append_right _ ?_⟩
   grind

inductive FinishResult (superOf:ClassId → Option ClassId) (sh:Shared)
 (l:InitializingClasses) (c:ClassId) : Shared → InitializingClasses → List ClassId → Prop
 | finished (sh':Shared) (l':InitializingClasses) (marked:List ClassId)
  (done:Finished sh l [c] sh' l' marked)
  (ready:∀p,superOf c=some p → sh.initialized p=true) :
  FinishResult superOf sh l c sh' l' marked
 | putOff (p:ClassId) (hp:superOf c=some p) (super:p∈l.held)
  (fresh:∀q∈sh.pending,q.subclass≠c) :
  FinishResult superOf sh l c {sh with pending:=⟨p,c⟩::sh.pending} l []

theorem lockAndFinishInitializing_result (shok:SharedOk superOf sh tr)
 (ok:ThreadOk superOf t sh tr ⟨⟨c,.finish threw⟩::fs,unwinding,l⟩) :
 ∃sh' l' marked,lockAndFinishInitializing superOf sh l c=some (sh',l',marked) ∧
  FinishResult superOf sh l c sh' l' marked := by
 obtain ⟨hready,held,-⟩:=ok.frames _ List.mem_cons_self
 by_cases ready : ∀p,superOf c=some p → sh.initialized p=true
 · obtain ⟨sh',l',marked,eq,done⟩:=finishInitializing_spec sh l [c] (canFinish shok ok)
   refine ⟨sh',l',marked,?_,.finished sh' l' marked done ready⟩
   grind [lockAndFinishInitializing]
 · push Not at ready
   obtain ⟨p,hp,unready⟩:=ready
   refine ⟨_,l,[],by rw [lockAndFinishInitializing,hp]; exact if_neg unready,
    .putOff p hp ((hready p hp).resolve_left unready) fun q hq same=>?_⟩
   exact (ok.pending q hq (same ▸ (ok.owns _ held).1)).2.2
    (same ▸ mem_activeClasses List.mem_cons_self rfl)

theorem finishResult_of_eq (shok:SharedOk superOf sh tr)
 (ok:ThreadOk superOf t sh tr ⟨⟨c,.finish threw⟩::fs,unwinding,l⟩)
 (eq:lockAndFinishInitializing superOf sh l c=some (sh',l',marked)) :
 FinishResult superOf sh l c sh' l' marked := by grind [lockAndFinishInitializing_result]

theorem FinishResult.effect (shok:SharedOk superOf sh tr)
 (ok:ThreadOk superOf t sh tr ⟨⟨c,.finish threw⟩::fs,unwinding,l⟩)
 (result:FinishResult superOf sh l c sh' l' marked) {rest:List Event}
 (hrest:rest=[] ∨ rest=[.returned t c]) :
 Effect superOf t sh tr l (marked.map .marked++rest) sh' l' ∧
  EventsOk superOf tr (marked.map .marked++rest) := by
 obtain ⟨-,held,ended⟩:=ok.frames _ List.mem_cons_self
 cases result with
 | finished _ _ _ done ready=>
  refine ⟨.finish c sh' l' marked rest done held hrest,(done.eventsOk shok ended ready).append ?_⟩
  rcases hrest with rfl|rfl
  · exact throughout_nil _
  · refine throughout_singleton (.inl ?_)
    rw [List.append_nil]
    exact List.mem_append_right _
     (List.mem_map.mpr ⟨c,done.all c (List.mem_singleton.mpr rfl),rfl⟩)
 | putOff p hp super fresh=>
  refine ⟨.putOff c p rest hp held super ended fresh hrest,?_⟩
  rcases hrest with rfl|rfl
  · exact eventsOk_nil _
  · exact eventsOk_singleton (.inr (ok.owns _ held).1)

theorem mem_marked_events {rest:List Event} {c:ClassId}
 (hrest:rest=[] ∨ rest=[.returned t c]) (e:Event) :
 e∈marked.map Event.marked++rest ↔
  (∃d∈marked,e=.marked d) ∨ (e=.returned t c ∧ rest≠[]) := by grind

section After

variable (shok:SharedOk superOf sh tr) (events:List Event)
 (noBegan:∀u d,.began u d∉events)

include shok

theorem SharedOk.pending_mono (p:PendingInitialize) (hp:p∈sh.pending) :
 superOf p.subclass=some p.supercls ∧ .ended p.subclass∈tr++events ∧
  ∃u,.began u p.subclass∈tr++events ∧ .began u p.supercls∈tr++events := by
 grind [shok.pending]

include noBegan

theorem SharedOk.begun_mono (d:ClassId) :
 sh.initializing d=true ∨ sh.initialized d=true ↔ ∃u,.began u d∈tr++events := by
 grind [shok.begun]

theorem SharedOk.unique_mono (u v:ℕ) (d:ClassId) (hu:.began u d∈tr++events)
 (hv:.began v d∈tr++events) : u=v :=
 shok.unique u v d ((List.mem_append.mp hu).resolve_right (noBegan u d))
  ((List.mem_append.mp hv).resolve_right (noBegan v d))

end After

theorem SharedOk.claim (shok:SharedOk superOf sh tr) (fresh:∀u,.began u c∉tr)
 (history:Throughout (EventOk superOf) (tr++[.began t c])) :
 SharedOk superOf (sh.setInitializing c) (tr++[.began t c]) where
 fatal := shok.fatal
 marked d := by simp [Shared.setInitializing,shok.marked]
 begun d := by
  by_cases same : d=c
  · simp [Shared.setInitializing, *]
  · simp [Shared.setInitializing,shok.begun, *]
 apart d hd hd' := by
  by_cases same : d=c
  · obtain ⟨u,hu⟩:=(shok.begun d).mp (.inr hd')
    exact fresh u (same ▸ hu)
  · simp only [Shared.setInitializing,update_of_ne same] at hd
    exact shok.apart d hd hd'
 unique u v d hu hv := by grind [shok.unique]
 pending := shok.pending_mono _
 once := shok.once
 history := history

theorem SharedOk.finishAll {events:List Event} (shok:SharedOk superOf sh tr)
 (initializing:∀d∈marked,sh.initializing d=true) (noBegan:∀u d,.began u d∉events)
 (isMarked:∀d,.marked d∈events ↔ d∈marked)
 (history:Throughout (EventOk superOf) (tr++events)) :
 SharedOk superOf (sh.finishAll marked) (tr++events) where
 fatal := by rw [finishAll_eq,shok.fatal]
 marked d := by rw [finishAll_initialized,shok.marked,List.mem_append,isMarked]
 begun d := by
  rw [←shok.begun_mono events noBegan,finishAll_initialized,finishAll_initializing]
  grind
 apart d hd hd' := by grind [finishAll_initializing,finishAll_initialized,shok.apart]
 unique := shok.unique_mono _ noBegan
 pending p hp := shok.pending_mono _ p ((mem_finishAll_pending sh marked p).mp hp).1
 once := by
  rw [finishAll_eq]
  exact (List.filter_sublist.map _).nodup shok.once
 history := history

theorem SharedOk.after {events:List Event} (shok:SharedOk superOf sh tr)
 (owns:∀c∈l.held,.began t c∈tr ∧ sh.initializing c=true)
 (effect:Effect superOf t sh tr l events sh' l') (ordered:EventsOk superOf tr events) :
 SharedOk superOf sh' (tr++events) := by
 have history:Throughout (EventOk superOf) (tr++events):=shok.history.append ordered
 cases effect with
 | quiet _ noBegan noMark _=>
  exact show SharedOk superOf (sh.finishAll []) _ from
   shok.finishAll nofun noBegan (fun d=>by simp [noMark d]) history
 | claim c fresh=>exact shok.claim fresh history
 | record c l' _ _ _=>
  rw [List.append_nil]
  exact shok
 | finish c sh' l' marked rest done held hrest=>
  rw [done.shared]
  refine shok.finishAll (fun d hd=>(owns d (done.held d hd)).2) (fun u d h=>?_)
   (fun d=>?_) history
  · grind
  · rw [mem_marked_events hrest]
    simp
 | putOff c p _ hp held super ended fresh hrest=>
  have noBegan:∀u d,.began u d∉events:=fun u d h=>by
   rcases hrest with rfl|rfl <;> simp at h
  exact
   { fatal := shok.fatal
     marked := fun d=>by grind [shok.marked]
     begun := shok.begun_mono _ noBegan
     apart := shok.apart
     unique := shok.unique_mono _ noBegan
     pending := fun q hq=>by grind [shok.pending_mono]
     once := by grind [shok.once]
     history := history }

/-- What a call relies on is still there: the classes it needs are held or marked, and while it
has its class claimed, nothing changes for that class. -/
structure Keeps (sh:Shared) (tr:List Event) (l:InitializingClasses) (sh':Shared)
 (tr':List Event) (l':InitializingClasses) (f:Frame) : Prop where
 trace : ∀e∈tr,e∈tr'
 initialized : ∀d,sh.initialized d=true → sh'.initialized d=true
 ready : ∀d∈l.held,d∈l'.held ∨ sh'.initialized d=true
 claimed : f.point.active=true → (f.cls∈l'.held ↔ f.cls∈l.held) ∧
  ((∀u,.started u f.cls∉tr) → ∀u,.started u f.cls∉tr')

theorem FrameOk.keep {tr':List Event} (keeps:Keeps sh tr l sh' tr' l' f)
 (ok:FrameOk superOf t sh tr l f) :
 FrameOk superOf t sh' tr' l' f := by
 have ready:Ready superOf sh l f.cls → Ready superOf sh' l' f.cls:=fun h p hp =>
  (h p hp).elim (fun h=>.inl (keeps.initialized p h)) fun h=>(keeps.ready p h).symm
 have begun:(∃u,.began u f.cls∈tr) → ∃u,.began u f.cls∈tr' :=
  fun ⟨u,h⟩=>⟨u,keeps.trace _ h⟩
 obtain ⟨c,point⟩:=f
 cases point with
 | start | superclass=>trivial
 | tryLock=>exact ready ok
 | record=>
  obtain ⟨held,unstarted⟩:=keeps.claimed rfl
  exact ⟨ready ok.1,keeps.trace _ ok.2.1,fun h=>ok.2.2.1 (held.mp h),unstarted ok.2.2.2⟩
 | callbacks=>
  obtain ⟨held,unstarted⟩:=keeps.claimed rfl
  exact ⟨ready ok.1,held.mpr ok.2.1,unstarted ok.2.2⟩
 | running | finish=>exact ⟨ready ok.1,(keeps.claimed rfl).1.mpr ok.2.1,keeps.trace _ ok.2.2⟩
 | checkInitializing | checkMine | waitForInitializeToComplete=>exact begun ok
 | checkInitialized=>exact keeps.initialized c ok

theorem ThreadOk.began_of_active (ok:ThreadOk superOf t sh tr th) (hf:f∈th.frames)
 (active:f.point.active=true) : .began t f.cls∈tr := by
 have frame:=ok.frames f hf
 obtain ⟨c,point⟩:=f
 cases point with
 | record=>exact frame.2.1
 | callbacks | running | finish=>exact (ok.owns c frame.2.1).1
 | start | superclass | tryLock | checkInitializing | checkMine | waitForInitializeToComplete
 | checkInitialized=>cases active

/-- The footprint of a step: it marks classes of its own thread only, and claims, starts and puts
off classes only for its own thread. -/
structure Footprint (t:ℕ) (sh:Shared) (tr events:List Event) (sh':Shared) : Prop where
 initialized : ∀d,sh.initialized d=true → sh'.initialized d=true
 initializing : ∀d,.began t d∉tr → sh.initializing d=true → sh'.initializing d=true
 began : ∀v d,.began v d∈events → v=t
 started : ∀v d,.started v d∈events → .began t d∈tr
 pending : ∀p∈sh'.pending,p∈sh.pending ∨ .began t p.subclass∈tr

theorem Effect.footprint {events:List Event} (owns:∀c∈l.held,.began t c∈tr ∧ sh.initializing c=true)
 (effect:Effect superOf t sh tr l events sh' l') : Footprint t sh tr events sh' := by
 cases effect with
 | quiet _ noBegan _ mine=>
  exact ⟨fun _=>id,fun _ _=>id,fun v d h=>absurd h (noBegan v d),mine,fun _=>.inl⟩
 | claim c fresh=>
  refine ⟨fun _=>id,fun d _ hd=>?_,by simp,by simp,fun _=>.inl⟩
  simp only [Shared.setInitializing,update_apply]
  split
  · rfl
  · exact hd
 | record=>exact ⟨fun _=>id,fun _ _=>id,nofun,nofun,fun _=>.inl⟩
 | finish c sh' l' marked rest done held hrest=>
  rw [done.shared]
  refine ⟨fun d hd=>(finishAll_initialized ..).mpr (.inl hd),fun d other hd=>?_,
   fun v d h=>?_,fun v d h=>?_,fun p hp=>.inl ((mem_finishAll_pending ..).mp hp).1⟩
  · exact (finishAll_initializing ..).mpr ⟨hd,fun h=>other (owns d (done.held d h)).1⟩
  · grind
  · grind
 | putOff c p _ hp held super ended fresh hrest=>
  refine ⟨fun _=>id,fun _ _=>id,fun v d h=>?_,fun v d h=>?_,fun q hq=>?_⟩
  · rcases hrest with rfl|rfl <;> simp at h
  · rcases hrest with rfl|rfl <;> simp at h
  · grind

theorem ThreadOk.others {u:ℕ} {events:List Event} (ne:u≠t) (shok:SharedOk superOf sh tr)
 (ok:ThreadOk superOf u sh tr th) (step:Footprint t sh tr events sh') :
 ThreadOk superOf u sh' (tr++events) th := by
 have foreign:∀d,.began u d∈tr → .began t d∉tr :=
  fun d hu ht=>ne (shok.unique u t d hu ht)
 refine ⟨fun d hd=>?_,fun f hf=>(ok.frames f hf).keep ?_,ok.active,fun p hp hbegan=>?_,ok.stack⟩
 · grind [ok.owns,step.initializing]
 · refine ⟨fun _=>List.mem_append_left _,step.initialized,fun d hd=>.inl hd,
    fun active=>⟨.rfl,fun unstarted v h=>?_⟩⟩
   rcases List.mem_append.mp h with old|new
   · exact unstarted v old
   · exact foreign _ (ok.began_of_active hf active) (step.started v _ new)
 · grind [step.began,step.pending,ok.pending]

end Effects

section Stack

variable {g g':Frame} {fs:List Frame}

theorem StackOk.tail (h:StackOk superOf (g::fs)) : StackOk superOf fs := by
 cases fs with
 | nil=>trivial
 | cons f fs=>exact h.2

theorem StackOk.top (h:StackOk superOf (g::fs)) (same:g'.cls=g.cls) : StackOk superOf (g'::fs) := by
 cases fs with
 | nil=>trivial
 | cons f fs=>exact ⟨by rw [same]; exact h.1,h.2⟩

theorem StackOk.call (h:StackOk superOf fs) (user:userCode fs=true) : StackOk superOf (g::fs) := by
 match fs with
 | []=>trivial
 | ⟨c,point⟩::fs=>
  cases point with
  | callbacks=>exact ⟨.inr (.inl rfl),h⟩
  | running=>exact ⟨.inr (.inr rfl),h⟩
  | start | superclass | tryLock | record | finish | checkInitializing | checkMine
  | waitForInitializeToComplete | checkInitialized=>cases user

theorem StackOk.resume (h:StackOk superOf (g::fs)) : StackOk superOf (resume fs) := by
 match fs with
 | []=>trivial
 | ⟨c,point⟩::fs=>
  cases point with
  | superclass=>exact h.tail.top rfl
  | start | callbacks | running | tryLock | record | finish | checkInitializing | checkMine
  | waitForInitializeToComplete | checkInitialized=>exact h.tail

end Stack

section Own

variable {t:ℕ} {sh:Shared} {tr:List Event} {l:InitializingClasses} {c:ClassId}
 {g:Frame} {fs frames frames':List Frame} {unwinding unwinding':Bool}

theorem resume_frames (stack:StackOk superOf (g::fs)) (ok:∀f∈fs,FrameOk superOf t sh tr l f)
 (back:sh.initialized g.cls=true ∨ g.cls∈l.held) :
 ∀f∈resume fs,FrameOk superOf t sh tr l f := by
 match fs with
 | []=>exact ok
 | ⟨d,point⟩::fs=>
  cases point with
  | superclass=>
   intro f hf
   rcases List.mem_cons.mp hf with rfl|hf
   · intro p hp
     have callee:superOf d=some g.cls:=by
      rcases stack.1 with ⟨-,h⟩|h|h
      · exact h
      · cases h
      · cases h
     grind
   · exact ok f (List.mem_cons_of_mem _ hf)
  | start | callbacks | running | tryLock | record | finish | checkInitializing | checkMine
  | waitForInitializeToComplete | checkInitialized=>exact ok

theorem ThreadOk.move (ok:ThreadOk superOf t sh tr ⟨frames,unwinding,l⟩) (events:List Event)
 (noBegan:∀u d,.began u d∉events)
 (hframes:∀f∈frames',FrameOk superOf t sh (tr++events) l f)
 (hactive:(activeClasses frames').Sublist (activeClasses frames))
 (stack:StackOk superOf frames') :
 ThreadOk superOf t sh (tr++events) ⟨frames',unwinding',l⟩ := by
 refine ⟨fun d hd=>?_,hframes,hactive.nodup ok.active,fun p hp began=>?_,stack⟩
 · exact ⟨List.mem_append_left _ (ok.owns d hd).1,(ok.owns d hd).2⟩
 · grind [ok.pending]

theorem ThreadOk.moveSilently (ok:ThreadOk superOf t sh tr ⟨frames,unwinding,l⟩)
 (hframes:∀f∈frames',FrameOk superOf t sh tr l f)
 (hactive:(activeClasses frames').Sublist (activeClasses frames))
 (stack:StackOk superOf frames') :
 ThreadOk superOf t sh (tr++[]) ⟨frames',unwinding',l⟩ :=
 ok.move [] nofun (by rwa [List.append_nil]) hactive stack

theorem frames_keep_event (ok:∀f∈frames,FrameOk superOf t sh tr l f)
 (other:∀u d,e=.started u d → d∉activeClasses frames) :
 ∀f∈frames,FrameOk superOf t sh (tr++[e]) l f := by
 intro f hf
 refine (ok f hf).keep ⟨fun _=>List.mem_append_left _,fun _=>id,fun _=>.inl,
  fun active=>⟨.rfl,fun unstarted u h=>?_⟩⟩
 grind [mem_activeClasses]

section

variable (ok:ThreadOk superOf t sh tr ⟨g::fs,unwinding,l⟩)
include ok

theorem ThreadOk.return
 (inactive:g.point.active=false) (back:sh.initialized g.cls=true ∨ g.cls∈l.held) :
 ThreadOk superOf t sh (tr++[.returned t g.cls]) ⟨resume fs,unwinding',l⟩ := by
 refine ok.move _ (by simp) ?_ ?_ ok.stack.resume
 · grind [resume_frames,ok.stack,frames_keep_event,ok.frames]
 · rw [activeClasses_resume,activeClasses_cons,inactive]
   exact .refl _

theorem ThreadOk.advance
 (frame:FrameOk superOf t sh tr l ⟨g.cls,point⟩)
 (same:point.active=true → g.point.active=true) :
 ThreadOk superOf t sh (tr++[]) ⟨⟨g.cls,point⟩::fs,unwinding',l⟩ := by
 refine ok.moveSilently (fun f hf=>?_) ?_ (ok.stack.top rfl)
 · grind [ok.frames]
 · grind [activeClasses_cons]

theorem ThreadOk.unwind :
 ThreadOk superOf t sh (tr++[]) ⟨fs,unwinding',l⟩ := by
 grind [ok.moveSilently,ok.frames,ok.stack.tail,activeClasses_cons]

end

theorem active_top (ok:ThreadOk superOf t sh tr ⟨⟨c,point⟩::fs,unwinding,l⟩)
 (active:point.active=true) : c∉activeClasses fs ∧ (activeClasses fs).Nodup := by
 grind [ok.active,activeClasses_cons]

theorem ThreadOk.record_event {point':Point}
 (ok:ThreadOk superOf t sh tr ⟨⟨c,point⟩::fs,unwinding,l⟩)
 (active:point.active=true) (active':point'.active=true)
 (noBegan:∀u d,e≠.began u d) (started:∀u d,e=.started u d → d=c)
 (frame:FrameOk superOf t sh (tr++[e]) l ⟨c,point'⟩) :
 ThreadOk superOf t sh (tr++[e]) ⟨⟨c,point'⟩::fs,unwinding',l⟩ := by
 refine ok.move _ (fun u d h=>noBegan u d (List.mem_singleton.mp h).symm) (fun f hf=>?_) ?_
  (ok.stack.top rfl)
 · rcases List.mem_cons.mp hf with rfl|hf
   · exact frame
   · refine frames_keep_event (fun f hf=>ok.frames f (List.mem_cons_of_mem _ hf))
      (fun u d h=>?_) f hf
     rw [started u d h]
     exact (active_top ok active).1
 · rw [activeClasses_cons,activeClasses_cons,if_pos active,if_pos active']

theorem ThreadOk.claim (shok:SharedOk superOf sh tr)
 (ok:ThreadOk superOf t sh tr ⟨⟨c,.tryLock⟩::fs,unwinding,l⟩)
 (fresh:∀u,.began u c∉tr) :
 ThreadOk superOf t (sh.setInitializing c) (tr++[.began t c])
  ⟨⟨c,.record⟩::fs,unwinding',l⟩ := by
 have unheld:c∉l.held:=fun h=>fresh t (ok.owns c h).1
 have inactive:c∉activeClasses fs:=fun h=>by
  obtain ⟨f,hf,rfl⟩:=List.mem_map.mp h
  obtain ⟨hf,active⟩:=List.mem_filter.mp hf
  exact fresh t (ok.began_of_active (List.mem_cons_of_mem _ hf) active)
 have unstarted:∀u,.started u c∉tr++[.began t c]:=fun u h=>by
  rcases List.mem_append.mp h with old|new
  · obtain ⟨before,after,split⟩:=List.append_of_mem old
    have began:=(shok.history before _ after split).1
    exact fresh u (by rw [split]; exact List.mem_append_left _ began)
  · simp at new
 have keeps:∀f,Keeps sh tr l (sh.setInitializing c) (tr++[.began t c]) l f:=fun f =>
  ⟨fun _=>List.mem_append_left _,fun _=>id,fun _=>.inl,fun _=>⟨.rfl,fun h u=>by
   simp [h u]⟩⟩
 refine ⟨fun d hd=>?_,fun f hf=>?_,?_,fun p hp began=>?_,ok.stack.top rfl⟩
 · simp [ok.owns,Shared.setInitializing,update_apply, *]
 · rcases List.mem_cons.mp hf with rfl|hf
   · exact ⟨(ok.frames _ List.mem_cons_self).keep (f:=⟨c,.tryLock⟩) (keeps _),
      List.mem_append_right _ (List.mem_singleton.mpr rfl),unheld,unstarted⟩
   · exact (ok.frames f (List.mem_cons_of_mem _ hf)).keep (keeps f)
 · grind [activeClasses_cons,ok.active]
 · obtain ⟨-,-,u,hu,-⟩:=shok.pending p hp
   have other:p.subclass≠c:=fun same=>fresh u (same ▸ hu)
   have began':.began t p.subclass∈tr :=
    (List.mem_append.mp began).resolve_right fun h=>by simp [other] at h
   obtain ⟨hsub,hsuper,hinactive⟩:=ok.pending p hp began'
   grind [activeClasses_cons]

theorem ThreadOk.recorded {l':InitializingClasses} (shok:SharedOk superOf sh tr)
 (ok:ThreadOk superOf t sh tr ⟨⟨c,.record⟩::fs,unwinding,l⟩)
 (hl':l.record c=some l') :
 ThreadOk superOf t sh (tr++[]) ⟨⟨c,.callbacks⟩::fs,unwinding',l'⟩ := by
 rw [List.append_nil]
 have mem:=InitializingClasses.mem_record hl'
 obtain ⟨ready,began,unheld,unstarted⟩:=ok.frames _ List.mem_cons_self
 have initializing:sh.initializing c=true:=by grind [shok.begun,shok.started_of_initialized]
 refine ⟨fun d hd=>?_,fun f hf=>?_,ok.active,fun p hp hbegan=>?_,ok.stack.top rfl⟩
 · grind [ok.owns]
 · rcases List.mem_cons.mp hf with rfl|below
   · exact ⟨fun p hp=>(ready p hp).imp_right fun h=>(mem p).mpr (.inr h),
      (mem c).mpr (.inl rfl),unstarted⟩
   · refine (ok.frames f (List.mem_cons_of_mem _ below)).keep ⟨fun _=>id,fun _=>id,
      fun d hd=>.inl ((mem d).mpr (.inr hd)),fun active=>⟨?_,id⟩⟩
     rw [mem,or_iff_right]
     rintro rfl
     exact (active_top ok rfl).1 (mem_activeClasses below active)
 · obtain ⟨hsub,hsuper,inactive⟩:=ok.pending p hp hbegan
   exact ⟨(mem _).mpr (.inr hsub),(mem _).mpr (.inr hsuper),inactive⟩

section Finish

variable {threw:Bool} {sh':Shared} {l':InitializingClasses} {marked:List ClassId}
 {events:List Event}

theorem Finished.mem (done:Finished sh l [c] sh' l' marked) {d:ClassId} (hd:d∈marked) :
 d=c ∨ ∃p∈sh.pending,p.subclass=d ∧ p.supercls∈marked := by
 obtain ⟨before,after,rfl⟩:=List.append_of_mem hd
 rcases done.order before d after rfl with self|⟨p,hp,hsub,hsuper⟩
 · exact .inl (List.mem_singleton.mp self)
 · exact .inr ⟨p,hp,hsub,List.mem_append_left _ hsuper⟩

theorem ThreadOk.popped (ok:ThreadOk superOf t sh tr ⟨⟨c,.finish threw⟩::fs,unwinding,l⟩)
 (keep:∀f∈fs,Keeps sh tr l sh' (tr++events) l' f)
 (owns:∀d∈l'.held,.began t d∈tr++events ∧ sh'.initializing d=true)
 (pending:∀p∈sh'.pending,.began t p.subclass∈tr++events → p.subclass∈l'.held ∧
  p.supercls∈l'.held ∧ p.subclass∉activeClasses fs)
 (back:sh'.initialized c=true ∨ c∈l'.held) :
 ThreadOk superOf t sh' (tr++events) ⟨resume fs,unwinding',l'⟩ ∧
  ThreadOk superOf t sh' (tr++events) ⟨fs,unwinding',l'⟩ := by
 have frames:∀f∈fs,FrameOk superOf t sh' (tr++events) l' f:=fun f hf =>
  (ok.frames f (List.mem_cons_of_mem _ hf)).keep (keep f hf)
 have nodup:=(active_top ok rfl).2
 have active:=activeClasses_resume fs
 exact ⟨⟨owns,resume_frames ok.stack frames back,active ▸ nodup,by rwa [active],
  ok.stack.resume⟩,owns,frames,nodup,pending,ok.stack.tail⟩

theorem FinishResult.thread (shok:SharedOk superOf sh tr)
 (ok:ThreadOk superOf t sh tr ⟨⟨c,.finish threw⟩::fs,unwinding,l⟩)
 (result:FinishResult superOf sh l c sh' l' marked) (noBegan:∀u d,.began u d∉events)
 (noStart:∀u d,.started u d∉events) :
 ThreadOk superOf t sh' (tr++events) ⟨resume fs,unwinding',l'⟩ ∧
  ThreadOk superOf t sh' (tr++events) ⟨fs,unwinding',l'⟩ := by
 obtain ⟨-,held,-⟩:=ok.frames _ List.mem_cons_self
 have notTop:=(active_top ok rfl).1
 have below:∀d∈activeClasses fs,d∈activeClasses (⟨c,.finish threw⟩::fs) :=
  fun d hd=>by rw [activeClasses_cons]; exact List.mem_cons_of_mem _ hd
 have still:∀{d},(∀u,.started u d∉tr) → ∀u,.started u d∉tr++events :=
  fun unstarted u h=>(List.mem_append.mp h).elim (unstarted u) (noStart u _)
 have before:∀{d},.began t d∈tr++events → .began t d∈tr:=fun began =>
  (List.mem_append.mp began).resolve_right (noBegan _ _)
 cases result with
 | finished _ _ _ done _=>
  have initialized:=finishAll_initialized sh marked
  rw [←done.shared] at initialized
  -- a class that is put off is not in the hands of a call
  have unmarked:∀d∈activeClasses fs,.began t d∈tr → d∉marked:=fun d hd began hm=>by
   rcases done.mem hm with rfl|⟨p,hp,rfl,-⟩
   · exact notTop hd
   · exact (ok.pending p hp began).2.2 (below _ hd)
  refine ok.popped (fun f hf=>⟨fun _=>List.mem_append_left _,fun d hd=>?_,fun d hd=>?_,
   fun active=>⟨?_,still⟩⟩) (fun d hd=>?_) (fun p hp began=>?_) ?_
  · exact (initialized d).mpr (.inl hd)
  · by_cases hm : d∈marked
    · exact .inr ((initialized d).mpr (.inr hm))
    · exact .inl ((done.list d).mpr ⟨hd,hm⟩)
  · rw [done.list,and_iff_left]
    grind [mem_activeClasses,ok.began_of_active]
  · obtain ⟨hd,hm⟩:=(done.list d).mp hd
    obtain ⟨began,initializing⟩:=ok.owns d hd
    rw [done.shared,finishAll_initializing]
    exact ⟨List.mem_append_left _ began,initializing,hm⟩
  · rw [done.shared,mem_finishAll_pending] at hp
    obtain ⟨hsub,hsuper,inactive⟩:=ok.pending p hp.1 (before began)
    refine ⟨(done.list _).mpr ⟨hsub,fun hm=>?_⟩,(done.list _).mpr ⟨hsuper,hp.2⟩,
     fun h=>inactive (below _ h)⟩
    rcases done.mem hm with self|⟨q,hq,same,hq'⟩
    · exact inactive (self ▸ mem_activeClasses List.mem_cons_self rfl)
    · grind [List.inj_on_of_nodup_map,shok.once]
  · exact .inl ((initialized c).mpr (.inr (done.all c (List.mem_singleton.mpr rfl))))
 | putOff p _ super _=>
  refine ok.popped (fun f _=>⟨fun _=>List.mem_append_left _,fun _=>id,fun _=>.inl,
   fun _=>⟨.rfl,still⟩⟩) (fun d hd=>?_) (fun q hq began=>?_) (.inr held)
  · exact ⟨List.mem_append_left _ (ok.owns d hd).1,(ok.owns d hd).2⟩
  · grind [ok.pending]

end Finish

theorem SharedOk.fresh (shok:SharedOk superOf sh tr) (h:sh.initialized c=false)
 (h':sh.initializing c=false) (u:ℕ) : .began u c∉tr := fun hu=>by grind [shok.begun]

/-- What a step does to the shared state, that its events are in order, and that its thread stays
well. -/
theorem ThreadStep.keeps {th':Thread} {events:List Event} {sh':Shared}
 (shok:SharedOk superOf sh tr) (ok:ThreadOk superOf t sh tr th)
 (h:ThreadStep superOf t sh th events sh' th') :
 (Effect superOf t sh tr th.list events sh' th'.list ∧ EventsOk superOf tr events) ∧
  ThreadOk superOf t sh' (tr++events) th' := by
 have nothing:Effect superOf t sh tr th.list [] sh th.list ∧ EventsOk superOf tr [] :=
  ⟨.quiet [] nofun nofun nofun,eventsOk_nil tr⟩
 have returns:∀c,.marked c∈tr ∨ .began t c∈tr →
  Effect superOf t sh tr th.list [.returned t c] sh th.list ∧
   EventsOk superOf tr [.returned t c] := fun c hc =>
  ⟨.quiet _ (by simp) (by simp) (by simp),eventsOk_singleton hc⟩
 cases h with
 | call c fs l user=>
  refine ⟨nothing,ok.moveSilently (fun f hf=>?_) (.refl _) (ok.stack.call user)⟩
  rcases List.mem_cons.mp hf with rfl|hf
  · trivial
  · exact ok.frames f hf
 | enterSuper c p fs l hp _=>
  refine ⟨nothing,ok.moveSilently (fun f hf=>?_) (.refl _) ⟨.inl ⟨rfl,hp⟩,ok.stack.top rfl⟩⟩
  rcases List.mem_cons.mp hf with rfl|hf
  · trivial
  · rcases List.mem_cons.mp hf with rfl|hf
    · trivial
    · exact ok.frames f (List.mem_cons_of_mem _ hf)
 | enter c fs l ready=>exact ⟨nothing,ok.advance (fun p hp=>.inl (ready p hp)) nofun⟩
 | claim c fs l hinit hinitializing=>
  have fresh:=shok.fresh hinit hinitializing
  exact ⟨⟨.claim c fresh,eventsOk_singleton fresh⟩,ok.claim shok fresh⟩
 | lost c fs l begun=>exact ⟨nothing,ok.advance ((shok.begun c).mp begun.symm) nofun⟩
 | record c fs l l' hl'=>
  obtain ⟨-,began,-,unstarted⟩:=ok.frames _ List.mem_cons_self
  exact ⟨⟨.record c l' began unstarted hl',eventsOk_nil tr⟩,ok.recorded shok hl'⟩
 | recordFatal c fs l hl=>
  obtain ⟨-,-,unheld,-⟩:=ok.frames _ List.mem_cons_self
  exact absurd hl (InitializingClasses.record_isSome unheld)
 | callbackThrows c fs l | unwindSuper c fs l | unwindCallback c fs l=>exact ⟨nothing,ok.unwind⟩
 | callInitialize c fs l=>
  obtain ⟨ready,held,unstarted⟩:=ok.frames _ List.mem_cons_self
  have began:=(ok.owns c held).1
  refine ⟨⟨.quiet _ (by simp) (by simp) fun u d hd=>?_,eventsOk_singleton ⟨began,unstarted⟩⟩,
   ok.record_event rfl rfl nofun (by simp)
    ⟨ready,held,List.mem_append_right _ (List.mem_singleton.mpr rfl)⟩⟩
  grind
 | initializeEnds c _ fs l | unwindInitialize c fs l=>
  obtain ⟨ready,held,started⟩:=ok.frames _ List.mem_cons_self
  exact ⟨⟨.quiet _ (by simp) (by simp) (by simp),eventsOk_singleton ⟨t,started⟩⟩,
   ok.record_event rfl rfl nofun nofun
    ⟨ready,held,List.mem_append_right _ (List.mem_singleton.mpr rfl)⟩⟩
 | finish c fs l l' sh' marked eq=>
  have result:=finishResult_of_eq shok ok eq
  exact ⟨result.effect shok ok (.inr rfl),(result.thread shok ok (by simp) (by simp)).1⟩
 | finishThrown c fs l l' sh' marked eq=>
  have result:=finishResult_of_eq shok ok eq
  have effect:=result.effect shok ok (.inl rfl)
  rw [List.append_nil] at effect
  exact ⟨effect,(result.thread shok ok (by simp) (by simp)).2⟩
 | finishFatal c threw fs l eq=>grind [lockAndFinishInitializing_result]
 | seesInitializing c fs l _ | notMine c fs l _=>
  have begun:=ok.frames _ List.mem_cons_self
  exact ⟨nothing,ok.advance begun nofun⟩
 | seesNotInitializing c fs l hinitializing=>
  refine ⟨nothing,ok.advance
   (((shok.begun c).mpr (ok.frames _ List.mem_cons_self)).resolve_left ?_) nofun⟩
  grind
 | mine c fs l held=>exact ⟨returns c (.inr (ok.owns c held).1),ok.return rfl (.inr held)⟩
 | woken c fs l hinit | isInitialized c fs l hinit=>
  exact ⟨returns c (.inl ((shok.marked c).mp hinit)),ok.return rfl (.inl hinit)⟩
 | buggy c fs l hinit=>
  have hinit':sh.initialized c=true:=ok.frames _ List.mem_cons_self
  rw [hinit] at hinit'
  cases hinit'
 | caught fs l _=>exact ⟨nothing,ok.moveSilently ok.frames (.refl _) ok.stack⟩

end Own

theorem sound (superOf:ClassId → Option ClassId) :
 Sound (ThreadStep superOf) (SharedOk superOf) (ThreadOk superOf) where
 own shok ok h := by
  obtain ⟨⟨effect,ordered⟩,own⟩:=h.keeps shok ok
  exact ⟨shok.after ok.owns effect ordered,own⟩
 others ne shok ok ok' h := ok'.others ne shok ((h.keeps shok ok).1.1.footprint ok.owns)

theorem start_holds (superOf:ClassId → Option ClassId) :
 Holds (SharedOk superOf) (ThreadOk superOf) start where
 shared :=
  { fatal := rfl
    marked := by simp [start]
    begun := by simp [start]
    apart := nofun
    unique := nofun
    pending := nofun
    once := List.nodup_nil
    history := throughout_nil _ }
 threads _ :=
  { owns := nofun
    frames := nofun
    active := List.nodup_nil
    pending := nofun
    stack := trivial }

def startsClass (c:ClassId) : Event → Bool
 | .started _ d=>d=c
 | _=>false

structure InitializedOnce (superOf:ClassId → Option ClassId)
 (conf:Config Shared Thread Event) : Prop where
 noFatal : conf.shared.fatal=none
 flags : ∀c,(conf.shared.initialized c=true ↔ .marked c∈conf.trace) ∧
  (conf.shared.initializing c=true ↔ .marked c∉conf.trace ∧ ∃t,.began t c∈conf.trace)
 startedOnce : ∀c,conf.trace.countP (startsClass c)≤1
 markedLast : ∀before c after,conf.trace=before ++ .marked c::after →
  .ended c∈before ∧ ∀p,superOf c=some p → .marked p∈before
 returned : ∀before t c after,conf.trace=before ++ .returned t c::after →
  .marked c∈before ∨ .began t c∈before ∧ ∀u,.began u c∈before → u=t

/-- In every interleaving `+initialize` is started at most once per class, superclasses are marked
first, calls return properly and no fatal error is reached. -/
theorem initialize_once_superclass_first {superOf:ClassId → Option ClassId}
 {conf:Config Shared Thread Event} (run:Reachable (ThreadStep superOf) start conf) :
 InitializedOnce superOf conf := by
 have shok:=((start_holds superOf).reachable (sound superOf) run).shared
 refine ⟨shok.fatal,fun c=>⟨shok.marked c,?_⟩,fun c=>?_,fun before c after split=>?_,
  fun before t c after split=>?_⟩
 · rw [←shok.marked,←shok.begun]
   constructor
   · exact fun h=>⟨fun h'=>shok.apart c h h',.inl h⟩
   · exact fun ⟨h,h'⟩=>h'.resolve_right h
 · apply Throughout.countP_le_one
   intro before e after split he d hd
   cases e with
   | started t c'=>
    have same:c'=c:=of_decide_eq_true he
    have earlier:=(shok.history before _ after split).2
    cases d with
    | started u d=>
     apply decide_eq_false
     grind
    | began | ended | marked | returned=>rfl
   | began | ended | marked | returned=>cases he
 · exact shok.history before _ after split
 · refine (shok.history before _ after split).imp_right fun began=>⟨began,fun u hu=>?_⟩
   have whole:∀e∈before,e∈conf.trace:=fun e he=>by grind
   exact shok.unique u t c (whole _ hu) (whole _ began)

def superOfEight (c:ClassId) : Option ClassId := if c=8 then some 7 else none

theorem finish_alone (superOf:ClassId → Option ClassId) (sh:Shared) {l:InitializingClasses}
 {c:ClassId} (super:∀p,superOf c=some p → sh.initialized p=true) (empty:sh.pending=[])
 (held:c∈l.held) :
 ∃l',l.forget c=some l' ∧ lockAndFinishInitializing superOf sh l c=some (sh.finish c,l',[c]) := by
 obtain ⟨l',hl'⟩:=InitializingClasses.forget_isSome held
 refine ⟨l',hl',?_⟩
 cases hp : superOf c <;>
  simp [lockAndFinishInitializing,finishInitializing,hl',Shared.pendingOf,empty,hp,super]

/-- Two threads send the first message to a class whose superclass is not initialized either. -/
theorem initialize_once_two_threads :
 ∃conf,Reachable (ThreadStep superOfEight) start conf ∧
  conf.trace=[.began 0 7,.started 0 7,.ended 7,.marked 7,.returned 0 7,.began 0 8,.started 0 8,
   .ended 8,.marked 8,.returned 0 8,.returned 1 8] ∧
  InitializedOnce superOfEight conf := by
 obtain ⟨l,hl⟩ : ∃l,InitializingClasses.empty.record 7=some l:=⟨_,rfl⟩
 obtain ⟨l₁,forgot,finishes⟩:=finish_alone superOfEight
  (start.shared.setInitializing 7) (c:=7) nofun rfl
  ((InitializingClasses.mem_record hl 7).mpr (.inl rfl))
 have other:8∉l₁.held:=by
  rw [InitializingClasses.mem_forget forgot,InitializingClasses.mem_record hl]
  decide
 obtain ⟨l₂,hl₂⟩:=Option.ne_none_iff_exists'.mp (InitializingClasses.record_isSome other)
 let both:=((start.shared.setInitializing 7).finish 7).setInitializing 8
 obtain ⟨l₃,-,finishes'⟩:=finish_alone superOfEight both
  (by rintro p ⟨⟩; rfl) rfl ((InitializingClasses.mem_record hl₂ 8).mpr (.inl rfl))
 have claims:ThreadRun (ThreadStep superOfEight) 0 start.shared (start.threads 0) _ _ _ :=
  .cons (ThreadStep.call 8 [] .empty rfl) <| .cons (ThreadStep.enterSuper 8 7 [] .empty rfl rfl) <|
  .cons (ThreadStep.enter 7 _ .empty nofun) <| .cons (ThreadStep.claim 7 _ .empty rfl rfl) <|
  .cons (ThreadStep.record 7 _ .empty l hl) <| .cons (ThreadStep.callInitialize 7 _ l) <|
  .cons (ThreadStep.initializeEnds 7 false _ l) <|
  .cons (ThreadStep.finish 7 _ l l₁ _ [7] finishes) <|
  .cons (ThreadStep.claim 8 [] l₁ rfl rfl) <| .cons (ThreadStep.record 8 [] l₁ l₂ hl₂) <|
  .cons (ThreadStep.callInitialize 8 [] l₂) <| .nil _ _
 -- The second thread finds the class with the flag of the first and waits for it.
 have waits:ThreadRun (ThreadStep superOfEight) 1 both (start.threads 1) _ _ _ :=
  .cons (ThreadStep.call 8 [] .empty rfl) <|
  .cons (ThreadStep.enter 8 [] .empty (by rintro p ⟨⟩; rfl)) <|
  .cons (ThreadStep.lost 8 [] .empty (.inr rfl)) <|
  .cons (ThreadStep.seesInitializing 8 [] .empty rfl) <|
  .cons (ThreadStep.notMine 8 [] .empty (by decide)) <| .nil _ _
 have marks:ThreadRun (ThreadStep superOfEight) 0 both ⟨[⟨8,.running⟩],false,l₂⟩ _ _ _ :=
  .cons (ThreadStep.initializeEnds 8 false [] l₂) <|
  .cons (ThreadStep.finish 8 [] l₂ l₃ _ [8] finishes') <| .nil _ _
 have wakes:ThreadRun (ThreadStep superOfEight) 1 (both.finish 8)
  ⟨[⟨8,.waitForInitializeToComplete⟩],false,.empty⟩ _ _ _ :=
  .cons (ThreadStep.woken 8 [] .empty rfl) <| .nil _ _
 have run₁:=claims.reachable (c:=start) rfl rfl
 have run₂:=run₁.trans (waits.reachable rfl rfl)
 have run₃:=run₂.trans (marks.reachable rfl rfl)
 have run₄:=run₃.trans (wakes.reachable rfl rfl)
 exact ⟨_,run₄,rfl,initialize_once_superclass_first run₄⟩

end ObjcRuntime.ClassInitialize
