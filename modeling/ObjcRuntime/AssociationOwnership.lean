import ObjcRuntime.AssociationStore

/-!
Every reference that a set acquires is at one place at a time: with the call that is to store or
release it, stored under one object and key, or released.
-/

set_option autoImplicit false
namespace ObjcRuntime.Associations

open Interleaving
open Function

inductive Place
 | unborn
 | held (t:ℕ)
 | stored (object key:ℕ)
 | released
 deriving DecidableEq

def Event.releases (k:ℕ) : Event → Bool
 | .released _ a=>a.serial=some k
 | _=>false

def releaseCount (k:ℕ) (tr:List Event) : ℕ :=
 tr.countP (Event.releases k)

def noteRelease (t:ℕ) (seen:List Association) : Event → List Association
 | .locked u _=>if u=t then [] else seen
 | .released u a=>if u=t then seen++[a] else seen
 | _=>seen

/-- What thread `t` has released since its last locked section: in the call it is in, or in its
last one. -/
def callReleases (t:ℕ) (tr:List Event) : List Association :=
 tr.foldl (noteRelease t) []

/-- The associations whose references a call has yet to store or release. A removal that leaves
the system's associations in the map has no claim to them. -/
def Point.held : Point → List Association
 | .idle | .acquire .. | .autorelease .. => []
 | .store _ _ _ a | .note _ a | .release a=>[a]
 | .releaseAll deallocating refs later=>
  (if deallocating then refs else refs.filter fun a=>!a.isSystem)++later
 | .releaseLater later=>later

structure Association.Wf (tr:List Event) (a:Association) : Prop where
 policy : a.policy∈policies
 serial : a.serial.isSome=a.holdsValue
 acquired : ∀k,a.serial=some k → ∃t,Event.acquired t k a.value∈tr

/-- A get's retain is of a stored association, and an association that retains what is returned
is returned with a retain of the same get, autoreleased. -/
def GetOk (before:List Event) : Event → Prop
 | .retained _ object key a=>replay before object key=some a
 | .returned t object key a=>a.retainsReturned=true → ∃earlier,before.filter (fun e=>e.thread=t) =
   earlier++[.retained t object key a,.autoreleased t a]
 | _=>True

def PointOk (t:ℕ) (tr:List Event) : Point → Prop
 | .idle=>True
 | .acquire _ _ _ policy=>policy∈policies
 | .store _ _ value a=>value=0 → a.serial=none
 | .note _ _ | .release _=>callReleases t tr=[]
 | .autorelease object key a=>a.policy∈policies ∧ (a.retainsReturned=true → ∃earlier,
  tr.filter (fun e=>e.thread=t)=earlier++[.retained t object key a])
 | .releaseAll _ _ later=>
  (∀a∈callReleases t tr,a.isSystem=false) ∧ ∀a∈later,a.isSystem=true
 | .releaseLater later=>∀a∈later,a.isSystem=true

def Once (place:ℕ → Place) (tr:List Event) : Prop :=
 ∀k,releaseCount k tr=if place k=.released then 1 else 0

def Born (place:ℕ → Place) (tr:List Event) : Prop :=
 ∀k,place k≠.unborn ↔ ∃t v,Event.acquired t k v∈tr

def StoredAt (place:ℕ → Place) (st:Store) : Prop :=
 ∀k object key,place k=.stored object key ↔ ∃a,st object key=some a ∧ a.serial=some k

structure SharedOk (place:ℕ → Place) (s:Shared) (tr:List Event) : Prop where
 replayed : s.stored=replay tr
 wf : ∀object key a,s.stored object key=some a → a.Wf tr
 stored : StoredAt place s.stored
 once : Once place tr
 born : Born place tr
 unborn : ∀k,s.acquired ≤ k → place k=.unborn
 released : ∀t a,Event.released t a∈tr → a.Wf tr ∧ a.serial.isSome
 gets : Throughout GetOk tr

structure ThreadOk (place:ℕ → Place) (t:ℕ) (tr:List Event) (p:Point) : Prop where
 held : ∀k,place k=.held t ↔ ∃a∈p.held,a.serial=some k
 nodup : (p.held.filterMap Association.serial).Nodup
 wf : ∀a∈p.held,a.Wf tr
 ordered : (callReleases t tr).Pairwise fun a b=>a.isSystem=true → b.isSystem=true
 point : PointOk t tr p

section Policies

theorem setter_policy : ∀p∈policies,(p &&& 0xFF=1 ∧ p % 2=1) ∨ (p &&& 0xFF=3 ∧ p % 2=1) ∨
  (p &&& 0xFF≠1 ∧ p &&& 0xFF≠3 ∧ p % 2=0) := by
 decide

theorem getter_policy : ∀p∈policies,(p &&& (1 <<< 8)≠0 ↔ p &&& (2 <<< 8)≠0) := by
 decide

theorem autoreleasesReturned_eq {a:Association} (h:a.policy∈policies) :
 a.autoreleasesReturned=a.retainsReturned := by
 grind [Association.autoreleasesReturned,Association.retainsReturned,getter_policy]

theorem acquireValue_spec {policy:ℕ} (h:policy∈policies) (value copy serial:ℕ) :
 let a:=Association.acquireValue policy value copy serial
 a.policy=policy ∧ a.serial=(if a.holdsValue then some serial else none) ∧
  (value=0 → a.serial=none) := by
 rcases Nat.eq_zero_or_pos value with rfl|pos
 · simp [Association.acquireValue,Association.holdsValue]
 · grind [setter_policy,Association.acquireValue,Association.holdsValue]

end Policies

variable {k:ℕ} {s':Shared} {other:Association} {m:AssociationsHashMap}
 {refs:AList fun _ : ℕ=>Association} {forbids:ℕ → Bool}

section Traces

variable {t u:ℕ} {tr events:List Event} {place place':ℕ → Place}

theorem releaseCount_append (k:ℕ) :
 releaseCount k (tr++events)=releaseCount k tr+releaseCount k events :=
 List.countP_append

theorem callReleases_append :
 callReleases t (tr++events)=events.foldl (noteRelease t) (callReleases t tr) :=
 List.foldl_append

theorem callReleases_locked (does:Section) : callReleases t (tr++[.locked t does])=[] := by
 rw [callReleases_append]
 exact if_pos rfl

theorem foldl_noteRelease_of_others {seen:List Association} (h:∀e∈events,e.thread≠t) :
 events.foldl (noteRelease t) seen=seen := by
 induction events generalizing seen with
 | nil=>rfl
 | cons e events ih=>
  have other:=h e List.mem_cons_self
  have : noteRelease t seen e=seen:=by
   cases e <;> simp_all [noteRelease,Event.thread]
  grind

theorem filter_thread_of_others (h:∀e∈events,e.thread≠t) :
 (tr++events).filter (fun e=>e.thread=t)=tr.filter fun e=>e.thread=t := by simp_all

theorem Association.Wf.mono {a:Association} (h:a.Wf tr) : a.Wf (tr++events) := by
 refine ⟨h.policy,h.serial,fun k hk=>?_⟩
 grind [h.acquired]

theorem ThreadOk.frame {p:Point} (ok:ThreadOk place u tr p)
 (same:∀k,place' k=.held u ↔ place k=.held u) (others:∀e∈events,e.thread≠u) :
 ThreadOk place' u (tr++events) p := by
 have calls:callReleases u (tr++events)=callReleases u tr:=by
  rw [callReleases_append,foldl_noteRelease_of_others others]
 refine ⟨fun k=>(same k).trans (ok.held k),ok.nodup,fun a ha=>(ok.wf a ha).mono,?_,?_⟩
 · rw [calls]
   exact ok.ordered
 · have point:=ok.point
   cases p with
   | idle=>trivial
   | acquire object key value policy | store object key value a=>exact point
   | note object a | release a=>exact calls.trans point
   | autorelease object key a=>
    refine ⟨point.1,fun retains=>?_⟩
    rw [filter_thread_of_others others]
    exact point.2 retains
   | releaseAll deallocating refs later=>
    refine ⟨?_,point.2⟩
    rw [calls]
    exact point.1
   | releaseLater later=>exact point

def Event.isPlain : Event → Bool
 | .acquired .. | .released .. => false
 | _=>true

theorem Event.releases_of_isPlain {e:Event} (h:e.isPlain=true) (k:ℕ) : e.releases k=false := by
 cases e <;> first | rfl | cases h

def Moves (place place':ℕ → Place) : Prop :=
 ∀k,(place' k=.unborn ↔ place k=.unborn) ∧ (place' k=.released ↔ place k=.released)

theorem Moves.refl (place:ℕ → Place) : Moves place place :=
 fun _=>⟨.rfl,.rfl⟩

theorem Once.plain (h:Once place tr) (moves:Moves place place')
 (plain:∀e∈events,e.isPlain=true) : Once place' (tr++events) := by
 intro k
 have none:releaseCount k events=0 :=
  List.countP_eq_zero.mpr fun e he=>by grind [Event.releases_of_isPlain]
 rw [releaseCount_append,none,Nat.add_zero,h k]
 exact if_congr (moves k).2.symm rfl rfl

theorem mem_acquired_plain (plain:∀e∈events,e.isPlain=true) {v:ℕ} :
 Event.acquired t k v∈tr++events ↔ Event.acquired t k v∈tr := by
 rw [List.mem_append,or_iff_left fun h=>by cases plain _ h]

theorem Born.plain (h:Born place tr) (moves:Moves place place')
 (plain:∀e∈events,e.isPlain=true) : Born place' (tr++events) := by
 intro k
 simp only [mem_acquired_plain plain,ne_eq,(moves k).1]
 exact h k

theorem SharedOk.plain {s:Shared} (ok:SharedOk place s tr) (moves:Moves place place')
 (plain:∀e∈events,e.isPlain=true) (counter:s'.acquired=s.acquired)
 (replayed:s'.stored=events.foldl (fun st e=>e.apply st) s.stored)
 (wf:∀object key a,s'.stored object key=some a → a.Wf tr)
 (stored:StoredAt place' s'.stored)
 (gets:Throughout (fun before e=>GetOk (tr++before) e) events) :
 SharedOk place' s' (tr++events) where
 replayed := by rw [replay_append,←ok.replayed,replayed]
 wf := fun object key a h=>(wf object key a h).mono
 stored := stored
 once := ok.once.plain moves plain
 born := ok.born.plain moves plain
 unborn := fun k hk=>(moves k).1.mpr (ok.unborn k (counter ▸ hk))
 released := fun t a h=>by
  rcases List.mem_append.mp h with old|new
  · exact ⟨(ok.released t a old).1.mono,(ok.released t a old).2⟩
  · cases plain _ new
 gets := ok.gets.append gets

end Traces

/-- After a step of thread `t` some account of the references fits the map, the trace and the
thread, and no other thread holds more or fewer than before. -/
def Keeps (place:ℕ → Place) (t:ℕ) (tr events:List Event) (s':Shared) (p':Point) : Prop :=
 ∃place',SharedOk place' s' (tr++events) ∧ ThreadOk place' t (tr++events) p' ∧
  ∀u,u≠t → ∀k,place' k=.held u ↔ place k=.held u

def move (place:ℕ → Place) (a:Association) (goal:Place) (k:ℕ) : Place :=
 if a.serial=some k then goal else place k

section Steps

variable {place:ℕ → Place} {t:ℕ} {s:Shared} {tr events:List Event} {p p':Point}

theorem ThreadOk.place_of_mem (ok:ThreadOk place t tr p) {a:Association} (mem:a∈p.held)
 (hk:a.serial=some k) : place k=.held t :=
 (ok.held k).mpr ⟨a,mem,hk⟩

theorem keeps_still (shared:SharedOk place s tr) (ok:ThreadOk place t tr p)
 (perm:p.held.Perm p'.held) (plain:∀e∈events,e.isPlain=true)
 (unlocked:events.foldl (fun st e=>e.apply st) s.stored=s.stored)
 (gets:Throughout (fun before e=>GetOk (tr++before) e) events)
 (calls:callReleases t (tr++events)=callReleases t tr ∨ callReleases t (tr++events)=[])
 (point:PointOk t (tr++events) p') : Keeps place t tr events s p' := by
 refine ⟨place,shared.plain (.refl place) plain rfl unlocked.symm shared.wf shared.stored gets,
  ⟨fun k=>(ok.held k).trans ?_,?_,fun a ha=>(ok.wf a (perm.mem_iff.mpr ha)).mono,?_,point⟩,
  fun _ _ _=>.rfl⟩
 · simp only [perm.mem_iff]
 · exact (perm.filterMap _).nodup_iff.mp ok.nodup
 · rcases calls with same|none
   · rw [same]
     exact ok.ordered
   · rw [none]
     exact .nil

theorem throughout_plain {P:List Event → Event → Prop} (h:∀before,∀e∈events,P before e) :
 Throughout P events := by
 rintro before e after rfl
 exact h before e (by simp)

theorem keeps_silent (shared:SharedOk place s tr) (ok:ThreadOk place t tr p)
 (perm:p.held.Perm p'.held) (point:PointOk t tr p') : Keeps place t tr [] s p' := by
 apply keeps_still shared ok perm
 · exact nofun
 · rfl
 · exact throughout_nil _
 · exact .inl (by rw [List.append_nil])
 · rwa [List.append_nil]

theorem update_held_iff {n:ℕ} {q:Place} (fresh:place n=.unborn) (born:q≠.unborn)
 (other:q≠.held t) : update place n (.held t) k=q ↔ place k=q := by grind

theorem SharedOk.acquire (shared:SharedOk place s tr) {v:ℕ} :
 SharedOk (update place s.acquired (.held t)) {s with acquired:=s.acquired+1}
  (tr++[.acquired t s.acquired v]) := by
 have fresh:=shared.unborn s.acquired le_rfl
 constructor
 case replayed =>
  rw [replay_append,←shared.replayed]
  rfl
 case wf=>exact fun o key a h=>(shared.wf o key a h).mono
 case stored =>
  intro k o key
  rw [update_held_iff fresh (by simp) (by simp)]
  exact shared.stored k o key
 case once =>
  intro k
  rw [releaseCount_append,shared.once k]
  simp only [update_held_iff fresh (show Place.released≠.unborn by simp)
   (show Place.released≠.held t by simp)]
  rfl
 case born =>
  intro k
  by_cases same : k=s.acquired
  · grind
  · rw [update_of_ne same]
    simpa [same] using shared.born k
 case unborn=>grind [shared.unborn]
 case released =>
  intro u a h
  have old:Event.released u a∈tr:=by simpa using h
  exact ⟨(shared.released u a old).1.mono,(shared.released u a old).2⟩
 case gets=>exact shared.gets.append (throughout_plain fun _ e he=>by simp_all [GetOk])

theorem keeps_acquire {object key value policy copy:ℕ} (shared:SharedOk place s tr)
 (ok:ThreadOk place t tr (.acquire object key value policy)) {a:Association}
 (result:.acquireValue policy value copy s.acquired=a) :
 Keeps place t tr (if a.serial.isSome then [.acquired t s.acquired a.value] else [])
  {s with acquired:=s.acquired+1} (.store object key value a) := by
 obtain ⟨policy_eq,serial,nil⟩ :=
  result ▸ acquireValue_spec ok.point value copy s.acquired
 have fresh:=shared.unborn s.acquired le_rfl
 have none:∀k,place k≠.held t:=fun k h=>by
  obtain ⟨b,mem,-⟩:=(ok.held k).mp h
  cases mem
 have policy_mem:a.policy∈policies:=policy_eq ▸ ok.point
 by_cases holds : a.holdsValue=true
 · rw [if_pos holds] at serial
   rw [if_pos (by rw [serial]; rfl)]
   refine ⟨update place s.acquired (.held t),shared.acquire,⟨fun k=>?_,?_,?_,?_,
    nil⟩,fun u other k=>update_held_iff fresh (by simp) (by simpa using other)⟩
   · grind [Point.held]
   · simp [Point.held,serial]
   · intro b hb
     cases List.mem_singleton.mp hb
     refine ⟨policy_mem,by rw [serial,holds]; rfl,fun k hk=>⟨t,?_⟩⟩
     rw [serial] at hk
     cases hk
     simp
   · rw [callReleases_append]
     exact ok.ordered
 · rw [if_neg holds] at serial
   rw [if_neg (by rw [serial]; exact Bool.false_ne_true),Keeps,List.append_nil]
   refine ⟨place,{shared with unborn:=fun k hk=>shared.unborn k (Nat.le_of_succ_le hk)},
    ⟨fun k=>?_,?_,?_,ok.ordered,nil⟩,fun _ _ _=>.rfl⟩
   · simp [Point.held,serial,none k]
   · simp [Point.held,serial]
   · intro b hb
     cases List.mem_singleton.mp hb
     refine ⟨policy_mem,?_,fun k hk=>?_⟩
     · grind
     · rw [serial] at hk
       cases hk

section Sections

variable {object key:ℕ} {a old:Association}

theorem move_of_serial {goal:Place} (h:a.serial=some k) : move place a goal k=goal :=
 if_pos h

theorem move_of_ne {goal:Place} (h:a.serial≠some k) : move place a goal k=place k :=
 if_neg h

theorem SharedOk.place_old (shared:SharedOk place s tr) (empty:other.serial=none)
 (hold:old=(s.stored object key).getD other) (hk:old.serial=some k) :
 s.stored object key=some old ∧ place k=.stored object key := by
 cases found : s.stored object key with
 | none=>grind
 | some b=>
  have : old=b:=by rw [hold,found,Option.getD_some]
  subst this
  exact ⟨rfl,(shared.stored k object key).mpr ⟨old,found,hk⟩⟩

theorem SharedOk.wf_old (shared:SharedOk place s tr) (empty:other.Wf tr)
 (hold:old=(s.stored object key).getD other) : old.Wf tr := by
 cases found : s.stored object key with
 | none=>grind
 | some b=>grind [shared.wf]

theorem Association.empty_wf (tr:List Event) : Association.empty.Wf tr :=
 ⟨by decide,rfl,nofun⟩

theorem ThreadOk.replaced {place':ℕ → Place} {does:Section} (hp:p'.held=[old])
 (holds:∀k,place' k=.held t ↔ old.serial=some k) (wf:old.Wf tr)
 (point:callReleases t (tr++[.locked t does])=[] → PointOk t (tr++[.locked t does]) p') :
 ThreadOk place' t (tr++[.locked t does]) p' := by
 have calls:callReleases t (tr++[.locked t does])=[]:=callReleases_locked does
 refine ⟨fun k=>?_,?_,?_,?_,point calls⟩
 · rw [holds,hp]
   simp
 · rw [hp]
   cases h : old.serial <;> simp [h]
 · intro b hb
   rw [hp] at hb
   cases List.mem_singleton.mp hb
   exact wf.mono
 · rw [calls]
   exact .nil

theorem keeps_replace {does:Section} {new:Option Association} (shared:SharedOk place s tr)
 (ok:ThreadOk place t tr p)
 (hp:p.held=[a]) (hp':p'.held=[old]) (hnew:new=some a ∨ new=none ∧ a.serial=none)
 (applied:entry m=does.apply s.stored)
 (stored:∀o k,entry m o k=if o=object ∧ k=key then new else s.stored o k)
 (hold:old=(s.stored object key).getD other) (empty:other.serial=none)
 (wf:other.Wf tr)
 (point:callReleases t (tr++[.locked t does])=[] → PointOk t (tr++[.locked t does]) p') :
 Keeps place t tr [.locked t does] {s with associations:=m} p' := by
 have held_iff:∀k,place k=.held t ↔ a.serial=some k:=by
  simpa [hp] using ok.held
 have mine:=fun {k}=>(held_iff k).mpr
 have his:=fun {k}=>shared.place_old (k:=k) empty hold
 have apart:∀{k},a.serial=some k → old.serial≠some k:=fun hk hk'=>by grind
 have own:∀{b},new=some b → b=a:=fun hb=>by grind
 refine ⟨move (move place old (.held t)) a (.stored object key),?_,
  .replaced hp' (fun k=>?_) (shared.wf_old wf hold) point,fun u other k=>?_⟩
 · refine shared.plain (fun k=>?_) ?_ rfl applied (fun o k b h=>?_) (fun k o key'=>?_)
    (throughout_singleton trivial)
   · grind [move_of_serial,move_of_ne]
   · exact List.forall_mem_singleton.mpr rfl
   · change entry m o k=some b at h
     grind [ok.wf,shared.wf]
   · change _ ↔ ∃b,entry m o key'=some b ∧ b.serial=some k
     rw [stored]
     have was:=shared.stored k o key'
     grind [move_of_serial,move_of_ne]
 · grind [move_of_serial,move_of_ne]
 · by_cases hk : a.serial=some k
   · rw [move_of_serial hk,mine hk]
     simp [Ne.symm other]
   · rw [move_of_ne hk]
     by_cases hk' : old.serial=some k
     · rw [move_of_serial hk',(his hk').2]
       simp [Ne.symm other]
     · rw [move_of_ne hk']

theorem keeps_establish {value:ℕ} {first:Bool} (shared:SharedOk place s tr)
 (ok:ThreadOk place t tr (.store object key value a))
 (result:establish s.associations object key a=(m,old,first)) :
 Keeps place t tr [.locked t (.set object key a)] {s with associations:=m}
  (if first then .note object old else .release old) := by
 obtain ⟨stored,hold⟩:=establish_spec result
 apply keeps_replace shared ok rfl _ (.inl rfl) stored (fun o k=>congrFun₂ stored o k) hold rfl
  (Association.empty_wf tr)
 · intro calls
   cases first <;> exact calls
 · cases first <;> rfl

theorem keeps_clear (shared:SharedOk place s tr) (ok:ThreadOk place t tr (.store object key 0 a))
 (result:clear s.associations object key a=(m,old)) :
 Keeps place t tr [.locked t (.clear object key)] {s with associations:=m}
  (.release old) := by
 obtain ⟨stored,hold⟩:=clear_spec result
 have none:a.serial=none:=ok.point rfl
 exact keeps_replace shared ok rfl rfl (.inr ⟨rfl,none⟩) stored
  (fun o k=>congrFun₂ stored o k) hold none (ok.wf a List.mem_cons_self) id

def takeOut (place:ℕ → Place) (st:Store) (t k:ℕ) : Place :=
 match place k with
 | .stored o key=>if (st o key).isNone then .held t else .stored o key
 | q=>q

theorem takeOut_stored_iff {st:Store} {o key':ℕ} : takeOut place st t k=.stored o key' ↔
  place k=.stored o key' ∧ (st o key').isNone=false := by
 unfold takeOut
 cases h : place k with
 | stored o₁ key₁=>grind
 | unborn | held u | released=>simp

theorem takeOut_held_iff {st:Store} {u:ℕ} : takeOut place st t k=.held u ↔ place k=.held u ∨
  (u=t ∧ ∃o key,place k=.stored o key ∧ (st o key).isNone=true) := by
 unfold takeOut
 cases h : place k with
 | stored o key=>grind
 | unborn | held v | released=>simp

theorem takeOut_moves (st:Store) : Moves place (takeOut place st t) := by
 intro k
 grind [takeOut]

theorem mem_taken {deallocating:Bool} (order:refs.toFinmap=(s.associations.lookup object).getD ∅) :
 a∈(Point.releaseAll deallocating (refs.entries.map Sigma.snd) []).held ↔
  ∃key,s.stored object key=some a ∧
   ((Section.remove object deallocating).apply s.stored object key).isNone=true := by
 have listed:(∃k,(⟨k,a⟩ : Σ _ : ℕ,Association)∈refs.entries) ↔ ∃k,s.stored object k=some a := by
  apply exists_congr
  intro k
  change _ ↔ entry s.associations object k=some a
  rw [entry_of_lookup,←order,Finmap.lookup_toFinmap]
  exact AList.mem_lookup_iff.symm
 grind [Point.held,Section.apply]

theorem SharedOk.nodup_serials (shared:SharedOk place s tr)
 (order:refs.toFinmap=(s.associations.lookup object).getD ∅) :
 ((refs.entries.map Sigma.snd).filterMap Association.serial).Nodup := by
 have listed:∀ref∈refs.entries,s.stored object ref.1=some ref.2:=by
  intro ref mem
  change entry s.associations object ref.1=_
  rw [entry_of_lookup,←order,Finmap.lookup_toFinmap]
  exact AList.mem_lookup_iff.mpr mem
 rw [List.Nodup,List.pairwise_filterMap,List.pairwise_map]
 refine (List.nodupKeys_iff_pairwise.mp refs.nodupKeys).imp_of_mem ?_
 rintro x y hx hy differ k hk k' hk' rfl
 have px:=(shared.stored k object x.1).mpr ⟨x.2,listed x hx,hk⟩
 have py:=(shared.stored k object y.1).mpr ⟨y.2,listed y hy,hk'⟩
 grind

theorem keeps_remove {deallocating:Bool} (shared:SharedOk place s tr) (ok:ThreadOk place t tr .idle)
 (order:refs.toFinmap=(s.associations.lookup object).getD ∅) :
 Keeps place t tr [.locked t (.remove object deallocating)]
  {s with associations:=takeAssociations s.associations object deallocating refs.entries}
  (.releaseAll deallocating (refs.entries.map Sigma.snd) []) := by
 have stored:entry (takeAssociations s.associations object deallocating refs.entries) =
  (Section.remove object deallocating).apply s.stored := takeAssociations_spec order
 have kept:∀{o key b},(Section.remove object deallocating).apply s.stored o key=some b →
  s.stored o key=some b := by grind [Section.apply,Option.filter_eq_some_iff]
 have elsewhere:∀{o key b},s.stored o key=some b →
  ((Section.remove object deallocating).apply s.stored o key).isNone=true → o=object := by
  grind [Section.apply]
 refine ⟨takeOut place ((Section.remove object deallocating).apply s.stored) t,?_,
  ⟨fun k=>?_,?_,fun a ha=>?_,?_,?_⟩,fun u other k=>?_⟩
 · refine shared.plain (takeOut_moves _) ?_ rfl stored (fun o k b h=>?_) (fun k o key'=>?_)
    (throughout_singleton trivial)
   · exact List.forall_mem_singleton.mpr rfl
   · change entry _ o k=some b at h
     rw [stored] at h
     exact shared.wf o k b (kept h)
   · change _ ↔ ∃b,entry _ o key'=some b ∧ _
     rw [stored,takeOut_stored_iff,shared.stored k o key']
     constructor
     · rintro ⟨⟨b,hb,hk⟩,left⟩
       obtain ⟨b',hb'⟩:=Option.isSome_iff_exists.mp (by simpa using left)
       grind
     · grind
 · have none:place k≠.held t:=fun h=>by
    obtain ⟨b,mem,-⟩:=(ok.held k).mp h
    cases mem
   rw [takeOut_held_iff,or_iff_right none]
   simp only [mem_taken order,true_and]
   constructor
   · rintro ⟨o,key',at_key,gone⟩
     obtain ⟨b,hb,hk⟩:=(shared.stored k o key').mp at_key
     cases elsewhere hb gone
     exact ⟨b,⟨key',hb,gone⟩,hk⟩
   · rintro ⟨b,⟨key',hb,gone⟩,hk⟩
     exact ⟨object,key',(shared.stored k object key').mpr ⟨b,hb,hk⟩,gone⟩
 · grind [shared.nodup_serials,Point.held,List.filter_sublist]
 · obtain ⟨key',hb,-⟩:=(mem_taken order).mp ha
   exact (shared.wf object key' a hb).mono
 · rw [callReleases_locked]
   exact .nil
 · refine ⟨?_,fun a ha=>absurd ha List.not_mem_nil⟩
   rw [callReleases_locked]
   exact fun a ha=>absurd ha List.not_mem_nil
 · rw [takeOut_held_iff]
   simp [other]

end Sections

section Releases

variable {a:Association}

theorem callReleases_releaseEvents : callReleases t (tr++releaseEvents t a) =
  callReleases t tr++if a.holdsValue then [a] else [] := by
 rw [callReleases_append,releaseEvents]
 split
 · exact if_pos rfl
 · exact (List.append_nil _).symm

theorem SharedOk.release (shared:SharedOk place s tr) (held:place k=.held t) (wf:a.Wf tr)
 (serial:a.serial=some k) :
 SharedOk (update place k .released) s (tr++[.released t a]) := by
 have same:∀{j q},q≠.held t → q≠.released →
  (update place k .released j=q ↔ place j=q) := by grind
 constructor
 case replayed =>
  rw [replay_append,←shared.replayed]
  rfl
 case wf=>exact fun o key b h=>(shared.wf o key b h).mono
 case stored =>
  intro j o key
  rw [same (by simp) (by simp)]
  exact shared.stored j o key
 case once =>
  intro j
  have one:releaseCount j [.released t a]=if j=k then 1 else 0:=by
   simp [releaseCount,Event.releases,serial,List.countP_cons,eq_comm]
  rw [releaseCount_append,one,shared.once j]
  grind
 case born =>
  intro j
  rw [Ne,same (by simp) (by simp),←Ne,shared.born j]
  simp
 case unborn=>grind [shared.unborn]
 case released =>
  intro u b h
  rcases List.mem_append.mp h with old|new
  · exact ⟨(shared.released u b old).1.mono,(shared.released u b old).2⟩
  · grind [wf.mono]
 case gets=>exact shared.gets.append (throughout_singleton trivial)

theorem keeps_release (shared:SharedOk place s tr) (ok:ThreadOk place t tr p) (hp:p.held=a::p'.held)
 (later:∀b∈callReleases t tr,b.isSystem=true → a.isSystem=true)
 (point:PointOk t (tr++releaseEvents t a) p') :
 Keeps place t tr (releaseEvents t a) s p' := by
 have mem:a∈p.held:=hp ▸ List.mem_cons_self
 have rest:∀b∈p'.held,b∈p.held:=fun b hb=>hp ▸ List.mem_cons_of_mem a hb
 have wf:=ok.wf a mem
 have nodup:=ok.nodup
 rw [hp,List.filterMap_cons] at nodup
 have ordered:(callReleases t (tr++releaseEvents t a)).Pairwise
  fun a b=>a.isSystem=true → b.isSystem=true := by
  grind [callReleases_releaseEvents,ok.ordered]
 by_cases holds : a.holdsValue=true
 · obtain ⟨k,serial⟩:=Option.isSome_iff_exists.mp (wf.serial.trans holds)
   have held:=ok.place_of_mem mem serial
   simp only [serial,List.nodup_cons,List.mem_filterMap,not_exists,not_and] at nodup
   have events:releaseEvents t a=[.released t a]:=if_pos holds
   rw [events] at point ordered ⊢
   refine ⟨update place k .released,shared.release held wf serial,
    ⟨fun j=>?_,nodup.2,fun b hb=>(ok.wf b (rest b hb)).mono,ordered,point⟩,
    fun u other j=>?_⟩
   · grind [ok.held]
   · grind
 · have none:a.serial=none:=by
    rw [←Option.not_isSome_iff_eq_none,wf.serial]
    exact holds
   have events:releaseEvents t a=[]:=if_neg holds
   rw [none] at nodup
   rw [events] at point ordered ⊢
   rw [List.append_nil] at point ordered
   rw [Keeps,List.append_nil]
   refine ⟨place,shared,⟨fun j=>?_,nodup,fun b hb=>ok.wf b (rest b hb),ordered,point⟩,
    fun _ _ _=>.rfl⟩
   have was:=ok.held j
   simpa [hp,none] using was

end Releases

section Gets

variable {object key:ℕ} {a:Association}

theorem keeps_get (shared:SharedOk place s tr) (ok:ThreadOk place t tr .idle)
 (found:(s.stored object key).getD .empty=a) :
 Keeps place t tr
  (.locked t (.get object key)::if a.retainsReturned then [.retained t object key a] else [])
  s (.autorelease object key a) := by
 have policy:a.policy∈policies:=(shared.wf_old (Association.empty_wf tr) found.symm).policy
 have stored (retains:a.retainsReturned=true) : s.stored object key=some a:=by
  cases h : s.stored object key with
  | none=>
   rw [h,Option.getD_none] at found
   rw [←found] at retains
   cases retains
  | some b=>rw [←found,h,Option.getD_some]
 apply keeps_still shared ok
 · exact .refl _
 · split <;> simp [Event.isPlain]
 · split <;> rfl
 · split
   next retains=>
    refine throughout_pair trivial (?_ : replay (tr++[_]) object key=some a)
    rw [replay_append,←shared.replayed]
    exact stored retains
   next=>exact throughout_singleton trivial
 · right
   rw [callReleases_append]
   split <;> exact if_pos rfl
 · refine ⟨policy,fun retains=>⟨tr.filter (fun e=>e.thread=t)++[.locked t (.get object key)],?_⟩⟩
   simp [retains,Event.thread]

theorem keeps_autorelease (shared:SharedOk place s tr)
 (ok:ThreadOk place t tr (.autorelease object key a)) :
 Keeps place t tr
  ((if a.autoreleasesReturned then [.autoreleased t a] else [])++[.returned t object key a])
  s .idle := by
 obtain ⟨policy,retained⟩:=ok.point
 rw [autoreleasesReturned_eq policy]
 apply keeps_still shared ok
 · exact .refl _
 · split <;> simp [Event.isPlain]
 · split <;> rfl
 · split
   next retains=>
    obtain ⟨earlier,last⟩:=retained retains
    refine throughout_pair trivial fun _=>⟨earlier,?_⟩
    grind [Event.thread]
   next plain=>exact throughout_singleton fun h=>absurd h plain
 · left
   rw [callReleases_append]
   split <;> rfl
 · trivial

end Gets

theorem Event.thread_releaseEvents {a:Association} : ∀e∈releaseEvents t a,e.thread=t := by
 intro e he
 unfold releaseEvents at he
 split at he
 · cases List.mem_singleton.mp he
   rfl
 · cases he

theorem ThreadStep.thread_eq (step:ThreadStep forbids t s p events s' p') :
 ∀e∈events,e.thread=t := by
 cases step with
 | release | releaseOne | releaseLater=>exact Event.thread_releaseEvents
 | acquire copy result=>
  intro e he
  split at he
  · cases List.mem_singleton.mp he
    rfl
  · cases he
 | get object key found | autorelease=>
  intro e he
  split at he <;> simp at he
  · rcases he with rfl|rfl <;> rfl
  · subst he
    rfl
 | _=>simp [Event.thread]

theorem ThreadStep.keeps (shared:SharedOk place s tr) (ok:ThreadOk place t tr p)
 (step:ThreadStep forbids t s p events s' p') :
 Keeps place t tr events s' p' := by
 cases step with
 | set object key value policy _ _ public_=>exact keeps_silent shared ok (.refl _) public_
 | acquire copy result=>exact keeps_acquire shared ok result
 | establish _ result=>exact keeps_establish shared ok result
 | clear result=>exact keeps_clear shared ok result
 | @note _ _ object association=>
  apply keeps_still shared ok
  · exact .refl _
  · exact List.forall_mem_singleton.mpr rfl
  · rfl
  · exact throughout_singleton trivial
  · exact .inl callReleases_append
  · exact callReleases_append.trans ok.point
 | @release _ _ a=>
  apply keeps_release shared ok rfl
  · have none:callReleases t tr=[]:=ok.point
    rw [none]
    exact nofun
  · trivial
 | get object key found=>exact keeps_get shared ok found
 | autorelease=>exact keeps_autorelease shared ok
 | remove object deallocating refs order=>exact keeps_remove shared ok order
 | @releaseOne a _ _ deallocating refs later normal=>
  apply keeps_release shared ok
  · cases deallocating <;> simp [Point.held,normal]
  · intro b hb system
    rw [ok.point.1 b hb] at system
    cases system
  · refine ⟨fun b hb=>?_,ok.point.2⟩
    rw [callReleases_releaseEvents] at hb
    rcases List.mem_append.mp hb with old|new
    · exact ok.point.1 b old
    · grind
 | putOff system=>
  apply keeps_silent shared ok
  · grind [Point.held]
  · refine ⟨ok.point.1,fun b hb=>?_⟩
    split at hb
    · rcases List.mem_append.mp hb with old|new
      · exact ok.point.2 b old
      · grind
    · exact ok.point.2 b hb
 | turnToLater=>
  apply keeps_silent shared ok
  · simp [Point.held]
  · exact ok.point.2
 | @releaseLater _ _ a later=>
  apply keeps_release shared ok rfl
  · exact fun _ _ _=>ok.point a List.mem_cons_self
  · exact fun b hb=>ok.point b (List.mem_cons_of_mem a hb)
 | removed=>exact keeps_silent shared ok (.refl _) trivial

end Steps

theorem start_ok : Holds (SharedOk fun _=>.unborn)
 (fun t _ tr p=>ThreadOk (fun _=>.unborn) t tr p) start := by
 constructor
 · constructor
   case replayed=>rfl
   case wf=>exact nofun
   case stored=>exact fun _ _ _=>iff_of_false (by simp) fun ⟨_,h,_⟩=>nomatch h
   case once=>exact fun _=>rfl
   case born=>exact fun _=>iff_of_false (by simp) fun ⟨_,_,h⟩=>nomatch h
   case unborn=>exact fun _ _=>rfl
   case released=>exact nofun
   case gets=>exact throughout_nil _
 · exact fun t=>⟨fun k=>by simp [start,Point.held],List.nodup_nil,nofun,
    List.Pairwise.nil,trivial⟩

theorem reachable_ok {c:Config Shared Point Event} (run:Reachable (ThreadStep forbids) start c) :
 HoldsWith SharedOk (fun place t _ tr p=>ThreadOk place t tr p) c := by
 refine HoldsWith.reachable ?_ ⟨_,start_ok⟩ run
 intro place t s tr p events s' p' shared ok step
 obtain ⟨place',shared',ok',others⟩:=step.keeps shared ok
 refine ⟨place',shared',ok',fun {u} {q} other old=>old.frame (others u other) fun e he=>?_⟩
 rw [step.thread_eq e he]
 exact other.symm

def StoredUnder (s:Shared) (k object key:ℕ) : Prop :=
 ∃a,s.stored object key=some a ∧ a.serial=some k

def InFlight (p:Point) (k:ℕ) : Prop :=
 ∃a∈p.held,a.serial=some k

def Accounted (c:Config Shared Point Event) (k:ℕ) : Prop :=
 (releaseCount k c.trace=1 ∧ (∀object key,¬StoredUnder c.shared k object key) ∧
  ∀t,¬InFlight (c.threads t) k) ∨
  (releaseCount k c.trace=0 ∧ (∃! place : ℕ × ℕ,StoredUnder c.shared k place.1 place.2) ∧
   ∀t,¬InFlight (c.threads t) k) ∨
  (releaseCount k c.trace=0 ∧ (∀object key,¬StoredUnder c.shared k object key) ∧
   ∃! t,InFlight (c.threads t) k)

theorem accounted_of_place {place:ℕ → Place} {c:Config Shared Point Event}
 (once:Once place c.trace) (stored:StoredAt place c.shared.stored)
 (held:∀t,place k=.held t ↔ InFlight (c.threads t) k) (born:place k≠.unborn) :
 Accounted c k := by
 have count:=once k
 have under:=stored k
 cases h : place k with
 | unborn=>exact absurd h born
 | released=>
  simp only [h,if_true,reduceCtorEq,false_iff] at count under held
  exact .inl ⟨count,under,held⟩
 | stored object key=>
  simp only [h,reduceCtorEq,if_false,false_iff,Place.stored.injEq] at count under held
  refine .inr (.inl ⟨count,⟨(object,key),(under object key).mp ⟨rfl,rfl⟩,?_⟩,held⟩)
  rintro ⟨o,k'⟩ there
  obtain ⟨rfl,rfl⟩:=(under o k').mpr there
  rfl
 | held t=>
  simp only [h,reduceCtorEq,if_false,false_iff,Place.held.injEq] at count under held
  exact .inr (.inr ⟨count,under,t,(held t).mp rfl,fun u hu=>((held u).mpr hu).symm⟩)

/-- However the three functions run against each other: the associations are those of the locked
sections in their order; the references that sets acquired are accounted for, and nothing else is
released; what a get returns under a retaining policy was retained while stored, then autoreleased;
the system's associations stay in a removal from an object that lives on, and else are released
last. -/
theorem associations_conserve_references (forbids:ℕ → Bool) (c:Config Shared Point Event)
 (run:Reachable (ThreadStep forbids) start c) :
 c.shared.stored=replay c.trace ∧
 (∀u k v,Event.acquired u k v∈c.trace → Accounted c k) ∧
 (∀u a,Event.released u a∈c.trace → ∃t k,a.serial=some k ∧ Event.acquired t k a.value∈c.trace) ∧
 ((∀t,c.threads t=.idle) → ∀u k v,Event.acquired u k v∈c.trace →
   (releaseCount k c.trace=1 ∧ ∀object key,¬StoredUnder c.shared k object key) ∨
   (releaseCount k c.trace=0 ∧ ∃object key,StoredUnder c.shared k object key)) ∧
 Throughout GetOk c.trace ∧
 (∀c' t object key a,Step (ThreadStep forbids) c c' →
  c'.trace=c.trace++[.locked t (.remove object false)] →
  c.shared.stored object key=some a → a.isSystem=true →
  c'.shared.stored object key=some a) ∧
 ∀t,(callReleases t c.trace).Pairwise fun a b=>a.isSystem=true → b.isSystem=true := by
 obtain ⟨place,shared,threads⟩:=reachable_ok run
 have accounted:∀u k v,Event.acquired u k v∈c.trace → Accounted c k:=fun u k v h =>
  accounted_of_place shared.once shared.stored (fun t=>(threads t).held k)
   ((shared.born k).mpr ⟨u,v,h⟩)
 refine ⟨shared.replayed,accounted,fun u a h=>?_,fun idle u k v h=>?_,shared.gets,
  fun c' t object key a step last stored system=>?_,fun t=>(threads t).ordered⟩
 · obtain ⟨wf,some⟩:=shared.released u a h
   obtain ⟨k,hk⟩:=Option.isSome_iff_exists.mp some
   obtain ⟨t,ht⟩:=wf.acquired k hk
   exact ⟨t,k,hk,ht⟩
 · rcases accounted u k v h with ⟨count,none,-⟩|⟨count,⟨at_,here,-⟩,-⟩|⟨-,-,t,ht,-⟩
   · exact .inl ⟨count,none⟩
   · exact .inr ⟨count,at_.1,at_.2,here⟩
   · obtain ⟨a,ha,-⟩:=ht
     rw [idle t] at ha
     cases ha
 · obtain ⟨_,shared',-⟩:=reachable_ok (run.tail step)
   rw [shared'.replayed,last,replay_append,←shared.replayed]
   simp [Event.apply,Section.apply,stored,system]

def nine : Association := ⟨0o1401,9,some 0⟩

def ten : Association := ⟨0o1401,10,some 1⟩

def nineStored (acquired:ℕ) : Shared := ⟨(establish ∅ 5 1 nine).1,acquired⟩

/-- A get retains the value that another set is about to replace, and returns it after that one is
released. -/
theorem associations_replaced_while_read : ∃c,Reachable (ThreadStep fun _=>false) start c ∧
  Event.released 1 nine∈c.trace ∧ Event.returned 2 5 1 nine∈c.trace ∧
  Accounted c 0 ∧ Accounted c 1 ∧ Throughout GetOk c.trace := by
 have sets:ThreadRun (ThreadStep fun _=>false) 0 start.shared (start.threads 0)
  [.acquired 0 0 9,.locked 0 (.set 5 1 nine),.noted 0 5] (nineStored 1) .idle :=
  .cons (ThreadStep.set 5 1 9 0o1401 (by decide) rfl (by decide)) <|
  .cons (ThreadStep.acquire 0 rfl) <| .cons (ThreadStep.establish (by decide) rfl) <|
  .cons ThreadStep.note <| .cons ThreadStep.release <| .nil _ _
 have acquires:ThreadRun (ThreadStep fun _=>false) 1 (nineStored 1) (start.threads 1)
  [.acquired 1 1 10] (nineStored 2) (.store 5 1 10 ten) :=
  .cons (ThreadStep.set 5 1 10 0o1401 (by decide) rfl (by decide)) <|
  .cons (ThreadStep.acquire 0 rfl) <| .nil _ _
 have reads:ThreadRun (ThreadStep fun _=>false) 2 (nineStored 2) (start.threads 2)
  [.locked 2 (.get 5 1),.retained 2 5 1 nine] (nineStored 2) (.autorelease 5 1 nine) :=
  .cons (ThreadStep.get 5 1 rfl) <| .nil _ _
 have replaces:ThreadRun (ThreadStep fun _=>false) 1 (nineStored 2) (.store 5 1 10 ten)
  [.locked 1 (.set 5 1 ten),.released 1 nine]
  ⟨(establish (nineStored 2).associations 5 1 ten).1,2⟩ .idle :=
  .cons (ThreadStep.establish (by decide) rfl) <| .cons ThreadStep.release <| .nil _ _
 have returns:ThreadRun (ThreadStep fun _=>false) 2
  ⟨(establish (nineStored 2).associations 5 1 ten).1,2⟩ (.autorelease 5 1 nine)
  [.autoreleased 2 nine,.returned 2 5 1 nine] _ .idle :=
  .cons ThreadStep.autorelease <| .nil _ _
 have run:=((((sets.reachable (c:=start) rfl rfl).trans (acquires.reachable rfl rfl)).trans
  (reads.reachable rfl rfl)).trans (replaces.reachable rfl rfl)).trans (returns.reachable rfl rfl)
 obtain ⟨-,accounted,-,-,gets,-⟩:=associations_conserve_references _ _ run
 exact ⟨_,run,by simp,by simp,accounted 0 0 9 (by simp),accounted 1 1 10 (by simp),gets⟩

end ObjcRuntime.Associations
