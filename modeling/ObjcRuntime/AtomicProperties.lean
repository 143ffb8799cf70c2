import ObjcRuntime.Interleaving

/-!
Atomic properties. The getter retains the value under the lock; a setter retains or copies,
exchanges under the lock and releases the value it replaced. Every retain and copy gives out one
reference.
-/

set_option autoImplicit false
namespace ObjcRuntime.AtomicProperties
open Interleaving

/-- The object, 0 for nil, and the number of the reference to it. -/
structure Ref where
 object : ℕ
 number : ℕ

inductive Event
 | retained (t:ℕ) (r:Ref)
 | exchanged (t:ℕ) (stored old:Ref)
 | released (t:ℕ) (r:Ref)
 | got (t:ℕ) (r slot:Ref)

structure Shared where
 slot : Ref
 next : ℕ

inductive Kind
 | retain
 | copy
 | mutableCopy

inductive Local
 | idle
 | set (kind:Kind) (newValue:ℕ)
 | differs (newValue:ℕ)
 | holding (newValue:Ref)
 | replaced (oldValue:Ref)
 | get
 | getDone (value:Ref)

/-- `objc_getProperty` and `reallySetProperty`; what a copy returns is up to the class. -/
inductive Step : ThreadStep Shared Local Event
 | set {t s} (kind v) : Step t s .idle [] s (.set kind v)
 | same {t} {s:Shared} : Step t s (.set .retain s.slot.object) [] s .idle
 | differ {t} {s:Shared} {v} (ne:s.slot.object≠v) : Step t s (.set .retain v) [] s (.differs v)
 | retain {t} {s:Shared} {v} : Step t s (.differs v) [.retained t ⟨v,s.next⟩]
   ⟨s.slot,s.next+1⟩ (.holding ⟨v,s.next⟩)
 | copy {t} {s:Shared} {kind v} (copies:kind≠.retain) (w) :
   Step t s (.set kind v) [.retained t ⟨w,s.next⟩] ⟨s.slot,s.next+1⟩ (.holding ⟨w,s.next⟩)
 | exchange {t} {s:Shared} {r} : Step t s (.holding r) [.exchanged t r s.slot]
   ⟨r,s.next⟩ (.replaced s.slot)
 | release {t s old} : Step t s (.replaced old) [.released t old] s .idle
 | get {t s} : Step t s .idle [] s .get
 | getRetain {t} {s:Shared} : Step t s .get [.got t ⟨s.slot.object,s.next⟩ s.slot]
   ⟨s.slot,s.next+1⟩ (.getDone ⟨s.slot.object,s.next⟩)
 | getReturn {t s r} : Step t s (.getDone r) [] s .idle

variable (first:Ref)

def start : Config Shared Local Event := ⟨⟨first,first.number+1⟩,fun _=>.idle,[]⟩

structure Outstanding (tr:List Event) (r:Ref) : Prop where
 given : r=first ∨ ∃t,.retained t r∈tr
 kept : ∀t,.released t r∉tr
 inSlot : ∀t new,.exchanged t new r∉tr

def releases (r:Ref) : Event → Bool
 | .released _ d=>d.number=r.number
 | _=>false

structure Linked (s:Shared) (tr:List Event) : Prop where
 low : first.number < s.next ∧ s.slot.number < s.next
 given : ∀t r,.retained t r∈tr → first.number < r.number ∧ r.number < s.next
 givenOnce : ∀t u r d,.retained t r∈tr → .retained u d∈tr → r.number=d.number → t=u ∧ r=d
 source : ∀t r o,.exchanged t r o∈tr → .retained t r∈tr
 slot : s.slot=first ∨ ∃t o,.exchanged t s.slot o∈tr
 current : ∀t r o,.exchanged t r o∈tr → o.number≠s.slot.number
 old : ∀t r o,.exchanged t r o∈tr → o=first ∨ ∃u p,.exchanged u o p∈tr
 replacedOnce : ∀t u r d o p,.exchanged t r o∈tr → .exchanged u d p∈tr → o.number=p.number →
  t=u ∧ o=p
 present : ∀t r o,.exchanged t r o∈tr → r=s.slot ∨ ∃u d,.exchanged u d r∈tr
 releasedBy : ∀t r,.released t r∈tr → ∃d,.exchanged t d r∈tr

structure SharedOk (s:Shared) (tr:List Event) : Prop extends Linked first s tr where
 once : ∀r,tr.countP (releases r)≤1
 got : Throughout (fun before e=>∀t r slot,e=.got t r slot →
  r.object=slot.object ∧ Outstanding first before slot) tr

/-- Everything the thread has replaced, but for what it has still to release, is released. -/
def Settled (t:ℕ) (tr:List Event) (but:Ref → Prop) : Prop :=
 ∀r o,.exchanged t r o∈tr → ¬ but o → .released t o∈tr

def ThreadOk (t:ℕ) (tr:List Event) : Local → Prop
 | .holding r=>Settled t tr (fun _=>False) ∧ .retained t r∈tr ∧
  ∀u d o,.exchanged u d o∈tr → d.number≠r.number
 | .replaced old=>Settled t tr (· = old) ∧ (∃r,.exchanged t r old∈tr) ∧
  ∀u d,.released u d∈tr → d.number≠old.number
 | _=>Settled t tr fun _=>False

section Steps

variable {first} {s:Shared} {tr:List Event} {t:ℕ} {r:Ref}

section

variable (ok:SharedOk first s tr)
include ok

theorem SharedOk.outstanding : Outstanding first tr s.slot := by
 have fresh : ∀t new,.exchanged t new s.slot∉tr:=fun t new h=>ok.current t new _ h rfl
 refine ⟨ok.slot.imp id fun ⟨t,o,h⟩=>⟨t,ok.source t _ o h⟩,fun t h=>?_,fresh⟩
 obtain ⟨d,h⟩:=ok.releasedBy t _ h
 exact fresh t d h

theorem SharedOk.append {s':Shared} {e:Event}
 (linked:Linked first s' (tr++[e])) (once:∀r,releases r e=true → tr.countP (releases r)=0)
 (got:∀t r slot,e=.got t r slot → r.object=slot.object ∧ Outstanding first tr slot) :
 SharedOk first s' (tr++[e]) := by
 refine ⟨linked,fun r=>?_,ok.got.append (throughout_singleton (by simpa using got))⟩
 rw [List.countP_append,List.countP_singleton]
 split
 next h=>simp [once r h]
 next=>exact ok.once r

theorem SharedOk.retained (v:ℕ) :
 SharedOk first ⟨s.slot,s.next+1⟩ (tr++[.retained t ⟨v,s.next⟩]) := by
 refine ok.append ?_ nofun nofun
 obtain ⟨low,given,givenOnce,source,slot,current,old,replacedOnce,present,releasedBy⟩:=ok.toLinked
 constructor <;> grind

theorem SharedOk.exchanged (own:ThreadOk t tr (.holding r)) :
 SharedOk first ⟨r,s.next⟩ (tr++[.exchanged t r s.slot]) := by
 refine ok.append ?_ nofun nofun
 obtain ⟨low,given,givenOnce,source,slot,current,old,replacedOnce,present,releasedBy⟩:=ok.toLinked
 obtain ⟨-,mine,unused⟩:=own
 constructor <;> grind

theorem SharedOk.released (own:ThreadOk t tr (.replaced r)) :
 SharedOk first s (tr++[.released t r]) := by
 obtain ⟨-,⟨d,mine⟩,unreleased⟩:=own
 refine ok.append ?_ (fun o same=>List.countP_eq_zero.mpr fun e he=>?_) nofun
 · obtain ⟨low,given,givenOnce,source,slot,current,old,replacedOnce,present,releasedBy⟩:=ok.toLinked
   constructor <;> grind
 · cases e <;> grind [releases]

theorem SharedOk.getter :
 SharedOk first ⟨s.slot,s.next+1⟩ (tr++[.got t ⟨s.slot.object,s.next⟩ s.slot]) := by
 refine ok.append ?_ nofun ?_
 · obtain ⟨low,given,givenOnce,source,slot,current,old,replacedOnce,present,releasedBy⟩:=ok.toLinked
   constructor <;> grind
 · rintro _ _ _ ⟨⟩
   exact ⟨rfl,ok.outstanding⟩

end

theorem Settled.append {but:Ref → Prop} {e:Event} (h:Settled t tr but)
 (other:∀r o,e≠.exchanged t r o) : Settled t (tr++[e]) but := by
 intro r o mem free
 grind [h r o]

theorem ThreadOk.append {l:Local} {e:Event} (h:ThreadOk t tr l) (other:∀r o,e≠.exchanged t r o)
 (stored:∀r u d o,l=.holding r → e=.exchanged u d o → d.number≠r.number)
 (released:∀r u d,l=.replaced r → e=.released u d → d.number≠r.number) :
 ThreadOk t (tr++[e]) l := by
 cases l with
 | holding r=>
  obtain ⟨settled,mine,unused⟩:=h
  exact ⟨settled.append other,by simp [mine],by grind⟩
 | replaced old=>
  obtain ⟨settled,mine,unreleased⟩:=h
  exact ⟨settled.append other,by grind,by grind⟩
 | _=>exact Settled.append h other

theorem ThreadOk.holds (ok:SharedOk first s tr) (settled:Settled t tr fun _=>False) (v:ℕ) :
 ThreadOk t (tr++[.retained t ⟨v,s.next⟩]) (.holding ⟨v,s.next⟩) := by
 refine ⟨settled.append nofun,by simp,fun u d o mem eq=>?_⟩
 have mem : .exchanged u d o∈tr:=by simpa using mem
 have low:=(ok.given u d (ok.source u d o mem)).2
 exact absurd eq (Nat.ne_of_lt low)

theorem ThreadOk.exchanged (ok:SharedOk first s tr) (own:ThreadOk t tr (.holding r)) :
 ThreadOk t (tr++[.exchanged t r s.slot]) (.replaced s.slot) := by
 refine ⟨fun d o mem free=>?_,⟨r,by simp⟩,fun u d mem=>?_⟩
 · grind [own.1 d o]
 · obtain ⟨d',mem⟩:=ok.releasedBy u d (by simpa using mem)
   exact ok.current u d' d mem

theorem ThreadOk.released (own:ThreadOk t tr (.replaced r)) :
 ThreadOk t (tr++[.released t r]) .idle := by
 intro d o mem _
 grind [own.1 d o]

end Steps

theorem sound : Sound Step (SharedOk first) (fun t _=>ThreadOk t) where
 own := by
  intro t s tr l events s' l' ok own step
  cases step with
  | set | same | differ | get | getReturn=>simpa using ⟨ok,own⟩
  | retain | copy=>exact ⟨ok.retained _,.holds ok own _⟩
  | exchange=>exact ⟨ok.exchanged own,.exchanged ok own⟩
  | release=>exact ⟨ok.released own,own.released⟩
  | getRetain=>exact ⟨ok.getter,Settled.append own nofun⟩
 others := by
  intro t u s tr l m events s' l' ne ok own other step
  cases step with
  | set | same | differ | get | getReturn=>simpa using other
  | retain | copy | getRetain=>exact other.append nofun nofun nofun
  | @exchange r=>
   refine other.append (by grind) ?_ nofun
   rintro d _ _ _ rfl ⟨⟩ eq
   exact ne (ok.givenOnce _ _ _ _ other.2.1 own.2.1 eq.symm).1
  | @release old=>
   refine other.append nofun nofun ?_
   rintro d _ _ rfl ⟨⟩ eq
   obtain ⟨-,⟨r,mine⟩,-⟩:=own
   obtain ⟨-,⟨r',theirs⟩,-⟩:=other
   exact ne (ok.replacedOnce _ _ _ _ _ _ theirs mine eq.symm).1

structure Conserved (c:Config Shared Local Event) : Prop where
 slot : Outstanding first c.trace c.shared.slot
 got : Throughout (fun before e=>∀t r slot,e=.got t r slot →
  r.object=slot.object ∧ Outstanding first before slot) c.trace
 returned : (∀t,c.threads t=.idle) → ∀t r o,.exchanged t r o∈c.trace →
  r=c.shared.slot ∧ c.trace.countP (releases r)=0 ∨ c.trace.countP (releases r)=1 ∧
   ∃u d,.exchanged u d r∈c.trace ∧ .released u r∈c.trace

theorem references_conserved {c:Config Shared Local Event} (run:Reachable Step (start first) c) :
 Conserved first c := by
 have begins : Holds (SharedOk first) (fun t _=>ThreadOk t) (start first):=by
  refine ⟨⟨by constructor <;> simp [start],by simp [start],throughout_nil _⟩,fun t=>?_⟩
  simp [start,ThreadOk,Settled]
 obtain ⟨ok,threads⟩:=begins.reachable (sound first) run
 refine ⟨ok.outstanding,ok.got,fun idle t r o mem=>?_⟩
 obtain rfl|⟨u,d,replaced⟩:=ok.present t r o mem
 · refine .inl ⟨rfl,List.countP_eq_zero.mpr fun e he same=>?_⟩
   cases e with
   | released u d=>
    obtain ⟨d',replaced⟩:=ok.releasedBy u d he
    exact ok.current u d' d replaced (by simpa [releases] using same)
   | _=>cases same
 · have settled:=threads u
   rw [idle u] at settled
   have released:=settled d r replaced id
   have some_ : 0 < c.trace.countP (releases r) :=
    List.countP_pos_iff.mpr ⟨_,released,by simp [releases]⟩
   exact .inr ⟨Nat.le_antisymm (ok.once r) some_,u,d,replaced,released⟩

/-- Two setters and a getter: the value that the second stored is read, and replaced by the first.
-/
theorem overlapping_conserved : ∃c,Reachable Step (start ⟨0,0⟩) c ∧ c.shared.slot=⟨5,1⟩ ∧
  c.trace=[.retained 0 ⟨5,1⟩,.retained 1 ⟨6,2⟩,.exchanged 1 ⟨6,2⟩ ⟨0,0⟩,.got 2 ⟨6,3⟩ ⟨6,2⟩,
   .exchanged 0 ⟨5,1⟩ ⟨6,2⟩,.released 0 ⟨6,2⟩] ∧ Conserved ⟨0,0⟩ c := by
 have first:ThreadRun Step 0 ⟨⟨0,0⟩,1⟩ .idle _ ⟨⟨0,0⟩,2⟩ (.holding ⟨5,1⟩) :=
  .cons (.set .retain 5) (.cons (.differ (by decide)) (.cons .retain (.nil _ _)))
 have second:ThreadRun Step 1 ⟨⟨0,0⟩,2⟩ .idle _ ⟨⟨6,2⟩,3⟩ (.replaced ⟨0,0⟩) :=
  .cons (.set .retain 6) (.cons (.differ (by decide)) (.cons .retain (.cons .exchange (.nil _ _))))
 have getter:ThreadRun Step 2 ⟨⟨6,2⟩,3⟩ .idle _ ⟨⟨6,2⟩,4⟩ .idle :=
  .cons .get (.cons .getRetain (.cons .getReturn (.nil _ _)))
 have stores:ThreadRun Step 0 ⟨⟨6,2⟩,4⟩ (.holding ⟨5,1⟩) _ ⟨⟨5,1⟩,4⟩ .idle :=
  .cons .exchange (.cons .release (.nil _ _))
 have run:=(((first.reachable (c:=start ⟨0,0⟩) rfl rfl).trans (second.reachable rfl rfl)).trans
  (getter.reachable rfl rfl)).trans (stores.reachable rfl rfl)
 exact ⟨_,run,rfl,rfl,references_conserved _ run⟩

end ObjcRuntime.AtomicProperties
