import Mathlib

/-!
Alternate exception handlers of one thread. `call_alt_handlers` goes over the slots by index and
clears each before it calls the handler, which may add and remove handlers itself.
-/

set_option autoImplicit false
namespace ObjcRuntime.AltHandlers

structure FrameRange where
 ip_start : ℕ
 ip_end : ℕ
 cfa : ℕ
 ips : Option (List (ℕ × ℕ))

/-- `findHandler` has found a frame, so that the slot of a handler never looks cleared. The number
tells handlers apart, in the order in which they are added. -/
structure Handler where
 frame : FrameRange
 found : frame.ip_start≠0
 fn : Option ℕ
 number : ℕ

def matches_ (ip cfa:ℕ) (h:Handler) : Bool :=
 h.frame.ip_start ≤ ip && ip < h.frame.ip_end && h.frame.cfa=cfa &&
  h.frame.ips.all fun ips=>ips.any fun r=>r.1 ≤ ip && ip < r.2

structure HandlerList where
 slots : List (Option Handler)
 used : ℕ

/-- `allocated*2 ?: 4`, an `unsigned int`. -/
def grown (allocated:ℕ) : ℕ := if allocated*2 % 2^32=0 then 4 else allocated*2 % 2^32

/-- `objc_addExceptionHandler`, with the slot it takes; `none` is the fatal error. A write past the
end of the array is not seen in it. -/
def HandlerList.add (l:HandlerList) (h:Handler) : Option (HandlerList × ℕ) :=
 if l.used=l.slots.length then
  let n:=grown l.slots.length
  some (⟨(l.slots.take n++List.replicate (n-l.used) none).set l.used (some h),l.used+1⟩,l.used)
 else
  let i:=l.slots.findIdx (·.isNone)
  if i=l.slots.length then none else some (⟨l.slots.set i (some h),l.used+1⟩,i)

def HandlerList.get (l:HandlerList) (i:ℕ) : Option Handler := l.slots.getD i none

def HandlerList.clear (l:HandlerList) (i:ℕ) : HandlerList := ⟨l.slots.set i none,l.used-1⟩

inductive Event
 | added (number:ℕ)
 | removed (number:ℕ)
 | called (number:ℕ)
 | dropped (number:ℕ)
 deriving DecidableEq

def Handler.taken (h:Handler) : Event :=
 if h.fn.isSome then .called h.number else .dropped h.number

structure Call where
 ip : ℕ
 cfa : ℕ
 slots : List (Option Handler)
 start : ℕ

inductive Phase
 | outside
 | loop (call:Call) (i:ℕ)
 | callback (call:Call) (i:ℕ)

structure State where
 list : HandlerList
 phase : Phase
 trace : List Event

def start : State := ⟨⟨[],0⟩,.outside,[]⟩

def Phase.user : Phase → Prop
 | .loop .. => False
 | _=>True

/-- The steps of the thread. `touch` says when the program adds and removes handlers, `may`
restricts where they are added; a token is valid when the slot it names has a handler. -/
inductive Step (may:HandlerList → Handler → Prop) (touch:Phase → Prop) : State → State → Prop
 | add {s:State} {h:Handler} {l} {i:ℕ} (user:touch s.phase) (number:h.number=s.trace.length)
  (allowed:may s.list h) (added:s.list.add h=some (l,i)) :
   Step may touch s {s with list:=l,trace:=s.trace++[.added h.number]}
 | remove {s:State} {h:Handler} {i} (user:touch s.phase) (valid:s.list.slots[i]?=some (some h)) :
   Step may touch s {s with list:=s.list.clear i,trace:=s.trace++[.removed h.number]}
 | call {s:State} {ip cfa} (outside:s.phase=.outside) (some_:s.list.used≠0) :
   Step may touch s {s with phase:=.loop ⟨ip,cfa,s.list.slots,s.trace.length⟩ 0}
 | skip {s:State} {c:Call} {i} {slot:Option Handler} (at_:s.phase=.loop c i)
  (read:s.list.slots[i]?=some slot) (other:slot.all (!matches_ c.ip c.cfa ·)) :
   Step may touch s {s with phase:=.loop c (i+1)}
 | take {s:State} {c:Call} {i} {h:Handler} (at_:s.phase=.loop c i)
  (read:s.list.slots[i]?=some (some h)) (same:matches_ c.ip c.cfa h) :
   Step may touch s ⟨s.list.clear i,.callback c i,s.trace++[h.taken]⟩
 | back {s:State} {c i} (at_:s.phase=.callback c i) :
   Step may touch s {s with phase:=.loop c (i+1)}
 | done {s:State} {c:Call} {i:ℕ} (at_:s.phase=.loop c i) (end_:s.list.slots.length ≤ i) :
  Step may touch s {s with phase:=.outside}

def Reachable (may:HandlerList → Handler → Prop) (s:State) : Prop :=
 Relation.ReflTransGen (Step may Phase.user) start s

section Slots

variable {l l':HandlerList} {h:Handler} {i:ℕ}

def HandlerList.Counted (l:HandlerList) : Prop := l.used=l.slots.countP (·.isSome)

theorem HandlerList.get_of_read {slot:Option Handler} (read:l.slots[i]?=some slot) :
 l.get i=slot := by
 rw [get,List.getD_eq_getElem?_getD,read]
 rfl

theorem HandlerList.get_set (slots:List (Option Handler)) (n:ℕ) (slot:Option Handler)
 (hi:i < slots.length) (j:ℕ) :
 (⟨slots.set i slot,n⟩ : HandlerList).get j=if j=i then slot else slots.getD j none := by
 grind [get]

theorem HandlerList.counted_put {slots:List (Option Handler)} {n:ℕ}
 (counted:(⟨slots,n⟩ : HandlerList).Counted) (hi:i < slots.length) (free:slots[i]=none) :
 (⟨slots.set i (some h),n+1⟩ : HandlerList).Counted := by grind [Counted]

theorem grown_of_lt {n:ℕ} (few:n<2^31) : grown n=if n=0 then 4 else 2*n := by
 rw [grown]
 grind

def Few (l:HandlerList) : Prop := l.used<2^31

theorem HandlerList.add_spec (counted:l.Counted) (few:Few l) (added:l.add h=some (l',i)) :
 l'.Counted ∧ l.get i=none ∧ ∀j,l'.get j=if j=i then some h else l.get j := by
 rw [add] at added
 split at added
 next full=>
  have more:l.slots.length < grown l.slots.length:=by grind [grown_of_lt,Few]
  dsimp only at added
  rw [List.take_of_length_le (by omega)] at added
  obtain ⟨n,eq⟩:=Nat.exists_eq_add_of_lt more
  rw [show grown l.slots.length-l.used=n+1 by omega] at added
  simp only [Option.some.injEq,Prod.mk.injEq] at added
  obtain ⟨rfl,rfl⟩:=added
  have more:(⟨l.slots++List.replicate (n+1) none,l.used⟩ : HandlerList).Counted:=by
   simpa [Counted,List.countP_append,List.countP_replicate] using counted
  have hi:l.used < (l.slots++List.replicate (n+1) none).length:=by simp; omega
  refine ⟨counted_put more hi (by simp [full]),by simp [get,full],fun j=>?_⟩
  rw [get_set _ _ _ hi]
  simp only [get,List.getD_eq_getElem?_getD,List.getElem?_append,List.getElem?_replicate]
  grind
 next=>
  dsimp only at added
  split at added
  · cases added
  next room=>
   cases added
   have hi:=Nat.lt_of_le_of_ne List.findIdx_le_length room
   have free:l.slots[l.slots.findIdx (·.isNone)]=none :=
    Option.isNone_iff_eq_none.mp (List.findIdx_getElem (w:=hi))
   refine ⟨counted_put counted hi free,?_,get_set _ _ _ hi⟩
   grind [get]

theorem HandlerList.add_ne_none (counted:l.Counted) : l.add h≠none := by
 rw [add]
 split
 · simp
 next short=>
  dsimp only
  split
  next none_=>
   have all:∀slot∈l.slots,slot.isSome=true:=by
    simpa using List.findIdx_eq_length.mp none_
   exact absurd (counted.trans (List.countP_eq_length.mpr all)) short
  next=>simp

theorem HandlerList.Counted.empty (counted:l.Counted) (zero:l.used=0) (i:ℕ) : l.get i=none := by
 rw [Counted,zero] at counted
 have none_:=List.countP_eq_zero.mp counted.symm
 rw [get,List.getD_eq_getElem?_getD]
 rcases eq : l.slots[i]? with _|slot
 · rfl
 · simpa using none_ slot (List.mem_of_getElem? eq)

theorem HandlerList.clear_spec (counted:l.Counted) (read:l.slots[i]?=some (some h)) :
 (l.clear i).Counted ∧ ∀j,(l.clear i).get j=if j=i then none else l.get j := by
 obtain ⟨hi,eq⟩:=List.getElem?_eq_some_iff.mp read
 refine ⟨?_,get_set _ _ _ hi⟩
 grind [Counted, clear]

end Slots

def Event.number : Event → ℕ
 | added n | removed n | called n | dropped n=>n

def ends (n:ℕ) : Event → Bool
 | .added _=>false
 | .removed m | .called m | .dropped m=>m=n

/-- What the loop has left to do for the handlers that were there when the call began, from slot `i`
on. -/
def LoopOk (s:State) (c:Call) (i:ℕ) : Prop :=
 c.start ≤ s.trace.length ∧
 ∀j h,c.slots.getD j none=some h → matches_ c.ip c.cfa h=true →
  (∃e∈s.trace.drop c.start,e=.removed h.number ∨ e=h.taken) ∨ i ≤ j ∧ s.list.get j=some h

def PhaseOk (s:State) : Prop :=
 match s.phase with
 | .outside=>True
 | .loop c i=>LoopOk s c i
 | .callback c i=>LoopOk s c (i+1)

structure ListOk (l:HandlerList) (trace:List Event) : Prop where
 counted : l.Counted
 bound : ∀e∈trace,e.number < trace.length
 known : ∀i h,l.get i=some h → h.number < trace.length ∧ trace.countP (ends h.number)=0
 unique : ∀i j h g,l.get i=some h → l.get j=some g → h.number=g.number → i=j
 once : ∀n,trace.countP (ends n)≤1

theorem LoopOk.weaken {s s':State} {c:Call} {i i':ℕ} (h:LoopOk s c i) {e:List Event}
 (trace:s'.trace=s.trace++e)
 (keeps:∀j g,s.list.get j=some g → matches_ c.ip c.cfa g=true → i ≤ j →
  (∃d∈e,d=.removed g.number ∨ d=g.taken) ∨ i' ≤ j ∧ s'.list.get j=some g) :
 LoopOk s' c i' := by
 refine ⟨by grind [h.1],fun j g hj hm=>?_⟩
 have drop:s'.trace.drop c.start=s.trace.drop c.start++e:=by
  rw [trace,List.drop_append_of_le_length h.1]
 rcases h.2 j g hj hm with ⟨d,hd,what⟩|⟨le,there⟩
 · exact .inl ⟨d,by simp [drop,hd],what⟩
 · grind

section Steps

variable {l l':HandlerList} {trace:List Event} {h:Handler} {i:ℕ}

theorem ListOk.add (ok:ListOk l trace) (few:Few l) (number:h.number=trace.length)
 (added:l.add h=some (l',i)) : ListOk l' (trace++[.added h.number]) := by
 obtain ⟨counted,free,get⟩:=HandlerList.add_spec ok.counted few added
 have same:∀n,(trace++[Event.added h.number]).countP (ends n)=trace.countP (ends n):=by
  simp [List.countP_append,ends]
 have new:trace.countP (ends trace.length)=0:=by
  refine List.countP_eq_zero.mpr fun e he=>?_
  have:=ok.bound e he
  cases e <;> simp [ends,Event.number] at this ⊢ <;> omega
 refine ⟨counted,fun e he=>?_,fun j g hg=>?_,fun j k g g' hg hg' eq=>?_,fun n=>?_⟩
 · have:=ok.bound e
   grind [Event.number]
 · rw [same]
   have:=ok.known j g
   grind
 · have:=ok.known j g
   have:=ok.known k g'
   have:=ok.unique j k g g'
   grind
 · rw [same]
   exact ok.once n

theorem ListOk.gone (ok:ListOk l trace) (read:l.slots[i]?=some (some h)) {e:Event}
 (end_:∀n,ends n e=decide (n=h.number)) (number:e.number=h.number) :
 ListOk (l.clear i) (trace++[e]) := by
 obtain ⟨counted,get⟩:=HandlerList.clear_spec ok.counted read
 have here:=HandlerList.get_of_read read
 have count:∀n,(trace++[e]).countP (ends n) =
   trace.countP (ends n)+if n=h.number then 1 else 0 := by
  simp [List.countP_append,List.countP_singleton,end_]
 obtain ⟨low,none_⟩:=ok.known i h here
 refine ⟨counted,fun d hd=>?_,fun j g hg=>?_,fun j k g g' hg hg' eq=>?_,fun n=>?_⟩
 · have:=ok.bound d
   grind
 · have:=ok.known j g
   have:=ok.unique i j h g here
   grind
 · have:=ok.unique j k g g'
   grind
 · rw [count]
   have:=ok.once n
   grind

theorem Handler.taken_ends (h:Handler) :
 (∀n,ends n h.taken=decide (n=h.number)) ∧ h.taken.number=h.number := by
 rw [taken]
 split <;> simp [ends,Event.number,eq_comm]

structure Inv (s:State) : Prop where
 list : ListOk s.list s.trace
 phase : PhaseOk s

variable {may:HandlerList → Handler → Prop}

theorem Inv.step (few:∀l h,may l h → Few l) {s s':State}
 (inv:Inv s) (step:Step may Phase.user s s') : Inv s' := by
 obtain ⟨list,phase⟩:=inv
 cases step with
 | @add h l i user number allowed added=>
  refine ⟨list.add (few _ _ allowed) number added,?_⟩
  obtain ⟨-,free,get⟩:=HandlerList.add_spec list.counted (few _ _ allowed) added
  rw [PhaseOk] at phase ⊢
  split at phase
  next=>simp [*]
  next=>simp_all [Phase.user]
  grind [phase.weaken]
 | @remove h i user valid=>
  refine ⟨list.gone valid (by simp [ends,eq_comm]) rfl,?_⟩
  obtain ⟨-,get⟩:=HandlerList.clear_spec list.counted valid
  have here:=HandlerList.get_of_read valid
  rw [PhaseOk] at phase ⊢
  split at phase
  next=>simp [*]
  next=>simp_all [Phase.user]
  grind [phase.weaken]
 | @call ip cfa outside some_=>
  refine ⟨list,⟨Nat.le_refl _,fun j h hj _=>.inr ⟨Nat.zero_le j,hj⟩⟩⟩
 | @skip c i slot at_ read other=>
  refine ⟨list,?_⟩
  have here:=HandlerList.get_of_read read
  rw [PhaseOk,at_] at phase
  refine phase.weaken (e:=[]) (by simp) fun j g hg hm le=>.inr ⟨?_,hg⟩
  grind
 | @take c i h at_ read same=>
  obtain ⟨end_,number⟩:=h.taken_ends
  refine ⟨list.gone read end_ number,?_⟩
  obtain ⟨-,get⟩:=HandlerList.clear_spec list.counted read
  have here:=HandlerList.get_of_read read
  rw [PhaseOk,at_] at phase
  refine phase.weaken (e:=[h.taken]) rfl fun j g hg hm le=>?_
  simp only [get]
  grind
 | @back c i at_=>
  rw [PhaseOk,at_] at phase
  exact ⟨list,phase⟩
 | @done c i at_ end_=>exact ⟨list,trivial⟩

theorem Reachable.inv (few:∀l h,may l h → Few l) {s:State}
 (run:Reachable may s) : Inv s := by
 induction run with
 | refl=>exact ⟨by constructor <;> simp [start,HandlerList.get,HandlerList.Counted],trivial⟩
 | tail _ step ih=>exact ih.step few step

/-- The slots count, there is room when there should be, a handler goes once, and a call that comes
to the end has called what was there and was not removed. -/
structure Accounted (s:State) : Prop where
 used : s.list.used=s.list.slots.countP (·.isSome)
 empty : s.list.used=0 → ∀i,s.list.get i=none
 sound : ∀h,s.list.add h≠none
 once : ∀n,s.trace.countP (ends n)≤1
 all : ∀c i,s.phase=.loop c i → s.list.slots.length ≤ i → ∀j h,c.slots.getD j none=some h →
  matches_ c.ip c.cfa h=true → h.fn.isSome=true →
   .called h.number∈s.trace.drop c.start ∨ .removed h.number∈s.trace.drop c.start

theorem handlers_accounted {s:State} (run:Reachable (fun l _=>Few l) s) : Accounted s := by
 obtain ⟨list,phase⟩:=run.inv fun _ _ few=>few
 refine ⟨list.counted,list.counted.empty,fun h=>HandlerList.add_ne_none list.counted,list.once,?_⟩
 intro c i at_ end_ j h hj hm fn
 rw [PhaseOk,at_] at phase
 rcases phase.2 j h hj hm with ⟨e,he,rfl|rfl⟩|⟨le,there⟩
 · exact .inr he
 · rw [Handler.taken,if_pos fn] at he
   exact .inl he
 · grind [HandlerList.get]

theorem HandlerList.length_add (few:Few l) (added:l.add h=some (l',i)) :
 l'.used=l.used+1 ∧ (l'.slots.length=l.slots.length ∨
  l.used=l.slots.length ∧ l'.slots.length=if l.used=0 then 4 else 2*l.used) := by
 rw [add] at added
 split at added
 next full=>
  cases added
  have:=grown_of_lt few
  grind
 next=>grind

def nth (n:ℕ) : Handler := ⟨⟨1,2,0,none⟩,by decide,some 0,n⟩

theorem filled : ∀n≤2^31,∃s,Reachable (fun _ _=>True) s ∧ s.phase=.outside ∧
  s.list.used=n ∧ s.list.Counted ∧
  (s.list.slots.length=0 ∨ ∃k≤31,s.list.slots.length=2^k) := by
 intro n
 induction n with
 | zero=>exact fun _=>⟨start,.refl,rfl,rfl,rfl,.inl rfl⟩
 | succ n ih=>
  intro le
  obtain ⟨s,run,out,rfl,counted,size⟩:=ih (by omega)
  have few:Few s.list:=le
  obtain ⟨⟨l,i⟩,added⟩:=Option.ne_none_iff_exists'.mp (HandlerList.add_ne_none counted
   (h:=nth s.trace.length))
  obtain ⟨used,length⟩:=HandlerList.length_add few added
  refine ⟨_,run.tail (.add (by rw [out]; trivial) rfl trivial added),out,used,
   (HandlerList.add_spec counted few added).1,?_⟩
  rcases length with same|⟨full,double⟩
  · rwa [same]
  rw [Few] at few
  rcases size with zero|⟨k,hk,pow⟩
  · exact .inr ⟨2,by decide,by simp [double,full,zero]⟩
  · have : k≠31:=by grind
    refine .inr ⟨k+1,by omega,?_⟩
    rw [double,full,pow,if_neg (by simp),Nat.pow_succ']

/-- With 2³¹ handlers the size doubles to 0, so that the array shrinks to four. -/
theorem doubling_wraps : ∃s,Reachable (fun _ _=>True) s ∧ ¬ Accounted s := by
 obtain ⟨s,run,out,used,counted,size⟩:=filled (2^31) (Nat.le_refl _)
 rw [HandlerList.Counted] at counted
 have le:=List.countP_le_length (p:=(·.isSome)) (l:=s.list.slots)
 have full:s.list.slots.length=2^31:=by
  obtain zero | ⟨k,hk,eq⟩:=size
  · omega
  · have:=Nat.pow_le_pow_right (n:=2) (by decide) hk
    omega
 have added:∃l i,s.list.add (nth s.trace.length)=some (l,i) ∧ l.used=2^31+1 ∧ l.slots.length=4 := by
  simp [HandlerList.add,used,full,grown]
 obtain ⟨l,i,added,more,four⟩:=added
 refine ⟨_,run.tail (.add (by rw [out]; trivial) rfl trivial added),fun acc=>?_⟩
 have eq:l.used=l.slots.countP (·.isSome):=acc.used
 grind

def Common (h g:Handler) : Prop := ∃ip cfa,matches_ ip cfa h=true ∧ matches_ ip cfa g=true

/-- No slot below a handler with which it has a frame in common is free. -/
def Above (l:HandlerList) (h:Handler) : Prop :=
 Few l ∧ ∀i j g,i < j → l.get i=none → l.get j=some g → ¬ Common h g

def Ordered (l:HandlerList) : Prop :=
 ∀i j h g,i < j → l.get i=some h → l.get j=some g → Common h g → h.number < g.number

theorem Reachable.ordered {s:State} (run:Reachable Above s) : Ordered s.list := by
 induction run with
 | refl=>simp [Ordered,start,HandlerList.get]
 | @tail s s' before step ih=>
  obtain ⟨list,-⟩:=Reachable.inv (fun _ _ above=>above.1) before
  cases step with
  | @add h l i user number above added=>
   obtain ⟨-,free,get⟩:=HandlerList.add_spec list.counted above.1 added
   intro j k g g' lt hg hg' common
   have low:=above.2 i k
   have:=list.known j g
   have:=ih j k g g' lt
   simp only [get] at hg hg'
   grind
  | @remove h i user read | @take c i h at_ read same=>
   obtain ⟨-,get⟩:=HandlerList.clear_spec list.counted read
   intro j k g g' lt hg hg' common
   simp only [get] at hg hg'
   exact ih j k g g' lt (by grind) (by grind) common
  | call | skip | back | done=>exact ih

def State.calling (s:State) (ip cfa:ℕ) : State :=
 {s with phase:=.loop ⟨ip,cfa,s.list.slots,s.trace.length⟩ 0}

def Quiet (s t:State) : Prop :=
 Relation.ReflTransGen (fun s t=>Step (fun _ _=>False) (fun _=>False) s t ∧ t.phase≠.outside)
  s t

def matching (ip cfa:ℕ) (slots:List (Option Handler)) : List Handler :=
 slots.filterMap fun slot=>slot.filter (matches_ ip cfa)

theorem quiet_call {s t:State} {ip cfa:ℕ} (run:Quiet (s.calling ip cfa) t) :
 ∃c i, (t.phase=.loop c i ∨ ∃k,t.phase=.callback c k ∧ i=k+1) ∧ c.ip=ip ∧ c.cfa=cfa ∧
  t.trace=s.trace++(matching ip cfa (s.list.slots.take i)).map Handler.taken ∧
  t.list.slots.length=s.list.slots.length ∧ ∀j ≥ i,t.list.slots[j]?=s.list.slots[j]? := by
 induction run with
 | refl=>exact ⟨_,0,.inl rfl,rfl,rfl,by simp [matching,State.calling],rfl,fun _ _=>rfl⟩
 | tail _ step ih=>
  obtain ⟨c',i',where_,rfl,rfl,trace,length,same⟩:=ih
  have next:∀slot,s.list.slots[i']?=some slot → matching c'.ip c'.cfa (s.list.slots.take (i'+1)) =
     matching c'.ip c'.cfa (s.list.slots.take i') ++
      (slot.filter (matches_ c'.ip c'.cfa)).toList := by
   grind [List.take_add_one, matching]
  obtain ⟨step,inside⟩:=step
  cases step with
  | add touch | remove touch=>cases touch
  | call outside | done=>simp_all
  | @skip c i slot at_ read other=>
   obtain ⟨rfl,rfl⟩ : c'=c ∧ i'=i:=by grind
   refine ⟨c',i'+1,.inl rfl,rfl,rfl,?_,length,fun j le=>same j (by omega)⟩
   rw [same i' (Nat.le_refl _)] at read
   have none_:slot.filter (matches_ c'.ip c'.cfa)=none:=by cases slot <;> simp_all
   rw [trace,next slot read,none_,Option.toList_none,List.append_nil]
  | @take c i h at_ read hm=>grind [HandlerList.clear]
  | @back c i at_=>grind

theorem called_in_order {s t:State} {ip cfa:ℕ} {c:Call} {i:ℕ} (run:Reachable Above s)
 (call:Quiet (s.calling ip cfa) t) (at_:t.phase=.loop c i) (end_:t.list.slots.length ≤ i) :
 ∃hs : List Handler,t.trace=s.trace++hs.map Handler.taken ∧ hs.Pairwise (·.number < ·.number) ∧
  ∀h,h∈hs ↔ some h∈s.list.slots ∧ matches_ ip cfa h=true := by
 obtain ⟨c',i',where_,rfl,rfl,trace,length,same⟩:=quiet_call call
 obtain ⟨rfl,rfl⟩ : c'=c ∧ i'=i:=by grind
 rw [List.take_of_length_le (by omega)] at trace
 refine ⟨_,trace,?_,fun h=>?_⟩
 · rw [matching,List.pairwise_filterMap,List.pairwise_iff_getElem]
   intro j k hj hk lt h hh g hg
   rw [Option.filter_eq_some_iff] at hh hg
   refine run.ordered j k h g lt ?_ ?_ ⟨c'.ip,c'.cfa,hh.2,hg.2⟩
   · grind [HandlerList.get]
   · grind [HandlerList.get]
 · simp [matching,Option.filter_eq_some_iff]

def pair (a b:Option ℕ) (used:ℕ) (trace:List Event) (phase:Phase) : State :=
 ⟨⟨[a.map nth,b.map nth,none,none],used⟩,phase,trace⟩

def one : State := pair (some 0) none 1 [.added 0] .outside

def two : State := pair (some 0) (some 1) 2 [.added 0,.added 1] .outside

theorem two_reached (first:may start.list (nth 0))
 (second:may one.list (nth 1)) : Reachable may two := by
 have s₁:Reachable may one:=.tail .refl (.add (h:=nth 0) trivial rfl first rfl)
 exact s₁.tail (.add (h:=nth 1) trivial rfl second rfl)

/-- The first handler is called; its function adds a handler, which gets the slot, and removes the
second. -/
theorem callback_accounted : ∃s c,Reachable (fun l _=>Few l) s ∧ s.phase=.loop c 4 ∧
  s.trace=[.added 0,.added 1,.called 0,.added 3,.removed 1] ∧ Accounted s := by
 have s₂:Reachable (fun l _=>Few l) two :=
  two_reached (by decide:0<2^31) (by decide:1<2^31)
 let c : Call:=⟨1,0,two.list.slots,2⟩
 have s₃:Reachable _ (two.calling 1 0):=s₂.tail (.call rfl (by decide))
 have s₄:Reachable _ (pair none (some 1) 1 (two.trace++[.called 0]) (.callback c 0)) :=
  s₃.tail (.take (s:=two.calling 1 0) (h:=nth 0) rfl rfl rfl)
 have s₅:Reachable _ (pair (some 3) (some 1) 2 (two.trace++[.called 0,.added 3]) (.callback c 0)) :=
  s₄.tail (.add (h:=nth 3) trivial rfl (by decide:1<2^31) rfl)
 have s₆:Reachable _ (pair (some 3) none 1 (two.trace++[.called 0,.added 3,.removed 1])
  (.callback c 0)) := s₅.tail (.remove (h:=nth 1) (i:=1) trivial rfl)
 have s₇:=((s₆.tail (.back rfl)).tail (.skip rfl (rfl:_=some none) rfl)).tail
  (.skip rfl (rfl:_=some none) rfl)
 have s₈:=s₇.tail (.skip rfl (rfl:_=some none) rfl)
 exact ⟨_,c,s₈,rfl,rfl,handlers_accounted s₈⟩

theorem pair_called (a b:ℕ) (past:List Event) : let s:=pair (some a) (some b) 2 past .outside
 Quiet (s.calling 1 0) (pair none none 0 (past++[.called a]++[.called b])
  (.loop ⟨1,0,s.list.slots,past.length⟩ 4)) := by
 intro s
 let c : Call:=⟨1,0,s.list.slots,past.length⟩
 let past₁:=past++[.called a]
 let past₂:=past₁++[.called b]
 have t₁:Quiet (s.calling 1 0) (pair none (some b) 1 past₁ (.callback c 0)) :=
  .tail .refl ⟨.take (s:=s.calling 1 0) (h:=nth a) rfl rfl rfl,by simp [pair]⟩
 have t₂:Quiet _ (pair none (some b) 1 past₁ (.loop c 1)):=t₁.tail ⟨.back rfl,by simp [pair]⟩
 have t₃:Quiet _ (pair none none 0 past₂ (.callback c 1)) :=
  t₂.tail ⟨.take (s:=pair none _ 1 past₁ (.loop c 1)) (h:=nth b) rfl rfl rfl,by simp [pair]⟩
 have t₄:Quiet _ (pair none none 0 past₂ (.loop c 2)):=t₃.tail ⟨.back rfl,by simp [pair]⟩
 have t₅:Quiet _ (pair none none 0 past₂ (.loop c 3)) :=
  t₄.tail ⟨.skip rfl rfl rfl,by simp [pair]⟩
 exact t₅.tail ⟨.skip rfl rfl rfl,by simp [pair]⟩

theorem two_in_order : ∃hs : List Handler,two.trace++[.called 0]++[.called 1] =
  two.trace++hs.map Handler.taken ∧ hs.Pairwise (·.number < ·.number) ∧
  ∀h,h∈hs ↔ some h∈two.list.slots ∧ matches_ 1 0 h=true := by
 refine called_in_order (two_reached ⟨(by decide:0<2^31),?_⟩ ⟨(by decide:1<2^31),?_⟩)
  (pair_called 0 1 two.trace) rfl (Nat.le_refl 4)
 · simp [start,HandlerList.get]
 · grind [one, pair, HandlerList.get]

/-- The third handler gets the slot of the first, and is called before the second. -/
theorem reused_slot : ∃s t c i,Reachable (fun l _=>Few l) s ∧ Quiet (s.calling 1 0) t ∧
  t.phase=.loop c i ∧ t.list.slots.length ≤ i ∧ t.trace=s.trace++[.called 3,.called 1] := by
 have s₂:Reachable (fun l _=>Few l) two :=
  two_reached (by decide:0<2^31) (by decide:1<2^31)
 have s₃:Reachable _ (pair none (some 1) 1 (two.trace++[.removed 0]) .outside) :=
  s₂.tail (.remove (h:=nth 0) (i:=0) trivial rfl)
 have s₄:Reachable _ (pair (some 3) (some 1) 2 (two.trace++[.removed 0]++[.added 3]) .outside) :=
  s₃.tail (.add (h:=nth 3) trivial rfl (by decide:1<2^31) rfl)
 exact ⟨_,_,_,4,s₄,pair_called 3 1 _,rfl,Nat.le_refl 4,rfl⟩

end Steps

end ObjcRuntime.AltHandlers
