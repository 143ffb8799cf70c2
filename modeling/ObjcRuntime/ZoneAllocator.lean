import ObjcRuntime.Interleaving
import Mathlib.Data.List.Nodup

/-!
The free list of `Zone<T, false>`, with a generation beside the head. The pair is first read as two
words, in either order; a compare-exchange replaces it as a whole, may fail at any time, and then
reads it as a whole. Elements are addresses, 0 is NULL.
-/

set_option autoImplicit false
namespace ObjcRuntime.ZoneAllocator
open Interleaving Function

/-- What `push_list` is given: an element that is freed, or a slab without its first element. -/
inductive Push
 | free (e:ℕ)
 | slab (first e:ℕ) (es:List ℕ)

def Push.head : Push → ℕ
 | .free e=>e
 | .slab _ e _=>e

def Push.more : Push → List ℕ
 | .free _=>[]
 | .slab _ _ es=>es

def Push.block (p:Push) : List ℕ := p.head::p.more

def Push.tail (p:Push) : ℕ := p.block.getLast (List.cons_ne_nil _ _)

def Push.held : Push → List ℕ
 | .free e=>[e]
 | .slab first e es=>first::e::es

/-- The first word of the elements, and the bytes behind it, 0 if they are all zero; `owned` are the
elements callers have, `known` all that were ever allocated. -/
structure Shared where
 head : ℕ
 gen : ℕ
 next : ℕ → ℕ
 buf : ℕ → ℕ
 owned : List ℕ
 known : List ℕ

inductive Op
 | pop
 | push (p:Push)

inductive Local
 | idle
 | reading (op:Op) (head gen:Option ℕ)
 | loop (op:Op) (head gen:ℕ)
 | popNext (head gen next:ℕ)
 | pushReady (p:Push) (head gen:ℕ)
 | popped (e:ℕ)
 | slow
 | freeing (e:ℕ)
 | returning (e:ℕ)

/-- `free` returns, `alloc_slow` goes on with the first element of its slab. -/
def Push.pushed : Push → Local
 | .free _=>.idle
 | .slab first _ _=>.returning first

/-- `slab[i].next = &slab[i + 1]` -/
def link (next:ℕ → ℕ) : List ℕ → ℕ → ℕ
 | a::b::es=>link (update next a b) (b::es)
 | _=>next

def zeroed (f:ℕ → ℕ) (es:List ℕ) (e:ℕ) : ℕ := if e∈es then 0 else f e

inductive Step : ThreadStep Shared Local Empty
 | alloc {t s} : Step t s .idle [] s (.reading .pop none none)
 | free {t} {s:Shared} {e} (mine:e∈s.owned) :
   Step t s .idle [] {s with owned:=s.owned.erase e} (.freeing e)
 | clear {t} {s:Shared} {e} : Step t s (.freeing e) [] {s with buf:=update s.buf e 0}
   (.reading (.push (.free e)) none none)
 | readHead {t} {s:Shared} {op gen} :
   Step t s (.reading op none gen) [] s (.reading op (some s.head) gen)
 | readGen {t} {s:Shared} {op head} :
   Step t s (.reading op head none) [] s (.reading op head (some s.gen))
 | begin {t s op head gen} :
   Step t s (.reading op (some head) (some gen)) [] s (.loop op head gen)
 | empty {t s gen} : Step t s (.loop .pop 0 gen) [] s .slow
 | next {t} {s:Shared} {head gen} (ne:head≠0) :
   Step t s (.loop .pop head gen) [] s (.popNext head gen (s.next head))
 | popOk {t} {s:Shared} {next} :
   Step t s (.popNext s.head s.gen next) [] {s with head:=next,gen:=s.gen+1} (.popped s.head)
 | popFail {t} {s:Shared} {head gen next} :
   Step t s (.popNext head gen next) [] s (.loop .pop s.head s.gen)
 | zero {t} {s:Shared} {e} :
   Step t s (.popped e) [] {s with next:=update s.next e 0} (.returning e)
 | slab {t} {s:Shared} {first e es} (distinct:(first::e::es).Nodup)
  (fresh:∀x∈first::e::es,x≠0 ∧ x∉s.known) :
   Step t s .slow [] {s with
     next:=link (zeroed s.next (first::e::es)) (e::es)
     buf:=zeroed s.buf (first::e::es)
     known:=first::e::es++s.known} (.reading (.push (.slab first e es)) none none)
 | link {t} {s:Shared} {p:Push} {head gen} : Step t s (.loop (.push p) head gen) []
   {s with next:=update s.next p.tail head} (.pushReady p head gen)
 | pushOk {t} {s:Shared} {p:Push} : Step t s (.pushReady p s.head s.gen) []
   {s with head:=p.head,gen:=s.gen+1} p.pushed
 | pushFail {t} {s:Shared} {p head gen} :
   Step t s (.pushReady p head gen) [] s (.loop (.push p) s.head s.gen)
 | handOver {t} {s:Shared} {e} : Step t s (.returning e) [] {s with owned:=e::s.owned} .idle
 | write {t} {s:Shared} {e} (mine:e∈s.owned) (first others) : Step t s .idle []
   {s with next:=update s.next e first,buf:=update s.buf e others} .idle

def start : Config Shared Local Empty := ⟨⟨0,0,fun _=>0,fun _=>0,[],[]⟩,fun _=>.idle,[]⟩

def Local.held : Local → List ℕ
 | .reading (.push p) _ _ | .loop (.push p) _ _ | .pushReady p _ _=>p.held
 | .popped e | .freeing e | .returning e=>[e]
 | _=>[]

def Path (next:ℕ → ℕ) : ℕ → List ℕ → ℕ → Prop
 | a,[],b=>a=b
 | a,e::es,b=>a=e ∧ Path next (next e) es b

inductive Place
 | unknown
 | free
 | owned
 | held (t:ℕ)

structure SharedOk (g:ℕ → Place) (s:Shared) : Prop where
 list : ∃fl,Path s.next s.head fl 0 ∧ fl.Nodup ∧ ∀e,e∈fl ↔ g e=.free
 clean : ∀e,g e=.free → s.buf e=0
 once : s.owned.Nodup
 owned : ∀e,e∈s.owned ↔ g e=.owned
 known : ∀e,e∈s.known ↔ g e≠.unknown
 nonzero : ∀e,g e≠.unknown → e≠0

/-- The elements to be pushed are linked and clean, and so is the first one of their slab. -/
structure Block (s:Shared) (p:Push) : Prop where
 path : Path s.next p.head p.block (s.next p.tail)
 distinct : p.held.Nodup
 clean : ∀e∈p.block,s.buf e=0
 first : ∀e∈p.held,e∉p.block → s.next e=0 ∧ s.buf e=0

def Facts (s:Shared) : Local → Prop
 | .reading (.push p) _ _ | .loop (.push p) _ _=>Block s p
 | .pushReady p head _=>Block s p ∧ s.next p.tail=head
 | .reading .pop _ gen=>∀n∈gen,n ≤ s.gen
 | .loop .pop _ gen=>gen ≤ s.gen
 | .popNext head gen next=>head≠0 ∧ gen ≤ s.gen ∧ (s.head=head → s.gen=gen → next=s.next head)
 | .popped e=>s.buf e=0
 | .returning e=>s.next e=0 ∧ s.buf e=0
 | _=>True

structure ThreadOk (g:ℕ → Place) (t:ℕ) (s:Shared) (l:Local) : Prop where
 held : ∀e,g e=.held t ↔ e∈l.held
 facts : Facts s l

structure Frame (g g':ℕ → Place) (t:ℕ) (s s':Shared) : Prop where
 held : ∀u≠t,∀e,g' e=.held u ↔ g e=.held u
 gen : s.gen ≤ s'.gen
 head : s'.gen=s.gen → s'.head=s.head ∧ ∀e,g e=.free → s'.next e=s.next e
 mem : ∀u≠t,∀e,g e=.held u → s'.next e=s.next e ∧ s'.buf e=s.buf e

section Paths

variable {next next':ℕ → ℕ} {a b c h:ℕ} {es fs:List ℕ}

theorem Path.congr (path:Path next a es b) (same:∀e∈es,next' e=next e) : Path next' a es b := by
 induction es generalizing a with
 | nil=>exact path
 | cons e es ih=>
  obtain ⟨rfl,rest⟩:=path
  refine ⟨rfl,?_⟩
  rw [same a (by simp)]
  exact ih rest fun e he=>same e (by simp [he])

theorem Path.append (path:Path next a es b) (rest:Path next b fs c) : Path next a (es++fs) c := by
 induction es generalizing a with
 | nil=>
  cases path
  exact rest
 | cons e es ih=>exact ⟨path.1,ih path.2⟩

end Paths

section Others

variable {g g':ℕ → Place} {s s':Shared} {t u:ℕ} {l:Local}

theorem Push.block_subset (p:Push) : ∀e∈p.block,e∈p.held := by
 cases p <;> grind [block,head,more,held]

theorem Push.tail_mem (p:Push) : p.tail∈p.block := List.getLast_mem _

theorem Block.congr {p:Push} (h:Block s p)
 (same:∀e∈p.held,s'.next e=s.next e ∧ s'.buf e=s.buf e) : Block s' p := by
 have sub:=p.block_subset
 obtain ⟨path,distinct,clean,first⟩:=h
 refine ⟨?_,distinct,fun e he=>?_,fun e he out=>?_⟩
 · rw [(same _ (sub _ p.tail_mem)).1]
   exact path.congr fun e he=>(same e (sub e he)).1
 · rw [(same e (sub e he)).2]
   exact clean e he
 · rw [(same e he).1,(same e he).2]
   exact first e he out

theorem ThreadOk.stable (other:ThreadOk g u s l) (ok:SharedOk g s) (frame:Frame g g' t s s')
 (ne:u≠t) : ThreadOk g' u s' l := by
 obtain ⟨held,facts⟩:=other
 have mem:∀e∈l.held,s'.next e=s.next e ∧ s'.buf e=s.buf e:=fun e he=>
  frame.mem u ne e ((held e).mpr he)
 have later:=frame.gen
 refine ⟨fun e=>(frame.held u ne e).trans (held e),?_⟩
 cases l with
 | idle | slow | freeing=>trivial
 | reading op head gen=>
  cases op with
  | pop=>exact fun n hn=>Nat.le_trans (facts n hn) later
  | push p=>exact facts.congr mem
 | loop op head gen=>
  cases op with
  | pop=>exact Nat.le_trans facts later
  | push p=>exact facts.congr mem
 | popNext head gen next=>
  obtain ⟨nonzero,le,read⟩:=facts
  refine ⟨nonzero,Nat.le_trans le later,fun h same=>?_⟩
  -- the generation has not changed, so the head is the one that was read and is on the list
  have still:s'.gen=s.gen:=by omega
  obtain ⟨head',next'⟩:=frame.head still
  obtain ⟨fl,path,-,free⟩:=ok.list
  have listed:g head=.free:=by
   cases fl with
   | nil=>exact absurd (h.symm.trans (head'.trans path)) nonzero
   | cons e es=>exact (free head).mp (by simp [←path.1,←head',h])
  rw [next' head listed]
  exact read (head'.symm.trans h) (still.symm.trans same)
 | pushReady p head gen=>
  refine ⟨facts.1.congr mem,?_⟩
  rw [(mem _ (p.block_subset _ p.tail_mem)).1]
  exact facts.2
 | popped e=>
  rw [Facts,(mem e (by simp [Local.held])).2]
  exact facts
 | returning e=>
  rw [Facts,(mem e (by simp [Local.held])).1,(mem e (by simp [Local.held])).2]
  exact facts

theorem stepped {l':Local} (g':ℕ → Place) (ok:SharedOk g s) (ok':SharedOk g' s')
 (own:ThreadOk g' t s' l') (frame:Frame g g' t s s') : ∃g',SharedOk g' s' ∧ ThreadOk g' t s' l' ∧
  ∀{u m},u≠t → ThreadOk g u s m → ThreadOk g' u s' m :=
 ⟨g',ok',own,fun ne other=>other.stable ok frame ne⟩

theorem Frame.refl : Frame g g t s s :=
 ⟨fun _ _ _=>.rfl,Nat.le_refl _,fun _=>⟨rfl,fun _ _=>rfl⟩,fun _ _ _ _=>⟨rfl,rfl⟩⟩

theorem silent {l':Local} (ok:SharedOk g s) (own:ThreadOk g t s l) (same:l'.held=l.held)
 (facts:Facts s l') : ∃g',SharedOk g' s ∧ ThreadOk g' t s l' ∧
  ∀{u m},u≠t → ThreadOk g u s m → ThreadOk g' u s m :=
 stepped g ok ok ⟨fun e=>(own.held e).trans (by rw [same]),facts⟩ .refl

/-- The thread writes to an element that it has, or the program to one of its own. -/
theorem written (ok:SharedOk g s) {e:ℕ} (mine:g e=.held t ∨ g e=.owned) {next buf:ℕ → ℕ}
 (off:∀x≠e,next x=s.next x ∧ buf x=s.buf x) :
 SharedOk g {s with next:=next,buf:=buf} ∧ Frame g g t s {s with next:=next,buf:=buf} := by
 have free:∀x,g x=.free → next x=s.next x ∧ buf x=s.buf x:=fun x hx=>off x (by grind)
 obtain ⟨⟨fl,path,distinct,listed⟩,clean,once,owned,known,nonzero⟩:=ok
 constructor
 · refine ⟨⟨fl,path.congr fun x hx=>?_,distinct,listed⟩,fun x hx=>?_,once,owned,known,nonzero⟩
   · exact (free x ((listed x).mp hx)).1
   · exact (free x hx).2.trans (clean x hx)
 · refine ⟨fun _ _ _=>.rfl,Nat.le_refl _,fun _=>⟨rfl,fun x hx=>(free x hx).1⟩,fun u ne x hx=>?_⟩
   exact off x (by grind)

end Others

structure Conserved (c:Config Shared Local Empty) : Prop where
 owned : c.shared.owned.Nodup
 list : ∃fl,Path c.shared.next c.shared.head fl 0 ∧ fl.Nodup ∧
  (∀e∈fl,e∉c.shared.owned ∧ ∀t,e∉(c.threads t).held) ∧
  ∀e∈c.shared.known,e∉c.shared.owned → (∀t,e∉(c.threads t).held) → e∈fl
 held : ∀t,∀e∈(c.threads t).held,e∉c.shared.owned ∧ ∀u,e∈(c.threads u).held → u=t
 zero : ∀t e,c.threads t=.returning e → c.shared.next e=0 ∧ c.shared.buf e=0

end ObjcRuntime.ZoneAllocator
