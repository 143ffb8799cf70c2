import Mathlib.Data.List.Pairwise
import Mathlib.Data.List.Perm.Basic
import Mathlib.Data.List.Iterate

/-!
`objc::SafeRanges`. New ranges go to the end, a removed one is replaced by the last one, and a
search sorts the array if that happened since the last search.
-/

set_option autoImplicit false
namespace ObjcRuntime.DataSegments

structure Range where
 start : ℕ
 stop : ℕ
 deriving DecidableEq

def Range.Contains (g:Range) (ptr:ℕ) : Prop := g.start ≤ ptr ∧ ptr < g.stop

def Range.Apart (a b:Range) : Prop := a.stop ≤ b.start ∨ b.stop ≤ a.start

instance : Std.Symm Range.Apart := ⟨fun _ _ h=>h.symm⟩

/-- The entries below `count`; the memory has place for `size` of them. -/
structure SafeRanges where
 ranges : List Range
 size : ℕ
 sorted : Bool

def search (ranges:List Range) (ptr l r:ℕ) : Option ℕ :=
 if l < r then
  match ranges[(l+r)/2]? with
  | none=>none
  | some g=>
   if ptr < g.start then search ranges ptr l ((l+r)/2)
   else if g.stop ≤ ptr then search ranges ptr ((l+r)/2+1) r
   else some ((l+r)/2)
 else none
termination_by r-l

namespace SafeRanges

variable (s:SafeRanges)

/-- The starts are distinct, so that every way to sort gives this order. -/
def sort : SafeRanges :=
 if s.sorted then s else ⟨s.ranges.mergeSort fun a b=>a.start ≤ b.start,s.size,true⟩

def find (ptr:ℕ) : SafeRanges × Option ℕ :=
 (s.sort,search s.sort.ranges ptr 0 s.sort.ranges.length)

/-- The next size, in a field of 31 bits. -/
def grown (size:ℕ) : ℕ := (size+if size < 16 then 4 else 2^(size.log2-2)) % 2^31

/-- `none` when the range would be written outside of the memory. -/
def add (g:Range) : Option SafeRanges :=
 let size:=if s.ranges.length=s.size then grown s.size else s.size
 if s.ranges.length < size then some ⟨s.ranges++[g],size,false⟩ else none

/-- `none` is the fatal error. -/
def remove (g:Range) : Option SafeRanges :=
 let s':=(s.find g.start).1
 match (s.find g.start).2 with
 | none=>none
 | some pos=>
  match s'.ranges[pos]?,s'.ranges.getLast? with
  | some found,some last=>
   if found.stop≠g.stop then none
   else if pos < s'.ranges.length-1 then some ⟨(s'.ranges.set pos last).dropLast,s'.size,false⟩
   else some {s' with ranges:=s'.ranges.dropLast}
  | _,_=>none

end SafeRanges

open SafeRanges

/-- After this size the field wraps to 0. -/
def most : ℕ := 7*2^28

def sizes : List ℕ := List.iterate grown 0 112

theorem sizes_grow : ∀n∈sizes,n=most ∨ n < grown n ∧ grown n∈sizes := by decide +kernel

theorem sizes_le : ∀n∈sizes,n ≤ most := by decide +kernel

section Search

variable {ranges present:List Range}

theorem later (sorted:ranges.Pairwise fun a b=>a.stop ≤ b.start)
 (full:∀g∈ranges,g.start < g.stop) {i j:ℕ} {a b:Range} (le:i ≤ j) (ha:ranges[i]?=some a)
 (hb:ranges[j]?=some b) : a.start ≤ b.start ∧ a.stop ≤ b.stop := by
 obtain ⟨hi,rfl⟩:=List.getElem?_eq_some_iff.mp ha
 obtain ⟨hj,rfl⟩:=List.getElem?_eq_some_iff.mp hb
 obtain rfl|lt:=Nat.eq_or_lt_of_le le
 · exact ⟨Nat.le_refl _,Nat.le_refl _⟩
 · have:=List.pairwise_iff_getElem.mp sorted i j hi hj lt
   have:=full _ (List.getElem_mem hi)
   have:=full _ (List.getElem_mem hj)
   omega

theorem search_spec (ptr:ℕ) (sorted:ranges.Pairwise fun a b=>a.stop ≤ b.start)
 (full:∀g∈ranges,g.start < g.stop) (l r:ℕ) (hr:r ≤ ranges.length) :
 match search ranges ptr l r with
 | some i=>∃g,ranges[i]?=some g ∧ g.Contains ptr
 | none=>∀i g,l ≤ i → i < r → ranges[i]?=some g → ¬ g.Contains ptr := by
 fun_induction search ranges ptr l r with
 | case1 l r lt out=>grind
 | case2 l r lt g at_ before ih=>
  have ih:=ih (by omega)
  split at ih
  next=>exact ih
  next none_=>
   intro i g' hl hi read
   by_cases low : i < (l+r)/2
   · exact ih i g' hl low read
   · have:=later sorted full (by omega) at_ read
     exact fun inside=>absurd inside.1 (by omega)
 | case3 l r lt g at_ before after ih=>
  have ih:=ih hr
  split at ih
  next=>exact ih
  next none_=>
   intro i g' hl hi read
   by_cases high : (l+r)/2 < i
   · exact ih i g' high hi read
   · have:=later sorted full (by omega) read at_
     exact fun inside=>absurd inside.2 (by omega)
 | case4 l r lt g at_ before after=>exact ⟨g,at_,by omega,by omega⟩
 | case5 l r ge=>grind

theorem moveLast_perm (rs:List Range) (last:Range) {i:ℕ} (hi:i < rs.length) :
 ((rs++[last]).set i last).dropLast.Perm ((rs++[last]).eraseIdx i) := by
 rw [List.set_append_left _ _ hi,List.dropLast_concat,List.eraseIdx_append_of_lt_length hi]
 exact (List.set_perm_cons_eraseIdx hi last).trans (List.perm_append_singleton last _).symm

structure Present (present:List Range) : Prop where
 full : ∀g∈present,g.start < g.stop
 apart : present.Pairwise Range.Apart

structure Rep (s:SafeRanges) (present:List Range) : Prop where
 same : s.ranges.Perm present
 fits : s.ranges.length ≤ s.size
 size : s.size∈sizes
 sorted : s.sorted=true → s.ranges.Pairwise (·.start ≤ ·.start)

variable {s:SafeRanges}

theorem Rep.sort (rep:Rep s present) : Rep s.sort present ∧ s.sort.sorted=true := by
 rw [SafeRanges.sort]
 split
 next already=>exact ⟨rep,already⟩
 next=>
  have perm:=List.mergeSort_perm s.ranges fun a b=>a.start ≤ b.start
  refine ⟨⟨perm.trans rep.same,perm.length_eq ▸ rep.fits,rep.size,fun _=>?_⟩,rfl⟩
  have sorted:=@List.pairwise_mergeSort _ (fun a b:Range=>a.start ≤ b.start)
   (by simp; omega) (by simp; omega) s.ranges
  simpa using sorted

theorem Rep.find (rep:Rep s present) (ok:Present present) (ptr:ℕ) : match (s.find ptr).2 with
 | some i=>∃g∈present,(s.find ptr).1.ranges[i]?=some g ∧ g.Contains ptr
 | none=>∀g∈present,¬ g.Contains ptr := by
 obtain ⟨⟨same,-,-,sorted⟩,flag⟩:=rep.sort
 have full:∀g∈s.sort.ranges,g.start < g.stop:=fun g hg=>ok.full g (same.mem_iff.mp hg)
 have apart:=(same.pairwise_iff fun h=>h.symm).mpr ok.apart
 have ordered:s.sort.ranges.Pairwise fun a b=>a.stop ≤ b.start :=
  ((sorted flag).and apart).imp_of_mem fun {a b} ha hb ⟨le,h⟩=>by
   have:=full a ha
   have:=full b hb
   rcases h with h|h <;> omega
 have spec:=search_spec ptr ordered full 0 _ (Nat.le_refl _)
 rw [SafeRanges.find]
 dsimp only
 split at spec
 next i eq=>
  obtain ⟨g,read,inside⟩:=spec
  exact ⟨g,same.mem_iff.mp (List.mem_of_getElem? read),read,inside⟩
 next eq=>
  intro g hg
  obtain ⟨i,read⟩:=List.mem_iff_getElem?.mp (same.mem_iff.mpr hg)
  exact spec i g (Nat.zero_le i) (by grind) read

theorem Rep.add (rep:Rep s present) (g:Range) (few:present.length < most) :
 ∃s',s.add g=some s' ∧ Rep s' (g::present) := by
 have length:=rep.same.length_eq
 have fits:=rep.fits
 have same:(s.ranges++[g]).Perm (g::present):=List.perm_append_comm.trans (rep.same.cons g)
 simp only [SafeRanges.add]
 by_cases full : s.ranges.length=s.size
 · rw [if_pos full]
   obtain eq|⟨more,next⟩:=sizes_grow s.size rep.size
   · omega
   · rw [if_pos (by omega)]
     exact ⟨_,rfl,same,by simp; omega,next,nofun⟩
 · rw [if_neg full,if_pos (by omega)]
   exact ⟨_,rfl,same,by simp; omega,rep.size,nofun⟩

theorem Rep.remove (rep:Rep s present) (ok:Present present) {g:Range} (hg:g∈present) :
 ∃s',s.remove g=some s' ∧ Rep s' (present.erase g) := by
 have spec:=rep.find ok g.start
 obtain ⟨⟨same,fits,size,sorted⟩,flag⟩:=rep.sort
 have first:(s.find g.start).1=s.sort:=rfl
 simp only [SafeRanges.remove]
 split at spec
 next pos eq=>
  obtain ⟨found,hfound,read,inside⟩:=spec
  -- another range would have the start in common
  obtain rfl : found=g:=by
   by_contra ne
   have:=ok.full g hg
   rcases ok.apart.forall hfound hg ne with h|h
   · exact absurd inside.2 (by omega)
   · exact absurd inside.1 (by omega)
  rw [first] at read ⊢
  obtain ⟨hpos,rfl⟩:=List.getElem?_eq_some_iff.mp read
  have ne:s.sort.ranges≠[]:=List.ne_nil_of_length_pos (by omega)
  have rest:(s.sort.ranges.eraseIdx pos).Perm (present.erase s.sort.ranges[pos]) :=
   ((List.getElem_cons_eraseIdx_perm hpos).trans (same.trans (List.perm_cons_erase hg))).cons_inv
  have length:=List.length_eraseIdx_of_lt hpos
  simp only [eq,read,List.getLast?_eq_some_getLast ne]
  rw [if_neg (by simp)]
  split
  next lt=>
   refine ⟨_,rfl,.trans ?_ rest,?_,size,nofun⟩
   · have moved:=moveLast_perm s.sort.ranges.dropLast (s.sort.ranges.getLast ne) (i:=pos)
      (by simpa using lt)
     rwa [List.dropLast_concat_getLast] at moved
   · simp
     omega
  next ge=>
   obtain rfl : pos=s.sort.ranges.length-1:=by omega
   rw [List.eraseIdx_length_sub_one] at rest
   refine ⟨_,rfl,rest,?_,size,fun _=>(sorted flag).sublist (List.dropLast_sublist _)⟩
   simp
   omega
 next none_=>exact absurd ⟨Nat.le_refl _,ok.full g hg⟩ (spec g hg)

end Search

inductive Run (may:List Range → Prop) : SafeRanges → List Range → Prop
 | empty : Run may ⟨[],0,false⟩ []
 | find {s:SafeRanges} {present:List Range} (run:Run may s present) (ptr:ℕ) :
   Run may (s.find ptr).1 present
 | add {s s':SafeRanges} {present:List Range} {g:Range} (run:Run may s present)
   (full:g.start < g.stop) (apart:∀h∈present,g.Apart h) (allowed:may present)
   (done:s.add g=some s') : Run may s' (g::present)
 | remove {s s':SafeRanges} {present:List Range} {g:Range} (run:Run may s present)
   (hg:g∈present) (done:s.remove g=some s') : Run may s' (present.erase g)

def Few (present:List Range) : Prop := present.length < most

theorem Run.rep {s:SafeRanges} {present:List Range} (run:Run Few s present) :
 Rep s present ∧ Present present := by
 induction run with
 | empty=>exact ⟨⟨.refl _,Nat.le_refl 0,by simp [sizes],nofun⟩,by simp,.nil⟩
 | find run ptr ih=>exact ⟨ih.1.sort.1,ih.2⟩
 | @add s s' present g run full apart few done ih=>
  obtain ⟨s₁,same,rep⟩:=ih.1.add g few
  cases done.symm.trans same
  exact ⟨rep,by simpa using ⟨full,ih.2.full⟩,.cons apart ih.2.apart⟩
 | @remove s s' present g run hg done ih=>
  obtain ⟨s₁,same,rep⟩:=ih.1.remove ih.2 hg
  cases done.symm.trans same
  exact ⟨rep,fun h hh=>ih.2.full h (List.mem_of_mem_erase hh),ih.2.apart.sublist List.erase_sublist⟩

structure Decides (s:SafeRanges) (present:List Range) : Prop where
 found : ∀ptr,(s.find ptr).2.isSome=true ↔ ∃g∈present,g.Contains ptr
 place : ∀ptr i,(s.find ptr).2=some i → ∃g∈present,(s.find ptr).1.ranges[i]?=some g ∧ g.Contains ptr
 removable : ∀g∈present,s.remove g≠none
 fits : s.ranges.length ≤ s.size

theorem ranges_decided {s:SafeRanges} {present:List Range} (run:Run Few s present) :
 Decides s present ∧ ∀g,Few present → s.add g≠none := by
 obtain ⟨rep,ok⟩:=run.rep
 refine ⟨⟨fun ptr=>?_,fun ptr i eq=>?_,fun g hg=>?_,rep.fits⟩,fun g few=>?_⟩
 · have spec:=rep.find ok ptr
   split at spec
   next i eq=>
    obtain ⟨g,hg,-,inside⟩:=spec
    exact iff_of_true (by simp [eq]) ⟨g,hg,inside⟩
   next eq=>exact iff_of_false (by simp [eq]) fun ⟨g,hg,inside⟩=>spec g hg inside
 · have spec:=rep.find ok ptr
   rwa [eq] at spec
 · obtain ⟨s',done,-⟩:=rep.remove ok hg
   simp [done]
 · obtain ⟨s',done,-⟩:=rep.add g few
   simp [done]

def spread : ℕ → List Range
 | 0=>[]
 | n+1=>⟨2*n,2*n+1⟩::spread n

theorem spread_below (n:ℕ) : (spread n).length=n ∧ ∀g∈spread n,g.stop≤2*n := by
 induction n with
 | zero=>simp [spread]
 | succ n ih=>
  refine ⟨by simp [spread,ih.1],?_⟩
  rw [spread,List.forall_mem_cons]
  exact ⟨by dsimp only; omega,fun g hg=>(ih.2 g hg).trans (by omega)⟩

theorem filled : ∀n ≤ most,∃s,Run Few s (spread n) := by
 intro n
 induction n with
 | zero=>exact fun _=>⟨_,.empty⟩
 | succ n ih=>
  intro le
  obtain ⟨s,run⟩:=ih (by omega)
  obtain ⟨length,below⟩:=spread_below n
  have few:Few (spread n):=by rw [Few]; omega
  obtain ⟨s',done,-⟩:=run.rep.1.add ⟨2*n,2*n+1⟩ few
  exact ⟨s',.add run (Nat.lt_succ_self _) (fun h hh=>.inr (below h hh)) few done⟩

theorem three_decided : ∃s,Run Few s (spread 3) ∧ Decides s (spread 3) := by
 obtain ⟨s,run⟩:=filled 3 (by decide)
 exact ⟨s,run,(ranges_decided run).1⟩

/-- The size wraps to 0 and the range is written outside. -/
theorem size_wraps : ∃s,Run Few s (spread most) ∧ ∀g,s.add g=none := by
 obtain ⟨s,run⟩:=filled most (Nat.le_refl _)
 refine ⟨s,run,fun g=>?_⟩
 obtain ⟨⟨same,fits,size,-⟩,-⟩:=run.rep
 have length:=same.length_eq.trans (spread_below most).1
 have full:s.size=most:=by
  have:=sizes_le _ size
  omega
 simp only [add,length,full,if_true]
 exact if_neg (by decide)

end ObjcRuntime.DataSegments
