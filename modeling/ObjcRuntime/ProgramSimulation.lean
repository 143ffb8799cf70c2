import ObjcRuntime.AtomicPrograms

/-!
# Simulation of one flowchart by another

Every run of the first program, under any competing stores, is a run of the second that is shown
some of the same words and makes the same stores.
-/

set_option autoImplicit false
namespace ObjcRuntime.AtomicPrograms

variable {W W' E E' P P' R R':Type}

/-- A run from label to label: at each step the word that memory holds and the word that the
run stores, if it does. Between steps memory may change to anything. -/
inductive Reaches (code:P → Instr W E P R) : P → List (W × Option W) → P → Prop where
 | refl (p:P) : Reaches code p [] p
 | load {p q k w tr} (h:code p=.load k) (tail:Reaches code (k w) tr q) :
  Reaches code p ((w,none)::tr) q
 | stored {p q old new s f tr} (h:code p=.store old new s f) (tail:Reaches code s tr q) :
  Reaches code p ((old,some new)::tr) q
 | failed {p q old new s f w tr} (h:code p=.store old new s f)
  (tail:Reaches code (f w) tr q) : Reaches code p ((w,none)::tr) q

def stores (tr:List (W × Option W)) : List W := tr.filterMap Prod.snd

def lastStore (last:Option W) (tr:List (W × Option W)) : Option W :=
 (stores tr).foldl (fun _ w=>some w) last

/-- `Same last p q`: label `p` of `code` stands where label `q` of `code'` does when the run has
last stored `last`. A load of `code` may be the reload after a store of `code'` that fails, and
a failed store of `code` may leave `code'` where it is. -/
structure Simulation (code:P → Instr W E P R) (code':P' → Instr W' E' P' R') (f:W → W')
 (ok:W → Prop) (Same:Option W → P → P' → Prop) : Prop where
 load : ∀{b p q k w},Same b p q → code p=.load k → ok w →
  (∃k',code' q=.load k' ∧ Same b (k w) (k' (f w))) ∨
   ∃old new s g,code' q=.store old new s g ∧ Same b (k w) (g (f w))
 stored : ∀{b p q old new s g},Same b p q → code p=.store old new s g → ok old →
  ∃s' g',code' q=.store (f old) (f new) s' g' ∧ Same (some new) s s'
 failed : ∀{b p q old new s g w},Same b p q → code p=.store old new s g → ok w → Same b (g w) q ∨
   ∃old' new' s' g',code' q=.store old' new' s' g' ∧ Same b (g w) (g' (f w))

theorem Simulation.reaches {code:P → Instr W E P R} {code':P' → Instr W' E' P' R'}
 {f:W → W'} {ok:W → Prop} {Same:Option W → P → P' → Prop}
 (hsim:Simulation code code' f ok Same) {p p':P} {tr:List (W × Option W)}
 (hr:Reaches code p tr p') (hok:∀x∈tr,ok x.1) {b:Option W} {q:P'} (hs:Same b p q) :
 ∃tr' q',Reaches code' q tr' q' ∧ (tr'.map Prod.fst).Sublist (tr.map fun x=>f x.1) ∧
  stores tr'=(stores tr).map f ∧ Same (lastStore b tr) p' q' := by
 induction hr generalizing b q with
 | refl p=>exact ⟨[],q,.refl q,.slnil,rfl,hs⟩
 | @load p p' k w tr h tail ih=>
  have hw:ok w:=hok _ List.mem_cons_self
  have hrest:∀x∈tr,ok x.1:=fun x hx=>hok x (List.mem_cons_of_mem _ hx)
  rcases hsim.load hs h hw with ⟨k',hq,hs'⟩|⟨old,new,s,g,hq,hs'⟩
  · obtain ⟨tr',q',hr',hwords,hstores,hsame⟩:=ih hrest hs'
    exact ⟨(f w,none)::tr',q',.load hq hr',hwords.cons_cons _,hstores,hsame⟩
  · obtain ⟨tr',q',hr',hwords,hstores,hsame⟩:=ih hrest hs'
    exact ⟨(f w,none)::tr',q',.failed hq hr',hwords.cons_cons _,hstores,hsame⟩
 | @stored p p' old new s g tr h tail ih=>
  have hw:ok old:=hok _ List.mem_cons_self
  obtain ⟨s',g',hq,hs'⟩:=hsim.stored hs h hw
  obtain ⟨tr',q',hr',hwords,hstores,hsame⟩ :=
   ih (fun x hx=>hok x (List.mem_cons_of_mem _ hx)) hs'
  refine ⟨(f old,some (f new))::tr',q',.stored hq hr',hwords.cons_cons _,?_,hsame⟩
  simp only [stores,List.filterMap_cons] at hstores ⊢
  rw [hstores,List.map_cons]
 | @failed p p' old new s g w tr h tail ih=>
  have hw:ok w:=hok _ List.mem_cons_self
  have hrest:∀x∈tr,ok x.1:=fun x hx=>hok x (List.mem_cons_of_mem _ hx)
  rcases hsim.failed hs h hw with hs'|⟨old',new',s',g',hq,hs'⟩
  · obtain ⟨tr',q',hr',hwords,hstores,hsame⟩:=ih hrest hs'
    exact ⟨tr',q',hr',hwords.cons _,hstores,hsame⟩
  · obtain ⟨tr',q',hr',hwords,hstores,hsame⟩:=ih hrest hs'
    exact ⟨(f w,none)::tr',q',.failed hq hr',hwords.cons_cons _,hstores,hsame⟩

end ObjcRuntime.AtomicPrograms
