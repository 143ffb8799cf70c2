import ObjcRuntime.ReturnHandoff

/-!
# The empty pages that `releaseUntil` meets

An `if` would do for `while (page->empty())` where missing pools are not debugged: an empty page
gets a page on top only where a pool with a page of its own is pushed during a release, and that
pool is popped before `releaseUntil` goes on.
-/
set_option autoImplicit false
namespace ObjcRuntime.AutoreleaseThread
open AutoreleasePage

variable {O:Options} {E:Env}

theorem shape_reachable {c c':Config} (h:Shape O Anything c)
 (hr:Reachable O E AnyCall c c') : Shape O Anything c' := by
 induction hr with
 | refl=>exact h
 | tail _ hs ih=>
  obtain ⟨a,-,hs⟩:=hs
  grind [shape_step,anything_admits,fits_anything,added_ne_zero]

/-- The loop of `releaseUntil` with an `if` in the place of its `while`. -/
def takeEntryOnce : Page → List Page → List Page → Option (Entry × HotPage)
 | e::hot,parents,children=>some (e,.page hot parents children)
 | [],(e::parent)::parents,children=>some (e,.page parent parents ([]::children))
 | _,_,_=>none

def ParentHasEntries (hot:Page) (parents:List Page) : Prop :=
 hot=[] → ∃parent rest,parents=parent::rest ∧ parent≠[]

theorem takeEntry_eq_once {hot:Page} {parents children:List Page} (h:ParentHasEntries hot parents) :
 takeEntry hot parents children=takeEntryOnce hot parents children ∧
  (takeEntryOnce hot parents children).isSome := by
 cases hot with
 | cons e hot=>exact ⟨by rw [takeEntry,takeEntryOnce],rfl⟩
 | nil=>
  obtain ⟨parent,rest,rfl,hne⟩:=h rfl
  obtain ⟨e,parent,rfl⟩:=List.exists_cons_of_ne_nil hne
  exact ⟨by rw [takeEntry,takeEntry,takeEntryOnce],rfl⟩

theorem Stands.parentHasEntries {t:Option Held} {fs:List Floor} {h:HotPage} {depth stop:ℕ}
 (hs:Stands O Anything (.opened t depth stop::fs) h)
 (hmore:(h.pageAt depth).map List.length≠some stop) :
 ∃hot parents children,h=.page hot parents children ∧ ParentHasEntries hot parents := by
 have hcuts:=hs.cuts
 cases h with
 | nil=>exact absurd rfl hcuts.pages_ne_nil
 | placeholder=>
  obtain ⟨t',ht,-⟩:=hs.placeholder rfl _ List.mem_cons_self
  cases ht
 | page hot parents children=>
  refine ⟨hot,parents,children,rfl,?_⟩
  rintro rfl
  cases hcuts with
  | @opened _ _ _ below rest _ _ extra above split piled more length height=>
   cases extra with
   | nil=>
    -- The empty page is the page of the slot, and so it has come down to it.
    refine absurd ?_ hmore
    obtain ⟨hnil,-⟩:=List.cons_eq_cons.mp split
    obtain ⟨rfl,rfl⟩:=List.append_eq_nil_iff.mp hnil.symm
    rw [←height,pageAt_of_split split,Option.map_some,List.nil_append,length]
   | cons x extra=>
    obtain ⟨-,rfl⟩:=List.cons_eq_cons.mp split
    cases extra with
    | nil=>simp_all
    | cons y extra=>exact ⟨y,_,rfl,piled y List.mem_cons_self⟩

/-- Whenever `releaseUntil` is about to take an entry, the hot page has one or its parent does,
and with an `if` it would take the same one. -/
theorem releaseUntil_while_is_if (O:Options) (off:O.debugMissingPools=false) (E:Env) {c:Config}
 (hr:Reachable O E AnyCall initial c) {t:Option Held} {depth stop:ℕ} {fs:List Frame}
 (top:c.stack=.unwinding t depth stop::fs)
 (more:(c.hotPage.pageAt depth).map List.length≠some stop) :
 ∃hot parents children,c.hotPage=.page hot parents children ∧ ParentHasEntries hot parents ∧
  c.hotPage.take=takeEntryOnce hot parents children ∧
  (takeEntryOnce hot parents children).isSome := by
 have hstands:=(shape_reachable (shape_initial off) hr).stands
 rw [top] at hstands
 obtain ⟨hot,parents,children,hpage,hparent⟩:=hstands.parentHasEntries more
 refine ⟨hot,parents,children,hpage,hparent,?_⟩
 rw [hpage]
 exact takeEntry_eq_once hparent

def smallPages : Options := ⟨2,by decide,.off,false,false,false⟩

theorem releaseUntil_steps_to_parent : ∃c,Reachable smallPages sampleEnv AnyCall initial c ∧
  c.hotPage=.page [] [[⟨16,0⟩,boundary]] [] ∧
  c.hotPage.take=some (⟨16,0⟩,.page [boundary] [] [[]]) := by
 have r₀:Reachable smallPages sampleEnv AnyCall initial initial:=.refl
 have r₁:=r₀.step trivial (.push rfl)
 have r₂:=r₁.step trivial
  (@Step.rootAutorelease2 smallPages sampleEnv _ _ _ 16 rfl (by decide) rfl)
 have r₃:=r₂.step trivial
  (@Step.rootAutorelease2 smallPages sampleEnv _ _ _ 32 rfl (by decide) rfl)
 have r₄:=(r₃.step trivial (.pop rfl)).step trivial (.popUntil rfl rfl rfl)
 have r₅:=(r₄.step trivial (.takeEntry rfl (by decide) rfl)).step trivial (.release rfl)
 have r₆:=(r₅.step trivial (.ret rfl)).step trivial (.releasedAll rfl)
 obtain ⟨hot,parents,children,hpage,-,htake,-⟩ :=
  releaseUntil_while_is_if smallPages rfl sampleEnv r₆ rfl (by decide)
 obtain ⟨rfl,rfl,rfl⟩:=HotPage.page.inj hpage
 exact ⟨_,r₆,rfl,htake⟩

def missingPools : Options := {sampleOptions with debugMissingPools:=true}

/-- The release of a pending object pushes and pops a pool on the page that the outer pop has just
emptied. With missing pools debugged the inner pop deletes the page, and the outer `releaseUntil`,
which runs on that page, finds no hot page. -/
theorem nested_pop_deletes_page : ∃c t fs,Reachable missingPools sampleEnv AnyPoolCall initial c ∧
  c.stack=.unwinding t 0 0::fs ∧ (c.hotPage.pageAt 0).map List.length≠some 0 ∧ c.hotPage=.nil := by
 have r₀:Reachable missingPools sampleEnv AnyPoolCall initial initial:=.refl
 have inner:=((r₀.call (.push rfl) rfl).autoreleased 16 rfl (by decide) rfl).autoreleased 32 rfl
  (by decide) rfl
 have popping:=((inner.call (.pop rfl) rfl).call (.popTLS rfl rfl) rfl).call (.ret rfl) rfl
 have unwinding:=popping.call (.popUntil rfl rfl rfl) rfl
 -- The release of 16 leaves 48 pending.
 have released:=((unwinding.call (.takeEntry rfl (by decide) rfl) rfl).call (.release rfl)
  rfl).autoreleased 48 rfl (by decide) rfl
 have emptied:=((released.call (.ret rfl) rfl).call (.releasedAll rfl) rfl).call
  (.takeEntry rfl (by decide) rfl) rfl
 have pushed:=(emptied.call (.unwindTLS rfl rfl rfl) rfl).call (.push rfl) rfl
 have popped:=((pushed.call (.pop rfl) rfl).call (.popUntil rfl rfl rfl) rfl).call
  (.takeEntry rfl (by decide) rfl) rfl
 have done:=(popped.call (.popReturn rfl rfl rfl) rfl).call (.ret rfl) rfl
 exact ⟨_,_,_,done,rfl,by decide,rfl⟩

end ObjcRuntime.AutoreleaseThread
