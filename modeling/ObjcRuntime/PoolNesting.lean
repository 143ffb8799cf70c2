import ObjcRuntime.AutoreleaseProgress

/-!
# Autorelease pools nest

A pop releases what was autoreleased since its push and leaves the pages as they were, whatever
code the releases call.
-/
set_option autoImplicit false
namespace ObjcRuntime.AutoreleaseThread
open AutoreleasePage

def Act.pool : Act → Bool
 | .push | .pop | .ret | .autorelease _ _ | .rootAutorelease2 _ | .setInfo | .internal=>true
 | _=>false

/-- If the innermost pool is one that is being unwound and the hot page is the page of its
    slot, the entry that takes the object in lies at the slot or above it. -/
def StaysAbove (O:Options) (c:Config) (obj:ℕ) : Prop :=
 ∀t depth stop fs hot parents children,floors c.stack=.opened t depth stop::fs →
  c.hotPage=.page hot parents children → parents.length=depth → hot.length < O.capacity →
  ∀k,coalesced O hot obj=some k → k+stop < hot.length

def PoolCall (O:Options) (c:Config) (a:Act) : Prop :=
 a.pool=true ∧ ∀obj,a.added c=some obj → StaysAbove O c obj

def Frame.tokens : Frame → List Held
 | .user ts=>ts
 | .popping t=>[t]
 | .unwinding t _ _=>t.toList
 | _=>[]

/-- Each token's ledger accounts for the pages it was pushed on and for the frames below. -/
def Owed : List Frame → Prop
 | []=>True
 | f::fs=>(∀t∈f.tokens,∀r,r≠0 → t.ledger.handed r =
  t.ledger.released r+(pending r t.before.flatten+inflight fs r)) ∧ Owed fs

structure Tower (c:Config) : Prop where
 quiet : Quiet c
 ordinary : ∀f∈c.stack,f.ordinary=true
 bottom : ∃ts,c.stack.getLast?=some (.user ts)
 owed : Owed c.stack

structure PoolInv (O:Options) (c:Config) : Prop where
 inv : Inv O (OnBefore O) c
 tower : Tower c
 unclaimed : ∀r,c.ledger.claimed r=0

variable {O:Options} {E:Env}

theorem onBefore_admits : Admits O (OnBefore O) := fun _ _ _ h=>h

theorem poolCall_lenient : Lenient (PoolCall O) := by
 rintro c a (rfl|rfl|rfl|⟨rfl,-⟩) <;> exact ⟨rfl,by simp [Act.added]⟩

variable {c c':Config} {f:Frame} {fs:List Frame} {ts:List Held} {a:Act} {t:Held}

theorem StaysAbove.fits {obj:ℕ} (h:Inv O (OnBefore O) c) (habove:StaysAbove O c obj) :
 Fits O (OnBefore O) c obj := by
 intro hot parents hpages hroom hcuts
 apply hcuts.add_above
 intro t depth stop fs hfloors hdepth
 cases hpage : c.hotPage with
 | nil=>
  rw [hpage] at hpages
  cases hpages
 | placeholder=>grind [h.stands.placeholder,List.mem_cons_self]
 | page hot' parents' children=>
  rw [hpage] at hpages
  obtain ⟨rfl,rfl⟩:=List.cons_eq_cons.mp hpages
  exact habove t depth stop fs _ _ _ hfloors hpage hdepth hroom

theorem Tower.below (h:Tower c) (htop:c.stack=f::fs) (hf:∀ts,f≠.user ts) :
 fs≠[] := by grind [h.bottom]

theorem Tower.of_stack {g:List Frame} (h:Tower c) (htop:c.stack=f::fs)
 (hstack:c'.stack=g++fs) (hquiet:Quiet c') (hordinary:∀f'∈g,f'.ordinary=true)
 (hbottom:∀ts,f=.user ts → ∃ts',g.getLast?=some (.user ts'))
 (howed:Owed (f::fs) → Owed (g++fs)) : Tower c' := by
 have hfs:=h.ordinary
 rw [htop,List.forall_mem_cons] at hfs
 obtain ⟨ts,hlast⟩:=h.bottom
 rw [htop] at hlast
 refine ⟨hquiet,?_,?_,?_⟩
 · grind
 · grind
 · rw [hstack]
   exact howed (htop ▸ h.owed)

theorem Tower.replace {g:List Frame} (h:Tower c) (htop:c.stack=f::fs) (hstack:c'.stack=g++fs)
 (hg:g.all Frame.plain=true) (hbottom:∀ts,f=.user ts → ∃ts',g.getLast?=some (.user ts'))
 (howed:Owed (f::fs) → Owed (g++fs)) : Tower c' := by
 rw [all_plain] at hg
 exact h.of_stack htop hstack (h.quiet.of_stack htop hstack fun f' hf'=>(hg f' hf').2)
  (fun f' hf'=>(hg f' hf').1) hbottom howed

theorem Tower.internal (h:Tower c) (hs:Step O E c .internal c') : Tower c' := by
 have hexit:.exiting∉c.stack:=fun hmem=>Bool.noConfusion (h.ordinary _ hmem)
 cases hs with
 | popTLS top | unwindTLS top=>exact h.replace (g:=[_,_]) top rfl rfl nofun fun h=>⟨nofun,h⟩
 | popUnused top | badPop top | popReturn top | releasedAll top | exitReturn top=>
  exact h.replace (g:=[]) top rfl rfl nofun fun h=>h.2
 | popUntil top=>exact h.replace (g:=[_]) top rfl rfl nofun fun h=>h
 | takeEntry top=>
  split
  · exact h.replace (g:=[_]) top rfl rfl nofun fun h=>h
  · exact h.replace (g:=[_,_]) top rfl rfl nofun fun h=>⟨nofun,h⟩
 | release top=>exact h.replace (g:=[_,_]) top rfl rfl nofun fun h=>⟨nofun,nofun,h.2⟩
 | tlsDealloc top | hotPageDealloc top | deallocTLS top | deallocPlaceholder top | exited top=>
  exact absurd (by simp [top]) hexit

theorem Tower.autorelease {obj ra:ℕ} (h:Tower c) (htop:c.stack=.user ts::fs)
 (hstack:c'.stack=.preparing obj true ra false::c.stack) (htls:c'.tls=none) :
 Tower c' := by
 have hrest:∀f∈c.stack,f.isPreparing=false:=by
  have:=h.quiet.rest
  rw [htop,List.tail_cons] at this
  rw [htop]
  exact List.forall_mem_cons.mpr ⟨rfl,this⟩
 refine h.of_stack (g:=[.preparing obj true ra false,.user ts]) htop (by rw [hstack,htop]; rfl)
  ⟨?_,?_⟩ (by simp [Frame.ordinary]) (fun ts' hts'=>⟨ts,rfl⟩) fun h=>⟨by simp [Frame.tokens],h⟩
 · grind
 · rw [hstack]
   exact hrest

theorem held_owed (h:Inv O (OnBefore O) c) (hclaimed:∀r,c.ledger.claimed r=0)
 (htop:c.stack=.user ts::fs)
 (hfits:∀obj,c.tls.map Info.obj=some obj → Fits O (OnBefore O) c obj) {r:ℕ}
 (hr:r≠0) :
 (c.held O).ledger.handed r=(c.held O).ledger.released r +
  (pending r (c.held O).before.flatten+inflight fs r) := by
 have hcons:=(h.moveTLS hfits).conserved r hr
 simp only [Config.outstanding,hclaimed,htop,inflight_cons,Frame.inflight,pendingTLS,
  Nat.zero_add,Nat.add_zero] at hcons
 exact hcons

theorem Tower.step (h:PoolInv O c) (ha:PoolCall O c a) (hs:Step O E c a c') : Tower c' := by
 have htower:=h.tower
 by_cases hint : a=.internal
 · subst hint
   exact htower.internal hs
 cases hs with
 | @push ts fs top=>
  refine htower.replace (g:=[.user (c.held O::ts)]) top rfl rfl (fun _ _=>⟨_,rfl⟩)
   fun howed=>⟨List.forall_mem_cons.mpr ⟨fun r hr=>?_,howed.1⟩,howed.2⟩
  exact held_owed h.inv h.unclaimed top (fun obj hobj=>(ha.2 obj hobj).fits h.inv) hr
 | @pop t ts fs top=>
  refine htower.replace (g:=[.popping t,.user ts]) top rfl rfl (fun _ _=>⟨_,rfl⟩) fun howed=>?_
  have htokens:=List.forall_mem_cons.mp howed.1
  refine ⟨List.forall_mem_singleton.mpr fun r hr=>?_,htokens.2,howed.2⟩
  rw [htokens.1 r hr]
  exact congrArg _ (congrArg _ (Nat.zero_add _).symm)
 | @ret f fs top=>
  have hfs:=htower.ordinary
  rw [top,List.forall_mem_cons] at hfs
  obtain ⟨ts,hlast⟩:=htower.bottom
  rw [top,List.getLast?_cons_cons] at hlast
  refine ⟨htower.quiet.of_stack (g:=[]) top rfl (by simp),hfs.2,⟨ts,hlast⟩,?_⟩
  have howed:=htower.owed
  rw [top] at howed
  exact howed.2
 | autorelease top real elides=>exact htower.autorelease top (by rw [top]) rfl
 | rootAutorelease2 top real elides=>
  exact htower.replace (g:=[_]) top rfl rfl (fun _ _=>⟨_,rfl⟩) fun howed=>howed
 | setInfo top fits=>exact htower.replace (g:=[]) top rfl rfl nofun fun howed=>howed.2
 | _=>first | exact absurd rfl hint | cases ha.1

theorem claimed_step (ha:a.pool=true) (hs:Step O E c a c') :
 c'.ledger.claimed=c.ledger.claimed := by
 cases hs with
 | accepted=>cases ha
 | _=>rfl

theorem poolInv_step (h:PoolInv O c) (ha:PoolCall O c a) (hs:Step O E c a c') : PoolInv O c' := by
 refine ⟨?_,.step h ha hs,fun r=>by rw [claimed_step ha.1 hs,h.unclaimed]⟩
 refine inv_step onBefore_admits h.inv hs (fun obj hobj=>(ha.2 obj hobj).fits h.inv) ?_ ?_
 · rintro rfl
   cases hs with
   | setInfo top=>exact (h.tower.quiet.top _ _ _ _ _ top).2
 · rintro rfl
   cases ha.1

theorem poolInv_initial (off:O.debugMissingPools=false) : PoolInv O initial := by
 refine ⟨inv_initial off,⟨⟨by simp [initial],by simp [initial]⟩,?_,⟨[],rfl⟩,?_⟩,fun _=>rfl⟩
 · simp [initial,Frame.ordinary]
 · simp [initial,Owed,Frame.tokens]

theorem poolInv_reachable (h:PoolInv O c) (hr:Reachable O E (PoolCall O) c c') : PoolInv O c' := by
 induction hr with
 | refl=>exact h
 | tail _ hs ih=>
  obtain ⟨a,admitted,hs⟩:=hs
  exact poolInv_step ih admitted hs

/-- The pages are at the token: its page is the hot one and ends there. Where every pool has a
    page of its own, that page is gone. -/
def Held.Returned (O:Options) (t:Held) (h:HotPage) : Prop :=
 match t.token with
 | .slot depth index=>O.debugPoolAllocation=true ∧ index=0 ∨
  ∃hot parents children,h=.page hot parents children ∧ parents.length=depth ∧ hot.length=index
 | .placeholder=>h=.nil ∨ ∃children,h=.page [] [] children

structure Popped (O:Options) (t:Held) (c:Config) : Prop where
 /-- As many releases as autoreleases since the push. -/
 released : ∀r,r≠0 → c.ledger.released r+t.ledger.handed r=c.ledger.handed r+t.ledger.released r
 /-- The entries below the token are the ones from before the push. -/
 pages : c.hotPage.pages=t.before ∨ c.hotPage.pages=[]::t.before
 hot : t.Returned O c.hotPage
 children : ∀p∈c.hotPage.children,p=[]
 tls : c.tls=none

theorem Popped.of_pages (h:PoolInv O c) (hstack:c.stack=fs)
 (howed:∀r,r≠0 → t.ledger.handed r=t.ledger.released r + (pending r t.before.flatten+inflight fs r))
 (hpages:c.hotPage.pages=t.before ∨ c.hotPage.pages=[]::t.before)
 (hhot:t.Returned O c.hotPage) (htls:c.tls=none) : Popped O t c := by
 refine ⟨fun r hr=>?_,hpages,hhot,h.inv.stands.children,htls⟩
 have hflat:c.hotPage.pages.flatten=t.before.flatten:=by grind
 have hcons:=h.inv.conserved r hr
 grind [Config.outstanding,h.unclaimed,pendingTLS]

theorem popped_unused (h:PoolInv O c) (h':PoolInv O c') (hs:Step O E c a c')
 (htop:c.stack=.popping t::fs) (hreturn:c'.stack=fs) : Popped O t c' := by
 have hstands:=h.inv.stands
 have howed:=h.tower.owed
 rw [htop] at hstands howed
 have hshorter:c'.stack.length+1=c.stack.length:=by
  rw [hreturn,htop,List.length_cons]
 cases hs with
 | popUnused top clear unused=>
  rw [htop] at top
  cases top
  obtain ⟨token,-⟩:=HotPage.pop_eq_unused.mp unused
  refine .of_pages h' rfl (howed.1 t List.mem_cons_self) (.inl ?_) ?_ clear
  · cases hstands.cuts with
    | @closed _ _ _ below rest extra above split piled room slot bottom kept under=>
     rcases slot with hslot|⟨-,hbelow,-⟩
     · rw [token] at hslot
       cases hslot
     · rw [List.length_eq_zero_iff] at hbelow
       rcases kept with ⟨-,hne,-⟩|⟨-,hkept⟩
       · exact absurd token hne
       · rw [←hkept,hbelow]
         rfl
  · rw [Held.Returned,token]
    exact .inl rfl
 | badPop top clear bad=>grind [hstands.entryAt,HotPage.entryAt_of_badPop]
 | _=>grind

theorem Held.Returned.of_popPage (off:O.debugMissingPools=false) {rest:Page}
 {below children:List Page} {depth stop:ℕ}
 (hat:t.At depth stop) (hlen:rest.length=stop) (hheight:below.length=depth) :
 t.Returned O (popPage O (.page rest below children)) := by
 have hpage:¬(O.debugPoolAllocation=true ∧ rest=[]) →
  ∃cs,popPage O (.page rest below children)=.page rest below cs := by
  intro hkeep
  simp only [popPage,if_neg hkeep,off,Bool.false_eq_true,false_and,if_false]
  split <;> exact ⟨_,rfl⟩
 rcases hat with htok|⟨htok,hd,hs⟩
 · rw [Held.Returned,htok]
   by_cases hkill : O.debugPoolAllocation=true ∧ rest=[]
   · grind
   · grind
 · grind [Held.Returned,popPage]

theorem popped_return {depth stop:ℕ} (h:PoolInv O c) (h':PoolInv O c')
 (hs:Step O E c a c') (htop:c.stack=.unwinding (some t) depth stop::fs)
 (hreturn:c'.stack=fs) :
 Popped O t c' := by
 have hstands:=h.inv.stands
 have howed:=h.tower.owed
 rw [htop] at hstands howed
 have hshorter:c'.stack.length+1=c.stack.length:=by
  rw [hreturn,htop,List.length_cons]
 cases hs with
 | popReturn top done clear=>
  rw [htop] at top
  cases top
  obtain ⟨rest,below,children,hpage,hlen,hheight,-,hslot,-⟩:=hstands.come_down done
  obtain ⟨hat,hkept⟩:=hslot t rfl
  have hpopped:popPage O (c.hotPage.setHot depth)=popPage O (.page rest below children):=by
   rw [hpage,←hheight,setHot_self]
  refine .of_pages h' rfl (howed.1 t List.mem_cons_self) ?_ ?_ clear
  · change (popPage O (c.hotPage.setHot depth)).pages=_ ∨ _=_
    rw [hpopped,popPage_pages hstands.off,resume]
    split
    · next hkill =>
      rcases hkept with ⟨-,-,hfilled⟩|⟨-,hbefore⟩
      · exact absurd hkill.2 (hfilled hkill.1)
      · exact .inl hbefore
    · rcases hkept with ⟨hbefore,-⟩|⟨rfl,hbefore⟩
      · exact .inl hbefore
      · exact .inr (by rw [hbefore])
  · change t.Returned O (popPage O (c.hotPage.setHot depth))
    rw [hpopped]
    exact .of_popPage hstands.off hat hlen hheight
 | _=>grind

theorem popped_of_step (h:PoolInv O c) (ha:PoolCall O c a) (hs:Step O E c a c')
 (htop:c.stack=f::fs) (hf:f.unwinds=some (some t)) (hreturn:c'.stack=fs) :
 Popped O t c' := by
 have h':=poolInv_step h ha hs
 cases f with
 | popping t'=>
  obtain rfl:=Option.some.inj (Option.some.inj hf)
  exact popped_unused h h' hs htop hreturn
 | unwinding t' depth stop=>
  obtain rfl:=Option.some.inj hf
  exact popped_return h h' hs htop hreturn
 | _=>cases hf

/-- In every state that a run of pool calls reaches, a pop that is in progress does what
    `Popped` says at the step with which it returns, and it can return. -/
theorem pop_nests (off:O.debugMissingPools=false) {g:List Frame}
 (hr:Reachable O E (PoolCall O) initial c)
 (hstack:c.stack=g++f::fs) (hf:f.unwinds=some (some t)) :
 ∃c₁ f₁ a c',Reachable O E (PoolCall O) c c₁ ∧ c₁.stack=f₁::fs ∧ f₁.unwinds=some (some t) ∧
  PoolCall O c₁ a ∧ Step O E c₁ a c' ∧ c'.stack=fs := by
 have h:=poolInv_reachable (poolInv_initial off) hr
 have hordinary:=h.tower.ordinary
 rw [hstack] at hordinary
 have hg:∀f∈g,f.ordinary=true:=fun f hf=>hordinary f (List.mem_append_left _ hf)
 obtain ⟨c₀,hrun,hstack₀,hinv,hquiet,-⟩ :=
  finish (E:=E) poolCall_lenient onBefore_admits h.inv h.tower.quiet hstack hg (by simp)
 have h₀:=poolInv_reachable h hrun
 have hfs:fs≠[]:=h₀.tower.below hstack₀ (by rintro ts rfl; cases hf)
 obtain ⟨c₁,f₁,a,c',hrun₁,hfinal⟩ :=
  pop_returns (E:=E) poolCall_lenient onBefore_admits hinv hquiet hstack₀ hf hfs
 exact ⟨c₁,f₁,a,c',hrun.trans hrun₁,hfinal⟩

/-- Where missing pools are not debugged: along every run of pool calls whose additions stay above
    the pool that is being unwound, a pop ends with what `Popped` says, and a pop that has begun
    can end. -/
theorem autoreleasePool_nesting (O:Options) (off:O.debugMissingPools=false) (E:Env) {c:Config}
 (hr:Reachable O E (PoolCall O) initial c) :
 (∀f fs t a c',c.stack=f::fs → f.unwinds=some (some t) → PoolCall O c a → Step O E c a c' →
  c'.stack=fs → Popped O t c') ∧
 ∀f fs g t,c.stack=g++f::fs → f.unwinds=some (some t) →
  ∃c₁ f₁ a c',Reachable O E (PoolCall O) c c₁ ∧ c₁.stack=f₁::fs ∧ f₁.unwinds=some (some t) ∧
   PoolCall O c₁ a ∧ Step O E c₁ a c' ∧ c'.stack=fs := by
 constructor
 · intro f fs t a c' htop hf ha hs hreturn
   exact popped_of_step (poolInv_reachable (poolInv_initial off) hr) ha hs htop hf hreturn
 · intro f fs g t hstack hf
   exact pop_nests off hr hstack hf

def sampleOptions : Options := ⟨505,by decide,.lru,false,false,true⟩

def sampleEnv : Env := ⟨fun _=>false,fun _=>true⟩

theorem PoolCall.of_none (ha:a.pool=true) (hadded:a.added c=none) : PoolCall O c a := by
 refine ⟨ha,fun obj hobj=>?_⟩
 rw [hadded] at hobj
 cases hobj

theorem autoreleasePool_nesting_placeholder :
 ∃c c' t,Reachable sampleOptions sampleEnv (PoolCall sampleOptions) initial c ∧
  Step sampleOptions sampleEnv c .internal c' ∧ Popped sampleOptions t c' ∧
  t.ledger.released 16=0 ∧ c'.ledger.released 16=1 := by
 have r₀:Reachable sampleOptions sampleEnv (PoolCall sampleOptions) initial initial:=.refl
 have r₁:=r₀.step (.of_none rfl rfl) (.push rfl)
 have r₂:=r₁.step (.of_none rfl rfl)
  (@Step.autorelease sampleOptions sampleEnv _ _ _ 16 0 rfl (by decide) rfl)
 have r₃:=r₂.step (.of_none rfl rfl) (.setInfo rfl (.inl rfl))
 have r₄:=r₃.step (.of_none rfl rfl) (.pop rfl)
 have r₅:=r₄.step (.of_none rfl rfl) (.popTLS rfl rfl)
 have r₆:=r₅.step (.of_none rfl rfl) (.ret rfl)
 refine ⟨_,_,initial.held sampleOptions,r₆,.popUnused rfl rfl rfl,?_,rfl,by decide⟩
 exact (autoreleasePool_nesting sampleOptions rfl sampleEnv r₆).1 _ _ _ .internal _ rfl rfl
  (.of_none rfl rfl) (.popUnused rfl rfl rfl) rfl

def AnyPoolCall (_:Config) (a:Act) : Prop := a.pool=true

theorem Reachable.call {c₀:Config} (r:Reachable O E AnyPoolCall c₀ c) (hs:Step O E c a c')
 (ha:a.pool=true) : Reachable O E AnyPoolCall c₀ c' :=
 r.step ha hs

theorem Reachable.autoreleased {c₀:Config} (r:Reachable O E AnyPoolCall c₀ c) (obj:ℕ)
 (top:c.stack=.user ts::fs) (real:obj≠0) (elides:O.elision=true) :
 Reachable O E AnyPoolCall c₀
  ⟨c.moveTLS O,some ⟨obj,true,0⟩,c.ledger.hand obj,.user ts::fs⟩ :=
 (r.call (@Step.autorelease O E c ts fs obj 0 top real elides) rfl).call
  (.setInfo rfl (.inl rfl)) rfl

/-- While an inner pool is popped, the release of a pending object autoreleases 16 and something
    else. The boundary of the pool is gone by then, so 16 is counted in an entry of the outer pool:
    the pop does not release it, and that entry changes. -/
theorem pop_leaves_reentrant_autorelease :
 ∃c c' t,Reachable sampleOptions sampleEnv AnyPoolCall initial c ∧
  c.stack=[.unwinding (some t) 0 2,.user [initial.held sampleOptions]] ∧
  Step sampleOptions sampleEnv c .internal c' ∧
  c'.stack=[.user [initial.held sampleOptions]] ∧
  c'.ledger.handed 16=t.ledger.handed 16+1 ∧
  c'.ledger.released 16=t.ledger.released 16 ∧
  t.before=[[⟨16,0⟩,boundary]] ∧ c'.hotPage.pages=[[⟨16,1⟩,boundary]] := by
 have r₀:Reachable sampleOptions sampleEnv AnyPoolCall initial initial:=.refl
 have outer:=(r₀.call (.push rfl) rfl).autoreleased 16 rfl (by decide) rfl
 have inner:=((outer.call (.push rfl) rfl).autoreleased 32 rfl (by decide) rfl).autoreleased 48
  rfl (by decide) rfl
 have popping:=((inner.call (.pop rfl) rfl).call (.popTLS rfl rfl) rfl).call (.ret rfl) rfl
 have unwinding:=popping.call (.popUntil rfl rfl rfl) rfl
 -- The release of 32 leaves 64 pending.
 have released:=((unwinding.call (.takeEntry rfl (by decide) rfl) rfl).call (.release rfl)
  rfl).autoreleased 64 rfl (by decide) rfl
 have taken:=((released.call (.ret rfl) rfl).call (.releasedAll rfl) rfl).call
  (.takeEntry rfl (by decide) rfl) rfl
 -- The release of 64 autoreleases 16 and 80.
 have reentrant:=((taken.call (.unwindTLS rfl rfl rfl) rfl).autoreleased 16 rfl (by decide)
  rfl).autoreleased 80 rfl (by decide) rfl
 have done:=((reentrant.call (.ret rfl) rfl).call (.unwindTLS rfl rfl rfl) rfl).call (.ret rfl) rfl
 exact ⟨_,_,_,done,rfl,.popReturn rfl rfl rfl,rfl,by decide,by decide,rfl,rfl⟩

end ObjcRuntime.AutoreleaseThread
