import ObjcRuntime.PoolNesting

/-!
# Hand-off of returned values

Each reference that is handed to an autoreleasing call is claimed or released once, unless
`prepareOptimizedReturn` stores over a pending object or `HotPageDealloc` over pages in use.
-/
set_option autoImplicit false
namespace ObjcRuntime.AutoreleaseThread
open AutoreleasePage

/-- `prepareOptimizedReturn` stores over a pending object, or `HotPageDealloc` over pages that
    hold entries. -/
def Overwrites (c:Config) (a:Act) : Prop :=
 a=.setInfo ∧ c.tls≠none ∨ a=.reinstate ∧ c.hotPage.pages.flatten≠[]

def Careful (c:Config) (a:Act) : Prop := ¬Overwrites c a

def Anything (_:Held) (_:Page) (_:List Page) : Prop := True

variable {O:Options} {E:Env}

theorem anything_admits : Admits O Anything := fun _ _ _ _=>trivial

theorem careful_lenient : Lenient Careful := by
 rintro c a (rfl|rfl|rfl|⟨rfl,htls⟩) <;> simp [Careful,Overwrites]
 exact htls

variable {c:Config} {a:Act} {fs:List Frame}

theorem fits_anything {obj:ℕ} (hobj:obj≠0) : Fits O Anything c obj := by
 intro hot parents _ _ hcuts
 exact hcuts.touch (fun _ _ _ _ _=>trivial) (add_touch O hot hobj)

variable {c':Config}

theorem added_ne_zero {obj:ℕ} (h:Shape O Anything c) (hs:Step O E c a c')
 (hadded:a.added c=some obj) : obj≠0 := by
 have htls:c.tls.map Info.obj=some obj → obj≠0:=by grind [Option.map_eq_some_iff,h.real]
 cases hs with
 | rootAutorelease2 top real=>
  obtain rfl:=Option.some.inj hadded
  exact real
 | _=>first | exact htls hadded | cases hadded

def Frame.grounds : Frame → Bool
 | .user _ | .exiting=>true
 | _=>false

def Grounded : List Frame → Prop
 | []=>False
 | [f]=>f.grounds=true
 | _::f::fs=>Grounded (f::fs)

theorem Grounded.cons (h:Grounded fs) (f:Frame) : Grounded (f::fs) := by
 cases fs with
 | nil=>exact h.elim
 | cons=>exact h

theorem Grounded.below {f:Frame} (h:Grounded (f::fs)) (hf:f.grounds=false) : Grounded fs := by
 cases fs with
 | nil=>exact absurd h (by rw [Grounded,hf]; decide)
 | cons=>exact h

theorem Grounded.swap {f f':Frame} (h:Grounded (f::fs)) (hf:f'.grounds=true) :
 Grounded (f'::fs) := by
 cases fs with
 | nil=>exact hf
 | cons=>exact h

def Config.Over (c:Config) : Prop := c.stack=[] ∧ c.hotPage=.nil ∧ c.tls=none

theorem grounded_internal (h:Grounded c.stack) (hs:Step O E c .internal c') :
 c'.Over ∨ Grounded c'.stack := by
 cases hs with
 | exited top unused clear=>exact .inl ⟨rfl,unused,clear⟩
 | takeEntry top=>grind [h.cons]
 | popUntil top=>
  rw [top] at h
  exact .inr ((h.below rfl).cons _)
 | popTLS top | unwindTLS top=>
  rw [top] at h
  exact .inr (h.cons _)
 | release top=>
  rw [top] at h
  exact .inr (((h.below rfl).cons _).cons _)
 | popUnused top | badPop top | popReturn top | exitReturn top | releasedAll top=>
  rw [top] at h
  exact .inr (h.below rfl)
 | _=>exact .inr rfl

theorem grounded_step (h:Grounded c.stack) (hs:Step O E c a c') :
 c'.Over ∨ Grounded c'.stack := by
 by_cases ha : a=.internal
 · subst ha
   exact grounded_internal h hs
 right
 cases hs with
 | push top=>
  rw [top] at h
  exact h.swap rfl
 | pop top=>
  rw [top] at h
  exact (h.swap rfl).cons _
 | ret top | rootAutorelease2 top | declined top=>
  rw [top] at h
  exact h
 | autorelease top | autoreleaseReturnValue top | retainAutoreleaseReturnValue top=>
  rw [top] at h
  exact h.cons _
 | acceptNothing=>exact h
 | accepted top=>grind [h.cons]
 | classInitialize top=>
  rw [top] at h
  exact ((h.below rfl).cons _).cons _
 | setInfo top=>
  rw [top] at h
  exact h.below rfl
 | sendAutorelease top=>
  rw [top] at h
  exact (h.below rfl).cons _
 | exit | reinstate | reinstateEmpty=>rfl
 | _=>exact absurd rfl ha

structure HandoffInv (O:Options) (c:Config) : Prop where
 inv : Inv O Anything c
 ground : c.Over ∨ Grounded c.stack

theorem not_step_of_over (h:c.Over) : ¬Step O E c a c' := by
 intro hs
 have hstack:=h.1
 cases hs <;> simp_all

theorem handoffInv_step (h:HandoffInv O c) (ha:Careful c a)
 (hs:Step O E c a c') : HandoffInv O c' := by
 refine ⟨?_,?_⟩
 · refine inv_step anything_admits h.inv hs
    (fun obj hobj=>fits_anything (added_ne_zero h.inv.shape hs hobj)) ?_ ?_
   · intro hset
     by_contra htls
     exact ha (.inl ⟨hset,htls⟩)
   · intro hset
     by_contra hpages
     exact ha (.inr ⟨hset,hpages⟩)
 · rcases h.ground with hover|hground
   · exact absurd hs (not_step_of_over hover)
   · exact grounded_step hground hs

theorem handoffInv_reachable (h:HandoffInv O c) (hr:Reachable O E Careful c c') :
 HandoffInv O c' := by
 induction hr with
 | refl=>exact h
 | tail _ hs ih=>
  obtain ⟨a,admitted,hs⟩:=hs
  exact handoffInv_step ih admitted hs

theorem handoffInv_initial (off:O.debugMissingPools=false) : HandoffInv O initial :=
 ⟨inv_initial off,.inr rfl⟩

/-- A step leaves the pending object where it is, moves it to the pool, or lets go of the
    reference by a claim or a release. -/
def Disposed (info:Info) (c c':Config) : Prop :=
 c'.tls=some info ∨ c'.tls=none ∧ ((∀r,r≠0 → pending r c'.hotPage.pages.flatten =
   pending r c.hotPage.pages.flatten+if info.obj=r then 1 else 0) ∨
   c'.ledger=c.ledger.claim info.obj ∨ c'.ledger=c.ledger.release info.obj)

theorem disposed_of_step {info:Info} (h:HandoffInv O c) (ha:Careful c a)
 (hs:Step O E c a c') (htls:c.tls=some info) : Disposed info c c' := by
 have hobj:=h.inv.real info htls
 have hmoved:c.moveTLS O=(autoreleaseFast O info.obj c.hotPage).1:=by
  rw [Config.moveTLS,htls]
 have hpending:∀r,pending r (c.moveTLS O).pages.flatten =
  pending r c.hotPage.pages.flatten+if info.obj=r then 1 else 0 := by
  intro r
  rw [hmoved]
  exact pending_autoreleaseFast h.inv.stands.off hobj h.inv.stands.children h.inv.stands.size r
 cases hs with
 | push top=>
  have hstands:=(h.inv.moveTLS fun obj hobj'=>by
   rw [htls] at hobj'
   obtain rfl:=Option.some.inj hobj'
   exact fits_anything hobj).stands
  obtain ⟨rest,below,hp⟩:=pushBoundary_spec hstands.children hstands.size
  exact .inr ⟨rfl,.inl fun r hr=>(hp.pending hr).trans (hpending r)⟩
 | setInfo top=>exact absurd (.inl ⟨rfl,by simp [htls]⟩) ha
 | accepted top pending'=>
  obtain rfl:=Option.some.inj (htls.symm.trans pending')
  exact .inr ⟨rfl,.inr (.inl rfl)⟩
 | popTLS top pending' | unwindTLS top done pending' | tlsDealloc top pending'
 | deallocTLS top pending'=>
  obtain rfl:=Option.some.inj (htls.symm.trans pending')
  exact .inr ⟨rfl,.inr (.inr rfl)⟩
 | autorelease | autoreleaseReturnValue | retainAutoreleaseReturnValue | declined
 | sendAutorelease=>exact .inr ⟨rfl,.inl fun r _=>hpending r⟩
 | _=>exact .inl htls

theorem exit_unwound {f:Frame} (htop:c.stack=[f,.exiting])
 (hf:f.unwinds=some none) (hs:Step O E c a c') (hreturn:c'.stack=[.exiting]) :
 c'.hotPage=.nil ∧ c'.tls=none := by
 cases f with
 | unwinding t depth stop=>
  obtain rfl:=Option.some.inj hf
  cases hs with
  | exitReturn top done clear=>exact ⟨rfl,clear⟩
  | _=>grind
 | _=>cases hf

theorem exit_completes_clear (h:Inv O Anything c) (htop:c.stack=[.exiting])
 (htls:c.tls=none) : ∃c',Reachable O E Careful c c' ∧ c'.stack=[] := by
 have hcareful:∀c : Config,Careful c .internal:=fun c=>careful_lenient c _ (by simp)
 have hover:∀{c':Config},Reachable O E Careful c c' → c'.stack=[.exiting] →
  c'.hotPage=.nil → c'.tls=none → ∃c',Reachable O E Careful c c' ∧ c'.stack=[] :=
  fun hr hstack hpage htls=>⟨_,hr.step (hcareful _) (.exited hstack hpage htls),rfl⟩
 by_cases hnil : c.hotPage=.nil
 · exact hover .refl htop hnil htls
 have hbegin:=Reachable.step .refl (hcareful c) (.hotPageDealloc (O:=O) (E:=E) htop hnil)
 have hinv:=h.internal (.hotPageDealloc (E:=E) htop hnil)
 have hreinstate:Careful {c with hotPage:=.nil,stack:=[.hotPageDealloc c.hotPage,.exiting]}
  .reinstate := by
  simp [Careful,Overwrites,HotPage.pages]
 cases hpage : c.hotPage with
 | nil=>exact absurd hpage hnil
 | placeholder=>
  rw [hpage] at hbegin
  exact hover (hbegin.step (hcareful _) (.deallocPlaceholder rfl htls)) rfl rfl htls
 | page hot parents children=>
  rw [hpage] at hbegin hinv hreinstate
  obtain ⟨cold,hcold⟩ : ∃cold,(HotPage.page hot parents children).pageAt 0=some cold:=by
   rw [HotPage.pageAt]
   exact ⟨_,List.getElem?_eq_getElem (by simp)⟩
  by_cases hempty : cold=[]
  · subst hempty
    exact hover (hbegin.step hreinstate (.reinstateEmpty rfl htls hcold)) rfl rfl htls
  · have hrun:=hbegin.step hreinstate (.reinstate rfl htls hcold hempty)
    have hinv':=inv_step (E:=E) anything_admits hinv (.reinstate rfl htls hcold hempty)
     (by simp [Act.added]) (by simp) (fun _=>rfl)
    have hquiet:Quiet ⟨.page hot parents children,c.tls,c.ledger,
     [.unwinding none 0 0,.exiting]⟩ := ⟨by simp,by simp [Frame.isPreparing]⟩
    obtain ⟨c₁,f₁,a,c',hrun₁,hstack₁,hf₁,ha,hs,hstack'⟩ :=
     pop_returns (E:=E) careful_lenient anything_admits hinv' hquiet rfl rfl (by simp)
    obtain ⟨hpage',htls'⟩:=exit_unwound hstack₁ hf₁ hs hstack'
    exact hover (Reachable.step (hrun.trans hrun₁) ha hs) hstack' hpage' htls'

theorem exit_completes {ts:List Held} (h:Inv O Anything c) (htop:c.stack=[.user ts]) :
 ∃c',Reachable O E Careful c c' ∧ c'.stack=[] := by
 have hexit:Careful c .exit:=by simp [Careful,Overwrites]
 have hinv:=inv_step (E:=E) anything_admits h (.exit htop) (by simp [Act.added]) (by simp) (by simp)
 have hbegin:=Reachable.step .refl hexit (.exit (O:=O) (E:=E) htop)
 cases htls : c.tls with
 | none=>
  obtain ⟨c',hrun,hstack⟩:=exit_completes_clear (E:=E) hinv rfl htls
  exact ⟨c',hbegin.trans hrun,hstack⟩
 | some info=>
  -- The pending object is released first, and its release returns.
  have hreleased:=hinv.internal (.tlsDealloc (E:=E) rfl htls)
  have hreturned:=inv_step (E:=E) anything_admits hreleased (.ret rfl) (by simp [Act.added])
   (by simp) (by simp)
  have hrun₁:=(hbegin.step (careful_lenient _ _ (by simp)) (.tlsDealloc rfl htls)).step
   (careful_lenient _ _ (by simp)) (.ret rfl)
  obtain ⟨c',hrun,hstack⟩:=exit_completes_clear (E:=E) hreturned rfl rfl
  exact ⟨c',hrun₁.trans hrun,hstack⟩

/-- Along every run whose stores overwrite neither a pending object nor pages in use: what was
    handed over is claimed, released, or with the runtime; the pending object is never lost; and
    when the thread is over, nothing is left. From its own code the thread can always come to its
    end. -/
theorem returnAutorelease_conserves_references (O:Options) (off:O.debugMissingPools=false)
 (E:Env) {c:Config} (hr:Reachable O E Careful initial c) :
 c.Conserved ∧
 (∀info a c',c.tls=some info → Careful c a → Step O E c a c' → Disposed info c c') ∧
 (c.stack=[] → ∀r,r≠0 → c.ledger.handed r=c.ledger.claimed r+c.ledger.released r) ∧
 ∀ts,c.stack=[.user ts] → ∃c',Reachable O E Careful c c' ∧ c'.stack=[] := by
 have h:=handoffInv_reachable (handoffInv_initial off) hr
 refine ⟨h.inv.conserved,?_,?_,?_⟩
 · grind [disposed_of_step]
 · intro hstack r hr
   have hover:c.Over:=by
    rcases h.ground with hover|hground
    · exact hover
    · rw [hstack] at hground
      exact hground.elim
   have hcons:=h.inv.conserved r hr
   rw [Config.outstanding,hstack,hover.2.1,hover.2.2] at hcons
   exact hcons
 · intro ts htop
   exact exit_completes h.inv htop

theorem returnAutorelease_claimed_and_drained :
 ∃c,Reachable sampleOptions sampleEnv Careful initial c ∧ c.stack=[] ∧
  c.ledger.claimed 16=1 ∧ c.ledger.released 32=1 ∧
  c.ledger.handed 32=c.ledger.claimed 32+c.ledger.released 32 := by
 have hcareful:∀(c:Config) (a:Act),a≠.setInfo → a≠.reinstate → Careful c a:=by
  intro c a hset hreinstate
  simp [Careful,Overwrites,hset,hreinstate]
 have hset:∀(c:Config),c.tls=none → Careful c .setInfo :=
  fun c htls=>careful_lenient c _ (by simp [htls])
 have r₀:Reachable sampleOptions sampleEnv Careful initial initial:=.refl
 have r₁:=(r₀.step (hcareful _ _ (by simp) (by simp)) (@Step.autoreleaseReturnValue sampleOptions
  sampleEnv _ _ _ 16 100 rfl (by decide) rfl)).step (hset _ rfl) (.setInfo rfl (.inr (.inl rfl)))
 have r₂:=r₁.step (hcareful _ _ (by simp) (by simp)) (@Step.accepted sampleOptions sampleEnv _ _ _ _
  .retainAutoreleasedReturnValue 108 rfl rfl (by decide))
 have r₃:=(r₂.step (hcareful _ _ (by simp) (by simp)) (@Step.autorelease sampleOptions sampleEnv _ _
  _ 32 200 rfl (by decide) rfl)).step (hset _ rfl) (.setInfo rfl (.inl rfl))
 have r₄:=r₃.step (hcareful _ _ (by simp) (by simp)) (.exit rfl)
 have r₅:=(r₄.step (hcareful _ _ (by simp) (by simp)) (.tlsDealloc rfl rfl)).step
  (hcareful _ _ (by simp) (by simp)) (.ret rfl)
 have r₆:=r₅.step (hcareful _ _ (by simp) (by simp)) (.exited rfl rfl rfl)
 have hend:=(returnAutorelease_conserves_references sampleOptions rfl sampleEnv r₆).2.2.1 rfl 32
  (by decide)
 exact ⟨_,r₆,rfl,by decide,by decide,hend⟩

def AnyCall (_:Config) (_:Act) : Prop := True

/-- In the first run, the initializer of 16's class leaves 32 pending, and the store of 16
    overwrites it. In the second, the release that `HotPageDealloc` sends autoreleases 48 and 64
    while the slot of the hot page is clear: 48 goes to a new page, over which the old pages are
    reinstated. Both threads end with a reference that is neither claimed nor released. -/
theorem returnAutorelease_loses_references :
 (∃c,Reachable sampleOptions sampleEnv AnyCall initial c ∧ c.stack=[] ∧
  c.ledger.handed 32=1 ∧ c.ledger.claimed 32=0 ∧ c.ledger.released 32=0) ∧
 ∃c,Reachable sampleOptions sampleEnv AnyCall initial c ∧ c.stack=[] ∧
  c.ledger.handed 48=1 ∧ c.ledger.claimed 48=0 ∧ c.ledger.released 48=0 := by
 have r₀:Reachable sampleOptions sampleEnv AnyCall initial initial:=.refl
 have autoreleased:∀{c:Config} {ts:List Held} {fs:List Frame} (obj:ℕ),
  Reachable sampleOptions sampleEnv AnyCall initial c → c.stack=.user ts::fs → obj≠0 →
  Reachable sampleOptions sampleEnv AnyCall initial
   ⟨c.moveTLS sampleOptions,some ⟨obj,true,0⟩,c.ledger.hand obj,.user ts::fs⟩ :=
  fun {c ts fs} obj r top real =>
   (r.step trivial (@Step.autorelease sampleOptions sampleEnv c ts fs obj 0 top real rfl)).step
    trivial (.setInfo rfl (.inl rfl))
 constructor
 · have r₁:=r₀.step trivial
    (@Step.autoreleaseReturnValue sampleOptions sampleEnv _ _ _ 16 100 rfl (by decide) rfl)
   have r₂:=autoreleased 32 (r₁.step trivial (.classInitialize rfl)) rfl (by decide)
   have r₃:=(r₂.step trivial (.ret rfl)).step trivial (.setInfo rfl (.inr (.inl rfl)))
   have r₄:=((r₃.step trivial (.exit rfl)).step trivial (.tlsDealloc rfl rfl)).step trivial
    (.ret rfl)
   exact ⟨_,r₄.step trivial (.exited rfl rfl rfl),rfl,by decide,by decide,by decide⟩
 · have r₁:=autoreleased 32 (autoreleased 16 r₀ rfl (by decide)) rfl (by decide)
   have r₂:=(r₁.step trivial (.exit rfl)).step trivial (.hotPageDealloc rfl (by decide))
   have r₃:=autoreleased 64 (autoreleased 48 (r₂.step trivial (.deallocTLS rfl rfl)) rfl
    (by decide))
    rfl (by decide)
   have r₄:=((r₃.step trivial (.ret rfl)).step trivial (.deallocTLS rfl rfl)).step trivial
    (.ret rfl)
   have r₅:=r₄.step trivial (.reinstate rfl rfl rfl (List.cons_ne_nil _ _))
   have r₆:=((r₅.step trivial (.takeEntry rfl (by decide) rfl)).step trivial (.release rfl)).step
    trivial (.ret rfl)
   have r₇:=(r₆.step trivial (.releasedAll rfl)).step trivial (.exitReturn rfl rfl rfl)
   exact ⟨_,r₇.step trivial (.exited rfl rfl rfl),rfl,by decide,by decide,by decide⟩

end ObjcRuntime.AutoreleaseThread
