import ObjcRuntime.AutoreleaseInvariant

/-!
# Runtime functions return

When the code that it calls returns, every runtime function that is waiting returns as well.
-/
set_option autoImplicit false
namespace ObjcRuntime.AutoreleaseThread
open AutoreleasePage

variable {O:Options} {E:Env} {keeps:Held → Page → List Page → Prop}

def Frame.work : Frame → ℕ
 | .user ts=>5*ts.length+1
 | .popping _=>4
 | .unwinding _ _ _=>3
 | .releasing _ n=>2*n+1
 | .preparing _ _ _ _=>3
 | _=>0

def entriesWork (entries:List Entry) : ℕ := (entries.map fun e=>2*e.count+4).sum

def Config.work (c:Config) : ℕ :=
 entriesWork c.hotPage.pages.flatten+(if c.tls.isSome then 2 else 0) + (c.stack.map Frame.work).sum

/-- Frames that end by themselves. The destructors at the bottom of a stack are not among them. -/
def Frame.ordinary : Frame → Bool
 | .exiting | .hotPageDealloc _=>false
 | _=>true

def Frame.unwinds : Frame → Option (Option Held)
 | .popping t=>some (some t)
 | .unwinding t _ _=>some t
 | _=>none

def Frame.isPreparing : Frame → Bool
 | .preparing _ _ _ _=>true
 | _=>false

/-- `prepareOptimizedReturn` has called nothing, and nothing has come between it and its store. -/
structure Quiet (c:Config) : Prop where
 top : ∀obj root returnAddress initialized fs,
  c.stack=.preparing obj root returnAddress initialized::fs → root=true ∧ c.tls=none
 rest : ∀f∈c.stack.tail,f.isPreparing=false

variable {c:Config} {f:Frame} {gs:List Frame}

theorem Quiet.of_stack {c':Config} (hq:Quiet c) (htop:c.stack=f::gs) {g:List Frame}
 (hstack:c'.stack=g++gs) (hg:∀f∈g,f.isPreparing=false) : Quiet c' := by
 have hgs:=hq.rest
 rw [htop,List.tail_cons] at hgs
 have hall:∀f∈c'.stack,f.isPreparing=false:=by grind
 refine ⟨fun obj root ra i fs h=>?_,fun f hf=>hall f (List.mem_of_mem_tail hf)⟩
 rw [h] at hall
 exact absurd (hall _ List.mem_cons_self) Bool.noConfusion

def Frame.plain (f:Frame) : Bool := f.ordinary && !f.isPreparing

structure Advanced (c c':Config) (f:Frame) (gs g:List Frame) : Prop where
 stack : c'.stack=g++gs
 plain : g.all Frame.plain=true
 work : c'.work < c.work
 unwinds : ∀t,f.unwinds=some t → g=[] ∨ ∃g' f',g=g'++[f'] ∧ f'.unwinds=some t

theorem all_plain {g:List Frame} :
 g.all Frame.plain=true ↔ ∀f∈g,f.ordinary=true ∧ f.isPreparing=false := by
 simp [Frame.plain]

theorem Config.work_of_top (htop:c.stack=f::gs) :
 c.work=entriesWork c.hotPage.pages.flatten+(if c.tls.isSome then 2 else 0) +
  (f.work+(gs.map Frame.work).sum) := by
 rw [Config.work,htop]
 rfl

theorem advance_popping {t:Held} (h:Inv O keeps c) (htop:c.stack=.popping t::gs) :
 ∃c' g,Step O E c .internal c' ∧ Advanced c c' (.popping t) gs g := by
 have hstands:=h.stands
 rw [htop] at hstands
 cases htls : c.tls with
 | some info=>
  refine ⟨_,[.user [],.popping t],.popTLS htop htls,rfl,rfl,?_,
   fun t' ht=>.inr ⟨[.user []],_,rfl,ht⟩⟩
  grind [Config.work,Frame.work]
 | none=>
  cases hpop : c.hotPage.pop t.token with
  | unused=>
   refine ⟨_,[],.popUnused htop htls hpop,rfl,rfl,?_,fun t' _=>.inl rfl⟩
   grind [Config.work,Frame.work,HotPage.pages,entriesWork]
  | badPop=>
   obtain ⟨depth,index,htok,hbad⟩:=HotPage.entryAt_of_badPop hpop
   exact absurd (hstands.entryAt htok).2 hbad
  | releaseUntil depth stop=>
   refine ⟨_,[.unwinding (some t) depth stop],.popUntil htop htls hpop,rfl,rfl,?_,
    fun t' ht=>.inr ⟨[],_,rfl,ht⟩⟩
   rw [Config.work_of_top htop]
   simp [Config.work,Frame.work]

theorem advance_unwinding {t:Option Held} {depth stop:ℕ} (h:Inv O keeps c)
 (htop:c.stack=.unwinding t depth stop::gs) :
 ∃c' g,Step O E c .internal c' ∧ Advanced c c' (.unwinding t depth stop) gs g := by
 have hstands:=h.stands
 rw [htop] at hstands
 by_cases hdone : (c.hotPage.pageAt depth).map List.length=some stop
 · cases htls : c.tls with
   | some info=>
    refine ⟨_,[.user [],.unwinding t depth stop],.unwindTLS htop hdone htls,rfl,rfl,?_,
     fun t' ht=>.inr ⟨[.user []],_,rfl,ht⟩⟩
    grind [Config.work,Frame.work]
   | none=>
    cases t with
    | some t=>
     refine ⟨_,[],.popReturn htop hdone htls,rfl,rfl,?_,fun t' _=>.inl rfl⟩
     rw [Config.work_of_top htop]
     simp [Config.work,Frame.work,(hstands.popReturn hdone).2]
    | none=>
     refine ⟨_,[],.exitReturn htop hdone htls,rfl,rfl,?_,fun t' _=>.inl rfl⟩
     grind [Config.work,Frame.work,HotPage.pages,entriesWork]
 · obtain ⟨e,h',htook,-,hflat⟩:=hstands.take hdone
   have hentry:entriesWork c.hotPage.pages.flatten=2*e.count+4+entriesWork h'.pages.flatten := by
    rw [hflat]
    rfl
   by_cases hzero : e.ptr=0
   · refine ⟨_,[.unwinding t depth stop],.takeEntry htop hdone htook,if_pos hzero,
      rfl,?_,fun t' ht=>.inr ⟨[],_,rfl,ht⟩⟩
     grind [Config.work]
   · refine ⟨_,[.releasing e.ptr (e.count+1),.unwinding t depth stop],
      .takeEntry htop hdone htook,if_neg hzero,rfl,?_,
      fun t' ht=>.inr ⟨[.releasing e.ptr (e.count+1)],_,rfl,ht⟩⟩
     grind [Config.work,Frame.work]

theorem advance (h:Inv O keeps c) (hq:Quiet c) (htop:c.stack=f::gs)
 (hf:f.ordinary=true) (hgs:gs≠[]) :
 ∃a c' g,(a=.pop ∨ a=.ret ∨ a=.internal ∨ a=.setInfo ∧ c.tls=none) ∧
  Step O E c a c' ∧ Advanced c c' f gs g := by
 have hwork:=Config.work_of_top htop
 cases f with
 | user ts=>
  cases ts with
  | nil=>
   obtain ⟨f',fs,rfl⟩:=List.exists_cons_of_ne_nil hgs
   refine ⟨_,_,[],.inr (.inl rfl),.ret htop,rfl,rfl,?_,by simp [Frame.unwinds]⟩
   grind [Config.work,Frame.work]
  | cons t ts=>
   refine ⟨_,_,[.popping t,.user ts],.inl rfl,.pop htop,rfl,rfl,?_,by simp [Frame.unwinds]⟩
   grind [Config.work,Frame.work]
 | popping t=>
  obtain ⟨c',g,hstep,hadv⟩:=advance_popping h htop
  exact ⟨_,c',g,.inr (.inr (.inl rfl)),hstep,hadv⟩
 | unwinding t depth stop=>
  obtain ⟨c',g,hstep,hadv⟩:=advance_unwinding h htop
  exact ⟨_,c',g,.inr (.inr (.inl rfl)),hstep,hadv⟩
 | releasing obj n=>
  cases n with
  | zero=>
   refine ⟨_,_,[],.inr (.inr (.inl rfl)),.releasedAll htop,rfl,rfl,?_,by simp [Frame.unwinds]⟩
   rw [hwork]
   simp only [Config.work,Frame.work]
   omega
  | succ n=>
   refine ⟨_,_,[.user [],.releasing obj n],.inr (.inr (.inl rfl)),.release htop,rfl,rfl,?_,
    by simp [Frame.unwinds]⟩
   grind [Config.work,Frame.work]
 | preparing obj root ra i=>
  obtain ⟨rfl,htls⟩:=hq.top _ _ _ _ _ htop
  refine ⟨_,_,[],.inr (.inr (.inr ⟨rfl,htls⟩)),.setInfo htop (.inl rfl),rfl,rfl,?_,
   by simp [Frame.unwinds]⟩
  grind [Config.work,Frame.work]
 | exiting | hotPageDealloc p=>cases hf

def Lenient (admits:Config → Act → Prop) : Prop :=
 ∀c a,(a=.pop ∨ a=.ret ∨ a=.internal ∨ a=.setInfo ∧ c.tls=none) → admits c a

theorem Advanced.quiet {c':Config} {g:List Frame} (hadv:Advanced c c' f gs g) (hq:Quiet c)
 (htop:c.stack=f::gs) : Quiet c' :=
 hq.of_stack htop hadv.stack fun f' hf'=>(all_plain.mp hadv.plain f' hf').2

theorem inv_advance {c':Config} {a:Act} (hkeeps:Admits O keeps) (h:Inv O keeps c)
 (ha:a=.pop ∨ a=.ret ∨ a=.internal ∨ a=.setInfo ∧ c.tls=none)
 (hs:Step O E c a c') : Inv O keeps c' := by grind [inv_step,Act.added]

theorem finish {admits:Config → Act → Prop} (hadmits:Lenient admits) (hkeeps:Admits O keeps)
 {g fs:List Frame} (h:Inv O keeps c) (hq:Quiet c) (hstack:c.stack=g++fs)
 (hg:∀f∈g,f.ordinary=true) (hfs:fs≠[]) :
 ∃c',Reachable O E admits c c' ∧ c'.stack=fs ∧ Inv O keeps c' ∧ Quiet c' ∧ c'.work ≤ c.work := by
 induction hn : c.work using Nat.strong_induction_on generalizing c g with
 | _ n ih=>
  cases g with
  | nil=>exact ⟨c,.refl,hstack,h,hq,hn.le⟩
  | cons f g=>
   rw [List.forall_mem_cons] at hg
   rw [List.cons_append] at hstack
   obtain ⟨a,c',g',ha,hstep,hadv⟩:=advance h hq hstack hg.1 (by simp [hfs])
   have hstack':c'.stack=(g'++g)++fs:=by
    rw [hadv.stack,List.append_assoc]
   have hg':∀f∈g'++g,f.ordinary=true :=
    List.forall_mem_append.mpr ⟨fun f hf=>(all_plain.mp hadv.plain f hf).1,hg.2⟩
   have hwork:=hadv.work
   rw [hn] at hwork
   obtain ⟨c'',hrun,hfs,hinv,hq',hle⟩:=ih _ hwork (inv_advance hkeeps h ha hstep)
    (hadv.quiet hq hstack) hstack' hg' rfl
   exact ⟨c'',.head ⟨a,hadmits c a ha,hstep⟩ hrun,hfs,hinv,hq',
    hle.trans hwork.le⟩

theorem pop_returns {admits:Config → Act → Prop} (hadmits:Lenient admits)
 (hkeeps:Admits O keeps) {fs:List Frame} {t:Option Held} (h:Inv O keeps c)
 (hq:Quiet c) (hstack:c.stack=f::fs) (hf:f.unwinds=some t) (hfs:fs≠[]) :
 ∃c₁ f₁ a c',Reachable O E admits c c₁ ∧ c₁.stack=f₁::fs ∧ f₁.unwinds=some t ∧
  admits c₁ a ∧ Step O E c₁ a c' ∧ c'.stack=fs := by
 -- Each step of the pop may call outside code, which `finish` brings back to the pop.
 induction hn : c.work using Nat.strong_induction_on generalizing c f with
 | _ n ih=>
  have hordinary:f.ordinary=true:=by
   cases f <;> first | rfl | cases hf
  obtain ⟨a,c',g,ha,hstep,hadv⟩:=advance h hq hstack hordinary hfs
  rcases hadv.unwinds t hf with rfl|⟨g,f',rfl,hf'⟩
  · exact ⟨c,f,a,c',.refl,hstack,hf,hadmits c a ha,hstep,hadv.stack⟩
  · have hstack':c'.stack=g++f'::fs:=by
     rw [hadv.stack,List.append_assoc]
     rfl
    obtain ⟨c₂,hback,hstack₂,h₂,hq₂,hle⟩:=finish hadmits hkeeps
     (inv_advance hkeeps h ha hstep) (hadv.quiet hq hstack) hstack'
     (fun f hf=>(all_plain.mp hadv.plain f (List.mem_append_left _ hf)).1) (by simp)
    have hwork:=hadv.work
    rw [hn] at hwork
    obtain ⟨c₁,f₁,a₁,c₃,hrun,hfinal⟩:=ih _ (by omega) h₂ hq₂ hstack₂ hf' rfl
    exact ⟨c₁,f₁,a₁,c₃,.head ⟨a,hadmits c a ha,hstep⟩ (hback.trans hrun),hfinal⟩

end ObjcRuntime.AutoreleaseThread
