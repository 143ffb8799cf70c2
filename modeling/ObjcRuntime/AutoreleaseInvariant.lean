import ObjcRuntime.PoolFloors

/-!
# What every step of a thread keeps

A reference that is neither claimed nor released is in a page, in the thread-local slot, or with a
runtime function that is waiting.
-/
set_option autoImplicit false
namespace ObjcRuntime.AutoreleaseThread
open AutoreleasePage

def pendingTLS : Option Info → ℕ → ℕ
 | some info,r=>if info.obj=r then 1 else 0
 | none,_=>0

def Frame.inflight (r:ℕ) : Frame → ℕ
 | .releasing obj n=>if obj=r then n else 0
 | .preparing obj _ _ _=>if obj=r then 1 else 0
 | .hotPageDealloc p=>pending r p.pages.flatten
 | _=>0

def inflight (stack:List Frame) (r:ℕ) : ℕ := (stack.map (Frame.inflight r)).sum

def Config.outstanding (c:Config) (r:ℕ) : ℕ :=
 pending r c.hotPage.pages.flatten+pendingTLS c.tls r+inflight c.stack r

def Config.Conserved (c:Config) : Prop :=
 ∀r,r≠0 → c.ledger.handed r=c.ledger.claimed r+c.ledger.released r+c.outstanding r

theorem inflight_cons (f:Frame) (fs:List Frame) (r:ℕ) :
 inflight (f::fs) r=f.inflight r+inflight fs r := rfl

theorem floors_cons (f:Frame) (fs:List Frame) : floors (f::fs)=f.floors++floors fs := rfl

theorem tally_apply (f:ℕ → ℕ) (obj r:ℕ) : tally f obj r=f r+if obj=r then 1 else 0 := by
 rw [tally,Function.update_apply]
 grind

variable {O:Options} {E:Env} {keeps:Held → Page → List Page → Prop}

variable (O keeps) in
def Frame.Valid : Frame → Prop
 | .preparing obj _ _ _=>obj≠0
 | .hotPageDealloc p=>Stands O keeps [] p
 | _=>True

variable (O keeps) in
structure Inv (c:Config) : Prop where
 stands : Stands O keeps (floors c.stack) c.hotPage
 real : ∀info,c.tls=some info → info.obj≠0
 frames : ∀f∈c.stack,f.Valid O keeps
 conserved : c.Conserved

variable (O keeps) in
/-- The invariant without the count of references, which no call can break. -/
structure Shape (c:Config) : Prop where
 stands : Stands O keeps (floors c.stack) c.hotPage
 real : ∀info,c.tls=some info → info.obj≠0
 frames : ∀f∈c.stack,f.Valid O keeps

variable {c:Config} {f:Frame} {fs:List Frame} {a:Act}

theorem Inv.shape (h:Inv O keeps c) : Shape O keeps c :=
 ⟨h.stands,h.real,h.frames⟩

theorem Shape.inv (h:Shape O keeps c) (hconserved:c.Conserved) : Inv O keeps c :=
 ⟨h.stands,h.real,h.frames,hconserved⟩

theorem shape_initial (off:O.debugMissingPools=false) : Shape O keeps initial :=
 ⟨.nil off,by simp [initial],by simp [initial,Frame.Valid]⟩

theorem inv_initial (off:O.debugMissingPools=false) : Inv O keeps initial :=
 (shape_initial off).inv fun _ _=>rfl

def Fits (O:Options) (keeps:Held → Page → List Page → Prop) (c:Config) (obj:ℕ) : Prop :=
 ∀hot parents,c.hotPage.pages=hot::parents → hot.length < O.capacity →
  Cuts O keeps (floors c.stack) (hot::parents) →
   Cuts O keeps (floors c.stack) (add O hot obj::parents)

def Act.added (c:Config) : Act → Option ℕ
 | .rootAutorelease2 obj=>some obj
 | .push | .autorelease _ _ | .autoreleaseReturnValue _ _ | .retainAutoreleaseReturnValue _ _
 | .accept _ _ | .sendAutorelease _=>c.tls.map Info.obj
 | _=>none

section

variable (h:Shape O keeps c)
include h

theorem Shape.of_top (htop:c.stack=f::fs) :
 f.Valid O keeps ∧ ∀g∈fs,g.Valid O keeps := by grind [h.frames]

theorem Shape.restack {stack:List Frame}
 (hstands:Stands O keeps (floors stack) c.hotPage) (hvalid:∀f∈stack,f.Valid O keeps) :
 Shape O keeps {c with stack:=stack} :=
 ⟨hstands,h.real,hvalid⟩

theorem Shape.callout : Shape O keeps {c with stack:=.user []::c.stack} :=
 h.restack h.stands (List.forall_mem_cons.mpr ⟨trivial,h.frames⟩)

theorem Shape.clearTLS (l:Ledger) : Shape O keeps ⟨c.hotPage,none,l,c.stack⟩ :=
 ⟨h.stands,by simp,h.frames⟩

theorem Shape.withLedger (l:Ledger) : Shape O keeps {c with ledger:=l} :=
 ⟨h.stands,h.real,h.frames⟩

theorem Shape.moveTLS
 (hfits:∀obj,c.tls.map Info.obj=some obj → Fits O keeps c obj) :
 Shape O keeps ⟨c.moveTLS O,none,c.ledger,c.stack⟩ := by
 cases htls : c.tls with
 | none=>
  rw [Config.moveTLS,htls]
  exact h.clearTLS c.ledger
 | some info=>
  rw [Config.moveTLS,htls]
  exact ⟨h.stands.autoreleaseFast (h.real info htls) (hfits _ (by rw [htls]; rfl)),by simp,h.frames⟩

theorem Shape.prepare {obj:ℕ} (hobj:obj≠0) (root:Bool)
 (returnAddress:ℕ) (l:Ledger) :
 Shape O keeps ⟨c.hotPage,c.tls,l,.preparing obj root returnAddress false::c.stack⟩ :=
 ⟨h.stands,h.real,List.forall_mem_cons.mpr ⟨hobj,h.frames⟩⟩

end

def Admits (O:Options) (keeps:Held → Page → List Page → Prop) : Prop :=
 ∀t rest below,OnBefore O t rest below → keeps t rest below

theorem Shape.push {ts:List Held} (hkeeps:Admits O keeps) (h:Shape O keeps c)
 (htop:c.stack=.user ts::fs)
 (hfits:∀obj,c.tls.map Info.obj=some obj → Fits O keeps c obj) :
 Shape O keeps ⟨(c.push O).1,none,c.ledger,.user (c.held O::ts)::fs⟩ := by
 have hstands:=(h.moveTLS hfits).stands
 rw [htop] at hstands
 refine ⟨hstands.push c.ledger fun rest below hbase=>hkeeps _ _ _ hbase,by simp,?_⟩
 exact List.forall_mem_cons.mpr ⟨trivial,(h.of_top htop).2⟩

variable {depth stop:ℕ}

section

variable (h:Shape O keeps c)
include h

theorem Shape.take {t:Option Held} {e:Entry} {h':HotPage} (htop:c.stack=.unwinding t depth stop::fs)
 (hmore:(c.hotPage.pageAt depth).map List.length≠some stop)
 (htook:c.hotPage.take=some (e,h')) :
 Shape O keeps { c with
  hotPage := h'
  stack := if e.ptr=0 then .unwinding t depth stop::fs
   else .releasing e.ptr (e.count+1) :: .unwinding t depth stop::fs } ∧
  c.hotPage.pages.flatten=e::h'.pages.flatten := by
 have hstands:=h.stands
 have hframes:=h.frames
 rw [htop] at hstands hframes
 obtain ⟨e',h'',htook',hstands',hflat⟩:=hstands.take hmore
 obtain ⟨rfl,rfl⟩:=Prod.mk.inj (Option.some.inj (htook.symm.trans htook'))
 refine ⟨?_,hflat⟩
 split
 · exact ⟨hstands',h.real,hframes⟩
 · exact ⟨hstands',h.real,List.forall_mem_cons.mpr ⟨trivial,hframes⟩⟩

theorem Shape.popReturn {t:Option Held}
 (htop:c.stack=.unwinding t depth stop::fs)
 (hdone:(c.hotPage.pageAt depth).map List.length=some stop) :
 Shape O keeps {c with hotPage:=popPage O (c.hotPage.setHot depth),stack:=fs} ∧
  (popPage O (c.hotPage.setHot depth)).pages.flatten=c.hotPage.pages.flatten := by
 have hstands:=h.stands
 rw [htop] at hstands
 obtain ⟨hstands',hflat⟩:=hstands.popReturn hdone
 exact ⟨⟨hstands',h.real,(h.of_top htop).2⟩,hflat⟩

theorem Shape.exitReturn
 (htop:c.stack=.unwinding none depth stop::fs)
 (hdone:(c.hotPage.pageAt depth).map List.length=some stop) :
 Shape O keeps {c with hotPage:=.nil,stack:=fs} ∧ c.hotPage.pages.flatten=[] := by
 have hstands:=h.stands
 rw [htop] at hstands
 obtain ⟨rest,below,children,hpage,hlen,hheight,hexit,-,-⟩:=hstands.come_down hdone
 obtain ⟨rfl,rfl,hfloors⟩:=hexit rfl
 rw [List.length_eq_zero_iff] at hlen hheight
 subst hlen hheight
 refine ⟨⟨?_,h.real,(h.of_top htop).2⟩,by rw [hpage]; rfl⟩
 change Stands O keeps (floors fs) .nil
 rw [show floors fs=[] from hfloors]
 exact .nil hstands.off

theorem Shape.popUnused {t:Held} (htop:c.stack=.popping t::fs)
 (hunused:c.hotPage.pop t.token=.unused) :
 Shape O keeps {c with hotPage:=.nil,stack:=fs} ∧ c.hotPage=.placeholder := by
 obtain ⟨htok,hunused⟩:=HotPage.pop_eq_unused.mp hunused
 have hstands:=h.stands
 rw [htop] at hstands
 have hplace:c.hotPage=.placeholder:=by
  cases hpage : c.hotPage with
  | nil=>exact absurd hpage hstands.cuts.pages_ne_nil
  | placeholder=>rfl
  | page hot parents children=>grind [HotPage.pageAt]
 have hfloors:floors fs=[]:=by
  cases hstands.cuts with
  | closed _ _ _ _ _ _ bottom=>exact bottom htok
 refine ⟨⟨?_,h.real,(h.of_top htop).2⟩,hplace⟩
 change Stands O keeps (floors fs) .nil
 rw [hfloors]
 exact .nil hstands.off

theorem Shape.open {t:Held}
 (htop:c.stack=.popping t::fs) (hat:t.At depth stop) (hpage:c.hotPage≠.placeholder) :
 Shape O keeps {c with stack:=.unwinding (some t) depth stop::fs} := by
 have hstands:=h.stands
 rw [htop] at hstands
 exact h.restack (hstands.open hat hpage) (List.forall_mem_cons.mpr ⟨trivial,(h.of_top htop).2⟩)

theorem Shape.drop (htop:c.stack=f::fs) (hfloors:f.floors=[]) :
 Shape O keeps {c with stack:=fs} := by
 have hstands:=h.stands
 rw [htop,floors_cons,hfloors,List.nil_append] at hstands
 exact h.restack hstands (h.of_top htop).2

theorem Shape.swap (htop:c.stack=f::fs) (f':Frame)
 (hfloors:f'.floors=f.floors) (hvalid:f'.Valid O keeps) :
 Shape O keeps {c with stack:=f'::fs} := by
 have hstands:=h.stands
 rw [htop,floors_cons,←hfloors] at hstands
 exact h.restack hstands (List.forall_mem_cons.mpr ⟨hvalid,(h.of_top htop).2⟩)

theorem Shape.hotPageDealloc (htop:c.stack=[.exiting]) :
 Shape O keeps {c with hotPage:=.nil,stack:=[.hotPageDealloc c.hotPage,.exiting]} := by
 have hstands:=h.stands
 rw [htop] at hstands
 refine ⟨.nil hstands.off,h.real,?_⟩
 rw [List.forall_mem_cons,List.forall_mem_singleton]
 exact ⟨hstands,trivial⟩

theorem Shape.exit {ts:List Held} (htop:c.stack=[.user ts]) :
 Shape O keeps {c with stack:=[.exiting]} := by
 have hstands:=h.stands
 rw [htop] at hstands
 refine h.restack (hstands.forget ?_) (by simp [Frame.Valid])
 grind [floors,Frame.floors]

end

variable {c':Config}

theorem Shape.internal (h:Shape O keeps c) (hs:Step O E c .internal c') :
 Shape O keeps c' := by
 cases hs with
 | popTLS top pending | unwindTLS top done pending | tlsDealloc top pending
 | deallocTLS top pending=>
  rw [←top]
  exact (h.clearTLS _).callout
 | popUnused top clear unused=>exact (h.popUnused top unused).1
 | popUntil top clear opens=>
  have hstands:=h.stands
  rw [top] at hstands
  rcases HotPage.pop_eq_releaseUntil opens with token|⟨token,rfl,rfl,used⟩
  · exact h.open top (.inl token) (hstands.entryAt token).1
  · refine h.open top (.inr ⟨token,rfl,rfl⟩) fun hplace=>used ?_
    rw [hplace]
    rfl
 | badPop top clear bad=>
  obtain ⟨depth,index,token,invalid⟩:=HotPage.entryAt_of_badPop bad
  have hstands:=h.stands
  rw [top] at hstands
  exact absurd (hstands.entryAt token).2 invalid
 | takeEntry top more took=>exact (h.take top more took).1
 | popReturn top done clear=>exact (h.popReturn top done).1
 | @release obj n fs top=>exact ((h.swap top (.releasing obj n) rfl trivial).withLedger _).callout
 | releasedAll top | deallocPlaceholder top clear | exited top unused clear=>exact h.drop top rfl
 | hotPageDealloc top used=>exact h.hotPageDealloc top
 | exitReturn top done clear=>exact (h.exitReturn top done).1

theorem shape_step (hkeeps:Admits O keeps) (h:Shape O keeps c)
 (hs:Step O E c a c') (hfits:∀obj,a.added c=some obj → Fits O keeps c obj) :
 Shape O keeps c' := by
 by_cases ha : a=.internal
 · subst ha
   exact h.internal hs
 cases hs with
 | push top=>exact h.push hkeeps top hfits
 | pop top=>
  have hstands:=h.stands
  rw [top] at hstands
  refine h.restack hstands ?_
  exact List.forall_mem_cons.mpr ⟨trivial,List.forall_mem_cons.mpr ⟨trivial,(h.of_top top).2⟩⟩
 | ret top=>exact h.drop top rfl
 | autorelease top real elides | autoreleaseReturnValue top real elides
 | retainAutoreleaseReturnValue top real elides=>
  rw [←top]
  exact (h.moveTLS hfits).prepare real ..
 | @rootAutorelease2 ts fs obj top real elides=>
  rw [←top]
  exact ⟨h.stands.autoreleaseFast real (hfits obj rfl),h.real,h.frames⟩
 | acceptNothing top clear=>exact h
 | accepted top pending match_=>
  rw [←top]
  split
  · exact (h.clearTLS _).callout
  · exact h.clearTLS _
 | declined top pending match_=>
  rw [←top]
  exact h.moveTLS hfits
 | classInitialize top=>
  exact (h.swap top (.preparing _ _ _ true) rfl (h.of_top top).1).callout
 | setInfo top fits=>
  obtain ⟨hreal,hvalid⟩:=h.of_top top
  have hdropped:=h.drop top rfl
  refine ⟨hdropped.stands,?_,hdropped.frames⟩
  rintro info ⟨⟩
  exact hreal
 | sendAutorelease top custom unfit=>
  have hmoved:=h.moveTLS hfits
  simp only [top] at hmoved
  exact hmoved.swap rfl (.preparing _ _ _ _) rfl (h.of_top top).1
 | exit top=>exact h.exit top
 | @reinstate p cold top clear used nonempty=>
  have hp:Stands O keeps [] p:=(h.of_top top).1
  exact ⟨hp.reinstate used nonempty,h.real,by simp [Frame.Valid]⟩
 | reinstateEmpty top clear used=>exact ⟨.nil h.stands.off,h.real,by simp [Frame.Valid]⟩
 | _=>exact absurd rfl ha

theorem pendingTLS_none (r:ℕ) : pendingTLS none r=0 := rfl

theorem pending_autoreleaseFast (off:O.debugMissingPools=false) {h:HotPage} {obj:ℕ} (hobj:obj≠0)
 (hchildren:∀p∈h.children,p=[]) (hsize:∀p∈h.pages,p.length ≤ O.capacity) (r:ℕ) :
 pending r (autoreleaseFast O obj h).1.pages.flatten =
  pending r h.pages.flatten+if obj=r then 1 else 0 := by
 obtain ⟨hot,parents,children,heq,-,hcase⟩:=autoreleaseFast_spec off hobj hchildren hsize
 grind [HotPage.pages,pending_append,pending_add,pending]

theorem Pushed.pending {h h':HotPage} {token:Token} {rest:Page} {below:List Page}
 (hp:Pushed O h h' token rest below) {r:ℕ} (hr:r≠0) :
 AutoreleasePage.pending r h'.pages.flatten=AutoreleasePage.pending r h.pages.flatten := by
 have hbase:rest++below.flatten=h.pages.flatten:=by grind [hp.base]
 grind [hp.pages,pending_cons,boundary]

theorem pending_placeholder {r:ℕ} (hr:r≠0) : pending r HotPage.placeholder.pages.flatten=0 := by
 simp [pending,HotPage.pages,boundary,Ne.symm hr]

theorem Inv.moved (h:Inv O keeps c) (r:ℕ) : pending r (c.moveTLS O).pages.flatten =
  pending r c.hotPage.pages.flatten+pendingTLS c.tls r := by
 cases htls : c.tls with
 | none=>
  rw [Config.moveTLS,htls]
  rfl
 | some info=>
  rw [Config.moveTLS,htls]
  exact pending_autoreleaseFast h.stands.off (h.real info htls) h.stands.children h.stands.size r

theorem Inv.moveTLS (h:Inv O keeps c)
 (hfits:∀obj,c.tls.map Info.obj=some obj → Fits O keeps c obj) :
 Inv O keeps ⟨c.moveTLS O,none,c.ledger,c.stack⟩ := by
 refine (h.shape.moveTLS hfits).inv fun r hr=>?_
 have hcons:=h.conserved r hr
 grind [h.moved,Config.outstanding,pendingTLS_none]

theorem conserved_internal (h:Inv O keeps c) (hs:Step O E c .internal c') :
 c'.Conserved := by
 intro r hr
 have hcons:=h.conserved r hr
 cases hs with
 | popTLS top pending | unwindTLS top done pending | tlsDealloc top pending
 | deallocTLS top pending=>
  simp only [Config.outstanding,Ledger.release,tally_apply,inflight_cons,Frame.inflight,
   pending,top,pendingTLS] at hcons ⊢
  omega
 | popUnused top clear unused=>
  have hplace:=(h.shape.popUnused top unused).2
  simp only [Config.outstanding,top,hplace,pending_placeholder hr,inflight_cons,
   Frame.inflight] at hcons ⊢
  simp only [HotPage.pages,List.flatten_nil,pending,List.map_nil,List.sum_nil]
  omega
 | popUntil top clear opens | badPop top clear bad | exited top unused clear=>
  simp only [Config.outstanding,top,inflight_cons,Frame.inflight] at hcons ⊢
  omega
 | takeEntry top more took=>
  have hflat:=(h.shape.take top more took).2
  grind [Config.outstanding,pending_cons,inflight_cons,Frame.inflight]
 | popReturn top done clear=>
  have hflat:=(h.shape.popReturn top done).2
  simp only [Config.outstanding,hflat,top,inflight_cons,Frame.inflight] at hcons ⊢
  omega
 | release top=>
  simp only [Config.outstanding,top,inflight_cons,Frame.inflight,Ledger.release,tally_apply]
   at hcons ⊢
  split_ifs at hcons ⊢ <;> omega
 | releasedAll top=>grind [Config.outstanding,inflight_cons,Frame.inflight]
 | hotPageDealloc top used=>
  simp only [Config.outstanding,top,inflight_cons,Frame.inflight] at hcons ⊢
  rw [hcons]
  simp only [HotPage.pages,List.flatten_nil,pending,List.map_nil,List.sum_nil]
  omega
 | deallocPlaceholder top clear=>
  grind [Config.outstanding,inflight_cons,Frame.inflight,pending_placeholder]
 | exitReturn top done clear=>
  have hempty:=(h.shape.exitReturn top done).2
  grind [Config.outstanding,inflight_cons,Frame.inflight,HotPage.pages]

theorem Inv.internal (h:Inv O keeps c) (hs:Step O E c .internal c') : Inv O keeps c' :=
 (h.shape.internal hs).inv (conserved_internal h hs)

theorem conserved_step (h:Inv O keeps c) (hs:Step O E c a c')
 (hfits:∀obj,a.added c=some obj → Fits O keeps c obj)
 (hset:a=.setInfo → c.tls=none)
 (hreinstate:a=.reinstate → c.hotPage.pages.flatten=[]) : c'.Conserved := by
 by_cases ha : a=.internal
 · subst ha
   exact conserved_internal h hs
 intro r hr
 have hcons:=h.conserved r hr
 have hmoved:=h.moved r
 cases hs with
 | push top=>
  have hstands:=(h.moveTLS hfits).stands
  obtain ⟨rest,below,hp⟩:=pushBoundary_spec hstands.children hstands.size
  have hpend:pending r (c.push O).1.pages.flatten=pending r (c.moveTLS O).pages.flatten :=
   hp.pending hr
  simp only [Config.outstanding,top,inflight_cons,Frame.inflight,pendingTLS_none] at hcons ⊢
  omega
 | pop top | ret top | classInitialize top=>
  grind [Config.outstanding,inflight_cons,Frame.inflight]
 | autorelease top real elides | autoreleaseReturnValue top real elides
 | retainAutoreleaseReturnValue top real elides=>
  simp only [Config.outstanding,Ledger.hand,tally_apply,top,inflight_cons,Frame.inflight,
   pendingTLS_none] at hcons ⊢
  omega
 | @rootAutorelease2 ts fs obj top real elides=>
  have hpend:=pending_autoreleaseFast h.stands.off real h.stands.children h.stands.size r
  simp only [Config.outstanding,Ledger.hand,tally_apply,top] at hcons hpend ⊢
  omega
 | acceptNothing top clear=>exact hcons
 | @accepted info ts fs accepting returnAddress top pending match_=>
  have hstack:inflight (if accepting=.unsafeClaimAutoreleasedReturnValue
   then .user [] :: .user ts::fs else .user ts::fs) r=inflight c.stack r := by
   grind [inflight_cons,Frame.inflight.eq_def]
  simp only [Config.outstanding,Ledger.claim,tally_apply,pending,pendingTLS,hstack] at hcons ⊢
  omega
 | declined top pending match_=>
  simp only [Config.outstanding,top,pendingTLS_none] at hcons ⊢
  omega
 | setInfo top fits=>grind [Config.outstanding,inflight_cons,Frame.inflight,pendingTLS]
 | sendAutorelease top custom unfit=>
  simp only [Config.outstanding,top,inflight_cons,Frame.inflight,pendingTLS_none] at hcons ⊢
  omega
 | exit top=>
  simp only [Config.outstanding,top,inflight_cons,Frame.inflight] at hcons ⊢
  exact hcons
 | reinstate top clear used nonempty=>
  grind [Config.outstanding,inflight_cons,Frame.inflight,pending]
 | @reinstateEmpty p top clear used=>
  have hp:Stands O keeps [] p:=(h.shape.of_top top).1
  simp only [Config.outstanding,top,hreinstate rfl,inflight_cons,Frame.inflight,
   hp.unused used] at hcons ⊢
  grind [HotPage.pages,pending]
 | _=>exact absurd rfl ha

theorem inv_step (hkeeps:Admits O keeps) (h:Inv O keeps c)
 (hs:Step O E c a c') (hfits:∀obj,a.added c=some obj → Fits O keeps c obj)
 (hset:a=.setInfo → c.tls=none)
 (hreinstate:a=.reinstate → c.hotPage.pages.flatten=[]) : Inv O keeps c' :=
 (shape_step hkeeps h.shape hs hfits).inv (conserved_step h hs hfits hset hreinstate)

end ObjcRuntime.AutoreleaseThread
