import ObjcRuntime.AutoreleaseThread

/-!
# The pools that stand on the pages

The pools that are open or being unwound cut the pages into pieces. Every operation on the pages
keeps the cuts, unless missing pools are debugged: a nested pool may then delete the page of the
pool around it.
-/
set_option autoImplicit false
namespace ObjcRuntime.AutoreleaseThread
open AutoreleasePage

inductive Floor where
 | closed (held:Held)
 | opened (held:Option Held) (depth stop:ℕ)

def Frame.floors : Frame → List Floor
 | .user ts=>ts.map .closed
 | .popping t=>[.closed t]
 | .unwinding t depth stop=>[.opened t depth stop]
 | _=>[]

def floors (stack:List Frame) : List Floor := stack.flatMap Frame.floors

def Held.At (t:Held) (depth index:ℕ) : Prop :=
 t.token=.slot depth index ∨ t.token=.placeholder ∧ depth=0 ∧ index=0

def OnBefore (O:Options) (t:Held) (rest:Page) (below:List Page) : Prop :=
 rest::below=t.before ∧ t.token≠.placeholder ∧ (O.debugPoolAllocation=true → rest≠[]) ∨
  rest=[] ∧ below=t.before

def resume (O:Options) (rest:Page) (below:List Page) : List Page :=
 if O.debugPoolAllocation=true ∧ rest=[] then below else rest::below

/-- Only the hot page may be empty, and not even that one when every pool has its own page. -/
def Piled (O:Options) : List Page → Prop
 | []=>True
 | hot::parents=>(O.debugPoolAllocation=true → hot≠[]) ∧ ∀p∈parents,p≠[]

variable {O:Options} {keeps:Held → Page → List Page → Prop}

variable (O keeps) in
/-- The floors, the innermost first, on the pages, the hot one first. `keeps` says what a
    token knows of the entries below it. -/
inductive Cuts : List Floor → List Page → Prop where
 | base {pages} (piled:Piled O pages) : Cuts [] pages
 | closed {t:Held} {fs} {pages below:List Page} {rest:Page} (extra:List Page) (above:Page)
  (split:pages=extra++(above++boundary::rest)::below) (piled:Piled O extra)
  (room:rest.length < O.capacity) (slot:t.At below.length rest.length)
  (bottom:t.token=.placeholder → fs=[]) (kept:keeps t rest below)
  (under:Cuts fs (resume O rest below)) : Cuts (.closed t::fs) pages
 | opened {t fs} {pages below:List Page} {rest:Page} {depth stop} (extra:List Page) (above:Page)
  (split:pages=extra++(above++rest)::below) (piled:∀p∈extra.tail,p≠[])
  (more:extra≠[] → above≠[]) (length:rest.length=stop) (height:below.length=depth)
  (room:stop < O.capacity) (slot:∀t',t=some t' → t'.At depth stop)
  (exit:t=none → depth=0 ∧ stop=0 ∧ fs=[]) (kept:∀t',t=some t' → keeps t' rest below)
  (under:Cuts fs (resume O rest below)) : Cuts (.opened t depth stop::fs) pages

variable {fs:List Floor} {p hot:Page} {parents:List Page} {obj depth:ℕ} {h:HotPage}
 {t:Held}

theorem Cuts.of_nil (h:Cuts O keeps fs []) : fs=[] := by
 cases h with
 | base=>rfl
 | closed _ _ split | opened _ _ split=>simp at split

theorem Cuts.prepend {pages:List Page} (h:Cuts O keeps fs pages)
 (hfull:∀hot parents,pages=hot::parents → hot.length=O.capacity)
 (hp:O.debugPoolAllocation=true → p≠[]) : Cuts O keeps fs (p::pages) := by
 have hcap:=O.two_le_capacity
 have hhot:∀hot parents,pages=hot::parents → hot≠[]:=by grind
 cases h with
 | base piled=>
  apply Cuts.base
  refine ⟨hp,?_⟩
  cases pages with
  | nil=>simp
  | cons hot parents=>
   rw [List.forall_mem_cons]
   exact ⟨hhot _ _ rfl,piled.2⟩
 | @closed t fs _ below rest extra above split piled room slot bottom kept under=>
  refine .closed (p::extra) above (by rw [split]; rfl) ⟨hp,?_⟩ room slot bottom kept under
  cases extra with
  | nil=>simp
  | cons hot parents=>
   rw [List.forall_mem_cons]
   exact ⟨hhot _ _ split,piled.2⟩
 | @opened t fs _ below rest depth stop extra above split piled more length height room slot exit
  kept under =>
  refine .opened (p::extra) above (by rw [split]; rfl) ?_ ?_ length height room slot exit
   kept under
  · cases extra with
    | nil=>simp
    | cons hot parents=>grind
  · intro _
    cases extra with
    | nil=>grind
    | cons hot parents=>exact more (List.cons_ne_nil _ _)

def Above (O:Options) (fs:List Floor) (hot:Page) (parents:List Page) (obj:ℕ) : Prop :=
 ∀t depth stop fs',fs=.opened t depth stop::fs' → parents.length=depth →
  ∀k,coalesced O hot obj=some k → k+stop < hot.length

theorem add_ne_nil (O:Options) (page:Page) (obj:ℕ) : add O page obj≠[] := by
 rw [add]
 split <;> exact List.cons_ne_nil _ _

theorem Cuts.add_above (h:Cuts O keeps fs (hot::parents)) (habove:Above O fs hot parents obj) :
 Cuts O keeps fs (add O hot obj::parents) := by
 generalize hpages : hot::parents=pages at h
 cases h with
 | base piled=>
  subst hpages
  exact .base ⟨fun _=>add_ne_nil O hot obj,piled.2⟩
 | @closed t fs _ below rest extra above split piled room slot bottom kept under=>
  subst hpages
  cases extra with
  | nil=>
   obtain ⟨rfl,rfl⟩:=List.cons_eq_cons.mp split
   obtain ⟨above',hadd,-⟩:=add_split above (boundary::rest)
    fun k hk=>coalesced_above_boundary hk
   exact .closed [] above' (by rw [hadd]; rfl) piled room slot bottom kept under
  | cons e extra=>
   obtain ⟨rfl,rfl⟩:=List.cons_eq_cons.mp split
   exact .closed (add O hot obj::extra) above rfl ⟨fun _=>add_ne_nil O hot obj,piled.2⟩ room
    slot bottom kept under
 | @opened t fs _ below rest depth stop extra above split piled more length height room slot exit
  kept under =>
  subst hpages
  cases extra with
  | nil=>
   obtain ⟨rfl,rfl⟩:=List.cons_eq_cons.mp split
   have hreach:∀k,coalesced O (above++rest) obj=some k → k < above.length:=by
    intro k hk
    have:=habove _ _ _ _ rfl height k hk
    rw [List.length_append] at this
    omega
   obtain ⟨above',hadd,-⟩:=add_split above rest hreach
   exact .opened [] above' (by rw [hadd]; rfl) (by simp) (by simp) length height room slot
    exit kept under
  | cons e extra=>
   obtain ⟨rfl,rfl⟩:=List.cons_eq_cons.mp split
   exact .opened (add O hot obj::extra) above rfl piled
    (fun _=>more (List.cons_ne_nil _ _)) length height room slot exit kept under

theorem touch_length_le {p':Page} (h:Touch p p') : p.length ≤ p'.length := by
 obtain ⟨u,u',v,rfl,rfl,-,-,hle⟩:=h
 grind

theorem Cuts.touch (hkeeps:∀t rest rest' below,keeps t rest below → keeps t rest' below)
 {hot':Page} (h:Cuts O keeps fs (hot::parents)) (ht:Touch hot hot') :
 Cuts O keeps fs (hot'::parents) := by
 have hne:∀{p p':Page},Touch p p' → p≠[] → p'≠[]:=by
  rintro p p' ht hp rfl
  have:=touch_length_le ht
  simp_all
 -- The cut of an opened floor goes through the page, so the pages below it are touched as well.
 induction fs generalizing hot hot' parents with
 | nil=>
  cases h with
  | base piled=>exact .base ⟨fun hd=>hne ht (piled.1 hd),piled.2⟩
 | cons f fs ih=>
  generalize hpages : hot::parents=pages at h
  cases h with
  | @closed t _ _ below rest extra above split piled room slot bottom kept under=>
   subst hpages
   cases extra with
   | nil=>
    obtain ⟨rfl,rfl⟩:=List.cons_eq_cons.mp split
    obtain ⟨above',rfl⟩:=ht.boundary
    exact .closed [] above' rfl piled room slot bottom kept under
   | cons e extra=>
    obtain ⟨rfl,rfl⟩:=List.cons_eq_cons.mp split
    exact .closed (hot'::extra) above rfl ⟨fun hd=>hne ht (piled.1 hd),piled.2⟩ room
     slot bottom kept under
  | @opened t _ _ below rest depth stop extra above split piled more length height room slot exit
   kept under =>
   subst hpages
   cases extra with
   | nil=>
    obtain ⟨rfl,rfl⟩:=List.cons_eq_cons.mp split
    obtain ⟨above',rest',rfl,hlen,htouch,-⟩:=ht.split
    refine .opened [] above' rfl (by simp) (by simp) (hlen.trans length) height room slot
     exit (fun t' h'=>hkeeps _ _ _ _ (kept t' h')) ?_
    grind [resume]
   | cons e extra=>
    obtain ⟨rfl,rfl⟩:=List.cons_eq_cons.mp split
    exact .opened (hot'::extra) above rfl piled
     (fun _=>more (List.cons_ne_nil _ _)) length height room slot exit kept under

variable (O keeps) in
structure Stands (fs:List Floor) (h:HotPage) : Prop where
 off : O.debugMissingPools=false
 children : ∀p∈h.children,p=[]
 size : ∀p∈h.pages,p.length ≤ O.capacity
 cuts : Cuts O keeps fs h.pages
 placeholder : h=.placeholder → ∀f∈fs,∃t,f=.closed t ∧ t.token=.placeholder

theorem Stands.nil (off:O.debugMissingPools=false) : Stands O keeps [] .nil :=
 ⟨off,by simp [HotPage.children],by simp [HotPage.pages],.base trivial,by simp⟩

theorem add_nil (O:Options) (obj:ℕ) : add O [] obj=[⟨obj,0⟩] := by
 apply add_none
 rw [coalesced]
 split
 · rfl
 · cases O.coalescing <;> rfl

theorem nextPage_eq (O:Options) (hot:Page) (parents children:List Page) (h:∀p∈children,p=[]) :
 nextPage O hot parents children=.page [] (hot::parents) children.tail := by
 cases children with
 | nil=>rfl
 | cons child children=>grind [O.two_le_capacity,List.mem_cons_self,nextPage]

theorem autoreleaseFast_spec (off:O.debugMissingPools=false) (hobj:obj≠0)
 (hchildren:∀p∈h.children,p=[])
 (hsize:∀p∈h.pages,p.length ≤ O.capacity) :
 ∃hot parents children,(autoreleaseFast O obj h).1=.page hot parents children ∧
  (∀p∈children,p=[]) ∧
  ((∃old,h.pages=old::parents ∧ old.length < O.capacity ∧ hot=add O old obj) ∨
    hot=[⟨obj,0⟩] ∧ parents=h.pages ∧
     ∀old rest,h.pages=old::rest → old.length=O.capacity) := by
 have hcap:=O.two_le_capacity
 cases h with
 | nil=>
  refine ⟨[⟨obj,0⟩],[],[],?_,by simp,.inr ⟨rfl,rfl,by simp [HotPage.pages]⟩⟩
  rw [autoreleaseFast,autoreleaseNoPage]
  simp [off,hobj,addHot,add_nil]
 | placeholder=>
  refine ⟨_,[],[],rfl,by simp,.inl ⟨[boundary],rfl,?_,?_⟩⟩
  · rw [List.length_singleton]
    omega
  · rw [add_nil]
    rfl
 | page hot parents children=>
  rw [autoreleaseFast]
  split
  · next hfull =>
    refine ⟨[⟨obj,0⟩],hot::parents,children.tail,?_,?_,.inr ⟨rfl,rfl,?_⟩⟩
    · rw [autoreleaseFullPage,nextPage_eq O hot parents children hchildren,addHot,add_nil]
    · intro p hp
      exact hchildren p (List.mem_of_mem_tail hp)
    · grind [HotPage.pages]
  · next hroom =>
    refine ⟨_,_,_,rfl,hchildren,.inl ⟨hot,rfl,?_,rfl⟩⟩
    have:=hsize hot List.mem_cons_self
    omega

theorem Stands.autoreleaseFast (hs:Stands O keeps fs h) (hobj:obj≠0)
 (hadd:∀hot parents,h.pages=hot::parents → hot.length < O.capacity →
  Cuts O keeps fs (hot::parents) → Cuts O keeps fs (add O hot obj::parents)) :
 Stands O keeps fs (AutoreleasePage.autoreleaseFast O obj h).1 := by
 have hcap:=O.two_le_capacity
 obtain ⟨hot,parents,children,heq,hchildren,hcase⟩ :=
  autoreleaseFast_spec hs.off hobj hs.children hs.size
 rw [heq]
 refine ⟨hs.off,hchildren,?_,?_,by simp⟩
 · rw [HotPage.pages,List.forall_mem_cons]
   grind [hs.size,add_length]
 · rcases hcase with ⟨old,hpages,hroom,rfl⟩|⟨rfl,rfl,hfull⟩
   · exact hadd _ _ hpages hroom (hpages ▸ hs.cuts)
   · exact hs.cuts.prepend hfull fun _=>List.cons_ne_nil _ _

structure Pushed (O:Options) (h h':HotPage) (token:Token) (rest:Page) (below:List Page) : Prop where
 pages : h'.pages=(boundary::rest)::below
 children : ∀p∈h'.children,p=[]
 room : rest.length < O.capacity
 token : token=.slot below.length rest.length ∧ h'≠.placeholder ∨
  token=.placeholder ∧ h.pages=[] ∧ below=[] ∧ rest=[]
 base : rest::below=h.pages ∧ (O.debugPoolAllocation=true → rest≠[]) ∨
  rest=[] ∧ below=h.pages ∧ (O.debugPoolAllocation=false →
   ∀old tail,h.pages=old::tail → old.length=O.capacity)

theorem Pushed.fullPage {children:List Page} (hchildren:∀p∈children,p=[])
 (hfull:O.debugPoolAllocation=false → hot.length=O.capacity) :
 Pushed O (.page hot parents children) (autoreleaseFullPage O 0 hot parents children).1
  (autoreleaseFullPage O 0 hot parents children).2 [] (hot::parents) := by
 have hcap:=O.two_le_capacity
 rw [autoreleaseFullPage,nextPage_eq O hot parents children hchildren,addHot,add_boundary]
 refine ⟨rfl,fun p hp=>hchildren p (List.mem_of_mem_tail hp),by rw [List.length_nil]; omega,
  .inl ⟨rfl,by simp⟩,.inr ⟨rfl,rfl,?_⟩⟩
 grind [HotPage.pages]

theorem Pushed.onPlaceholder :
 Pushed O .placeholder (autoreleaseNoPage O 0 true).1 (autoreleaseNoPage O 0 true).2
  [boundary] [] := by
 have hcap:=O.two_le_capacity
 rw [autoreleaseNoPage,if_pos rfl,addHot,add_boundary,add_boundary]
 exact ⟨rfl,by simp [HotPage.children],by rw [List.length_singleton]; omega,.inl ⟨rfl,by simp⟩,
  .inl ⟨rfl,by simp⟩⟩

theorem Pushed.onNil :
 Pushed O .nil (autoreleaseNoPage O 0 false).1 (autoreleaseNoPage O 0 false).2 [] [] := by
 have hcap:=O.two_le_capacity
 rw [autoreleaseNoPage,if_neg (by decide),if_neg fun h=>h.1 rfl]
 split
 · exact ⟨rfl,by simp [HotPage.children],by rw [List.length_nil]; omega,
    .inr ⟨rfl,rfl,rfl,rfl⟩,.inr ⟨rfl,rfl,by simp [HotPage.pages]⟩⟩
 · rw [addHot,add_boundary]
   exact ⟨rfl,by simp [HotPage.children],by rw [List.length_nil]; omega,.inl ⟨rfl,by simp⟩,
    .inr ⟨rfl,rfl,by simp [HotPage.pages]⟩⟩

theorem pushBoundary_spec (hchildren:∀p∈h.children,p=[]) (hsize:∀p∈h.pages,p.length ≤ O.capacity) :
 ∃rest below,Pushed O h (pushBoundary O h).1 (pushBoundary O h).2 rest below := by
 rw [pushBoundary]
 cases h with
 | nil=>exact ⟨[],[],by split <;> exact .onNil⟩
 | placeholder=>exact ⟨[boundary],[],by split <;> exact .onPlaceholder⟩
 | page hot parents children=>
  split
  · next hd=>exact ⟨_,_,.fullPage hchildren (by simp [hd])⟩
  · next hd =>
    rw [AutoreleasePage.autoreleaseFast]
    split
    · next hfull=>exact ⟨_,_,.fullPage hchildren fun _=>hfull⟩
    · next hroom =>
      have:=hsize hot List.mem_cons_self
      rw [addHot,add_boundary]
      exact ⟨hot,parents,rfl,hchildren,by omega,.inl ⟨rfl,by simp⟩,.inl ⟨rfl,by simp [hd]⟩⟩

theorem Cuts.push {h':HotPage} {rest:Page} {below:List Page}
 (hcuts:Cuts O keeps fs h.pages) (hp:Pushed O h h' t.token rest below)
 (hkept:keeps t rest below) : Cuts O keeps (.closed t::fs) h'.pages := by
 refine .closed [] [] hp.pages trivial hp.room ?_ ?_ hkept ?_
 · rcases hp.token with ⟨htok,-⟩|⟨htok,-,rfl,rfl⟩
   · exact .inl htok
   · exact .inr ⟨htok,rfl,rfl⟩
 · intro htok
   rcases hp.token with ⟨hslot,-⟩|⟨-,hpages,-⟩
   · rw [htok] at hslot
     cases hslot
   · rw [hpages] at hcuts
     exact hcuts.of_nil
 · grind [resume,hp.base,hcuts.prepend]

theorem Stands.push (hs:Stands O keeps fs h) (l:Ledger)
 (hkept:∀rest below,OnBefore O ⟨(pushBoundary O h).2,h.pages,l⟩ rest below →
  keeps ⟨(pushBoundary O h).2,h.pages,l⟩ rest below) :
 Stands O keeps (.closed ⟨(pushBoundary O h).2,h.pages,l⟩::fs) (pushBoundary O h).1 := by
 obtain ⟨rest,below,hp⟩:=pushBoundary_spec hs.children hs.size
 have hbase:OnBefore O ⟨(pushBoundary O h).2,h.pages,l⟩ rest below:=by
  rcases hp.base with ⟨hpages,hfilled⟩|⟨hrest,hpages,-⟩
  · refine .inl ⟨hpages,fun htok=>?_,hfilled⟩
    rcases hp.token with ⟨hslot,-⟩|⟨-,hnil,-⟩
    · rw [hslot] at htok
      cases htok
    · rw [hnil] at hpages
      cases hpages
  · exact .inr ⟨hrest,hpages⟩
 refine ⟨hs.off,hp.children,?_,hs.cuts.push hp (hkept rest below hbase),?_⟩
 · have hroom:=hp.room
   rw [hp.pages,List.forall_mem_cons,List.length_cons]
   refine ⟨hroom,fun p hmem=>hs.size p ?_⟩
   rcases hp.base with ⟨hpages,-⟩|⟨-,hpages,-⟩
   · grind
   · rw [←hpages]
     exact hmem
 · intro hplace
   rcases hp.token with ⟨-,hne⟩|⟨htok,hpages,-⟩
   · exact absurd hplace hne
   · have hnil:=hs.cuts
     rw [hpages] at hnil
     rw [hnil.of_nil,List.forall_mem_singleton]
     exact ⟨_,rfl,htok⟩

theorem pageAt_of_split {children extra below:List Page} (h:hot::parents=extra++p::below) :
 (HotPage.page hot parents children).pageAt below.length=some p := by
 have hrev:parents.reverse++hot::children=below.reverse++p::(extra.reverse++children):=by
  have:=congrArg (fun l=>l.reverse++children) h
  simpa using this
 rw [HotPage.pageAt,hrev,←List.length_reverse,List.getElem?_append_right le_rfl]
 simp

theorem Cuts.pages_ne_nil {f:Floor} (hcuts:Cuts O keeps (f::fs) h.pages) : h≠.nil := by
 rintro rfl
 exact absurd hcuts.of_nil (List.cons_ne_nil _ _)

theorem Stands.open {stop:ℕ} (hs:Stands O keeps (.closed t::fs) h) (hat:t.At depth stop)
 (hpage:h≠.placeholder) : Stands O keeps (.opened (some t) depth stop::fs) h := by
 refine ⟨hs.off,hs.children,hs.size,?_,fun hplace=>absurd hplace hpage⟩
 cases hs.cuts with
 | @closed _ _ _ below rest extra above split piled room slot bottom kept under=>
  have hslot:below.length=depth ∧ rest.length=stop:=by
   rcases slot with hslot|⟨hplace,hd,hs⟩ <;> rcases hat with hat|⟨hplace',hd',hs'⟩
   · grind
   · rw [hslot] at hplace'
     cases hplace'
   · rw [hplace] at hat
     cases hat
   · exact ⟨hd.trans hd'.symm,hs.trans hs'.symm⟩
  refine .opened extra (above++[boundary]) ?_ ?_ (by simp) hslot.2 hslot.1
   (hslot.2 ▸ room) ?_ (by simp) ?_ under
  · rw [split,List.append_assoc]
    rfl
  · cases extra with
    | nil=>simp
    | cons e extra=>exact piled.2
  · rintro t' ⟨⟩
    exact hat
  · rintro t' ⟨⟩
    exact kept

theorem Stands.entryAt {index:ℕ} (hs:Stands O keeps (.closed t::fs) h)
 (htok:t.token=.slot depth index) :
 h≠.placeholder ∧ h.entryAt depth index=some boundary := by
 have hpage:h≠.placeholder:=by grind [hs.placeholder,List.mem_cons_self]
 refine ⟨hpage,?_⟩
 have hcuts:=hs.cuts
 cases h with
 | nil=>exact absurd rfl hcuts.pages_ne_nil
 | placeholder=>exact absurd rfl hpage
 | page hot parents children=>
  cases hcuts with
  | @closed _ _ _ below rest extra above split piled room slot bottom kept under=>
   have hslot:depth=below.length ∧ index=rest.length:=by
    rcases slot with hslot|⟨hplace,-⟩
    · grind
    · rw [htok] at hplace
      cases hplace
   rw [hslot.1,hslot.2,HotPage.entryAt,pageAt_of_split split,Option.bind_some,
    List.reverse_append,List.reverse_cons,List.append_assoc,←List.length_reverse,
    List.getElem?_append_right le_rfl]
   simp

theorem Stands.taken {f:Floor} {e:Entry} {ps cs:List Page} (hs:Stands O keeps (f::fs) h)
 (hsub:(e::p)::ps <:+ h.pages) (hcs:∀q∈cs,q=[])
 (hcuts:Cuts O keeps (f::fs) (p::ps)) :
 Stands O keeps (f::fs) (.page p ps cs) := by
 refine ⟨hs.off,hcs,?_,hcuts,by simp⟩
 rw [HotPage.pages,List.forall_mem_cons]
 constructor
 · have:=hs.size _ (hsub.subset List.mem_cons_self)
   rw [List.length_cons] at this
   omega
 · intro q hq
   exact hs.size q (hsub.subset (List.mem_cons_of_mem _ hq))

theorem Stands.take {t:Option Held} {stop:ℕ} (hs:Stands O keeps (.opened t depth stop::fs) h)
 (hmore:(h.pageAt depth).map List.length≠some stop) :
 ∃e h',h.take=some (e,h') ∧ Stands O keeps (.opened t depth stop::fs) h' ∧
  h.pages.flatten=e::h'.pages.flatten := by
 have hcuts:=hs.cuts
 cases h with
 | nil=>exact absurd rfl hcuts.pages_ne_nil
 | placeholder=>
  obtain ⟨t',ht,-⟩:=hs.placeholder rfl _ List.mem_cons_self
  cases ht
 | page hot parents children=>
  cases hcuts with
  | @opened _ _ _ below rest _ _ extra above split piled more length height room slot exit kept
   under =>
   have habove:above≠[]:=by
    rintro rfl
    apply hmore
    rw [←height,pageAt_of_split split,Option.map_some,List.nil_append,length]
   obtain ⟨e,above,rfl⟩:=List.exists_cons_of_ne_nil habove
   have hchildren:∀q∈[]::children,q=[]:=by
    rw [List.forall_mem_cons]
    exact ⟨rfl,hs.children⟩
   rw [HotPage.pages] at split
   cases extra with
   | nil=>
    obtain ⟨rfl,rfl⟩:=List.cons_eq_cons.mp split
    refine ⟨e,.page (above++rest) parents children,?_,
     hs.taken (List.suffix_refl _) hs.children ?_,rfl⟩
    · rw [HotPage.take,List.cons_append,takeEntry]
    exact .opened [] above rfl piled (by simp) length height room slot exit kept under
   | cons x extra=>
    rw [List.cons_append] at split
    obtain ⟨rfl,rfl⟩:=List.cons_eq_cons.mp split
    cases hot with
    | cons e' hot=>
     refine ⟨e',.page hot _ children,by rw [HotPage.take,takeEntry],
      hs.taken (List.suffix_refl _) hs.children ?_,rfl⟩
     exact .opened (hot::extra) (e::above) rfl piled (by simp) length height room slot exit
      kept under
    | nil=>
     cases extra with
     | nil=>
      refine ⟨e,.page (above++rest) below ([]::children),?_,
       hs.taken (List.suffix_cons ..) hchildren ?_,rfl⟩
      · rw [HotPage.take,List.nil_append,takeEntry,List.cons_append,takeEntry]
      exact .opened [] above rfl (by simp) (by simp) length height room slot exit kept under
     | cons y extra=>
      rw [List.tail_cons,List.forall_mem_cons] at piled
      obtain ⟨e',y,rfl⟩:=List.exists_cons_of_ne_nil piled.1
      refine ⟨e',.page y _ ([]::children),?_,hs.taken (List.suffix_cons ..) hchildren ?_,rfl⟩
      · rw [HotPage.take,List.cons_append,takeEntry,takeEntry]
        rfl
      exact .opened (y::extra) (e::above) rfl piled.2 (by simp) length height room slot
       exit kept under

theorem setHot_self (hot:Page) (parents children:List Page) :
 (HotPage.page hot parents children).setHot parents.length=.page hot parents children := by
 rw [HotPage.setHot]
 simp

theorem popPage_pages (off:O.debugMissingPools=false) (hot:Page) (parents children:List Page) :
 (popPage O (.page hot parents children)).pages=resume O hot parents := by
 simp only [popPage,resume,off,Bool.false_eq_true,false_and,if_false]
 split
 · cases parents <;> rfl
 · split <;> rfl

theorem popPage_children (hchildren:∀p∈h.children,p=[]) : ∀p∈(popPage O h).children,p=[] := by
 cases h with
 | page hot parents children=>
  simp only [popPage]
  grind [HotPage.children]
 | _=>exact hchildren

theorem Stands.come_down {t:Option Held} {stop:ℕ} (hs:Stands O keeps (.opened t depth stop::fs) h)
 (hdone:(h.pageAt depth).map List.length=some stop) :
 ∃rest below children,h=.page rest below children ∧ rest.length=stop ∧
  below.length=depth ∧ (t=none → depth=0 ∧ stop=0 ∧ fs=[]) ∧
  (∀t',t=some t' → t'.At depth stop ∧ keeps t' rest below) ∧
  Cuts O keeps fs (resume O rest below) := by
 have hcuts:=hs.cuts
 cases h with
 | nil | placeholder=>cases hdone
 | page hot parents children=>
  cases hcuts with
  | @opened _ _ _ below rest _ _ extra above split piled more length height room slot exit kept
   under =>
   have habove:above=[]:=by
    rw [←height,pageAt_of_split split,Option.map_some,Option.some.injEq,List.length_append] at hdone
    rw [←List.length_eq_zero_iff]
    omega
   have hextra:extra=[]:=by
    by_contra hne
    exact more hne habove
   subst habove hextra
   obtain ⟨rfl,rfl⟩:=List.cons_eq_cons.mp split
   exact ⟨hot,parents,children,rfl,length,height,exit,fun t' ht=>⟨slot t' ht,kept t' ht⟩,under⟩

theorem Stands.popReturn {t:Option Held} {stop:ℕ} (hs:Stands O keeps (.opened t depth stop::fs) h)
 (hdone:(h.pageAt depth).map List.length=some stop) :
 Stands O keeps fs (popPage O (h.setHot depth)) ∧
  (popPage O (h.setHot depth)).pages.flatten=h.pages.flatten := by
 obtain ⟨rest,below,children,rfl,-,rfl,-,-,hunder⟩:=hs.come_down hdone
 rw [setHot_self]
 have hflatten:(resume O rest below).flatten=(rest::below).flatten:=by grind [resume]
 refine ⟨⟨hs.off,popPage_children hs.children,?_,by rwa [popPage_pages hs.off],?_⟩,
  by rwa [popPage_pages hs.off]⟩
 · intro p hp
   rw [popPage_pages hs.off,resume] at hp
   split at hp
   · exact hs.size p (List.mem_cons_of_mem _ hp)
   · exact hs.size p hp
 · intro hplace
   simp only [popPage] at hplace
   grind

theorem Cuts.forget {pages:List Page} (h:Cuts O keeps fs pages)
 (hclosed:∀f∈fs,∃t,f=.closed t) : Piled O pages := by
 induction h with
 | base piled=>exact piled
 | @closed t fs pages below rest extra above split piled room slot bottom kept under ih=>
  have hunder:=ih fun f hf=>hclosed f (List.mem_cons_of_mem _ hf)
  have hbelow:∀p∈below,p≠[]:=by
   rw [resume] at hunder
   split at hunder
   · next hd =>
     cases below with
     | nil=>simp
     | cons hot parents=>
      rw [List.forall_mem_cons]
      exact ⟨hunder.1 hd.1,hunder.2⟩
   · exact hunder.2
  have hpage:∀p∈(above++boundary::rest)::below,p≠[]:=by simp_all
  subst split
  cases extra with
  | nil=>exact ⟨fun _=>hpage _ List.mem_cons_self,hbelow⟩
  | cons e extra=>
   refine ⟨piled.1,?_⟩
   exact List.forall_mem_append.mpr ⟨piled.2,hpage⟩
 | opened=>simp_all

theorem Stands.forget (hs:Stands O keeps fs h) (hclosed:∀f∈fs,∃t,f=.closed t) :
 Stands O keeps [] h :=
 ⟨hs.off,hs.children,hs.size,.base (hs.cuts.forget hclosed),by simp⟩

/-- `HotPageDealloc` unwinds all pages when the coldest has an entry, -/
theorem Stands.reinstate {cold:Page} (hs:Stands O keeps [] h) (hcold:h.pageAt 0=some cold)
 (hne:cold≠[]) :
 Stands O keeps [.opened none 0 0] h := by
 have hcap:=O.two_le_capacity
 cases h with
 | nil | placeholder=>cases hcold
 | page hot parents children=>
  refine ⟨hs.off,hs.children,hs.size,?_,by simp⟩
  have hpiled:Piled O (hot::parents):=by
   cases hs.cuts with
   | base piled=>exact piled
  obtain ⟨extra,p,hsplit⟩ : ∃extra p,hot::parents=extra++[p] :=
   ⟨_,_,(List.dropLast_append_getLast (List.cons_ne_nil hot parents)).symm⟩
  have hp:p=cold:=by
   rw [←List.length_nil (α:=Page),pageAt_of_split hsplit] at hcold
   exact Option.some.inj hcold
  subst hp
  have hpages:(HotPage.page hot parents children).pages=extra++(p++[])::[]:=by
   rw [HotPage.pages,hsplit,List.append_nil]
  refine .opened extra p hpages ?_ (fun _=>hne) rfl rfl (by omega) (by simp) (by simp) (by simp) ?_
  · intro q hq
    cases extra with
    | nil=>simp at hq
    | cons e extra=>
     obtain ⟨rfl,rfl⟩:=List.cons_eq_cons.mp hsplit
     exact hpiled.2 q (List.mem_append_left _ hq)
  · apply Cuts.base
    rw [resume]
    split
    · trivial
    · next hd=>exact ⟨by simpa using hd,by simp⟩

/-- and there is none at all when the coldest is empty. -/
theorem Stands.unused (hs:Stands O keeps [] h) (hcold:h.pageAt 0=some []) : h.pages.flatten=[] := by
 cases h with
 | nil | placeholder=>cases hcold
 | page hot parents children=>
  have hpiled:Piled O (hot::parents):=by
   cases hs.cuts with
   | base piled=>exact piled
  cases hrev : parents.reverse with
  | nil=>
   rw [HotPage.pageAt,hrev] at hcold
   obtain rfl : hot=[] := Option.some.inj hcold
   rw [List.reverse_eq_nil_iff.mp hrev]
   rfl
  | cons p ps=>
   rw [HotPage.pageAt,hrev] at hcold
   obtain rfl : p=[] := Option.some.inj hcold
   refine absurd rfl (hpiled.2 [] ?_)
   grind

end ObjcRuntime.AutoreleaseThread
