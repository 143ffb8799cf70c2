import ObjcRuntime.BlockedSlot

/-!
# The blocked marker is not an object

Only `moveTLSAutoreleaseToPool` blocks the slot, and it clears the slot before it returns.
-/
set_option autoImplicit false
namespace ObjcRuntime.BlockedSlot
open AutoreleasePage

variable {hot:Page} {s:Slot} {k:Caller}

section Pool

def allPages : HotPage → List Page
 | .page hot parents children=>hot::parents++children
 | _=>[]

def PointersIn (S:Set ℕ) (h:HotPage) : Prop := ∀page∈allPages h,∀e∈page,e.ptr∈S

variable {O:Options} {S:Set ℕ} {h:HotPage} {obj:ℕ}

variable {parents children:List Page}

theorem pointersIn_page :
 PointersIn S (.page hot parents children) ↔ (∀e∈hot,e.ptr∈S) ∧
  (∀page∈parents,∀e∈page,e.ptr∈S) ∧ ∀page∈children,∀e∈page,e.ptr∈S := by
 simp only [PointersIn,allPages,List.cons_append,List.forall_mem_cons,List.forall_mem_append]

theorem add_pointersIn {page:Page} (hobj:obj∈S) (hpage:∀e∈page,e.ptr∈S) :
 ∀e∈add O page obj,e.ptr∈S := by
 cases hc : coalesced O page obj with
 | none=>grind [add_none]
 | some k=>
  obtain ⟨-,⟨e,he,-,-⟩,-⟩:=coalesced_spec hc
  rw [add_some hc he]
  grind [List.eraseIdx_subset]

theorem addHot_pointersIn (hobj:obj∈S) (hpages:PointersIn S h) :
 PointersIn S (addHot O obj h).1 := by
 cases h with
 | nil | placeholder=>exact hpages
 | page hot parents children=>
  obtain ⟨hhot,hrest⟩:=pointersIn_page.mp hpages
  exact pointersIn_page.mpr ⟨add_pointersIn hobj hhot,hrest⟩

theorem nextPage_pointersIn
 (hpages:PointersIn S (.page hot parents children)) :
 PointersIn S (nextPage O hot parents children) := by
 induction children generalizing hot parents with
 | nil=>
  obtain ⟨hhot,hparents,hnone⟩:=pointersIn_page.mp hpages
  exact pointersIn_page.mpr
   ⟨List.forall_mem_nil _,List.forall_mem_cons.mpr ⟨hhot,hparents⟩,hnone⟩
 | cons child children ih=>grind [pointersIn_page,nextPage]

theorem noPage_pointersIn (hzero:0∈S) (hobj:obj∈S) (placeholder:Bool) :
 PointersIn S (autoreleaseNoPage O obj placeholder).1 := by
 have hnone:PointersIn S (.page [] [] []):=by simp [pointersIn_page]
 rw [autoreleaseNoPage]
 split_ifs
 · grind [addHot_pointersIn,pointersIn_page,add_pointersIn]
 · exact List.forall_mem_nil _
 · exact List.forall_mem_nil _
 · exact addHot_pointersIn hobj hnone

theorem autoreleaseFast_pointersIn (hzero:0∈S) (hobj:obj∈S) (hpages:PointersIn S h) :
 PointersIn S (autoreleaseFast O obj h).1 := by
 cases h with
 | nil=>exact noPage_pointersIn hzero hobj false
 | placeholder=>exact noPage_pointersIn hzero hobj true
 | page hot parents children=>
  rw [autoreleaseFast]
  split
  · exact addHot_pointersIn hobj (nextPage_pointersIn hpages)
  · exact addHot_pointersIn hobj hpages

theorem pushBoundary_pointersIn (hzero:0∈S) (hpages:PointersIn S h) :
 PointersIn S (pushBoundary O h).1 := by
 rw [pushBoundary]
 split
 · cases h with
   | nil=>exact noPage_pointersIn hzero hzero false
   | placeholder=>exact noPage_pointersIn hzero hzero true
   | page hot parents children=>exact addHot_pointersIn hzero (nextPage_pointersIn hpages)
 · exact autoreleaseFast_pointersIn hzero hzero hpages

theorem takeEntry_pointersIn {e:Entry}
 (hpages:PointersIn S (.page hot parents children))
 (htake:takeEntry hot parents children=some (e,h)) : e.ptr∈S ∧ PointersIn S h := by
 induction parents generalizing hot children with
 | nil=>
  match hot,htake with
  | x::hot,htake=>
   obtain ⟨rfl,rfl⟩:=Prod.mk.injEq .. ▸ Option.some.inj htake
   grind [pointersIn_page]
 | cons parent parents ih=>
  obtain ⟨hhot,hparents,hchildren⟩:=pointersIn_page.mp hpages
  match hot,htake with
  | x::hot,htake=>
   obtain ⟨rfl,rfl⟩:=Prod.mk.injEq .. ▸ Option.some.inj htake
   grind [pointersIn_page]
  | [],htake=>
   obtain ⟨hparent,hrest⟩:=List.forall_mem_cons.mp hparents
   refine ih (pointersIn_page.mpr ⟨hparent,hrest,?_⟩) htake
   exact List.forall_mem_cons.mpr ⟨hhot,hchildren⟩

theorem take_pointersIn {h':HotPage} {e:Entry} (hpages:PointersIn S h)
 (htake:h.take=some (e,h')) : e.ptr∈S ∧ PointersIn S h' := by
 cases h with
 | nil | placeholder=>cases htake
 | page hot parents children=>exact takeEntry_pointersIn hpages htake

theorem setHot_pointersIn (hpages:PointersIn S h) (depth:ℕ) : PointersIn S (h.setHot depth) := by
 cases h with
 | nil | placeholder=>exact hpages
 | page hot parents children=>
  have hall:∀page∈parents.reverse++hot::children,∀e∈page,e.ptr∈S:=by
   grind [pointersIn_page]
  grind [HotPage.setHot,List.mem_of_mem_drop,pointersIn_page]

theorem popPage_pointersIn (hpages:PointersIn S h) : PointersIn S (popPage O h) := by
 cases h with
 | nil | placeholder=>exact hpages
 | page hot parents children=>
  obtain ⟨hhot,hparents,hchildren⟩:=pointersIn_page.mp hpages
  simp only [popPage]
  split_ifs
  · cases parents with
    | nil=>exact List.forall_mem_nil _
    | cons parent parents=>grind [pointersIn_page]
  · exact List.forall_mem_nil _
  · exact pointersIn_page.mpr ⟨hhot,hparents,by simp⟩
  · grind [pointersIn_page]

end Pool

/-- What `prepareOptimizedReturn` is called on: `rootAutorelease` has let tagged pointers go. -/
def Offered (obj:Word) (cameFromRootAutorelease:Bool) : Prop :=
 if cameFromRootAutorelease then Object obj else Handed obj

def Slot.Decodes (s:Slot) : Prop := s.returnedObject=0 ∨ Object s.returnedObject

def Caller.Sound : Caller → Prop
 | .prepareOptimizedReturn obj root _=>Offered obj root
 | _=>True

def Frame.Sound : Frame → Prop
 | .objcAutorelease obj=>Handed obj
 | .rootAutorelease obj=>Handed obj
 | .prepareOptimizedReturn obj root _=>Offered obj root
 | .moveTLS info k=>info.Decodes ∧ k.Sound
 | .sending k=>k.Sound
 | .preparing obj root _ _=>Offered obj root
 | .releasing ptr _=>¬FromMarker ptr
 | _=>True

def Frame.quiet : Frame → Bool
 | .user _ | .objcAutorelease _ | .rootAutorelease _ | .prepareOptimizedReturn .. => true
 | _=>false

def Frame.isSending : Frame → Bool
 | .sending _=>true
 | _=>false

def Idle (fs:List Frame) : Prop := ∀f∈fs,f.isSending=false

def Sending : List Frame → Prop
 | []=>False
 | f::fs=>f.isSending=true ∧ Idle fs ∨ f.quiet=true ∧ Sending fs

/-- The slot is blocked exactly while one `moveTLSAutoreleaseToPool` is sending. -/
def Guard : Bool → List Frame → Prop
 | false=>Idle
 | true=>Sending

def unmarked : Set ℕ := {ptr | ¬FromMarker ptr}

structure Inv (c:Config) : Prop where
 pool : PointersIn unmarked c.pages
 released : ∀ptr∈c.released,ptr∈unmarked
 slot : c.slot.isBlocked=false → c.slot.Decodes
 frames : ∀f∈c.stack,f.Sound
 guard : Guard c.slot.isBlocked c.stack

theorem Frame.quiet_not_sending {f:Frame} (h:f.quiet=true) : f.isSending=false := by
 cases f <;> first | rfl | cases h

theorem zero_unmarked : 0∈unmarked := by
 change ¬FromMarker 0
 decide

theorem Handed.unmarked {obj:Word} (h:Handed obj) : obj.toNat∈unmarked := by
 rcases h with h|h
 · exact h.elsewhere
 · exact h.2

theorem Handed.object {obj:Word} (h:Handed obj) (ht:isTaggedPointerOrNil obj=false) :
 Object obj := by
 rcases h with h|h
 · exact h
 · exact absurd h.1 (by rw [ht]; simp)

theorem Offered.handed {obj:Word} {root:Bool} (h:Offered obj root) : Handed obj := by
 cases root with
 | false=>exact h
 | true=>exact .inl h

theorem Object.offered {obj:Word} (h:Object obj) (root:Bool) : Offered obj root := by
 cases root with
 | false=>exact .inl h
 | true=>exact h

theorem Slot.Decodes.object (h:s.Decodes) (hs:s.returnedObject≠0) :
 Object s.returnedObject := h.resolve_left hs

theorem Object.decodes {obj:Word} (h:Object obj) (root:Bool) (returnAddress:Word) :
 (Slot.info obj root true returnAddress).Decodes := by
 right
 rwa [Slot.returnedObject_info h.aligned]

theorem Slot.unblocked_of_pending (h:s.isEmpty=false) : s.isBlocked=false := by
 rw [isEmpty,Bool.or_eq_false_iff] at h
 exact h.1

theorem Object.autorelease {O:Options} {obj:Word} (h:Object obj) {pages:HotPage}
 (hpages:PointersIn unmarked pages) : PointersIn unmarked (autorelease O obj pages) := by
 rw [BlockedSlot.autorelease,if_pos h.fits]
 exact autoreleaseFast_pointersIn zero_unmarked h.elsewhere hpages

section Guard

variable {b:Bool} {f:Frame} {fs gs:List Frame}

theorem Guard.quiet (h:Guard b (f::fs)) (hf:f.quiet=true)
 (hgs:gs.all Frame.quiet=true) : Guard b (gs++fs) := by
 rw [List.all_eq_true] at hgs
 cases b with
 | false=>
  refine List.forall_mem_append.mpr ⟨fun g hg=>Frame.quiet_not_sending (hgs g hg),?_⟩
  exact fun g hg=>h g (List.mem_cons_of_mem _ hg)
 | true=>
  have hbelow:Sending fs:=by
   rcases h with ⟨hs,-⟩|⟨-,hbelow⟩
   · rw [Frame.quiet_not_sending hf] at hs
     cases hs
   · exact hbelow
  induction gs with
  | nil=>exact hbelow
  | cons g gs ih=>
   obtain ⟨hg,hrest⟩:=List.forall_mem_cons.mp hgs
   exact .inr ⟨hg,ih hrest⟩

theorem Guard.clear (h:Guard false (f::fs)) (hgs:gs.any Frame.isSending=false) :
 Guard false (gs++fs) :=
 List.forall_mem_append.mpr
  ⟨fun g hg=>by simpa using List.any_eq_false.mp hgs g hg,fun g hg=>h g (List.mem_cons_of_mem _ hg)⟩

theorem Guard.unblocked (h:Guard b (f::fs)) (hf:f.quiet=false)
 (hsending:f.isSending=false) : b=false := by
 cases b with
 | false=>rfl
 | true=>
  rcases h with ⟨hs,-⟩|⟨hq,-⟩
  · rw [hsending] at hs
    cases hs
  · rw [hf] at hq
    cases hq

theorem Guard.sent (h:Guard b (.sending k::fs)) : Guard false fs := by
 cases b with
 | false=>exact fun g hg=>h g (List.mem_cons_of_mem _ hg)
 | true=>
  rcases h with ⟨-,hbelow⟩|⟨hq,-⟩
  · exact hbelow
  · cases hq

theorem Caller.resume_not_sending (k:Caller) : k.resume.any Frame.isSending=false := by
 cases k <;> rfl

theorem Caller.Sound.resume (h:k.Sound) : k.resume.Forall Frame.Sound := by
 cases k <;> trivial

end Guard

section Steps

variable {O:Options} {callerAccepts:Word → Bool} {c c':Config} {f:Frame}
 {fs G:List Frame}

theorem Inv.top (hi:Inv c) (htop:c.stack=f::fs) : f.Sound :=
 hi.frames f (htop ▸ List.mem_cons_self)

theorem Inv.below (hi:Inv c) (htop:c.stack=f::fs) : ∀g∈fs,g.Sound :=
 fun g hg=>hi.frames g (htop ▸ List.mem_cons_of_mem _ hg)

theorem Inv.guarded (hi:Inv c) (htop:c.stack=f::fs) : Guard c.slot.isBlocked (f::fs) :=
 htop ▸ hi.guard

theorem Inv.quiet (hi:Inv c) (htop:c.stack=f::fs) (hf:f.quiet=true)
 (hsound:G.Forall Frame.Sound) (hquiet:G.all Frame.quiet=true) :
 Inv {c with stack:=G++fs} where
 pool := hi.pool
 released := hi.released
 slot := hi.slot
 frames := List.forall_mem_append.mpr ⟨List.forall_iff_forall_mem.mp hsound,hi.below htop⟩
 guard := (hi.guarded htop).quiet hf hquiet

theorem Inv.clear (hi:Inv c) (htop:c.stack=f::fs) (hblocked:c.slot.isBlocked=false)
 {slot:Slot} (hslot:slot.Decodes) (hafter:slot.isBlocked=false)
 (hsound:G.Forall Frame.Sound) (hidle:G.any Frame.isSending=false) :
 Inv {c with slot:=slot,stack:=G++fs} where
 pool := hi.pool
 released := hi.released
 slot _ := hslot
 frames := List.forall_mem_append.mpr ⟨List.forall_iff_forall_mem.mp hsound,hi.below htop⟩
 guard := by
  have hguard:=hi.guarded htop
  rw [hblocked] at hguard
  rw [hafter]
  exact hguard.clear hidle

theorem Inv.withPages (hi:Inv c) {pages:HotPage} (hpages:PointersIn unmarked pages) :
 Inv {c with pages:=pages} :=
 ⟨hpages,hi.released,hi.slot,hi.frames,hi.guard⟩

theorem Inv.withReleased (hi:Inv c) {ptr:ℕ} (hptr:ptr∈unmarked) :
 Inv {c with released:=ptr::c.released} :=
 ⟨hi.pool,List.forall_mem_cons.mpr ⟨hptr,hi.released⟩,hi.slot,hi.frames,hi.guard⟩

theorem Slot.empty_decodes : Slot.empty.Decodes := .inl rfl

theorem Inv.goesOn (hi:Inv c) (htop:c.stack=f::fs) (hf:f.quiet=false)
 (hs:f.isSending=false) (hsound:G.Forall Frame.Sound) (hidle:G.any Frame.isSending=false) :
 Inv {c with stack:=G++fs} :=
 have hblocked:=(hi.guarded htop).unblocked hf hs
 hi.clear htop hblocked (hi.slot hblocked) hblocked hsound hidle

theorem Inv.empties (hi:Inv c) (htop:c.stack=f::fs) (hf:f.quiet=false)
 (hs:f.isSending=false) (hsound:G.Forall Frame.Sound) (hidle:G.any Frame.isSending=false) :
 Inv {c with slot:=.empty,stack:=G++fs} :=
 hi.clear htop ((hi.guarded htop).unblocked hf hs) Slot.empty_decodes rfl hsound hidle

theorem Inv.sent (hi:Inv c) (htop:c.stack=.sending k::fs) :
 Inv {c with slot:=.empty,stack:=k.resume++fs} where
 pool := hi.pool
 released := hi.released
 slot _ := Slot.empty_decodes
 frames := List.forall_mem_append.mpr
  ⟨List.forall_iff_forall_mem.mp (Caller.Sound.resume (hi.top htop)),hi.below htop⟩
 guard := Guard.clear (f:=.user [])
  (List.forall_mem_cons.mpr ⟨rfl,(hi.guarded htop).sent⟩) k.resume_not_sending

theorem Inv.step {a:Act} (hi:Inv c) (hwait:PoolsWait c a) (hs:Step O callerAccepts c a c') :
 Inv c' := by
 cases hs with
 | objcAutorelease top handed | rootAutorelease top handed ne_nil=>
  exact hi.quiet (G:=[_,_]) top rfl ⟨handed,trivial⟩ rfl
 | autoreleaseReturnValue top handed=>exact hi.quiet (G:=[_,_]) top rfl ⟨handed,trivial⟩ rfl
 | acceptNothing top empty=>exact hi
 | accepted top handed pending fits=>
  have hb:=Slot.unblocked_of_pending pending
  split
  · exact hi.clear (G:=[_,_]) top hb Slot.empty_decodes rfl ⟨handed.unmarked,trivial⟩ rfl
  · exact hi.clear (G:=[_]) top hb Slot.empty_decodes rfl trivial rfl
 | declined top pending unfit=>
  have hb:=Slot.unblocked_of_pending pending
  split
  · exact hi.clear (G:=[_,_]) top hb Slot.empty_decodes rfl ⟨⟨hi.slot hb,trivial⟩,trivial⟩ rfl
  · exact hi.clear (G:=[_]) top hb Slot.empty_decodes rfl trivial rfl
 | push top=>
  have hb:=hwait (by simp)
  exact hi.clear (G:=[_,_]) top hb (hi.slot hb) hb ⟨⟨hi.slot hb,trivial⟩,trivial⟩ rfl
 | pop top=>
  have hb:=hwait (by simp)
  exact hi.clear (G:=[_,_]) top hb (hi.slot hb) hb ⟨trivial,trivial⟩ rfl
 | call top=>exact hi.quiet (G:=[_,_]) top rfl ⟨trivial,trivial⟩ rfl
 | ret top | autoreleaseNothing top tagged | rootReturn top | blockedClass top blocked=>
  exact hi.quiet (G:=[]) top rfl trivial rfl
 | overrides top custom=>exact ⟨hi.pool,hi.released,hi.slot,hi.frames,hi.guard⟩
 | autoreleaseMessage top untagged custom=>exact hi.quiet (G:=[_]) top rfl trivial rfl
 | autoreleaseDefault top untagged default | blockedReturnValue top blocked=>
  have handed:Handed _:=hi.top top
  exact hi.quiet (G:=[_]) top rfl handed rfl
 | rootPrepare top untagged=>
  have handed:Handed _:=hi.top top
  exact hi.quiet (G:=[_]) top rfl ((handed.object untagged).offered true) rfl
 | prepareMove top unblocked=>
  have offered:Offered _ _:=hi.top top
  exact hi.clear (G:=[_]) top unblocked (hi.slot unblocked) unblocked
   ⟨hi.slot unblocked,offered⟩ rfl
 | rootAutorelease2 top blocked=>
  have object:Object _:=hi.top top
  exact (hi.withPages (object.autorelease hi.pool)).quiet (G:=[]) top rfl trivial rfl
 | prepareNothing top tagged=>exact hi.empties (G:=[]) top rfl rfl trivial rfl
 | classInitialize top untagged=>
  have offered:Offered _ _:=hi.top top
  exact hi.goesOn (G:=[_,_]) top rfl rfl ⟨trivial,offered⟩ rfl
 | setInfo top untagged fits=>
  have object:Object _:=(show Offered _ _ from hi.top top).handed.object untagged
  exact hi.clear (G:=[]) top ((hi.guarded top).unblocked rfl rfl) (object.decodes ..)
   (Slot.info_not_blocked object.fits ..) trivial rfl
 | sendAutorelease top untagged custom unfit=>
  have offered:Offered _ _:=hi.top top
  exact hi.goesOn (G:=[_]) top rfl rfl offered.handed rfl
 | moveNothing top none=>
  obtain ⟨-,hk⟩:=hi.top top
  exact hi.empties top rfl rfl hk.resume (Caller.resume_not_sending _)
 | moveToPool top some root=>
  obtain ⟨decodes,hk⟩:=hi.top top
  exact (hi.withPages ((decodes.object some).autorelease hi.pool)).empties top rfl rfl hk.resume
   (Caller.resume_not_sending _)
 | moveBlock top some root=>
  obtain ⟨decodes,hk⟩:=hi.top top
  have hguard:=hi.guarded top
  rw [hguard.unblocked rfl rfl] at hguard
  -- the only step that blocks the slot
  refine ⟨hi.pool,hi.released,(fun h=>nomatch h),?_,?_⟩
  · have handed:Handed _:=.inl (decodes.object some)
    exact List.forall_mem_cons.mpr ⟨handed,List.forall_mem_cons.mpr ⟨hk,hi.below top⟩⟩
  · exact .inr ⟨rfl,.inl ⟨rfl,fun g hg=>hguard g (List.mem_cons_of_mem _ hg)⟩⟩
 | moveUnblock top=>exact hi.sent top
 | pushReturn top=>
  have hpages:=hi.withPages (pushBoundary_pointersIn (O:=O) zero_unmarked hi.pool)
  have hpushed:=hpages.goesOn (G:=[]) top rfl rfl trivial rfl
  exact hpushed.quiet (G:=[_]) rfl rfl trivial rfl
 | popTLS top some | untilTLS top done some=>
  have hb:=(hi.guarded top).unblocked rfl rfl
  have object:=(hi.slot hb).object some
  exact (hi.withReleased object.elsewhere).empties (G:=[_,_]) top rfl rfl
   ⟨trivial,trivial⟩ rfl
 | popUnused top none unused=>
  have hpages:PointersIn unmarked .nil:=List.forall_mem_nil _
  exact (hi.withPages hpages).goesOn (G:=[]) top rfl rfl trivial rfl
 | popUntil top none opens=>exact hi.goesOn (G:=[_]) top rfl rfl trivial rfl
 | badPop top none bad | releasedAll top=>exact hi.goesOn (G:=[]) top rfl rfl trivial rfl
 | takeEntry top more took=>
  obtain ⟨hptr,hpages⟩:=take_pointersIn hi.pool took
  split
  · grind [hi.withPages]
  · exact (hi.withPages hpages).goesOn (G:=[_,_]) top rfl rfl ⟨hptr,trivial⟩ rfl
 | popReturn top done none=>
  have hpages:=fun depth=>popPage_pointersIn (O:=O) (setHot_pointersIn hi.pool depth)
  exact (hi.withPages (hpages _)).goesOn (G:=[]) top rfl rfl trivial rfl
 | release top=>
  have hptr:¬FromMarker _:=hi.top top
  exact (hi.withReleased hptr).goesOn (G:=[_,_]) top rfl rfl ⟨trivial,hptr⟩ rfl

theorem inv_initial : Inv initial where
 pool := List.forall_mem_nil _
 released := List.forall_mem_nil _
 slot _ := Slot.empty_decodes
 frames := List.forall_mem_singleton.mpr trivial
 guard := List.forall_mem_singleton.mpr rfl

theorem Inv.reachable (h:Reachable O callerAccepts PoolsWait c) : Inv c := by
 induction h with
 | refl=>exact inv_initial
 | tail _ hs ih=>
  obtain ⟨a,admitted,hs⟩:=hs
  exact ih.step admitted hs

/-- With pools pushed and popped only while the slot is not blocked, no pool entry and no
`objc_release` has the marker's pointer. -/
theorem marker_never_used (h:Reachable O callerAccepts PoolsWait c) :
 (∀page∈allPages c.pages,∀e∈page,¬FromMarker e.ptr) ∧
  ∀ptr∈c.released,¬FromMarker ptr := by
 have hi:=Inv.reachable h
 exact ⟨hi.pool,hi.released⟩

end Steps

section Override

def sampleOptions : Options := ⟨8,by decide,.lru,false,false,true⟩

def sampleObject : Word := 0x1000

def overrideRuns : Config where
 pages := .nil
 slot := .blockedInfo
 released := []
 hasCustomRR := fun _=>true
 stack := [.user [],.sending .push,.user []]

theorem sampleObject_handed : Handed sampleObject :=
 .inl ⟨by decide,by decide,by decide,by decide⟩

/-- The class overrides `autorelease`; the object is left in the slot for a caller that would
accept it, and a pool is pushed instead. -/
theorem overrideRuns_reachable {admits:Config → Act → Prop} (hother:∀c,admits c .other)
 (hpush:∀c,c.slot.isBlocked=false → admits c .push) :
 Reachable sampleOptions (fun _=>true) admits overrideRuns := by
 have hstart:Reachable sampleOptions (fun _=>true) admits initial:=.refl
 have hcustom:=hstart.step (hother _) (.overrides rfl fun _=>true)
 have hreturn:=hcustom.step (hother _)
  (@Step.autoreleaseReturnValue _ _ _ _ _ sampleObject 0x40 rfl sampleObject_handed)
 have hprepare:=hreturn.step (hother _) (.prepareMove rfl rfl)
 have hmoved:=hprepare.step (hother _) (.moveNothing rfl rfl)
 have hset:=hmoved.step (hother _) (.setInfo rfl rfl (.inr (.inr rfl)))
 have hpushed:=hset.step (hpush _ rfl) (.push rfl)
 have hblock:=hpushed.step (hother _) (.moveBlock rfl (by decide) rfl)
 exact hblock.step (hother _) (.autoreleaseMessage rfl rfl rfl)

/-- The override pushes a pool: the marker becomes a pool entry, to be released 65536 times. -/
theorem pool_of_override_holds_marker : ∃c,Reachable sampleOptions (fun _=>true) (fun _ _=>True) c ∧
  ∃page∈allPages c.pages,∃e∈page,FromMarker e.ptr ∧ e.count+1=65536 := by
 have hoverride:Reachable sampleOptions (fun _=>true) (fun _ _=>True) overrideRuns :=
  overrideRuns_reachable (fun _=>trivial) (fun _ _=>trivial)
 have hpush:=hoverride.step trivial (.push rfl)
 have hmarker:=hpush.step trivial (.moveToPool rfl (by decide) rfl)
 refine ⟨_,hmarker,_,List.mem_singleton.mpr rfl,decode markerPointer,List.mem_singleton.mpr rfl,?_⟩
 decide

theorem override_autoreleases_object : ∃c,Reachable sampleOptions (fun _=>true) PoolsWait c ∧
  c.pages=.page [boundary,⟨sampleObject.toNat,0⟩] [] [] ∧
  ∀page∈allPages c.pages,∀e∈page,¬FromMarker e.ptr := by
 have hother:∀c,PoolsWait c .other:=fun _ h=>absurd rfl h
 have hoverride:Reachable sampleOptions (fun _=>true) PoolsWait overrideRuns :=
  overrideRuns_reachable hother fun _ h _=>h
 have hsuper:=hoverride.step (hother _) (.rootAutorelease rfl sampleObject_handed (by decide))
 have hprepare:=hsuper.step (hother _) (@Step.rootPrepare _ _ _ _ sampleObject 0x80 rfl rfl)
 have hpool:=hprepare.step (hother _) (.rootAutorelease2 rfl rfl)
 have hret:=hpool.step (hother _) (.ret rfl)
 have hclear:=hret.step (hother _) (.moveUnblock rfl)
 have hpushed:=hclear.step (hother _) (.pushReturn rfl)
 exact ⟨_,hpushed,rfl,(marker_never_used hpushed).1⟩

end Override

end ObjcRuntime.BlockedSlot
