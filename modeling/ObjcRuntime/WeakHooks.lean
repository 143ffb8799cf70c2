import ObjcRuntime.WeakTable
import ObjcRuntime.CxxStructors

/-!
# The weak hooks of classes with custom retain and release

`allowsWeakReference` and `retainWeakReference` are called through an IMP that is looked up and
compared with `_objc_msgForward`.
-/

set_option autoImplicit false
namespace ObjcRuntime.WeakHooks

open MethodLookup CxxStructors
open WeakEntry (Ptr Entry)
open WeakTable (Viability DeallocatingOptions weakRegisterNoLock emptyWeakTable)
open ProbeTable (Table)

variable {preopt:Bool}

structure Answer (α:Type) (preopt:Bool) where
 result : α
 called : Option Imp
 chain : Chain preopt

/-- The lookup without `LOOKUP_*` bits, the comparison, and the call. -/
def askHook (sel:Sel) (call:Imp → Bool) (chain:Chain preopt) : Answer (Option Bool) preopt :=
 let found:=lookUpImpOrForwardTryCache Behavior.none sel chain
 if found.1=msgForward then ⟨none,none,found.2⟩
 else ⟨some (call found.1),some found.1,found.2⟩

structure Object where
 hasCustomRR : Bool
 rootIsDeallocating : Bool
 rootTryRetain : Bool
 /-- what the hook returns when called through an IMP -/
 call : Imp → Bool

def Object.viability (obj:Object) (allowsWeakReference:Sel) (chain:Chain preopt) :
 Answer Viability preopt :=
 if obj.hasCustomRR then
  let answer:=askHook allowsWeakReference obj.call chain
  match answer.result with
  | none=>⟨.unimplemented,answer.called,answer.chain⟩
  | some true=>⟨.viable,answer.called,answer.chain⟩
  | some false=>⟨.deallocating,answer.called,answer.chain⟩
 else ⟨if obj.rootIsDeallocating then .deallocating else .viable,none,chain⟩

def weakRegister (isTagged:Ptr → Bool) (t:Table Entry) (addr referent referrer:Ptr)
 (options:DeallocatingOptions) (obj:Object) (allowsWeakReference:Sel)
 (chain:Chain preopt) : Answer (Option (Ptr × Table Entry)) preopt :=
 if referent=0 ∨ isTagged referent ∨ options=.dontCheckDeallocating then
  ⟨weakRegisterNoLock isTagged t addr referent referrer options .viable,none,chain⟩
 else
  let viability:=obj.viability allowsWeakReference chain
  ⟨weakRegisterNoLock isTagged t addr referent referrer options viability.result,
   viability.called,viability.chain⟩

/-- `objc_loadWeakRetained` of a location that no other thread stores to.  `initializing` says that
this thread is in the class's `+initialize`; otherwise `+initialize` runs first, if it has not, and
does `ops`. -/
def loadWeakRetained (isTagged:Ptr → Bool) (referent:Ptr) (obj:Object)
 (retainWeakReference:Sel) (initializing:Bool) (ops:List Op) (chain:Chain preopt) :
 Answer Ptr preopt :=
 if referent=0 ∨ isTagged referent then ⟨referent,none,chain⟩
 else if obj.hasCustomRR then
  let ready :=
   if isInitialized chain || initializing then chain else initializeIfNeeded (run ops chain)
  let answer:=askHook retainWeakReference obj.call ready
  ⟨if answer.result=some true then referent else 0,answer.called,answer.chain⟩
 else ⟨if obj.rootTryRetain then referent else 0,none,chain⟩

/-- A cached entry of an ordinary selector is the answer of an uncached lookup. -/
def Ordinary (S:Selectors) (ds:List ClassData) (sel:Sel) (imp:Imp) : Prop :=
 ¬ S.Structor sel → imp=resolved sel ds

/-- Only structors are looked up class by class. -/
def Possible (S:Selectors) : Op → Prop
 | .loadCache _ sel=>S.Structor sel
 | _=>True

variable {S:Selectors} {ds:List ClassData}

theorem agrees_of_ordinary {sel:Sel} (hsel:¬ S.Structor sel) {chain:Chain preopt}
 (h:Entries (Ordinary S) chain) : Agrees sel chain := by
 induction chain with
 | nil=>trivial
 | cons c rest ih=>exact ⟨fun imp hhit=>h.1 sel imp hhit hsel,fun _=>ih h.2⟩

theorem sound_ordinary (preopt:Bool) (sel:Sel) (ds:List ClassData) :
 Sound (Ordinary S) preopt sel ds := by
 rintro chain ⟨hentries,rfl⟩-hsel
 exact (agrees_of_ordinary hsel hentries).found_eq

theorem sound_of_possible {op:Op} (h:Possible S op) : op.Sound (Ordinary S) preopt ds := by
 cases op with
 | query q i sel=>exact sound_ordinary preopt sel _
 | loadCache i sel=>exact fun _ _ _ hsel=>absurd h hsel
 | flushCache i=>trivial

theorem settles_ordinary {sel:Sel} (hsel:¬ S.Structor sel) (ds:List ClassData) :
 Settles sel (resolved sel ds) (Holding (Ordinary S) ds : Chain preopt → Prop) where
 toClosed := (sound_ordinary preopt sel ds).closed
 found chain h := by
  rw [(agrees_of_ordinary hsel h.1).found_eq,h.2]
 cached chain imp h hhit := by
  rw [(agrees_of_ordinary hsel h.1).cached hhit,h.2]

theorem holding_run_possible {ops:List Op} (hops:∀op∈ops,Possible S op)
 {chain:Chain preopt} (h:Holding (Ordinary S) ds chain) :
 Holding (Ordinary S) ds (run ops chain) :=
 run_holding (fun op hop=>sound_of_possible (hops op hop)) h

theorem resolved_eq_msgForward {sel:Sel} :
 resolved sel ds=msgForward ↔ implementation sel ds=some msgForward := by
 unfold resolved
 cases implementation sel ds with
 | none=>simp [msgForward,msgForwardImpcache]
 | some imp=>simp

/-- The hook is called through whatever the lookup resolves to, unless that is `_objc_msgForward`
itself. -/
theorem askHook_spec {sel:Sel} (hsel:¬ S.Structor sel) (call:Imp → Bool)
 {chain:Chain preopt} (h:Holding (Ordinary S) ds chain) :
 (askHook sel call chain).called =
  (if implementation sel ds=some msgForward then none else some (resolved sel ds)) ∧
  (askHook sel call chain).result=if implementation sel ds=some msgForward then none
   else some (call (resolved sel ds)) := by
 have hfound:=(settles_ordinary hsel ds).lookUpImpOrForwardTryCache Behavior.none h
 have hanswer:Behavior.none.answer (resolved sel ds)=resolved sel ds :=
  if_neg fun hnil=>nomatch hnil.1
 grind [askHook,resolved_eq_msgForward]

theorem called_eq_none {sel:Sel} :
 (if implementation sel ds=some msgForward then none else some (resolved sel ds))=none ↔
  implementation sel ds=some msgForward := by
 split <;> simp_all

theorem called_of_unimplemented {sel:Sel} (hnone:implementation sel ds=none) :
 (if implementation sel ds=some msgForward then none else some (resolved sel ds)) =
  some msgForwardImpcache := by
 rw [if_neg (by simp [hnone]),resolved_eq_forward.mpr hnone]

structure Asked (isTagged:Ptr → Bool) (referent:Ptr) (obj:Object) : Prop where
 customRR : obj.hasCustomRR
 real : referent≠0
 untagged : isTagged referent=false

section Calls

variable {isTagged:Ptr → Bool} {referent:Ptr} {obj:Object} {sel:Sel}
 {chain:Chain preopt}

theorem weakRegister_spec (hasked:Asked isTagged referent obj) (hsel:¬ S.Structor sel)
 (h:Holding (Ordinary S) ds chain) (t:Table Entry) (addr referrer:Ptr)
 {options:DeallocatingOptions} (hcheck:options≠.dontCheckDeallocating) :
 (weakRegister isTagged t addr referent referrer options obj sel chain).called =
  (if implementation sel ds=some msgForward then none else some (resolved sel ds)) ∧
  (implementation sel ds=some msgForward →
   (weakRegister isTagged t addr referent referrer options obj sel chain).result =
    some (0,t)) := by
 obtain ⟨hcalled,hresult⟩:=askHook_spec hsel obj.call h
 have hchecks:¬ (referent=0 ∨ isTagged referent=true ∨ options=.dontCheckDeallocating):=by
  simp [hasked.real,hasked.untagged,hcheck]
 have hviability:(obj.viability sel chain).called=(askHook sel obj.call chain).called:=by
  rw [Object.viability,if_pos hasked.customRR]
  dsimp only
  split <;> rfl
 rw [weakRegister,if_neg hchecks]
 refine ⟨hviability.trans hcalled,fun hf=>?_⟩
 rw [if_pos hf] at hresult
 have hrejected:(obj.viability sel chain).result=.unimplemented:=by
  rw [Object.viability,if_pos hasked.customRR]
  simp only [hresult]
 change weakRegisterNoLock isTagged t addr referent referrer options
  (obj.viability sel chain).result=some (0,t)
 rw [hrejected,weakRegisterNoLock,if_neg (by simp [hasked.real,hasked.untagged]),if_neg hcheck]

theorem loadWeakRetained_spec (hasked:Asked isTagged referent obj) (hsel:¬ S.Structor sel)
 (h:Holding (Ordinary S) ds chain) (initializing:Bool) {ops:List Op}
 (hops:∀op∈ops,Possible S op) :
 (loadWeakRetained isTagged referent obj sel initializing ops chain).called =
  (if implementation sel ds=some msgForward then none else some (resolved sel ds)) ∧
  (implementation sel ds=some msgForward →
   (loadWeakRetained isTagged referent obj sel initializing ops chain).result=0) := by
 have hready:Holding (Ordinary S) ds (if isInitialized chain || initializing then chain
  else initializeIfNeeded (run ops chain)) := by
  split
  · exact h
  · exact (sound_ordinary preopt sel ds).closed.initialized _ (holding_run_possible hops h)
 obtain ⟨hcalled,hresult⟩:=askHook_spec hsel obj.call hready
 rw [loadWeakRetained,if_neg (by simp [hasked.real,hasked.untagged]),if_pos hasked.customRR]
 refine ⟨hcalled,fun hf=>?_⟩
 rw [if_pos hf] at hresult
 exact if_neg fun hsome=>by rw [hresult] at hsome; cases hsome

end Calls

/-- In every state of the caches, both functions reject an object without a call exactly if its
hook's IMP is `_objc_msgForward` itself; where no class implements the hook they call through
`_objc_msgForward_impcache`. -/
theorem hook_rejected_iff (S:Selectors) (chain:Chain preopt) (hfresh:Fresh chain)
 (ops:List Op) (hops:∀op∈ops,Possible S op) (isTagged:Ptr → Bool) (referent:Ptr)
 (obj:Object) (hasked:Asked isTagged referent obj)
 (allowsWeakReference retainWeakReference:Sel) (hallows:¬ S.Structor allowsWeakReference)
 (hretain:¬ S.Structor retainWeakReference) :
 (∀(t:Table Entry) (addr referrer:Ptr) (options:DeallocatingOptions),
  options≠.dontCheckDeallocating → ∀answer,
  weakRegister isTagged t addr referent referrer options obj allowsWeakReference
   (run ops chain)=answer →
  ((answer.result=some (0,t) ∧ answer.called=none) ↔
    implementation allowsWeakReference (data chain)=some msgForward) ∧
  (implementation allowsWeakReference (data chain)=none → answer.called=some msgForwardImpcache)) ∧
 ∀(initializing:Bool) (more:List Op),(∀op∈more,Possible S op) → ∀answer,
  loadWeakRetained isTagged referent obj retainWeakReference initializing more
   (run ops chain)=answer →
  ((answer.result=0 ∧ answer.called=none) ↔
    implementation retainWeakReference (data chain)=some msgForward) ∧
  (implementation retainWeakReference (data chain)=none →
   answer.called=some msgForwardImpcache) := by
 have hrun:=holding_run_possible hops (hfresh.holding (P:=Ordinary S))
 refine ⟨fun t addr referrer options hcheck answer hanswer=>?_,
  fun initializing more hmore answer hanswer=>?_⟩
 · obtain ⟨hcalled,hnil⟩:=weakRegister_spec hasked hallows hrun t addr referrer hcheck
   rw [hanswer] at hcalled hnil
   rw [hcalled]
   refine ⟨⟨fun h=>called_eq_none.mp h.2,fun hf=>⟨hnil hf,called_eq_none.mpr hf⟩⟩,
    called_of_unimplemented⟩
 · obtain ⟨hcalled,hnil⟩:=loadWeakRetained_spec hasked hretain hrun initializing hmore
   rw [hanswer] at hcalled hnil
   rw [hcalled]
   refine ⟨⟨fun h=>called_eq_none.mp h.2,fun hf=>⟨hnil hf,called_eq_none.mpr hf⟩⟩,
    called_of_unimplemented⟩

section Witness

def refusing : Object := ⟨true,false,true,fun _=>false⟩

def rootClass (imp:Option MethodImp) : Cls false where
 own _ := imp
 isMetaClass := false
 hasCxxCtor := false
 hasCxxDtor := false
 resolvesClass := false
 resolvesInstance := false
 isInitialized := true
 cache := Cache.empty

end Witness

theorem forwarding_hook_rejected :
 (weakRegister (fun _=>false) emptyWeakTable 512 64 128 .returnNilIfDeallocating refusing
  ⟨24,by decide⟩ [rootClass (some ⟨msgForward,by decide⟩)]).called=none := by
 have hfresh:Fresh [rootClass (some ⟨msgForward,by decide⟩)]:=by
  intro c hc
  rw [List.mem_singleton.mp hc]
  rfl
 have hsel:∀n : Sel,n=⟨24,by decide⟩ ∨ n=⟨32,by decide⟩ → ¬ cxxSelectors.Structor n := by
  rintro n (rfl|rfl) (h|h) <;> exact absurd h (by decide)
 exact (((hook_rejected_iff cxxSelectors _ hfresh [] (fun _ h=>nomatch h) (fun _=>false)
  64 refusing ⟨rfl,by decide,rfl⟩ ⟨24,by decide⟩ ⟨32,by decide⟩ (hsel _ (.inl rfl))
  (hsel _ (.inr rfl))).1 emptyWeakTable 512 128 .returnNilIfDeallocating (by decide) _ rfl).1.mpr
  rfl).2

theorem unimplemented_hook_called : implementation ⟨24,by decide⟩ (data [rootClass none])=none ∧
 (weakRegister (fun _=>false) emptyWeakTable 512 64 128 .returnNilIfDeallocating refusing
  ⟨24,by decide⟩ [rootClass none]).called=some msgForwardImpcache ∧
 (loadWeakRetained (fun _=>false) 64 refusing ⟨24,by decide⟩ false []
  [rootClass none]).called=some msgForwardImpcache := by
 refine ⟨rfl,rfl,rfl⟩

end ObjcRuntime.WeakHooks
