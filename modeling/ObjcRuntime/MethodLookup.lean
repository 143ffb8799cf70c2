import ObjcRuntime.MethodCache

/-!
# Method lookup

`lookUpImpOrForward` over one superclass chain: the class that is messaged, its superclass, and so
on to the root class.
-/

set_option autoImplicit false
namespace ObjcRuntime.MethodLookup

open MethodCache (Bucket Heap Inv slots)

abbrev Sel := {s:ℕ // s≠0}
abbrev Imp := ℕ

/-- `_objc_msgForward_impcache`, the negative entry of the caches. -/
def msgForwardImpcache : Imp := 1

/-- `_objc_msgForward`, what callers outside the runtime get in its place. -/
def msgForward : Imp := 2

/-- A method's IMP is neither nil nor the private `_objc_msgForward_impcache`. -/
abbrev MethodImp := {imp:Imp // imp≠0 ∧ imp≠msgForwardImpcache}

abbrev Cache (preopt:Bool) := {s:MethodCache.State // Inv preopt s}

/-- What lookups read of a class and do not change.  `own` is `getMethodNoSuper_nolock`. -/
structure ClassData where
 own : Sel → Option MethodImp
 isMetaClass : Bool
 hasCxxCtor : Bool
 hasCxxDtor : Bool
 /-- `resolveClassMethod:` and `resolveInstanceMethod:` are implemented -/
 resolvesClass : Bool
 resolvesInstance : Bool

structure Cls (preopt:Bool) extends ClassData where
 isInitialized : Bool
 cache : Cache preopt

abbrev Chain (preopt:Bool) := List (Cls preopt)

/-- The `LOOKUP_*` bits. -/
structure Behavior where
 lookupInitialize : Bool
 lookupResolver : Bool
 lookupNil : Bool
 lookupNocache : Bool

def Behavior.none : Behavior := ⟨false,false,false,false⟩

def Behavior.orNil (b:Behavior) : Behavior := {b with lookupNil:=true}

variable {imp:Imp} {ds:List ClassData}

section Caches

variable {preopt:Bool}

def Cache.empty : Cache preopt :=
 ⟨(Heap.initial,.initializeToEmpty),MethodCache.inv_initial preopt⟩

def Cache.getImp (c:Cache preopt) (sel:Sel) : Option Imp :=
 (MethodCache.lookup preopt c.1 sel).map fun i=>((c.1.1.array c.1.2.buckets).getD i .zero).imp

def Cache.insert (c:Cache preopt) (sel:Sel) (imp:Imp) : Cache preopt :=
 match h : MethodCache.insert preopt c.1 sel imp with
 | .ok t=>⟨t,by
  obtain ⟨u,hu,hi,-⟩:=MethodCache.insert_spec c.2 imp sel.2
  rw [h,Except.ok.injEq] at hu
  exact hu ▸ hi⟩
 | .error _=>absurd h (by
  obtain ⟨u,hu,-⟩:=MethodCache.insert_spec c.2 imp sel.2
  simp [hu])

def Cache.erase (c:Cache preopt) : Cache preopt :=
 ⟨MethodCache.eraseNolock preopt c.1,(MethodCache.erase_spec c.2).1⟩

variable {sel:Sel}

theorem Cache.mem_slots_of_getImp {c:Cache preopt} (h:c.getImp sel=some imp) :
 (⟨imp,sel⟩ : Bucket)∈slots c.1 := by
 obtain ⟨i,hi,himp⟩:=Option.map_eq_some_iff.mp h
 obtain ⟨-,hsel⟩:=Option.filter_eq_some_iff.mp hi
 rw [beq_iff_eq] at hsel
 have hzeroed:∀n,c.1.1.arrays[c.1.2.buckets]?=some (List.replicate n .zero) → False:=by
  grind [Heap.array_eq,MethodCache.selAt_zeroed]
 cases c.2.holds with
 | fresh hb hm ho=>exact (hzeroed _ (hb ▸ c.2.heap.base)).elim
 | erased hm ho hs=>
  obtain ⟨k,hk,hmax,hpow⟩:=hm
  rw [(MethodCache.MaskOk.capacity ⟨k,hk,hmax,hpow⟩).trans hpow] at hs
  obtain ⟨n,-,harr⟩:=MethodCache.shared_zeroed c.2.heap hs
  exact (hzeroed n harr).elim
 | owned b ho=>
  rw [ho.slots_eq]
  rw [Heap.array_eq ho.array] at hsel himp
  have hin:i < b.length:=by grind [MethodCache.selAt_of_le]
  rw [MethodCache.selAt,List.getD_eq_getElem _ _ hin] at hsel
  rw [List.getD_eq_getElem _ _ hin] at himp
  have hentry:b[i]=⟨imp,sel⟩:=by rw [←himp,←hsel]
  exact hentry ▸ List.getElem_mem hin

theorem Cache.getImp_of_mem_slots {c:Cache preopt} (h:(⟨imp,sel⟩ : Bucket)∈slots c.1) :
 c.getImp sel=some imp := by
 obtain ⟨i,hi,hentry⟩:=List.getElem_of_mem h
 have hsel:MethodCache.selAt (slots c.1) i=sel:=by
  rw [MethodCache.selAt,List.getD_eq_getElem _ _ hi,hentry]
 have hfound:=c.2.structured.found (i:=i) (by rw [hsel]; exact sel.2)
 grind [Cache.getImp,slots]

theorem Cache.getImp_insert {c:Cache preopt} {s:Sel} {i:Imp}
 (h:(c.insert sel imp).getImp s=some i) : c.getImp s=some i ∨ s=sel ∧ i=imp := by
 have hmem:=mem_slots_of_getImp h
 obtain ⟨t,ht,-,-,hfrom,-⟩:=MethodCache.insert_spec c.2 imp sel.2
 grind [Cache.insert,getImp_of_mem_slots]

theorem Cache.getImp_erase (c:Cache preopt) (sel:Sel) : c.erase.getImp sel=none := by
 rw [Option.eq_none_iff_forall_not_mem]
 intro imp h
 have hmem:=mem_slots_of_getImp h
 have hocc:c.erase.1.2.occupied=0:=by
  simp only [Cache.erase,MethodCache.eraseNolock]
  split
  · rfl
  split
  · rfl
  · omega
 have hcount:=c.erase.2.structured.occupied
 grind

@[simp] theorem Cache.getImp_empty (sel:Sel) : (Cache.empty : Cache preopt).getImp sel=none := by
 rw [Option.eq_none_iff_forall_not_mem]
 intro imp h
 have hmem:=mem_slots_of_getImp h
 have hslots:slots (Cache.empty : Cache preopt).1=[]:=rfl
 rw [hslots] at hmem
 cases hmem

end Caches

variable {preopt:Bool}

/-- The class's cache takes nothing before `+initialize` is done. -/
def Cls.fill (c:Cls preopt) (sel:Sel) (imp:Imp) : Cls preopt :=
 if c.isInitialized then {c with cache:=c.cache.insert sel imp} else c

def Cls.setInitialized (c:Cls preopt) : Cls preopt := {c with isInitialized:=true}

def isInitialized (chain:Chain preopt) : Bool := chain.head?.any (·.isInitialized)

/-- `initializeAndLeaveLocked`: superclasses are initialized first. -/
def initializeIfNeeded (chain:Chain preopt) : Chain preopt :=
 if isInitialized chain then chain else chain.map Cls.setInitialized

def fillCache (sel:Sel) (imp:Imp) : Chain preopt → Chain preopt
 | []=>[]
 | c::rest=>c.fill sel imp::rest

def cachedImp (sel:Sel) (chain:Chain preopt) : Option Imp :=
 chain.head?.bind fun c=>c.cache.getImp sel

/-- The loop over the superclasses: `none` if it ends with `forward_imp`. -/
def search (sel:Sel) : Chain preopt → Option Imp
 | []=>none
 | c::rest=>
  match c.own sel with
  | some imp=>some imp
  | none=>
   match cachedImp sel rest with
   | some imp=>if imp=msgForwardImpcache then none else some imp
   | none=>search sel rest

def Behavior.answer (b:Behavior) (imp:Imp) : Imp :=
 if b.lookupNil ∧ imp=msgForwardImpcache then 0 else imp

def finish (b:Behavior) (sel:Sel) (imp:Imp) (chain:Chain preopt) : Imp × Chain preopt :=
 (b.answer imp,if b.lookupNocache then chain else fillCache sel imp chain)

def Behavior.noting (b:Behavior) (chain:Chain preopt) : Behavior :=
 {b with lookupNocache:=b.lookupNocache || !isInitialized chain}

/-- `realizeAndInitializeIfNeeded_locked` of a realized class -/
def prepare (b:Behavior) (chain:Chain preopt) : Chain preopt :=
 if b.lookupInitialize then initializeIfNeeded chain else chain

abbrev Lookup (preopt:Bool) := Behavior → Sel → Chain preopt → Imp × Chain preopt

def lookUpWith (resolve:Lookup preopt) : Lookup preopt := fun b sel chain =>
 match search sel (prepare b chain) with
 | some imp=>finish (b.noting chain) sel imp (prepare b chain)
 | none=>
  if b.lookupResolver then
   resolve {b.noting chain with lookupResolver:=false} sel (prepare b chain)
  else finish (b.noting chain) sel msgForwardImpcache (prepare b chain)

def tryCacheWith (lookUp:Lookup preopt) : Lookup preopt := fun b sel chain =>
 if isInitialized chain then
  match cachedImp sel chain with
  | some imp=>(b.answer imp,chain)
  | none=>lookUp b sel chain
 else lookUp b sel chain

/-- `_lookUpImpTryCache` without `LOOKUP_RESOLVER`, where the resolver is not called. -/
def tryCacheUnresolved : Lookup preopt :=
 tryCacheWith (lookUpWith fun b sel chain=>finish b sel msgForwardImpcache chain)

/-- `resolveClassMethod` and `resolveInstanceMethod`, with a resolver that adds nothing: it is sent
a message, which initializes the class, and the result is cached. -/
def callResolver (implemented:Bool) (sel:Sel) (chain:Chain preopt) : Chain preopt :=
 if implemented then (tryCacheUnresolved Behavior.none.orNil sel (initializeIfNeeded chain)).2
 else chain

def resolveClassMethod (sel:Sel) (chain:Chain preopt) : Chain preopt :=
 callResolver (chain.head?.any (·.resolvesClass)) sel chain

def resolveInstanceMethod (sel:Sel) (chain:Chain preopt) : Chain preopt :=
 callResolver (chain.head?.any (·.resolvesInstance)) sel chain

def resolveInMetaClass (sel:Sel) (chain:Chain preopt) : Chain preopt :=
 match tryCacheUnresolved Behavior.none.orNil sel (resolveClassMethod sel chain) with
 | (0,chain')=>resolveInstanceMethod sel chain'
 | (_,chain')=>chain'

def resolveMethodLocked : Lookup preopt := fun b sel chain =>
 tryCacheUnresolved b sel
  (if chain.head?.any (·.isMetaClass) then resolveInMetaClass sel chain
   else resolveInstanceMethod sel chain)

def lookUpImpOrForward : Lookup preopt := lookUpWith resolveMethodLocked

def lookUpImpOrForwardTryCache : Lookup preopt := tryCacheWith lookUpImpOrForward

def lookUpImpOrNilTryCache : Lookup preopt := fun b=>lookUpImpOrForwardTryCache b.orNil

def lookupMethodInClassAndLoadCache (sel:Sel) (c:Cls preopt) : Imp × Cls preopt :=
 match c.cache.getImp sel with
 | some imp=>(imp,c)
 | none=>
  match c.own sel with
  | some imp=>(imp,c.fill sel imp)
  | none=>(msgForwardImpcache,c.fill sel msgForwardImpcache)

/-- A property that initializing a class and caching what the search finds both keep. -/
structure Closed (sel:Sel) (R:Chain preopt → Prop) : Prop where
 initialized : ∀chain,R chain → R (initializeIfNeeded chain)
 fill : ∀chain,R chain → R (fillCache sel ((search sel chain).getD msgForwardImpcache) chain)

namespace Closed

variable {sel:Sel} {R:Chain preopt → Prop} {chain:Chain preopt}

theorem prepare (hR:Closed sel R) (b:Behavior) (h:R chain) : R (prepare b chain) := by
 unfold MethodLookup.prepare
 split
 · exact hR.initialized chain h
 · exact h

theorem finish (hR:Closed sel R) (b:Behavior) (h:R chain)
 (hfound:(search sel chain).getD msgForwardImpcache=imp) :
 R (finish b sel imp chain).2 := by grind [MethodLookup.finish,hR.fill]

theorem lookUpWith (hR:Closed sel R) {resolve:Lookup preopt}
 (hresolve:∀b chain,R chain → search sel chain=none → R (resolve b sel chain).2)
 (b:Behavior) (h:R chain) : R (lookUpWith resolve b sel chain).2 := by
 unfold MethodLookup.lookUpWith
 grind [hR.prepare,hR.finish]

theorem tryCacheWith {lookUp:Lookup preopt}
 (hlook:∀b chain,R chain → R (lookUp b sel chain).2) (b:Behavior) (h:R chain) :
 R (tryCacheWith lookUp b sel chain).2 := by
 unfold MethodLookup.tryCacheWith
 grind

section

variable (hR:Closed sel R)
include hR

theorem tryCacheUnresolved (b:Behavior) (h:R chain) :
 R (tryCacheUnresolved b sel chain).2 :=
 Closed.tryCacheWith (fun b _=>hR.lookUpWith
  (fun b _ hc hnone=>hR.finish b hc (by rw [hnone,Option.getD_none])) b) b h

theorem callResolver (implemented:Bool) (h:R chain) :
 R (callResolver implemented sel chain) := by
 grind [MethodLookup.callResolver,hR.tryCacheUnresolved,hR.initialized]

theorem resolveInMetaClass (h:R chain) : R (resolveInMetaClass sel chain) := by
 have hkept:=hR.tryCacheUnresolved Behavior.none.orNil
  (hR.callResolver (chain.head?.any (·.resolvesClass)) h)
 unfold MethodLookup.resolveInMetaClass
 split
 · case h_1 chain' heq =>
   rw [resolveClassMethod] at heq
   rw [heq] at hkept
   exact hR.callResolver _ hkept
 · grind [resolveClassMethod]

theorem resolveMethodLocked (b:Behavior) (h:R chain) :
 R (resolveMethodLocked b sel chain).2 := by
 unfold MethodLookup.resolveMethodLocked
 apply hR.tryCacheUnresolved
 split
 · exact hR.resolveInMetaClass h
 · exact hR.callResolver _ h

theorem lookUpImpOrForward (b:Behavior) (h:R chain) :
 R (lookUpImpOrForward b sel chain).2 :=
 hR.lookUpWith (fun b _ hc _=>hR.resolveMethodLocked b hc) b h

theorem lookUpImpOrForwardTryCache (b:Behavior) (h:R chain) :
 R (lookUpImpOrForwardTryCache b sel chain).2 :=
 Closed.tryCacheWith (fun b _=>hR.lookUpImpOrForward b) b h

end

end Closed

/-- A closed property under which the search and the class's cache can only give `v`. -/
structure Settles (sel:Sel) (v:Imp) (R:Chain preopt → Prop) : Prop extends Closed sel R where
 found : ∀chain,R chain → (search sel chain).getD msgForwardImpcache=v
 cached : ∀chain imp,R chain → cachedImp sel chain=some imp → imp=v

namespace Settles

variable {sel:Sel} {v:Imp} {R:Chain preopt → Prop} {chain:Chain preopt}

section

variable (hR:Settles sel v R)
include hR

theorem lookUpWith {resolve:Lookup preopt}
 (hresolve:∀b chain,R chain → search sel chain=none → (resolve b sel chain).1=b.answer v)
 (b:Behavior) (h:R chain) : (lookUpWith resolve b sel chain).1=b.answer v := by
 have hprep:=hR.prepare b h
 have hfound:=hR.found _ hprep
 unfold MethodLookup.lookUpWith
 cases hs : search sel (MethodLookup.prepare b chain) with
 | some imp=>
  rw [hs,Option.getD_some] at hfound
  exact congrArg b.answer hfound
 | none=>
  rw [hs,Option.getD_none] at hfound
  dsimp only
  split
  · exact hresolve _ _ hprep hs
  · exact congrArg b.answer hfound

theorem tryCacheWith {lookUp:Lookup preopt}
 (hlook:∀b chain,R chain → (lookUp b sel chain).1=b.answer v) (b:Behavior)
 (h:R chain) : (tryCacheWith lookUp b sel chain).1=b.answer v := by
 unfold MethodLookup.tryCacheWith
 grind [hR.cached]

theorem tryCacheUnresolved (b:Behavior) (h:R chain) :
 (tryCacheUnresolved b sel chain).1=b.answer v := by
 refine hR.tryCacheWith (fun b chain hc=>hR.lookUpWith (fun b chain hc hnone=>?_) b hc) b h
 have hfound:=hR.found chain hc
 rw [hnone,Option.getD_none] at hfound
 exact congrArg b.answer hfound

theorem resolveMethodLocked (b:Behavior) (h:R chain) :
 (resolveMethodLocked b sel chain).1=b.answer v := by
 unfold MethodLookup.resolveMethodLocked
 apply hR.tryCacheUnresolved
 split
 · exact hR.resolveInMetaClass h
 · exact hR.callResolver _ h

theorem lookUpImpOrForward (b:Behavior) (h:R chain) :
 (lookUpImpOrForward b sel chain).1=b.answer v :=
 hR.lookUpWith (fun b _ hc _=>hR.resolveMethodLocked b hc) b h

theorem lookUpImpOrForwardTryCache (b:Behavior) (h:R chain) :
 (lookUpImpOrForwardTryCache b sel chain).1=b.answer v :=
 hR.tryCacheWith (fun b _=>hR.lookUpImpOrForward b) b h

end

end Settles

def data (chain:Chain preopt) : List ClassData := chain.map Cls.toClassData

def implementation (sel:Sel) : List ClassData → Option Imp
 | []=>none
 | d::rest=>
  match d.own sel with
  | some imp=>some imp
  | none=>implementation sel rest

def resolved (sel:Sel) (ds:List ClassData) : Imp :=
 (implementation sel ds).getD msgForwardImpcache

def ClassData.ownImp (d:ClassData) (sel:Sel) : Imp :=
 match d.own sel with
 | some imp=>imp
 | none=>msgForwardImpcache

theorem implementation_ne_forward {sel:Sel} (h:implementation sel ds=some imp) :
 imp≠msgForwardImpcache := by
 induction ds with
 | nil=>cases h
 | cons d rest ih=>grind [implementation]

theorem resolved_eq_forward {sel:Sel} :
 resolved sel ds=msgForwardImpcache ↔ implementation sel ds=none := by
 unfold resolved
 cases himp : implementation sel ds with
 | none=>simp
 | some imp=>simp [implementation_ne_forward himp]

/-- Every cache entry of the chain has the property `P` of the classes from its class up. -/
def Entries (P:List ClassData → Sel → Imp → Prop) : Chain preopt → Prop
 | []=>True
 | c::rest=>
  (∀sel imp,c.cache.getImp sel=some imp → P (data (c::rest)) sel imp) ∧ Entries P rest

/-- The caches that a lookup of `sel` can reach answer as the lookup does. -/
def Agrees (sel:Sel) : Chain preopt → Prop
 | []=>True
 | c::rest=>
  (∀imp,c.cache.getImp sel=some imp → imp=resolved sel (data (c::rest))) ∧
   (c.own sel=none → Agrees sel rest)

theorem Agrees.cached {sel:Sel} {chain:Chain preopt} (h:Agrees sel chain)
 (hhit:cachedImp sel chain=some imp) : imp=resolved sel (data chain) := by
 cases chain with
 | nil=>cases hhit
 | cons c rest=>exact h.1 imp hhit

theorem Agrees.search_eq {sel:Sel} {chain:Chain preopt} (h:Agrees sel chain) :
 search sel chain=implementation sel (data chain) := by
 induction chain with
 | nil=>rfl
 | cons c rest ih=>
  rw [data,List.map_cons,search,implementation]
  cases hown : c.own sel with
  | some imp=>rfl
  | none=>
   have hrest:=h.2 hown
   cases hhit : cachedImp sel rest with
   | none=>exact ih hrest
   | some imp=>
    have himp:=hrest.cached hhit
    dsimp only
    split
    · case isTrue hforward=>exact (resolved_eq_forward.mp (himp.symm.trans hforward)).symm
    · case isFalse hreal =>
      rw [himp,resolved] at hreal ⊢
      rw [←data]
      cases hi : implementation sel (data rest) with
      | none=>simp [hi] at hreal
      | some i=>rfl

theorem Agrees.found_eq {sel:Sel} {chain:Chain preopt} (h:Agrees sel chain) :
 (search sel chain).getD msgForwardImpcache=resolved sel (data chain) := by
 rw [h.search_eq,resolved]

@[simp] theorem data_initializeIfNeeded (chain:Chain preopt) :
 data (initializeIfNeeded chain)=data chain := by
 unfold initializeIfNeeded
 split
 · rfl
 · rw [data,data,List.map_map]
   rfl

@[simp] theorem Cls.toClassData_fill (c:Cls preopt) (sel:Sel) (imp:Imp) :
 (c.fill sel imp).toClassData=c.toClassData := by
 unfold Cls.fill
 split <;> rfl

@[simp] theorem data_fillCache (sel:Sel) (imp:Imp) (chain:Chain preopt) :
 data (fillCache sel imp chain)=data chain := by
 cases chain with
 | nil=>rfl
 | cons c rest=>simp [data,fillCache]

theorem Cls.getImp_fill {c:Cls preopt} {sel s:Sel} {i:Imp}
 (h:(c.fill sel imp).cache.getImp s=some i) :
 c.cache.getImp s=some i ∨ s=sel ∧ i=imp := by grind [Cls.fill,Cache.getImp_insert]

section Entries

variable {P:List ClassData → Sel → Imp → Prop}

theorem entries_map_setInitialized {chain:Chain preopt} (h:Entries P chain) :
 Entries P (chain.map Cls.setInitialized) := by
 induction chain with
 | nil=>trivial
 | cons c rest ih=>
  refine ⟨fun sel imp hhit=>?_,ih h.2⟩
  have hdata:data ((c::rest).map Cls.setInitialized)=data (c::rest):=by
   rw [data,data,List.map_map]
   rfl
  rw [List.map_cons] at hdata
  rw [hdata]
  exact h.1 sel imp hhit

theorem Entries.initialized {chain:Chain preopt} (h:Entries P chain) :
 Entries P (initializeIfNeeded chain) := by
 unfold initializeIfNeeded
 split
 · exact h
 · exact entries_map_setInitialized h

theorem Entries.fill {c:Cls preopt} {rest:Chain preopt} (h:Entries P (c::rest))
 {sel:Sel} (hP:P (data (c::rest)) sel imp) : Entries P (c.fill sel imp::rest) := by
 refine ⟨fun s i hhit=>?_,h.2⟩
 rw [data,List.map_cons,Cls.toClassData_fill]
 rcases Cls.getImp_fill hhit with hold|⟨rfl,rfl⟩
 · exact h.1 s i hold
 · exact hP

def Holding (P:List ClassData → Sel → Imp → Prop) (ds:List ClassData) (chain:Chain preopt) : Prop :=
 Entries P chain ∧ data chain=ds

def Sound (P:List ClassData → Sel → Imp → Prop) (preopt:Bool) (sel:Sel)
 (ds:List ClassData) : Prop :=
 ∀chain : Chain preopt,Holding P ds chain → chain≠[] →
  P ds sel ((search sel chain).getD msgForwardImpcache)

theorem Sound.closed {sel:Sel} (hs:Sound P preopt sel ds) :
 Closed sel (Holding P ds:Chain preopt → Prop) where
 initialized chain h := ⟨h.1.initialized,(data_initializeIfNeeded chain).trans h.2⟩
 fill chain h := by
  refine ⟨?_,(data_fillCache ..).trans h.2⟩
  cases chain with
  | nil=>trivial
  | cons c rest=>exact h.1.fill (h.2 ▸ hs (c::rest) h (by simp))

end Entries

def classRespondsToSelector (sel:Sel) (chain:Chain preopt) : Bool × Chain preopt :=
 ((lookUpImpOrNilTryCache ⟨false,true,false,false⟩ sel chain).1 != 0,
   (lookUpImpOrNilTryCache ⟨false,true,false,false⟩ sel chain).2)

def classGetMethodImplementation (sel:Sel) (chain:Chain preopt) : Imp × Chain preopt :=
 match lookUpImpOrNilTryCache ⟨true,true,false,false⟩ sel chain with
 | (0,chain')=>(msgForward,chain')
 | (imp,chain')=>(imp,chain')

def classGetInstanceMethod (sel:Sel) (chain:Chain preopt) : Option Imp × Chain preopt :=
 (implementation sel (data chain),(lookUpImpOrForward ⟨false,true,false,false⟩ sel chain).2)

def msgSend (sel:Sel) (chain:Chain preopt) : Imp × Chain preopt :=
 match cachedImp sel chain with
 | some imp=>(imp,chain)
 | none=>lookUpImpOrForward ⟨true,true,false,false⟩ sel chain

inductive Query where
 | respondsToSelector
 | getMethodImplementation
 | getInstanceMethod
 | msgSend

def Query.apply (q:Query) (sel:Sel) (chain:Chain preopt) : Chain preopt :=
 match q with
 | .respondsToSelector=>(classRespondsToSelector sel chain).2
 | .getMethodImplementation=>(classGetMethodImplementation sel chain).2
 | .getInstanceMethod=>(classGetInstanceMethod sel chain).2
 | .msgSend=>(MethodLookup.msgSend sel chain).2

theorem Closed.query {sel:Sel} {R:Chain preopt → Prop} (hR:Closed sel R) (q:Query)
 {chain:Chain preopt} (h:R chain) : R (q.apply sel chain) := by
 cases q with
 | respondsToSelector=>exact hR.lookUpImpOrForwardTryCache _ h
 | getMethodImplementation=>
  have hkept:=hR.lookUpImpOrForwardTryCache (Behavior.orNil ⟨true,true,false,false⟩) h
  rw [Query.apply,classGetMethodImplementation]
  split <;> rename_i heq <;> rw [lookUpImpOrNilTryCache] at heq <;> rw [heq] at hkept <;>
   exact hkept
 | getInstanceMethod=>exact hR.lookUpImpOrForward _ h
 | msgSend=>
  rw [Query.apply,MethodLookup.msgSend]
  split
  · exact h
  · exact hR.lookUpImpOrForward _ h

def onClass : ℕ → (Chain preopt → Chain preopt) → Chain preopt → Chain preopt
 | 0,f,chain=>f chain
 | _+1,_,[]=>[]
 | i+1,f,c::rest=>c::onClass i f rest

def loadCache (sel:Sel) : Chain preopt → Chain preopt
 | []=>[]
 | c::rest=>(lookupMethodInClassAndLoadCache sel c).2::rest

def flushCache : Chain preopt → Chain preopt
 | []=>[]
 | c::rest=>{c with cache:=c.cache.erase} :: rest

/-- What can happen to the caches of the chain; `i` is the class it happens to. -/
inductive Op where
 | query (q:Query) (i:ℕ) (sel:Sel)
 | loadCache (i:ℕ) (sel:Sel)
 | flushCache (i:ℕ)

def Op.apply (op:Op) (chain:Chain preopt) : Chain preopt :=
 match op with
 | .query q i sel=>onClass i (q.apply sel) chain
 | .loadCache i sel=>onClass i (MethodLookup.loadCache sel) chain
 | .flushCache i=>onClass i MethodLookup.flushCache chain

def run (ops:List Op) (chain:Chain preopt) : Chain preopt :=
 ops.foldl (fun chain op=>op.apply chain) chain

def Op.Sound (P:List ClassData → Sel → Imp → Prop) (preopt:Bool) (ds:List ClassData) : Op → Prop
 | .query _ i sel=>MethodLookup.Sound P preopt sel (ds.drop i)
 | .loadCache i sel=>∀d rest,ds.drop i=d::rest → P (d::rest) sel (d.ownImp sel)
 | .flushCache _=>True

section Runs

variable {P:List ClassData → Sel → Imp → Prop}

theorem data_cons (c:Cls preopt) (rest:Chain preopt) :
 data (c::rest)=c.toClassData::data rest := rfl

variable {chain:Chain preopt}

theorem onClass_holding {f:Chain preopt → Chain preopt} {i:ℕ}
 (hf:∀chain,Holding P (ds.drop i) chain → Holding P (ds.drop i) (f chain))
 (h:Holding P ds chain) : Holding P ds (onClass i f chain) := by
 induction i generalizing ds chain with
 | zero=>exact hf chain h
 | succ i ih=>
  cases chain with
  | nil=>exact h
  | cons c rest=>
   obtain ⟨hentries,rfl⟩:=h
   obtain ⟨hrest,hdata⟩:=@ih (data rest) rest hf ⟨hentries.2,rfl⟩
   refine ⟨⟨fun sel imp hhit=>?_,hrest⟩,?_⟩
   · rw [data_cons,hdata]
     exact hentries.1 sel imp hhit
   · rw [onClass,data_cons,hdata,data_cons]

theorem Entries.drop (h:Entries P chain) (i:ℕ) : Entries P (chain.drop i) := by
 induction i generalizing chain with
 | zero=>exact h
 | succ i ih=>
  cases chain with
  | nil=>exact h
  | cons c rest=>exact ih h.2

theorem lookupMethodInClass_eq (sel:Sel) (c:Cls preopt) : lookupMethodInClassAndLoadCache sel c =
  match c.cache.getImp sel with
  | some imp=>(imp,c)
  | none=>(c.ownImp sel,c.fill sel (c.ownImp sel)) := by
 grind [lookupMethodInClassAndLoadCache,ClassData.ownImp]

theorem loadCache_holding {sel:Sel}
 (hown:∀d rest,ds=d::rest → P (d::rest) sel (d.ownImp sel)) (h:Holding P ds chain) :
 Holding P ds (loadCache sel chain) := by
 cases chain with
 | nil=>exact h
 | cons c rest=>
  obtain ⟨hentries,rfl⟩:=h
  rw [loadCache,lookupMethodInClass_eq]
  split
  · exact ⟨hentries,rfl⟩
  · exact ⟨hentries.fill (hown _ _ rfl),by rw [data_cons,Cls.toClassData_fill,data_cons]⟩

theorem flushCache_holding (h:Holding P ds chain) : Holding P ds (flushCache chain) := by
 cases chain with
 | nil=>exact h
 | cons c rest=>
  obtain ⟨hentries,rfl⟩:=h
  refine ⟨⟨fun sel imp hhit=>?_,hentries.2⟩,rfl⟩
  rw [Cache.getImp_erase] at hhit
  cases hhit

theorem Op.apply_holding {op:Op} (hop:op.Sound P preopt ds) (h:Holding P ds chain) :
 Holding P ds (op.apply chain) := by
 cases op with
 | query q i sel=>exact onClass_holding (fun _ hc=>hop.closed.query q hc) h
 | loadCache i sel=>exact onClass_holding (fun _ hc=>loadCache_holding hop hc) h
 | flushCache i=>exact onClass_holding (fun _ hc=>flushCache_holding hc) h

theorem run_holding {ops:List Op} (hops:∀op∈ops,op.Sound P preopt ds) (h:Holding P ds chain) :
 Holding P ds (run ops chain) := by
 induction ops generalizing chain with
 | nil=>exact h
 | cons op ops ih=>
  exact ih (fun o ho=>hops o (List.mem_cons_of_mem _ ho))
   (Op.apply_holding (hops op List.mem_cons_self) h)

def Fresh (chain:Chain preopt) : Prop := ∀c∈chain,c.cache=Cache.empty

theorem Fresh.holding (h:Fresh chain) : Holding P (data chain) chain := by
 refine ⟨?_,rfl⟩
 induction chain with
 | nil=>trivial
 | cons c rest ih=>
  refine ⟨fun sel imp hhit=>?_,ih fun d hd=>h d (List.mem_cons_of_mem _ hd)⟩
  rw [h c List.mem_cons_self,Cache.getImp_empty] at hhit
  cases hhit

end Runs

end ObjcRuntime.MethodLookup
