import ObjcRuntime.MethodLookup

/-!
# C++ structors

The structors are looked up class by class, in the caches that ordinary lookups fill too.
-/

set_option autoImplicit false
namespace ObjcRuntime.CxxStructors

open MethodLookup

structure Selectors where
 cxxConstruct : Sel
 cxxDestruct : Sel

def Selectors.Structor (S:Selectors) (sel:Sel) : Prop :=
 sel=S.cxxConstruct ∨ sel=S.cxxDestruct

variable {preopt:Bool}

/-- The destructors called from the `i`th class up, and the caches after; `during` is what a
structor does to the caches while it runs. -/
def objectCxxDestructFromClass (S:Selectors) (during:Imp → List Op) :
 (todo i:ℕ) → Chain preopt → List Imp × Chain preopt
 | 0,_,chain=>([],chain)
 | todo+1,i,chain=>
  match chain[i]? with
  | none=>([],chain)
  | some c=>
   if c.hasCxxDtor then
    let dtor:=(lookupMethodInClassAndLoadCache S.cxxDestruct c).1
    let loaded:=(Op.loadCache i S.cxxDestruct).apply chain
    if dtor≠msgForwardImpcache then
     let rest:=objectCxxDestructFromClass S during todo (i+1) (run (during dtor) loaded)
     (dtor::rest.1,rest.2)
    else objectCxxDestructFromClass S during todo (i+1) loaded
   else ([],chain)

def objectCxxDestruct (S:Selectors) (during:Imp → List Op) (chain:Chain preopt) :
 List Imp × Chain preopt :=
 objectCxxDestructFromClass S during chain.length 0 chain

/-- What happens to the object; `callBadAllocHandler` has the position of the class. -/
inductive Event where
 | construct (ctor:Imp)
 | destruct (dtor:Imp)
 | free
 | callBadAllocHandler (cls:ℕ)
 deriving DecidableEq

/-- One construction. `succeeds` says which constructors return the object, `during` what a structor
does to the caches; the handler's answer may depend on what happened before. An `id` is a number,
nil is zero. -/
structure Construction where
 obj : ℕ
 ne_nil : obj≠0
 freeOnFailure : Bool
 callBadAlloc : Bool
 badAllocHandler : List Event → ℕ → ℕ
 succeeds : Imp → Bool
 during : Imp → List Op

def Event.constructor : Event → Option Imp
 | .construct ctor=>some ctor
 | _=>none

structure Outcome (preopt:Bool) where
 log : List Event
 result : ℕ
 chain : Chain preopt

def Outcome.called (out:Outcome preopt) : List Imp := out.log.filterMap Event.constructor

section Construct

variable (S:Selectors) (K:Construction)

def fail (i:ℕ) (log:List Event) (chain:Chain preopt) : Outcome preopt :=
 let undone:=objectCxxDestructFromClass S K.during chain.length (i+1) chain
 let destroyed:=log++undone.1.map .destruct
 let freed:=if K.freeOnFailure then destroyed++[.free] else destroyed
 if K.callBadAlloc then
  ⟨freed++[.callBadAllocHandler i],K.badAllocHandler freed i,undone.2⟩
 else ⟨freed,0,undone.2⟩

def constructOwn (i:ℕ) (built:Outcome preopt) : Outcome preopt :=
 match built.chain[i]? with
 | none=>{built with result:=K.obj}
 | some c=>
  let ctor:=(lookupMethodInClassAndLoadCache S.cxxConstruct c).1
  let loaded:=(Op.loadCache i S.cxxConstruct).apply built.chain
  if ctor=msgForwardImpcache then ⟨built.log,K.obj,loaded⟩
  else
   let log:=built.log++[.construct ctor]
   let after:=run (K.during ctor) loaded
   if K.succeeds ctor then ⟨log,K.obj,after⟩ else fail S K i log after

/-- `object_cxxConstructFromClass` of the `i`th class; the result of the call for the superclass is
read as a `bool`. -/
def objectCxxConstructFromClass : (todo i:ℕ) → Chain preopt → Outcome preopt
 | 0,_,chain=>⟨[],K.obj,chain⟩
 | todo+1,i,chain=>
  if chain[i+1]?.any (·.hasCxxCtor) then
   let built:=objectCxxConstructFromClass todo (i+1) chain
   if built.result=0 then {built with result:=0} else constructOwn S K i built
  else constructOwn S K i ⟨[],K.obj,chain⟩

end Construct

def OwnOnly (S:Selectors) (ds:List ClassData) (sel:Sel) (imp:Imp) : Prop :=
 S.Structor sel → ∀d∈ds.head?,imp=d.ownImp sel

/-- No structor is looked up, by a lookup that searches superclasses, in a class that inherits it
without defining it. -/
def Allowed (S:Selectors) (ds:List ClassData) : Op → Prop
 | .query _ i sel=>S.Structor sel →
  (∃d,ds[i]?=some d ∧ d.own sel≠none) ∨ implementation sel (ds.drop i)=none
 | _=>True

/-- A class that defines the structor has the flag, and so do its subclasses. -/
def Flagged (flag:ClassData → Bool) (sel:Sel) : List ClassData → Prop
 | []=>True
 | d::rest=>(d.own sel≠none ∨ (∃e∈rest,flag e) → flag d) ∧ Flagged flag sel rest

def structors (sel:Sel) (ds:List ClassData) : List Imp :=
 ds.filterMap fun d=>(d.own sel).map Subtype.val

theorem ownImp_eq_forward {d:ClassData} {sel:Sel} :
 d.ownImp sel=msgForwardImpcache ↔ d.own sel=none := by grind [ClassData.ownImp]

theorem own_none_of_implementation {sel:Sel} {ds:List ClassData}
 (h:implementation sel ds=none) : ∀d∈ds,d.own sel=none := by
 induction ds with
 | nil=>simp
 | cons e rest ih=>grind [implementation]

variable {S:Selectors}

theorem agrees_of_none {sel:Sel} (hS:S.Structor sel) {chain:Chain preopt}
 (h:Entries (OwnOnly S) chain) (hnone:implementation sel (data chain)=none) :
 Agrees sel chain := by
 induction chain with
 | nil=>trivial
 | cons c rest ih=>
  have hown:=own_none_of_implementation hnone c.toClassData List.mem_cons_self
  have hrest:implementation sel (data rest)=none:=by
   rw [data_cons,implementation,hown] at hnone
   exact hnone
  refine ⟨fun imp hhit=>?_,fun _=>ih h.2 hrest⟩
  rw [resolved_eq_forward.mpr hnone,←ownImp_eq_forward.mpr hown]
  exact h.1 sel imp hhit hS _ rfl

theorem agrees_of_own {sel:Sel} (hS:S.Structor sel) {c:Cls preopt} {rest:Chain preopt}
 (h:Entries (OwnOnly S) (c::rest)) (hown:c.own sel≠none) : Agrees sel (c::rest) := by
 refine ⟨fun imp hhit=>?_,fun hnone=>absurd hnone hown⟩
 rw [h.1 sel imp hhit hS _ rfl,resolved,data_cons,implementation,ClassData.ownImp]
 grind

theorem sound_of_allowed {ds:List ClassData} {op:Op} (h:Allowed S ds op) :
 op.Sound (OwnOnly S) preopt ds := by
 cases op with
 | query q i sel=>
  rintro (_|⟨c,rest⟩) ⟨hentries,hdata⟩ hne
  · exact absurd rfl hne
  intro hS d hd
  have hhead:d=c.toClassData:=by grind [data_cons]
  subst hhead
  rcases h hS with ⟨e,he,hown⟩|hnone
  · have hec:e=c.toClassData:=by simp_all
    subst hec
    rw [(agrees_of_own hS hentries hown).found_eq,resolved,data_cons,implementation,
     ClassData.ownImp]
    grind
  · rw [←hdata] at hnone
    rw [(agrees_of_none hS hentries hnone).found_eq,resolved_eq_forward.mpr hnone,
     ownImp_eq_forward.mpr (own_none_of_implementation hnone _ List.mem_cons_self)]
 | loadCache i sel=>
  intro d rest _ _ e he
  cases he
  rfl
 | flushCache i=>trivial

section Calls

variable {ds:List ClassData} {chain:Chain preopt} {i:ℕ} {c:Cls preopt}

theorem drop_of_get {α:Type} {l:List α} {i:ℕ} {a:α} (h:l[i]?=some a) :
 l.drop i=a::l.drop (i+1) := by grind [List.drop_eq_getElem_cons]

theorem data_get (h:Holding (OwnOnly S) ds chain) (hc:chain[i]?=some c) :
 ds[i]?=some c.toClassData := by
 rw [←h.2,data,List.getElem?_map,hc,Option.map_some]

theorem lookup_own (h:Holding (OwnOnly S) ds chain) (hc:chain[i]?=some c) {sel:Sel}
 (hS:S.Structor sel) : (lookupMethodInClassAndLoadCache sel c).1=c.ownImp sel := by
 rw [lookupMethodInClass_eq]
 split
 · case h_1 imp hhit =>
   have hentries:=h.1.drop i
   rw [drop_of_get hc] at hentries
   exact hentries.1 sel imp hhit hS _ rfl
 · rfl

theorem holding_loadCache (h:Holding (OwnOnly S) ds chain) (sel:Sel) :
 Holding (OwnOnly S) ds ((Op.loadCache i sel).apply chain) := by
 grind [Allowed,Op.apply_holding,sound_of_allowed]

theorem holding_run {ops:List Op} (hops:∀op∈ops,Allowed S ds op)
 (h:Holding (OwnOnly S) ds chain) : Holding (OwnOnly S) ds (run ops chain) :=
 run_holding (fun op hop=>sound_of_allowed (hops op hop)) h

section Flags

variable {flag:ClassData → Bool} {sel:Sel}

theorem Flagged.drop (h:Flagged flag sel ds) (i:ℕ) : Flagged flag sel (ds.drop i) := by
 induction i generalizing ds with
 | zero=>exact h
 | succ i ih=>
  cases ds with
  | nil=>exact h
  | cons d rest=>exact ih h.2

theorem Flagged.structors_eq_nil {d:ClassData} {rest:List ClassData}
 (h:Flagged flag sel (d::rest)) (hd:flag d=false) : structors sel (d::rest)=[] := by
 induction rest generalizing d with
 | nil=>
  have hown:d.own sel=none:=by
   by_contra hne
   simp [h.1 (.inl hne)] at hd
  simp [structors,hown]
 | cons e rest ih=>
  have hown:d.own sel=none:=by
   by_contra hne
   simp [h.1 (.inl hne)] at hd
  have he:flag e=false:=by
   by_contra hne
   simp [h.1 (.inr ⟨e,List.mem_cons_self,by simpa using hne⟩)] at hd
  rw [structors,List.filterMap_cons,hown,Option.map_none]
  exact ih h.2 he

end Flags

theorem structors_cons (sel:Sel) (d:ClassData) (rest:List ClassData) : structors sel (d::rest) =
  if d.ownImp sel=msgForwardImpcache then structors sel rest
  else d.ownImp sel::structors sel rest := by
 rw [structors,List.filterMap_cons]
 cases hown : d.own sel with
 | none=>rw [if_pos (ownImp_eq_forward.mpr hown)]; rfl
 | some imp=>
  rw [if_neg fun h=>by simp [ownImp_eq_forward.mp h] at hown,ClassData.ownImp,hown]
  rfl

theorem structors_drop_suffix (sel:Sel) (ds:List ClassData) (i:ℕ) :
 structors sel (ds.drop (i+1)) <:+ structors sel (ds.drop i) := by
 have hdrop:ds.drop (i+1) <:+ ds.drop i:=by
  rw [←List.drop_drop]
  exact List.drop_suffix 1 _
 exact hdrop.filterMap _

variable {during:Imp → List Op}

theorem objectCxxDestructFromClass_spec (hduring:∀imp,∀op∈during imp,Allowed S ds op)
 (hflag:Flagged (·.hasCxxDtor) S.cxxDestruct ds) {todo i:ℕ} (htodo:ds.length ≤ i+todo)
 (h:Holding (OwnOnly S) ds chain) :
 (objectCxxDestructFromClass S during todo i chain).1=structors S.cxxDestruct (ds.drop i) ∧
  Holding (OwnOnly S) ds (objectCxxDestructFromClass S during todo i chain).2 := by
 induction todo generalizing i chain with
 | zero=>
  rw [List.drop_of_length_le (i:=i) htodo]
  exact ⟨rfl,h⟩
 | succ todo ih=>
  rw [objectCxxDestructFromClass]
  cases hc : chain[i]? with
  | none=>
   have hlen:ds.length ≤ i:=by
    rw [←h.2,data,List.length_map]
    exact List.getElem?_eq_none_iff.mp hc
   rw [List.drop_of_length_le hlen]
   exact ⟨rfl,h⟩
  | some c=>
   have hdrop:=drop_of_get (data_get h hc)
   dsimp only
   split
   · rw [lookup_own h hc (.inr rfl),hdrop,structors_cons]
     grind [holding_loadCache,holding_run]
   · case isFalse hflagged =>
     have hrest:=hflag.drop i
     rw [hdrop] at hrest ⊢
     rw [hrest.structors_eq_nil (by simpa using hflagged)]
     exact ⟨rfl,h⟩

variable {K:Construction} {built:Outcome preopt}

theorem fail_holding (hduring:∀imp,∀op∈K.during imp,Allowed S ds op)
 (hdtor:Flagged (·.hasCxxDtor) S.cxxDestruct ds) (h:Holding (OwnOnly S) ds chain)
 (log:List Event) : Holding (OwnOnly S) ds (fail S K i log chain).chain := by
 have hlen:=congrArg List.length h.2
 rw [data,List.length_map] at hlen
 obtain ⟨-,hkept⟩:=objectCxxDestructFromClass_spec hduring hdtor
  (show ds.length ≤ i+1+chain.length by omega) h
 grind [fail]

theorem fail_called (log:List Event) (chain:Chain preopt) :
 (fail S K i log chain).called=log.filterMap Event.constructor := by
 have hdtors:∀dtors:List Imp,(dtors.map Event.destruct).filterMap Event.constructor=[]:=by
  intro dtors
  simp [List.filterMap_map,Function.comp_def,Event.constructor]
 unfold fail Outcome.called
 split_ifs <;> simp [hdtors,Event.constructor]

theorem constructOwn_spec (hduring:∀imp,∀op∈K.during imp,Allowed S ds op)
 (h:Holding (OwnOnly S) ds built.chain) {d:ClassData} (hd:ds[i]?=some d) :
 (d.ownImp S.cxxConstruct=msgForwardImpcache → ∃after,Holding (OwnOnly S) ds after ∧
  constructOwn S K i built=⟨built.log,K.obj,after⟩) ∧
 (d.ownImp S.cxxConstruct≠msgForwardImpcache → ∃after,Holding (OwnOnly S) ds after ∧
  constructOwn S K i built=if K.succeeds (d.ownImp S.cxxConstruct) then
   ⟨built.log++[.construct (d.ownImp S.cxxConstruct)],K.obj,after⟩
  else fail S K i (built.log++[.construct (d.ownImp S.cxxConstruct)]) after) := by
 have hlen:=congrArg List.length h.2
 rw [data,List.length_map] at hlen
 obtain ⟨hi,-⟩:=List.getElem?_eq_some_iff.mp hd
 have hc:built.chain[i]?=some built.chain[i]:=List.getElem?_eq_getElem (hlen ▸ hi)
 have hdata:=data_get h hc
 obtain rfl : d=built.chain[i].toClassData:=Option.some.inj (hd.symm.trans hdata)
 have hlookup:=lookup_own h hc (.inl rfl)
 grind [holding_loadCache,constructOwn,holding_run]

theorem structors_of_get {d:ClassData} (hd:ds[i]?=some d) (sel:Sel) :
 structors sel (ds.drop i)=if d.ownImp sel=msgForwardImpcache then
  structors sel (ds.drop (i+1))
  else d.ownImp sel::structors sel (ds.drop (i+1)) := by
 rw [drop_of_get hd,structors_cons]

theorem hasCxxCtor_of_structors (h:Holding (OwnOnly S) ds chain)
 (hctor:Flagged (·.hasCxxCtor) S.cxxConstruct ds)
 (hne:structors S.cxxConstruct (ds.drop i)≠[]) : chain[i]?.any (·.hasCxxCtor)=true := by
 cases hc : chain[i]? with
 | none=>
  refine absurd ?_ hne
  rw [←h.2,data,←List.map_drop,List.drop_eq_nil_of_le (List.getElem?_eq_none_iff.mp hc)]
  rfl
 | some c=>
  have hrest:=hctor.drop i
  rw [drop_of_get (data_get h hc)] at hrest hne
  by_contra hflag
  exact hne (hrest.structors_eq_nil (by simpa using hflag))

/-- What the call for the `i`th class leaves. Unless a constructor failed, the log is the calls of
the classes' own constructors and nothing else. -/
structure Constructed (S:Selectors) (K:Construction) (ds:List ClassData) (i:ℕ)
 (built:Outcome preopt) : Prop where
 called : built.called <+: (structors S.cxxConstruct (ds.drop i)).reverse
 returned : built.result≠0 → built.called=(structors S.cxxConstruct (ds.drop i)).reverse
 succeeded : (∀ctor∈structors S.cxxConstruct (ds.drop i),K.succeeds ctor) →
  built.log=(structors S.cxxConstruct (ds.drop i)).reverse.map .construct ∧ built.result=K.obj
 holding : Holding (OwnOnly S) ds built.chain

theorem constructed_nil (h:Holding (OwnOnly S) ds chain)
 (hnone:structors S.cxxConstruct (ds.drop i)=[]) : Constructed S K ds i ⟨[],K.obj,chain⟩ where
 called := List.nil_prefix
 returned _ := by rw [hnone]; rfl
 succeeded _ := ⟨by rw [hnone]; rfl,rfl⟩
 holding := h

theorem Constructed.none_added (h:Constructed S K ds (i+1) built) (hok:built.result≠0)
 (hsame:structors S.cxxConstruct (ds.drop i)=structors S.cxxConstruct (ds.drop (i+1)))
 {after:Chain preopt} (hafter:Holding (OwnOnly S) ds after) :
 Constructed S K ds i ⟨built.log,K.obj,after⟩ where
 called := hsame ▸ h.called
 returned _ := hsame ▸ h.returned hok
 succeeded hall := ⟨hsame ▸ (h.succeeded (hsame ▸ hall)).1,rfl⟩
 holding := hafter

theorem Constructed.constructOwn (hduring:∀imp,∀op∈K.during imp,Allowed S ds op)
 (hdtor:Flagged (·.hasCxxDtor) S.cxxDestruct ds) (h:Constructed S K ds (i+1) built)
 (hok:built.result≠0) : Constructed S K ds i (constructOwn S K i built) := by
 have hlen:built.chain.length=ds.length:=by rw [←h.holding.2,data,List.length_map]
 cases hd : ds[i]? with
 | none=>
  have hle:=List.getElem?_eq_none_iff.mp hd
  have hdrop:ds.drop i=ds.drop (i+1):=by
   rw [List.drop_of_length_le hle,List.drop_of_length_le (by omega)]
  rw [CxxStructors.constructOwn,List.getElem?_eq_none_iff.mpr (hlen.trans_le hle)]
  exact h.none_added hok (by rw [hdrop]) h.holding
 | some d=>
  obtain ⟨hforward,hown⟩:=constructOwn_spec hduring h.holding hd
  have hctors:=structors_of_get hd S.cxxConstruct
  by_cases himp : d.ownImp S.cxxConstruct=msgForwardImpcache
  · obtain ⟨after,hafter,heq⟩:=hforward himp
    rw [heq]
    exact h.none_added hok (by rw [hctors,if_pos himp]) hafter
  · obtain ⟨after,hafter,heq⟩:=hown himp
    rw [if_neg himp] at hctors
    -- whether it succeeds or not, the class's own constructor is the last called
    have hcalled:(built.log++[Event.construct (d.ownImp S.cxxConstruct)]).filterMap
     Event.constructor=(structors S.cxxConstruct (ds.drop i)).reverse := by
     rw [List.filterMap_append,hctors,List.reverse_cons,←h.returned hok]
     rfl
    rw [heq]
    split
    next=>
     refine ⟨hcalled ▸ List.prefix_rfl,fun _=>hcalled,fun hall=>⟨?_,rfl⟩,hafter⟩
     have hrest:=(h.succeeded fun ctor hmem=>hall ctor (hctors ▸ List.mem_cons_of_mem _ hmem)).1
     rw [hctors,List.reverse_cons,List.map_append,←hrest]
     rfl
    next hfailed=>
     rw [←fail_called (S:=S) (K:=K) (i:=i) _ after] at hcalled
     refine ⟨hcalled ▸ List.prefix_rfl,fun _=>hcalled,fun hall=>?_,
      fail_holding hduring hdtor hafter _⟩
     exact absurd (hall _ (hctors ▸ List.mem_cons_self)) hfailed

theorem objectCxxConstructFromClass_spec (hduring:∀imp,∀op∈K.during imp,Allowed S ds op)
 (hctor:Flagged (·.hasCxxCtor) S.cxxConstruct ds)
 (hdtor:Flagged (·.hasCxxDtor) S.cxxDestruct ds) {todo i:ℕ} (htodo:ds.length ≤ i+todo)
 (h:Holding (OwnOnly S) ds chain) :
 Constructed S K ds i (objectCxxConstructFromClass S K todo i chain) := by
 induction todo generalizing i with
 | zero=>exact constructed_nil h (by rw [List.drop_of_length_le (i:=i) htodo]; rfl)
 | succ todo ih=>
  rw [objectCxxConstructFromClass]
  split
  next=>
   have hbuilt:=ih (i:=i+1) (by omega)
   dsimp only
   split
   next hnil=>
    -- a superclass's constructor failed, so the class's own is not called
    have hsuffix:=structors_drop_suffix S.cxxConstruct ds i
    refine ⟨hbuilt.called.trans (List.reverse_prefix.mpr hsuffix),fun hne=>absurd rfl hne,
     fun hall=>absurd hnil ?_,hbuilt.holding⟩
    exact (hbuilt.succeeded fun ctor hmem=>hall ctor (hsuffix.mem hmem)).2.trans_ne K.ne_nil
   next hok=>exact hbuilt.constructOwn hduring hdtor hok
  next hflag=>
   refine (constructed_nil h ?_).constructOwn hduring hdtor K.ne_nil
   by_contra hne
   exact hflag (hasCxxCtor_of_structors h hctor hne)

end Calls

/-- After any run of lookups that never search a superclass for a structor the class inherits
without defining it, each class's structor lookup gives its own method: destruction calls every
class's own destructor once, subclass first, and construction its constructor once, superclass
first, up to the first that fails. -/
theorem structors_run_once (chain:Chain preopt) (hfresh:Fresh chain)
 (hctor:Flagged (·.hasCxxCtor) S.cxxConstruct (data chain))
 (hdtor:Flagged (·.hasCxxDtor) S.cxxDestruct (data chain)) (ops:List Op)
 (hops:∀op∈ops,Allowed S (data chain) op) (K:Construction)
 (hduring:∀imp,∀op∈K.during imp,Allowed S (data chain) op) :
 (∀(i:ℕ) (c:Cls preopt) (sel:Sel),(run ops chain)[i]?=some c → S.Structor sel →
  (lookupMethodInClassAndLoadCache sel c).1=c.ownImp sel) ∧
 (objectCxxDestruct S K.during (run ops chain)).1=structors S.cxxDestruct (data chain) ∧
 ∀i:ℕ,(objectCxxConstructFromClass S K chain.length i (run ops chain)).called <+:
   (structors S.cxxConstruct ((data chain).drop i)).reverse ∧
  ((∀ctor∈structors S.cxxConstruct ((data chain).drop i),K.succeeds ctor) →
   (objectCxxConstructFromClass S K chain.length i (run ops chain)).log =
     (structors S.cxxConstruct ((data chain).drop i)).reverse.map .construct ∧
   (objectCxxConstructFromClass S K chain.length i (run ops chain)).result=K.obj) := by
 have hrun:=holding_run hops (hfresh.holding (P:=OwnOnly S))
 have hlen:(data chain).length=chain.length:=List.length_map _
 have hlen':(run ops chain).length=chain.length:=by
  rw [←hlen,←hrun.2,data,List.length_map]
 refine ⟨fun i c sel hc hS=>lookup_own hrun hc hS,?_,fun i=>?_⟩
 · exact (objectCxxDestructFromClass_spec hduring hdtor (by omega) hrun).1
 · have hbuilt:Constructed S K (data chain) i
    (objectCxxConstructFromClass S K chain.length i (run ops chain)) :=
    objectCxxConstructFromClass_spec hduring hctor hdtor (by omega) hrun
   exact ⟨hbuilt.called,hbuilt.succeeded⟩

section Witness

def cxxSelectors : Selectors := ⟨⟨44,by decide⟩,⟨52,by decide⟩⟩

def baseDtor : MethodImp := ⟨100,by decide⟩

def classWith (dtor:Option MethodImp) : Cls false where
 own sel := if sel=cxxSelectors.cxxDestruct then dtor else none
 isMetaClass := false
 hasCxxCtor := false
 hasCxxDtor := true
 resolvesClass := false
 resolvesInstance := false
 isInitialized := true
 cache := Cache.empty

def noConstructor : Construction where
 obj := 4016
 ne_nil := by decide
 freeOnFailure := true
 callBadAlloc := true
 badAllocHandler _ _ := 0
 succeeds _ := true
 during _ := []

end Witness

theorem inherited_destructor_runs_once : (objectCxxDestruct cxxSelectors (fun _=>[])
  (run [.query .respondsToSelector 1 cxxSelectors.cxxDestruct,.query .msgSend 0 ⟨24,by decide⟩]
   [classWith none,classWith (some baseDtor)])).1=[100] := by
 have hflag:∀(flag:ClassData → Bool) (sel:Sel),
  (∀dtor,(classWith dtor).own sel≠none → flag (classWith dtor).toClassData) →
  (flag (classWith (some baseDtor)).toClassData → flag (classWith none).toClassData) →
  Flagged flag sel (data [classWith none,classWith (some baseDtor)]) := by
  intro flag sel hown hsub
  refine ⟨?_,?_,trivial⟩
  · rintro (h|⟨e,he,h⟩)
    · exact hown _ h
    · rw [List.mem_singleton.mp he] at h
      exact hsub h
  · rintro (h|⟨e,he,-⟩)
    · exact hown _ h
    · cases he
 have hctor:∀dtor,(classWith dtor).own cxxSelectors.cxxConstruct=none:=by
  intro dtor
  rfl
 refine (structors_run_once [classWith none,classWith (some baseDtor)] ?_
  (hflag _ _ (fun dtor h=>absurd (hctor dtor) h) id) (hflag _ _ (fun _ _=>rfl) id) _ ?_
  noConstructor (fun _ _ h=>absurd h List.not_mem_nil)).2.1
 · intro c hc
   rcases List.mem_pair.mp hc with rfl|rfl <;> rfl
 · intro op hop
   rcases List.mem_pair.mp hop with rfl|rfl
   · exact fun _=>.inl ⟨_,rfl,by decide⟩
   · rintro (h|h) <;> exact absurd h (by decide)

/-- A subclass without a destructor of its own is asked whether it responds to `.cxx_destruct`: the
inherited destructor then runs twice. -/
theorem inherited_destructor_runs_twice : (objectCxxDestruct cxxSelectors (fun _=>[])
  (run [.query .respondsToSelector 0 cxxSelectors.cxxDestruct]
   [classWith none,classWith (some baseDtor)])).1=[100,100] ∧
 structors cxxSelectors.cxxDestruct (data [classWith none,classWith (some baseDtor)]) =
  [100] := by
 refine ⟨?_,rfl⟩
 rfl

end ObjcRuntime.CxxStructors
