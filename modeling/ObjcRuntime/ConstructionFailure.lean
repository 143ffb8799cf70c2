import ObjcRuntime.CxxStructors

/-!
# When a C++ constructor fails

The class whose constructor fails destroys what its superclasses have constructed, frees the object
and asks the bad-alloc handler; the calls for its subclasses see only whether the result is nil.
-/
set_option autoImplicit false
namespace ObjcRuntime.ConstructionFailure
open MethodLookup CxxStructors

variable {preopt:Bool} (S:Selectors) (K:Construction)

/-- The constructor of the `k`th class fails, after those of its superclasses have succeeded. -/
structure FirstFailure (ds:List ClassData) (k:ℕ) : Prop where
 defined : k < ds.length
 fails : ∃d,ds[k]?=some d ∧ d.ownImp S.cxxConstruct≠msgForwardImpcache ∧
  K.succeeds (d.ownImp S.cxxConstruct)=false
 before : ∀ctor∈structors S.cxxConstruct (ds.drop (k+1)),K.succeeds ctor=true

/-- Construction up to the `k`th class, destruction of its superclasses from the most derived one,
and the object freed. -/
def cleanupLog (ds:List ClassData) (k:ℕ) : List Event :=
 (structors S.cxxConstruct (ds.drop k)).reverse.map .construct ++
  (structors S.cxxDestruct (ds.drop (k+1))).map .destruct ++
  if K.freeOnFailure then [.free] else []

def handlerResult (ds:List ClassData) (k:ℕ) : ℕ :=
 if K.callBadAlloc then K.badAllocHandler (cleanupLog S K ds k) k else 0

def failureLog (ds:List ClassData) (k:ℕ) : List Event :=
 cleanupLog S K ds k++if K.callBadAlloc then [.callBadAllocHandler k] else []

/-- No constructor is called after the failure, the superclasses' destructors run once, the object
is freed once, and the handler is asked once and its result returned. -/
structure CleanedUp (ds:List ClassData) (k:ℕ) (out:Outcome preopt) : Prop where
 log : out.log=failureLog S K ds k
 result : out.result=handlerResult S K ds k

variable {built:Outcome preopt} {todo:ℕ}

section Calls

variable {S:Selectors} {K:Construction} {ds:List ClassData} {chain:Chain preopt} {i k:ℕ}

theorem fail_spec (hduring:∀imp,∀op∈K.during imp,Allowed S ds op)
 (hdtor:Flagged (·.hasCxxDtor) S.cxxDestruct ds) (h:Holding (OwnOnly S) ds chain)
 {log:List Event} (hlog:log=(structors S.cxxConstruct (ds.drop i)).reverse.map .construct) :
 CleanedUp S K ds i (fail S K i log chain) := by
 have hlen:=congrArg List.length h.2
 rw [data,List.length_map] at hlen
 obtain ⟨hundone,-⟩:=objectCxxDestructFromClass_spec hduring hdtor
  (show ds.length ≤ i+1+chain.length by omega) h
 have hfreed:(if K.freeOnFailure then
  log++(structors S.cxxDestruct (ds.drop (i+1))).map .destruct++[.free]
  else log++(structors S.cxxDestruct (ds.drop (i+1))).map .destruct) =
   cleanupLog S K ds i := by grind [cleanupLog]
 unfold fail
 simp only [hundone,hfreed]
 by_cases hcall : K.callBadAlloc=true
 · rw [if_pos hcall]
   constructor
   · rw [failureLog,if_pos hcall]
   · rw [handlerResult,if_pos hcall]
 · rw [if_neg hcall]
   constructor
   · rw [failureLog,if_neg hcall,List.append_nil]
   · rw [handlerResult,if_neg hcall]

theorem construct_succ (h:Holding (OwnOnly S) ds chain)
 (hctor:Flagged (·.hasCxxCtor) S.cxxConstruct ds)
 (hne:structors S.cxxConstruct (ds.drop (i+1))≠[]) (todo:ℕ) :
 objectCxxConstructFromClass S K (todo+1) i chain =
  if (objectCxxConstructFromClass S K todo (i+1) chain).result=0 then
   {objectCxxConstructFromClass S K todo (i+1) chain with result:=0}
  else constructOwn S K i (objectCxxConstructFromClass S K todo (i+1) chain) := by
 rw [objectCxxConstructFromClass,if_pos (hasCxxCtor_of_structors h hctor hne)]

theorem construct_supers (h:Holding (OwnOnly S) ds chain)
 (hctor:Flagged (·.hasCxxCtor) S.cxxConstruct ds)
 (hsuper:Constructed S K ds (i+1) (objectCxxConstructFromClass S K todo (i+1) chain))
 (hall:∀ctor∈structors S.cxxConstruct (ds.drop (i+1)),K.succeeds ctor=true) :
 ∃built : Outcome preopt,Holding (OwnOnly S) ds built.chain ∧
  built.log=(structors S.cxxConstruct (ds.drop (i+1))).reverse.map .construct ∧
  objectCxxConstructFromClass S K (todo+1) i chain=constructOwn S K i built := by
 obtain ⟨hlog,hresult⟩:=hsuper.succeeded hall
 by_cases hflag : chain[i+1]?.any (·.hasCxxCtor)=true
 · refine ⟨_,hsuper.holding,hlog,?_⟩
   rw [objectCxxConstructFromClass,if_pos hflag]
   exact if_neg (hresult.trans_ne K.ne_nil)
 · have hnone:structors S.cxxConstruct (ds.drop (i+1))=[]:=by
    by_contra hne
    exact hflag (hasCxxCtor_of_structors h hctor hne)
   refine ⟨⟨[],K.obj,chain⟩,h,by rw [hnone]; rfl,?_⟩
   rw [objectCxxConstructFromClass,if_neg hflag]

theorem construct_fails (hduring:∀imp,∀op∈K.during imp,Allowed S ds op)
 (hctor:Flagged (·.hasCxxCtor) S.cxxConstruct ds)
 (hdtor:Flagged (·.hasCxxDtor) S.cxxDestruct ds) (hf:FirstFailure S K ds k)
 (htodo:ds.length ≤ k+1+todo) (h:Holding (OwnOnly S) ds chain) :
 CleanedUp S K ds k (objectCxxConstructFromClass S K (todo+1) k chain) := by
 obtain ⟨built,hholds,hlog,heq⟩:=construct_supers h hctor
  (objectCxxConstructFromClass_spec hduring hctor hdtor htodo h) hf.before
 obtain ⟨d,hd,himp,hfails⟩:=hf.fails
 obtain ⟨after,hafter,hown⟩:=(constructOwn_spec hduring hholds hd).2 himp
 grind [fail_spec,structors_of_get]

def Defines (S:Selectors) (ds:List ClassData) (j:ℕ) : Prop :=
 ∃d,ds[j]?=some d ∧ d.ownImp S.cxxConstruct≠msgForwardImpcache

theorem FirstFailure.structors_ne (hf:FirstFailure S K ds k) (hi:i ≤ k) :
 structors S.cxxConstruct (ds.drop i)≠[] := by
 obtain ⟨d,hd,himp,-⟩:=hf.fails
 induction hi using Nat.decreasingInduction with
 | self=>simp [structors_of_get hd,himp]
 | of_succ j hj ih=>grind [structors_drop_suffix]

theorem fail_log_length (log:List Event) (chain:Chain preopt) :
 log.length ≤ (fail S K i log chain).log.length := by grind [fail]

/-- What the call for a subclass of the failing class leaves when the handler has returned an
object: the subclass goes on with the object that is gone. -/
structure Resumed (S:Selectors) (K:Construction) (ds:List ClassData) (i k:ℕ)
 (out:Outcome preopt) : Prop where
 plain : (∀j,i ≤ j → j < k → ¬Defines S ds j) → out.log=failureLog S K ds k
 more : ∀j,i ≤ j → j < k → Defines S ds j → (failureLog S K ds k).length < out.log.length

theorem CleanedUp.resumed {out:Outcome preopt} (h:CleanedUp S K ds k out) :
 Resumed S K ds k k out :=
 ⟨fun _=>h.log,fun _ hle hlt=>absurd hlt hle.not_gt⟩

theorem Resumed.length_le {out:Outcome preopt} (h:Resumed S K ds i k out) :
 (failureLog S K ds k).length ≤ out.log.length := by grind [h.more,h.plain]

theorem Resumed.constructOwn (hduring:∀imp,∀op∈K.during imp,Allowed S ds op) (hi:i < k)
 (hk:k < ds.length) (h:Holding (OwnOnly S) ds built.chain)
 (hr:Resumed S K ds (i+1) k built) :
 Resumed S K ds i k (constructOwn S K i built) ∧
  ((∀j,i ≤ j → j < k → ¬Defines S ds j) → (constructOwn S K i built).result=K.obj) := by
 have hd:ds[i]?=some ds[i]:=List.getElem?_eq_getElem (hi.trans hk)
 obtain ⟨hforward,hown⟩:=constructOwn_spec hduring h hd
 by_cases himp : ds[i].ownImp S.cxxConstruct=msgForwardImpcache
 · obtain ⟨after,-,heq⟩:=hforward himp
   rw [heq]
   refine ⟨⟨fun hnone=>hr.plain fun j hle=>hnone j (by omega),?_⟩,fun _=>rfl⟩
   intro j hle hlt hdef
   refine hr.more j ?_ hlt hdef
   -- the class itself defines none
   rcases hle.eq_or_lt with rfl|hlt
   · obtain ⟨d,hd',hne⟩:=hdef
     exact absurd himp (Option.some.inj (hd.symm.trans hd') ▸ hne)
   · exact hlt
 · obtain ⟨after,-,heq⟩:=hown himp
   have hdefines:Defines S ds i:=⟨_,hd,himp⟩
   have hlength:built.log.length < (CxxStructors.constructOwn S K i built).log.length := by
    have hone:built.log.length <
     (built.log++[Event.construct (ds[i].ownImp S.cxxConstruct)]).length := by
     simp
    rw [heq]
    split
    · exact hone
    · exact hone.trans_le (fail_log_length _ _)
   refine ⟨⟨fun hnone=>absurd hdefines (hnone i le_rfl hi),fun j _ _ _=>?_⟩,
    fun hnone=>absurd hdefines (hnone i le_rfl hi)⟩
   exact hr.length_le.trans_lt hlength

theorem Resumed.of_nil (hr:Resumed S K ds (i+1) k built)
 (hdef:∃j,i+1 ≤ j ∧ j < k ∧ Defines S ds j) :
 Resumed S K ds i k {built with result:=0} := by
 obtain ⟨j,hle,hlt,hdef⟩:=hdef
 exact ⟨fun hnone=>absurd hdef (hnone j (by omega) hlt),fun _ _ _ _=>hr.more j hle hlt hdef⟩

theorem construct_below (hduring:∀imp,∀op∈K.during imp,Allowed S ds op)
 (hctor:Flagged (·.hasCxxCtor) S.cxxConstruct ds)
 (hdtor:Flagged (·.hasCxxDtor) S.cxxDestruct ds) (hf:FirstFailure S K ds k) {n:ℕ}
 (hi:i+n=k) (htodo:ds.length ≤ i+todo) (h:Holding (OwnOnly S) ds chain) :
 (n=0 ∨ handlerResult S K ds k=0 →
  CleanedUp S K ds k (objectCxxConstructFromClass S K todo i chain)) ∧
 (handlerResult S K ds k≠0 → Resumed S K ds i k (objectCxxConstructFromClass S K todo i chain) ∧
  (n≠0 → (∀j,i ≤ j → j < k → ¬Defines S ds j) →
   (objectCxxConstructFromClass S K todo i chain).result=K.obj)) := by
 have hk:=hf.defined
 obtain ⟨todo,rfl⟩ : ∃m,todo=m+1:=⟨todo-1,by omega⟩
 induction n generalizing i todo with
 | zero=>
  obtain rfl : i=k:=hi
  have hclean:CleanedUp S K ds i (objectCxxConstructFromClass S K (todo+1) i chain) :=
   construct_fails hduring hctor hdtor hf (by omega) h
  exact ⟨fun _=>hclean,fun _=>⟨hclean.resumed,fun hne=>absurd rfl hne⟩⟩
 | succ n ih=>
  obtain ⟨todo,rfl⟩ : ∃m,todo=m+1:=⟨todo-1,by omega⟩
  obtain ⟨hclean,hresumed⟩:=ih (i:=i+1) (by omega) todo (by omega)
  have hsuper:Holding (OwnOnly S) ds
   (objectCxxConstructFromClass S K (todo+1) (i+1) chain).chain :=
   (objectCxxConstructFromClass_spec hduring hctor hdtor (by omega) h).holding
  rw [construct_succ h hctor (hf.structors_ne (by omega))]
  by_cases hr : handlerResult S K ds k=0
  · have hsub:=hclean (.inr hr)
    rw [if_pos (hsub.result.trans hr)]
    exact ⟨fun _=>⟨hsub.log,hr.symm⟩,fun hne=>absurd hr hne⟩
  refine ⟨fun hor=>absurd (hor.resolve_left (Nat.succ_ne_zero n)) hr,fun _=>?_⟩
  obtain ⟨hsub,hobj⟩:=hresumed hr
  split
  next hnil=>
   -- the superclass has an object to return unless a class below the failing one failed too
   have hdef:∃j,i+1 ≤ j ∧ j < k ∧ Defines S ds j:=by
    by_contra hnone
    rcases Nat.eq_zero_or_pos n with rfl|hn
    · exact hr ((hclean (.inl rfl)).result.symm.trans hnil)
    · refine K.ne_nil ((hobj hn.ne' fun j hle hlt hd=>?_).symm.trans hnil)
      exact hnone ⟨j,hle,hlt,hd⟩
   obtain ⟨j,hle,hlt,hd⟩:=hdef
   exact ⟨hsub.of_nil ⟨j,hle,hlt,hd⟩,fun _ hnone=>absurd hd (hnone j (by omega) hlt)⟩
  next=>
   obtain ⟨hown,hres⟩:=hsub.constructOwn hduring (by omega) hk hsuper
   exact ⟨hown,fun _=>hres⟩

theorem cleanedUp_iff (hduring:∀imp,∀op∈K.during imp,Allowed S ds op)
 (hctor:Flagged (·.hasCxxCtor) S.cxxConstruct ds)
 (hdtor:Flagged (·.hasCxxDtor) S.cxxDestruct ds) (hf:FirstFailure S K ds k) (hi:i ≤ k)
 (htodo:ds.length ≤ i+todo) (h:Holding (OwnOnly S) ds chain) :
 CleanedUp S K ds k (objectCxxConstructFromClass S K todo i chain) ↔
  i=k ∨ handlerResult S K ds k=0 ∨
   handlerResult S K ds k=K.obj ∧ ∀j,i ≤ j → j < k → ¬Defines S ds j := by
 obtain ⟨n,rfl⟩:=Nat.exists_eq_add_of_le hi
 obtain ⟨hclean,hresumed⟩:=construct_below hduring hctor hdtor hf rfl htodo h
 constructor
 · intro hup
   by_cases hn : n=0
   · exact .inl (by omega)
   by_cases hr : handlerResult S K ds (i+n)=0
   · exact .inr (.inl hr)
   obtain ⟨hsub,hobj⟩:=hresumed hr
   have hnone:∀j,i ≤ j → j < i+n → ¬Defines S ds j:=by
    intro j hle hlt hdef
    have hlonger:=hsub.more j hle hlt hdef
    rw [hup.log] at hlonger
    exact lt_irrefl _ hlonger
   exact .inr (.inr ⟨hup.result.symm.trans (hobj hn hnone),hnone⟩)
 · rintro (hn|hr|⟨hr,hnone⟩)
   · exact hclean (.inl (by omega))
   · exact hclean (.inr hr)
   · by_cases hn : n=0
     · exact hclean (.inl hn)
     obtain ⟨hsub,hobj⟩:=hresumed (hr.trans_ne K.ne_nil)
     exact ⟨hsub.plain hnone,(hobj hn hnone).trans hr.symm⟩

/-- The constructor of the `k`th class fails. The call for the `i`th class cleans up exactly if
that is the failing class, or the handler returns nil, or returns the address of the freed object
and no class between them has a constructor. -/
theorem failed_construction_cleaned_up (chain:Chain preopt) (hfresh:Fresh chain)
 (hctor:Flagged (·.hasCxxCtor) S.cxxConstruct (data chain))
 (hdtor:Flagged (·.hasCxxDtor) S.cxxDestruct (data chain)) (ops:List Op)
 (hops:∀op∈ops,Allowed S (data chain) op)
 (hduring:∀imp,∀op∈K.during imp,Allowed S (data chain) op) (i k:ℕ) (hi:i ≤ k)
 (hf:FirstFailure S K (data chain) k) :
 CleanedUp S K (data chain) k
  (objectCxxConstructFromClass S K chain.length i (run ops chain)) ↔
  i=k ∨ handlerResult S K (data chain) k=0 ∨ handlerResult S K (data chain) k=K.obj ∧
    ∀j,i ≤ j → j < k → ¬Defines S (data chain) j := by
 grind [holding_run,hfresh.holding,data,cleanedUp_iff]

end Calls

section Samples

def baseCtor : MethodImp := ⟨200,by decide⟩

def derivedCtor : MethodImp := ⟨300,by decide⟩

def constructedBy (ctor:Option MethodImp) : Cls false where
 own sel := if sel=cxxSelectors.cxxConstruct then ctor else none
 isMetaClass := false
 hasCxxCtor := true
 hasCxxDtor := false
 resolvesClass := false
 resolvesInstance := false
 isInitialized := true
 cache := Cache.empty

def derivedChain : Chain false := [constructedBy (some derivedCtor),constructedBy (some baseCtor)]

def failingBase (handler:ℕ) : Construction where
 obj := 40
 ne_nil := by decide
 freeOnFailure := true
 callBadAlloc := true
 badAllocHandler _ _ := handler
 succeeds ctor := decide (ctor≠baseCtor)
 during _ := []

theorem failingBase_first (handler:ℕ) :
 FirstFailure cxxSelectors (failingBase handler) (data derivedChain) 1 where
 defined := by decide
 fails := ⟨_,rfl,by decide,rfl⟩
 before := fun ctor hmem=>nomatch hmem

/-- The handler returns the object 48: the derived constructor is called on the freed object 40,
which is returned. -/
theorem derived_constructor_of_freed_object :
 FirstFailure cxxSelectors (failingBase 48) (data derivedChain) 1 ∧
 (objectCxxConstructFromClass cxxSelectors (failingBase 48) 2 0 derivedChain).log =
  [.construct 200,.free,.callBadAllocHandler 1,.construct 300] ∧
 (objectCxxConstructFromClass cxxSelectors (failingBase 48) 2 0 derivedChain).result=40 ∧
 ¬CleanedUp cxxSelectors (failingBase 48) (data derivedChain) 1
  (objectCxxConstructFromClass cxxSelectors (failingBase 48) 2 0 derivedChain) := by
 refine ⟨failingBase_first 48,rfl,rfl,fun hup=>?_⟩
 have hresult:(40 : ℕ)=48:=hup.result
 exact absurd hresult (by decide)

theorem nil_handler_cleans_up : CleanedUp cxxSelectors (failingBase 0) (data derivedChain) 1
  (objectCxxConstructFromClass cxxSelectors (failingBase 0) 2 0 derivedChain) := by
 refine (failed_construction_cleaned_up derivedChain ?_ ?_ ?_ [] (fun _ h=>nomatch h)
  (fun _ _ h=>absurd h List.not_mem_nil) 0 1 (by decide) (failingBase_first 0)).mpr
  (.inr (.inl rfl))
 · intro c hc
   rcases List.mem_pair.mp hc with rfl|rfl <;> rfl
 · exact ⟨fun _=>rfl,fun _=>rfl,trivial⟩
 · refine ⟨?_,?_,trivial⟩
   · rintro (h|⟨e,he,h⟩)
     · exact absurd rfl h
     · rw [List.mem_singleton.mp he] at h
       exact h
   · rintro (h|⟨e,he,-⟩)
     · exact absurd rfl h
     · cases he

end Samples

end ObjcRuntime.ConstructionFailure
