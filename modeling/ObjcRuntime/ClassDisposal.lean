import ObjcRuntime.DuplicateFlags

/-!
# Disposing of class pairs

`objc_disposeClassPair` frees a class and what its isa points to, which for a duplicate is the
metaclass of its original.
-/

set_option autoImplicit false
namespace ObjcRuntime.ClassGraph

open PartialRuns
open SiblingLists
open Function

variable {preopt:Bool} {s t:State preopt}

/-- `constructed` is `RW_CONSTRUCTED`, `named` says that the class table has the class. -/
structure Runtime (preopt:Bool) where
 graph : State preopt
 constructed : Cls → Bool
 named : Cls → Bool

/-- The root list has the class; `removeRootClass` looks for it without an end. -/
def rootListed (fuel:ℕ) (cls:Cls) (s:State preopt) : Bool :=
 s.links.first none=some cls ||
  ((s.links.first none).bind (s.links.before cls fuel)).any fun e=>s.links.next e=some cls

def removeRootClass (fuel:ℕ) (cls:Cls) (s:State preopt) : Option (State preopt) :=
 if rootListed fuel cls s then (s.links.unlink fuel none cls).map fun l=>{s with links:=l}
 else none

def leaveList (fuel:ℕ) (cls:Cls) (s:State preopt) : Option (State preopt) :=
 if s.realized cls then
  match s.superclass cls with
  | some p=>removeSubclass fuel p cls s
  | none=>removeRootClass fuel cls s
 else some s

/-- `detach_class` without the table of names. -/
def detachClass (fuel:ℕ) (cls:Cls) (s:State preopt) : Option (State preopt) :=
 (leaveList fuel cls {s with unattached:=update s.unattached cls []}).map fun s =>
  {s with known:=update s.known cls false}

def freeClass (cls:Cls) (s:State preopt) : State preopt :=
 { s with
   links := s.links.setParent cls none
   realized := update s.realized cls false }

def disposable (cls:Cls) (r:Runtime preopt) : Bool :=
 (r.constructed cls || r.graph.constructing cls) &&
  (r.constructed (r.graph.isa cls) || r.graph.constructing (r.graph.isa cls)) &&
  !r.graph.isMetaClass cls

def disposeClassPair (fuel:ℕ) (cls:Cls) (r:Runtime preopt) : Option (Runtime preopt) :=
 if disposable cls r then
  ((detachClass fuel (r.graph.isa cls) r.graph).bind (detachClass fuel cls)).map fun s =>
   { graph := { freeClass cls (freeClass (r.graph.isa cls) s) with
      namedClasses := if r.named cls then s.namedClasses-1 else s.namedClasses }
     constructed := r.constructed
     named := update r.named cls false }
 else some r

inductive PairOp
 | allocate (superclass:Option Cls) (cls metacls:Cls)
 | register (cls:Cls)
 | duplicate (original copy:Cls)
 | dispose (fuel:ℕ) (cls:Cls)

def PairOp.step : PairOp → Runtime preopt → Option (Runtime preopt)
 | .allocate superclass cls metacls,r=>
  (allocateClassPair superclass cls metacls r.graph).map fun s =>
   ⟨s,update (update r.constructed metacls false) cls false,update r.named cls false⟩
 | .register cls,r=>
  if r.constructed cls || r.constructed (r.graph.isa cls) then some r
  else if r.graph.constructing cls && r.graph.constructing (r.graph.isa cls) then
   some ⟨registerClassPair cls r.graph,
    update (update r.constructed (r.graph.isa cls) true) cls true,
    update r.named cls true⟩
  else some r
 | .duplicate original copy,r=>
  (duplicateClass original copy r.graph).map fun s =>
   ⟨s,update r.constructed copy (r.constructed original),update r.named copy true⟩
 | .dispose fuel cls,r=>disposeClassPair fuel cls r

abbrev runPairs : List PairOp → Runtime preopt → Option (Runtime preopt) :=
 PartialRuns.run PairOp.step

structure Removed (F:List Cls) (s t:State preopt) : Prop where
 superclass : ∀c,t.superclass c=if c∈F then none else s.superclass c
 known : ∀c,t.known c=if c∈F then false else s.known c
 realized : ∀c,t.realized c=if c∈F then false else s.realized c
 isa : t.isa=s.isa
 ro : t.ro=s.ro
 first : t.links.first=s.links.first
 next : t.links.next=s.links.next

structure Unreferenced (F:List Cls) (s:State preopt) : Prop where
 superclass : ∀d p,d∉F → s.superclass d=some p → p∉F
 isa : ∀d,d∉F → s.known d=true → s.isa d∉F

variable {c:Cls} {ops:List PairOp}

section Remove

variable {F:List Cls}

section

variable (hr:Removed F s t)
include hr

theorem Removed.superclass_eq {p:Cls} (hp:t.superclass c=some p) :
 c∉F ∧ s.superclass c=some p := by
 rw [hr.superclass] at hp
 split at hp
 · cases hp
 · case isFalse hc=>exact ⟨hc,hp⟩

theorem Removed.known_eq (hc:t.known c=true) : c∉F ∧ s.known c=true := by
 rw [hr.known] at hc
 split at hc
 · cases hc
 · case isFalse hF=>exact ⟨hF,hc⟩

theorem Removed.known_of (hF:c∉F) (hc:s.known c=true) : t.known c=true := by
 rw [hr.known,if_neg hF]
 exact hc

theorem Removed.realized_eq (hc:t.realized c=true) :
 c∉F ∧ s.realized c=true := by
 rw [hr.realized] at hc
 split at hc
 · cases hc
 · case isFalse hF=>exact ⟨hF,hc⟩

theorem Removed.realized_of (hF:c∉F) (hc:s.realized c=true) :
 t.realized c=true := by
 rw [hr.realized,if_neg hF]
 exact hc

theorem Removed.isMetaClass (c:Cls) : t.isMetaClass c=s.isMetaClass c := by
 rw [State.isMetaClass,State.isMetaClass,hr.ro]

theorem Removed.lists (h:Graph s F) :
 t.links.Ok fun c=>t.realized c=true ∧ c∉[] := by
 intro p
 obtain ⟨cs,hpath,hnodup,hmem⟩:=h.lists p
 refine ⟨cs,?_,hnodup,fun c=>?_⟩
 · rw [hr.first,hr.next]
   exact hpath
 · have hparent:t.links.parent c=if c∈F then none else s.links.parent c:=hr.superclass c
   rw [hmem]
   by_cases hc : c∈F
   · simp [hr.realized,hc]
   · simp [hr.realized,hparent,hc]

theorem Removed.graph (h:Graph s F) (hfree:Unreferenced F s) : Graph t [] where
 lists := hr.lists h
 nodup := List.nodup_nil
 pending c hc := nomatch hc
 noCycle := by
  obtain ⟨rank,hrank⟩:=h.noCycle
  exact ⟨rank,fun hp=>hrank (hr.superclass_eq hp).2⟩
 superRealized := by
  intro c p hc _ hp
  obtain ⟨hF,hc⟩:=hr.realized_eq hc
  obtain ⟨-,hp⟩:=hr.superclass_eq hp
  exact hr.realized_of (hfree.superclass c p hF hp) (h.superRealized hc hF hp)
 isaRealized := by
  intro c hc _
  obtain ⟨hF,hc⟩:=hr.realized_eq hc
  rw [hr.isa]
  exact hr.realized_of (hfree.isa c hF (h.realizedKnown hc)) (h.isaRealized hc hF)
 realizedKnown := by grind [hr.realized_eq,hr.known_of,h.realizedKnown]
 superKnown := by grind [hr.superclass_eq,h.superKnown,hr.known_of,hfree.superclass]
 isaKnown := by
  intro c hc
  obtain ⟨hF,hc⟩:=hr.known_eq hc
  rw [hr.isa]
  exact hr.known_of (hfree.isa c hF hc) (h.isaKnown hc)
 metaIsa := by
  intro c hc
  rw [hr.isa,hr.isMetaClass]
  exact h.metaIsa (hr.known_eq hc).2
 superKind := by
  intro c p hc hp
  rw [hr.isMetaClass] at hc ⊢
  exact h.superKind hc (hr.superclass_eq hp).2
 rootMeta := by
  intro c p hc hp hpk
  rw [hr.isMetaClass] at hc hpk
  obtain ⟨hF,hp⟩:=hr.superclass_eq hp
  obtain ⟨hroot,hisa⟩:=h.rootMeta hc hp hpk
  rw [hr.isa,hr.superclass,if_neg (hfree.superclass c p hF hp)]
  exact ⟨hroot,hisa⟩

end

end Remove

/-- Every metaclass is the isa of a class, and the superclasses of classes and metaclasses go in
parallel. -/
structure Pairs (s:State preopt) : Prop where
 ofMeta : ∀d,s.known d=true → s.isMetaClass d=true →
  ∃e,s.known e=true ∧ s.isMetaClass e=false ∧ s.isa e=d
 parallel : ∀e p,s.known e=true → s.isMetaClass e=false → s.superclass e=some p →
  s.superclass (s.isa e)=some (s.isa p)
 root : ∀e,s.known e=true → s.isMetaClass e=false → s.superclass e=none →
  ∃q,s.superclass (s.isa e)=some q ∧ s.isMetaClass q=false

def NoSubclasses (s:State preopt) (cls:Cls) : Prop :=
 ∀d,s.superclass d=some cls → d=s.isa cls

def OwnMeta (s:State preopt) (cls:Cls) : Prop :=
 ∀d,s.known d=true → s.isa d=s.isa cls → d=cls ∨ d=s.isa cls

theorem Duplicated.noSubclasses {original duplicate:Cls} (h:Duplicated original duplicate s t) :
 NoSubclasses t duplicate := by
 intro d hd
 rw [h.superclass,update_apply] at hd
 grind [h.fresh]

theorem Pairs.unreferenced {cls:Cls} (h:Pairs s) (hgraph:Graph s [])
 (hcls:s.known cls=true) (hkind:s.isMetaClass cls=false) (hsub:NoSubclasses s cls)
 (hown:OwnMeta s cls) :
 Unreferenced [cls,s.isa cls] s := by
 have hmeta:=hgraph.metaIsa hcls
 refine ⟨fun d p hd hp hin=>?_,fun d hd hknown hin=>?_⟩
 · rw [List.mem_pair,not_or] at hd
   rcases List.mem_pair.mp hin with rfl|rfl
   · exact hd.2 (hsub d hp)
   · -- a subclass of the metaclass would be the metaclass of a subclass
     have hdmeta:s.isMetaClass d=true:=by grind [hgraph.superKind]
     obtain ⟨e,he,hek,rfl⟩:=h.ofMeta d (hgraph.superKnown hp).1 hdmeta
     cases hq : s.superclass e with
     | none=>grind [h.root]
     | some q=>
      have hisa:s.isa cls=s.isa q:=Option.some.inj (hp.symm.trans (h.parallel e q he hek hq))
      rcases hown q (hgraph.superKnown hq).2 hisa.symm with rfl|rfl
      · rw [hsub e hq,hmeta] at hek
        cases hek
      · rw [hgraph.superKind hek hq] at hmeta
        cases hmeta
 · rw [List.mem_pair,not_or] at hd
   rcases List.mem_pair.mp hin with heq|heq
   · grind [hgraph.metaIsa]
   · rcases hown d hknown heq with heq|heq
     · exact hd.1 heq
     · exact hd.2 heq

namespace Pairs

theorem congr (h:Pairs s) (ht:SameNodes s t) : Pairs t := by
 refine ⟨?_,?_,?_⟩
 · rw [ht.known,ht.isMetaClass,ht.isa]
   exact h.ofMeta
 · rw [ht.known,ht.isMetaClass,ht.isa,ht.superclass]
   exact h.parallel
 · rw [ht.known,ht.isMetaClass,ht.isa,ht.superclass]
   exact h.root

theorem extend {F:List Cls} {u:State preopt} (h:Pairs s) (hgraph:Graph s [])
 (hext:Extends F s u) (hold:∀c,c∉F → u.known c=s.known c)
 (hmeta:∀d∈F,u.isMetaClass d=true → ∃e,u.known e=true ∧ u.isMetaClass e=false ∧ u.isa e=d)
 (hsuper:∀e∈F,u.isMetaClass e=false → ∀p,u.superclass e=some p →
  u.superclass (u.isa e)=some (u.isa p))
 (hroot:∀e∈F,u.isMetaClass e=false → u.superclass e=none →
  ∃q,u.superclass (u.isa e)=some q ∧ u.isMetaClass q=false) : Pairs u := by
 have hout:∀{c:Cls},s.known c=true → c∉F:=by grind [hext.fresh]
 have hkind:∀{c:Cls},c∉F → u.isMetaClass c=s.isMetaClass c:=by
  intro c hc
  rw [State.isMetaClass,State.isMetaClass,hext.ro c hc]
 refine ⟨fun d hd hdmeta=>?_,fun e p he hek hp=>?_,fun e he hek hnone=>?_⟩
 · by_cases hin : d∈F
   · exact hmeta d hin hdmeta
   · rw [hold d hin] at hd
     rw [hkind hin] at hdmeta
     obtain ⟨e,he,hek,heq⟩:=h.ofMeta d hd hdmeta
     grind [hext.isa]
 · by_cases hin : e∈F
   · exact hsuper e hin hek p hp
   · rw [hold e hin] at he
     rw [hkind hin] at hek
     rw [hext.superclass e hin] at hp
     rw [hext.isa e hin,hext.superclass _ (hout (hgraph.isaKnown he)),
      hext.isa p (hout (hgraph.superKnown hp).2)]
     exact h.parallel e p he hek hp
 · by_cases hin : e∈F
   · exact hroot e hin hek hnone
   · rw [hold e hin] at he
     rw [hkind hin] at hek
     rw [hext.superclass e hin] at hnone
     obtain ⟨q,hq,hqk⟩:=h.root e he hek hnone
     rw [hext.isa e hin,hext.superclass _ (hout (hgraph.isaKnown he))]
     exact ⟨q,hq,(hkind (hout (hgraph.superKnown hq).2)).trans hqk⟩

theorem withDuplicate {original copy:Cls} (h:Pairs s) (hgraph:Graph s [])
 (horig:s.realized original=true) (hkind:s.isMetaClass original=false)
 (hcopy:s.known copy=false) : Pairs (withDuplicate original copy s) := by
 have hknown:=hgraph.realizedKnown horig
 have hext:=withDuplicate_extends original hcopy
 have hout:∀{c:Cls},s.known c=true → c∉[copy]:=fun hc hin =>
  known_ne hc hcopy (List.mem_singleton.mp hin)
 have hisa:(ClassGraph.withDuplicate original copy s).isa copy=s.isa original:=by
  rw [ClassGraph.withDuplicate,newClass_isa,if_pos rfl]
 have hsuper:(ClassGraph.withDuplicate original copy s).superclass copy =
  s.superclass original := by
  rw [ClassGraph.withDuplicate,newClass_superclass,update_self]
 have hmeta:(ClassGraph.withDuplicate original copy s).isMetaClass copy=false:=by
  rw [ClassGraph.withDuplicate,newClass_isMetaClass,if_pos rfl]
  exact hkind
 refine h.extend hgraph hext (fun c hc=>?_) (fun d hd hdmeta=>?_) (fun e he _ p hp=>?_)
  fun e he _ hnone=>?_
 · rw [List.mem_singleton] at hc
   exact update_of_ne hc ..
 · grind
 · obtain rfl:=List.mem_singleton.mp he
   rw [hsuper] at hp
   rw [hisa,hext.superclass _ (hout (hgraph.isaKnown hknown)),
    hext.isa p (hout (hgraph.superKnown hp).2)]
   exact h.parallel original p hknown hkind hp
 · obtain rfl:=List.mem_singleton.mp he
   rw [hsuper] at hnone
   obtain ⟨q,hq,hqk⟩:=h.root original hknown hkind hnone
   rw [hisa,hext.superclass _ (hout (hgraph.isaKnown hknown))]
   refine ⟨q,hq,?_⟩
   rw [State.isMetaClass,hext.ro q (hout (hgraph.superKnown hq).2)]
   exact hqk

theorem withPair {superclass:Option Cls} {cls metacls:Cls} (h:Pairs s) (hgraph:Graph s [])
 (hne:cls≠metacls) (hcls:s.known cls=false) (hmeta:s.known metacls=false)
 (hsuper:∀p,superclass=some p → s.known p=true) :
 Pairs (withPair superclass cls metacls s) := by
 have hext:=withPair_extends superclass hcls hmeta
 obtain ⟨hs1,hs2⟩:=withPair_superclass s superclass hne
 have hisa:(ClassGraph.withPair superclass cls metacls s).isa cls=metacls :=
  (update_of_ne hne ..).trans (update_self ..)
 have hro:(ClassGraph.withPair superclass cls metacls s).ro cls=.ofPair false :=
  (update_of_ne hne ..).trans (update_self ..)
 have hroMeta:(ClassGraph.withPair superclass cls metacls s).ro metacls=.ofPair true :=
  update_self ..
 have hkind:(ClassGraph.withPair superclass cls metacls s).isMetaClass cls=false:=by
  rw [State.isMetaClass,hro]
  rfl
 have hknown:(ClassGraph.withPair superclass cls metacls s).known cls=true :=
  (update_of_ne hne ..).trans (update_self ..)
 -- the metaclass is new as well, so only the class has a pair of superclasses
 have honly:∀e∈[cls,metacls],
  (ClassGraph.withPair superclass cls metacls s).isMetaClass e=false → e=cls := by
  intro e he hek
  rcases List.mem_pair.mp he with rfl|rfl
  · rfl
  · rw [State.isMetaClass,hroMeta] at hek
    cases hek
 refine h.extend hgraph hext (fun c hc=>?_) (fun d hd hdmeta=>?_) (fun e he hek p hp=>?_)
  fun e he hek hnone=>?_
 · rw [List.mem_pair,not_or] at hc
   exact (update_of_ne hc.2 ..).trans (update_of_ne hc.1 ..)
 · grind
 · obtain rfl:=honly e he hek
   obtain rfl : superclass=some p:=hs1.symm.trans hp
   have hp:=hsuper p rfl
   have hin:p∉[e,metacls]:=by
    rw [List.mem_pair,not_or]
    exact ⟨known_ne hp hcls,known_ne hp hmeta⟩
   rw [hisa,hs2,hext.isa p hin]
   rfl
 · grind

theorem removed {cls:Cls} (h:Pairs s)
 (hfree:Unreferenced [cls,s.isa cls] s) (hmeta:s.isMetaClass (s.isa cls)=true)
 (hr:Removed [cls,s.isa cls] s t) : Pairs t := by
 refine ⟨fun d hd hdmeta=>?_,fun e p he hek hp=>?_,fun e he hek hnone=>?_⟩
 · obtain ⟨hdF,hd⟩:=hr.known_eq hd
   rw [hr.isMetaClass] at hdmeta
   obtain ⟨e,he,hek,rfl⟩:=h.ofMeta d hd hdmeta
   have heF:e∉[cls,s.isa cls]:=by grind
   exact ⟨e,hr.known_of heF he,(hr.isMetaClass e).trans hek,congrFun hr.isa e⟩
 · obtain ⟨heF,he⟩:=hr.known_eq he
   obtain ⟨-,hp⟩:=hr.superclass_eq hp
   rw [hr.isMetaClass] at hek
   rw [hr.isa,hr.superclass,if_neg (hfree.isa e heF he)]
   exact h.parallel e p he hek hp
 · obtain ⟨heF,he⟩:=hr.known_eq he
   rw [hr.isMetaClass] at hek
   rw [hr.superclass,if_neg heF] at hnone
   obtain ⟨q,hq,hqk⟩:=h.root e he hek hnone
   rw [hr.isa,hr.superclass,if_neg (hfree.isa e heF he)]
   exact ⟨q,hq,(hr.isMetaClass q).trans hqk⟩

end Pairs

section Dispose

variable {fuel:ℕ} {cls:Cls} {r r':Runtime preopt}

theorem leaveList_spec (ht:leaveList fuel cls s=some t) (hcls:s.realized cls=true) :
 ∃l,s.links.unlink fuel (s.superclass cls) cls=some l ∧ t = {s with links:=l} := by
 rw [leaveList,if_pos hcls] at ht
 split at ht
 · case h_1 p hp =>
   obtain ⟨l,hl,rfl⟩:=Option.map_eq_some_iff.mp ht
   exact ⟨l,hp ▸ hl,rfl⟩
 · grind [removeRootClass,Option.map_eq_some_iff]

theorem detachClass_spec (ht:detachClass fuel cls s=some t) (hcls:s.realized cls=true) :
 ∃l,s.links.unlink fuel (s.superclass cls) cls=some l ∧ t = { s with
   links := l
   unattached := update s.unattached cls []
   known := update s.known cls false } := by
 obtain ⟨u,hu,rfl⟩:=Option.map_eq_some_iff.mp ht
 obtain ⟨l,hl,rfl⟩:=leaveList_spec hu hcls
 exact ⟨l,hl,rfl⟩

theorem disposeClassPair_spec (h:Graph r.graph []) (hcls:r.graph.realized cls=true)
 (hdisp:disposable cls r=true) (ht:disposeClassPair fuel cls r=some r') :
 ∃l : Links Cls,l.parent=r.graph.links.parent ∧
  Graph {r.graph with links:=l} [cls,r.graph.isa cls] ∧
  Removed [cls,r.graph.isa cls] {r.graph with links:=l} r'.graph := by
 have hkind:r.graph.isMetaClass cls=false:=by
  simpa using (Bool.and_eq_true_iff.mp hdisp).2
 have hmeta:=h.isaRealized hcls List.not_mem_nil
 have hne:cls≠r.graph.isa cls:=by
  intro heq
  rw [heq,h.metaIsa (h.realizedKnown hcls)] at hkind
  cases hkind
 rw [disposeClassPair,if_pos hdisp] at ht
 obtain ⟨u,hu,rfl⟩:=Option.map_eq_some_iff.mp ht
 obtain ⟨v,hv,hu⟩:=Option.bind_eq_some_iff.mp hu
 obtain ⟨l1,hl1,rfl⟩:=detachClass_spec hv hmeta
 obtain ⟨l2,hl2,rfl⟩:=detachClass_spec hu hcls
 obtain ⟨hp1,hg1⟩:=h.unlink hmeta List.not_mem_nil hl1
 obtain ⟨hp2,hg2⟩:=hg1.unlink hcls (by simpa using hne) hl2
 have hpair:∀{β:Type} (f:Cls → β) (a:β) (c:Cls),update (update f (r.graph.isa cls) a) cls a c =
   if c∈[cls,r.graph.isa cls] then a else f c := by
  intro β f a c
  rw [update_apply,update_apply,←ite_or]
  simp only [List.mem_pair]
 exact ⟨l2,hp2.trans hp1,hg2,hpair _ none,hpair _ false,hpair _ false,rfl,rfl,rfl,rfl⟩

theorem disposeClassPair_keeps (h:Graph r.graph []) (hpairs:Pairs r.graph)
 (hcls:r.graph.realized cls=true) (hdisp:disposable cls r=true)
 (hsub:NoSubclasses r.graph cls) (hown:OwnMeta r.graph cls)
 (ht:disposeClassPair fuel cls r=some r') : Graph r'.graph [] ∧ Pairs r'.graph := by
 have hkind:r.graph.isMetaClass cls=false:=by
  simpa using (Bool.and_eq_true_iff.mp hdisp).2
 have hknown:=h.realizedKnown hcls
 obtain ⟨l,hl,hgraph,hremoved⟩:=disposeClassPair_spec h hcls hdisp ht
 have hsame:SameNodes r.graph {r.graph with links:=l}:=⟨rfl,rfl,rfl,hl⟩
 have hfree:Unreferenced [cls,r.graph.isa cls] {r.graph with links:=l}:=by
  obtain ⟨hsuper,hisa⟩:=hpairs.unreferenced h hknown hkind hsub hown
  refine ⟨fun d p hd hp=>hsuper d p hd ?_,hisa⟩
  rw [←hp,hsame.superclass]
 exact ⟨hremoved.graph hgraph hfree,(hpairs.congr hsame).removed hfree (h.metaIsa hknown) hremoved⟩

end Dispose

inductive Listed (s:State preopt) : Cls → Prop
 | root {c:Cls} (h:s.links.first none=some c) : Listed s c
 | sub {p c:Cls} (hp:s.known p=true) (h:s.links.first (some p)=some c) : Listed s c
 | next {c d:Cls} (hc:Listed s c) (h:s.links.next c=some d) : Listed s d

theorem Graph.first_realized {p:Option Cls} (h:Graph s []) (hc:s.links.first p=some c) :
 s.realized c=true := by
 obtain ⟨cs,hpath,-,hmem⟩:=h.lists p
 rw [hc] at hpath
 cases cs with
 | nil=>cases hpath
 | cons d cs=>
  obtain rfl : c=d:=Option.some.inj hpath.1
  exact ((hmem c).mp List.mem_cons_self).1.1

theorem Graph.next_realized {d:Cls} (h:Graph s []) (hc:s.realized c=true)
 (hd:s.links.next c=some d) : s.realized d=true := by
 obtain ⟨cs,hpath,-,hmem⟩:=h.lists (s.superclass c)
 have hin:c∈cs:=(hmem c).mpr ⟨⟨hc,List.not_mem_nil⟩,rfl⟩
 exact ((hmem d).mp (hpath.next_mem hin hd)).1.1

theorem Listed.realized (hc:Listed s c) (h:Graph s []) : s.realized c=true := by
 induction hc with
 | root hfirst | sub _ hfirst=>exact h.first_realized hfirst
 | next _ hnext ih=>exact h.next_realized ih hnext

/-- Nothing live refers to a class that is gone. -/
structure Live (s:State preopt) : Prop where
 isa : ∀c,s.known c=true → s.known (s.isa c)=true ∧ s.isMetaClass (s.isa c)=true
 superclass : ∀c p,s.known c=true → s.superclass c=some p → s.known p=true
 listed : ∀c,Listed s c → s.known c=true

theorem Graph.live (h:Graph s []) : Live s where
 isa _ hc := ⟨h.isaKnown hc,h.metaIsa hc⟩
 superclass _ _ _ hp := (h.superKnown hp).2
 listed _ hc := h.realizedKnown (hc.realized h)

namespace PairOp

/-- What the callers see to.  A class is disposed of only if the checks pass and it has no
subclasses. -/
def Legal : PairOp → Runtime preopt → Prop
 | .allocate superclass cls metacls,r=>
  (Op.allocateClassPair superclass cls metacls).Legal r.graph
 | .register _,_=>True
 | .duplicate original copy,r=>(Op.duplicateClass original copy).Legal r.graph
 | .dispose _ cls,r=>
  r.graph.realized cls=true ∧ disposable cls r=true ∧ NoSubclasses r.graph cls

def Unshared : PairOp → Runtime preopt → Prop
 | .dispose _ cls,r=>OwnMeta r.graph cls
 | _,_=>True

end PairOp

variable {r r':Runtime preopt}

theorem PairOp.step_keeps {op:PairOp} (h:Graph r.graph []) (hpairs:Pairs r.graph)
 (hlegal:op.Legal r) (hunshared:op.Unshared r) (ht:op.step r=some r') :
 Graph r'.graph [] ∧ Pairs r'.graph := by
 cases op with
 | allocate superclass cls metacls=>
  obtain ⟨t,hu,rfl⟩:=Option.map_eq_some_iff.mp ht
  rcases allocateClassPair_cases hlegal hu with rfl|⟨hsuper,hu⟩
  · exact ⟨h,hpairs⟩
  obtain ⟨hne,hcls,hmeta,-⟩:=hlegal
  obtain ⟨-,v,hv,-,hw,hgraph⟩:=initializeClassPair_spec h hne hcls hmeta hsuper hu
  have hnew:=hpairs.withPair h hne hcls hmeta fun p hp=>h.realizedKnown (hsuper p hp).1
  exact ⟨hgraph,hnew.congr ((connect_sameNodes hv).trans (connect_sameNodes hw))⟩
 | register cls=>
  simp only [PairOp.step] at ht
  split_ifs at ht
  · cases ht
    exact ⟨h,hpairs⟩
  · cases ht
    have hsame:SameShape r.graph (registerClassPair cls r.graph):=registerClassPair_sameShape.1
    exact ⟨h.congr hsame,hpairs.congr hsame.sameNodes⟩
  · cases ht
    exact ⟨h,hpairs⟩
 | duplicate original copy=>
  obtain ⟨t,hu,rfl⟩:=Option.map_eq_some_iff.mp ht
  obtain ⟨⟨horig,hkind⟩,hcopy⟩:=hlegal
  obtain ⟨-,v,hv,hgraph,rfl⟩:=duplicateClass_spec h horig hkind hcopy hu
  have hnew:=hpairs.withDuplicate h horig hkind hcopy
  exact ⟨hgraph.congr ⟨rfl,rfl,rfl,rfl,rfl⟩,
   (hnew.congr (connect_sameNodes hv)).congr ⟨rfl,rfl,rfl,rfl⟩⟩
 | dispose fuel cls=>
  obtain ⟨hcls,hdisp,hsub⟩:=hlegal
  exact disposeClassPair_keeps h hpairs hcls hdisp hsub hunshared ht

abbrev AlongPairs (C:PairOp → Runtime preopt → Prop) : List PairOp → Runtime preopt → Prop :=
 PartialRuns.Along PairOp.step C

theorem runPairs_keeps (h:Graph r.graph []) (hpairs:Pairs r.graph)
 (hops:AlongPairs (fun op r=>op.Legal r ∧ op.Unshared r) ops r)
 (ht:runPairs ops r=some r') : Graph r'.graph [] ∧ Pairs r'.graph :=
 run_invariant (I:=fun r=>Graph r.graph [] ∧ Pairs r.graph)
  (fun hC hstep hI=>PairOp.step_keeps hI.1 hI.2 hC.1 hC.2 hstep) hops ht ⟨h,hpairs⟩

/-- As long as no class that is disposed of shares its metaclass, no call leaves a live class with
a metaclass, a superclass or a list of subclasses that is gone. -/
theorem classes_stay_live {ops:List PairOp} (h:Graph r.graph []) (hpairs:Pairs r.graph)
 (hops:AlongPairs (fun op r=>op.Legal r ∧ op.Unshared r) ops r)
 (ht:runPairs ops r=some r') : Live r'.graph :=
 (runPairs_keeps h hpairs hops ht).1.live

def pairRuntime : Runtime false := ⟨cxxImage false,fun _=>false,fun _=>false⟩

theorem pairRuntime_pairs : Pairs pairRuntime.graph := by
 have hclass:∀{c:ℕ},pairRuntime.graph.known c=true → c=0 ∨ c=1 ∨ c=2 ∨ c=3:=by
  grind [pairRuntime,cxxImage]
 refine ⟨fun d hd hmeta=>?_,fun e p he hek hp=>?_,fun e he hek hnone=>?_⟩
 · rcases hclass hd with rfl|rfl|rfl|rfl
   · cases hmeta
   · exact ⟨0,rfl,rfl,rfl⟩
   · cases hmeta
   · exact ⟨2,rfl,rfl,rfl⟩
 · rcases cxxImage_superclass _ hp with ⟨rfl,rfl⟩|⟨rfl,rfl⟩|⟨rfl,rfl⟩
   · cases hek
   · rfl
   · cases hek
 · rcases hclass he with rfl|rfl|rfl|rfl
   · exact ⟨0,rfl,rfl⟩
   · cases hek
   · cases hnone
   · cases hek

def twoPairs : List PairOp :=
 [.allocate none 4 5,.register 4,.allocate (some 4) 6 7,.register 6]

theorem twoPairs_legal :
 AlongPairs (fun op r=>op.Legal r ∧ op.Unshared r) twoPairs pairRuntime := by
 refine ⟨⟨⟨by decide,rfl,rfl,fun p hp=>nomatch hp⟩,trivial⟩,fun r1 h1=>?_⟩
 refine ⟨⟨trivial,trivial⟩,fun r2 h2=>?_⟩
 have hrun:runPairs (twoPairs.take 2) pairRuntime=some r2:=by
  grind [twoPairs,PartialRuns.run,Option.bind_eq_some_iff]
 refine ⟨⟨⟨by decide,?_,?_,fun p hp=>?_⟩,trivial⟩,fun r3 h3=>⟨⟨trivial,trivial⟩,?_⟩⟩
 · exact run_read hrun (·.graph.known 6) (by decide +kernel)
 · exact run_read hrun (·.graph.known 7) (by decide +kernel)
 · obtain rfl:=Option.some.inj hp
   exact run_read hrun (·.graph.isMetaClass 4) (by decide +kernel)
 · exact fun _ _=>trivial

theorem twoPairs_superclass {r':Runtime false} (h:runPairs twoPairs pairRuntime=some r') :
 r'.graph.superclass=update (update (update (update
  (cxxImage false).superclass 4 none) 5 (some 4)) 6 (some 4)) 7 (some 5) :=
 run_read h (·.graph.superclass) rfl

theorem twoPairs_isa {r':Runtime false} (h:runPairs twoPairs pairRuntime=some r') :
 r'.graph.isa=update (update (update (update
  (cxxImage false).isa 4 5) 5 5) 6 7) 7 5 :=
 run_read h (·.graph.isa) rfl

theorem twoPairs_superclass_lt {r':Runtime false} (h:runPairs twoPairs pairRuntime=some r')
 {c p:ℕ} (hp:r'.graph.superclass c=some p) : p<6 := by
 rw [twoPairs_superclass h] at hp
 grind [cxxImage_superclass]

theorem twoPairs_ownMeta {r':Runtime false} (h:runPairs twoPairs pairRuntime=some r') :
 OwnMeta r'.graph 6 := by
 intro d _ hisa
 left
 by_contra hne
 have hisa6:r'.graph.isa 6=7:=run_read h (·.graph.isa 6) (by decide +kernel)
 rw [hisa6,twoPairs_isa h] at hisa
 grind [cxxImage]

theorem subclass_disposed : ∃r',runPairs (twoPairs++[.dispose 9 6]) pairRuntime=some r' ∧
 Live r'.graph := by
 obtain ⟨r',hr⟩:=Option.isSome_iff_exists.mp
  (show (runPairs (twoPairs++[.dispose 9 6]) pairRuntime).isSome=true by decide +kernel)
 have hops:AlongPairs (fun op r=>op.Legal r ∧ op.Unshared r) (twoPairs++[.dispose 9 6])
  pairRuntime := by
  refine Along.append twoPairs_legal fun u hu =>
   ⟨⟨⟨?_,?_,fun d hd=>?_⟩,twoPairs_ownMeta hu⟩,fun _ _=>trivial⟩
  · exact run_read hu (·.graph.realized 6) (by decide +kernel)
  · exact run_read hu (disposable 6) (by decide +kernel)
  · exact absurd (twoPairs_superclass_lt hu hd) (by decide)
 exact ⟨r',hr,classes_stay_live (cxxImage_start false).graph pairRuntime_pairs hops hr⟩

theorem original_loses_metaclass : ∃r',Graph pairRuntime.graph [] ∧ Pairs pairRuntime.graph ∧
 AlongPairs PairOp.Legal (twoPairs++[.duplicate 6 8,.dispose 9 8]) pairRuntime ∧
 runPairs (twoPairs++[.duplicate 6 8,.dispose 9 8]) pairRuntime=some r' ∧
 r'.graph.known 6=true ∧ r'.graph.known (r'.graph.isa 6)=false := by
 obtain ⟨r',hr⟩:=Option.isSome_iff_exists.mp
  (show (runPairs (twoPairs++[.duplicate 6 8,.dispose 9 8]) pairRuntime).isSome=true by
   decide +kernel)
 have hgraph:=(cxxImage_start false).graph
 refine ⟨r',hgraph,pairRuntime_pairs,?_,hr,?_,?_⟩
 · refine Along.append (twoPairs_legal.mono fun _ _ h=>h.1) fun u hu=>?_
   have hfresh:u.graph.known 8=false:=run_read hu (·.graph.known 8) (by decide +kernel)
   refine ⟨⟨⟨run_read hu (·.graph.realized 6) (by decide +kernel),
    run_read hu (·.graph.isMetaClass 6) (by decide +kernel)⟩,hfresh⟩,
    fun v hv=>⟨⟨?_,?_,?_⟩,fun _ _=>trivial⟩⟩
   · exact run_read (run_concat hu hv) (·.graph.realized 8) (by decide +kernel)
   · exact run_read (run_concat hu hv) (disposable 8) (by decide +kernel)
   · have hgraph:=(runPairs_keeps hgraph pairRuntime_pairs twoPairs_legal hu).1
     obtain ⟨t,ht,hdup⟩ : ∃t,duplicateClass 6 8 u.graph=some t ∧ Duplicated 6 8 u.graph t :=
      duplicateClass_returns hgraph hfresh
     obtain ⟨t',ht',rfl⟩:=Option.map_eq_some_iff.mp hv
     obtain rfl:=Option.some.inj (ht.symm.trans ht')
     exact hdup.noSubclasses
 · exact run_read hr (·.graph.known 6) (by decide +kernel)
 · exact run_read hr (fun r=>r.graph.known (r.graph.isa 6)) (by decide +kernel)

end ObjcRuntime.ClassGraph
