import ObjcRuntime.CxxStructors
import ObjcRuntime.InheritedFlags

/-!
# The flags of a duplicated class

The duplicate starts with an empty cache, whose flags are all clear, and `addSubclass` gives it the
flags of its superclass.
-/

set_option autoImplicit false
namespace ObjcRuntime.ClassGraph

open PartialRuns
open MethodLookup (Sel Imp MethodImp)
open CxxStructors (Selectors cxxSelectors)
open SiblingLists
open Function

variable {preopt:Bool} {s t u:State preopt} {prog:Program}

section Leaf

variable {b:Bundle} {p c:Cls}

theorem foreach_leaf {code:Cls → State preopt → State preopt × Bool}
 (hleaf:s.links.first (some c)=none) :
 foreachRealizedClassAndSubclass c code s=some (code c s).1 := by
 have hcount:s.unreasonableClassCount-1=s.unreasonableClassCount-2+1:=by
  rw [State.unreasonableClassCount]
  omega
 rw [foreachRealizedClassAndSubclass,hcount,walk,hleaf]
 simp

theorem modifyFlags_eq_self {f:Flags → Flags} (h:f (s.flags c)=s.flags c) :
 s.modifyFlags c f=s := by
 rw [State.modifyFlags,h,update_eq_self]

theorem modifyFlags_modifyFlags (f g:Flags → Flags) :
 (s.modifyFlags c f).modifyFlags c g=s.modifyFlags c fun x=>g (f x) := by
 simp only [State.modifyFlags,update_self,update_idem]

def Flags.scan (b:Bundle) (super sub:Flags) : Flags :=
 {sub with hasDefault:=update sub.hasDefault b (sub.hasDefault b && super.hasDefault b)}

theorem scanAddedSubClass_leaf (hleaf:s.links.first (some c)=none) :
 scanAddedSubClass c p b s=some (s.modifyFlags c ((s.flags p).scan b)) := by
 rw [scanAddedSubClass]
 split
 · case isTrue h =>
   obtain ⟨hp,hc⟩:=Bool.and_eq_true_iff.mp h
   rw [Bool.not_eq_true'] at hc
   rw [setCustomRecursively,foreach_leaf hleaf,if_neg (fun h=>h.1 rfl),hc,if_neg (by simp)]
   rw [State.isCustom,Bool.not_eq_true'] at hp
   simp only [setCustom,State.modifyFlags,Flags.scan,hp,Bool.and_false]
 · case isFalse h =>
   refine congrArg some (modifyFlags_eq_self ?_).symm
   have hsame:((s.flags c).hasDefault b && (s.flags p).hasDefault b) =
    (s.flags c).hasDefault b := by grind [State.isCustom]
   rw [Flags.scan,hsame,update_eq_self]

theorem setInstancesRequireRawIsaRecursively_leaf (hleaf:s.links.first (some c)=none) :
 setInstancesRequireRawIsaRecursively c s=some (setInstancesRequireRawIsa c s) := by
 rw [setInstancesRequireRawIsaRecursively]
 split
 · case isTrue h =>
   refine congrArg some (modifyFlags_eq_self ?_).symm
   rw [←h]
 · case isFalse h=>rw [foreach_leaf hleaf,if_neg h]

/-- The flags of a class that joins the list of its superclass; `raw` is the raw isa requirement
that is passed on. -/
def Flags.join (super:Flags) (raw:Bool) (sub:Flags) : Flags :=
 { super.inherit sub with
   instancesRequireRawIsa := sub.instancesRequireRawIsa || raw
   hasDefault := fun b=>sub.hasDefault b && super.hasDefault b }

def State.passesRawIsa (s:State preopt) (p:Cls) : Bool :=
 (s.flags p).instancesRequireRawIsa && (s.superclass p).isSome

theorem addSubclass_leaf (hleaf:s.links.first (some c)=none) (hne:c≠p) :
 addSubclass p c s=some ((s.linkSubclass p c).modifyFlags c
  ((s.flags p).join (s.passesRawIsa p))) := by
 have hfirst:∀f,((s.linkSubclass p c).modifyFlags c f).links.first (some c)=none:=by
  refine fun f=>(update_of_ne ?_ ..).trans hleaf
  exact fun h=>hne (Option.some.inj h)
 have hsuper:∀f,((s.linkSubclass p c).modifyFlags c f).flags p=s.flags p:=fun f=>by
  rw [modifyFlags_flags,if_neg hne.symm]
  rfl
 have hscan:forBundles (scanAddedSubClass c p)
  ((s.linkSubclass p c).modifyFlags c (Flags.inherit (s.flags p))) =
    some ((s.linkSubclass p c).modifyFlags c ((s.flags p).join false)) := by
  simp only [forBundles,scanAddedSubClass_leaf (hfirst _),Option.bind_some,hsuper,
   modifyFlags_modifyFlags]
  refine congrArg (fun f=>some ((s.linkSubclass p c).modifyFlags c f)) (funext fun f=>?_)
  simp only [Flags.scan,Flags.join,Flags.inherit,Bool.or_false,Flags.mk.injEq,true_and]
  funext b
  cases b <;> rfl
 rw [addSubclass,hscan,Option.bind_some,hsuper]
 change (if s.passesRawIsa p=true then _ else _)=_
 cases hraw : s.passesRawIsa p with
 | false=>rfl
 | true=>
  rw [if_pos rfl,setInstancesRequireRawIsaRecursively_leaf (hfirst _),setInstancesRequireRawIsa,
   modifyFlags_modifyFlags]
  refine congrArg (fun f=>some ((s.linkSubclass p c).modifyFlags c f)) (funext fun f=>?_)
  rw [Flags.join,Flags.join,Bool.or_true]

end Leaf

section Duplicate

variable {original duplicate:Cls}

def State.duplicateFlags (s:State preopt) (original:Cls) : Flags :=
 (s.superclass original).elim (s.flags original).withEmptyCache fun p =>
  (s.flags p).join (s.passesRawIsa p) (s.flags original).withEmptyCache

structure Duplicated (original duplicate:Cls) (s t:State preopt) : Prop where
 fresh : ∀d,s.superclass d≠some duplicate
 superclass : t.superclass=update s.superclass duplicate (s.superclass original)
 flags : t.flags=update s.flags duplicate (s.duplicateFlags original)
 lists : t.lists=update s.lists duplicate (s.lists original)

theorem duplicateClass_returns (h:Graph s []) (hdup:s.known duplicate=false) :
 ∃t,duplicateClass original duplicate s=some t ∧ Duplicated original duplicate s t := by
 have hnew:(withDuplicate original duplicate s).superclass duplicate=s.superclass original:=by
  rw [withDuplicate,newClass_superclass,update_self]
 have hflags:(withDuplicate original duplicate s).flags =
  update s.flags duplicate (s.flags original).withEmptyCache := rfl
 have hconnect:∃v,connect duplicate (withDuplicate original duplicate s)=some v ∧
  v.superclass=(withDuplicate original duplicate s).superclass ∧
  v.flags=update s.flags duplicate (s.duplicateFlags original) ∧
  v.lists=(withDuplicate original duplicate s).lists := by
  rw [connect,hnew,State.duplicateFlags]
  cases hp : s.superclass original with
  | none=>exact ⟨_,rfl,rfl,hflags,rfl⟩
  | some p=>
   have hne:duplicate≠p:=fun heq=>h.unknown_ne hdup (heq ▸ hp)
   have hleaf:(withDuplicate original duplicate s).links.first (some duplicate)=none :=
    update_self ..
   have hpflags:(withDuplicate original duplicate s).flags p=s.flags p :=
    update_of_ne hne.symm ..
   have hpraw:(withDuplicate original duplicate s).passesRawIsa p=s.passesRawIsa p:=by
    rw [State.passesRawIsa,State.passesRawIsa,hpflags,withDuplicate,newClass_superclass,
     update_of_ne hne.symm]
   refine ⟨_,addSubclass_leaf hleaf hne,rfl,?_,rfl⟩
   rw [hpflags,hpraw]
   change update (withDuplicate original duplicate s).flags duplicate
    ((s.flags p).join (s.passesRawIsa p) ((withDuplicate original duplicate s).flags duplicate))=_
   rw [hflags,update_idem,update_self]
   rfl
 obtain ⟨v,hv,hsuper,hvflags,hlists⟩:=hconnect
 exact ⟨_,congrArg (Option.map _) hv,fun d=>h.unknown_ne hdup,hsuper,hvflags,hlists⟩

/-- The constructors that `object_cxxConstructFromClass` calls when none fails; `n` bounds the
classes. -/
def cxxConstructors (S:Selectors) (s:State preopt) : (n:ℕ) → Cls → List MethodImp
 | 0,_=>[]
 | n+1,c=>
  ((s.superclass c).elim [] fun p =>
    if (s.flags p).hasCxxCtor then cxxConstructors S s n p else []) ++
  (ownImp s c S.cxxConstruct).toList

def cxxDestructors (S:Selectors) (s:State preopt) : (n:ℕ) → Cls → List MethodImp
 | 0,_=>[]
 | n+1,c=>
  if (s.flags c).hasCxxDtor then
   (ownImp s c S.cxxDestruct).toList++(s.superclass c).elim [] (cxxDestructors S s n)
  else []

/-- `_class_createInstance` calls constructors only for a class that says it has some. -/
def createdBy (S:Selectors) (s:State preopt) (n:ℕ) (c:Cls) : List MethodImp :=
 if (s.flags c).hasCxxCtor then cxxConstructors S s n c else []

/-- The four flags are those of the original, and so are the structors that run for an instance. -/
structure LikeOriginal (S:Selectors) (original duplicate:Cls) (s t:State preopt) : Prop where
 hasCxxCtor : (t.flags duplicate).hasCxxCtor=(s.flags original).hasCxxCtor
 hasCxxDtor : (t.flags duplicate).hasCxxDtor=(s.flags original).hasCxxDtor
 instancesRequireRawIsa :
  (t.flags duplicate).instancesRequireRawIsa=(s.flags original).instancesRequireRawIsa
 hasCustomDeallocInitiation :
  (t.flags duplicate).hasCustomDeallocInitiation=(s.flags original).hasCustomDeallocInitiation
 created : ∀n,createdBy S t n duplicate=createdBy S s n original
 destroyed : ∀n,cxxDestructors S t n duplicate=cxxDestructors S s n original

/-- What the class has of its own: each of the four flags is just what the superclass passes on. -/
structure NoOwnFlags (s:State preopt) (c:Cls) : Prop where
 hasCxxCtor : (s.flags c).hasCxxCtor=(s.superclass c).any fun p=>(s.flags p).hasCxxCtor
 hasCxxDtor : (s.flags c).hasCxxDtor=(s.superclass c).any fun p=>(s.flags p).hasCxxDtor
 instancesRequireRawIsa : (s.flags c).instancesRequireRawIsa=(s.superclass c).any s.passesRawIsa
 hasCustomDeallocInitiation : (s.flags c).hasCustomDeallocInitiation =
  (s.superclass c).any fun p=>(s.flags p).hasCustomDeallocInitiation

theorem duplicateFlags_eq (s:State preopt) (c:Cls) :
 (s.duplicateFlags c).hasCxxCtor=(s.superclass c).any (fun p=>(s.flags p).hasCxxCtor) ∧
 (s.duplicateFlags c).hasCxxDtor=(s.superclass c).any (fun p=>(s.flags p).hasCxxDtor) ∧
 (s.duplicateFlags c).instancesRequireRawIsa=(s.superclass c).any s.passesRawIsa ∧
 (s.duplicateFlags c).hasCustomDeallocInitiation =
  (s.superclass c).any fun p=>(s.flags p).hasCustomDeallocInitiation := by
 rw [State.duplicateFlags]
 cases s.superclass c with
 | none=>exact ⟨rfl,rfl,rfl,rfl⟩
 | some p=>exact ⟨Bool.false_or _,Bool.false_or _,Bool.false_or _,Bool.false_or _⟩

namespace Duplicated

variable {S:Selectors}

section

variable (h:Duplicated original duplicate s t)
include h

theorem ownImp_duplicate (sel:Sel) :
 ownImp t duplicate sel=ownImp s original sel := by
 rw [ownImp,ownImp,h.lists,update_self]

theorem ownImp_other {c:Cls} (hne:c≠duplicate)
 (sel:Sel) : ownImp t c sel=ownImp s c sel := by
 rw [ownImp,ownImp,h.lists,update_of_ne hne]

theorem superclass_ne {c p:Cls}
 (hp:s.superclass c=some p) : p≠duplicate :=
 fun heq=>h.fresh c (heq ▸ hp)

theorem structors_other (n:ℕ) {c:Cls}
 (hne:c≠duplicate) : cxxConstructors S t n c=cxxConstructors S s n c ∧
  cxxDestructors S t n c=cxxDestructors S s n c := by
 induction n generalizing c with
 | zero=>exact ⟨rfl,rfl⟩
 | succ n ih=>
  have hsuper:t.superclass c=s.superclass c:=by
   rw [h.superclass,update_of_ne hne]
  have hflags:∀{d},d≠duplicate → t.flags d=s.flags d:=fun hd=>by
   rw [h.flags,update_of_ne hd]
  rw [cxxConstructors,cxxConstructors,cxxDestructors,cxxDestructors,h.ownImp_other hne,
   h.ownImp_other hne,hsuper,hflags hne]
  cases hp : s.superclass c with
  | none=>exact ⟨rfl,rfl⟩
  | some p=>grind [h.superclass_ne]

theorem structors_duplicate (n:ℕ) :
 cxxConstructors S t n duplicate=cxxConstructors S s n original ∧
  ((t.flags duplicate).hasCxxDtor=(s.flags original).hasCxxDtor →
    cxxDestructors S t n duplicate=cxxDestructors S s n original) := by
 cases n with
 | zero=>exact ⟨rfl,fun _=>rfl⟩
 | succ n=>
  have hsuper:t.superclass duplicate=s.superclass original:=by
   rw [h.superclass,update_self]
  rw [cxxConstructors,cxxConstructors,cxxDestructors,cxxDestructors,h.ownImp_duplicate,
   h.ownImp_duplicate,hsuper]
  cases hp : s.superclass original with
  | none=>grind
  | some p=>
   have hpne:=h.superclass_ne hp
   have hflags:t.flags p=s.flags p:=by
    rw [h.flags,update_of_ne hpne]
   grind [h.structors_other]

theorem likeOriginal_iff :
 LikeOriginal S original duplicate s t ↔ NoOwnFlags s original := by
 obtain ⟨hctor,hdtor,hraw,hdealloc⟩:=duplicateFlags_eq s original
 have hflags:t.flags duplicate=s.duplicateFlags original:=by
  rw [h.flags,update_self]
 constructor
 · intro hlike
   refine ⟨?_,?_,?_,?_⟩
   · rw [←hctor,←hflags,hlike.hasCxxCtor]
   · rw [←hdtor,←hflags,hlike.hasCxxDtor]
   · rw [←hraw,←hflags,hlike.instancesRequireRawIsa]
   · rw [←hdealloc,←hflags,hlike.hasCustomDeallocInitiation]
 · intro hown
   have hctor':(t.flags duplicate).hasCxxCtor=(s.flags original).hasCxxCtor:=by
    rw [hflags,hctor,hown.hasCxxCtor]
   have hdtor':(t.flags duplicate).hasCxxDtor=(s.flags original).hasCxxDtor:=by
    rw [hflags,hdtor,hown.hasCxxDtor]
   refine ⟨hctor',hdtor',?_,?_,fun n=>?_,fun n=>(h.structors_duplicate n).2 hdtor'⟩
   · rw [hflags,hraw,hown.instancesRequireRawIsa]
   · rw [hflags,hdealloc,hown.hasCustomDeallocInitiation]
   · rw [createdBy,createdBy,hctor',(h.structors_duplicate n).1]

end

end Duplicated

/-- In every well-formed class graph, whatever the flags in it: the duplicate has the four flags of
the original, and runs its structors, exactly if the original has none of them of its own. -/
theorem duplicate_like_original (S:Selectors) (s:State preopt) (hgraph:Graph s [])
 (original duplicate:Cls) (hdup:s.known duplicate=false) :
 ∃t,duplicateClass original duplicate s=some t ∧
  (LikeOriginal S original duplicate s t ↔ NoOwnFlags s original) := by
 obtain ⟨t,ht,hduplicated⟩:=duplicateClass_returns hgraph hdup
 exact ⟨t,ht,hduplicated.likeOriginal_iff⟩

end Duplicate

def structorImage : State false :=
 { cxxImage false with
   ro := fun c=>{ (cxxImage false).ro c with
    baseMethods := if c=2 then some [⟨cxxSelectors.cxxConstruct,rootImp 0⟩,
     ⟨cxxSelectors.cxxDestruct,rootImp 1⟩] else none } }

theorem structorImage_start : Start structorImage :=
 have h:=cxxImage_start false
 ⟨⟨h.noCycle,h.superKnown,h.isaKnown,h.metaIsa,h.superKind,h.rootMeta⟩,h.unrealized,h.noLists⟩

theorem structorImage_run (ops:List Op) (legal:legalRun sampleProgram ops structorImage=true)
 (runs:(run sampleProgram ops structorImage).isSome=true) :
 ∃s,run sampleProgram ops structorImage=some s ∧ Graph s [] := by
 obtain ⟨s,hs⟩:=Option.isSome_iff_exists.mp runs
 exact ⟨s,hs,structorImage_start.graph_of_legalRun legal hs⟩

theorem duplicate_without_structors : ∃s t,
 run sampleProgram [.realizeClass 4 2] structorImage=some s ∧ Graph s [] ∧
 s.known 8=false ∧ duplicateClass 2 8 s=some t ∧
 (createdBy cxxSelectors s 2 2).map Subtype.val=[200] ∧ createdBy cxxSelectors t 2 8=[] ∧
 (cxxDestructors cxxSelectors s 2 2).map Subtype.val=[201] ∧
 cxxDestructors cxxSelectors t 2 8=[] ∧ ¬LikeOriginal cxxSelectors 2 8 s t := by
 obtain ⟨s,hs,hgraph⟩:=structorImage_run [.realizeClass 4 2] rfl (by decide +kernel)
 obtain ⟨hknown,hctors,hdtors,hflag⟩:=run_holds hs (fun s=>s.known 8=false ∧
  (createdBy cxxSelectors s 2 2).map Subtype.val=[200] ∧
  (cxxDestructors cxxSelectors s 2 2).map Subtype.val=[201] ∧ (s.flags 2).hasCxxCtor=true)
  (by decide +kernel)
 obtain ⟨t,ht,-⟩:=@duplicateClass_returns _ s 2 8 hgraph hknown
 have hlast:(Op.duplicateClass 2 8).step sampleProgram s=some t:=ht
 have hrun:=run_concat hs hlast
 obtain ⟨hctors',hdtors',hflag'⟩:=run_holds hrun (fun t=>createdBy cxxSelectors t 2 8=[] ∧
  cxxDestructors cxxSelectors t 2 8=[] ∧ (t.flags 8).hasCxxCtor=false) (by decide +kernel)
 refine ⟨s,t,hs,hgraph,hknown,ht,hctors,hctors',hdtors,hdtors',fun hlike=>?_⟩
 have hctor:=hlike.hasCxxCtor
 rw [hflag,hflag'] at hctor
 cases hctor

theorem duplicate_of_subclass : ∃s t,
 run sampleProgram [.realizeClass 4 2,.allocateClassPair (some 2) 4 5] structorImage=some s ∧
 (cxxDestructors cxxSelectors s 3 4).map Subtype.val=[201] ∧
 duplicateClass 4 8 s=some t ∧ LikeOriginal cxxSelectors 4 8 s t := by
 obtain ⟨s,hs,hgraph⟩:=structorImage_run
  [.realizeClass 4 2,.allocateClassPair (some 2) 4 5] (by decide +kernel) (by decide +kernel)
 obtain ⟨hknown,hdtors,hctor,hdtor,hraw,hdealloc⟩:=run_holds hs (fun s=>s.known 8=false ∧
  (cxxDestructors cxxSelectors s 3 4).map Subtype.val=[201] ∧
  (s.flags 4).hasCxxCtor=(s.superclass 4).any (fun p=>(s.flags p).hasCxxCtor) ∧
  (s.flags 4).hasCxxDtor=(s.superclass 4).any (fun p=>(s.flags p).hasCxxDtor) ∧
  (s.flags 4).instancesRequireRawIsa=(s.superclass 4).any s.passesRawIsa ∧
  (s.flags 4).hasCustomDeallocInitiation =
   (s.superclass 4).any fun p=>(s.flags p).hasCustomDeallocInitiation) (by decide +kernel)
 obtain ⟨t,ht,hiff⟩:=duplicate_like_original cxxSelectors s hgraph 4 8 hknown
 exact ⟨s,t,hs,hdtors,ht,hiff.mpr ⟨hctor,hdtor,hraw,hdealloc⟩⟩

end ObjcRuntime.ClassGraph
