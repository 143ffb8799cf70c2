import ObjcRuntime.CustomShortcuts

/-!
# The shortcuts for the core methods

The scanner trusts a second root class, the one of Swift objects, but the scanner for changed
methods does not watch it.
-/

set_option autoImplicit false
namespace ObjcRuntime.ClassGraph

open PartialRuns
open MethodLookup (Sel Imp MethodImp)

variable {preopt:Bool} {s t:State preopt} {prog:Program} {b:Bundle}

def Op.KeepsClasses : Op → Prop
 | .duplicateClass _ _=>False
 | .allocateClassPair _ _ _=>False
 | _=>True

/-- The metaclass of the superclass is the superclass of the metaclass, and each class has its own.
-/
structure Paired (s:State preopt) : Prop where
 parallel : ∀c p,s.known c=true → s.isMetaClass c=false → s.superclass c=some p →
  s.superclass (s.isa c)=some (s.isa p)
 own : ∀c d,s.known c=true ∧ s.isMetaClass c=false →
  s.known d=true ∧ s.isMetaClass d=false → s.isa c=s.isa d → c=d

namespace Paired

theorem congr (h:Paired s) (ht:SameNodes s t) : Paired t := by
 refine ⟨?_,?_⟩
 · rw [ht.known,ht.isMetaClass,ht.isa,ht.superclass]
   exact h.parallel
 · rw [ht.known,ht.isMetaClass,ht.isa]
   exact h.own

theorem asserted {op:Op} (h:Paired s) (hg:Graph s []) (hlegal:op.Legal s) : op.Asserted s := by
 cases op with
 | setSuperclass fuel cls newSuper=>
  exact fun old hold=>h.parallel cls old (hg.realizedKnown hlegal.1.1) hlegal.1.2 hold
 | _=>trivial

theorem moved {cls newSuper:Cls} (h:Paired s) (hg:Graph s [])
 (hcls:s.known cls=true ∧ s.isMetaClass cls=false)
 (hkept:t.known=s.known ∧ t.isa=s.isa ∧ t.ro=s.ro)
 (hsuper:t.superclass=movedParent s cls newSuper) : Paired t := by
 obtain ⟨hknown,hisa,hro⟩:=hkept
 have hkind:t.isMetaClass=s.isMetaClass:=by
  funext c
  exact isMetaClass_congr (congrFun hro c)
 have hmeta:=hg.metaIsa hcls.1
 refine ⟨fun c p hc hck hp=>?_,?_⟩
 · rw [hknown] at hc
   rw [hkind] at hck
   rw [hsuper,movedParent_apply] at hp
   rw [hisa,hsuper,movedParent_apply]
   grind [h.own,hg.metaIsa,h.parallel]
 · rw [hknown,hkind,hisa]
   exact h.own

theorem step {op:Op} (h:Paired s) (hg:Graph s []) (hlegal:op.Legal s)
 (hkeeps:op.KeepsClasses) (ht:op.step prog s=some t) : Paired t := by
 cases Op.nodes hg hlegal (h.asserted hg hlegal) ht with
 | same hnodes=>exact h.congr hnodes
 | moved hkept hsuper=>
  exact h.moved hg ⟨hg.realizedKnown hlegal.1.1,hlegal.1.2⟩ hkept hsuper
 | duplicated | paired=>exact hkeeps.elim

end Paired

theorem name_ne_of_methodIn {sel:Sel} {ls:List (List Method)} (h:methodIn sel ls=none)
 {l:List Method} (hl:l∈ls) {m:Method} (hm:m∈l) : m.name≠sel := by
 induction ls with
 | nil=>cases hl
 | cons x newer ih=>grind [methodIn]

theorem ownImp_of_method {m:MethodRef} {old:Method} (h:s.method m=some old) :
 ownImp s m.cls old.name≠none := by
 intro hnone
 obtain ⟨l,hl,hold⟩:=Option.bind_eq_some_iff.mp h
 exact name_ne_of_methodIn (Option.map_eq_none_iff.mp hnone) (List.mem_of_getElem? hl)
  (List.mem_of_getElem? hold) rfl

theorem ownImp_of_getMethodNoSuper {c:Cls} {sel:Sel} (h:getMethodNoSuper s c sel≠none) :
 ownImp s c sel≠none := by
 obtain ⟨m,hm⟩:=Option.ne_none_iff_exists'.mp h
 obtain ⟨⟨i,j⟩,hr,rfl⟩:=Option.map_eq_some_iff.mp hm
 obtain ⟨-,old,hold,rfl⟩:=refIn_method hr
 have hmethod:s.method ⟨c,i,j⟩=some old:=hold
 exact ownImp_of_method hmethod

theorem Op.Changes.own {op:Op} {c:Cls} (h:op.Changes prog b s c) :
 ∃n∈b.names,ownImp s c (prog.sel n)≠none := by
 have hsel:∀{name:Sel},isInterestingSelector prog b name=true → ownImp s c name≠none →
  ∃n∈b.names,ownImp s c (prog.sel n)≠none := by
  intro name hname hown
  obtain ⟨n,hn,heq⟩:=List.any_eq_true.mp hname
  grind
 cases op with
 | replaceMethod cls name imp=>
  obtain ⟨rfl,hname,hfound⟩:=h
  exact hsel hname (ownImp_of_getMethodNoSuper hfound)
 | replaceMethodsBulk cls methods=>
  obtain ⟨rfl,x,-,hname,hfound⟩:=h
  exact hsel hname (ownImp_of_getMethodNoSuper hfound)
 | setImplementation m imp=>
  obtain ⟨rfl,old,hold,hname⟩:=h
  exact hsel hname (ownImp_of_method hold)
 | exchangeImplementations m1 m2=>
  obtain ⟨m,-,rfl,old,hold,hname⟩:=h
  exact hsel hname (ownImp_of_method hold)
 | _=>exact h.elim

/-- No core method of the Swift root class or its metaclass gets another IMP. -/
def Op.SparesSwift (prog:Program) (op:Op) (s:State preopt) : Prop :=
 ∀c,op.Changes prog .core s c → prog.isSwiftObject c=false

theorem Flagged.monitors {op:Op} (h:Flagged prog .core [] ∅ ∅ s) (hspares:op.SparesSwift prog s) :
 op.Monitors prog .core s := by
 intro c hchanges
 have htrusted:Trusted prog .core s c → c=prog.nsObject ∨ c=prog.nsObjectMeta:=by
  intro hc
  rw [Trusted,knownClassHasDefaultImpl,hspares c hchanges,Bool.and_false,Bool.or_false] at hc
  have heq:=of_decide_eq_true hc
  cases hkind : s.isMetaClass c with
  | false=>
   rw [hkind] at heq
   exact .inl heq
  | true=>
   rw [hkind] at heq
   exact .inr heq
 have hroot:Trusted prog .core s c → Monitored prog .core s c:=fun hc =>
  (htrusted hc).imp_right .inl
 by_cases hcustom : s.isCustom .core c=true
 · by_cases hc : Trusted prog .core s c
   · exact hroot hc
   · exact .inr (.inr ⟨hcustom,hc⟩)
 · rcases h.sound.methods c (Bool.eq_false_iff.mpr hcustom) (Set.notMem_empty c) with ⟨r,hr⟩|hbare
   · obtain rfl:=hr.root rfl
     exact hroot hr.trusted
   · obtain ⟨n,hn,hown⟩:=hchanges.own
     exact absurd (hbare n hn) hown

/-- The core methods of a class that is not custom are the base methods of the root class above it.
-/
theorem core_answers_root {ops:List Op} (hs:Start s) (hroots:Roots prog s) (hnew:Unscanned s)
 (hpaired:Paired s)
 (hops:Along prog (fun op s=>op.Legal s ∧ op.KeepsClasses ∧ op.SparesSwift prog s) ops s)
 (h:run prog ops s=some t) {c:Cls} (hc:t.isCustom .core c=false) :
 ∃r,Ancestor t r c ∧ knownClassHasDefaultImpl prog .core r (t.isMetaClass c)=true ∧
  ∀n∈Bundle.core.names,∀imp,baseImp s r (prog.sel n)=some imp →
   ownImp t r (prog.sel n)=some imp ∧ Answer t (prog.sel n) c imp := by
 have hinv:Flagged prog .core [] ∅ ∅ t ∧ Paired t ∧ BaseKept s t:=by
  refine run_invariant (I:=fun u=>Flagged prog .core [] ∅ ∅ u ∧ Paired u ∧ BaseKept s u)
   (fun {op u v} hC hstep hI=>?_) hops h
   ⟨hs.flagged hroots hnew .core,hpaired,fun c hc=>⟨hc,rfl⟩⟩
  obtain ⟨hlegal,hkeeps,hspares⟩:=hC
  obtain ⟨hflagged,hpaired,hkept⟩:=hI
  have hassert:=hpaired.asserted hflagged.graph hlegal
  exact ⟨hflagged.step hlegal hassert (hflagged.monitors hspares) hstep,
   hpaired.step hflagged.graph hlegal hkeeps hstep,
   hkept.step hflagged.graph hlegal hassert hstep⟩
 obtain ⟨hflagged,-,hkept⟩:=hinv
 obtain ⟨r,hr⟩:=hflagged.answersAs hc
 obtain ⟨habove,hown⟩:=hr.root rfl
 have hknown:s.known r=true:=hroots.known hs.graph hr.trusted
 refine ⟨r,habove,hr.kind ▸ hr.trusted,fun n hn imp himp=>?_⟩
 rw [←baseImp_congr (hkept r hknown).2] at himp
 exact ⟨(hown n hn).trans himp,hr.answers n hn imp himp⟩

def swiftProgram : Program := {sampleProgram with isSwiftObject:=fun c=>c=2 || c=3}

theorem rootsImage_swift : Roots swiftProgram rootsImage := by
 refine ⟨⟨rfl,rfl⟩,rfl,fun c hc=>?_⟩
 rcases Bool.or_eq_true_iff.mp hc with heq|heq
 · rw [of_decide_eq_true heq]
   exact ⟨rfl,fun _=>rfl⟩
 · rw [of_decide_eq_true heq]
   exact ⟨rfl,fun _=>rfl⟩

theorem rootsImage_paired : Paired rootsImage := by
 have hclass:∀{c:ℕ},rootsImage.known c=true ∧ rootsImage.isMetaClass c=false → c=0 ∨ c=2 := by
  rintro c ⟨hknown,hkind⟩
  have hlt:c<4:=of_decide_eq_true hknown
  have hodd:¬ c % 2=1:=of_decide_eq_false hkind
  omega
 refine ⟨fun c p _ hkind hp=>?_,fun c d hc hd hisa=>?_⟩
 · rcases rootsImage_superclass hp with ⟨rfl,-⟩|⟨rfl,-⟩ <;> cases hkind
 · rcases hclass hc with rfl|rfl
   · rcases hclass hd with rfl|rfl
     · rfl
     · cases hisa
   · rcases hclass hd with rfl|rfl
     · cases hisa
     · rfl

def bothRoots : List Op :=
 [.realizeClass 4 0,.setInitialized 0,.realizeClass 4 2,.setInitialized 2]

theorem bothRoots_legal : Along swiftProgram (fun op s=>op.Legal s ∧ op.KeepsClasses ∧
 op.SparesSwift swiftProgram s) bothRoots rootsImage := by
 have hkeeps:∀op∈bothRoots,op.KeepsClasses ∧
  ∀(s:State false) c,¬op.Changes swiftProgram .core s c:=by
  simp [bothRoots,Op.Changes,Op.KeepsClasses]
 refine (along_of_legalRun (by decide +kernel)).mono fun op s h=>?_
 obtain ⟨hop,hnow⟩:=h
 exact ⟨(Op.legal_of_now hnow).1,(hkeeps op hop).1,fun c hc=>absurd hc ((hkeeps op hop).2 s c)⟩

def swizzleClass (root:Cls) : List Op :=
 bothRoots++[.setImplementation ⟨root,0,12⟩ (rootImp 300)]

theorem swift_class_unaffected : ∃t,run swiftProgram (swizzleClass 0) rootsImage=some t ∧
 t.isCustom .core 0=true ∧ t.isCustom .core 2=false ∧
 Answer t (sampleProgram.sel .classSel) 2 253 := by
 obtain ⟨t,ht,hswizzled,hcustom,hroot⟩:=run_yields (Op.step swiftProgram) (swizzleClass 0)
  rootsImage (fun t =>
  t.isCustom .core 0=true ∧ t.isCustom .core 2=false ∧ t.superclass 2=none) (by decide +kernel)
 have hops:Along swiftProgram (fun op s=>op.Legal s ∧ op.KeepsClasses ∧
  op.SparesSwift swiftProgram s) (swizzleClass 0) rootsImage := by
  refine bothRoots_legal.append fun u _=>⟨⟨trivial,trivial,?_⟩,fun _ _=>trivial⟩
  rintro c ⟨rfl,-⟩
  rfl
 obtain ⟨r,hr,-,hanswers⟩:=core_answers_root rootsImage_start rootsImage_swift
  rootsImage_unscanned rootsImage_paired hops ht hcustom
 -- the class has no superclass, so it is the root class itself
 obtain rfl : r=2:=by
  rcases Relation.ReflTransGen.cases_head hr with heq|⟨p,hp,-⟩
  · exact heq.symm
  · rw [hroot] at hp
    cases hp
 have hbase:baseImp rootsImage 2 (sampleProgram.sel .classSel)=some ⟨253,by decide⟩:=by
  decide +kernel
 exact ⟨t,ht,hswizzled,hcustom,(hanswers .classSel (by decide) _ hbase).2⟩

theorem swift_class_bypassed : ∃t,Start rootsImage ∧ Roots swiftProgram rootsImage ∧
 Unscanned rootsImage ∧ Paired rootsImage ∧
 Along swiftProgram (fun op s=>op.Legal s ∧ op.KeepsClasses) (swizzleClass 2) rootsImage ∧
 run swiftProgram (swizzleClass 2) rootsImage=some t ∧
 (t.isInitialized 2=true ∧ t.isCustom .core 2=false ∧ t.superclass 2=none) ∧
 (∀m∈rootMethods 2,m.imp.1≠500) ∧
 Answer t (sampleProgram.sel .classSel) 2 500 := by
 obtain ⟨t,ht,hstate,hown⟩:=run_yields (Op.step swiftProgram) (swizzleClass 2) rootsImage (fun t =>
  (t.isInitialized 2=true ∧ t.isCustom .core 2=false ∧ t.superclass 2=none) ∧
  ownImp t 2 (sampleProgram.sel .classSel)=some ⟨500,by decide⟩) (by decide +kernel)
 refine ⟨t,rootsImage_start,rootsImage_swift,rootsImage_unscanned,rootsImage_paired,?_,ht,hstate,
  by decide +kernel,.own hown⟩
 refine Along.append ?_ fun u _=>⟨⟨trivial,trivial⟩,fun _ _=>trivial⟩
 exact bothRoots_legal.mono fun _ _ h=>⟨h.1,h.2.1⟩

end ObjcRuntime.ClassGraph
