import ObjcRuntime.CustomFlagSteps

/-!
# The retain/release and alloc shortcuts

`objc_duplicateClass` copies the retain/release flag, and the scanner for changed methods does not
know a copy of NSObject.
-/

set_option autoImplicit false
namespace ObjcRuntime.ClassGraph

open PartialRuns
open MethodLookup (Sel Imp MethodImp)

variable {preopt:Bool} {s t:State preopt} {prog:Program} {b:Bundle}

structure AnswersAs (prog:Program) (b:Bundle) (s:State preopt) (c r:Cls) : Prop where
 trusted : Trusted prog b s r
 kind : s.isMetaClass r=s.isMetaClass c
 root : b=.core → Ancestor s r c ∧ ∀n∈b.names,ownImp s r (prog.sel n)=baseImp s r (prog.sel n)
 answers : ∀n∈b.names,∀imp,baseImp s r (prog.sel n)=some imp → Answer s (prog.sel n) c imp

theorem DefaultsOf.answersAs {c r:Cls} (h:DefaultsOf prog b s c r) : AnswersAs prog b s c r where
 trusted := h.trusted
 kind := h.kind
 root hcore := by
  obtain rfl:=h.root hcore
  exact ⟨.refl,h.methods⟩
 answers n hn imp himp := .own ((h.methods n hn).trans himp)

theorem AnswersAs.inherited {c p r:Cls} (h:AnswersAs prog b s p r) (hbare:Bare prog b s c)
 (hp:s.superclass c=some p) (hkind:s.isMetaClass p=s.isMetaClass c) :
 AnswersAs prog b s c r where
 trusted := h.trusted
 kind := h.kind.trans hkind
 root hcore := ⟨.head hp (h.root hcore).1,(h.root hcore).2⟩
 answers n hn imp himp := .inherited (hbare n hn) hp (h.answers n hn imp himp)

theorem Flagged.answersAs {c:Cls} (h:Flagged prog b [] ∅ ∅ s) (hc:s.isCustom b c=false) :
 ∃r,AnswersAs prog b s c r := by
 obtain ⟨rank,hrank⟩:=h.graph.noCycle
 induction hn : rank c using Nat.strong_induction_on generalizing c with
 | _ n ih=>
  rcases h.sound.methods c hc (Set.notMem_empty c) with ⟨r,hr⟩|hbare
  · exact ⟨r,hr.answersAs⟩
  rcases h.sound.inherits c hc (Set.notMem_empty c) with ⟨r,hr⟩|⟨p,hp,hpc,hkind⟩
  · exact ⟨r,hr.answersAs⟩
  · obtain ⟨r,hr⟩:=ih (rank p) (hn ▸ hrank hp) hpc rfl
    exact ⟨r,hr.inherited hbare hp hkind⟩

/-- No scanner has run and nothing is swizzled. -/
structure Unscanned (s:State preopt) : Prop where
 custom : ∀b c,s.isCustom b c=true
 swizzled : ∀b isMeta,s.swizzled b isMeta=false

theorem Start.flagged (hs:Start s) (hroots:Roots prog s) (hnew:Unscanned s) (b:Bundle) :
 Flagged prog b [] ∅ ∅ s := by
 have hcustom:∀{c:Cls},¬ s.isCustom b c=false:=by
  intro c hc
  rw [hnew.custom] at hc
  cases hc
 refine ⟨hs.graph,hroots,fun c hc=>(List.not_mem_nil hc).elim,⟨fun c hc=>absurd hc hcustom,
  fun c hc=>absurd hc hcustom,fun c hc=>absurd hc hcustom,fun r _ _ hreal =>
   absurd hreal hs.not_realized⟩,fun isMeta hmask=>?_⟩
 rw [hnew.swizzled] at hmask
 cases hmask

def BaseKept (s t:State preopt) : Prop :=
 ∀c,s.known c=true → t.known c=true ∧ t.ro c=s.ro c

theorem BaseKept.step {u:State preopt} {op:Op} (h:BaseKept s t) (hg:Graph t [])
 (hlegal:op.Legal t) (hassert:op.Asserted t) (hu:op.step prog t=some u) :
 BaseKept s u := by
 intro c hc
 obtain ⟨hknown,hro⟩:=h c hc
 obtain ⟨hknown',hro'⟩:=(Op.nodes hg hlegal hassert hu).kept hlegal hknown
 exact ⟨hknown',hro'.trans hro⟩

theorem default_answers_original {ops:List Op} (hs:Start s) (hroots:Roots prog s) (hnew:Unscanned s)
 (hops:Along prog (fun op s=>op.Legal s ∧ op.Asserted s ∧ op.Monitors prog .rr s ∧
  op.Monitors prog .awz s) ops s)
 (h:run prog ops s=some t) {b:Bundle} (hb:b≠.core) {c:Cls}
 (hc:t.isCustom b c=false) {n:Name} (hn:n∈b.names) {imp:MethodImp}
 (himp:baseImp s (prog.nsoClass (t.isMetaClass c)) (prog.sel n)=some imp) :
 Answer t (prog.sel n) c imp := by
 have hinv:Flagged prog b [] ∅ ∅ t ∧ BaseKept s t:=by
  refine run_invariant (I:=fun u=>Flagged prog b [] ∅ ∅ u ∧ BaseKept s u)
   (fun {op u v} hC hstep hI=>?_) hops h ⟨hs.flagged hroots hnew b,fun c hc=>⟨hc,rfl⟩⟩
  obtain ⟨hlegal,hassert,hrr,hawz⟩:=hC
  have hmon:op.Monitors prog b u:=by
   cases b with
   | awz=>exact hawz
   | rr=>exact hrr
   | core=>exact absurd rfl hb
  exact ⟨hI.1.step hlegal hassert hmon hstep,hI.2.step hI.1.graph hlegal hassert hstep⟩
 obtain ⟨hflagged,hkept⟩:=hinv
 obtain ⟨r,hr⟩:=hflagged.answersAs hc
 -- NSObject is the only class these two scanners trust
 have hroot:r=prog.nsoClass (t.isMetaClass c):=by
  have htrusted:=hr.trusted
  rw [Trusted,knownClassHasDefaultImpl,hr.kind,Bool.or_eq_true_iff] at htrusted
  grind
 subst hroot
 refine hr.answers n hn imp ?_
 rw [baseImp_congr (hkept _ (hroots.nsoClass hs.graph _).1).2]
 exact himp

def rootMethods (c:Cls) : List Method :=
 (Bundle.awz.names++Bundle.rr.names++Bundle.core.names).map fun n =>
  ⟨sampleProgram.sel n,rootImp (20*c+(sampleProgram.sel n).1)⟩

def rootsImage : State false := .image
 (fun c=>if c=1 then some 0 else if c=3 then some 2 else none) (fun c=>if c<2 then 1 else 3)
 (fun c=>⟨c % 2=1,false,false,false,false,some (rootMethods c)⟩) (fun c=>c<4) 2

theorem rootsImage_superclass {c p:Cls} (h:rootsImage.superclass c=some p) :
 c=1 ∧ p=0 ∨ c=3 ∧ p=2 := by grind [State.superclass,rootsImage]

theorem rootsImage_start : Start rootsImage :=
 image_start (fun c p hp=>by rcases rootsImage_superclass hp with ⟨rfl,-⟩|⟨rfl,-⟩ <;> decide)
  (by decide)

theorem rootsImage_unscanned : Unscanned rootsImage := ⟨fun _ _=>rfl,fun _ _=>rfl⟩

theorem rootsImage_roots : Roots sampleProgram rootsImage :=
 ⟨⟨rfl,rfl⟩,rfl,fun _ hc=>nomatch hc⟩

def subclassRoot : List Op := [.realizeClass 4 0,.setInitialized 0,
 .allocateClassPair (some 0) 4 5,.registerClassPair 4,.setInitialized 4]

theorem subclassRoot_legal : Along sampleProgram (fun op s=>op.Legal s ∧ op.Asserted s ∧
 op.Monitors sampleProgram .rr s ∧ op.Monitors sampleProgram .awz s) subclassRoot rootsImage := by
 have hkeeps:∀op∈subclassRoot,∀(s:State false) b c,¬op.Changes sampleProgram b s c:=by
  simp [subclassRoot,Op.Changes]
 refine (along_of_legalRun (by decide +kernel)).mono fun op s h=>?_
 obtain ⟨hop,hnow⟩:=h
 obtain ⟨hlegal,hassert⟩:=Op.legal_of_now hnow
 exact ⟨hlegal,hassert,fun c hc=>absurd hc (hkeeps op hop s _ c),
  fun c hc=>absurd hc (hkeeps op hop s _ c)⟩

theorem subclass_retains_as_root : ∃t,run sampleProgram subclassRoot rootsImage=some t ∧
 t.isInitialized 4=true ∧ t.isCustom .rr 4=false ∧
 Answer t (sampleProgram.sel .retain) 4 203 := by
 obtain ⟨t,ht,hinit,hcustom,hkind⟩:=run_yields (Op.step sampleProgram) subclassRoot rootsImage
  (fun t =>
  t.isInitialized 4=true ∧ t.isCustom .rr 4=false ∧ t.isMetaClass 4=false) (by decide +kernel)
 have hbase:baseImp rootsImage (sampleProgram.nsoClass (t.isMetaClass 4))
  (sampleProgram.sel .retain)=some ⟨203,by decide⟩ := by
  rw [hkind]
  decide +kernel
 exact ⟨t,ht,hinit,hcustom,
  default_answers_original rootsImage_start rootsImage_roots rootsImage_unscanned
   subclassRoot_legal ht (by decide) hcustom (by decide) hbase⟩

def replaceInDuplicate : List Op := [.realizeClass 4 0,.setInitialized 0,.duplicateClass 0 4,
 .replaceMethod 4 (sampleProgram.sel .retain) ⟨500,by decide⟩]

theorem replaceInDuplicate_legal :
 Along sampleProgram (fun op s=>op.Legal s ∧ op.Asserted s) replaceInDuplicate rootsImage :=
 (along_of_legalRun (by decide +kernel)).mono fun _ _ h=>Op.legal_of_now h.2

/-- The duplicate has another `retain` and still the flag. -/
theorem duplicate_retain_bypassed : ∃t,Start rootsImage ∧ Roots sampleProgram rootsImage ∧
 Unscanned rootsImage ∧
 Along sampleProgram (fun op s=>op.Legal s ∧ op.Asserted s) replaceInDuplicate rootsImage ∧
 run sampleProgram replaceInDuplicate rootsImage=some t ∧
 (t.isInitialized 4=true ∧ t.isCustom .rr 4=false) ∧
 baseImp rootsImage 0 (sampleProgram.sel .retain)=some ⟨203,by decide⟩ ∧
 Answer t (sampleProgram.sel .retain) 4 500 := by
 obtain ⟨t,ht,hstate,hown⟩:=run_yields (Op.step sampleProgram) replaceInDuplicate rootsImage
  (fun t =>
  (t.isInitialized 4=true ∧ t.isCustom .rr 4=false) ∧
  ownImp t 4 (sampleProgram.sel .retain)=some ⟨500,by decide⟩) (by decide +kernel)
 exact ⟨t,rootsImage_start,rootsImage_roots,rootsImage_unscanned,replaceInDuplicate_legal,ht,
  hstate,by decide +kernel,.own hown⟩

end ObjcRuntime.ClassGraph
