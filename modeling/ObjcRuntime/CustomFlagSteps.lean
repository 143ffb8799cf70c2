import ObjcRuntime.CustomScanners

/-!
# The custom flags along a run

Every operation keeps the flags right if each method it changes is watched, or in a class that is
custom anyway.
-/

set_option autoImplicit false
namespace ObjcRuntime.ClassGraph

open MethodLookup (Sel Imp MethodImp)
open SiblingLists
open Function

variable {preopt:Bool} {s t u:State preopt} {prog:Program} {b b':Bundle} {P:List Cls}

variable {metacls:Cls} {imp:MethodImp} {replace:Bool}

section Initialize

variable {cls:Cls} {isMeta:Bool}

theorem ownImp_of_base (hbase:BaseIntact prog b s cls)
 (hscan:scanMethodLists prog b (s.categoryLists cls)=false) {n:Name} (hn:n∈b.names) :
 ownImp s cls (prog.sel n)=baseImp s cls (prog.sel n) := by
 rw [State.categoryLists] at hscan
 rw [ownImp,baseImp]
 cases hro : (s.ro cls).baseMethods with
 | none=>grind [methodIn,methodIn_of_scan]
 | some base=>
  rw [hro] at hscan
  obtain ⟨l,rest,hlists,hsame⟩:=hbase base hro
  grind [methodIn,methodIn_of_scan]

theorem scanAddedClass_cases (ht:scanAddedClass prog b cls isMeta s=some t) : t=s ∨
 t=setDefault b cls s ∧ s.swizzled b isMeta=false ∧
  (knownClassHasDefaultImpl prog b cls isMeta=true ∧
   scanMethodLists prog b (s.categoryLists cls)=false ∨
   knownClassHasDefaultImpl prog b cls isMeta=false ∧ scanMethodLists prog b (s.lists cls)=false ∧
    ∃p,s.superclass cls=some p ∧ s.isCustom b p=false) := by
 obtain ⟨custom,hcustom,rfl⟩:=Option.map_eq_some_iff.mp ht
 grind

namespace Flagged

theorem setDefault (h:Flagged prog b [] ∅ ∅ s) (hreal:s.realized cls=true)
 (hinit:s.isInitialized cls=true) (hscan:Scans b s cls)
 (hmask:s.swizzled b (s.isMetaClass cls)=false)
 (hreason:HasDefaults prog b s cls ∨ Bare prog b s cls ∧ Inherits b s cls) :
 Flagged prog b [] ∅ ∅ (setDefault b cls s) := by
 have hold:∀{c:Cls},(ClassGraph.setDefault b cls s).isCustom b c=false →
  c=cls ∨ s.isCustom b c=false := by grind [setDefault_isCustom]
 have hnew:∀{c:Cls},s.isCustom b c=false → (ClassGraph.setDefault b cls s).isCustom b c=false := by
  intro c hc
  rw [setDefault_isCustom,hc,Bool.false_and]
 have hdefaults:∀{c:Cls},HasDefaults prog b s c →
  HasDefaults prog b (ClassGraph.setDefault b cls s) c :=
  fun hc=>hc.congr (fun _ _=>rfl) rfl rfl fun _ _=>rfl
 have hinherits:∀{c:Cls},Inherits b s c → Inherits b (ClassGraph.setDefault b cls s) c:=by
  rintro c ⟨p,hp,hpc,hkind⟩
  exact ⟨p,hp,hnew hpc,hkind⟩
 refine ⟨h.graph.congr ⟨rfl,rfl,rfl,rfl,rfl⟩,⟨h.roots.nsObject,h.roots.isa,h.roots.swift⟩,
  fun c hc=>(List.not_mem_nil hc).elim,
  ⟨fun c hc=>?_,fun c hc hX=>?_,fun c hc hE=>?_,?_⟩,
  fun m hm=>?_⟩
 · rcases hold hc with rfl|hc
   · exact ⟨hreal,hinit,hscan⟩
   · exact h.sound.settled c hc
 · rcases hold hc with rfl|hc
   · exact hreason.imp hdefaults fun hboth=>hboth.1
   · exact (h.sound.methods c hc hX).imp_left hdefaults
 · grind [h.sound.inherits]
 · exact fun r hr hr' hreal' hX hm=>(h.sound.base r hr hr' hreal' hX hm).congr rfl rfl
 · have hroot:=(h.roots.nsoClass h.graph m).2
   rw [setDefault_isCustom,h.masked m hm]
   by_cases heq : prog.nsoClass m=cls
   · rw [←heq,hroot,show s.swizzled b m=true from hm] at hmask
     cases hmask
   · simp [heq]

theorem scanAddedClass (h:Flagged prog b [] ∅ ∅ s) (hreal:s.realized cls=true)
 (hinit:s.isInitialized cls=true) (hkind:s.isMetaClass cls=isMeta)
 (hscan:Scans b s cls) (ht:scanAddedClass prog b cls isMeta s=some t) :
 Flagged prog b [] ∅ ∅ t := by
 rcases scanAddedClass_cases ht with rfl|⟨rfl,hmask,hreason⟩
 · exact h
 subst hkind
 refine h.setDefault hreal hinit hscan hmask ?_
 rcases hreason with ⟨htrusted,hcat⟩|⟨hknown,hlists,p,hp,hpc⟩
 · have hbase:=h.sound.base cls htrusted hscan hreal (Set.notMem_empty _) hmask
   exact .inl ⟨cls,htrusted,rfl,fun _=>rfl,h.roots.isa_trusted htrusted,
    fun n hn=>ownImp_of_base hbase hcat hn⟩
 · refine .inr ⟨fun n hn=>?_,p,hp,hpc,?_⟩
   · rw [ownImp,methodIn_of_scan hlists hn]
     rfl
   · cases hkind : s.isMetaClass cls with
     | false=>exact h.graph.superKind hkind hp
     | true=>
      -- the superclass of a root metaclass is trusted only together with the metaclass
      by_contra hpkind
      rw [Bool.not_eq_true] at hpkind
      obtain ⟨hroot,hisa⟩:=h.graph.rootMeta hkind hp hpkind
      rcases h.sound.inherits p hpc (Set.notMem_empty _) with ⟨r,hr⟩|⟨q,hq,-⟩
      · have hmeta:=hr.metaTrusted hpkind
        grind
      · rw [hroot] at hq
        cases hq

end Flagged

/-- The scanner does not look at `RW_INITIALIZED`, so it may as well be set before. -/
theorem scanAddedClass_initialized (i:Cls → Bool) (ht:scanAddedClass prog b cls isMeta s=some t) :
 scanAddedClass prog b cls isMeta {s with initialized:=i} =
  some {t with initialized:=i} := by
 obtain ⟨custom,hcustom,rfl⟩:=Option.map_eq_some_iff.mp ht
 refine Option.map_eq_some_iff.mpr ⟨custom,hcustom,?_⟩
 split <;> rfl

theorem scanInitializedClass_initialized (i:Cls → Bool)
 (ht:scanInitializedClass prog cls metacls b s=some t) :
 scanInitializedClass prog cls metacls b {s with initialized:=i} =
  some {t with initialized:=i} := by
 obtain ⟨u,hu,ht⟩:=Option.bind_eq_some_iff.mp ht
 refine Option.bind_eq_some_iff.mpr
  ⟨{u with initialized:=i},?_,scanAddedClass_initialized i ht⟩
 grind [scanAddedClass_initialized]

theorem Flagged.scanInitializedClass (h:Flagged prog b [] ∅ ∅ s)
 (hreal:s.realized cls=true ∧ s.realized metacls=true)
 (hinit:s.isInitialized cls=true ∧ s.isInitialized metacls=true)
 (hkind:s.isMetaClass cls=false ∧ s.isMetaClass metacls=true)
 (ht:scanInitializedClass prog cls metacls b s=some t) : Flagged prog b [] ∅ ∅ t := by
 obtain ⟨u,hu,ht⟩:=Option.bind_eq_some_iff.mp ht
 split at hu
 · case isTrue hinstances =>
   have hu':Touched ∅ s u:=scanAddedClass_touched hu
   have hfirst:=h.scanAddedClass hreal.1 hinit.1 hkind.1 (.inl hinstances) hu
   refine hfirst.scanAddedClass ?_ ?_ ?_ (.inl hinstances) ht
   · rw [hu'.realized]
     exact hreal.2
   · rw [hu'.isInitialized]
     exact hinit.2
   · rw [hu'.isMetaClass]
     exact hkind.2
 · cases hu
   exact h.scanAddedClass hreal.2 hinit.2 hkind.2 (.inr hkind.2) ht

theorem Flagged.setInitializedFlag (h:Flagged prog b [] ∅ ∅ s) : Flagged prog b [] ∅ ∅
  {s with initialized:=update s.initialized metacls true} := by
 have hdefaults:∀{c:Cls},HasDefaults prog b s c → HasDefaults prog b
  {s with initialized:=update s.initialized metacls true} c :=
  fun hc=>hc.congr (fun _ _=>rfl) rfl rfl fun _ _=>rfl
 refine ⟨h.graph.congr ⟨rfl,rfl,rfl,rfl,rfl⟩,⟨h.roots.nsObject,h.roots.isa,h.roots.swift⟩,
  h.pending,⟨fun c hc=>?_,fun c hc hX=>(h.sound.methods c hc hX).imp_left hdefaults,
  fun c hc hE=>(h.sound.inherits c hc hE).imp_left hdefaults,
  fun r hr hscan hreal hX hmask=>(h.sound.base r hr hscan hreal hX hmask).congr rfl rfl⟩,
  h.masked⟩
 obtain ⟨hreal,hinit,hscan⟩:=h.sound.settled c hc
 refine ⟨hreal,?_,hscan⟩
 change update s.initialized metacls true (s.getMeta c)=true
 rw [update_apply]
 split
 · rfl
 · exact hinit

theorem Flagged.setInitialized (h:Flagged prog b [] ∅ ∅ s) (hreal:s.realized cls=true)
 (hkind:s.isMetaClass cls=false) (ht:setInitialized prog cls s=some t) :
 Flagged prog b [] ∅ ∅ t := by
 obtain ⟨u,hu,hkept,rfl⟩:=setInitialized_spec ht
 have hmeta:=h.graph.metaIsa (h.graph.realizedKnown hreal)
 have hmetaReal:=h.graph.isaRealized hreal List.not_mem_nil
 rw [(hkept ∅).initialized]
 have hset:Flagged prog b [] ∅ ∅
  {s with initialized:=update s.initialized (s.isa cls) true} := h.setInitializedFlag
 generalize hi : update s.initialized (s.isa cls) true=i at hset ⊢
 have hinit:i (s.isa cls)=true:=by
  rw [←hi]
  exact update_self ..
 -- the scanners run on the state that has the flag already
 have hscans:forBundles (ClassGraph.scanInitializedClass prog cls (s.isa cls))
  {s with initialized:=i}=some {u with initialized:=i} := by
  obtain ⟨v,hv,hu⟩:=Option.bind_eq_some_iff.mp hu
  obtain ⟨w,hw,hu⟩:=Option.bind_eq_some_iff.mp hu
  exact Option.bind_eq_some_iff.mpr ⟨_,scanInitializedClass_initialized i hv,
   Option.bind_eq_some_iff.mpr ⟨_,scanInitializedClass_initialized i hw,
    scanInitializedClass_initialized i hu⟩⟩
 have hclsInit:State.isInitialized {s with initialized:=i} cls=true:=by
  change i (if s.isMetaClass cls then cls else s.isa cls)=true
  rw [hkind]
  exact hinit
 have hmetaInit:State.isInitialized {s with initialized:=i} (s.isa cls)=true:=by
  change i (if s.isMetaClass (s.isa cls) then s.isa cls else s.isa (s.isa cls))=true
  rw [hmeta]
  exact hinit
 refine forBundles_own (b:=b) (I:=fun v=>Flagged prog b [] ∅ ∅ v ∧
  Touched ∅ {s with initialized:=i} v) (fun hne hv hw=>?_)
  (fun hne hv hw=>?_) (fun hv hw=>?_) hscans ⟨hset,.refl _ _⟩
 · have htouched:=scanInitializedClass_touched (X:=∅) hv
   exact ⟨hw.1.congr htouched.sameShape (scanInitializedClass_sameFor hne hv),hw.2.trans htouched⟩
 · exact hw.congr (scanInitializedClass_touched (X:=∅) hv).sameShape
    (scanInitializedClass_sameFor hne hv)
 · refine hw.1.scanInitializedClass ⟨?_,?_⟩ ⟨?_,?_⟩ ⟨?_,?_⟩ hv
   · rw [hw.2.realized]
     exact hreal
   · rw [hw.2.realized]
     exact hmetaReal
   · rw [hw.2.isInitialized]
     exact hclsInit
   · rw [hw.2.isInitialized]
     exact hmetaInit
   · rw [hw.2.isMetaClass]
     exact hkind
   · rw [hw.2.isMetaClass]
     exact hmeta

end Initialize

namespace Flagged

variable {cls:Cls} {X E:Set Cls}

theorem addMethodsFinish {newlist:List Method} (h:Flagged prog b P X E s)
 (ht:addMethodsFinish prog cls newlist s=some t) : Flagged prog b P X E t := by
 obtain ⟨u,hu,ht⟩:=Option.bind_eq_some_iff.mp ht
 obtain ⟨hprepared,hok⟩:=h.prepareMethodLists hu
 exact (hprepared.attach hok).flushCaches ht

theorem addMethod {name:Sel} (h:Flagged prog b P ∅ ∅ s)
 (hmon:replace=true → isInterestingSelector prog b name=true →
  getMethodNoSuper s cls name≠none → Monitored prog b s cls)
 (ht:addMethod prog cls name imp replace s=some t) : Flagged prog b P ∅ ∅ t := by
 rw [ClassGraph.addMethod] at ht
 split at ht
 · case h_1 m hm =>
   split at ht
   · case isTrue hreplace =>
     have hcls:=getMethodNoSuper_cls hm
     grind [h.methodSetImplementation,getMethodNoSuper_name]
   · cases ht
     exact h
 · exact h.addMethodsFinish ht

theorem attachCategories {cats:List Category} {isMeta existing:Bool} (h:Flagged prog b P X E s)
 (ht:attachCategories prog cls cats isMeta existing s=some t) : Flagged prog b P X E t := by
 rw [ClassGraph.attachCategories] at ht
 split at ht
 · cases ht
   exact h
 · obtain ⟨u,hu,ht⟩:=Option.bind_eq_some_iff.mp ht
   obtain ⟨hprepared,hok⟩:=h.prepareMethodLists hu
   split at ht
   · exact (hprepared.attach hok).flushCaches ht
   · cases ht
     exact hprepared.attach hok

theorem setUnattached {cats:List Category} (h:Flagged prog b P X E s) :
 Flagged prog b P X E {s with unattached:=update s.unattached cls cats} :=
 h.congr ⟨rfl,rfl,rfl,rfl,rfl⟩
  ⟨fun _=>rfl,rfl,rfl,rfl,rfl,fun _=>rfl,rfl,fun _=>rfl⟩

theorem loadForClass {cat:Category} {isMeta:Bool} (h:Flagged prog b P X E s)
 (ht:loadForClass prog cat cls isMeta s=some t) : Flagged prog b P X E t := by
 rw [ClassGraph.loadForClass] at ht
 grind [h.attachCategories,h.setUnattached]

theorem loadCategory {cat:Category} (h:Flagged prog b P X E s)
 (ht:loadCategory prog cat s=some t) : Flagged prog b P X E t := by
 obtain ⟨u,hu,ht⟩:=Option.bind_eq_some_iff.mp ht
 exact (h.loadForClass hu).loadForClass ht

theorem methodizeClass (h:Flagged prog b P ∅ ∅ s) (ht:methodizeClass prog cls s=some t) :
 Flagged prog b P ∅ ∅ t := by
 obtain ⟨u,hu,ht⟩:=Option.bind_eq_some_iff.mp ht
 obtain ⟨v,hv,ht⟩:=Option.bind_eq_some_iff.mp ht
 have hprepared:=(h.prepareMethodLists hu).1
 have hmethods:Flagged prog b P ∅ ∅ v:=by
  split at hv
  · refine hprepared.addMethod (fun hreplace=>?_) hv
    cases hreplace
  · cases hv
    exact hprepared
 exact hmethods.setUnattached.attachCategories ht

theorem finishRealizing (h:Flagged prog b (cls::P) ∅ ∅ s)
 (hsuper:∀p,s.superclass cls=some p → s.realized p=true)
 (hisa:s.realized (s.isa cls)=true) (ht:finishRealizing prog cls s=some t) :
 Flagged prog b P ∅ ∅ t := by
 obtain ⟨u,hu,ht⟩:=Option.bind_eq_some_iff.mp ht
 obtain ⟨v,hv,ht⟩:=Option.bind_eq_some_iff.mp ht
 have hraw:=chooseRawIsa_touched (X:=∅) hu
 have hchosen:Flagged prog b (cls::P) ∅ ∅ u:=h.congr hraw.sameShape (chooseRawIsa_sameFor hu)
 have hcopied:Flagged prog b (cls::P) ∅ ∅ (copyRoFlags cls u) :=
  hchosen.congr ⟨rfl,rfl,rfl,rfl,rfl⟩ (sameFor_modifyFlags fun _=>rfl)
 -- a class in the middle of it is custom
 have hcustom:(copyRoFlags cls u).isCustom b cls=true :=
  (hcopied.pending cls List.mem_cons_self).resolve_left (Set.notMem_empty _)
 have hconnected:=hcopied.connect (fun p hp=>?_) ?_ (fun _ _=>.inl hcustom)
  (fun _=>.inl hcustom) hv
 · exact (hconnected.mono subset_rfl Set.sdiff_subset).methodizeClass ht
 · rw [show (copyRoFlags cls u).superclass cls=s.superclass cls from hraw.superclass cls] at hp
   exact (congrFun hraw.realized p).trans (hsuper p hp)
 · change u.realized (u.isa cls)=true
   rw [hraw.realized,hraw.isa]
   exact hisa

theorem beginRealizing (h:Flagged prog b P ∅ ∅ s) (hnew:s.realized cls=false)
 (hgraph:Graph (beginRealizing cls s) (cls::P)) :
 Flagged prog b (cls::P) ∅ ∅ (beginRealizing cls s) := by
 have hcustom:∀c,(ClassGraph.beginRealizing cls s).isCustom b c =
  if c=cls then true else s.isCustom b c := by
  intro c
  rw [State.isCustom,show (ClassGraph.beginRealizing cls s).flags c =
   if c=cls then .zero else s.flags c from update_apply ..]
  split <;> rfl
 have hgrows:∀c,s.isCustom b c=true →
  (ClassGraph.beginRealizing cls s).isCustom b c=true := by grind
 have hold:∀{c:Cls},(ClassGraph.beginRealizing cls s).isCustom b c=false →
  c≠cls ∧ s.isCustom b c=false := by grind
 have hne:∀{c:Cls},s.realized c=true → c≠cls:=by grind
 have hlists:∀{c:Cls},c≠cls →
  (ClassGraph.beginRealizing cls s).lists c=s.lists c := fun hc=>update_of_ne hc ..
 have hdefaults:∀{c:Cls},c≠cls → HasDefaults prog b s c →
  HasDefaults prog b (ClassGraph.beginRealizing cls s) c :=
  fun hc hdef=>hdef.congr (fun _ _=>rfl) rfl rfl fun n _=>ownImp_congr (hlists hc) _
 refine ⟨hgraph,⟨h.roots.nsObject,h.roots.isa,h.roots.swift⟩,fun c hc=>.inr ?_,
  ⟨fun c hc=>?_,fun c hc hX=>?_,fun c hc hE=>?_,fun r hr hscan hreal hX hmask=>?_⟩,
  fun m hm=>hgrows _ (h.masked m hm)⟩
 · rcases List.mem_cons.mp hc with rfl|hc
   · rw [hcustom,if_pos rfl]
   · exact hgrows c ((h.pending c hc).resolve_left (Set.notMem_empty _))
 · obtain ⟨hcls,hc⟩:=hold hc
   obtain ⟨hreal,hinit,hscan⟩:=h.sound.settled c hc
   refine ⟨(update_of_ne hcls ..).trans hreal,?_,hscan⟩
   -- its metaclass is realized, so it is another one
   have hP:c∉P:=by
    intro hin
    rw [(h.pending c hin).resolve_left (Set.notMem_empty _)] at hc
    cases hc
   have hgetMeta:s.getMeta c≠cls:=by grind [State.getMeta,h.graph.isaRealized]
   exact (update_of_ne hgetMeta ..).trans hinit
 · obtain ⟨hcls,hc⟩:=hold hc
   exact (h.sound.methods c hc hX).imp (hdefaults hcls) fun hbare =>
    hbare.congr fun n _=>ownImp_congr (hlists hcls) _
 · obtain ⟨hcls,hc⟩:=hold hc
   refine (h.sound.inherits c hc hE).imp (hdefaults hcls) ?_
   rintro ⟨p,hp,hpc,hkind⟩
   refine ⟨p,hp,?_,hkind⟩
   rw [hcustom,if_neg (hne (h.sound.settled p hpc).1)]
   exact hpc
 · by_cases hrc : r=cls
   · intro base hbase
     refine ⟨base,[],?_,fun _ _=>rfl⟩
     change update s.lists cls (s.ro cls).baseMethods.toList r=[base]
     have hbase:(s.ro r).baseMethods=some base:=hbase
     rw [hrc,update_self,←hrc,hbase]
     rfl
   · have hreal:s.realized r=true:=(update_of_ne hrc ..).symm.trans hreal
     exact (h.sound.base r hr hscan hreal hX hmask).congr rfl (hlists hrc)

section

variable (h:Flagged prog b [] ∅ ∅ s)
include h

theorem realizeClass {fuel:ℕ} (hknown:s.known cls=true)
 (ht:realizeClassWithoutSwift prog fuel cls s=some t) : Flagged prog b [] ∅ ∅ t := by
 refine realizeClass_invariant (I:=fun s P=>Flagged prog b P ∅ ∅ s) (fun {x y} hstep hx=>?_) ht
  hknown h
 have hgraph:=hx.graph.realizeStep hstep
 cases hstep with
 | start hnew hfrom=>exact hx.beginRealizing hnew hgraph
 | finish hsuper hisa ht=>exact hx.finishRealizing hsuper hisa ht

theorem extend {F:List Cls} (hu:Extends F s u) (hgraph:Graph u F)
 (hknown:∀c,c∉F → u.known c=s.known c)
 (hnew:∀c∈F,u.isCustom b c=false →
  u.isInitialized c=true ∧ Scans b u c ∧ (HasDefaults prog b u c ∨ Bare prog b u c)) :
 Flagged prog b F ∅ {c | c∈F ∧ u.isCustom b c=false} u := by
 have hout:∀{c:Cls},s.known c=true → c∉F:=fun hc hin =>
  known_ne hc (hu.fresh _ hin) rfl
 have htrusted:∀{r:Cls} {isMeta:Bool},knownClassHasDefaultImpl prog b r isMeta=true →
  r∉F := fun hr=>hout (h.roots.known h.graph hr)
 have hnso:∀m,prog.nsoClass m∉F:=fun m=>hout (h.roots.nsoClass h.graph m).1
 have hcustom:∀{c:Cls},c∉F → u.isCustom b c=s.isCustom b c:=by
  intro c hc
  rw [State.isCustom,State.isCustom,hu.flags c hc]
 have hdefaults:∀{c:Cls},c∉F → HasDefaults prog b s c → HasDefaults prog b u c :=
  fun hc hdef=>hdef.congr (fun r hr=>hu.ro r (htrusted hr)) (hu.ro _ hc) (hu.isa _ hc)
   fun n _=>ownImp_congr (hu.lists _ hc) _
 refine ⟨hgraph,⟨?_,?_,fun c hc=>?_⟩,fun c hc=>?_,
  ⟨fun c hc=>?_,fun c hc hX=>?_,fun c hc hE=>?_,fun r hr hscan hreal hX hmask=>?_⟩,
  fun m hm=>?_⟩
 · grind [isMetaClass_congr,hu.ro,h.roots.nsObject]
 · have hroot:prog.nsObject∉F:=hnso false
   rw [hu.isa _ hroot]
   exact h.roots.isa
 · grind [h.roots.swift,isMetaClass_congr,hu.ro,hu.isa]
 · grind
 · by_cases hF : c∈F
   · exact ⟨hgraph.pending c hF,(hnew c hF hc).1,(hnew c hF hc).2.1⟩
   · rw [hcustom hF] at hc
     obtain ⟨hreal,hinit,hscan⟩:=h.sound.settled c hc
     refine ⟨(hu.realized c hF).trans hreal,?_,hscan.congr (hu.ro c hF)⟩
     have hgetMeta:u.getMeta c=s.getMeta c:=by
      rw [State.getMeta,State.getMeta,isMetaClass_congr (hu.ro c hF),hu.isa c hF]
     have hmeta:s.getMeta c∉F:=by
      rw [State.getMeta]
      split
      · exact hF
      · exact hout (h.graph.isaKnown (h.graph.realizedKnown hreal))
     rw [State.isInitialized,hgetMeta,hu.initialized _ hmeta]
     exact hinit
 · by_cases hF : c∈F
   · exact (hnew c hF hc).2.2
   · rw [hcustom hF] at hc
     exact (h.sound.methods c hc hX).imp (hdefaults hF) fun hbare =>
      hbare.congr fun n _=>ownImp_congr (hu.lists c hF) _
 · have hF:c∉F:=fun hin=>hE ⟨hin,hc⟩
   rw [hcustom hF] at hc
   refine (h.sound.inherits c hc (Set.notMem_empty c)).imp (hdefaults hF) ?_
   rintro ⟨p,hp,hpc,hkind⟩
   have hpF:=hout (h.graph.superKnown hp).2
   refine ⟨p,(hu.superclass c hF).trans hp,(hcustom hpF).trans hpc,?_⟩
   rw [isMetaClass_congr (hu.ro p hpF),isMetaClass_congr (hu.ro c hF)]
   exact hkind
 · have hF:=htrusted hr
   rw [hu.realized r hF] at hreal
   rw [hu.swizzled,isMetaClass_congr (hu.ro r hF)] at hmask
   exact (h.sound.base r (hr.congr (hu.ro r hF).symm) (hscan.congr (hu.ro r hF).symm) hreal hX
    hmask).congr (hu.ro r hF) (hu.lists r hF)
 · rw [hu.swizzled] at hm
   rw [hcustom (hnso m)]
   exact h.masked m hm

theorem initializeClassPair {superclass:Option Cls} {cls:Cls}
 (hlegal:(Op.allocateClassPair superclass cls metacls).Legal s)
 (hsuper:∀p,superclass=some p → s.realized p=true ∧ s.isMetaClass p=false)
 (ht:initializeClassPair superclass cls metacls s=some t) : Flagged prog b [] ∅ ∅ t := by
 obtain ⟨hne,hcls,hmeta,-⟩:=hlegal
 obtain ⟨hgraph,v,hv,-,ht,-⟩:=initializeClassPair_spec h.graph hne hcls hmeta hsuper ht
 have hcustom:∀c∈[cls,metacls],(withPair superclass cls metacls s).isCustom b c=true := by
  intro c hc
  rw [withPair,setInstancesRequireRawIsa,modifyFlags_isCustom]
  rcases List.mem_pair.mp hc with rfl|rfl
  · rw [if_neg hne,State.isCustom]
    change (!(update (update s.flags c _) metacls _ c).hasDefault b)=true
    rw [update_of_ne hne,update_self]
    rfl
  · rw [if_pos rfl]
    change (!(update (update s.flags cls _) c _ c).hasDefault b)=true
    rw [update_self]
    rfl
 have hnew:Flagged prog b [cls,metacls] ∅ ∅ (withPair superclass cls metacls s):=by
  refine (h.extend (withPair_extends superclass hcls hmeta) hgraph (fun c hc=>?_)
   fun c hc hnot=>?_).mono subset_rfl fun c hc=>?_
  · rw [List.mem_pair,not_or] at hc
    exact (update_of_ne hc.2 ..).trans (update_of_ne hc.1 ..)
  · rw [hcustom c hc] at hnot
    cases hnot
  · have hnot:=hc.2
    rw [hcustom c hc.1] at hnot
    cases hnot
 obtain ⟨hclsSuper,hclsIsa⟩ :=
  withPair_realized h.graph hne hcls hmeta hsuper (show cls∈[cls,metacls] by simp)
 obtain ⟨hmetaSuper,hmetaIsa⟩ :=
  withPair_realized h.graph hne hcls hmeta hsuper (show metacls∈[cls,metacls] by simp)
 have hfirst:Flagged prog b [metacls] ∅ ∅ v :=
  (hnew.connect hclsSuper hclsIsa (fun _ _=>.inl (hcustom cls (by simp)))
   (fun _=>.inl (hcustom cls (by simp))) hv).mono subset_rfl Set.sdiff_subset
 obtain ⟨hvreal,hvisa,hvsuper⟩:=connect_realized hv
 have hvcustom:v.isCustom b metacls=true :=
  (hfirst.pending metacls List.mem_cons_self).resolve_left (Set.notMem_empty _)
 refine (hfirst.connect (fun p hp=>?_) ?_ (fun _ _=>.inl hvcustom) (fun _=>.inl hvcustom)
  ht).mono subset_rfl Set.sdiff_subset
 · rw [hvsuper] at hp
   rw [hvreal]
   exact hmetaSuper p hp
 · rw [hvreal,hvisa]
   exact hmetaIsa

theorem duplicateClass {original duplicate:Cls}
 (hlegal:(Op.duplicateClass original duplicate).Legal s)
 (ht:duplicateClass original duplicate s=some t) : Flagged prog b [] ∅ ∅ t := by
 obtain ⟨⟨horig,hkind⟩,hdup⟩:=hlegal
 obtain ⟨hgraph,v,hv,-,rfl⟩:=duplicateClass_spec h.graph horig hkind hdup ht
 have hext:=withDuplicate_extends original hdup
 have hknown:=h.graph.realizedKnown horig
 have hout:∀{c:Cls},s.known c=true → c∉[duplicate]:=fun hc hin =>
  known_ne hc hdup (List.mem_singleton.mp hin)
 have hro:(withDuplicate original duplicate s).ro duplicate=s.ro original :=
  update_self ..
 have hisa:(withDuplicate original duplicate s).isa duplicate=s.isa original :=
  update_self ..
 have hsuper:(withDuplicate original duplicate s).superclass duplicate=s.superclass original :=
  update_self ..
 have hown:∀sel,ownImp (withDuplicate original duplicate s) duplicate sel =
  ownImp s original sel := by
  intro sel
  rw [ownImp,ownImp,show (withDuplicate original duplicate s).lists duplicate =
   s.lists original from update_self ..]
 have hdupKind:(withDuplicate original duplicate s).isMetaClass duplicate=false:=by
  rw [State.isMetaClass,hro]
  exact hkind
 -- only the retain/release flag is copied
 have hcopied:(withDuplicate original duplicate s).isCustom b duplicate=false →
  b=.rr ∧ s.isCustom b original=false := by
  intro hc
  rw [State.isCustom,show (withDuplicate original duplicate s).flags duplicate =
   (s.flags original).withEmptyCache from update_self ..,Bool.not_eq_false'] at hc
  obtain ⟨hrr,hdefault⟩:=Bool.and_eq_true_iff.mp hc
  grind [State.isCustom]
 have hdefaults:b=.rr → HasDefaults prog b s original →
  HasDefaults prog b (withDuplicate original duplicate s) duplicate := by
  rintro hrr ⟨r,hr⟩
  have hrro:=hext.ro r (hout (h.roots.known h.graph hr.trusted))
  refine ⟨r,hr.trusted.congr hrro,?_,fun hcore=>?_,fun _=>?_,fun n hn=>?_⟩
  · rw [isMetaClass_congr hrro,hr.kind,hkind,hdupKind]
  · rw [hrr] at hcore
    cases hcore
  · rw [hisa]
    exact hr.metaTrusted hkind
  · rw [hown,baseImp_congr hrro]
    exact hr.methods n hn
 have hnew:=h.extend hext hgraph (fun c hc=>update_of_ne
  (fun heq=>hc (List.mem_singleton.mpr heq)) ..) fun c hc hnot=>by
   obtain rfl:=List.mem_singleton.mp hc
   obtain ⟨hrr,hcustom⟩:=hcopied hnot
   refine ⟨?_,.inl (by rw [hrr]; rfl),?_⟩
   · have hinit:=(h.sound.settled original hcustom).2.1
     rw [State.isInitialized,State.getMeta,hkind] at hinit
     rw [State.isInitialized,State.getMeta,hdupKind]
     change (withDuplicate original c s).initialized ((withDuplicate original c s).isa c)=true
     rw [hisa,hext.initialized _ (hout (h.graph.isaKnown hknown))]
     exact hinit
   · exact (h.sound.methods original hcustom (Set.notMem_empty _)).imp (hdefaults hrr)
      fun hbare n hn=>(hown _).trans (hbare n hn)
 have hconnected:=hnew.connect (fun p hp=>?_) ?_ (fun p hp=>.inr ?_) (fun hroot=>?_) hv
 · have hdone:Flagged prog b [] ∅ ∅ v:=by
    refine hconnected.mono subset_rfl ?_
    rintro c ⟨⟨hc,-⟩,hne⟩
    exact hne (List.mem_singleton.mp hc)
   exact hdone.congr ⟨rfl,rfl,rfl,rfl,rfl⟩
    ⟨fun _=>rfl,rfl,rfl,rfl,rfl,fun _=>rfl,rfl,fun _=>rfl⟩
 · rw [hsuper] at hp
   rw [hext.realized p (hout (h.graph.superKnown hp).2)]
   exact h.graph.superRealized horig List.not_mem_nil hp
 · rw [hisa,hext.realized _ (hout (h.graph.isaKnown hknown))]
   exact h.graph.isaRealized horig List.not_mem_nil
 · rw [hsuper] at hp
   rw [isMetaClass_congr (hext.ro p (hout (h.graph.superKnown hp).2)),hdupKind]
   exact h.graph.superKind hkind hp
 · rw [hsuper] at hroot
   by_cases hcustom : (withDuplicate original duplicate s).isCustom b duplicate=true
   · exact .inl hcustom
   · obtain ⟨hrr,horiginal⟩:=hcopied (Bool.eq_false_iff.mpr hcustom)
     rcases h.sound.inherits original horiginal (Set.notMem_empty _) with hdef|⟨p,hp,-⟩
     · exact .inr (hdefaults hrr hdef)
     · rw [hroot] at hp
       cases hp

theorem setSuperclass {cls newSuper:Cls} {fuel:ℕ}
 (hlegal:(Op.setSuperclass fuel cls newSuper).Legal s)
 (hassert:(Op.setSuperclass fuel cls newSuper).Asserted s)
 (ht:setSuperclass fuel cls newSuper s=some t) : Flagged prog b [] ∅ ∅ t := by
 obtain ⟨⟨hcls,hkind⟩,⟨hnew,hnewKind⟩,hcycle⟩:=hlegal
 obtain ⟨-,u,v,w,x,hmoved⟩ :=
  setSuperclass_spec h.graph hcls hkind hnew hnewKind hcycle hassert ht
 obtain ⟨l,rfl⟩:=hmoved.detached
 have hsuper:∀d,State.superclass {s with links:=l} d=movedParent s cls newSuper d :=
  congrFun hmoved.parent
 have hknown:=h.graph.realizedKnown hcls
 have hne:cls≠s.isa cls:=by grind [h.graph.metaIsa]
 have hdetached:Flagged prog b [cls,s.isa cls] ∅ {cls,s.isa cls} {s with links:=l}:=by
  have hdefaults:∀{c:Cls},HasDefaults prog b s c → HasDefaults prog b {s with links:=l} c :=
   fun hc=>hc.congr (fun _ _=>rfl) rfl rfl fun _ _=>rfl
  refine ⟨hmoved.pending,⟨h.roots.nsObject,h.roots.isa,h.roots.swift⟩,fun c hc=>.inl ?_,
   ⟨h.sound.settled,fun c hc hX=>(h.sound.methods c hc hX).imp_left hdefaults,
    fun c hc hE=>?_,fun r hr hscan hreal hX hmask =>
     (h.sound.base r hr hscan hreal hX hmask).congr rfl rfl⟩,h.masked⟩
  · exact List.mem_pair.mp hc
  · refine (h.sound.inherits c hc (Set.notMem_empty _)).imp hdefaults ?_
    rintro ⟨p,hp,hpc,hpkind⟩
    have hcMeta:c≠s.isa cls:=fun heq=>hE (.inr heq)
    have hcCls:c≠cls:=fun heq=>hE (.inl heq)
    refine ⟨p,?_,hpc,hpkind⟩
    grind [movedParent_apply]
 have hmeta:=h.graph.isaRealized hcls List.not_mem_nil
 have hclsSuper:State.superclass {s with links:=l} cls=some newSuper:=by
  rw [hsuper,movedParent_apply,if_neg hne,if_pos rfl]
 have hfirst:=hdetached.addSubclass hclsSuper hnew hmeta (.inr (hnewKind.trans hkind.symm))
  hmoved.addedClass
 have hv:=addSubclass_touched (X:=∅) hmoved.addedClass
 have hvsuper:v.superclass (s.isa cls)=some (s.isa newSuper):=by
  rw [hv.superclass]
  change State.superclass {s with links:=l} (s.isa cls)=_
  rw [hsuper,movedParent_apply,if_pos rfl]
 have hvreal:v.realized=s.realized:=hv.realized
 have hvisa:v.isa=s.isa:=hv.isa
 have hvkind:∀c,v.isMetaClass c=s.isMetaClass c:=fun c=>hv.isMetaClass c
 have hsecond:=hfirst.addSubclass hvsuper
  (by rw [hvreal]; exact h.graph.isaRealized hnew List.not_mem_nil)
  (by rw [hvreal,hvisa]; exact h.graph.isaRealized hmeta List.not_mem_nil)
  (.inr (by
   rw [hvkind,hvkind,h.graph.metaIsa hknown,h.graph.metaIsa (h.graph.realizedKnown hnew)]))
  hmoved.addedMeta
 have hlinked:Flagged prog b [] ∅ ∅ w:=by simp_all
 exact (hlinked.flushCaches hmoved.flushed).flushCaches hmoved.flushedMeta

end

end Flagged

section Grows

variable {c cls:Cls}

theorem isCustom_marks : Marks b' (fun u:State preopt=>u.isCustom b c=true) where
 custom _ hu := by rw [setCustom_isCustom,hu,Bool.true_or]
 swizzled _ hu := hu

theorem methodSetImplementation_grows {cls:Option Cls} {m:MethodRef}
 (hc:s.isCustom b c=true) (ht:methodSetImplementation prog cls m imp s=some t) :
 t.isCustom b c=true := by
 rw [methodSetImplementation] at ht
 split at ht
 · cases ht
   exact hc
 · obtain ⟨u,hu,ht⟩:=Option.bind_eq_some_iff.mp ht
   have hflushed:u.isCustom b c=true:=(SameFor.isCustom (flushCaches_sameFor hu) c).trans hc
   exact forBundles_invariant (fun hw hv=>isCustom_marks.changedMethod hw hv) ht hflushed

theorem Monitored.setImplementation {cls:Option Cls} {m:MethodRef} (h:Monitored prog b s c)
 (ht:methodSetImplementation prog cls m imp s=some t) :
 Monitored prog b t c := by
 refine h.imp_right fun h=>h.imp_right fun ⟨hcustom,huntrusted⟩=>?_
 have hro:=(methodSetImplementation_touched (X:=Set.univ) ht trivial).ro
 exact ⟨methodSetImplementation_grows hcustom ht,
  fun htrusted=>huntrusted (htrusted.congr (congrFun hro c).symm)⟩

end Grows

namespace Flagged

variable {cls:Cls}

theorem addMethodsLoop {methods fresh:List Method} (h:Flagged prog b [] ∅ ∅ s)
 (hmon:replace=true → ∀x∈methods,isInterestingSelector prog b x.name=true →
  getMethodNoSuper s cls x.name≠none → Monitored prog b s cls)
 (ht:addMethodsLoop prog cls replace methods s=some (t,fresh)) :
 Flagged prog b [] ∅ ∅ t := by
 induction methods generalizing s fresh with
 | nil=>
  cases ht
  exact h
 | cons x rest ih=>
  rw [ClassGraph.addMethodsLoop] at ht
  split at ht
  · case h_1 m hm =>
    obtain ⟨u,hu,ht⟩:=Option.bind_eq_some_iff.mp ht
    split at hu
    · case isTrue hreplace =>
      have hcls:=getMethodNoSuper_cls hm
      have hset:Flagged prog b [] ∅ ∅ u:=by
       refine h.methodSetImplementation (.inr (congrArg some hcls.symm))
        (fun old hold hname=>?_) hu
       rw [getMethodNoSuper_name hm hold] at hname
       rw [hcls]
       exact hmon hreplace x List.mem_cons_self hname (by rw [hm]; exact Option.some_ne_none m)
      refine ih hset (fun hr y hy hname hfound=>?_) ht
      rw [methodSetImplementation_getMethodNoSuper hu] at hfound
      exact (hmon hr y (List.mem_cons_of_mem _ hy) hname hfound).setImplementation hu
    · cases hu
      exact ih h (fun hr y hy=>hmon hr y (List.mem_cons_of_mem _ hy)) ht
  · obtain ⟨⟨u,l⟩,hu,heq⟩:=Option.map_eq_some_iff.mp ht
    cases heq
    exact ih h (fun hr y hy=>hmon hr y (List.mem_cons_of_mem _ hy)) hu

theorem addMethods {methods:List Method} (h:Flagged prog b [] ∅ ∅ s)
 (hmon:replace=true → ∀x∈methods,isInterestingSelector prog b x.name=true →
  getMethodNoSuper s cls x.name≠none → Monitored prog b s cls)
 (ht:addMethods prog cls methods replace s=some t) : Flagged prog b [] ∅ ∅ t := by
 obtain ⟨⟨u,fresh⟩,hu,ht⟩:=Option.bind_eq_some_iff.mp ht
 have hloop:=h.addMethodsLoop hmon hu
 split at ht
 · cases ht
   exact hloop
 · exact hloop.addMethodsFinish ht

end Flagged

/-- The classes of the methods that get another IMP, as far as the bundle has them. -/
def Op.Changes (prog:Program) (b:Bundle) : Op → State preopt → Cls → Prop
 | .replaceMethod cls name _,s,c=>
  c=cls ∧ isInterestingSelector prog b name=true ∧ getMethodNoSuper s cls name≠none
 | .replaceMethodsBulk cls methods,s,c=>c=cls ∧ ∃x∈methods,
  isInterestingSelector prog b x.name=true ∧ getMethodNoSuper s cls x.name≠none
 | .setImplementation m _,s,c=>
  c=m.cls ∧ ∃old,s.method m=some old ∧ isInterestingSelector prog b old.name=true
 | .exchangeImplementations m1 m2,s,c=>∃m∈[m1,m2],
  c=m.cls ∧ ∃old,s.method m=some old ∧ isInterestingSelector prog b old.name=true
 | _,_,_=>False

/-- The methods that get another IMP are of NSObject or its metaclass, or of a class that is custom
already. -/
def Op.Monitors (prog:Program) (b:Bundle) (op:Op) (s:State preopt) : Prop :=
 ∀c,op.Changes prog b s c → Monitored prog b s c

theorem Flagged.step {op:Op} (h:Flagged prog b [] ∅ ∅ s) (hlegal:op.Legal s)
 (hassert:op.Asserted s) (hmon:op.Monitors prog b s) (ht:op.step prog s=some t) :
 Flagged prog b [] ∅ ∅ t := by
 cases op with
 | realizeClass fuel cls=>exact h.realizeClass hlegal ht
 | loadCategory cat=>exact h.loadCategory ht
 | addMethod cls name imp=>
  refine h.addMethod (fun hreplace=>?_) ht
  cases hreplace
 | replaceMethod cls name imp=>
  exact h.addMethod (fun _ hname hfound=>hmon cls ⟨rfl,hname,hfound⟩) ht
 | addMethodsBulk cls methods=>
  refine h.addMethods (fun hreplace=>?_) ht
  cases hreplace
 | replaceMethodsBulk cls methods=>
  exact h.addMethods (fun _ x hx hname hfound=>hmon cls ⟨rfl,x,hx,hname,hfound⟩) ht
 | setImplementation m imp=>
  exact h.methodSetImplementation (.inl rfl)
   (fun old hold hname=>hmon m.cls ⟨rfl,old,hold,hname⟩) ht
 | exchangeImplementations m1 m2=>
  exact h.methodExchangeImplementations
   (fun old hold hname=>hmon m1.cls ⟨m1,by simp,rfl,old,hold,hname⟩)
   (fun old hold hname=>hmon m2.cls ⟨m2,by simp,rfl,old,hold,hname⟩) ht
 | setSuperclass fuel cls newSuper=>exact h.setSuperclass hlegal hassert ht
 | duplicateClass original duplicate=>exact h.duplicateClass hlegal ht
 | allocateClassPair superclass cls metacls=>
  rcases allocateClassPair_cases hlegal ht with rfl|⟨hsuper,ht⟩
  · exact h
  · exact h.initializeClassPair hlegal hsuper ht
 | registerClassPair cls=>
  cases ht
  rw [registerClassPair]
  split
  · exact h.congr ⟨rfl,rfl,rfl,rfl,rfl⟩
     ⟨fun _=>rfl,rfl,rfl,rfl,rfl,fun _=>rfl,rfl,fun _=>rfl⟩
  · exact h
 | setInitialized cls=>exact h.setInitialized hlegal.1 hlegal.2 ht
 | setCustomDeallocInitiation cls=>
  exact h.congr (setCustomDeallocInitiation_sameShape ht) (setCustomDeallocInitiation_sameFor ht)
 | lookUp fuel sel cls resolver nocache=>
  obtain ⟨u,imp,hu,-,ht⟩:=lookUp_cases ht
  have hreal:=h.realizeClass hlegal hu
  rcases ht with rfl|rfl
  · exact hreal
  · rw [fillCache]
    split
    · exact hreal.congr ⟨rfl,rfl,rfl,rfl,rfl⟩ (sameFor_cache b u _)
    · exact hreal

end ObjcRuntime.ClassGraph
