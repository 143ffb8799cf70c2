import ObjcRuntime.ClassLinks

/-!
# The operations on the class graph

Every operation keeps the shape of the graph.
-/

set_option autoImplicit false
namespace ObjcRuntime.ClassGraph

open PartialRuns
open MethodLookup (Sel Imp MethodImp Cache)
open SiblingLists
open Function

variable {preopt:Bool} {s t u:State preopt} {prog:Program} {P:List Cls}

section NewClass

variable {c d isa:Cls} {superclass:Option Cls} {ro:Ro} {flags:Flags}
 {lists:List (List Method)} {constructing:Bool}

theorem newClass_superclass : (s.newClass c isa superclass ro flags lists constructing).superclass =
  update s.superclass c superclass := rfl

theorem newClass_isa : (s.newClass c isa superclass ro flags lists constructing).isa d =
 if d=c then isa else s.isa d := update_apply ..

theorem newClass_isMetaClass :
 (s.newClass c isa superclass ro flags lists constructing).isMetaClass d =
  if d=c then ro.isMeta else s.isMetaClass d := by
 rw [State.isMetaClass,show (s.newClass c isa superclass ro flags lists constructing).ro d =
  if d=c then ro else s.ro d from update_apply ..]
 split <;> rfl

theorem newClass_known : (s.newClass c isa superclass ro flags lists constructing).known d =
 if d=c then true else s.known d := update_apply ..

theorem newClass_realized : (s.newClass c isa superclass ro flags lists constructing).realized d =
 if d=c then true else s.realized d := update_apply ..

theorem newClass_links {member:Cls → Prop} (h:s.links.Ok member) (hc:¬ member c)
 (hchild:∀d,s.superclass d≠some c) :
 (s.newClass c isa superclass ro flags lists constructing).links.Ok member :=
 (h.clear hc fun d _=>hchild d).setParent hc superclass

end NewClass

theorem Graph.unknown_ne {c d:Cls} (h:Graph s P) (hc:s.known c=false) : s.superclass d≠some c := by
 intro hd
 rw [(h.superKnown hd).2] at hc
 cases hc

theorem known_ne {c d:Cls} (hc:s.known c=true) (hd:s.known d=false) : c≠d := by
 rintro rfl
 rw [hc] at hd
 cases hd

structure Extends (F:List Cls) (s u:State preopt) : Prop where
 fresh : ∀c∈F,s.known c=false
 superclass : ∀c,c∉F → u.superclass c=s.superclass c
 isa : ∀c,c∉F → u.isa c=s.isa c
 ro : ∀c,c∉F → u.ro c=s.ro c
 realized : ∀c,c∉F → u.realized c=s.realized c
 initialized : ∀c,c∉F → u.initialized c=s.initialized c
 flags : ∀c,c∉F → u.flags c=s.flags c
 lists : ∀c,c∉F → u.lists c=s.lists c
 cache : ∀c,c∉F → u.cache c=s.cache c
 empty : ∀c∈F,u.cache c=.empty
 uninitialized : ∀c∈F,u.initialized c=false
 swizzled : u.swizzled=s.swizzled

def withDuplicate (original duplicate:Cls) (s:State preopt) : State preopt :=
 s.newClass duplicate (s.isa original) (s.superclass original) (s.ro original)
  (s.flags original).withEmptyCache (s.lists original) (s.constructing original)

theorem withDuplicate_extends (original:Cls) {duplicate:Cls} (hdup:s.known duplicate=false) :
 Extends [duplicate] s (withDuplicate original duplicate s) := by
 have hne:∀{c:Cls},c∉[duplicate] → c≠duplicate:=fun hc heq =>
  hc (heq ▸ List.mem_singleton_self _)
 refine ⟨?_,?_,?_,?_,?_,?_,?_,?_,?_,?_,?_,rfl⟩
 · exact fun c hc=>List.mem_singleton.mp hc ▸ hdup
 all_goals intro c hc
 iterate 8 exact update_of_ne (hne hc) ..
 all_goals
  obtain rfl:=List.mem_singleton.mp hc
  exact update_self ..

theorem duplicateClass_spec {original duplicate:Cls} (h:Graph s [])
 (horig:s.realized original=true) (hkind:s.isMetaClass original=false)
 (hdup:s.known duplicate=false) (ht:duplicateClass original duplicate s=some t) :
 Graph (withDuplicate original duplicate s) [duplicate] ∧
  ∃v,connect duplicate (withDuplicate original duplicate s)=some v ∧ Graph v [] ∧
   t = {v with namedClasses:=v.namedClasses+1} := by
 obtain ⟨v,hv,rfl⟩:=Option.map_eq_some_iff.mp ht
 have hknown:=h.realizedKnown horig
 have hisa:=h.isaKnown hknown
 have hnew:Graph (withDuplicate original duplicate s) [duplicate]:=by
  refine h.extend (List.nodup_singleton _) (fun c hc=>List.mem_singleton.mp hc ▸ hdup) ?_ ?_ ?_
   ?_ ?_
  · refine newClass_links (h.lists.congr fun c=>by simp) (fun hreal=>?_)
     fun d=>h.unknown_ne hdup
    exact known_ne (h.realizedKnown hreal) hdup rfl
  · grind [withDuplicate,newClass_superclass,h.noCycle.update,h.unknown_ne]
  · intro c hc
    have hne:c≠duplicate:=fun heq=>hc (heq ▸ List.mem_singleton_self _)
    rw [withDuplicate,newClass_superclass,newClass_isa,newClass_isMetaClass,newClass_known,
     newClass_realized,if_neg hne,if_neg hne,if_neg hne,if_neg hne]
    exact ⟨update_of_ne hne ..,rfl,rfl,rfl,rfl⟩
  · intro c hc
    obtain rfl:=List.mem_singleton.mp hc
    rw [withDuplicate,newClass_known,newClass_realized,newClass_isa,if_pos rfl,if_pos rfl,
     if_pos rfl,newClass_known,newClass_isMetaClass,if_neg (known_ne hisa hdup),
     if_neg (known_ne hisa hdup)]
    exact ⟨rfl,rfl,hisa,h.metaIsa hknown⟩
  · intro c hc p hp
    obtain rfl:=List.mem_singleton.mp hc
    rw [withDuplicate,newClass_superclass,update_self] at hp
    have hpknown:=(h.superKnown hp).2
    rw [withDuplicate,newClass_known,newClass_isMetaClass,newClass_isMetaClass,if_pos rfl,
     if_neg (known_ne hpknown hdup),if_neg (known_ne hpknown hdup)]
    refine ⟨hpknown,fun _=>h.superKind hkind hp,fun hmeta=>?_⟩
    rw [show (s.ro original).isMeta=false from hkind] at hmeta
    cases hmeta
 refine ⟨hnew,v,hv,hnew.connect (fun p hp=>?_) ?_ hv,rfl⟩
 · rw [withDuplicate,newClass_superclass,update_self] at hp
   grind [withDuplicate,newClass_realized,h.superRealized]
 · rw [withDuplicate,newClass_isa,if_pos rfl,newClass_realized]
   split
   · rfl
   · exact h.isaRealized horig List.not_mem_nil

theorem Graph.newPair {superclass:Option Cls} {cls metacls isaOfMeta superOfMeta:Cls}
 {flags flags':Flags} (h:Graph s []) (hne:cls≠metacls) (hcls:s.known cls=false)
 (hmeta:s.known metacls=false)
 (hsuper:∀p,superclass=some p → s.known p=true ∧ s.isMetaClass p=false)
 (hisa:isaOfMeta=metacls ∨ s.known isaOfMeta=true ∧ s.isMetaClass isaOfMeta=true)
 (hsuperOfMeta:superOfMeta=cls ∧ superclass=none ∨
  s.known superOfMeta=true ∧ s.isMetaClass superOfMeta=true) :
 Graph ((s.newClass cls metacls superclass (.ofPair false) flags [] true).newClass metacls
  isaOfMeta (some superOfMeta) (.ofPair true) flags' [] true) [cls,metacls] := by
 have hpne:∀p,superclass=some p → p≠cls ∧ p≠metacls:=fun p hp =>
  ⟨known_ne (hsuper p hp).1 hcls,known_ne (hsuper p hp).1 hmeta⟩
 have hsome:superOfMeta≠metacls:=by grind
 have hchild:∀d,update s.superclass cls superclass d≠some metacls:=by grind [h.unknown_ne]
 refine h.extend (by simp [hne]) ?_ ?_ ?_ ?_ ?_ ?_
 · grind
 · have hunreal:∀c,s.known c=false → ¬ s.realized c=true:=fun c hc hreal =>
    known_ne (h.realizedKnown hreal) hc rfl
   refine newClass_links (newClass_links (h.lists.congr fun c=>by simp) (hunreal cls hcls)
    fun d=>h.unknown_ne hcls) (hunreal metacls hmeta) hchild
 · rw [newClass_superclass,newClass_superclass]
   refine (h.noCycle.update (fun d=>h.unknown_ne hcls) fun heq=>(hpne cls heq).1 rfl).update
    hchild fun heq=>hsome (Option.some.inj heq)
 · intro c hc
   rw [List.mem_pair,not_or] at hc
   rw [newClass_superclass,newClass_superclass]
   grind [newClass_isa,newClass_isMetaClass,newClass_known,newClass_realized]
 · intro c hc
   simp only [newClass_isa,newClass_isMetaClass,newClass_known,newClass_realized]
   rcases List.mem_pair.mp hc with rfl|rfl
   · simp [hne,Ro.ofPair]
   · rcases hisa with rfl|⟨hk,hm⟩
     · simp [Ro.ofPair]
     · simp [known_ne hk hmeta,known_ne hk hcls,hk,hm]
 · intro c hc p hp
   rw [newClass_superclass,newClass_superclass] at hp ⊢
   simp only [newClass_isa,newClass_isMetaClass,newClass_known]
   rcases List.mem_pair.mp hc with rfl|rfl
   · rw [update_of_ne hne,update_self] at hp
     obtain ⟨hk,hm⟩:=hsuper p hp
     simp [known_ne hk hmeta,known_ne hk hcls,hk,hm,hne,Ro.ofPair]
   · rw [update_self,Option.some.injEq] at hp
     subst hp
     rcases hsuperOfMeta with ⟨rfl,rfl⟩|⟨hk,hm⟩
     · simp [hne,Ro.ofPair]
     · simp [known_ne hk hmeta,known_ne hk hcls,hk,hm,Ro.ofPair]

def withPair (superclass:Option Cls) (cls metacls:Cls) (s:State preopt) : State preopt :=
 setInstancesRequireRawIsa metacls
  ((s.newClass cls metacls superclass (.ofPair false) { Flags.zero with
   forbidsAssociatedObjects := superclass.any fun p=>(s.flags p).forbidsAssociatedObjects }
   [] true).newClass metacls (superclass.elim metacls fun p=>s.isa (s.isa p))
   (some (superclass.elim cls s.isa)) (.ofPair true) .zero [] true)

section Pair

variable {superclass:Option Cls} {cls metacls:Cls}

theorem withPair_extends (superclass:Option Cls) (hcls:s.known cls=false)
 (hmeta:s.known metacls=false) :
 Extends [cls,metacls] s (withPair superclass cls metacls s) := by
 have hold:∀{β:Type} {f:Cls → β} {a b:β} {c:Cls},c∉[cls,metacls] →
  update (update f cls a) metacls b c=f c := by grind
 have hnew:∀{β:Type} {f:Cls → β} {a:β} {c:Cls},c∈[cls,metacls] →
  update (update f cls a) metacls a c=a := by grind
 refine ⟨?_,fun c=>hold,fun c=>hold,fun c=>hold,fun c=>hold,fun c=>hold,?_,
  fun c=>hold,fun c=>hold,fun c=>hnew,fun c=>hnew,rfl⟩
 · grind
 · intro c hc
   have hne:c≠metacls:=fun heq=>hc (heq ▸ by simp)
   rw [withPair,setInstancesRequireRawIsa,modifyFlags_flags,if_neg hne]
   exact hold hc

theorem withPair_superclass (s:State preopt) (superclass:Option Cls) (hne:cls≠metacls) :
 (withPair superclass cls metacls s).superclass cls=superclass ∧
  (withPair superclass cls metacls s).superclass metacls=some (superclass.elim cls s.isa) :=
 ⟨(update_of_ne hne ..).trans (update_self ..),update_self ..⟩

theorem initializeClassPair_eq (h:Graph s []) (hne:cls≠metacls) (hcls:s.known cls=false)
 (hmeta:s.known metacls=false) (hsuper:∀p,superclass=some p → s.known p=true) :
 initializeClassPair superclass cls metacls s =
  (connect cls (withPair superclass cls metacls s)).bind (connect metacls) := by
 obtain ⟨hs1,hs2⟩:=withPair_superclass s superclass hne
 have hconnect:∀{v:State preopt} {q:Cls},v.superclass metacls=some q →
  connect metacls v=addSubclass q metacls v := by
  intro v q hq
  rw [connect,hq]
 cases superclass with
 | none=>
  rw [connect,hs1,Option.bind_some]
  exact (hconnect (v:=addRootClass cls (withPair none cls metacls s)) hs2).symm
 | some p=>
  have hp:=hsuper p rfl
  have hisa:=h.isaKnown hp
  have hp1:=known_ne hp hcls
  have hp2:=known_ne hp hmeta
  rw [connect,hs1,initializeClassPair]
  simp only [newClass_isa,if_neg hp1,if_neg (known_ne hisa hcls)]
  refine Option.bind_congr fun v hv=>?_
  have hv':=addSubclass_touched (X:=∅) hv
  have hisav:v.isa p=s.isa p:=by
   rw [hv'.isa]
   exact (withPair_extends _ hcls hmeta).isa p (by simp [hp1,hp2])
  rw [hisav]
  refine (hconnect ?_).symm
  rw [hv'.superclass]
  exact hs2

theorem withPair_graph (h:Graph s []) (hne:cls≠metacls) (hcls:s.known cls=false)
 (hmeta:s.known metacls=false)
 (hsuper:∀p,superclass=some p → s.realized p=true ∧ s.isMetaClass p=false) :
 Graph (withPair superclass cls metacls s) [cls,metacls] := by
 rw [withPair]
 refine (h.newPair hne hcls hmeta (fun p hp=>?_) ?_ ?_).touched (X:=∅)
  touched_setInstancesRequireRawIsa
 · exact ⟨h.realizedKnown (hsuper p hp).1,(hsuper p hp).2⟩
 · cases superclass with
   | none=>exact .inl rfl
   | some p=>grind [h.isaKnown,h.realizedKnown,h.metaIsa]
 · cases superclass with
   | none=>exact .inl ⟨rfl,rfl⟩
   | some p=>grind [h.realizedKnown,h.isaKnown,h.metaIsa]

theorem withPair_realized (h:Graph s []) (hne:cls≠metacls) (hcls:s.known cls=false)
 (hmeta:s.known metacls=false)
 (hsuper:∀p,superclass=some p → s.realized p=true ∧ s.isMetaClass p=false) {c:Cls}
 (hc:c∈[cls,metacls]) :
 (∀p,(withPair superclass cls metacls s).superclass c=some p →
  (withPair superclass cls metacls s).realized p=true) ∧
 (withPair superclass cls metacls s).realized
  ((withPair superclass cls metacls s).isa c)=true := by
 have hnew:=withPair_graph h hne hcls hmeta hsuper
 have hext:=withPair_extends superclass hcls hmeta
 obtain ⟨hs1,hs2⟩:=withPair_superclass s superclass hne
 have hreal:∀{c:Cls},s.realized c=true → (withPair superclass cls metacls s).realized c=true := by
  intro c hc
  by_cases hin : c∈[cls,metacls]
  · exact hnew.pending c hin
  · exact (hext.realized c hin).trans hc
 have hisacls:(withPair superclass cls metacls s).isa cls=metacls :=
  (update_of_ne hne ..).trans (update_self ..)
 have hisameta:(withPair superclass cls metacls s).isa metacls =
  superclass.elim metacls fun p=>s.isa (s.isa p) := update_self ..
 have hpending:(withPair superclass cls metacls s).realized metacls=true :=
  hnew.pending metacls (by simp)
 rcases List.mem_pair.mp hc with rfl|rfl
 · grind
 · refine ⟨fun p hp=>?_,?_⟩
   · rw [hs2,Option.some.injEq] at hp
     rw [←hp]
     cases superclass with
     | none=>exact hnew.pending cls List.mem_cons_self
     | some p=>exact hreal (h.isaRealized (hsuper p rfl).1 List.not_mem_nil)
   · rw [hisameta]
     cases superclass with
     | none=>exact hpending
     | some p=>grind [h.isaRealized]

theorem initializeClassPair_spec (h:Graph s []) (hne:cls≠metacls)
 (hcls:s.known cls=false) (hmeta:s.known metacls=false)
 (hsuper:∀p,superclass=some p → s.realized p=true ∧ s.isMetaClass p=false)
 (ht:initializeClassPair superclass cls metacls s=some t) :
 Graph (withPair superclass cls metacls s) [cls,metacls] ∧
  ∃v,connect cls (withPair superclass cls metacls s)=some v ∧ Graph v [metacls] ∧
   connect metacls v=some t ∧ Graph t [] := by
 rw [initializeClassPair_eq h hne hcls hmeta fun p hp=>h.realizedKnown (hsuper p hp).1] at ht
 obtain ⟨v,hv,ht⟩:=Option.bind_eq_some_iff.mp ht
 have hnew:=withPair_graph h hne hcls hmeta hsuper
 obtain ⟨hclsSuper,hclsIsa⟩ :=
  withPair_realized h hne hcls hmeta hsuper (show cls∈[cls,metacls] by simp)
 obtain ⟨hmetaSuper,hmetaIsa⟩ :=
  withPair_realized h hne hcls hmeta hsuper (show metacls∈[cls,metacls] by simp)
 have hfirst:Graph v [metacls]:=hnew.connect hclsSuper hclsIsa hv
 obtain ⟨hvreal,hvisa,hvsuper⟩:=connect_realized hv
 refine ⟨hnew,v,hv,hfirst,ht,hfirst.connect (fun p hp=>?_) ?_ ht⟩
 · rw [hvsuper] at hp
   rw [hvreal]
   exact hmetaSuper p hp
 · rw [hvreal,hvisa]
   exact hmetaIsa

end Pair

variable {fuel:ℕ} {C:Op → State preopt → Prop} {sel:Sel} {op:Op}

section SetSuperclass

variable {cls newSuper:Cls}

def movedParent (s:State preopt) (cls newSuper:Cls) : Cls → Option Cls :=
 update (update s.superclass cls (some newSuper)) (s.isa cls)
  (some (s.isa newSuper))

theorem movedParent_apply (d:Cls) : movedParent s cls newSuper d =
 if d=s.isa cls then some (s.isa newSuper)
 else if d=cls then some newSuper else s.superclass d := by
 rw [movedParent,update_apply,update_apply]

theorem Graph.reparent (h:Graph s [s.isa cls,cls]) (hcls:s.isMetaClass cls=false)
 (hsuper:s.superclass cls≠none) (hnew:s.known newSuper=true)
 (hkind:s.isMetaClass newSuper=false) (hcycle:NoCycle (movedParent s cls newSuper)) :
 Graph (setSuperclassPointer (s.isa cls) (s.isa newSuper) (setSuperclassPointer cls newSuper s))
  [s.isa cls,cls] := by
 have hparent:(setSuperclassPointer (s.isa cls) (s.isa newSuper)
  (setSuperclassPointer cls newSuper s)).superclass=movedParent s cls newSuper := rfl
 have hknown:s.known cls=true:=h.realizedKnown (h.pending cls (by simp))
 have hmeta:=h.metaIsa hknown
 refine { h with
  lists := ?_
  noCycle := ?_
  superRealized := ?_
  superKnown := ?_
  superKind := ?_
  rootMeta := ?_ }
 · rw [hparent]
   exact hcycle
 · intro c p hp
   rw [hparent,movedParent_apply] at hp
   split at hp
   · case isTrue hc =>
     obtain rfl:=Option.some.inj hp
     exact ⟨hc ▸ h.isaKnown hknown,h.isaKnown hnew⟩
   split at hp
   · case isTrue hc =>
     obtain rfl:=Option.some.inj hp
     exact ⟨hc ▸ hknown,hnew⟩
   · exact h.superKnown hp
 · intro c p hc hp
   change s.isMetaClass c=false at hc
   rw [hparent,movedParent_apply] at hp
   split at hp
   · grind
   split at hp
   · obtain rfl:=Option.some.inj hp
     exact hkind
   · exact h.superKind hc hp
 · intro c p hc hp hpkind
   change s.isMetaClass c=true at hc
   change s.isMetaClass p=false at hpkind
   rw [hparent,movedParent_apply] at hp ⊢
   split at hp
   · grind [h.metaIsa]
   split at hp
   · grind
   · obtain ⟨hroot,hisa⟩:=h.rootMeta hc hp hpkind
     refine ⟨?_,hisa⟩
     grind
 · exact (h.lists.setParent (fun hm=>hm.2 (by simp)) _).setParent (fun hm=>hm.2 (by simp)) _
 · intro c p hc hP hp
   rw [List.mem_pair,not_or] at hP
   rw [hparent,movedParent_apply,if_neg hP.1,if_neg hP.2] at hp
   exact h.superRealized hc (by simp [hP]) hp

structure Moved (cls newSuper:Cls) (s u v w x t:State preopt) : Prop where
 detached : ∃l : Links Cls,u = {s with links:=l}
 parent : u.superclass=movedParent s cls newSuper
 pending : Graph u [cls,s.isa cls]
 addedClass : addSubclass newSuper cls u=some v
 pendingMeta : Graph v [s.isa cls]
 addedMeta : addSubclass (s.isa newSuper) (s.isa cls) v=some w
 linked : Graph w []
 flushed : flushCaches (some cls) (fun _ _=>true) w=some x
 flushedMeta : flushCaches (some (s.isa cls)) (fun _ _=>true) x=some t

theorem setSuperclass_spec (h:Graph s []) (hcls:s.realized cls=true)
 (hkind:s.isMetaClass cls=false) (hnew:s.realized newSuper=true)
 (hnewKind:s.isMetaClass newSuper=false) (hcycle:NoCycle (movedParent s cls newSuper))
 (hassert:∀old,s.superclass cls=some old → s.superclass (s.isa cls)=some (s.isa old))
 (ht:setSuperclass fuel cls newSuper s=some t) :
 s.superclass cls≠none ∧ ∃u v w x,Moved cls newSuper s u v w x t := by
 obtain ⟨old,hold,ht⟩:=Option.bind_eq_some_iff.mp ht
 obtain ⟨s1,hs1,ht⟩:=Option.bind_eq_some_iff.mp ht
 obtain ⟨s2,hs2,ht⟩:=Option.bind_eq_some_iff.mp ht
 obtain ⟨v,hv,ht⟩:=Option.bind_eq_some_iff.mp ht
 obtain ⟨w,hw,ht⟩:=Option.bind_eq_some_iff.mp ht
 obtain ⟨x,hx,hflush⟩:=Option.bind_eq_some_iff.mp ht
 have hknown:=h.realizedKnown hcls
 have hmeta:=h.isaRealized hcls List.not_mem_nil
 have hnewMeta:=h.isaRealized hnew List.not_mem_nil
 have hne:s.isa cls≠cls:=fun heq=>by
  rw [←heq,h.metaIsa hknown] at hkind
  cases hkind
 -- out of the two lists
 obtain ⟨l1,rfl,hl1,h1⟩:=h.removeSubclass hcls List.not_mem_nil hold hs1
 have hassert1:State.superclass {s with links:=l1} (s.isa cls)=some (s.isa old) :=
  (congrFun hl1 _).trans (hassert old hold)
 obtain ⟨l2,rfl,hl2,h2⟩:=h1.removeSubclass hmeta (by simp [hne]) hassert1 hs2
 have hsame:State.superclass {s with links:=l2}=s.superclass :=
  hl2.trans hl1
 have hsuper:s.superclass cls≠none:=by
  rw [hold]
  simp
 have hparent:movedParent {s with links:=l2} cls newSuper=movedParent s cls newSuper:=by
  rw [movedParent,movedParent,hsame]
 -- and into the two others
 have h3:=(h2.reparent hkind (hsame ▸ hsuper) (h.realizedKnown hnew) hnewKind
  (hparent ▸ hcycle)).perm (List.Perm.swap ..)
 have hcls3:movedParent {s with links:=l2} cls newSuper cls=some newSuper:=by
  rw [movedParent_apply,if_neg hne.symm,if_pos rfl]
 have hmeta3:movedParent {s with links:=l2} cls newSuper (s.isa cls)=some (s.isa newSuper) := by
  rw [movedParent_apply,if_pos rfl]
 have hv4:=addSubclass_touched (X:=∅) hv
 have h4:Graph v [s.isa cls]:=h3.addSubclass hcls3 hnew hmeta hv
 have hisa:v.isa=s.isa:=hv4.isa
 have hreal:v.realized=s.realized:=hv4.realized
 rw [hisa] at hw
 have h5:Graph w []:=by
  refine h4.addSubclass ((hv4.superclass _).trans hmeta3) (hreal ▸ hnewMeta) ?_ hw
  rw [hreal,hisa]
  exact h.isaRealized hmeta List.not_mem_nil
 have hisaw:x.isa=s.isa:=by
  rw [(flushCaches_touched (X:=∅) hx).isa,(addSubclass_touched (X:=∅) hw).isa]
  exact hisa
 rw [hisaw] at hflush
 exact ⟨hsuper,_,v,w,x,⟨(l2.setParent cls (some newSuper)).setParent (s.isa cls)
  (some (s.isa newSuper)),rfl⟩,hparent,h3,hv,h4,hw,h5,hx,hflush⟩

theorem Moved.graph {u v w x:State preopt} (h:Moved cls newSuper s u v w x t) : Graph t [] :=
 (h.linked.touched (flushCaches_touched (X:=∅) h.flushed)).touched
  (flushCaches_touched (X:=∅) h.flushedMeta)

end SetSuperclass

namespace Op

/-- What the callers of an operation see to: classes the runtime knows, memory that is not in use,
method lists whose byte size is an unsigned int, and no cycle of superclasses. -/
def Legal : Op → State preopt → Prop
 | .realizeClass _ cls,s=>s.known cls=true
 | .lookUp _ _ cls _ _,s=>s.known cls=true
 | .setSuperclass _ cls newSuper,s=>
  (s.realized cls=true ∧ s.isMetaClass cls=false) ∧
   (s.realized newSuper=true ∧ s.isMetaClass newSuper=false) ∧
   NoCycle (movedParent s cls newSuper)
 | .duplicateClass original duplicate,s=>
  (s.realized original=true ∧ s.isMetaClass original=false) ∧ s.known duplicate=false
 | .allocateClassPair superclass cls metacls,s=>cls≠metacls ∧ s.known cls=false ∧
  s.known metacls=false ∧ ∀p,superclass=some p → s.isMetaClass p=false
 | .setInitialized cls,s=>s.realized cls=true ∧ s.isMetaClass cls=false
 | .addMethodsBulk _ methods,_ | .replaceMethodsBulk _ methods,_=>24*methods.length < 2^32
 | _,_=>True

/-- The assertion of `removeSubclass` for the metaclass. -/
def Asserted : Op → State preopt → Prop
 | .setSuperclass _ cls _,s=>∀old,s.superclass cls=some old →
  s.superclass (s.isa cls)=some (s.isa old)
 | _,_=>True

end Op

abbrev Along (prog:Program) (C:Op → State preopt → Prop) : List Op → State preopt → Prop :=
 PartialRuns.Along (Op.step prog) C

theorem allocateClassPair_cases {superclass:Option Cls} {cls metacls:Cls}
 (hlegal:(Op.allocateClassPair superclass cls metacls).Legal s)
 (ht:allocateClassPair superclass cls metacls s=some t) : t=s ∨
  (∀p,superclass=some p → s.realized p=true ∧ s.isMetaClass p=false) ∧
   initializeClassPair superclass cls metacls s=some t := by
 rw [allocateClassPair] at ht
 split at ht
 · case isTrue hverify =>
   refine .inr ⟨fun p hp=>⟨?_,hlegal.2.2.2 p hp⟩,ht⟩
   grind [verifySuperclass]
 · cases ht
   exact .inl rfl

theorem lookUpImpOrForward_cases {cls:Cls} {resolver nocache:Bool} {o:Option Imp}
 (ht:lookUpImpOrForward prog fuel sel cls resolver nocache s=some (t,o)) :
 ∃u imp,realizeClassWithoutSwift prog fuel cls s=some u ∧
  searchChain sel u (u.unreasonableClassCount-1) cls=some imp ∧
  (t=u ∨ t=fillCache sel imp cls u) ∧ (o=none ∨ o=some imp) := by
 obtain ⟨u,hu,ht⟩:=Option.bind_eq_some_iff.mp ht
 grind [Option.map_eq_some_iff]

theorem lookUp_cases {cls:Cls} {resolver nocache:Bool}
 (ht:(Op.lookUp fuel sel cls resolver nocache).step prog s=some t) :
 ∃u imp,realizeClassWithoutSwift prog fuel cls s=some u ∧
  searchChain sel u (u.unreasonableClassCount-1) cls=some imp ∧
  (t=u ∨ t=fillCache sel imp cls u) := by
 obtain ⟨⟨t,o⟩,hr,rfl⟩:=Option.map_eq_some_iff.mp ht
 obtain ⟨u,imp,hu,himp,ht,-⟩:=lookUpImpOrForward_cases hr
 exact ⟨u,imp,hu,himp,ht⟩

theorem setInitialized_spec {cls:Cls} (ht:setInitialized prog cls s=some t) :
 ∃u,forBundles (scanInitializedClass prog cls (s.isa cls)) s=some u ∧ (∀X,Touched X s u) ∧
  t = {u with initialized:=update u.initialized (s.isa cls) true} := by
 obtain ⟨u,hu,rfl⟩:=Option.map_eq_some_iff.mp ht
 exact ⟨u,hu,fun X=>forBundles_invariant (I:=Touched X s)
  (fun hv hw=>hw.trans (scanInitializedClass_touched hv)) hu (.refl X s),rfl⟩

theorem fillCache_sameShape {imp:Imp} {cls:Cls} :
 SameShape s (fillCache sel imp cls s) ∧ (fillCache sel imp cls s).flags=s.flags := by
 rw [fillCache]
 split <;> exact ⟨⟨rfl,rfl,rfl,rfl,rfl⟩,rfl⟩

theorem registerClassPair_sameShape {cls:Cls} :
 SameShape s (registerClassPair cls s) ∧ (registerClassPair cls s).flags=s.flags := by
 rw [registerClassPair]
 split <;> exact ⟨⟨rfl,rfl,rfl,rfl,rfl⟩,rfl⟩

theorem setCustomDeallocInitiation_frame {cls:Cls}
 (ht:setCustomDeallocInitiation cls s=some t) : ∃f,t = {s with flags:=f} := by
 rw [setCustomDeallocInitiation] at ht
 split at ht
 · cases ht
   exact ⟨s.flags,rfl⟩
 · refine foreach_invariant (I:=fun u=>∃f,u = {s with flags:=f}) (fun d u hu=>?_) ht
    ⟨s.flags,rfl⟩
   obtain ⟨f,rfl⟩:=hu
   exact ⟨_,rfl⟩

theorem setCustomDeallocInitiation_sameShape {cls:Cls}
 (ht:setCustomDeallocInitiation cls s=some t) : SameShape s t := by
 obtain ⟨f,rfl⟩:=setCustomDeallocInitiation_frame ht
 exact ⟨rfl,rfl,rfl,rfl,rfl⟩

inductive Op.Effect (prog:Program) (s:State preopt) : Op → State preopt → Prop
 | touched {op X u t} : Touched X s u → SameShape u t ∧ t.flags=u.flags → Effect prog s op t
 | realized {op fuel cls u t} : s.known cls=true →
  realizeClassWithoutSwift prog fuel cls s=some u → SameShape u t ∧ t.flags=u.flags →
  Effect prog s op t
 | moved {fuel cls newSuper u v w x t} : Moved cls newSuper s u v w x t →
  Effect prog s (.setSuperclass fuel cls newSuper) t
 | duplicated {original duplicate t} : ClassGraph.duplicateClass original duplicate s=some t →
  Effect prog s (.duplicateClass original duplicate) t
 | paired {superclass cls metacls t} :
  (∀p,superclass=some p → s.realized p=true ∧ s.isMetaClass p=false) →
  initializeClassPair superclass cls metacls s=some t →
  Effect prog s (.allocateClassPair superclass cls metacls) t
 | initiated {cls t} : ClassGraph.setCustomDeallocInitiation cls s=some t →
  Effect prog s (.setCustomDeallocInitiation cls) t

theorem Op.effect (h:Graph s []) (hlegal:op.Legal s) (hassert:op.Asserted s)
 (ht:op.step prog s=some t) : op.Effect prog s t := by
 have same:∀{u:State preopt},SameShape u u ∧ u.flags=u.flags:=⟨⟨rfl,rfl,rfl,rfl,rfl⟩,rfl⟩
 have touched:∀{X:Set Cls},Touched X s t → op.Effect prog s t:=fun hX=>.touched hX same
 cases op with
 | realizeClass fuel cls=>exact .realized hlegal ht same
 | loadCategory cat=>exact touched (loadCategory_touched (X:=Set.univ) ht trivial trivial)
 | addMethod cls name imp | replaceMethod cls name imp=>
  exact touched (addMethod_touched (X:=Set.univ) ht trivial)
 | addMethodsBulk cls methods | replaceMethodsBulk cls methods=>
  exact touched (addMethods_touched (X:=Set.univ) ht trivial)
 | setImplementation m imp=>
  exact touched (methodSetImplementation_touched (X:=Set.univ) ht trivial)
 | exchangeImplementations m1 m2=>
  exact touched (methodExchangeImplementations_touched (X:=Set.univ) ht trivial trivial)
 | setSuperclass fuel cls newSuper=>
  obtain ⟨hcls,hnew,hcycle⟩:=hlegal
  obtain ⟨-,u,v,w,x,hmoved⟩ :=
   setSuperclass_spec h hcls.1 hcls.2 hnew.1 hnew.2 hcycle hassert ht
  exact .moved hmoved
 | duplicateClass original duplicate=>exact .duplicated ht
 | allocateClassPair superclass cls metacls=>
  rcases allocateClassPair_cases hlegal ht with rfl|⟨hsuper,ht⟩
  · exact touched (.refl ∅ _)
  · exact .paired hsuper ht
 | registerClassPair cls=>
  cases ht
  exact .touched (.refl ∅ s) registerClassPair_sameShape
 | setInitialized cls=>
  obtain ⟨u,-,hu,rfl⟩:=setInitialized_spec ht
  exact .touched (hu ∅) ⟨⟨rfl,rfl,rfl,rfl,rfl⟩,rfl⟩
 | setCustomDeallocInitiation cls=>exact .initiated ht
 | lookUp fuel sel cls resolver nocache=>
  obtain ⟨u,imp,hu,-,ht⟩:=lookUp_cases ht
  rcases ht with rfl|rfl
  · exact .realized hlegal hu same
  · exact .realized hlegal hu fillCache_sameShape

theorem Graph.step (h:Graph s []) (hlegal:op.Legal s) (hassert:op.Asserted s)
 (ht:op.step prog s=some t) : Graph t [] := by
 cases Op.effect h hlegal hassert ht with
 | touched hX same=>exact (h.touched hX).congr same.1
 | realized hknown hu same =>
  exact (realizeClass_invariant (fun hstep hx=>hx.realizeStep hstep) hu hknown h).congr same.1
 | moved hmoved=>exact hmoved.graph
 | duplicated ht=>
  obtain ⟨-,v,-,hv,rfl⟩:=duplicateClass_spec h hlegal.1.1 hlegal.1.2 hlegal.2 ht
  exact hv.congr ⟨rfl,rfl,rfl,rfl,rfl⟩
 | paired hsuper ht=>
  obtain ⟨-,v,-,-,-,ht⟩ :=
   initializeClassPair_spec h hlegal.1 hlegal.2.1 hlegal.2.2.1 hsuper ht
  exact ht
 | initiated ht=>exact h.congr (setCustomDeallocInitiation_sameShape ht)

theorem finishRealizing_sameNodes {c:Cls} (h:finishRealizing prog c s=some t) : SameNodes s t := by
 obtain ⟨u,v,hu,hv,ht,-⟩:=finishRealizing_spec h
 have hjoined:SameNodes u ((copyRoFlags c u).joined c):=by
  obtain ⟨l,f,heq,hl⟩:=joined_frame (s:=copyRoFlags c u) c
  rw [heq]
  exact ⟨rfl,rfl,rfl,hl⟩
 exact (((hu ∅).sameShape.sameNodes.trans hjoined).trans (hv ∅).sameShape.sameNodes).trans
  ht.sameShape.sameNodes

theorem realizeClass_sameNodes {cls:Cls} (hknown:s.known cls=true)
 (ht:realizeClassWithoutSwift prog fuel cls s=some t) : SameNodes s t := by
 refine realizeClass_invariant (I:=fun u _=>SameNodes s u) (fun {x y} hstep hx=>?_) ht hknown
  ⟨rfl,rfl,rfl,rfl⟩
 cases hstep with
 | start hnew hfrom=>exact hx.trans ⟨rfl,rfl,rfl,rfl⟩
 | finish hsuper hisa ht=>exact hx.trans (finishRealizing_sameNodes ht)

theorem Moved.nodes {cls newSuper:Cls} {u v w x:State preopt}
 (h:Moved cls newSuper s u v w x t) : (t.known=s.known ∧ t.isa=s.isa ∧ t.ro=s.ro) ∧
  t.superclass=movedParent s cls newSuper ∧ t.realized=s.realized := by
 obtain ⟨l,rfl⟩:=h.detached
 have h1:=addSubclass_touched (X:=∅) h.addedClass
 have h2:=addSubclass_touched (X:=∅) h.addedMeta
 have h3:=(flushCaches_touched (X:=∅) h.flushed).trans
  (flushCaches_touched (X:=∅) h.flushedMeta)
 refine ⟨⟨h3.known.trans (h2.known.trans h1.known),h3.isa.trans (h2.isa.trans h1.isa),
  h3.ro.trans (h2.ro.trans h1.ro)⟩,?_,h3.realized.trans (h2.realized.trans h1.realized)⟩
 funext d
 rw [h3.superclass,h2.superclass,←h.parent]
 exact h1.superclass d

inductive Op.Nodes (s:State preopt) : Op → State preopt → Prop
 | same {op:Op} {t:State preopt} : SameNodes s t → Nodes s op t
 | moved {fuel cls newSuper t} : (t.known=s.known ∧ t.isa=s.isa ∧ t.ro=s.ro) →
  t.superclass=movedParent s cls newSuper → Nodes s (.setSuperclass fuel cls newSuper) t
 | duplicated {original duplicate t} : SameNodes (withDuplicate original duplicate s) t →
  Nodes s (.duplicateClass original duplicate) t
 | paired {superclass cls metacls t} : SameNodes (withPair superclass cls metacls s) t →
  Nodes s (.allocateClassPair superclass cls metacls) t

theorem Op.nodes (h:Graph s []) (hlegal:op.Legal s) (hassert:op.Asserted s)
 (ht:op.step prog s=some t) : op.Nodes s t := by
 cases Op.effect h hlegal hassert ht with
 | touched hX same=>exact .same (hX.sameShape.sameNodes.trans same.1.sameNodes)
 | realized hknown hu same =>
  exact .same ((realizeClass_sameNodes hknown hu).trans same.1.sameNodes)
 | moved hmoved=>exact .moved hmoved.nodes.1 hmoved.nodes.2.1
 | duplicated ht=>
  obtain ⟨-,v,hv,-,rfl⟩:=duplicateClass_spec h hlegal.1.1 hlegal.1.2 hlegal.2 ht
  exact .duplicated ((connect_sameNodes hv).trans ⟨rfl,rfl,rfl,rfl⟩)
 | paired hsuper ht=>
  obtain ⟨-,v,hv,-,hw,-⟩ :=
   initializeClassPair_spec h hlegal.1 hlegal.2.1 hlegal.2.2.1 hsuper ht
  exact .paired ((connect_sameNodes hv).trans (connect_sameNodes hw))
 | initiated ht=>exact .same (setCustomDeallocInitiation_sameShape ht).sameNodes

theorem Op.Nodes.kept (h:op.Nodes s t) (hlegal:op.Legal s) {c:Cls} (hc:s.known c=true) :
 t.known c=true ∧ t.ro c=s.ro c := by
 cases h with
 | same hnodes=>
  rw [hnodes.known,hnodes.ro]
  exact ⟨hc,rfl⟩
 | moved hkept=>
  rw [hkept.1,hkept.2.2]
  exact ⟨hc,rfl⟩
 | duplicated hnodes=>
  have hne:=known_ne hc hlegal.2
  rw [hnodes.known,hnodes.ro]
  exact ⟨(update_of_ne hne ..).trans hc,update_of_ne hne ..⟩
 | paired hnodes=>
  have hne:=known_ne hc hlegal.2.1
  have hneMeta:=known_ne hc hlegal.2.2.1
  rw [hnodes.known,hnodes.ro]
  exact ⟨((update_of_ne hneMeta ..).trans (update_of_ne hne ..)).trans hc,
   (update_of_ne hneMeta ..).trans (update_of_ne hne ..)⟩

structure Start (s:State preopt) : Prop extends Hierarchy s where
 unrealized : ∀c,s.realized c=false
 noLists : ∀p,s.links.first p=none

theorem Start.not_realized {c:Cls} (h:Start s) : ¬ s.realized c=true := by
 rw [h.unrealized]
 decide

theorem Start.graph (h:Start s) : Graph s [] where
 toHierarchy := h.toHierarchy
 lists p := ⟨[],h.noLists p,List.nodup_nil,fun c=>by simp [h.unrealized]⟩
 nodup := List.nodup_nil
 pending c hc := nomatch hc
 superRealized hc := absurd hc h.not_realized
 isaRealized hc := absurd hc h.not_realized
 realizedKnown hc := absurd hc h.not_realized

theorem image_start {superclass:Cls → Option Cls} {isa:Cls → Cls} {ro:Cls → Ro} {n named:ℕ}
 (hn:∀c p,superclass c=some p → c < n)
 (h:∀c<n,isa c < n ∧ (ro (isa c)).isMeta=true ∧ ∀p∈superclass c,p < c ∧
  ((ro c).isMeta=false → (ro p).isMeta=false) ∧
  ((ro c).isMeta=true → (ro p).isMeta=false → superclass p=none ∧ isa p=c)) :
 Start (.image superclass isa ro (fun c=>c < n) named : State preopt) := by
 have hp:∀{c p:Cls},superclass c=some p → _:=fun hp=>(h _ (hn _ _ hp)).2.2 _ hp
 refine ⟨⟨⟨id,fun hc=>(hp hc).1⟩,fun hc=>?_,fun hc=>?_,fun hc=>?_,fun hk hc=>(hp hc).2.1 hk,
  fun hk hc=>(hp hc).2.2 hk⟩,fun _=>rfl,fun _=>rfl⟩
 · exact ⟨decide_eq_true (hn _ _ hc),decide_eq_true ((hp hc).1.trans (hn _ _ hc))⟩
 · exact decide_eq_true (h _ (of_decide_eq_true hc)).1
 · exact (h _ (of_decide_eq_true hc)).2.1

def rootImp (k:ℕ) : MethodImp :=
 ⟨k+200,Nat.ne_of_gt (Nat.lt_add_left k (by decide)),Nat.ne_of_gt (Nat.lt_add_left k (by decide))⟩

def sampleProgram : Program where
 nsObject := 0
 nsObjectMeta := 1
 isSwiftObject := fun _=>false
 sel
  | .alloc=>⟨1,by decide⟩
  | .allocWithZone=>⟨2,by decide⟩
  | .retain=>⟨3,by decide⟩
  | .release=>⟨4,by decide⟩
  | .autorelease=>⟨5,by decide⟩
  | .tryRetain=>⟨6,by decide⟩
  | .isDeallocating=>⟨7,by decide⟩
  | .retainCount=>⟨8,by decide⟩
  | .allowsWeakReference=>⟨9,by decide⟩
  | .retainWeakReference=>⟨10,by decide⟩
  | .new=>⟨11,by decide⟩
  | .selfSel=>⟨12,by decide⟩
  | .classSel=>⟨13,by decide⟩
  | .isKindOfClass=>⟨14,by decide⟩
  | .respondsToSelector=>⟨15,by decide⟩
  | .plusInitialize=>⟨16,by decide⟩
 noopImp := ⟨99,by decide⟩

theorem noCycle_moved {cls newSuper:Cls}
 (h:∀c p : Cls,c≠cls → c≠s.isa cls → s.superclass c=some p → p < c)
 (hnew:newSuper < cls) (hmeta:s.isa newSuper < s.isa cls) :
 NoCycle (movedParent s cls newSuper) := by
 refine ⟨id,fun {c p} hp=>?_⟩
 grind [movedParent_apply]

/-- Of the operations that move no class, what `Legal` asks for can be evaluated. -/
def Op.legalNow : Op → State preopt → Bool
 | .realizeClass _ cls,s | .lookUp _ _ cls _ _,s=>s.known cls
 | .setSuperclass _ _ _,_=>false
 | .duplicateClass original duplicate,s=>
  s.realized original && !s.isMetaClass original && !s.known duplicate
 | .allocateClassPair superclass cls metacls,s=>
  cls != metacls && !s.known cls && !s.known metacls && superclass.all (!s.isMetaClass ·)
 | .setInitialized cls,s=>s.realized cls && !s.isMetaClass cls
 | .addMethodsBulk _ methods,_ | .replaceMethodsBulk _ methods,_=>24*methods.length < 2^32
 | _,_=>true

theorem Op.legal_of_now {op:Op} (h:op.legalNow s=true) : op.Legal s ∧ op.Asserted s := by
 cases op <;> simp_all [legalNow,Legal,Asserted]
 rintro p rfl
 simpa using h.2

def legalRun (prog:Program) : List Op → State preopt → Bool
 | [],_=>true
 | op::ops,s=>op.legalNow s && (op.step prog s).all (legalRun prog ops)

theorem along_of_legalRun {ops:List Op} (h:legalRun prog ops s=true) :
 Along prog (fun op s=>op∈ops ∧ op.legalNow s=true) ops s := by
 induction ops generalizing s with
 | nil=>trivial
 | cons op ops ih=>
  obtain ⟨now,rest⟩:=Bool.and_eq_true_iff.mp h
  refine ⟨⟨List.mem_cons_self,now⟩,fun t ht=>?_⟩
  rw [ht] at rest
  exact (ih rest).mono fun _ _ h=>⟨List.mem_cons_of_mem _ h.1,h.2⟩

theorem Start.graph_of_legalRun {ops:List Op} (h:Start s) (legal:legalRun prog ops s=true)
 (ht:run prog ops s=some t) : Graph t [] :=
 run_invariant (I:=fun s=>Graph s [])
  (fun hC ht h=>h.step (Op.legal_of_now hC.2).1 (Op.legal_of_now hC.2).2 ht)
  (along_of_legalRun legal) ht h.graph

end ObjcRuntime.ClassGraph
