import ObjcRuntime.ClassSteps

/-!
# The shape of the class graph

Superclasses, metaclasses and subclass lists fit together, as long as `class_setSuperclass` meets
the assertion of `removeSubclass`.
-/

set_option autoImplicit false
namespace ObjcRuntime.ClassGraph

open MethodLookup (Sel Imp MethodImp Cache)
open SiblingLists
open Function

variable {preopt:Bool} {s t u:State preopt} {prog:Program} {P:List Cls}

def NoCycle (parent:Cls → Option Cls) : Prop :=
 ∃rank : Cls → ℕ,∀{c p:Cls},parent c=some p → rank p < rank c

def Ancestor (s:State preopt) (p d:Cls) : Prop :=
 Relation.ReflTransGen (fun d p=>s.superclass d=some p) d p

variable {c:Cls}

theorem NoCycle.update {parent:Cls → Option Cls} {q:Option Cls} (h:NoCycle parent)
 (hc:∀d,parent d≠some c) (hq:q≠some c) : NoCycle (update parent c q) := by
 obtain ⟨rank,hrank⟩:=h
 refine ⟨Function.update rank c (q.elim 0 fun p=>rank p+1),fun {d p} hp=>?_⟩
 grind

structure Hierarchy (s:State preopt) : Prop where
 noCycle : NoCycle s.superclass
 superKnown : ∀{c p:Cls},s.superclass c=some p → s.known c=true ∧ s.known p=true
 isaKnown : ∀{c:Cls},s.known c=true → s.known (s.isa c)=true
 metaIsa : ∀{c:Cls},s.known c=true → s.isMetaClass (s.isa c)=true
 superKind : ∀{c p:Cls},s.isMetaClass c=false → s.superclass c=some p → s.isMetaClass p=false
 rootMeta : ∀{c p:Cls},s.isMetaClass c=true → s.superclass c=some p →
  s.isMetaClass p=false → s.superclass p=none ∧ s.isa p=c

/-- The pending classes are realized but not in a subclass list. -/
structure Graph (s:State preopt) (P:List Cls) : Prop extends Hierarchy s where
 lists : s.links.Ok fun c=>s.realized c=true ∧ c∉P
 nodup : P.Nodup
 pending : ∀c∈P,s.realized c=true
 superRealized : ∀{c p:Cls},s.realized c=true → c∉P → s.superclass c=some p → s.realized p=true
 isaRealized : ∀{c:Cls},s.realized c=true → c∉P → s.realized (s.isa c)=true
 realizedKnown : ∀{c:Cls},s.realized c=true → s.known c=true

structure SameShape (s t:State preopt) : Prop where
 links : t.links=s.links
 isa : t.isa=s.isa
 ro : t.ro=s.ro
 known : t.known=s.known
 realized : t.realized=s.realized

theorem Touched.sameShape {X:Set Cls} (h:Touched X s t) : SameShape s t :=
 ⟨h.links,h.isa,h.ro,h.known,h.realized⟩

structure SameNodes (s t:State preopt) : Prop where
 known : t.known=s.known
 ro : t.ro=s.ro
 isa : t.isa=s.isa
 superclass : t.superclass=s.superclass

theorem SameNodes.trans {u:State preopt} (h:SameNodes s t) (h':SameNodes t u) : SameNodes s u :=
 ⟨h'.known.trans h.known,h'.ro.trans h.ro,h'.isa.trans h.isa,h'.superclass.trans h.superclass⟩

theorem SameNodes.isMetaClass (h:SameNodes s t) : t.isMetaClass=s.isMetaClass := by
 funext c
 rw [State.isMetaClass,State.isMetaClass,h.ro]

theorem SameNodes.hierarchy (h:SameNodes s t) (hs:Hierarchy s) : Hierarchy t := by
 refine ⟨?_,?_,?_,?_,?_,?_⟩ <;> simp only [h.superclass,h.known,h.isa,h.isMetaClass]
 exacts [hs.noCycle,hs.superKnown,hs.isaKnown,hs.metaIsa,hs.superKind,hs.rootMeta]

theorem SameShape.sameNodes (h:SameShape s t) : SameNodes s t := by
 refine ⟨h.known,h.ro,h.isa,?_⟩
 funext c
 rw [State.superclass,State.superclass,h.links]

theorem connect_sameNodes (ht:connect c s=some t) : SameNodes s t := by
 have htouched:=connect_touched (X:=∅) ht
 obtain ⟨l,f,heq,hl⟩:=joined_frame (s:=s) c
 rw [heq] at htouched
 refine ⟨htouched.known,htouched.ro,htouched.isa,?_⟩
 funext d
 exact (htouched.superclass d).trans (congrFun hl d)

namespace Graph

theorem congr (h:Graph s P) (ht:SameShape s t) : Graph t P := by
 have hnodes:=ht.sameNodes
 refine ⟨hnodes.hierarchy h.toHierarchy,?_,h.nodup,?_,?_,?_,?_⟩ <;>
  simp only [ht.links,ht.realized,hnodes.superclass,ht.isa,ht.known]
 exacts [h.lists,h.pending,h.superRealized,h.isaRealized,h.realizedKnown]

theorem touched {X:Set Cls} (h:Graph s P) (ht:Touched X s t) : Graph t P :=
 h.congr ht.sameShape

theorem perm {Q:List Cls} (h:Graph s P) (hperm:P.Perm Q) : Graph s Q := by
 refine { h with
  lists := ?_
  nodup := hperm.nodup_iff.mp h.nodup
  pending := ?_
  superRealized := ?_
  isaRealized := ?_ }
 · exact h.lists.congr fun c=>by rw [hperm.mem_iff]
 · exact fun c hc=>h.pending c (hperm.mem_iff.mpr hc)
 · exact fun hc hn=>h.superRealized hc fun hP=>hn (hperm.mem_iff.mp hP)
 · exact fun hc hn=>h.isaRealized hc fun hP=>hn (hperm.mem_iff.mp hP)

theorem link (h:Graph s (c::P)) (hsuper:∀p,s.superclass c=some p → s.realized p=true)
 (hisa:s.realized (s.isa c)=true) :
 Graph {s with links:=s.links.link (s.superclass c) c} P := by
 obtain ⟨hnot,hnodup⟩:=List.nodup_cons.mp h.nodup
 have hc:=h.pending c List.mem_cons_self
 refine { h with
  lists := ?_
  nodup := hnodup
  pending := ?_
  superRealized := ?_
  isaRealized := ?_ }
 · refine (h.lists.link fun hm=>hm.2 List.mem_cons_self).congr fun d=>?_
   grind
 · exact fun d hd=>h.pending d (List.mem_cons_of_mem _ hd)
 · intro d p hd hP hp
   by_cases heq : d=c
   · exact hsuper p (heq ▸ hp)
   · exact h.superRealized hd (by simp [heq,hP]) hp
 · grind [h.isaRealized]

theorem unlink {l:Links Cls} {fuel:ℕ} (h:Graph s P) (hc:s.realized c=true) (hP:c∉P)
 (hl:s.links.unlink fuel (s.superclass c) c=some l) :
 l.parent=s.links.parent ∧ Graph {s with links:=l} (c::P) := by
 obtain ⟨hpar,hok⟩:=h.lists.unlink ⟨hc,hP⟩ hl
 have hsame:SameNodes s {s with links:=l}:=⟨rfl,rfl,rfl,hpar⟩
 refine ⟨hpar,hsame.hierarchy h.toHierarchy,?_,List.nodup_cons.mpr ⟨hP,h.nodup⟩,?_,?_,?_,
  h.realizedKnown⟩
 · grind
 · grind [h.pending]
 · rw [hsame.superclass]
   exact fun hd hin=>h.superRealized hd fun hmem=>hin (List.mem_cons_of_mem _ hmem)
 · exact fun hd hin=>h.isaRealized hd fun hmem=>hin (List.mem_cons_of_mem _ hmem)

theorem removeSubclass {p:Cls} {fuel:ℕ} (h:Graph s P) (hc:s.realized c=true)
 (hP:c∉P) (hp:s.superclass c=some p) (ht:removeSubclass fuel p c s=some t) :
 ∃l,t = {s with links:=l} ∧ l.parent=s.links.parent ∧ Graph t (c::P) := by
 obtain ⟨l,hl,rfl⟩:=Option.map_eq_some_iff.mp ht
 grind [h.unlink]

theorem beginRealizing (h:Graph s P) (hnew:s.realized c=false) (hknown:s.known c=true) :
 Graph (beginRealizing c s) (c::P) := by
 have hreal:∀d,(ClassGraph.beginRealizing c s).realized d=true ↔ d=c ∨ s.realized d=true := by
  intro d
  change update s.realized c true d=true ↔ _
  grind
 have hnot:c∉P:=fun hin=>by rw [h.pending c hin] at hnew; cases hnew
 have hold:∀{d:Cls},(ClassGraph.beginRealizing c s).realized d=true → d∉c::P →
  s.realized d=true ∧ d∉P := by grind
 refine { h with
  lists := ?_
  nodup := List.nodup_cons.mpr ⟨hnot,h.nodup⟩
  pending := ?_
  superRealized := ?_
  isaRealized := ?_
  realizedKnown := ?_ }
 · have hcleared:(s.links.clear c).Ok fun d=>s.realized d=true ∧ d∉P:=by
    refine h.lists.clear (fun hm=>?_) fun d hd hpar=>?_
    · rw [hm.1] at hnew
      cases hnew
    · rw [h.superRealized hd.1 hd.2 hpar] at hnew
      cases hnew
   refine hcleared.congr fun d=>⟨fun ⟨hd,hin⟩=>⟨(hreal d).mpr (.inr hd),?_⟩,
    fun ⟨hd,hin⟩=>hold hd hin⟩
   grind
 · grind [h.pending]
 · intro d p hd hin hp
   exact (hreal p).mpr (.inr (h.superRealized (hold hd hin).1 (hold hd hin).2 hp))
 · intro d hd hin
   exact (hreal _).mpr (.inr (h.isaRealized (hold hd hin).1 (hold hd hin).2))
 · intro d hd
   rcases (hreal d).mp hd with rfl|hd
   · exact hknown
   · exact h.realizedKnown hd

theorem addSubclass {p:Cls} (h:Graph s (c::P)) (hp:s.superclass c=some p)
 (hsuper:s.realized p=true) (hisa:s.realized (s.isa c)=true)
 (ht:addSubclass p c s=some t) : Graph t P := by
 have hlinked:=h.link (fun q hq=>by rw [hp,Option.some.injEq] at hq; exact hq ▸ hsuper) hisa
 rw [hp] at hlinked
 have ht':=addSubclass_touched (X:=∅) ht
 exact hlinked.congr ⟨ht'.links,ht'.isa,ht'.ro,ht'.known,ht'.realized⟩

theorem connect (h:Graph s (c::P)) (hsuper:∀p,s.superclass c=some p → s.realized p=true)
 (hisa:s.realized (s.isa c)=true) (ht:connect c s=some t) : Graph t P := by
 rw [ClassGraph.connect] at ht
 split at ht
 · case h_1 p hp=>exact h.addSubclass hp (hsuper p hp) hisa ht
 · case h_2 hp =>
   cases ht
   have hlinked:=h.link hsuper hisa
   rw [hp] at hlinked
   exact hlinked

theorem finishRealizing (h:Graph s (c::P)) (hsuper:∀p,s.superclass c=some p → s.realized p=true)
 (hisa:s.realized (s.isa c)=true) (ht:finishRealizing prog c s=some t) : Graph t P := by
 obtain ⟨u,hu,ht⟩:=Option.bind_eq_some_iff.mp ht
 obtain ⟨v,hv,ht⟩:=Option.bind_eq_some_iff.mp ht
 have hraw:=chooseRawIsa_touched (X:=∅) hu
 have hflags:Graph (copyRoFlags c u) (c::P):=(h.touched hraw).congr ⟨rfl,rfl,rfl,rfl,rfl⟩
 refine (hflags.connect (fun p hp=>?_) ?_ hv).touched (methodizeClass_touched (X:={c}) ht rfl)
 · rw [show (copyRoFlags c u).superclass c=s.superclass c from hraw.superclass c] at hp
   exact (congrFun hraw.realized p).trans (hsuper p hp)
 · change u.realized (u.isa c)=true
   rw [hraw.realized,hraw.isa]
   exact hisa

theorem realizeStep {x y:State preopt × List Cls} (h:Graph x.1 x.2)
 (hstep:RealizeStep prog x y) : Graph y.1 y.2 := by
 cases hstep with
 | start hnew hfrom=>
  refine h.beginRealizing hnew ?_
  rcases hfrom with ⟨-,hknown⟩|⟨d,Q,rfl,hsuper|hisa⟩
  · exact hknown
  · exact (h.superKnown hsuper).2
  · exact hisa ▸ h.isaKnown (h.realizedKnown (h.pending d List.mem_cons_self))
 | finish hsuper hisa ht=>exact h.finishRealizing hsuper hisa ht

theorem extend {F:List Cls} (h:Graph s []) (hnodup:F.Nodup)
 (hfresh:∀c∈F,s.known c=false) (hlists:t.links.Ok fun c=>s.realized c=true)
 (hcycle:NoCycle t.superclass)
 (hold:∀c,c∉F → t.superclass c=s.superclass c ∧ t.isa c=s.isa c ∧
  t.isMetaClass c=s.isMetaClass c ∧ t.known c=s.known c ∧ t.realized c=s.realized c)
 (hnew:∀c∈F,t.known c=true ∧ t.realized c=true ∧ t.known (t.isa c)=true ∧
  t.isMetaClass (t.isa c)=true)
 (hsuper:∀c∈F,∀p,t.superclass c=some p → t.known p=true ∧
  (t.isMetaClass c=false → t.isMetaClass p=false) ∧
  (t.isMetaClass c=true → t.isMetaClass p=false → t.superclass p=none ∧ t.isa p=c)) :
 Graph t F := by
 have hout:∀{c:Cls},s.known c=true → c∉F:=by grind
 have hsuperOld:∀{c p:Cls},c∉F → t.superclass c=some p → s.superclass c=some p ∧ p∉F := by
  intro c p hc hp
  rw [(hold c hc).1] at hp
  exact ⟨hp,hout (h.superKnown hp).2⟩
 have hrealOld:∀{c:Cls},c∉F → t.realized c=true → s.realized c=true :=
  fun hc hreal=>(hold _ hc).2.2.2.2 ▸ hreal
 refine ⟨⟨hcycle,?_,?_,?_,?_,?_⟩,?_,hnodup,fun c hc=>(hnew c hc).2.1,?_,?_,?_⟩
 · intro c p hp
   by_cases hF : c∈F
   · exact ⟨(hnew c hF).1,(hsuper c hF p hp).1⟩
   · obtain ⟨hp',hpF⟩:=hsuperOld hF hp
     exact ⟨(hold c hF).2.2.2.1.trans (h.superKnown hp').1,
      (hold p hpF).2.2.2.1.trans (h.superKnown hp').2⟩
 · intro c hc
   by_cases hF : c∈F
   · exact (hnew c hF).2.2.1
   · have hknown:=h.isaKnown ((hold c hF).2.2.2.1 ▸ hc)
     rw [(hold c hF).2.1]
     exact (hold _ (hout hknown)).2.2.2.1.trans hknown
 · intro c hc
   by_cases hF : c∈F
   · exact (hnew c hF).2.2.2
   · have hc':s.known c=true:=(hold c hF).2.2.2.1 ▸ hc
     rw [(hold c hF).2.1]
     exact (hold _ (hout (h.isaKnown hc'))).2.2.1.trans (h.metaIsa hc')
 · intro c p hkind hp
   by_cases hF : c∈F
   · exact (hsuper c hF p hp).2.1 hkind
   · obtain ⟨hp',hpF⟩:=hsuperOld hF hp
     exact (hold p hpF).2.2.1.trans (h.superKind ((hold c hF).2.2.1 ▸ hkind) hp')
 · intro c p hkind hp hpkind
   by_cases hF : c∈F
   · exact (hsuper c hF p hp).2.2 hkind hpkind
   · obtain ⟨hp',hpF⟩:=hsuperOld hF hp
     obtain ⟨hroot,hisa⟩:=h.rootMeta ((hold c hF).2.2.1 ▸ hkind) hp' ((hold p hpF).2.2.1 ▸ hpkind)
     exact ⟨(hold p hpF).1.trans hroot,(hold p hpF).2.1.trans hisa⟩
 · refine hlists.congr fun c=>⟨fun hc=>?_,fun ⟨hc,hF⟩=>hrealOld hF hc⟩
   have hF:=hout (h.realizedKnown hc)
   exact ⟨(hold c hF).2.2.2.2.trans hc,hF⟩
 · intro c p hc hF hp
   obtain ⟨hp',hpF⟩:=hsuperOld hF hp
   have:=h.superRealized (hrealOld hF hc) List.not_mem_nil hp'
   exact (hold p hpF).2.2.2.2.trans this
 · intro c hc hF
   have hreal:=h.isaRealized (hrealOld hF hc) List.not_mem_nil
   rw [(hold c hF).2.1]
   exact (hold _ (hout (h.realizedKnown hreal))).2.2.2.2.trans hreal
 · intro c hc
   by_cases hF : c∈F
   · exact (hnew c hF).1
   · exact (hold c hF).2.2.2.1.trans (h.realizedKnown (hrealOld hF hc))

end Graph

end ObjcRuntime.ClassGraph
