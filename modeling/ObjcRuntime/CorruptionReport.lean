import ObjcRuntime.ClassTraversal
import ObjcRuntime.ClassOperations

/-!
A walk of the class lists costs one for every class and one more for every class with subclasses,
while its budget only knows of classes that have a name.
-/

set_option autoImplicit false
namespace ObjcRuntime.ClassTraversal

open SiblingLists

variable {α σ:Type} {l:Links α} {p:α} {o:Option α}

/-- Every class counts for the visit, and once more if the walk climbs back to it. -/
def weight (l:Links α) (cs:List α) : ℕ :=
 (cs.map fun c=>if (l.first (some c)).isSome then 2 else 1).sum

theorem weight_append (cs ds:List α) : weight l (cs++ds)=weight l cs+weight l ds := by
 rw [weight,List.map_append,List.sum_append]
 rfl

theorem weight_perm {cs ds:List α} (h:cs.Perm ds) : weight l cs=weight l ds :=
 (h.map _).sum_eq

theorem length_le_weight (cs:List α) : cs.length ≤ weight l cs := by
 induction cs with
 | nil=>exact Nat.zero_le _
 | cons c cs ih=>grind [weight]

theorem weight_le_of_subset {cs ds:List α} (nodup:cs.Nodup) (sub:cs ⊆ ds) :
 weight l cs ≤ weight l ds := by
 obtain ⟨cs',perm,sub⟩:=nodup.subperm sub
 rw [←weight_perm perm]
 exact (sub.map _).sum_le_sum fun _ _=>Nat.zero_le _

def Siblings (l:Links α) (o:Option α) : Forest α → Prop
 | .nil=>True
 | .node c below rest=>l.parent c=o ∧ l.first (some c)=below.head ∧
  Children l c below ∧ l.next c=rest.head ∧ Siblings l o rest

theorem Siblings.children {f:Forest α} (h:Siblings l (some p) f) : Children l p f := by
 induction f with
 | nil=>trivial
 | node c below rest _ ihr=>
  obtain ⟨parent,first,under,next,after⟩:=h
  exact ⟨parent,first,under,next,ihr after⟩

theorem weight_node {c:α} {below:Forest α} (first:l.first (some c)=below.head) :
 weight l (c::below.nodes) =
  weight l below.nodes+(if below.head.isSome then 1 else 0)+1 := by grind [weight]

/-- A walk costs at most the weight, and exactly that if no class is skipped. -/
theorem cost_le_weight (code:α → σ → σ × Bool) {f:Forest α} (h:Children l p f) (s:σ) :
 f.cost code s ≤ weight l f.nodes+(if f.head.isSome then 1 else 0) ∧ ((∀c s,(code c s).2=true) →
    f.cost code s=weight l f.nodes+(if f.head.isSome then 1 else 0)) := by
 induction f generalizing p s with
 | nil=>exact ⟨Nat.zero_le _,fun _=>rfl⟩
 | node c below rest ihb ihr=>
  obtain ⟨-,first,under,-,after⟩:=h
  have here:=weight_node first
  have climb:(if rest.head.isSome then 1 else 0)+(if rest.head.isNone then 1 else 0)=1:=by
   cases rest.head <;> rfl
  have total:weight l (Forest.node c below rest).nodes =
   weight l (c::below.nodes)+weight l rest.nodes := by
   rw [←weight_append]
   rfl
  grind [Forest.cost,Forest.head]

theorem walkCost_le_weight (code:α → σ → σ × Bool) {top:α} {below:Forest α}
 (first:l.first (some top)=below.head) (h:Children l top below) (s:σ) :
 walkCost code top below s ≤ weight l (top::below.nodes) ∧ ((∀c s,(code c s).2=true) →
    walkCost code top below s=weight l (top::below.nodes)) := by
 have bound:=cost_le_weight code h (code top s).1
 grind [walkCost,weight_node]

section Represent

variable {member:α → Prop} {rank:α → ℕ}

def Desc (l:Links α) (member:α → Prop) : α → α → Prop :=
 Relation.ReflTransGen fun p d=>member d ∧ l.parent d=some p

variable (hrank:∀{c p},l.parent c=some p → rank p < rank c)
include hrank

theorem Desc.rank_le {c x:α} (h:Desc l member c x) : rank c ≤ rank x := by
 induction h with
 | refl=>exact le_rfl
 | tail _ step ih=>exact ih.trans (hrank step.2).le

theorem Desc.unique {c d x:α} (same:l.parent c=l.parent d) (hc:Desc l member c x)
 (hd:Desc l member d x) : c=d := by
 have apart:∀{c d x},l.parent c=l.parent d → l.parent c=some x → ¬ Desc l member d x:=by
  intro c d x same parent h
  have:=h.rank_le hrank
  have:=hrank (same ▸ parent)
  omega
 induction hc with
 | refl=>
  rcases Relation.ReflTransGen.cases_tail hd with eq|⟨y,hy,-,parent⟩
  · exact eq
  · exact absurd hy (apart same parent)
 | @tail y x hy step ih=>
  rcases Relation.ReflTransGen.cases_tail hd with rfl|⟨z,hz,-,parent⟩
  · exact absurd hy (apart same.symm step.2)
  · obtain rfl : y=z:=Option.some.inj (step.2.symm.trans parent)
    exact ih hz

theorem exists_forest (ok:l.Ok member) {bound:ℕ} (low:∀c,member c → rank c < bound)
 (k:ℕ) (o:Option α) (deep:∀c,l.parent c=o → bound ≤ rank c+k) :
 ∃f : Forest α,l.first o=f.head ∧ Siblings l o f ∧ f.nodes.Nodup ∧
  ∀x,x∈f.nodes ↔ ∃c,(member c ∧ l.parent c=o) ∧ Desc l member c x := by
 induction k generalizing o with
 | zero=>
  obtain ⟨cs,path,-,mem⟩:=ok o
  have none:∀c,¬ (member c ∧ l.parent c=o):=fun c h=>by grind
  cases cs with
  | nil=>exact ⟨.nil,path,trivial,List.nodup_nil,by simp [Forest.nodes,none]⟩
  | cons c cs=>exact absurd ((mem c).mp List.mem_cons_self) (none c)
 | succ k ih=>
  -- one sibling after the other, each with the tree below it
  have list:∀(cs:List α) (start:Option α),Path l.next start cs none → cs.Nodup →
   (∀c∈cs,member c ∧ l.parent c=o) → ∃f : Forest α,start=f.head ∧
    Siblings l o f ∧ f.nodes.Nodup ∧ ∀x,x∈f.nodes ↔ ∃c∈cs,Desc l member c x := by
   intro cs
   induction cs with
   | nil=>
    exact fun start path _ _=>⟨.nil,path,trivial,List.nodup_nil,by simp [Forest.nodes]⟩
   | cons c cs rest=>
    rintro start ⟨rfl,path⟩ nodup mem
    obtain ⟨fresh,nodup⟩:=List.nodup_cons.mp nodup
    obtain ⟨hc,parent⟩:=mem c List.mem_cons_self
    obtain ⟨after,next,siblings,distinct,nodes⟩ :=
     rest (l.next c) path nodup fun d hd=>mem d (List.mem_cons_of_mem _ hd)
    obtain ⟨below,first,under,distinct',nodes'⟩:=ih (some c) fun d hd=>by grind
    have tree:∀x,x=c ∨ x∈below.nodes ↔ Desc l member c x:=fun x=>by
     rw [nodes']
     constructor
     · rintro (rfl|⟨d,hd,hx⟩)
       · exact .refl
       · exact .head hd hx
     · intro h
       exact (Relation.ReflTransGen.cases_head h).imp Eq.symm id
    have apart:∀x,Desc l member c x → x∉after.nodes:=fun x hx hin=>by
     obtain ⟨d,hd,hdx⟩:=(nodes x).mp hin
     have same:=parent.trans (mem d (List.mem_cons_of_mem _ hd)).2.symm
     exact fresh (hx.unique hrank same hdx ▸ hd)
    refine ⟨.node c below after,rfl,⟨parent,first,under.children,next,siblings⟩,?_,?_⟩
    · rw [Forest.nodes,List.nodup_cons,List.nodup_append,List.mem_append,not_or]
      refine ⟨⟨fun hin=>?_,apart c .refl⟩,distinct',distinct,fun x hx y hy same=>?_⟩
      · obtain ⟨d,hd,hdc⟩:=(nodes' c).mp hin
        have:=hdc.rank_le hrank
        have:=hrank hd.2
        omega
      · exact apart x ((tree x).mp (.inr hx)) (same ▸ hy)
    · intro x
      rw [Forest.nodes,List.mem_cons,List.mem_append,←or_assoc,tree,nodes]
      simp
  obtain ⟨cs,path,nodup,mem⟩:=ok o
  obtain ⟨f,head,siblings,distinct,nodes⟩:=list cs _ path nodup fun c hc=>(mem c).mp hc
  exact ⟨f,head,siblings,distinct,fun x=>by simp only [nodes,mem]⟩

end Represent

section Budget

variable [DecidableEq α] {code:α → σ → σ × Bool} {top c:α} {s t:σ}

theorem walk_add {n k:ℕ} {down:Bool} (h:walk l code top n down c s=some (t,k)) (j:ℕ) :
 walk l code top (n+j) down c s=some (t,k+j) := by
 induction n generalizing down c s with
 | zero=>cases h
 | succ n ih=>
  rw [Nat.succ_add,walk]
  rw [walk] at h
  split at h
  next=>exact ih h
  next=>
   by_cases done : c=top
   · grind
   · rw [if_neg done] at h ⊢
     split at h
     · exact ih h
     · split at h
       · exact ih h
       · cases h

variable (code) in
/-- The walk of all roots ends if the budget covers the weight, and only then if no class is
skipped. -/
theorem walkAll_forest {f:Forest α} (h:Siblings l o f) (nodup:f.nodes.Nodup) (fuel n:ℕ) (s:σ) :
 (weight l f.nodes ≤ n → weight l f.nodes ≤ fuel → walkAll l code fuel n f.head s≠none) ∧
  ((∀c s,(code c s).2=true) → n < weight l f.nodes →
    walkAll l code fuel n f.head s=none) := by
 induction f generalizing fuel n s with
 | nil=>exact ⟨fun _ _=>by simp [walkAll,Forest.head],fun _ h=>absurd h (Nat.not_lt_zero n)⟩
 | node top below rest _ ihr=>
  obtain ⟨-,first,under,next,after⟩:=h
  obtain ⟨inside,nodup⟩:=List.nodup_cons.mp nodup
  rw [List.mem_append,not_or] at inside
  have cost:=walkCost_le_weight code first under s
  have runs:=walk_walkCost code s first under inside.1
  have total:weight l (Forest.node top below rest).nodes =
   weight l (top::below.nodes)+weight l rest.nodes := by
   rw [←weight_append]
   rfl
  have positive:=length_le_weight (l:=l) (top::below.nodes)
  rw [List.length_cons] at positive
  cases fuel with
  | zero=>exact ⟨fun _ h=>by omega,fun _ _=>rfl⟩
  | succ fuel=>
   have rest':=ihr after (List.nodup_append.mp nodup).2.1 fuel
   rw [Forest.head,walkAll,next,total]
   refine ⟨fun hn hfuel=>?_,fun yes hn=>?_⟩
   · have run:=runs (n-walkCost code top below s)
     rw [Nat.add_sub_cancel' (by omega)] at run
     rw [run]
     exact (rest' _ _).1 (by omega) (by omega)
   · by_cases short : n < walkCost code top below s
     · have : walk l code top n true top s=none:=by
        by_contra some
        obtain ⟨⟨t,k⟩,hw⟩:=Option.ne_none_iff_exists'.mp some
        have longer:=walk_add hw (walkCost code top below s-n)
        have run:=runs 0
        rw [Nat.add_sub_cancel' short.le] at longer
        rw [Nat.add_zero,longer,Option.some.injEq,Prod.mk.injEq] at run
        omega
       rw [this]
       rfl
     · have run:=runs (n-walkCost code top below s)
       rw [Nat.add_sub_cancel' (by omega)] at run
       have:=cost.2 yes
       rw [run]
       exact (rest' _ _).2 yes (by omega)

end Budget

end ObjcRuntime.ClassTraversal

namespace ObjcRuntime.ClassGraph

open PartialRuns
open MethodLookup (Sel)
open ClassTraversal
open Function

variable {preopt:Bool} {s:State preopt}

def foreachRealizedClass (code:Cls → State preopt → State preopt × Bool) (s:State preopt) :
 Option (State preopt) :=
 foreachRealizedClassAndMetaclass (skipping true s.isMetaClass code) s

structure NoFatal (s:State preopt) : Prop where
 classesAndMetaclasses : ∀code,foreachRealizedClassAndMetaclass code s≠none
 classes : ∀code,foreachRealizedClass code s≠none
 subclasses : ∀top,s.realized top=true → ∀code,foreachRealizedClassAndSubclass top code s≠none
 superclasses : ∀(sel:Sel) c,s.realized c=true →
  searchChain sel s (s.unreasonableClassCount-1) c≠none

structure Climbed (s:State preopt) (rank:Cls → ℕ) (c:Cls) (seen:List Cls) : Prop where
 realized : ∀x∈c::seen,s.realized x=true
 nodup : (c::seen).Nodup
 above : ∀x∈seen,rank c < rank x

theorem Climbed.next {rank:Cls → ℕ} {c p:Cls} {seen:List Cls} (graph:Graph s [])
 (hrank:∀{c p},s.superclass c=some p → rank p < rank c) (h:Climbed s rank c seen)
 (hp:s.superclass c=some p) : Climbed s rank p (c::seen) := by
 have lower:∀x∈c::seen,rank p < rank x:=fun x hx=>by
  rcases List.mem_cons.mp hx with rfl|hx
  · exact hrank hp
  · exact (hrank hp).trans (h.above x hx)
 have real:=graph.superRealized (h.realized c List.mem_cons_self) List.not_mem_nil hp
 exact ⟨List.forall_mem_cons.mpr ⟨real,h.realized⟩,
  List.nodup_cons.mpr ⟨fun hin=>lt_irrefl _ (lower p hin),h.nodup⟩,lower⟩

theorem searchChain_ne_none {rank:Cls → ℕ} {classes:List Cls} (graph:Graph s [])
 (hrank:∀{c p},s.superclass c=some p → rank p < rank c)
 (mem:∀c,c∈classes ↔ s.realized c=true) (sel:Sel) (attempts:ℕ) (c:Cls)
 (seen:List Cls) (climbed:Climbed s rank c seen)
 (enough:classes.length ≤ seen.length+1+attempts) :
 searchChain sel s attempts c≠none := by
 fun_induction searchChain sel s attempts c generalizing seen with
 | case1 | case2 | case4=>exact Option.some_ne_none _
 | case3 c own p hp=>
  have higher:=climbed.next graph hrank hp
  have few:=(higher.nodup.subperm fun x hx=>(mem x).mpr (higher.realized x hx)).length_le
  grind
 | case5 c own attempts p hp missed ih=>
  exact ih (c::seen) (climbed.next graph hrank hp) (by rw [List.length_cons]; omega)

theorem unreasonableClassCount_pos (s:State preopt) : 0 < s.unreasonableClassCount :=
 Nat.succ_pos _

/-- In a state whose links are in order, a report of corruption is possible exactly if the realized
classes, with those that have subclasses counted twice, are as many as the budget. -/
theorem noFatal_iff (graph:Graph s []) (classes:List Cls) (nodup:classes.Nodup)
 (mem:∀c,c∈classes ↔ s.realized c=true) :
 NoFatal s ↔ weight s.links classes < s.unreasonableClassCount := by
 obtain ⟨rank,hrank⟩:=graph.noCycle
 have hparent:∀{c p},s.links.parent c=some p → rank p < rank c:=hrank
 have ok:s.links.Ok fun c=>s.realized c=true :=
  graph.lists.congr fun c=>and_iff_left List.not_mem_nil
 have low:∀c,s.realized c=true → rank c < (classes.map rank).sum+1:=fun c hc =>
  Nat.lt_succ_of_le (List.single_le_sum (fun _ _=>Nat.zero_le _) _
   (List.mem_map_of_mem ((mem c).mpr hc)))
 obtain ⟨roots,head,siblings,distinct,nodes⟩ :=
  exists_forest hparent ok low _ none fun c _=>Nat.le_add_left ..
 -- every realized class is below a root
 have rooted:∀x,s.realized x=true → x∈roots.nodes:=by
  intro x hx
  rw [nodes]
  induction n : rank x using Nat.strong_induction_on generalizing x with
  | h n ih=>
   cases hp : s.superclass x with
   | none=>exact ⟨x,⟨hx,hp⟩,.refl⟩
   | some p=>
    obtain ⟨c,hc,below⟩ :=
     ih (rank p) (n ▸ hrank hp) p (graph.superRealized hx List.not_mem_nil hp) rfl
    exact ⟨c,hc,below.tail ⟨hx,hp⟩⟩
 have real:∀{c x},s.realized c=true → Desc s.links (fun c=>s.realized c=true) c x →
  s.realized x=true := fun hc h=>by
  induction h with
  | refl=>exact hc
  | tail _ step _=>exact step.1
 have perm:roots.nodes.Perm classes:=(List.perm_ext_iff_of_nodup distinct nodup).mpr fun x=>by
  grind
 have positive:=unreasonableClassCount_pos s
 have all:=fun (code:Cls → State preopt → State preopt × Bool) =>
  walkAll_forest code siblings distinct s.unreasonableClassCount
   (s.unreasonableClassCount-1) s
 rw [weight_perm perm,←head] at all
 constructor
 · intro safe
   by_contra heavy
   refine safe.classesAndMetaclasses (fun _ s=>(s,true)) ?_
   rw [foreachRealizedClassAndMetaclass,(all _).2 (fun _ _=>rfl) (by omega)]
   rfl
 · intro light
   have everywhere:∀code,foreachRealizedClassAndMetaclass code s≠none:=fun code=>by
    rw [foreachRealizedClassAndMetaclass,Ne,Option.map_eq_none_iff]
    exact (all code).1 (by omega) (by omega)
   refine ⟨everywhere,fun code=>everywhere _,fun top htop code=>?_,fun sel c hc=>?_⟩
   · obtain ⟨below,first,under,distinct',nodes'⟩ :=
      exists_forest hparent ok low _ (some top) fun c _=>Nat.le_add_left ..
     have inside:top∉below.nodes:=fun hin=>by
      obtain ⟨d,hd,hdt⟩:=(nodes' top).mp hin
      have:=hdt.rank_le hparent
      have:=hparent hd.2
      omega
     have sub:top::below.nodes ⊆ classes:=by
      refine List.cons_subset.mpr ⟨(mem top).mpr htop,fun x hx=>?_⟩
      obtain ⟨d,hd,hdx⟩:=(nodes' x).mp hx
      exact (mem x).mpr (real hd.1 hdx)
     have cost:=(walkCost_le_weight code first under.children s).1
     have least:=weight_le_of_subset (l:=s.links) (List.nodup_cons.mpr ⟨inside,distinct'⟩) sub
     have run:=walk_walkCost code s first under.children inside
      (s.unreasonableClassCount-1-walkCost code top below s)
     rw [Nat.add_sub_cancel' (by omega)] at run
     rw [foreachRealizedClassAndSubclass,run]
     exact Option.some_ne_none _
   · have:=length_le_weight (l:=s.links) classes
     exact searchChain_ne_none graph hrank mem sel _ c []
      ⟨List.forall_mem_singleton.mpr hc,List.nodup_singleton c,nofun⟩ (by omega)

def nsObjectImage : State false := .image (fun c=>if c=1 then some 0 else none) (fun _=>1)
 (fun c=>.ofPair (c % 2=1)) (fun c=>c<2) 1

theorem nsObjectImage_start : Start nsObjectImage :=
 image_start (fun c p hp=>by grind) (by decide)

def unregisteredPairs (n:ℕ) : List Op :=
 .realizeClass 4 0::(List.range n).map fun i=>.allocateClassPair (some 0) (2*i+2) (2*i+3)

theorem one_pair_noFatal : ∃t,run sampleProgram (unregisteredPairs 1) nsObjectImage=some t ∧
 NoFatal t := by
 obtain ⟨t,ht,few⟩:=run_yields (Op.step sampleProgram) (unregisteredPairs 1) nsObjectImage
  (fun t=>weight t.links [0,1,2,3] < t.unreasonableClassCount) (by decide +kernel)
 have graph:=nsObjectImage_start.graph_of_legalRun (by decide +kernel) ht
 refine ⟨t,ht,(noFatal_iff graph [0,1,2,3] (by decide) fun c=>?_).mpr few⟩
 have realized:t.realized=update (update (update (update (fun _=>false) 0 true) 1 true) 2 true)
  3 true := run_read ht (·.realized) rfl
 simp only [realized,update_apply,List.mem_cons,List.not_mem_nil]
 grind

/-- With no class that dyld knows of, and fourteen subclasses of `NSObject` that nobody has
registered: none of them has a name. -/
theorem unregistered_fatal : ∃t,run sampleProgram (unregisteredPairs 14) nsObjectImage=some t ∧
 Graph t [] ∧ foreachRealizedClassAndMetaclass (fun _ s=>(s,true)) t=none := by
 obtain ⟨t,ht,fatal⟩:=run_yields (Op.step sampleProgram) (unregisteredPairs 14) nsObjectImage
  (fun t=>(foreachRealizedClassAndMetaclass (fun _ s=>(s,true)) t).isNone) (by decide +kernel)
 exact ⟨t,ht,nsObjectImage_start.graph_of_legalRun (by decide +kernel) ht,
  Option.isNone_iff_eq_none.mp fatal⟩

end ObjcRuntime.ClassGraph
