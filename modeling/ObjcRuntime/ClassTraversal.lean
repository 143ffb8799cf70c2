import ObjcRuntime.SiblingLists

/-!
`foreach_realized_class_and_subclass_2` against the preorder walk of the forest.  The loop keeps no
stack, so the walk of a list of siblings ends where the loop has climbed to their parent.
-/

set_option autoImplicit false
namespace ObjcRuntime.ClassTraversal

open SiblingLists

variable {α σ:Type}

/-- Siblings, with the nodes below the first one and the siblings after it. -/
inductive Forest (α:Type) where
 | nil
 | node (c:α) (below rest:Forest α)

namespace Forest

def head : Forest α → Option α
 | nil=>none
 | node c _ _=>some c

def nodes : Forest α → List α
 | nil=>[]
 | node c below rest=>c::(below.nodes++rest.nodes)

def Above (a c:α) : Forest α → Prop
 | nil=>False
 | node d below rest=>a=d ∧ c∈below.nodes ∨ below.Above a c ∨ rest.Above a c

/-- The visited nodes with what the callback says of each, and the state it leaves. -/
def visit (code:α → σ → σ × Bool) : Forest α → σ → List (α × Bool) × σ
 | nil,s=>([],s)
 | node c below rest,s=>
  let under:=if (code c s).2 then below.visit code (code c s).1 else ([],(code c s).1)
  let after:=rest.visit code under.2
  ((c,(code c s).2)::(under.1++after.1),after.2)

/-- How often the budget is decremented until the loop is back at the parent. -/
def cost (code:α → σ → σ × Bool) : Forest α → σ → ℕ
 | nil,_=>0
 | node c below rest,s=>
  let under:=if (code c s).2 then below.cost code (code c s).1 else 0
  let after:=if (code c s).2 then (below.visit code (code c s).1).2 else (code c s).1
  -- the last of the siblings climbs
  rest.cost code after+(if rest.head.isNone then 1 else 0)+under+1

end Forest

def Children (l:Links α) (p:α) : Forest α → Prop
 | .nil=>True
 | .node c below rest=>l.parent c=some p ∧ l.first (some c)=below.head ∧
  Children l c below ∧ l.next c=rest.head ∧ Children l p rest

structure Subtree (l:Links α) (top:α) (below:Forest α) : Prop where
 first : l.first (some top)=below.head
 children : Children l top below
 nodup : (top::below.nodes).Nodup
 outside : ∀p,l.parent top=some p → p∉top::below.nodes

def skipping (skipMetaclass:Bool) (isMetaClass:α → Bool) (code:α → σ → σ × Bool) (c:α)
 (s:σ) : σ × Bool :=
 if skipMetaclass && isMetaClass c then (s,false) else code c s

section Visit

variable (code:α → σ → σ × Bool)

theorem visit_sublist (f:Forest α) (s:σ) : ((f.visit code s).1.map Prod.fst).Sublist f.nodes := by
 induction f generalizing s with
 | nil=>exact List.Sublist.slnil
 | node c below rest ihb ihr=>
  rw [Forest.visit,List.map_cons,List.map_append]
  refine (List.Sublist.append ?_ (ihr _)).cons_cons c
  grind

theorem cost_le (f:Forest α) (s:σ) : f.cost code s≤2*(f.visit code s).1.length := by
 induction f generalizing s with
 | nil=>exact le_rfl
 | node c below rest ihb ihr=>grind [Forest.cost,Forest.visit]

theorem above_mem {a c:α} {f:Forest α} (h:f.Above a c) : a∈f.nodes ∧ c∈f.nodes := by
 induction f with
 | nil=>cases h
 | node d below rest ihb ihr=>
  simp only [Forest.nodes,List.mem_cons,List.mem_append]
  rcases h with ⟨rfl,hc⟩|h|h
  · exact ⟨.inl rfl,.inr (.inl hc)⟩
  · exact ⟨.inr (.inl (ihb h).1),.inr (.inl (ihb h).2)⟩
  · exact ⟨.inr (.inr (ihr h).1),.inr (.inr (ihr h).2)⟩

theorem mem_nodes_of_visit {f:Forest α} {s:σ} {a:α} {x:Bool}
 (h:(a,x)∈(f.visit code s).1) : a∈f.nodes :=
 (visit_sublist code f s).subset (List.mem_map_of_mem (f:=Prod.fst) h)

theorem mem_visit {f:Forest α} (nodup:f.nodes.Nodup) (s:σ) (c:α) : (∃x,(c,x)∈(f.visit code s).1) ↔
  c∈f.nodes ∧ ∀a,f.Above a c → (a,true)∈(f.visit code s).1 := by
 induction f generalizing s with
 | nil=>simp [Forest.visit,Forest.nodes]
 | node d below rest ihb ihr=>
  obtain ⟨hd,both⟩:=List.nodup_cons.mp nodup
  obtain ⟨hb,hr,apart⟩:=List.nodup_append.mp both
  rw [List.mem_append,not_or] at hd
  have inRest {t:σ} {a:α} {x:Bool} : (a,x)∈(rest.visit code t).1 → a∈rest.nodes :=
   mem_nodes_of_visit code
  rw [Forest.visit]
  generalize hu : (if (code d s).2 then below.visit code (code d s).1 else ([],(code d s).1))=u
  have under:∀a x,(a,x)∈u.1 ↔ (code d s).2=true ∧
   (a,x)∈(below.visit code (code d s).1).1 := by grind
  have inBelow {a:α} {x:Bool} (h:(a,x)∈u.1) : a∈below.nodes :=
   mem_nodes_of_visit code ((under a x).mp h).2
  simp only [Forest.nodes,Forest.Above,List.mem_cons,List.mem_append,Prod.mk.injEq]
  constructor
  · rintro ⟨x,⟨rfl,-⟩|h|h⟩
    · refine ⟨.inl rfl,fun a ha=>?_⟩
      rcases ha with ⟨-,h⟩|h|h
      · exact absurd h hd.1
      · exact absurd (above_mem h).2 hd.1
      · exact absurd (above_mem h).2 hd.2
    · obtain ⟨go,hin⟩:=(under c x).mp h
      obtain ⟨hc,yes⟩:=(ihb hb _).mp ⟨x,hin⟩
      refine ⟨.inr (.inl hc),fun a ha=>?_⟩
      rcases ha with ⟨rfl,-⟩|h|h
      · exact .inl ⟨rfl,go.symm⟩
      · exact .inr (.inl ((under a true).mpr ⟨go,yes a h⟩))
      · exact absurd rfl (apart c hc c (above_mem h).2)
    · obtain ⟨hc,yes⟩:=(ihr hr _).mp ⟨x,h⟩
      refine ⟨.inr (.inr hc),fun a ha=>?_⟩
      rcases ha with ⟨-,h⟩|h|h
      · exact absurd rfl (apart c h c hc)
      · exact absurd rfl (apart c (above_mem h).2 c hc)
      · exact .inr (.inr (yes a h))
  · rintro ⟨rfl|hc|hc,yes⟩
    · exact ⟨_,.inl ⟨rfl,rfl⟩⟩
    · have go:(code d s).2=true:=by
       rcases yes d (.inl ⟨rfl,hc⟩) with h|h|h
       · exact h.2.symm
       · exact ((under d true).mp h).1
       · exact absurd (inRest h) hd.2
      obtain ⟨x,hx⟩:=(ihb hb (code d s).1).mpr ⟨hc,fun a ha=>by
       rcases yes a (.inr (.inl ha)) with h|h|h
       · exact absurd (h.1 ▸ (above_mem ha).1) hd.1
       · exact ((under a true).mp h).2
       · exact absurd rfl (apart a (above_mem ha).1 a (inRest h))⟩
      exact ⟨x,.inr (.inl ((under c x).mpr ⟨go,hx⟩))⟩
    · obtain ⟨x,hx⟩:=(ihr hr u.2).mpr ⟨hc,fun a ha=>by
       rcases yes a (.inr (.inr ha)) with h|h|h
       · exact absurd (h.1 ▸ (above_mem ha).1) hd.2
       · exact absurd rfl (apart a (inBelow h) a (above_mem ha).1)
       · exact h⟩
      exact ⟨x,.inr (.inr hx)⟩

theorem visit_state (f:Forest α) (s:σ) :
 (f.visit code s).2=(f.visit code s).1.foldl (fun s v=>(code v.1 s).1) s := by
 induction f generalizing s with
 | nil=>rfl
 | node c below rest ihb ihr=>grind [Forest.visit]

theorem foldl_skipping (skipMetaclass:Bool) (isMetaClass:α → Bool) (cs:List α) (s:σ) :
 cs.foldl (fun s c=>(skipping skipMetaclass isMetaClass code c s).1) s =
  (cs.filter fun c=>!(skipMetaclass && isMetaClass c)).foldl (fun s c=>(code c s).1) s := by
 induction cs generalizing s with
 | nil=>rfl
 | cons c cs ih=>grind [skipping]

end Visit

theorem parent_mem {l:Links α} {p x:α} {f:Forest α} (children:Children l p f)
 (hx:x∈f.nodes) : ∃q,l.parent x=some q ∧ q∈p::f.nodes := by
 induction f generalizing p with
 | nil=>cases hx
 | node c below rest ihb ihr=>
  obtain ⟨parent,-,under,-,after⟩:=children
  grind [Forest.nodes]

variable [DecidableEq α] {l:Links α} {code:α → σ → σ × Bool} {top c p:α} {s:σ}

def enter (l:Links α) (code:α → σ → σ × Bool) (top:α) (n:ℕ) (p:α) (s:σ) : Option α → Option (σ × ℕ)
 | some b=>walk l code top n true b s
 | none=>leave l code top n p s

theorem walk_succ (n:ℕ) : walk l code top (n+1) true c s =
 if (code c s).2 then enter l code top n c (code c s).1 (l.first (some c))
 else leave l code top n c (code c s).1 := by
 rw [walk,if_pos rfl]
 cases (code c s).2 with
 | false=>rfl
 | true=>cases l.first (some c) <;> rfl

theorem enter_children {f:Forest α} (children:Children l p f) (inside:top∉f.nodes) (k:ℕ)
 (s:σ) : enter l code top (f.cost code s+k) p s f.head =
  leave l code top k p (f.visit code s).2 := by
 induction f generalizing p k s with
 | nil=>rw [Forest.cost,Nat.zero_add]; rfl
 | node c below rest ihb ihr=>
  obtain ⟨parent,first,under,next,after⟩:=children
  simp only [Forest.nodes,List.mem_cons,List.mem_append,not_or] at inside
  -- on to the next sibling, or up
  have onward (t:σ) : leave l code top (rest.cost code t +
   (if rest.head.isNone then 1 else 0)+k) c t =
    leave l code top k p (rest.visit code t).2 := by
   have further:=ihr after inside.2.2 k t
   rw [leave,if_neg (Ne.symm inside.1),next,parent]
   cases rest with
   | nil=>rw [Forest.cost,Nat.zero_add,Nat.add_comm]; rfl
   | node b _ _=>exact further
  have steps (n:ℕ) : walk l code top (n+1) true c s=_:=walk_succ n
  grind [Forest.cost,Forest.visit,Forest.head,enter]

/-- `none` is the fatal error.  The budget is compared with zero after it is decremented, so the
walk may use all but one of it. -/
def foreachRealizedClassAndSubclass2 (l:Links α) (isMetaClass:α → Bool) (top:α) (count:ℕ)
 (skipMetaclass:Bool) (code:α → σ → σ × Bool) (s:σ) : Option (σ × ℕ) :=
 (walk l (skipping skipMetaclass isMetaClass code) top (count-1) true top s).map
  fun r=>(r.1,r.2+1)

def walkCost (code:α → σ → σ × Bool) (top:α) (below:Forest α) (s:σ) : ℕ :=
 (if (code top s).2 then below.cost code (code top s).1 else 0)+1

variable (code s) in
theorem walk_walkCost {below:Forest α} (first:l.first (some top)=below.head)
 (children:Children l top below) (inside:top∉below.nodes) (k:ℕ) :
 walk l code top (walkCost code top below s+k) true top s =
  some (((Forest.node top below .nil).visit code s).2,k) := by
 have stop (t:σ) : leave l code top k top t=some (t,k):=if_pos rfl
 rw [walkCost,Nat.add_right_comm,walk_succ,Forest.visit]
 cases (code top s).2 with
 | false=>
  simp only [Bool.false_eq_true,if_false]
  rw [Nat.zero_add,stop]
  rfl
 | true=>
  simp only [if_true]
  rw [first,enter_children children inside,stop]
  rfl

omit [DecidableEq α] in
theorem walkCost_succ_le (below:Forest α) (s:σ) : walkCost code top below s+1 ≤
 2*((Forest.node top below .nil).visit code s).1.length := by
 grind [cost_le,walkCost,Forest.visit]

theorem foreach_preorder {below:Forest α} (tree:Subtree l top below) (isMetaClass:α → Bool)
 (skipMetaclass:Bool) (code:α → σ → σ × Bool) (s:σ) :
 let visited:=(Forest.node top below .nil).visit (skipping skipMetaclass isMetaClass code) s
 let classes:=visited.1.map Prod.fst
 let called:=classes.filter fun c=>!(skipMetaclass && isMetaClass c)
 (∃cost≤2*classes.length,∀count > cost,
  foreachRealizedClassAndSubclass2 l isMetaClass top count skipMetaclass code s =
   some (visited.2,count-cost)) ∧
 (∀count > 2*(top::below.nodes).length,
  foreachRealizedClassAndSubclass2 l isMetaClass top count skipMetaclass code s≠none) ∧
 visited.2=called.foldl (fun s c=>(code c s).1) s ∧
 classes.Nodup ∧ classes.Sublist (top::below.nodes) ∧
 (∀c,c∈called ↔ c∈top::below.nodes ∧ (skipMetaclass && isMetaClass c)=false ∧
  ∀a,(Forest.node top below .nil).Above a c → (a,true)∈visited.1) ∧
 ∀x,x≠top → l.parent x=l.parent top → x∉classes := by
 intro visited classes called
 have nodes:(Forest.node top below .nil).nodes=top::below.nodes:=by simp [Forest.nodes]
 have sub:classes.Sublist (top::below.nodes):=nodes ▸ visit_sublist _ _ s
 have inside:=(List.nodup_cons.mp tree.nodup).1
 obtain ⟨cost,least,runs⟩ : ∃cost,cost+1≤2*visited.1.length ∧ ∀k,walk l
  (skipping skipMetaclass isMetaClass code) top (cost+k) true top s=some (visited.2,k) :=
  ⟨_,walkCost_succ_le below s,walk_walkCost _ _ tree.first tree.children inside⟩
 have few:cost≤2*classes.length:=by rw [List.length_map]; omega
 have done:∀count > cost,foreachRealizedClassAndSubclass2 l isMetaClass top count skipMetaclass
  code s=some (visited.2,count-cost) := by
  intro count enough
  rw [foreachRealizedClassAndSubclass2,show count-1=cost+(count-cost-1) by omega,runs]
  exact congrArg (fun n=>some (visited.2,n)) (by omega)
 refine ⟨⟨cost,few,done⟩,fun count enough=>?_,?_,sub.nodup tree.nodup,sub,fun c=>?_,
  fun x other sibling hx=>?_⟩
 · grind
 · rw [←foldl_skipping,List.foldl_map]
   exact visit_state _ _ s
 · have seen:=mem_visit (skipping skipMetaclass isMetaClass code) (nodes ▸ tree.nodup) s c
   grind
 · obtain ⟨q,parent,mem⟩:=parent_mem tree.children
    ((List.mem_cons.mp (sub.subset hx)).resolve_left other)
   exact tree.outside q (sibling ▸ parent) mem

def sampleLinks : Links ℕ where
 parent c := if c=1 ∨ c=3 then some 0 else if c=2 then some 1 else none
 first c := if c=some 0 then some 1 else if c=some 1 then some 2 else none
 next c := if c=1 then some 3 else if c=0 then some 4 else none

theorem foreach_sample : ∃cost≤6,∀count > cost,
 foreachRealizedClassAndSubclass2 sampleLinks (· = 3) 0 count false
  (fun c (s:List ℕ)=>(c::s,c≠1)) []=some ([3,1,0],count-cost) := by
 have tree:Subtree sampleLinks 0 (.node 1 (.node 2 .nil .nil) (.node 3 .nil .nil)) :=
  ⟨rfl,by simp [Children,sampleLinks,Forest.head],by decide,fun p h=>by cases h⟩
 exact (foreach_preorder tree (· = 3) false (fun c (s:List ℕ)=>(c::s,c≠1)) []).1

end ObjcRuntime.ClassTraversal
