import Mathlib

/-!
# Trees kept in sibling lists

Every node points to its parent, and a list that starts at the node runs through its children.  The
nodes without a parent are such a list too.
-/

set_option autoImplicit false
namespace ObjcRuntime.SiblingLists
open Function

variable {α σ:Type} [DecidableEq α]

/-- `first none` starts the list of the nodes without a parent. -/
structure Links (α:Type) where
 parent : α → Option α
 first : Option α → Option α
 next : α → Option α

namespace Links

def link (l:Links α) (p:Option α) (c:α) : Links α where
 parent := l.parent
 first := update l.first p (some c)
 next := update l.next c (l.first p)

def setParent (l:Links α) (c:α) (p:Option α) : Links α :=
 ⟨update l.parent c p,l.first,l.next⟩

def clear (l:Links α) (c:α) : Links α :=
 ⟨l.parent,update l.first (some c) none,update l.next c none⟩

def before (l:Links α) (c:α) : (fuel:ℕ) → α → Option α
 | 0,_=>none
 | fuel+1,e=>
  match l.next e with
  | none=>some e
  | some b=>if b=c then some e else l.before c fuel b

/-- Let the pointer that leads to `c` skip it; `none` if the list does not end. -/
def unlink (fuel:ℕ) (l:Links α) (p:Option α) (c:α) : Option (Links α) :=
 match l.first p with
 | none=>some ⟨l.parent,update l.first p (l.next c),l.next⟩
 | some f=>
  if f=c then some ⟨l.parent,update l.first p (l.next c),l.next⟩
  else (l.before c fuel f).map fun e=>⟨l.parent,l.first,update l.next e (l.next c)⟩

section Projections

variable (l:Links α) (p q:Option α) (c d:α)

theorem setParent_parent : (l.setParent c p).parent d=if d=c then p else l.parent d :=
 update_apply ..

end Projections

end Links

def Path (next:α → Option α) : Option α → List α → Option α → Prop
 | o,[],o'=>o=o'
 | o,c::cs,o'=>o=some c ∧ Path next (next c) cs o'

variable {fuel:ℕ} {I Q:σ → Prop} {rank:α → ℕ}

section Path

variable {next:α → Option α} {o o' o'':Option α} {cs ds:List α} {c:α}

omit [DecidableEq α] in
theorem Path.append (h:Path next o cs o') (h':Path next o' ds o'') : Path next o (cs++ds) o'' := by
 induction cs generalizing o with
 | nil=>
  obtain rfl : o=o':=h
  exact h'
 | cons c cs ih=>exact ⟨h.1,ih h.2⟩

omit [DecidableEq α] in
theorem Path.split (h:Path next o (cs++ds) o'') : ∃o',Path next o cs o' ∧ Path next o' ds o'' := by
 induction cs generalizing o with
 | nil=>exact ⟨o,rfl,h⟩
 | cons c cs ih=>
  obtain ⟨o',hcs,hds⟩:=ih h.2
  exact ⟨o',⟨h.1,hcs⟩,hds⟩

omit [DecidableEq α] in
theorem Path.congr {next':α → Option α} (h:Path next o cs o')
 (hsame:∀c∈cs,next' c=next c) : Path next' o cs o' := by
 induction cs generalizing o with
 | nil=>exact h
 | cons d cs ih=>
  refine ⟨h.1,?_⟩
  rw [hsame d List.mem_cons_self]
  exact ih h.2 fun c hc=>hsame c (List.mem_cons_of_mem _ hc)

theorem Path.update (h:Path next o cs o') (hc:c∉cs) (v:Option α) :
 Path (update next c v) o cs o' := by grind [h.congr]

omit [DecidableEq α] in
theorem Path.unique (h:Path next o cs none) (h':Path next o ds none) : cs=ds := by
 induction cs generalizing o ds with
 | nil=>
  obtain rfl : o=none:=h
  cases ds with
  | nil=>rfl
  | cons d ds=>cases h'.1
 | cons c cs ih=>
  obtain ⟨rfl,hrest⟩:=h
  cases ds with
  | nil=>cases h'
  | cons d ds=>
   obtain ⟨hd,hrest'⟩:=h'
   grind

omit [DecidableEq α] in
theorem Path.next_mem {d:α} (h:Path next o cs none) (hc:c∈cs) (hd:next c=some d) : d∈cs := by
 induction cs generalizing o with
 | nil=>cases hc
 | cons e cs ih=>
  rcases List.mem_cons.mp hc with rfl|hc
  · cases cs with
    | nil=>cases hd.symm.trans h.2
    | cons f cs=>
     obtain rfl : d=f:=Option.some.inj (hd.symm.trans h.2.1)
     exact List.mem_cons_of_mem _ List.mem_cons_self
  · exact List.mem_cons_of_mem _ (ih h.2 hc)

theorem Path.before {l:Links α} {f e:α} (h:Path l.next (some f) (f::cs) none)
 (hc:c∈cs) (he:l.before c fuel f=some e) :
 ∃xs ys,f::cs=xs++e::c::ys := by
 induction fuel generalizing f cs with
 | zero=>cases he
 | succ fuel ih=>
  cases cs with
  | nil=>cases hc
  | cons b cs=>
   obtain ⟨-,hnext,hrest⟩:=h
   simp only [Links.before,hnext] at he
   split at he
   · case isTrue hbc =>
     obtain rfl : f=e:=Option.some.inj he
     exact ⟨[],cs,by rw [hbc]; rfl⟩
   · case isFalse hbc =>
     have hmem:c∈cs:=(List.mem_cons.mp hc).resolve_left fun heq=>hbc heq.symm
     obtain ⟨xs,ys,heq⟩:=ih ⟨rfl,hrest⟩ hmem he
     exact ⟨f::xs,ys,by rw [heq]; rfl⟩

end Path

/-- The lists hold exactly the members, each in the list of its parent. -/
def Links.Ok (l:Links α) (member:α → Prop) : Prop :=
 ∀p,∃cs,Path l.next (l.first p) cs none ∧ cs.Nodup ∧ ∀c,c∈cs ↔ member c ∧ l.parent c=p

namespace Links.Ok

variable {l:Links α} {member:α → Prop} {c:α}

omit [DecidableEq α] in
theorem congr {member':α → Prop} (h:l.Ok member) (heq:∀c,member c ↔ member' c) : l.Ok member' := by
 intro p
 obtain ⟨cs,hpath,hnodup,hmem⟩:=h p
 grind

omit [DecidableEq α] in
theorem relist {l':Links α} {member':α → Prop} {p:Option α} (cs:List α) (h:l.Ok member)
 (hparent:l'.parent=l.parent) (hfirst:∀q,q≠p → l'.first q=l.first q)
 (hnext:∀d,member d → l.parent d≠p → l'.next d=l.next d)
 (hmember:∀d,l.parent d≠p → (member' d ↔ member d))
 (hpath:Path l'.next (l'.first p) cs none) (hnodup:cs.Nodup)
 (hmem:∀d,d∈cs ↔ member' d ∧ l.parent d=p) : l'.Ok member' := by
 intro q
 by_cases hq : q=p
 · grind
 · obtain ⟨ds,hds,hnd,hmemd⟩:=h q
   refine ⟨ds,?_,hnd,fun d=>?_⟩
   · rw [hfirst q hq]
     refine hds.congr fun d hd=>?_
     grind
   · grind

theorem link (h:l.Ok member) (hc:¬ member c) :
 (l.link (l.parent c) c).Ok fun d=>d=c ∨ member d := by
 obtain ⟨cs,hpath,hnodup,hmem⟩:=h (l.parent c)
 have hnot:c∉cs:=fun hin=>hc ((hmem c).mp hin).1
 refine h.relist (c::cs) rfl (fun q hq=>update_of_ne hq ..) ?_ ?_ ?_
  (List.nodup_cons.mpr ⟨hnot,hnodup⟩) ?_
 · intro d hd _
   refine update_of_ne ?_ ..
   rintro rfl
   exact hc hd
 · grind
 · refine ⟨update_self ..,?_⟩
   have hnext:(l.link (l.parent c) c).next c=l.first (l.parent c):=update_self ..
   rw [hnext]
   exact hpath.update hnot _
 · grind

theorem setParent (h:l.Ok member) (hc:¬ member c) (q:Option α) : (l.setParent c q).Ok member := by
 intro p
 obtain ⟨cs,hpath,hnodup,hmem⟩:=h p
 refine ⟨cs,hpath,hnodup,fun d=>(hmem d).trans (and_congr_right fun hd=>?_)⟩
 rw [Links.setParent_parent,if_neg]
 rintro rfl
 exact hc hd

theorem clear (h:l.Ok member) (hc:¬ member c) (hchild:∀d,member d → l.parent d≠some c) :
 (l.clear c).Ok member := by
 refine h.relist (p:=some c) [] rfl (fun q hq=>update_of_ne hq ..) ?_
  (fun d _=>Iff.rfl) (update_self ..) List.nodup_nil ?_
 · intro d hd _
   refine update_of_ne ?_ ..
   rintro rfl
   exact hc hd
 · intro d
   simpa using hchild d

theorem unlink {l':Links α} (h:l.Ok member) (hc:member c)
 (hl:l.unlink fuel (l.parent c) c=some l') :
 l'.parent=l.parent ∧ l'.Ok fun d=>d≠c ∧ member d := by
 obtain ⟨cs,hpath,hnodup,hmem⟩:=h (l.parent c)
 have hin:c∈cs:=(hmem c).mpr ⟨hc,rfl⟩
 -- the rest of the list, wherever the node is in it
 have hrest:∀xs ys,cs=xs++c::ys → (xs++ys).Nodup ∧ ∀d,d∈xs++ys ↔
  (d≠c ∧ member d) ∧ l.parent d=l.parent c := by grind
 have hmember:∀d,l.parent d≠l.parent c → ((d≠c ∧ member d) ↔ member d):=by grind
 cases cs with
 | nil=>cases hin
 | cons f cs=>
  obtain ⟨hfirst,hpath⟩:=hpath
  rw [Links.unlink,hfirst] at hl
  by_cases hfc : f=c
  · subst hfc
    simp only [if_true,Option.some.injEq] at hl
    subst hl
    obtain ⟨hnd,hmem'⟩:=hrest [] cs rfl
    refine ⟨rfl,h.relist _ rfl (fun q hq=>update_of_ne hq ..) (fun _ _ _=>rfl) hmember ?_ hnd hmem'⟩
    change Path l.next (update l.first (l.parent f) (l.next f) (l.parent f)) cs none
    rw [update_self]
    exact hpath
  · simp only [if_neg hfc] at hl
    obtain ⟨e,he,rfl⟩:=Option.map_eq_some_iff.mp hl
    have hcs:c∈cs:=(List.mem_cons.mp hin).resolve_left fun heq=>hfc heq.symm
    obtain ⟨xs,ys,hsplit⟩:=Path.before ⟨rfl,hpath⟩ hcs he
    obtain ⟨hnd,hmem'⟩:=hrest (xs++[e]) ys (by rw [hsplit]; simp)
    have hpare:l.parent e=l.parent c:=((hmem e).mp (by rw [hsplit]; simp)).2
    refine ⟨rfl,h.relist _ rfl (fun _ _=>rfl) ?_ hmember ?_ hnd hmem'⟩
    · intro d _ hpar
      refine update_of_ne ?_ ..
      rintro rfl
      exact hpar hpare
    · have hall:Path l.next (l.first (l.parent c)) (xs++e::c::ys) none :=
       hsplit ▸ ⟨hfirst,hpath⟩
      obtain ⟨o,hxs,ho,-,hys⟩:=hall.split
      rw [hsplit] at hnodup
      have hdisj:=List.nodup_append.mp hnodup
      have hex:e∉xs:=fun hx=>hdisj.2.2 e hx e List.mem_cons_self rfl
      have hey:e∉ys:=fun hy =>
       (List.nodup_cons.mp hdisj.2.1).1 (List.mem_cons_of_mem _ hy)
      have hnew:Path (update l.next e (l.next c)) o (e::ys) none:=by
       refine ⟨ho,?_⟩
       rw [update_self]
       exact hys.update hey _
      rw [List.append_assoc]
      exact (hxs.update hex _).append hnew

end Links.Ok

/-- Go down while `code` says so, then on to the sibling, or up to the parent until there is one,
and stop at the top.  `n` bounds the moves; the walk returns what is left of it. -/
def walk (l:Links α) (code:α → σ → σ × Bool) (top:α) : (n:ℕ) → (down:Bool) → α → σ → Option (σ × ℕ)
 | 0,_,_,_=>none
 | n+1,down,c,s=>
  let r:=if down then code c s else (s,false)
  match (if r.2 then l.first (some c) else none) with
  | some f=>walk l code top n true f r.1
  | none=>
   if c=top then some (r.1,n)
   else
    match l.next c with
    | some b=>walk l code top n true b r.1
    | none=>
     match l.parent c with
     | some p=>walk l code top n false p r.1
     | none=>none

def walkAll (l:Links α) (code:α → σ → σ × Bool) : (fuel n:ℕ) → Option α → σ → Option (σ × ℕ)
 | _,n,none,s=>some (s,n)
 | 0,_,some _,_=>none
 | fuel+1,n,some top,s=>
  (walk l code top n true top s).bind fun r=>walkAll l code fuel r.2 (l.next top) r.1

/-- The nodes of the trees in preorder, without the children of those where `code` says no. -/
inductive Traverse (l:Links α) (code:α → σ → σ × Bool) : List α → σ → σ → Prop
 | nil (s:σ) : Traverse l code [] s s
 | skip {c:α} {rest:List α} {s t:σ} : (code c s).2=false →
  Traverse l code rest (code c s).1 t → Traverse l code (c::rest) s t
 | enter {c:α} {cs rest:List α} {s u t:σ} : (code c s).2=true →
  Path l.next (l.first (some c)) cs none → Traverse l code cs (code c s).1 u →
  Traverse l code rest u t → Traverse l code (c::rest) s t

section Walk

variable {l:Links α} {code:α → σ → σ × Bool} {top:α} {s t:σ}

variable {c:α} {member:α → Prop}

theorem walk_invariant (hI:∀c s,I s → I (code c s).1) {n k:ℕ} {down:Bool}
 (h:walk l code top n down c s=some (t,k)) (hs:I s) : I t := by
 induction n generalizing down c s with
 | zero=>cases h
 | succ n ih=>grind [walk]

theorem walkAll_invariant (hI:∀c s,I s → I (code c s).1) {n k:ℕ} {o:Option α}
 (h:walkAll l code fuel n o s=some (t,k)) (hs:I s) : I t := by
 induction fuel generalizing n o s with
 | zero=>
  cases o with
  | none=>
   cases h
   exact hs
  | some top=>cases h
 | succ fuel ih=>
  cases o with
  | none=>
   cases h
   exact hs
  | some top=>
   obtain ⟨r,hr,h⟩:=Option.bind_eq_some_iff.mp h
   exact ih h (walk_invariant hI hr hs)

def leave (l:Links α) (code:α → σ → σ × Bool) (top:α) (n:ℕ) (c:α) (s:σ) : Option (σ × ℕ) :=
 if c=top then some (s,n)
 else
  match l.next c with
  | some b=>walk l code top n true b s
  | none=>
   match l.parent c with
   | some p=>walk l code top n false p s
   | none=>none

omit [DecidableEq α] in
theorem Traverse.cons {rest:List α} {u:σ} (h:Traverse l code [c] s u)
 (h':Traverse l code rest u t) : Traverse l code (c::rest) s t := by
 cases h with
 | skip hno hnil=>
  cases hnil
  exact .skip hno h'
 | enter hyes hpath hcs hnil=>
  cases hnil
  exact .enter hyes hpath hcs h'

theorem walk_subtree (hl:l.Ok member)
 (hrank:∀{c p:α},l.parent c=some p → rank p < rank c) {n:ℕ} (hc:rank top ≤ rank c)
 {r:σ × ℕ} (h:walk l code top n true c s=some r) :
 ∃m u,m < n ∧ Traverse l code [c] s u ∧ leave l code top m c u=some r := by
 induction n using Nat.strong_induction_on generalizing c s with
 | _ n ih=>
  cases n with
  | zero=>cases h
  | succ n=>
   -- the children from `f` on
   have hchildren:∀(cs:List α) (f:α) (m:ℕ) (s:σ),m ≤ n →
    Path l.next (some f) (f::cs) none → (∀d∈f::cs,l.parent d=some c) →
    walk l code top m true f s=some r →
    ∃k u,k < m ∧ Traverse l code (f::cs) s u ∧ leave l code top k c u=some r := by
    intro cs
    induction cs with
    | nil=>
     intro f m s hm hpath hpar hwalk
     have hparf:=hpar f List.mem_cons_self
     have hbelow:=hrank hparf
     obtain ⟨k,u,hk,htrav,hleave⟩:=ih m (by omega) (by omega) hwalk
     have hnext:l.next f=none:=hpath.2
     have hne:f≠top:=fun heq=>by subst heq; omega
     rw [leave,if_neg hne,hnext,hparf] at hleave
     cases k with
     | zero=>cases hleave
     | succ k=>exact ⟨k,u,by omega,htrav,hleave⟩
    | cons b cs ihcs=>
     intro f m s hm hpath hpar hwalk
     have hparf:=hpar f List.mem_cons_self
     have hbelow:=hrank hparf
     obtain ⟨k,u,hk,htrav,hleave⟩:=ih m (by omega) (by omega) hwalk
     obtain ⟨-,hnext,hrest⟩:=hpath
     have hne:f≠top:=fun heq=>by subst heq; omega
     rw [leave,if_neg hne,hnext] at hleave
     obtain ⟨k',u',hk',htrav',hleave'⟩:=ihcs b k u (by omega) ⟨rfl,hrest⟩
      (fun d hd=>hpar d (List.mem_cons_of_mem _ hd)) hleave
     exact ⟨k',u',by omega,htrav.cons htrav',hleave'⟩
   obtain ⟨cs,hpath,-,hmem⟩:=hl (some c)
   rw [walk,if_pos rfl] at h
   cases hgo : (code c s).2 with
   | false=>
    simp only [hgo] at h
    exact ⟨n,_,by omega,.skip hgo (.nil _),h⟩
   | true=>
    simp only [hgo,if_true] at h
    cases cs with
    | nil=>
     have hfirst:l.first (some c)=none:=hpath
     rw [hfirst] at h
     exact ⟨n,_,by omega,.enter hgo hpath (.nil _) (.nil _),h⟩
    | cons f cs=>
     rw [hpath.1] at h
     obtain ⟨k,u,hk,htrav,hleave⟩:=hchildren cs f n _ le_rfl (hpath.1 ▸ hpath)
      (fun d hd=>((hmem d).mp hd).2) h
     exact ⟨k,u,by omega,.enter hgo hpath htrav (.nil _),hleave⟩

theorem walk_traverse (hl:l.Ok member) (hrank:∀{c p:α},l.parent c=some p → rank p < rank c) {n k:ℕ}
 (h:walk l code top n true top s=some (t,k)) : Traverse l code [top] s t := by
 obtain ⟨m,u,-,htrav,hleave⟩:=walk_subtree hl hrank le_rfl h
 grind [leave]

theorem walkAll_traverse (hl:l.Ok member)
 (hrank:∀{c p:α},l.parent c=some p → rank p < rank c) {n k:ℕ} {o:Option α}
 {tops:List α} (hpath:Path l.next o tops none)
 (h:walkAll l code fuel n o s=some (t,k)) : Traverse l code tops s t := by
 induction tops generalizing fuel n o s with
 | nil=>
  obtain rfl : o=none:=hpath
  rw [walkAll] at h
  cases h
  exact .nil _
 | cons top tops ih=>
  obtain ⟨rfl,hrest⟩:=hpath
  cases fuel with
  | zero=>cases h
  | succ fuel=>
   obtain ⟨⟨u,m⟩,hwalk,h⟩:=Option.bind_eq_some_iff.mp h
   exact (walk_traverse hl hrank hwalk).cons (ih hrest h)

end Walk

namespace Traverse

variable {l:Links α} {code:α → σ → σ × Bool} {cs:List α} {s t:σ}

omit [DecidableEq α] in
theorem invariant (h:Traverse l code cs s t) (hI:∀c s,I s → I (code c s).1) (hs:I s) : I t := by
 induction h with
 | nil s=>exact hs
 | skip _ _ ih=>exact ih (hI _ _ hs)
 | enter _ _ _ _ ih ih'=>exact ih' (ih (hI _ _ hs))

omit [DecidableEq α] in
theorem visits {x:α} (h:Traverse l code cs s t) (hx:x∈cs) (hvisit:∀s,Q (code x s).1)
 (hstable:∀c s,Q s → Q (code c s).1) : Q t := by
 induction h with
 | nil s=>cases hx
 | skip _ hrest ih=>
  rcases List.mem_cons.mp hx with rfl|hx
  · exact hrest.invariant hstable (hvisit _)
  · exact ih hx
 | enter _ _ hcs hrest _ ih=>
  rcases List.mem_cons.mp hx with rfl|hx
  · exact hrest.invariant hstable (hcs.invariant hstable (hvisit _))
  · exact ih hx

omit [DecidableEq α] in
theorem visits_below {member:α → Prop} {x c:α} (hl:l.Ok member) (h:Traverse l code cs s t)
 (hyes:∀c s,(code c s).2=true) (hc:c∈cs)
 (hx:Relation.ReflTransGen (fun p d=>member d ∧ l.parent d=some p) c x)
 (hvisit:∀s,Q (code x s).1) (hstable:∀c s,Q s → Q (code c s).1) : Q t := by
 induction h generalizing c with
 | nil s=>cases hc
 | skip hno _ _=>rw [hyes] at hno; cases hno
 | @enter d ds rest s u t _ hpath hds hrest ih ih'=>
  rcases List.mem_cons.mp hc with rfl|hc
  · refine hrest.invariant hstable ?_
    rcases Relation.ReflTransGen.cases_head hx with rfl|⟨b,⟨hb,hpar⟩,hbx⟩
    · exact hds.invariant hstable (hvisit _)
    · obtain ⟨ds',hpath',-,hmem⟩:=hl (some c)
      have hsame:=hpath'.unique hpath
      exact ih (hsame ▸ (hmem b).mpr ⟨hb,hpar⟩) hbx
  · exact ih' hc hx

omit [DecidableEq α] in
theorem visits_marked {member:α → Prop} {M:α → σ → Prop} {p x:α} (hl:l.Ok member)
 (h:Traverse l code cs s t) (hx:member x) (hpar:l.parent x=some p)
 (hmark:∀c s,¬ M p s → M p (code c s).1 → c=p ∧ (code c s).2=true)
 (hvisit:∀s,Q (code x s).1) (hstable:∀c s,Q s → Q (code c s).1) (hs:¬ M p s)
 (ht:M p t) : Q t := by
 induction h with
 | nil s=>exact absurd ht hs
 | @skip c rest s t hno _ ih=>grind
 | @enter c ds rest s u t _ hpath hds hrest ih ih'=>
  by_cases hmarked : M p (code c s).1
  · obtain ⟨rfl,-⟩:=hmark c s hs hmarked
    obtain ⟨ds',hpath',-,hmem⟩:=hl (some c)
    have hin:x∈ds:=hpath'.unique hpath ▸ (hmem x).mpr ⟨hx,hpar⟩
    exact hrest.invariant hstable (hds.visits hin hvisit hstable)
  · by_cases hu : M p u
    · exact hrest.invariant hstable (ih hmarked hu)
    · exact ih' hu ht

end Traverse

end ObjcRuntime.SiblingLists
