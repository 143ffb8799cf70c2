import ObjcRuntime.Associations

/-!
The associations as one map from objects and keys, and what each locked section does to it.
-/

set_option autoImplicit false
namespace ObjcRuntime.Associations

abbrev Store := ℕ → ℕ → Option Association

def Section.apply : Section → Store → Store
 | .set object key a,st=>fun o k=>if o=object ∧ k=key then some a else st o k
 | .clear object key,st=>fun o k=>if o=object ∧ k=key then none else st o k
 | .get _ _,st=>st
 | .remove object deallocating,st=>fun o k =>
  if o=object then (if deallocating then none else (st o k).filter Association.isSystem)
  else st o k

theorem Section.apply_set (object key:ℕ) (a:Association) (st:Store) (o k:ℕ) :
 (Section.set object key a).apply st o k=if o=object ∧ k=key then some a else st o k :=
 rfl

theorem Section.apply_clear (object key:ℕ) (st:Store) (o k:ℕ) :
 (Section.clear object key).apply st o k=if o=object ∧ k=key then none else st o k :=
 rfl

def Event.apply (e:Event) (st:Store) : Store :=
 match e with
 | .locked _ does=>does.apply st
 | _=>st

def replay (tr:List Event) : Store :=
 tr.foldl (fun st e=>e.apply st) fun _ _=>none

theorem replay_append (tr events:List Event) :
 replay (tr++events)=events.foldl (fun st e=>e.apply st) (replay tr) :=
 List.foldl_append

theorem entry_insert (m:AssociationsHashMap) (object:ℕ) (refs:ObjectAssociationMap) (o k:ℕ) :
 entry (m.insert object refs) o k=if o=object then refs.lookup k else entry m o k := by
 grind [entry,Finmap.lookup_insert,Finmap.lookup_insert_of_ne]

theorem entry_erase (m:AssociationsHashMap) (object o k:ℕ) :
 entry (m.erase object) o k=if o=object then none else entry m o k := by
 grind [entry,Finmap.lookup_erase,Finmap.lookup_erase_ne]

theorem entry_of_lookup {m:AssociationsHashMap} {object:ℕ} (key:ℕ) :
 entry m object key=((m.lookup object).getD ∅).lookup key := by
 unfold entry
 cases m.lookup object with
 | none=>rw [Option.bind_none,Option.getD_none,Finmap.lookup_empty]
 | some refs=>rfl

section Sections

variable {m m':AssociationsHashMap} {object key:ℕ} {association old:Association}

theorem lookup_emplace_self :
 ((emplace m object ∅).lookup object).getD ∅ = (m.lookup object).getD ∅ := by
 grind [emplace,Finmap.lookup_insert,Finmap.lookup_eq_none]

theorem entry_emplace : entry (emplace m object ∅)=entry m := by
 funext o k
 grind [entry_of_lookup,lookup_emplace_self,emplace,entry_insert]

theorem establish_spec {first:Bool} (result:establish m object key association=(m',old,first)) :
 entry m'=(Section.set object key association).apply (entry m) ∧
  old=(entry m object key).getD .empty := by
 have here:(((emplace m object ∅).lookup object).getD ∅).lookup key=entry m object key:=by
  rw [lookup_emplace_self,←entry_of_lookup]
 have stored:entry ((emplace m object ∅).insert object
  ((((emplace m object ∅).lookup object).getD ∅).insert key association)) =
  (Section.set object key association).apply (entry m) := by
  funext o k
  rw [entry_insert,Section.apply_set]
  by_cases same : o=object
  · subst same
    by_cases sameKey : k=key
    · rw [if_pos rfl,if_pos ⟨rfl,sameKey⟩,sameKey,Finmap.lookup_insert]
    · grind [Finmap.lookup_insert_of_ne,lookup_emplace_self,entry_of_lookup]
  · rw [if_neg same,if_neg fun h=>same h.1,entry_emplace]
 grind [establish]

theorem clear_spec (result:clear m object key association=(m',old)) :
 entry m'=(Section.clear object key).apply (entry m) ∧
  old=(entry m object key).getD association := by
 have unchanged:entry m object key=none →
  entry m=(Section.clear object key).apply (entry m) := by grind [Section.apply]
 unfold clear at result
 split at result
 next none=>grind [entry]
 next refs found=>
  have here:entry m object key=refs.lookup key:=by rw [entry,found,Option.bind_some]
  split at result
  next none=>grind
  next a stored=>
   have left:∀k,(refs.erase key).lookup k=if k=key then none else entry m object k:=by
    grind [Finmap.lookup_erase,Finmap.lookup_erase_ne,entry]
   have old_eq:a=(entry m object key).getD association:=by
    rw [here,stored,Option.getD_some]
   simp only at result
   split at result
   next nothing=>
    cases result
    refine ⟨?_,old_eq⟩
    funext o k
    rw [entry_erase,Section.apply_clear]
    by_cases same : o=object
    · subst same
      have empty:(refs.erase key).lookup k=none:=by
       rw [Finmap.lookup_eq_none,←Finmap.mem_keys,Finset.card_eq_zero.mp nothing]
       exact Finset.notMem_empty k
      rw [left] at empty
      split at empty
      next sameKey=>rw [if_pos rfl,if_pos ⟨rfl,sameKey⟩]
      next otherKey=>rw [if_pos rfl,if_neg fun h=>otherKey h.2,empty]
    · rw [if_neg same,if_neg fun h=>same h.1]
   next=>
    cases result
    refine ⟨?_,old_eq⟩
    funext o k
    rw [entry_insert,Section.apply_clear]
    by_cases same : o=object
    · subst same
      rw [if_pos rfl,left]
      by_cases sameKey : k=key
      · rw [if_pos sameKey,if_pos ⟨rfl,sameKey⟩]
      · rw [if_neg sameKey,if_neg fun h=>sameKey h.2]
    · rw [if_neg same,if_neg fun h=>same h.1]

theorem lookup_foldl_reinsert (refs:List (Σ _:ℕ,Association)) (nodup:refs.NodupKeys)
 (into:ObjectAssociationMap) (apart:∀ref∈refs,ref.1∉into) (k:ℕ) (a:Association) :
 (refs.foldl (fun m ref=>if ref.2.isSystem then emplace m ref.1 ref.2 else m) into).lookup k
  = some a ↔
  into.lookup k=some a ∨ (⟨k,a⟩∈refs ∧ a.isSystem=true) := by
 induction refs generalizing into with
 | nil=>simp
 | cons ref refs ih=>
  obtain ⟨key,b⟩:=ref
  rw [List.nodupKeys_cons] at nodup
  have absent:key∉into:=apart _ List.mem_cons_self
  have later:∀ref∈refs,ref.1∉into:=fun ref h=>apart ref (List.mem_cons_of_mem _ h)
  rw [List.foldl_cons]
  by_cases system : b.isSystem=true
  · rw [if_pos system,emplace,if_neg absent,ih nodup.2 _ fun ref h mem=>?_]
    · by_cases same : k=key
      · subst same
        have noOther:∀c,(⟨k,c⟩ : Σ _ : ℕ,Association)∉refs:=fun c h =>
         nodup.1 (List.mem_keys.mpr ⟨c,h⟩)
        rw [Finmap.lookup_insert,Finmap.lookup_eq_none.mpr absent]
        simp only [noOther,false_and,or_false,reduceCtorEq,false_or,List.mem_cons]
        constructor
        · rintro ⟨⟩
          exact ⟨rfl,system⟩
        · rintro ⟨h,-⟩
          cases h
          rfl
      · rw [Finmap.lookup_insert_of_ne _ same,List.mem_cons]
        have : (⟨k,a⟩ : Σ _ : ℕ,Association)≠⟨key,b⟩:=fun h=>same (congrArg Sigma.fst h)
        simp only [this,false_or]
    · rcases Finmap.mem_insert.mp mem with same|old
      · exact nodup.1 (same ▸ List.mem_keys_of_mem h)
      · exact later ref h old
  · grind

theorem takeAssociations_spec {deallocating:Bool} {refs:AList fun _ : ℕ=>Association}
 (order:refs.toFinmap=(m.lookup object).getD ∅) :
 entry (takeAssociations m object deallocating refs.entries) =
  (Section.remove object deallocating).apply (entry m) := by
 have listed:∀k a,(⟨k,a⟩ : Σ _ : ℕ,Association)∈refs.entries ↔ entry m object k=some a := by
  intro k a
  rw [entry_of_lookup,←order,Finmap.lookup_toFinmap]
  exact AList.mem_lookup_iff.symm
 have kept:∀k,(reinsert refs.entries).lookup k =
  (entry m object k).filter Association.isSystem := by
  intro k
  apply Option.ext
  intro a
  rw [reinsert,lookup_foldl_reinsert refs.entries refs.nodupKeys ∅
   (fun _ _=>Finmap.notMem_empty),Finmap.lookup_empty,listed,Option.filter_eq_some_iff]
  simp
 funext o k
 simp only [takeAssociations,Section.apply]
 split
 next present=>
  by_cases same : o=object
  · subst same
    cases deallocating with
    | true=>simp [entry_erase]
    | false=>
     simp only [Bool.not_false,Bool.true_and,Bool.false_eq_true,if_false,if_true]
     split
     · rw [entry_insert,if_pos rfl,kept]
     · next none =>
       rw [entry_erase,if_pos rfl]
       symm
       rw [Option.filter_eq_none_iff]
       intro a stored system
       exact none (List.any_eq_true.mpr ⟨⟨k,a⟩,(listed k a).mpr stored,system⟩)
  · grind [entry_insert,entry_erase]
 grind [entry,Finmap.lookup_eq_none]

end Sections

end ObjcRuntime.Associations
