import ObjcRuntime.WeakTable

/-!
# The life of the entries of a weak table

An entry moves out of line with its fifth referrer and never back; the test for an empty entry then
reads the words of the hash set as inline referrers.
-/
set_option autoImplicit false
namespace ObjcRuntime.WeakTable
open ProbeTable WeakEntry
open scoped List
open Function

inductive Call where
 | register (block:NonNil) (referent:Ptr) (referrer:Location) (options:DeallocatingOptions)
  (viability:Viability)
 | unregister (referent:Ptr) (referrer:Location)
 | clear (referent:NonNil)

def Call.op : Call → Op
 | .register block referent referrer options viability=>
  .register block referent referrer options viability
 | .unregister referent referrer=>.unregister referent referrer
 | .clear referent=>.clear referent

/-- `_objc_fatal` with "Cannot form weak reference". -/
def Call.Crashes (isTagged:Ptr → Bool) : Call → Prop
 | .register _ referent _ options viability=>
  referent≠0 ∧ isTagged referent=false ∧ options=.crashIfDeallocating ∧ viability=.deallocating
 | _=>False

def Registered.after (isTagged:Ptr → Bool) (m:Registered) : Call → Registered
 | .register _ referent referrer options viability=>
  if Accepts isTagged referent options viability then
   update m referent (referrer.1 ::ₘ m referent)
  else m
 | .unregister referent referrer=>update m referent ((m referent).erase referrer.1)
 | .clear referent=>update m referent.1 0

def registered (isTagged:Ptr → Bool) (calls:List Call) : Registered :=
 calls.foldl (Registered.after isTagged) fun _=>0

/-- The referents that have had more than four referrers since they were last cleared. -/
def outgrown (isTagged:Ptr → Bool) (m:Registered) (grown:Ptr → Prop) : Call → Ptr → Prop
 | .register block referent referrer options viability=>fun r =>
  grown r ∨ 4 < (m.after isTagged (.register block referent referrer options viability) r).card
 | .unregister _ _=>grown
 | .clear referent=>fun r=>r≠referent.1 ∧ grown r

theorem follows_step (isTagged:Ptr → Bool) {s:State} {m:Registered} {grown:Ptr → Prop}
 (h:Follows s.table m grown) (call:Call) :
 (∃s',step isTagged s call.op=some s' ∧
  Follows s'.table (m.after isTagged call) (outgrown isTagged m grown call)) ∨
 (step isTagged s call.op=none ∧ call.Crashes isTagged) := by
 cases call with
 | register block referent referrer options viability=>
  simp only [Call.op,step,weakRegisterNoLock_eq,Registered.after,outgrown]
  by_cases hacc : Accepts isTagged referent options viability
  · obtain ⟨t',hreg,h'⟩:=follows_register h block referrer hacc.1
    simp only [if_pos hacc]
    exact .inl ⟨⟨t',s.mem⟩,by rw [hreg]; rfl,h'⟩
  · have hsame:(fun r=>grown r ∨ 4 < (m r).card)=grown :=
     funext fun r=>propext (or_iff_left_of_imp h.grown_of_card)
    simp only [if_neg hacc,hsame]
    by_cases hnil : referent=0 ∨ isTagged referent=true
    · rw [if_pos hnil]
      exact .inl ⟨s,rfl,h⟩
    · rw [if_neg hnil]
      by_cases hcrash : options=.crashIfDeallocating ∧ viability=.deallocating
      · rw [if_pos hcrash]
        rw [not_or,Bool.not_eq_true] at hnil
        exact .inr ⟨rfl,hnil.1,hnil.2,hcrash.1,hcrash.2⟩
      · rw [if_neg hcrash]
        exact .inl ⟨s,rfl,h⟩
 | unregister referent referrer=>
  obtain ⟨t',unknown,hrun,h'⟩:=follows_unregister h referent referrer.2.ne
  exact .inl ⟨⟨t',s.mem⟩,by simp only [Call.op,step,hrun]; rfl,h'⟩
 | clear referent=>
  obtain ⟨t',mem',hrun,h',-⟩:=follows_clear h referent s.mem
  exact .inl ⟨⟨t',mem'⟩,by simp only [Call.op,step,hrun]; rfl,h'⟩

def history (isTagged:Ptr → Bool) (calls:List Call) : Registered × (Ptr → Prop) :=
 calls.foldl (fun x call=>(x.1.after isTagged call,outgrown isTagged x.1 x.2 call))
  (fun _=>0,fun _=>False)

theorem history_concat (isTagged:Ptr → Bool) (calls:List Call) (call:Call) :
 history isTagged (calls++[call])=((history isTagged calls).1.after isTagged call,
    outgrown isTagged (history isTagged calls).1 (history isTagged calls).2 call) :=
 List.foldl_concat ..

theorem history_registered (isTagged:Ptr → Bool) (calls:List Call) :
 (history isTagged calls).1=registered isTagged calls := by
 induction calls using List.reverseRecOn with
 | nil=>rfl
 | append_singleton calls call ih=>
  rw [history_concat,registered,List.foldl_concat,ih]
  rfl

theorem run_append (isTagged:Ptr → Bool) (earlier later:List Op) (s:State) :
 run isTagged (earlier++later) s=(run isTagged earlier s).bind (run isTagged later) := by
 induction earlier generalizing s with
 | nil=>rfl
 | cons op ops ih=>
  rw [List.cons_append,run,run]
  cases step isTagged s op with
  | none=>rfl
  | some s'=>exact ih s'

theorem follows_history (isTagged:Ptr → Bool) (mem:Ptr → Ptr) (calls:List Call) :
 (∃s,run isTagged (calls.map Call.op) ⟨emptyWeakTable,mem⟩=some s ∧
  Follows s.table (history isTagged calls).1 (history isTagged calls).2) ∨
 (∃earlier call later s,calls=earlier++call::later ∧
  run isTagged (earlier.map Call.op) ⟨emptyWeakTable,mem⟩=some s ∧
  Follows s.table (history isTagged earlier).1 (history isTagged earlier).2 ∧
  step isTagged s call.op=none ∧ call.Crashes isTagged) := by
 induction calls using List.reverseRecOn with
 | nil=>exact .inl ⟨_,rfl,follows_empty⟩
 | append_singleton calls call ih=>grind [follows_step,history_concat,run_append,run]

/-- No probe loop of a later call comes back to its start. -/
structure ProbesStop (t:Table Entry) : Prop where
 forReferent : ∀referent : NonNil,weakEntryForReferent t referent≠.corrupt
 entryInsert : t.slots≠[] → ∀e,e.referent≠0 → (weakEntryInsert t e).isSome
 removeReferrer : ∀k e,Has entryKey t k e → ∀r : Location,(removeReferrer e r).isSome
 appendReferrer : ∀k e,Has entryKey t k e → ∀r : Location,∀block : NonNil,
  (appendReferrer block 2 e r).isSome

theorem Follows.probesStop {t:Table Entry} {m:Registered} {grown:Ptr → Prop}
 (h:Follows t m grown) : ProbesStop t := by
 refine ⟨fun referent=>?_,fun halloc e he=>?_,fun k e he r=>?_,fun k e he r block=>?_⟩
 · grind [lookup_follows,h.table]
 · rcases h.table with rfl|hroomy
   · exact absurd rfl halloc
   · have hsize:=hroomy.size
     have hload:=hroomy.load
     obtain ⟨t',hins,-⟩:=hroomy.table.toProbed.insert_spec (ptrKey_of_ne he) (by omega)
     rw [weakEntryInsert,hins]
     rfl
 · obtain ⟨e',unknown,hrem,-⟩:=remove_sound (h.entry k e he).1 r.2.ne
   rw [hrem]
   rfl
 · obtain ⟨e',happ,-⟩:=append_sound (h.entry k e he).1 block.2 r.2
   rw [happ]
   rfl

/-- `bad_weak_table` is not reached: the calls return, growing, shrinking and rehashing included,
unless the caller asked for a crash, and no later probe comes back to its start either. -/
theorem bad_weak_table_unreachable (isTagged:Ptr → Bool) (mem:Ptr → Ptr) (calls:List Call) :
 (∃s,run isTagged (calls.map Call.op) ⟨emptyWeakTable,mem⟩=some s ∧ ProbesStop s.table) ∨
 (∃earlier call later s,calls=earlier++call::later ∧
  run isTagged (earlier.map Call.op) ⟨emptyWeakTable,mem⟩=some s ∧ ProbesStop s.table ∧
  call.Crashes isTagged) := by
 rcases follows_history isTagged mem calls with
  ⟨s,hrun,h⟩ | ⟨earlier,call,later,s,hcalls,hrun,h,-,hcrash⟩
 · exact .inl ⟨s,hrun,h.probesStop⟩
 · exact .inr ⟨earlier,call,later,s,hcalls,hrun,h.probesStop,hcrash⟩

/-- At some time more than four referrers were registered at once. -/
def HadMoreThanFour (isTagged:Ptr → Bool) (calls:List Call) (r:Ptr) : Prop :=
 ∃earlier later,calls=earlier++later ∧ 4 < (registered isTagged earlier r).card

theorem hadMoreThanFour_concat (isTagged:Ptr → Bool) (calls:List Call) (call:Call) (r:Ptr) :
 HadMoreThanFour isTagged (calls++[call]) r ↔
  HadMoreThanFour isTagged calls r ∨ 4 < (registered isTagged (calls++[call]) r).card := by
 constructor
 · rintro ⟨earlier,later,split,many⟩
   rcases List.eq_nil_or_concat later with rfl|⟨later,last,rfl⟩
   · grind
   · rw [List.concat_eq_append,←List.append_assoc] at split
     exact .inl ⟨earlier,later,(List.append_inj' split rfl).1,many⟩
 · rintro (⟨earlier,later,rfl,many⟩|many)
   · exact ⟨earlier,later++[call],by simp,many⟩
   · exact ⟨calls++[call],[],by simp,many⟩

theorem history_outgrown (isTagged:Ptr → Bool) (calls:List Call)
 (noClear:∀call∈calls,∀r,call≠.clear r) (r:Ptr) :
 (history isTagged calls).2 r ↔ HadMoreThanFour isTagged calls r := by
 induction calls using List.reverseRecOn with
 | nil=>
  constructor
  · exact False.elim
  · rintro ⟨earlier,later,split,many⟩
    obtain ⟨rfl,-⟩:=List.append_eq_nil_iff.mp split.symm
    simp [registered] at many
 | append_singleton calls call ih=>
  have ih:=ih fun c hc=>noClear c (List.mem_append_left _ hc)
  rw [hadMoreThanFour_concat,←ih,history_concat,←history_registered isTagged (calls++[call]),
   history_concat]
  cases call with
  | register block referent referrer options viability=>rfl
  | unregister referent referrer=>
   -- With one referrer fewer there were more than four before, too.
   refine (or_iff_left_of_imp fun many=>ih.mpr ?_).symm
   refine ⟨calls,[],(List.append_nil calls).symm,many.trans_le ?_⟩
   rw [←history_registered]
   simp only [Registered.after,update_apply]
   grind [Multiset.card_erase_le]
  | clear referent=>exact absurd rfl (noClear _ (List.mem_append_right _ (by simp)) referent)

theorem num_eq_ncard {t:Table Entry} (ht:t=emptyWeakTable ∨ Roomy t) :
 t.num = {r | ∃e,Has entryKey t r e}.ncard := by
 have hset:{r | ∃e,Has entryKey t r e} = ↑(t.slots.filterMap entryKey).toFinset:=by
  ext r
  simp [Has,List.mem_filterMap]
 rw [hset,Set.ncard_coe_finset]
 rcases ht with rfl|ht
 · rfl
 · rw [List.toFinset_card_of_nodup ht.table.nodup,ht.table.num,
    List.length_filterMap_eq_countP]

/-- Every entry whose last referrer was unregistered is gone, and `num_entries` counts the
referents that have a referrer. -/
def NoEmptyEntry (t:Table Entry) (m:Registered) : Prop :=
 (∀r : NonNil,m r=0 → weakEntryForReferent t r=.absent) ∧ t.num = {r | m r≠0}.ncard

theorem Follows.noEmptyEntry_iff {t:Table Entry} {m:Registered} {grown:Ptr → Prop}
 (h:Follows t m grown) : NoEmptyEntry t m ↔ ∀r,m r=0 → ¬grown r := by
 constructor
 · rintro ⟨gone,-⟩ r none hgrown
   have hr:r≠0:=by
    rintro rfl
    exact h.nil.2 hgrown
   obtain ⟨e,he⟩:=(h.present r).mpr (.inr hgrown)
   rcases lookup_follows h.table r with ⟨i,e,hf,-⟩|⟨-,hno⟩
   · rw [gone ⟨r,hr⟩ none] at hf
     cases hf
   · exact hno e he
 · intro small
   have hentry:∀r,(∃e,Has entryKey t r e) ↔ m r≠0:=by grind [h.present]
   refine ⟨fun r none=>?_,?_⟩
   · grind [lookup_follows,h.table]
   · rw [num_eq_ncard h.table]
     simp only [hentry]

/-- The calls return, and the empty entries are gone just when no referent that has lost all its
referrers ever had more than four. -/
theorem empty_entries_removed_iff (isTagged:Ptr → Bool) (mem:Ptr → Ptr) (calls:List Call)
 (noClear:∀call∈calls,∀r,call≠.clear r)
 (alive:∀call∈calls,¬call.Crashes isTagged) :
 ∃s,run isTagged (calls.map Call.op) ⟨emptyWeakTable,mem⟩=some s ∧
  (NoEmptyEntry s.table (registered isTagged calls) ↔
   ∀r,registered isTagged calls r=0 → ¬HadMoreThanFour isTagged calls r) := by
 rcases follows_history isTagged mem calls with
  ⟨s,hrun,h⟩ | ⟨earlier,call,later,s,rfl,-,-,-,hcrash⟩
 · refine ⟨s,hrun,?_⟩
   have hiff:=h.noEmptyEntry_iff
   simp only [history_registered,history_outgrown isTagged calls noClear] at hiff
   exact hiff
 · exact absurd hcrash (alive call (by simp))

def Call.isRegister : Call → Bool
 | .register .. => true
 | _=>false

theorem card_registered_le (isTagged:Ptr → Bool) (calls:List Call) (r:Ptr) :
 (registered isTagged calls r).card ≤ calls.countP Call.isRegister := by
 induction calls using List.reverseRecOn with
 | nil=>exact le_rfl
 | append_singleton calls call ih=>
  rw [registered,List.foldl_concat,List.countP_append,List.countP_singleton]
  change ((registered isTagged calls).after isTagged call r).card ≤ _
  cases call with
  | register block referent referrer options viability=>
   simp only [Registered.after,Call.isRegister]
   grind [Multiset.card_cons]
  | unregister referent referrer=>
   have hle:((registered isTagged calls r).erase referrer.1).card ≤
    (registered isTagged calls r).card := Multiset.card_erase_le
   by_cases hr : r=referent
   · subst hr
     rw [Registered.after,update_self]
     omega
   · rw [Registered.after,update_of_ne hr]
     omega
  | clear referent=>
   by_cases hr : r=referent.1
   · subst hr
     rw [Registered.after,update_self]
     exact Nat.zero_le _
   · rw [Registered.after,update_of_ne hr]
     omega

def registerAt (p:Location) : Call :=
 .register ⟨8,by decide⟩ 4096 p .crashIfDeallocating .viable

def fiveLocations : List Location :=
 [⟨800,by decide⟩,⟨808,by decide⟩,⟨816,by decide⟩,⟨824,by decide⟩,⟨832,by decide⟩]

theorem four_referrers_removed :
 let calls:=(fiveLocations.take 4).map registerAt++(fiveLocations.take 4).map (.unregister 4096)
 ∃s,run (fun _=>false) (calls.map Call.op) ⟨emptyWeakTable,fun _=>0⟩=some s ∧
  NoEmptyEntry s.table (registered (fun _=>false) calls) := by
 intro calls
 obtain ⟨s,hrun,hiff⟩:=empty_entries_removed_iff (fun _=>false) (fun _=>0) calls
  (by simp [calls,fiveLocations,registerAt])
  (by simp [calls,fiveLocations,registerAt,Call.Crashes])
 refine ⟨s,hrun,hiff.mpr fun r _=>?_⟩
 rintro ⟨earlier,later,split,many⟩
 have hcount:(earlier++later).countP Call.isRegister=4:=by rw [←split]; rfl
 rw [List.countP_append] at hcount
 have hcard:=card_registered_le (fun _=>false) earlier r
 omega

/-- With its five referrers unregistered again, the object still has an entry. -/
theorem empty_entry_stays :
 let calls:=fiveLocations.map registerAt++fiveLocations.map (.unregister 4096)
 ∃s,run (fun _=>false) (calls.map Call.op) ⟨emptyWeakTable,fun _=>0⟩=some s ∧
  registered (fun _=>false) calls 4096=0 ∧
  (∃i,weakEntryForReferent s.table 4096=.found i) ∧
  ¬NoEmptyEntry s.table (registered (fun _=>false) calls) := by
 intro calls
 have hnone:registered (fun _=>false) calls 4096=0:=by decide
 rcases follows_history (fun _=>false) (fun _=>0) calls with
  ⟨s,hrun,h⟩ | ⟨earlier,call,later,s,split,-,-,-,hcrash⟩
 · have hgrown:(history (fun _=>false) calls).2 4096:=by
    rw [history_outgrown _ _ (by simp [calls,fiveLocations,registerAt])]
    exact ⟨fiveLocations.map registerAt,_,rfl,by decide⟩
   have hiff:=h.noEmptyEntry_iff
   rw [history_registered] at hiff
   refine ⟨s,hrun,hnone,?_,fun gone=>hiff.mp gone 4096 hnone hgrown⟩
   obtain ⟨e,he⟩:=(h.present 4096).mpr (.inr hgrown)
   rcases lookup_follows h.table 4096 with ⟨i,_,hf,-⟩|⟨-,hno⟩
   · exact ⟨i,hf⟩
   · exact absurd he (hno e)
 · have hcall:call∈calls:=by
    rw [split]
    simp
   simp only [calls,fiveLocations,List.map_cons,List.map_nil,List.mem_append,List.mem_cons,
    List.not_mem_nil,or_false] at hcall
   rcases hcall with (rfl|rfl|rfl|rfl|rfl)|(rfl|rfl|rfl|rfl|rfl) <;>
    simp [registerAt,Call.Crashes] at hcrash

end ObjcRuntime.WeakTable
