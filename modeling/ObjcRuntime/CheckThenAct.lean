import Mathlib.Data.Finset.Basic
import ObjcRuntime.Interleaving

/-!
# Checking and inserting in two atomic steps

Threads that each look whether an entry is present and, if it is not, insert one.
-/

set_option autoImplicit false
namespace ObjcRuntime.CheckThenAct

open Interleaving

variable {σ:Type}

structure Store (σ:Type) where
 valid : σ → Prop
 present : σ → Bool
 entries : σ → ℕ
 insert : ℕ → σ → σ → Prop
 inserted : ∀{t s s'},valid s → insert t s s' → valid s' ∧ present s'=true ∧ entries s'=entries s+1

inductive Phase where
 | idle
 | calling
 | absent
 | done (yes:Bool)
 deriving DecidableEq

inductive Event where
 | check (t:ℕ)
 | add (t:ℕ)
 deriving DecidableEq

def Event.isAdd : Event → Bool
 | .check _=>false
 | .add _=>true

inductive CallStep (M:Store σ) : ThreadStep σ Phase Event
 | found (t:ℕ) (s:σ) (h:M.present s=true) : CallStep M t s .calling [.check t] s (.done false)
 | absent (t:ℕ) (s:σ) (h:M.present s=false) : CallStep M t s .calling [.check t] s .absent
 | add (t:ℕ) (s s':σ) (h:M.insert t s s') : CallStep M t s .absent [.add t] s' (.done true)

def start (s:σ) (calls:Finset ℕ) : Config σ Phase Event :=
 ⟨s,fun t=>if t∈calls then .calling else .idle,[]⟩

def Complete (c:Config σ Phase Event) : Prop :=
 ∀t,c.threads t≠.calling ∧ c.threads t≠.absent

structure AddedOnce (M:Store σ) (s:σ) (c:Config σ Phase Event) : Prop where
 one : ∃! t,c.threads t=.done true
 entries : M.entries c.shared=M.entries s+1

def Serial (tr:List Event) : Prop :=
 ∀before t after,tr=before ++ .check t::after → (∃u,Event.check u∈before) → ∃u,Event.add u∈before

def Early (t:ℕ) (tr:List Event) : Prop :=
 ∃before after,tr=before ++ .check t::after ∧ ∀u,Event.add u∉before

section Traces

variable {t u:ℕ} {tr:List Event} {e:Event}

theorem Early.mem (h:Early t tr) : Event.check t∈tr := by
 obtain ⟨before,after,rfl,-⟩:=h
 exact List.mem_append_right _ List.mem_cons_self

theorem early_concat : Early t (tr++[e]) ↔ Early t tr ∨ e=.check t ∧ ∀u,Event.add u∉tr := by
 constructor
 · rintro ⟨before,after,heq,hnone⟩
   rcases List.eq_nil_or_concat after with rfl|⟨after,last,rfl⟩
   · simp_all
   · have hsplit:tr++[e]=(before ++ .check t::after)++[last]:=by simpa using heq
     obtain ⟨rfl,-⟩:=List.append_inj' hsplit rfl
     exact .inl ⟨before,after,rfl,hnone⟩
 · rintro (⟨before,after,rfl,hnone⟩|⟨rfl,hnone⟩)
   · exact ⟨before,after++[e],by simp,hnone⟩
   · exact ⟨tr,[],rfl,hnone⟩

end Traces

structure Inv (M:Store σ) (s₀ s:σ) (tr:List Event) : Prop where
 valid : M.valid s
 present : M.present s=true ↔ ∃u,Event.add u∈tr
 entries : M.entries s=M.entries s₀+tr.countP Event.isAdd
 nodup : tr.Nodup

def Told (t:ℕ) (tr:List Event) : Phase → Prop
 | .idle=>Event.check t∉tr ∧ Event.add t∉tr
 | .calling=>Event.check t∉tr ∧ Event.add t∉tr
 | .absent=>Early t tr ∧ Event.add t∉tr
 | .done true=>Early t tr ∧ Event.add t∈tr
 | .done false=>(Event.check t∈tr ∧ ¬Early t tr) ∧ Event.add t∉tr

variable {calls:Finset ℕ} {c:Config σ Phase Event}

section Runs

variable {M:Store σ} {s₀ s s':σ} {t u:ℕ} {tr:List Event} {e:Event} {l:Phase}

theorem Told.concat (h:Told u tr l) (hcheck:e≠.check u) (hadd:e≠.add u) :
 Told u (tr++[e]) l := by
 have hmem:∀x,x≠e → (x∈tr++[e] ↔ x∈tr):=fun x hx=>by simp [hx]
 have hearly:Early u (tr++[e]) ↔ Early u tr:=by simp [early_concat,hcheck]
 cases l with
 | idle | calling=>rwa [Told,hmem _ hcheck.symm,hmem _ hadd.symm]
 | absent=>rwa [Told,hearly,hmem _ hadd.symm]
 | done yes=>
  cases yes with
  | true=>rwa [Told,hearly,hmem _ hadd.symm]
  | false=>rwa [Told,hearly,hmem _ hcheck.symm,hmem _ hadd.symm]

theorem Inv.check (h:Inv M s₀ s tr) (hnew:Event.check t∉tr) : Inv M s₀ s (tr++[.check t]) where
 valid := h.valid
 present := by simp [h.present]
 entries := by
  rw [h.entries,List.countP_append]
  rfl
 nodup := List.nodup_append.mpr ⟨h.nodup,List.nodup_singleton _,by
  rintro x hx y hy rfl
  exact hnew (List.mem_singleton.mp hy ▸ hx)⟩

theorem Inv.add (h:Inv M s₀ s tr) (hnew:Event.add t∉tr) (hins:M.insert t s s') :
 Inv M s₀ s' (tr++[.add t]) := by
 obtain ⟨hvalid,hpresent,hentries⟩:=M.inserted h.valid hins
 refine ⟨hvalid,?_,?_,?_⟩
 · grind
 · rw [hentries,h.entries,List.countP_append]
   rfl
 · grind [h.nodup]

theorem callStep_sound (M:Store σ) (s₀:σ) :
 Sound (CallStep M) (Inv M s₀) fun t _ tr l=>Told t tr l where
 own := by
  intro t s tr l events s' l' hI hA hstep
  cases hstep with
  | found _ _ h=>
   obtain ⟨hcheck,hadd⟩:=hA
   obtain ⟨u,hu⟩:=hI.present.mp h
   refine ⟨hI.check hcheck,⟨⟨by simp,fun hearly=>?_⟩,by simpa using hadd⟩⟩
   rcases early_concat.mp hearly with hearly|⟨-,hnone⟩
   · exact hcheck hearly.mem
   · exact hnone u hu
  | absent _ _ h=>
   obtain ⟨hcheck,hadd⟩:=hA
   have hnone:∀u,Event.add u∉tr:=fun u hu=>by
    rw [hI.present.mpr ⟨u,hu⟩] at h
    cases h
   exact ⟨hI.check hcheck,early_concat.mpr (.inr ⟨rfl,hnone⟩),by simpa using hadd⟩
  | add _ _ _ h=>
   obtain ⟨hearly,hadd⟩:=hA
   exact ⟨hI.add hadd h,early_concat.mpr (.inl hearly),by simp⟩
 others := by
  intro t u s tr l m events s' l' hne hI hA hu hstep
  have hcheck:Event.check t≠.check u:=fun heq=>hne (Event.check.inj heq).symm
  have hadd:Event.add t≠.add u:=fun heq=>hne (Event.add.inj heq).symm
  cases hstep with
  | found _ _ h | absent _ _ h=>exact hu.concat hcheck (nofun)
  | add _ _ _ h=>exact hu.concat (nofun) hadd

theorem start_holds (hvalid:M.valid s) (hnone:M.present s=false) :
 Holds (Inv M s) (fun t _ tr l=>Told t tr l) (start s calls) where
 shared := ⟨hvalid,by simp [start,hnone],rfl,List.nodup_nil⟩
 threads := by
  intro t
  simp only [start]
  split <;> exact ⟨nofun,nofun⟩

theorem countP_add_eq_one (hnodup:tr.Nodup) (ht:Event.add t∈tr)
 (honly:∀u,Event.add u∈tr → u=t) : tr.countP Event.isAdd=1 := by
 have hfilter:tr.filter Event.isAdd=[.add t]:=by
  refine List.perm_singleton.mp ?_
  refine (List.perm_ext_iff_of_nodup (hnodup.filter _) (List.nodup_singleton _)).mpr fun e=>?_
  rw [List.mem_filter,List.mem_singleton]
  constructor
  · rintro ⟨he,hadd⟩
    cases e with
    | check u=>cases hadd
    | add u=>rw [honly u he]
  · rintro rfl
    exact ⟨ht,rfl⟩
 grind

theorem check_before_or {b₁ a₁ b₂ a₂:List Event} (hne:t≠u)
 (h:b₁ ++ .check t::a₁=b₂ ++ .check u::a₂) :
 Event.check t∈b₂ ∨ Event.check u∈b₁ := by
 rcases List.append_eq_append_iff.mp h with ⟨as,rfl,has⟩|⟨cs,rfl,hcs⟩
 · cases as with
   | nil=>exact absurd (Event.check.inj (List.cons.inj has).1) hne
   | cons e as=>grind
 · cases cs with
   | nil=>exact absurd (Event.check.inj (List.cons.inj hcs).1).symm hne
   | cons e cs=>grind

theorem Early.unique (hserial:Serial tr) (ht:Early t tr) (hu:Early u tr) : t=u := by
 obtain ⟨b₁,a₁,h₁,hnone₁⟩:=ht
 obtain ⟨b₂,a₂,h₂,hnone₂⟩:=hu
 by_contra hne
 rcases check_before_or hne (h₁.symm.trans h₂) with hin|hin
 · obtain ⟨v,hv⟩:=hserial b₂ u a₂ h₂ ⟨t,hin⟩
   exact hnone₂ v hv
 · obtain ⟨v,hv⟩:=hserial b₁ t a₁ h₁ ⟨u,hin⟩
   exact hnone₁ v hv

theorem yes_of_early (hdone:Complete c) (htold:Told t c.trace (c.threads t))
 (hearly:Early t c.trace) :
 c.threads t=.done true := by
 cases hl : c.threads t with
 | idle=>
  rw [hl] at htold
  exact absurd hearly.mem htold.1
 | calling=>exact absurd hl (hdone t).1
 | absent=>exact absurd hl (hdone t).2
 | done yes=>
  cases yes with
  | true=>rfl
  | false=>
   rw [hl] at htold
   exact absurd hearly htold.1.2

theorem yes_of_add (htold:Told t c.trace (c.threads t)) (hadd:Event.add t∈c.trace) :
 c.threads t=.done true := by
 cases hl : c.threads t with
 | idle | calling | absent=>
  rw [hl] at htold
  exact absurd hadd htold.2
 | done yes=>
  cases yes with
  | true=>rfl
  | false=>
   rw [hl] at htold
   exact absurd hadd htold.2

theorem told_yes (htold:Told t c.trace (c.threads t)) (hyes:c.threads t=.done true) :
 Early t c.trace ∧ Event.add t∈c.trace := by
 rw [hyes] at htold
 exact htold

theorem not_idle (hrun:Reachable (CallStep M) (start s calls) c) (ht:t∈calls) :
 c.threads t≠.idle := by
 have hsound:Sound (CallStep M) (fun _ _=>True) fun t _ _ l=>t∈calls → l≠.idle:=by
  refine ⟨fun _ _ hstep=>⟨trivial,fun _=>?_⟩,fun _ _ _ hu _=>hu⟩
  cases hstep <;> exact nofun
 have hstart:Holds (fun _ _=>True) (fun t (_:σ) (_:List Event) l=>t∈calls → l≠.idle)
  (start s calls) := by
  refine ⟨trivial,fun t ht=>?_⟩
  grind [start]
 exact (hstart.reachable hsound hrun).threads t ht

theorem some_yes (hdone:Complete c) (htold:∀t,Told t c.trace (c.threads t))
 (ht:c.threads t≠.idle) :
 ∃u,c.threads u=.done true := by
 cases hl : c.threads t with
 | idle=>exact absurd hl ht
 | calling=>exact absurd hl (hdone t).1
 | absent=>exact absurd hl (hdone t).2
 | done yes=>
  cases yes with
  | true=>exact ⟨t,hl⟩
  | false=>
   -- it has seen the entry of another call
   have hfalse:=htold t
   rw [hl] at hfalse
   obtain ⟨⟨hcheck,hlate⟩,-⟩:=hfalse
   obtain ⟨before,after,heq⟩:=List.append_of_mem hcheck
   have hadd:∃u,Event.add u∈before:=by
    by_contra hnone
    exact hlate ⟨before,after,heq,fun u hu=>hnone ⟨u,hu⟩⟩
   obtain ⟨u,hu⟩:=hadd
   refine ⟨u,yes_of_add (htold u) ?_⟩
   grind

/-- In every interleaving that lets the calls return, exactly one of them inserts if and only if no
check but the first is made before an insertion. -/
theorem addedOnce_iff (M:Store σ) {s:σ} (hvalid:M.valid s) (hnone:M.present s=false)
 (hcalls:calls.Nonempty) (hrun:Reachable (CallStep M) (start s calls) c)
 (hdone:Complete c) :
 AddedOnce M s c ↔ Serial c.trace := by
 have hholds:=(start_holds hvalid hnone).reachable (callStep_sound M s) hrun
 have htold:∀t,Told t c.trace (c.threads t):=hholds.threads
 have hnodup:=hholds.shared.nodup
 constructor
 · rintro ⟨⟨t,ht,honly⟩,-⟩ before u after heq ⟨v,hv⟩
   by_contra hadd
   obtain ⟨b,a,rfl⟩:=List.append_of_mem hv
   have hu:Early u c.trace:=⟨_,after,heq,fun x hx=>hadd ⟨x,hx⟩⟩
   have hvearly:Early v c.trace:=by
    refine ⟨b,a ++ .check u::after,by rw [heq]; simp,fun x hx=>hadd ⟨x,?_⟩⟩
    exact List.mem_append_left _ hx
   have huv:u=v:=(honly u (yes_of_early hdone (htold u) hu)).trans
    (honly v (yes_of_early hdone (htold v) hvearly)).symm
   rw [heq,huv] at hnodup
   exact (List.nodup_append.mp hnodup).2.2 _ hv _ List.mem_cons_self rfl
 · intro hserial
   obtain ⟨t₀,ht₀⟩:=hcalls
   obtain ⟨t,ht⟩:=some_yes hdone htold (not_idle hrun ht₀)
   obtain ⟨hearly,hadd⟩:=told_yes (htold t) ht
   have honly:∀u,c.threads u=.done true → u=t:=fun u hu =>
    (told_yes (htold u) hu).1.unique hserial hearly
   refine ⟨⟨t,ht,honly⟩,?_⟩
   rw [hholds.shared.entries,countP_add_eq_one hnodup hadd fun u hu =>
    honly u (yes_of_add (htold u) hu)]

end Runs

end ObjcRuntime.CheckThenAct
