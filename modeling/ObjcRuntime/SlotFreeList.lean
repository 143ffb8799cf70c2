import Mathlib

/-!
# A free list through the slots themselves

A free slot's word is the index of the next free one, or zero if the slot was never used, and then
the next index follows it; `last` ends the list.  The word of a slot in use is larger than `last`.
-/

set_option autoImplicit false
namespace ObjcRuntime.SlotFreeList
open Function

structure Slots where
 word : ℕ → ℕ
 next : ℕ

def successor (word:ℕ → ℕ) (i:ℕ) : ℕ := if word i=0 then i+1 else word i

def Slots.take (s:Slots) (w:ℕ) : Slots :=
 ⟨update s.word s.next w,successor s.word s.next⟩

def Slots.give (s:Slots) (i:ℕ) : Slots := ⟨update s.word i s.next,i⟩

def listFrom (last:ℕ) (word:ℕ → ℕ) : (fuel i:ℕ) → List ℕ
 | 0,_=>[]
 | fuel+1,i=>if i=last then [] else i::listFrom last word fuel (successor word i)

def Links (word:ℕ → ℕ) : ℕ → List ℕ → ℕ → Prop
 | i,[],fresh=>i=fresh
 | i,j::rest,fresh=>i=j ∧ Links word (word j) rest fresh

/-- The freed slots are linked, and the slots from `fresh` on were never used. -/
structure Shape (first last:ℕ) (s:Slots) (freed:List ℕ) (fresh:ℕ) : Prop where
 first_le : first ≤ fresh
 le_last : fresh ≤ last
 links : Links s.word s.next freed fresh
 nodup : freed.Nodup
 used : ∀i∈freed,first ≤ i ∧ i < fresh
 unused : ∀i,fresh ≤ i → i < last → s.word i=0
 taken : ∀i,first ≤ i → i < fresh → i∉freed → last < s.word i

variable {first last:ℕ} {s:Slots} {freed:List ℕ} {fresh:ℕ}

variable {word:ℕ → ℕ} {i:ℕ}

section

variable (h:Links word i freed fresh)
include h

theorem links_update {k w:ℕ} (hk:k∉freed) :
 Links (update word k w) i freed fresh := by
 induction freed generalizing i with
 | nil=>exact h
 | cons j rest ih=>
  have hj:j≠k:=fun heq=>hk (heq ▸ List.mem_cons_self)
  refine ⟨h.1,?_⟩
  rw [update_of_ne hj]
  exact ih h.2 fun hrest=>hk (List.mem_cons_of_mem _ hrest)

theorem Links.start_le {bound:ℕ} (hfresh:fresh ≤ bound)
 (hfreed:∀j∈freed,j ≤ bound) : i ≤ bound := by
 cases freed with
 | nil=>exact h.le.trans hfresh
 | cons j rest=>exact h.1.le.trans (hfreed j List.mem_cons_self)

theorem Links.le_start {bound:ℕ} (hfresh:bound ≤ fresh)
 (hfreed:∀j∈freed,bound ≤ j) : bound ≤ i := by
 cases freed with
 | nil=>exact hfresh.trans h.ge
 | cons j rest=>exact (hfreed j List.mem_cons_self).trans h.1.ge

theorem Links.word_bounds {low high:ℕ}
 (hfresh:low ≤ fresh ∧ fresh ≤ high) (hfreed:∀j∈freed,low ≤ j ∧ j ≤ high) :
 ∀j∈freed,low ≤ word j ∧ word j ≤ high := by
 induction freed generalizing i with
 | nil=>simp
 | cons k rest ih=>
  have hrest:∀j∈rest,low ≤ j ∧ j ≤ high:=fun j hj=>hfreed j (List.mem_cons_of_mem _ hj)
  intro j hj
  rcases List.mem_cons.mp hj with rfl|hj
  · exact ⟨h.2.le_start hfresh.1 fun j hj=>(hrest j hj).1,
     h.2.start_le hfresh.2 fun j hj=>(hrest j hj).2⟩
  · exact ih h.2 hrest j hj

end

namespace Shape

variable (h:Shape first last s freed fresh)

include h

theorem word_le (hi:i∈freed) : first ≤ s.word i ∧ s.word i ≤ last := by
 refine h.links.word_bounds ⟨h.first_le,h.le_last⟩ (fun j hj=>?_) i hi
 have hj':=h.used j hj
 exact ⟨hj'.1,(hj'.2.trans_le h.le_last).le⟩

theorem taken_iff (hfirst:first ≤ i) (hlast:i < last) : last < s.word i ↔ i < fresh ∧ i∉freed := by
 constructor
 · intro hw
   refine ⟨?_,fun hi=>absurd (h.word_le hi).2 (by omega)⟩
   grind [h.unused]
 · rintro ⟨hlt,hi⟩
   exact h.taken i hfirst hlt hi

theorem unused_iff (hpos:0 < first) (hfirst:first ≤ i) (hlast:i < last) :
 s.word i=0 ↔ fresh ≤ i := by
 refine ⟨fun hzero=>?_,fun hge=>h.unused i hge hlast⟩
 by_contra hlt
 by_cases hi : i∈freed
 · have:=(h.word_le hi).1
   omega
 · have:=h.taken i hfirst (by omega) hi
   omega

theorem next_bounds : first ≤ s.next ∧ s.next ≤ last := by
 refine ⟨h.links.le_start h.first_le fun j hj=>(h.used j hj).1,
  h.links.start_le h.le_last fun j hj=>?_⟩
 exact ((h.used j hj).2.trans_le h.le_last).le

theorem take (hfirst:0 < first) (hnext:s.next≠last) {w:ℕ} (hw:last < w) :
 ∃freed fresh,Shape first last (s.take w) freed fresh := by
 have htaken:∀i,(i≠s.next → last < s.word i) → last < (s.take w).word i:=by
  intro i hi
  simp only [Slots.take,update_apply]
  grind
 have hunused:∀i,i≠s.next → s.word i=0 → (s.take w).word i=0 :=
  fun i hi hzero=>(update_of_ne hi ..).trans hzero
 have hle:=h.le_last
 cases freed with
 | nil=>
  have heq:s.next=fresh:=h.links
  have hzero:=h.unused fresh le_rfl (by omega)
  refine ⟨[],fresh+1,h.first_le.trans (by omega),by omega,?_,List.nodup_nil,by simp,
   fun i hi hlast=>?_,fun i hi hlt _=>htaken i fun hne=>?_⟩
  · simp only [Slots.take,Links,successor,heq,hzero,if_true]
  · exact hunused i (by omega) (h.unused i (by omega) hlast)
  · exact h.taken i hi (by omega) (by simp)
 | cons j rest=>
  obtain ⟨heq,hrest⟩:=h.links
  have hj:=h.used j List.mem_cons_self
  have hword:=h.word_le (i:=j) List.mem_cons_self
  have hnot:s.next∉rest:=heq ▸ (List.nodup_cons.mp h.nodup).1
  refine ⟨rest,fresh,h.first_le,hle,links_update ?_ hnot,h.nodup.of_cons,
   fun i hi=>h.used i (List.mem_cons_of_mem _ hi),fun i hi hlast=>?_,
   fun i hi hlt hni=>htaken i fun hne=>?_⟩
  · grind [Slots.take,successor]
  · exact hunused i (by omega) (h.unused i hi hlast)
  · exact h.taken i hi hlt (by simp [←heq,hne,hni])

theorem word_next_le (hnext:s.next≠last) : s.word s.next ≤ last := by
 have hle:=h.le_last
 cases freed with
 | nil=>
  have heq:s.next=fresh:=h.links
  grind [h.unused]
 | cons j rest=>
  rw [h.links.1]
  exact (h.word_le List.mem_cons_self).2

theorem give (hfirst:first ≤ i) (hlt:i < fresh)
 (hi:i∉freed) : Shape first last (s.give i) (i::freed) fresh where
 first_le := h.first_le
 le_last := h.le_last
 links := by
  refine ⟨rfl,?_⟩
  simp only [Slots.give,update_self]
  exact links_update h.links hi
 nodup := List.nodup_cons.mpr ⟨hi,h.nodup⟩
 used j hj := by
  rcases List.mem_cons.mp hj with rfl|hj
  · exact ⟨hfirst,hlt⟩
  · exact h.used j hj
 unused j hj hlast := by
  simp only [Slots.give]
  grind [h.unused]
 taken j hj hlt' hnot := by
  simp only [Slots.give]
  rw [List.mem_cons,not_or] at hnot
  rw [update_of_ne hnot.1]
  exact h.taken j hj hlt' hnot.2

theorem listFrom_fresh {n:ℕ} (hi:fresh ≤ i) (hn:last-i ≤ n) (hlast:i ≤ last) :
 listFrom last s.word n i=List.range' i (last-i) := by
 induction n generalizing i with
 | zero=>
  have : last-i=0:=by omega
  rw [this]
  rfl
 | succ n ih=>
  rw [listFrom]
  split
  · grind
  · case isFalse hne =>
    have hzero:=h.unused i hi (by omega)
    rw [successor,if_pos hzero,ih (by omega) (by omega) (by omega),
     show last-i=last-(i+1)+1 by omega,List.range'_succ]

theorem listFrom_links (hfirst:0 < first) {rest:List ℕ}
 {n:ℕ} (hlinks:Links s.word i rest fresh) (hsub:∀j∈rest,j∈freed)
 (hn:rest.length+(last-fresh) ≤ n) :
 listFrom last s.word n i=rest++List.range' fresh (last-fresh) := by
 induction rest generalizing i n with
 | nil=>
  have heq:i=fresh:=hlinks
  grind [h.listFrom_fresh,h.le_last]
 | cons j rest ih=>
  obtain ⟨heq,hrest⟩:=hlinks
  have hj:=h.used j (hsub j List.mem_cons_self)
  have hword:=h.word_le (hsub j List.mem_cons_self)
  have hle:=h.le_last
  obtain ⟨n,rfl⟩ : ∃m,n=m+1:=⟨n-1,by simp only [List.length_cons] at hn; omega⟩
  grind [listFrom,successor]

theorem listFrom_eq (hfirst:0 < first) :
 listFrom last s.word last s.next=freed++List.range' fresh (last-fresh) := by
 refine h.listFrom_links hfirst h.links (fun _ hj=>hj) ?_
 have hcard:freed.length ≤ fresh:=by
  have hsub:freed ⊆ List.range fresh:=fun i hi=>List.mem_range.mpr (h.used i hi).2
  simpa using (List.subperm_of_subset h.nodup hsub).length_le
 have:=h.le_last
 omega

end Shape

theorem shape_empty (hle:first ≤ last) : Shape first last ⟨fun _=>0,first⟩ [] first where
 first_le := le_rfl
 le_last := hle
 links := rfl
 nodup := List.nodup_nil
 used := by simp
 unused _ _ _ := rfl
 taken i hi hlt := by omega

end ObjcRuntime.SlotFreeList
