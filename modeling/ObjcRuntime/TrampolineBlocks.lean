import ObjcRuntime.Trampolines

/-!
# The blocks behind the trampolines

Live IMPs against the slots of the page groups, over whole runs.
-/

set_option autoImplicit false
namespace ObjcRuntime.Trampolines

open SlotFreeList

abbrev Pages := List (ℕ × Slots)

def pages (s:State) : Pages := s.map fun g=>(g.address,g.slots)

/-- What callers know: the live IMPs with their blocks, and all IMPs ever returned. -/
structure Ghost where
 live : List (Imp × Block)
 ever : List Imp

variable {L:Layout}

def Denotes (L:Layout) (ds:Pages) (imp:Imp) (slot:ℕ × ℕ) : Prop :=
 ∃d mode,ds[slot.1]?=some d ∧ mode < L.argumentModeCount ∧ trampoline L d.1 mode slot.2=some imp

def Apart (L:Layout) (ds:Pages) : Prop :=
 ∀{p q:ℕ} {d e:ℕ × Slots},ds[p]?=some d → ds[q]?=some e → p≠q →
  ∀a,Contains L d.1 a → ¬ Contains L e.1 a

def wordAt (ds:Pages) (slot:ℕ × ℕ) : Option ℕ := ds[slot.1]?.map fun d=>d.2.word slot.2

structure Slotted (L:Layout) (ds:Pages) (g:Ghost) : Prop where
 apart : Apart L ds
 shape : ∀{p:ℕ} {d:ℕ × Slots},ds[p]?=some d →
  ∃freed fresh,Shape L.startIndex L.endIndex d.2 freed fresh
 live : ∀{e:Imp × Block},e∈g.live →
  ∃slot,Denotes L ds e.1 slot ∧ wordAt ds slot=some e.2 ∧ L.endIndex < e.2
 nodup : (g.live.map Prod.fst).Nodup
 distinct : ∀{e e':Imp × Block} {slot:ℕ × ℕ},e∈g.live → e'∈g.live →
  Denotes L ds e.1 slot → Denotes L ds e'.1 slot → e=e'
 taken : ∀{slot:ℕ × ℕ} {w:ℕ},validIndex L slot.2=true → wordAt ds slot=some w →
  L.endIndex < w → ∃e∈g.live,Denotes L ds e.1 slot
 ever : ∀{imp:Imp},imp∈g.ever → ∃slot w,Denotes L ds imp slot ∧ wordAt ds slot=some w ∧ w≠0
 used : ∀{slot:ℕ × ℕ} {w:ℕ},validIndex L slot.2=true → wordAt ds slot=some w →
  w≠0 → ∃imp∈g.ever,Denotes L ds imp slot

section Denotes

variable {ds ds':Pages} {imp:Imp} {slot slot':ℕ × ℕ}

theorem Denotes.bounds (h:Denotes L ds imp slot) : L.startIndex ≤ slot.2 ∧ slot.2 < L.endIndex := by
 obtain ⟨d,mode,-,-,himp⟩:=h
 exact (trampoline_eq_some_iff.mp himp).1

theorem Denotes.mono (h:Denotes L ds imp slot)
 (hsame:∀{p:ℕ} {d:ℕ × Slots},ds[p]?=some d → ∃e,ds'[p]?=some e ∧ e.1=d.1) :
 Denotes L ds' imp slot := by
 obtain ⟨d,mode,hd,hmode,himp⟩:=h
 obtain ⟨e,he,haddr⟩:=hsame hd
 exact ⟨e,mode,he,hmode,haddr ▸ himp⟩

theorem pageAndIndexFrom_of_denotes {s:State} (ha:Apart L (pages s))
 (h:Denotes L (pages s) imp slot) (offset:ℕ) :
 pageAndIndexFrom L imp offset s=some (offset+slot.1,slot.2) := by
 obtain ⟨p,i⟩:=slot
 induction s generalizing p offset with
 | nil=>
  obtain ⟨d,mode,hd,-⟩:=h
  cases hd
 | cons g rest ih=>
  obtain ⟨d,mode,hd,hmode,himp⟩:=h
  have hpos:=L.startIndex_pos
  have hi:=(Denotes.bounds (L:=L) ⟨d,mode,hd,hmode,himp⟩).1
  rw [pageAndIndexFrom]
  cases p with
  | zero=>
   obtain rfl : (g.address,g.slots)=d:=Option.some.inj hd
   rw [indexForTrampoline_of_trampoline hmode himp,if_pos (by omega),Nat.add_zero]
  | succ p=>
   have hnot:¬ Contains L g.address imp :=
    ha hd (show (pages (g::rest))[0]?=some (g.address,g.slots) from rfl) (by omega) imp
     (trampoline_contains hmode himp)
   have harest:Apart L (pages rest):=fun hd he hne=>ha (p:=_+1) (q:=_+1) hd he
    (by omega)
   rw [indexForTrampoline_of_not_contains hnot,if_neg (by simp),
    ih harest (offset+1) p ⟨d,mode,hd,hmode,himp⟩]
   congr 2
   omega

theorem pageAndIndex_of_denotes {s:State} (ha:Apart L (pages s)) (h:Denotes L (pages s) imp slot) :
 pageAndIndexContainingIMP L imp s=some slot := by
 rw [pageAndIndexContainingIMP,pageAndIndexFrom_of_denotes ha h,Nat.zero_add]

theorem Denotes.unique (ha:Apart L ds) (h:Denotes L ds imp slot)
 (h':Denotes L ds imp slot') : slot=slot' := by
 obtain ⟨d,mode,hd,hmode,himp⟩:=h
 obtain ⟨e,mode',he,hmode',himp'⟩:=h'
 have hp:slot.1=slot'.1:=by
  by_contra hne
  exact ha hd he hne imp (trampoline_contains hmode himp) (trampoline_contains hmode' himp')
 have hde:d=e:=by grind
 subst hde
 have hi:slot.2=slot'.2:=by
  rw [←indexForTrampoline_of_trampoline hmode himp,indexForTrampoline_of_trampoline hmode' himp']
 exact Prod.ext hp hi

theorem Denotes.imp_ne_zero (h:Denotes L ds imp slot) : imp≠0 := by
 obtain ⟨d,mode,-,-,himp⟩:=h
 obtain ⟨⟨hstart,-⟩,rfl⟩:=trampoline_eq_some_iff.mp himp
 exact (Nat.add_pos_right _ (Nat.mul_pos (L.startIndex_pos.trans_le hstart) L.slot_pos)).ne'

end Denotes

variable {f:Slots → Slots}

section Slots

variable {ds:Pages} {g:Ghost} {p:ℕ} {d:ℕ × Slots}

def onSlots (p:ℕ) (f:Slots → Slots) (ds:Pages) : Pages :=
 ds.modify p fun d=>(d.1,f d.2)

theorem onSlots_get (f:Slots → Slots) (q:ℕ) :
 (onSlots p f ds)[q]?=ds[q]?.map fun d=>if p=q then (d.1,f d.2) else d := by
 grind [onSlots]

theorem denotes_onSlots {imp:Imp} {slot:ℕ × ℕ} :
 Denotes L (onSlots p f ds) imp slot ↔ Denotes L ds imp slot := by
 constructor <;> intro h
 · refine h.mono fun {q e} he=>?_
   grind [onSlots_get]
 · refine h.mono fun {q e} he=>⟨_,by rw [onSlots_get,he,Option.map_some],?_⟩
   split <;> rfl

theorem apart_onSlots (h:Apart L ds) : Apart L (onSlots p f ds) := by
 intro q r x y hx hy hne
 rw [onSlots_get,Option.map_eq_some_iff] at hx hy
 obtain ⟨x',hx',rfl⟩:=hx
 obtain ⟨y',hy',rfl⟩:=hy
 have hsame:∀(z:ℕ × Slots) (c:Prop) [Decidable c],(if c then (z.1,f z.2) else z).1=z.1 := by
  intro z c _
  split <;> rfl
 rw [hsame,hsame]
 exact h hx' hy' hne

theorem wordAt_onSlots (hd:ds[p]?=some d) {i w:ℕ}
 (hf:(f d.2).word=Function.update d.2.word i w) (slot:ℕ × ℕ) :
 wordAt (onSlots p f ds) slot=if slot=(p,i) then some w else wordAt ds slot := by
 obtain ⟨q,j⟩:=slot
 rw [wordAt,wordAt,onSlots_get,Option.map_map]
 by_cases hq : p=q
 · subst hq
   rw [hd,Option.map_some,Option.map_some]
   simp only [Function.comp_apply,if_true,hf,Prod.mk.injEq,true_and]
   by_cases hj : j=i
   · rw [if_pos hj,hj,Function.update_self]
   · rw [if_neg hj,Function.update_of_ne hj]
 · rw [if_neg fun h=>hq (Prod.mk.inj h).1.symm]
   congr 1
   funext x
   simp only [Function.comp_apply,if_neg hq]

theorem shape_onSlots (h:Slotted L ds g) (hd:ds[p]?=some d)
 (hf:∃freed fresh,Shape L.startIndex L.endIndex (f d.2) freed fresh) {q:ℕ}
 {x:ℕ × Slots} (hx:(onSlots p f ds)[q]?=some x) :
 ∃freed fresh,Shape L.startIndex L.endIndex x.2 freed fresh := by
 rw [onSlots_get,Option.map_eq_some_iff] at hx
 grind [h.shape]

theorem Slotted.not_live (h:Slotted L ds g) {slot:ℕ × ℕ} {w:ℕ}
 (hword:wordAt ds slot=some w) (hw:w ≤ L.endIndex) {e:Imp × Block} (he:e∈g.live) :
 ¬ Denotes L ds e.1 slot := by
 intro hden
 obtain ⟨slot',hden',hw',hlarge⟩:=h.live he
 obtain rfl:=Denotes.unique h.apart hden hden'
 rw [hword,Option.some.injEq] at hw'
 omega

theorem Slotted.take (h:Slotted L ds g) (hd:ds[p]?=some d)
 (hnext:d.2.next≠L.endIndex) {block:Block} (hblock:L.endIndex < block) {mode:ℕ}
 (hmode:mode < L.argumentModeCount) :
 ∃imp,trampoline L d.1 mode d.2.next=some imp ∧
  Slotted L (onSlots p (·.take block) ds) ⟨(imp,block)::g.live,imp::g.ever⟩ := by
 obtain ⟨freed,fresh,hshape⟩:=h.shape hd
 have hbounds:=hshape.next_bounds
 have hvalid:validIndex L d.2.next=true:=validIndex_iff.mpr ⟨hbounds.1,by omega⟩
 refine ⟨_,if_pos hvalid,?_⟩
 generalize himp : trampolinesForMode L d.1 mode+d.2.next*L.slotSize=imp
 have hden:Denotes L ds imp (p,d.2.next) :=
  ⟨d,mode,hd,hmode,himp ▸ if_pos hvalid⟩
 have hold:wordAt ds (p,d.2.next)=some (d.2.word d.2.next):=by rw [wordAt,hd]; rfl
 have hfree:=fun e (he:e∈g.live)=>h.not_live hold (hshape.word_next_le hnext) he
 have hword:=wordAt_onSlots (f:=(·.take block)) hd rfl
 have hshape':=hshape.take L.startIndex_pos hnext hblock
 refine ⟨apart_onSlots h.apart,shape_onSlots h hd hshape',?_,?_,?_,?_,?_,?_⟩
 · grind [denotes_onSlots,h.live]
 · grind [h.nodup]
 · intro e e' slot he he' hslot hslot'
   rw [denotes_onSlots] at hslot hslot'
   rcases List.mem_cons.mp he with rfl|he <;> rcases List.mem_cons.mp he' with rfl|he'
   · rfl
   · obtain rfl:=Denotes.unique h.apart hden hslot
     exact absurd hslot' (hfree e' he')
   · obtain rfl:=Denotes.unique h.apart hden hslot'
     exact absurd hslot (hfree e he)
   · exact h.distinct he he' hslot hslot'
 · intro slot w hv hw hlarge
   rw [hword] at hw
   split at hw
   · case isTrue heq=>exact ⟨_,List.mem_cons_self,denotes_onSlots.mpr (heq ▸ hden)⟩
   · obtain ⟨e,he,hx⟩:=h.taken hv hw hlarge
     exact ⟨e,List.mem_cons_of_mem _ he,denotes_onSlots.mpr hx⟩
 · grind [denotes_onSlots,h.ever]
 · intro slot w hv hw hne
   grind [List.mem_cons_self,denotes_onSlots,h.used]

theorem Slotted.give (h:Slotted L ds g) {e:Imp × Block} (he:e∈g.live) {i:ℕ}
 (hden:Denotes L ds e.1 (p,i)) (hd:ds[p]?=some d) :
 Slotted L (onSlots p (·.give i) ds) ⟨g.live.filter fun x=>x.1≠e.1,g.ever⟩ := by
 obtain ⟨freed,fresh,hshape⟩:=h.shape hd
 obtain ⟨hstart,hend⟩:=hden.bounds
 have hpos:=L.startIndex_pos
 have hnext:=hshape.next_bounds
 have hlarge:L.endIndex < d.2.word i:=by
  obtain ⟨slot,hden',hw,hlarge⟩:=h.live he
  obtain rfl:=Denotes.unique h.apart hden hden'
  grind [wordAt]
 obtain ⟨hlt,hni⟩:=(hshape.taken_iff hstart hend).mp hlarge
 have hword:=wordAt_onSlots (f:=(·.give i)) hd rfl
 have hlive:∀{x:Imp × Block},x∈(g.live.filter fun x=>x.1≠e.1) →
  x∈g.live ∧ ¬ Denotes L ds x.1 (p,i) := by grind [h.distinct]
 refine ⟨apart_onSlots h.apart,shape_onSlots h hd ⟨_,_,hshape.give hstart hlt hni⟩,
  ?_,?_,?_,?_,?_,?_⟩
 · grind [h.live,denotes_onSlots]
 · exact (List.filter_sublist.map Prod.fst).nodup h.nodup
 · intro x y slot hx hy hslot hslot'
   exact h.distinct (hlive hx).1 (hlive hy).1 (denotes_onSlots.mp hslot)
    (denotes_onSlots.mp hslot')
 · intro slot w hv hw hbig
   rw [hword] at hw
   split at hw
   · rw [Option.some.injEq] at hw
     omega
   · case isFalse hne =>
     obtain ⟨x,hx,hslot⟩:=h.taken hv hw hbig
     refine ⟨x,List.mem_filter.mpr ⟨hx,?_⟩,denotes_onSlots.mpr hslot⟩
     rw [decide_eq_true_eq]
     intro hsame
     exact hne (Denotes.unique h.apart hslot (hsame ▸ hden))
 · grind [h.ever,denotes_onSlots]
 · intro slot w hv hw hne
   grind [wordAt,h.used,denotes_onSlots]

theorem append_get {x:ℕ × Slots} {q:ℕ} {y:ℕ × Slots} (hy:(ds++[x])[q]?=some y) :
 ds[q]?=some y ∨ (q=ds.length ∧ y=x) := by
 rw [List.getElem?_append] at hy
 grind

theorem Slotted.append (h:Slotted L ds g) {x:ℕ × Slots} (hx:x.2=⟨fun _=>0,L.startIndex⟩)
 (hnew:∀d∈ds,∀a,Contains L d.1 a → ¬ Contains L x.1 a) : Slotted L (ds++[x]) g := by
 have hkept:∀{q:ℕ} {y:ℕ × Slots},ds[q]?=some y → (ds++[x])[q]?=some y:=by grind
 have hden:∀{imp:Imp} {slot:ℕ × ℕ},Denotes L ds imp slot →
  Denotes L (ds++[x]) imp slot := fun hx=>hx.mono fun hd=>⟨_,hkept hd,rfl⟩
 have hapart:Apart L (ds++[x]):=by
  intro q r y z hy hz hne a ha hb
  rcases append_get hy with hq|⟨rfl,rfl⟩ <;> rcases append_get hz with hr|⟨rfl,rfl⟩
  · exact h.apart hq hr hne a ha hb
  · exact hnew y (List.mem_of_getElem? hq) a ha hb
  · exact hnew z (List.mem_of_getElem? hr) a hb ha
  · exact hne rfl
 have hword:∀{slot:ℕ × ℕ} {w:ℕ},wordAt ds slot=some w →
  wordAt (ds++[x]) slot=some w := by grind [wordAt]
 have hback:∀{slot:ℕ × ℕ} {w:ℕ},wordAt (ds++[x]) slot=some w → w≠0 → wordAt ds slot=some w := by
  intro slot w hw hne
  obtain ⟨d,hd,rfl⟩:=Option.map_eq_some_iff.mp hw
  rcases append_get hd with hd|⟨-,rfl⟩
  · rw [wordAt,hd,Option.map_some]
  · exact absurd (by rw [hx]) hne
 refine ⟨hapart,?_,?_,h.nodup,?_,?_,?_,?_⟩
 · intro q y hy
   rcases append_get hy with hy|⟨-,rfl⟩
   · exact h.shape hy
   · exact ⟨_,_,hx ▸ shape_empty L.startIndex_lt.le⟩
 · intro e he
   obtain ⟨slot,hx,hw,hlarge⟩:=h.live he
   exact ⟨slot,hden hx,hword hw,hlarge⟩
 · intro e e' slot he he' hx hx'
   obtain ⟨slot₁,hx₁,-⟩:=h.live he
   obtain ⟨slot₂,hx₂,-⟩:=h.live he'
   obtain rfl:=Denotes.unique hapart hx (hden hx₁)
   obtain rfl:=Denotes.unique hapart hx' (hden hx₂)
   exact h.distinct he he' hx₁ hx₂
 · intro slot w hv hw hlarge
   obtain ⟨e,he,hx⟩:=h.taken hv (hback hw (by omega)) hlarge
   exact ⟨e,he,hden hx⟩
 · intro imp hmem
   obtain ⟨slot,w,hx,hw,hne⟩:=h.ever hmem
   exact ⟨slot,w,hden hx,hword hw,hne⟩
 · intro slot w hv hw hne
   obtain ⟨imp,hmem,hx⟩:=h.used hv (hback hw hne) hne
   exact ⟨imp,hmem,hden hx⟩

end Slots

end ObjcRuntime.Trampolines
