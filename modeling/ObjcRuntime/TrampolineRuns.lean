import ObjcRuntime.PartialRuns
import ObjcRuntime.TrampolineBlocks

/-!
# Runs of the block trampolines

The available pages are a chain from `HeadPageGroup`.  Links of pages that are not on the chain
may be stale.
-/

set_option autoImplicit false
namespace ObjcRuntime.Trampolines

open SlotFreeList
open PartialRuns

variable {L:Layout} {s:State} {g:Ghost}

def nexts (s:State) : List (Option ℕ) := s.map fun g=>g.nextAvailablePage

theorem nexts_length : (nexts s).length=(pages s).length := by simp [nexts,pages]

variable {page fuel:ℕ} {d:ℕ × Slots} {ds:Pages} {slot:ℕ × ℕ}

theorem pages_get (hd:(pages s)[page]?=some d) :
 ∃g,s[page]?=some g ∧ d=(g.address,g.slots) := by grind [pages]

theorem nexts_get {next:Option ℕ} (h:(nexts s)[page]?=some next) :
 ∃g,s[page]?=some g ∧ g.nextAvailablePage=next := by grind [nexts]

theorem pages_modify {f:PageGroup → PageGroup} {k:Slots → Slots}
 (hf:∀g,(f g).address=g.address ∧ (f g).slots=k g.slots) :
 pages (s.modify page f)=onSlots page k (pages s) := by
 apply List.ext_getElem?
 grind [onSlots_get,pages]

theorem nexts_modify {f:PageGroup → PageGroup} (hf:∀g,(f g).nextAvailablePage=g.nextAvailablePage) :
 nexts (s.modify page f)=nexts s := by
 apply List.ext_getElem?
 grind [nexts]

@[simp]
theorem pages_setPayload (page index word:ℕ) : pages (setPayload page index word s) =
  onSlots page (fun x=>⟨Function.update x.word index word,x.next⟩) (pages s) :=
 pages_modify fun _=>⟨rfl,rfl⟩

@[simp]
theorem pages_setNextAvailable (page next:ℕ) :
 pages (setNextAvailable page next s)=onSlots page (fun x=>⟨x.word,next⟩) (pages s) :=
 pages_modify fun _=>⟨rfl,rfl⟩

@[simp]
theorem pages_setNextAvailablePage (page:ℕ) (next:Option ℕ) :
 pages (setNextAvailablePage page next s)=pages s := by
 have hid:pages (setNextAvailablePage page next s)=onSlots page id (pages s) :=
  pages_modify fun _=>⟨rfl,rfl⟩
 rw [hid,onSlots]
 exact List.modify_id page (pages s)

@[simp]
theorem nexts_setPayload (page index word:ℕ) : nexts (setPayload page index word s)=nexts s :=
 nexts_modify fun _=>rfl

@[simp]
theorem nexts_setNextAvailable (page next:ℕ) : nexts (setNextAvailable page next s)=nexts s :=
 nexts_modify fun _=>rfl

@[simp]
theorem nexts_setNextAvailablePage (page:ℕ) (next:Option ℕ) :
 nexts (setNextAvailablePage page next s)=(nexts s).set page next := by
 apply List.ext_getElem?
 grind [nexts,setNextAvailablePage]

/-- The pages after `it` on the available list. -/
@[grind =]
def Chain (ns:List (Option ℕ)) : ℕ → List ℕ → Prop
 | it,[]=>ns[it]?=some none
 | it,q::l=>ns[it]?=some (some q) ∧ Chain ns q l

def Reaches (s:State) : ℕ → ℕ → Prop :=
 Relation.ReflTransGen fun p q=>(nexts s)[p]?=some (some q)

/-- The links lead from the head page to every other page that has a free slot. -/
def Findable (L:Layout) (s:State) : Prop :=
 ∀p pg,p≠0 → s[p]?=some pg → freeList L pg≠[] → Reaches s 0 p

section Chain

variable {ns ns':List (Option ℕ)} {it p:ℕ} {l:List ℕ}

theorem Chain.congr (h:Chain ns it l) (hsame:∀q∈it::l,ns'[q]?=ns[q]?) : Chain ns' it l := by
 induction l generalizing it <;> grind

theorem Chain.lt_length (h:Chain ns it l) : ∀q∈it::l,q < ns.length := by
 induction l generalizing it <;> grind

theorem Chain.length_lt (h:Chain ns it l) (hnodup:(it::l).Nodup) : l.length < ns.length := by
 have hsub:it::l ⊆ List.range ns.length:=fun q hq=>List.mem_range.mpr (h.lt_length q hq)
 have:=(List.subperm_of_subset hnodup hsub).length_le
 simpa using this

theorem Chain.findBefore_none (h:Chain (nexts s) it l) (hp:p∉l) (hfuel:l.length < fuel) :
 findBefore s p fuel (some it)=some none := by
 induction l generalizing it fuel with
 | nil=>
  obtain ⟨fuel,rfl⟩ : ∃n,fuel=n+1:=⟨fuel-1,by omega⟩
  grind [nexts_get,findBefore]
 | cons q l ih=>
  obtain ⟨fuel,rfl⟩ : ∃n,fuel=n+1:=⟨fuel-1,by omega⟩
  obtain ⟨g,hg,hnext⟩:=nexts_get h.1
  grind [findBefore]

theorem Chain.lastBefore_mem (h:Chain (nexts s) it l) (hp:p∈l) (hfuel:l.length < fuel) :
 ∃k,lastBefore s p fuel it=some k ∧ (nexts s)[k]?=some (some p) := by
 induction l generalizing it fuel with
 | nil=>cases hp
 | cons q l ih=>
  obtain ⟨fuel,rfl⟩ : ∃n,fuel=n+1:=⟨fuel-1,by omega⟩
  grind [nexts_get,lastBefore]

theorem Chain.lastBefore_not_mem (h:Chain (nexts s) it l) (hp:p∉l) (hfuel:l.length < fuel) :
 lastBefore s p fuel it=some (l.getLastD it) ∧
  (nexts s)[l.getLastD it]?=some none := by
 induction l generalizing it fuel with
 | nil=>
  obtain ⟨fuel,rfl⟩ : ∃n,fuel=n+1:=⟨fuel-1,by omega⟩
  grind [nexts_get,lastBefore]
 | cons q l ih=>
  obtain ⟨fuel,rfl⟩ : ∃n,fuel=n+1:=⟨fuel-1,by omega⟩
  grind [nexts_get,lastBefore]

theorem Chain.append (h:Chain ns it l) (hnodup:(it::l).Nodup) (hp:p∉it::l) (hlt:p < ns.length) :
 Chain ((ns.set (l.getLastD it) (some p)).set p none) it (l++[p]) := by
 induction l generalizing it with
 | nil | cons q l ih=>grind

theorem Chain.reaches (h:Chain (nexts s) it l) (hp:p∈it::l) : Reaches s it p := by
 induction l generalizing it with
 | nil=>exact List.mem_singleton.mp hp ▸ .refl
 | cons q l ih=>
  rcases List.mem_cons.mp hp with rfl|hp
  · exact .refl
  · exact .head h.1 (ih h.2 hp)

theorem Chain.mem_of_reaches (h:Chain (nexts s) it l) (hp:Reaches s it p) : p∈it::l := by
 induction l generalizing it with
 | nil=>
  rcases hp.cases_head with rfl|⟨r,hr,-⟩
  · exact List.mem_cons_self
  · cases h.symm.trans hr
 | cons q l ih=>
  rcases hp.cases_head with rfl|⟨r,hr,hp⟩
  · exact List.mem_cons_self
  · cases h.1.symm.trans hr
    exact List.mem_cons_of_mem _ (ih h.2 hp)

theorem freeList_ne_nil {pg:PageGroup} : freeList L pg≠[] ↔ pg.nextAvailable≠L.endIndex := by
 grind [L.startIndex_lt,freeList,listFrom.eq_def]

theorem findable_iff (h:Chain (nexts s) 0 l) : Findable L s ↔
 ∀q d,q≠0 → (pages s)[q]?=some d → d.2.next≠L.endIndex → q∈l := by
 refine ⟨fun hf q d hq hd hroom=>?_,fun hl q pg hq hpg hroom=>?_⟩
 · obtain ⟨pg,hpg,rfl⟩:=pages_get hd
   have hr:=h.mem_of_reaches (hf q pg hq hpg (freeList_ne_nil.mpr hroom))
   exact (List.mem_cons.mp hr).resolve_left hq
 · have hd:(pages s)[q]?=some (pg.address,pg.slots):=by simp [pages,hpg]
   exact h.reaches (List.mem_cons_of_mem _ (hl q _ hq hd (freeList_ne_nil.mp hroom)))

end Chain

/-- The list is a chain from the head page, and its other pages have free slots. -/
structure Available (L:Layout) (ds:Pages) (ns:List (Option ℕ)) (l:List ℕ) : Prop where
 chain : Chain ns 0 l
 nodup : (0::l).Nodup
 room : ∀{q:ℕ} {d:ℕ × Slots},q∈l → ds[q]?=some d → d.2.next≠L.endIndex

structure Tracked (L:Layout) (s:State) (g:Ghost) : Prop where
 slotted : Slotted L (pages s) g
 available : s≠[] → ∃l,Available L (pages s) (nexts s) l

theorem tracked_nil : Tracked L [] ⟨[],[]⟩ where
 slotted := by
  refine ⟨?_,?_,?_,List.nodup_nil,?_,?_,?_,?_⟩ <;> simp [Apart,pages,wordAt]
 available h := absurd rfl h

def Unmapped (L:Layout) (s:State) (address:ℕ) : Prop :=
 ∀g∈s,∀a,Contains L g.address a → ¬ Contains L address a

theorem getOrAllocate_spec (h:Tracked L s g) {address:ℕ} (hnew:Unmapped L s address) :
 ∃s' p,getOrAllocatePageGroupWithNextAvailable L address s=(s',p) ∧
  Slotted L (pages s') g ∧ (∃d,(pages s')[p]?=some d ∧ d.2.next≠L.endIndex) ∧
  (∃l,Available L (pages s') (nexts s') l ∧ (p=0 ∨ ∃rest,l=p::rest)) ∧
  (Findable L s → Findable L s' ∧ (s'=s ∨ ∀pg∈s,freeList L pg=[])) := by
 set new := newPageGroup L address
 have happend:Slotted L (pages s++[(address,new.slots)]) g:=by
  refine h.slotted.append rfl fun d hd a=>?_
  obtain ⟨pg,hpg,rfl⟩:=List.mem_map.mp hd
  exact hnew pg hpg a
 have hroom:new.nextAvailable≠L.endIndex:=L.startIndex_lt.ne
 cases s with
 | nil=>
  have havail:Available L (pages [new]) (nexts [new]) [] :=
   ⟨rfl,List.nodup_singleton 0,fun hq=>nomatch hq⟩
  refine ⟨_,0,rfl,happend,⟨_,rfl,hroom⟩,⟨[],havail,.inl rfl⟩,fun _=>⟨?_,.inr nofun⟩⟩
  refine (findable_iff havail.chain).mpr fun q _ hq hd=>?_
  obtain ⟨q,rfl⟩:=Nat.exists_eq_succ_of_ne_zero hq
  cases hd
 | cons head rest=>
  obtain ⟨l,havail⟩:=h.available (List.cons_ne_nil _ _)
  rw [getOrAllocatePageGroupWithNextAvailable]
  by_cases hfull : head.nextAvailable≠L.endIndex
  · exact ⟨_,0,if_pos hfull,h.slotted,⟨_,rfl,hfull⟩,⟨l,havail,.inl rfl⟩,fun hf=>⟨hf,.inl rfl⟩⟩
  · rw [if_neg hfull]
    cases l with
    | cons page l=>
     have hnext:head.nextAvailablePage=some page:=Option.some.inj havail.chain.1
     have hlt:=havail.chain.lt_length page (by simp)
     rw [nexts_length] at hlt
     have hd:=List.getElem?_eq_getElem hlt
     rw [hnext]
     exact ⟨_,page,rfl,h.slotted,⟨_,hd,havail.room List.mem_cons_self hd⟩,
      ⟨_,havail,.inr ⟨l,rfl⟩⟩,fun hf=>⟨hf,.inl rfl⟩⟩
    | nil=>
     have hnext:head.nextAvailablePage=none:=Option.some.inj havail.chain
     rw [hnext]
     set s' := {head with nextAvailablePage:=some (head::rest).length} :: rest++[new]
     have hpages:pages s'=pages (head::rest)++[(address,new.slots)]:=by
      simp [s',new,pages,newPageGroup,PageGroup.slots]
     have hlen:(pages (head::rest)).length=(head::rest).length:=List.length_map _
     have hget:(pages s')[(head::rest).length]?=some (address,new.slots):=by
      rw [hpages,←hlen,List.getElem?_concat_length]
     have hchain:Chain (nexts s') 0 [(head::rest).length] :=
      ⟨rfl,by simp [Chain,s',new,nexts,newPageGroup]⟩
     refine ⟨s',_,rfl,hpages ▸ happend,⟨_,hget,hroom⟩,⟨_,⟨hchain,by simp,?_⟩,
      .inr ⟨[],rfl⟩⟩,fun hf=>?_⟩
     · intro q d hq hd
       rw [List.mem_singleton.mp hq,hget,Option.some.injEq] at hd
       exact hd ▸ hroom
     · have hnone:=(findable_iff havail.chain).mp hf
       refine ⟨(findable_iff hchain).mpr fun q _ hq hd hfree=>?_,.inr fun pg hpg=>?_⟩
       · rw [hpages] at hd
         rcases append_get hd with hd|⟨rfl,-⟩
         · cases hnone q _ hq hd hfree
         · rw [hlen,List.mem_singleton]
       · by_contra hfree
         obtain ⟨q,hq⟩:=List.mem_iff_getElem?.mp hpg
         have hd:(pages (head::rest))[q]?=some (pg.address,pg.slots):=by
          rw [pages,List.getElem?_map,hq,Option.map_some]
         cases q with
         | zero=>
          cases hq
          exact hfull (freeList_ne_nil.mp hfree)
         | succ q=>cases hnone _ _ (by omega) hd (freeList_ne_nil.mp hfree)

theorem onSlots_comp {p:ℕ} {f k:Slots → Slots} :
 onSlots p f (onSlots p k ds)=onSlots p (fun x=>f (k x)) ds := by
 apply List.ext_getElem?
 grind [onSlots_get]

theorem onSlots_congr {p:ℕ} {f k:Slots → Slots} (hd:ds[p]?=some d) (hf:f d.2=k d.2) :
 onSlots p f ds=onSlots p k ds := by
 apply List.ext_getElem?
 grind [onSlots_get]

theorem room_onSlots {p q:ℕ} {e:ℕ × Slots} {f:Slots → Slots} {l:List ℕ}
 (hroom:∀{q:ℕ} {d:ℕ × Slots},q∈l → ds[q]?=some d → d.2.next≠L.endIndex)
 (hd:ds[p]?=some d) (hf:q=p → (f d.2).next≠L.endIndex) (hq:q=p ∨ q∈l)
 (he:(onSlots p f ds)[q]?=some e) : e.2.next≠L.endIndex := by
 grind [onSlots_get]

theorem removeFromAvailable_spec {l:List ℕ} {p:ℕ} (hchain:Chain (nexts s) 0 l)
 (hnodup:(0::l).Nodup) (hp:p=0 ∨ ∃rest,l=p::rest) :
 ∃s',removeFromAvailable p s=some s' ∧ pages s'=pages s ∧
  Chain (nexts s') 0 (l.erase p) := by
 have hfuel:=hchain.length_lt hnodup
 rw [nexts,List.length_map] at hfuel
 rcases hp with rfl|⟨rest,rfl⟩
 · grind [List.erase_of_not_mem,removeFromAvailable,hchain.findBefore_none]
 · obtain ⟨g,hg,hnext⟩:=nexts_get hchain.1
   obtain ⟨hzero,hrest⟩:=List.nodup_cons.mp hnodup
   obtain ⟨pg,hpg⟩ : ∃pg,s[p]?=some pg:=by grind [hchain.lt_length,nexts]
   refine ⟨setNextAvailablePage p none (setNextAvailablePage 0 pg.nextAvailablePage s),?_,
    by simp,?_⟩
   · grind [removeFromAvailable,findBefore]
   · rw [nexts_setNextAvailablePage,nexts_setNextAvailablePage,List.erase_cons_head]
     have hsame:∀q∈rest,(((nexts s).set 0 pg.nextAvailablePage).set p none)[q]? =
      (nexts s)[q]? := by
      grind
     have hstart:(((nexts s).set 0 pg.nextAvailablePage).set p none)[0]?=(nexts s)[p]?:=by
      grind [nexts]
     cases rest with
     | nil=>exact hstart.trans hchain.2
     | cons r rest=>exact ⟨hstart.trans hchain.2.1,hchain.2.2.congr hsame⟩

theorem implementationWithBlockNoCopy_spec (h:Tracked L s g) {address:ℕ}
 (hnew:Unmapped L s address) {block:Block} (hblock:L.endIndex < block) {mode:ℕ}
 (hmode:mode < L.argumentModeCount) :
 ∃s' imp,implementationWithBlockNoCopy L address block mode s=some (s',imp) ∧
  Tracked L s' ⟨(imp,block)::g.live,imp::g.ever⟩ ∧ (Findable L s → Findable L s' ∧
   (s'.length=s.length ∨ ∀pg∈s,freeList L pg=[])) := by
 obtain ⟨s₁,p,hget,h₁,⟨d,hd,hnext⟩,⟨l,havail,hp⟩,hfind⟩:=getOrAllocate_spec h hnew
 obtain ⟨pg,hpg,rfl⟩:=pages_get hd
 obtain ⟨imp,himp,hslotted⟩:=h₁.take hd hnext hblock hmode
 set next := successor pg.payload pg.nextAvailable with hsucc
 obtain ⟨s₂,hs₂,hpages₂,hchain⟩ : ∃s₂,(if next=L.endIndex then
  removeFromAvailable p (setNextAvailable p next s₁)
  else some (setNextAvailable p next s₁))=some s₂ ∧
  pages s₂=onSlots p (fun x=>⟨x.word,next⟩) (pages s₁) ∧
  Chain (nexts s₂) 0 (if next=L.endIndex then l.erase p else l) := by
  split
  · simpa using removeFromAvailable_spec (s:=setNextAvailable p next s₁)
     (by simpa using havail.chain) havail.nodup hp
  · exact ⟨_,rfl,by simp,by simpa using havail.chain⟩
 have hpages:pages (setPayload p pg.nextAvailable block s₂) =
  onSlots p (·.take block) (pages s₁) := by
  rw [pages_setPayload,hpages₂,onSlots_comp]
  exact onSlots_congr hd rfl
 set l' := if next=L.endIndex then l.erase p else l with hl'
 have hsub:l'.Sublist l:=by grind [List.erase_sublist]
 have hgone:next=L.endIndex → p∉l':=fun hfull=>by grind [havail.nodup]
 refine ⟨setPayload p pg.nextAvailable block s₂,imp,?_,⟨hpages ▸ hslotted,fun _=>⟨l',
  by simpa using hchain,(hsub.cons_cons 0).nodup havail.nodup,?_⟩⟩,fun hf=>⟨?_,?_⟩⟩
 · have himp':trampoline L pg.address mode pg.nextAvailable=some imp:=himp
   rw [implementationWithBlockNoCopy,hget]
   simp only [hpg,Option.bind_some]
   rw [←hsucc,hs₂,Option.bind_some,himp',Option.map_some]
 · intro q e hq he
   rw [hpages] at he
   exact room_onSlots havail.room hd (fun heq hfull=>hgone hfull (heq ▸ hq))
    (.inr (hsub.subset hq)) he
 · have hl:=(findable_iff havail.chain).mp (hfind hf).1
   refine (findable_iff (l:=l') (by simpa using hchain)).mpr fun q e hq he hroom=>?_
   rw [hpages,onSlots_get,Option.map_eq_some_iff] at he
   obtain ⟨x,hx,rfl⟩:=he
   by_cases hqp : p=q
   · subst hqp
     cases hd.symm.trans hx
     rw [if_pos rfl] at hroom
     have hnext':next≠L.endIndex:=hroom
     grind
   · rw [if_neg hqp] at hroom
     grind [hl q x hq hx hroom]
 · have hlen:(setPayload p pg.nextAvailable block s₂).length=s₁.length:=by
    simpa [pages,onSlots] using congrArg List.length hpages
   exact (hfind hf).2.imp (fun hs=>by rw [hlen,hs]) id

def relisted (p:ℕ) (l:List ℕ) : List ℕ :=
 -- the head page's link is overwritten
 if p=0 then [] else if p∈l then l else l++[p]

theorem addToAvailable_spec {l:List ℕ} {p:ℕ} (hchain:Chain (nexts s) 0 l)
 (hnodup:(0::l).Nodup) (hp:p < s.length) :
 ∃s',addToAvailable p s=some s' ∧ pages s'=pages s ∧ Chain (nexts s') 0 (relisted p l) := by
 have hfuel:=hchain.length_lt hnodup
 have hlen:(nexts s).length=s.length:=List.length_map _
 by_cases hmem : p∈l
 · obtain ⟨k,hlast,hk⟩:=hchain.lastBefore_mem hmem (show l.length < s.length+1 by omega)
   grind [nexts_get,relisted,addToAvailable]
 · obtain ⟨hlast,hk⟩:=hchain.lastBefore_not_mem hmem (show l.length < s.length+1 by omega)
   obtain ⟨g,hg,hnext⟩:=nexts_get hk
   refine ⟨setNextAvailablePage p none (setNextAvailablePage (l.getLastD 0) (some p) s),?_,
    by simp,?_⟩
   · rw [addToAvailable,hlast,Option.bind_some,hg,Option.map_some,if_pos hnext]
   · grind [nexts_setNextAvailablePage,relisted,hchain.append]

theorem impRemoveBlock_slot {l:List ℕ} (hchain:Chain (nexts s) 0 l) (hnodup:(0::l).Nodup)
 {imp:Imp} (himp:imp≠0) {p i:ℕ} (hslot:pageAndIndexContainingIMP L imp s=some (p,i))
 {pg:PageGroup} (hpg:s[p]?=some pg) :
 ∃s',impRemoveBlock L imp s=some (s',true) ∧ pages s'=onSlots p (·.give i) (pages s) ∧
  Chain (nexts s') 0 (relisted p l) := by
 have hlt:=(List.getElem?_eq_some_iff.mp hpg).1
 have hpages:pages (setNextAvailable p i (setPayload p i pg.nextAvailable s)) =
  onSlots p (·.give i) (pages s) := by
  rw [pages_setNextAvailable,pages_setPayload,onSlots_comp]
  exact onSlots_congr (d:=(pg.address,pg.slots)) (by simp [pages,hpg]) rfl
 obtain ⟨s',hadd,hpages',hchain'⟩ :=
  addToAvailable_spec (s:=setNextAvailable p i (setPayload p i pg.nextAvailable s)) (p:=p)
   (by simpa using hchain) hnodup (by simpa [setNextAvailable,setPayload] using hlt)
 grind [impRemoveBlock]

theorem impRemoveBlock_spec (h:Tracked L s g) {e:Imp × Block} (he:e∈g.live) :
 ∃s',impRemoveBlock L e.1 s=some (s',true) ∧
  Tracked L s' ⟨g.live.filter fun x=>x.1≠e.1,g.ever⟩ ∧ (Findable L s → (Findable L s' ↔
   ∀i,pageAndIndexContainingIMP L e.1 s=some (0,i) → (nexts s)[0]?=some none)) := by
 obtain ⟨⟨p,i⟩,hden,-,-⟩:=h.slotted.live he
 have hslot:=pageAndIndex_of_denotes h.slotted.apart hden
 obtain ⟨d,mode,hd,hmode,himp⟩:=id hden
 obtain ⟨pg,hpg,rfl⟩:=pages_get hd
 obtain ⟨l,havail⟩:=h.available (by rintro rfl; cases hpg)
 obtain ⟨s',hrem,hpages,hchain⟩ :=
  impRemoveBlock_slot havail.chain havail.nodup hden.imp_ne_zero hslot hpg
 have hfree:i≠L.endIndex:=hden.bounds.2.ne
 have hsub:∀q∈relisted p l,q=p ∨ q∈l:=by grind [relisted]
 have hnodup:(0::relisted p l).Nodup:=by grind [relisted,havail.nodup]
 refine ⟨s',hrem,⟨hpages ▸ h.slotted.give he hden hd,fun _=>⟨_,hchain,hnodup,?_⟩⟩,fun hf=>?_⟩
 · intro q x hq hx
   rw [hpages] at hx
   exact room_onSlots havail.room hd (fun _=>hfree) (hsub q hq) hx
 · have hl:=(findable_iff havail.chain).mp hf
   have hcond:(∀i,pageAndIndexContainingIMP L e.1 s=some (0,i) →
    (nexts s)[0]?=some none) ↔ (p=0 → l=[]) := by
    refine ⟨fun hc hp=>?_,fun hc i' hi'=>?_⟩
    · cases l with
      | nil=>rfl
      | cons q l=>cases havail.chain.1.symm.trans (hc i (hp ▸ hslot))
    · cases hslot.symm.trans hi'
      have hchain:=havail.chain
      rwa [hc rfl] at hchain
   rw [hcond,findable_iff hchain]
   refine ⟨fun hf' hp=>List.eq_nil_iff_forall_not_mem.mpr fun q hq=>?_,?_⟩
   · -- a page that was on the list is not found any more
     subst hp
     have hne:q≠0:=fun heq=>(List.nodup_cons.mp havail.nodup).1 (heq ▸ hq)
     have hlt:=havail.chain.lt_length q (List.mem_cons_of_mem _ hq)
     rw [nexts_length] at hlt
     have hx:=List.getElem?_eq_getElem hlt
     have hmem:=hf' q (pages s)[q] hne (by rw [hpages,onSlots_get,hx]; simp [hne.symm])
      (havail.room hq hx)
     simp [relisted] at hmem
   · intro hc q x hq hx hroom
     rw [hpages,onSlots_get,Option.map_eq_some_iff] at hx
     obtain ⟨y,hy,rfl⟩:=hx
     by_cases hqp : p=q
     · grind [relisted]
     · rw [if_neg hqp] at hroom
       grind [relisted,hl q y hq hy hroom]

/-- `address` is what `vm_allocate` returns if the call allocates a page group. -/
inductive Call where
 | implementationWithBlock (block:Block) (mode address:ℕ)
 | getBlock (anImp:Imp)
 | removeBlock (anImp:Imp)

def Call.step (L:Layout) : Call → State × Ghost → Option (State × Ghost)
 | .implementationWithBlock block mode address,(s,g)=>
  (implementationWithBlockNoCopy L address block mode s).map fun r =>
   (r.1,⟨(r.2,block)::g.live,r.2::g.ever⟩)
 -- the answer is `impGetBlock`
 | .getBlock _,x=>some x
 | .removeBlock anImp,(s,g)=>
  (impRemoveBlock L anImp s).map fun r=>(r.1,⟨g.live.filter fun x=>x.1≠anImp,g.ever⟩)

abbrev run (L:Layout) : List Call → State × Ghost → Option (State × Ghost) :=
 PartialRuns.run (Call.step L)

def Call.Permitted (L:Layout) : Call → State × Ghost → Prop
 | .implementationWithBlock block mode address,(s,_)=>
  L.endIndex < block ∧ mode < L.argumentModeCount ∧ Unmapped L s address
 | .getBlock _,_=>True
 | .removeBlock anImp,(_,g)=>anImp∈g.live.map Prod.fst

abbrev AllCalls (L:Layout) (C:Call → State × Ghost → Prop) : List Call → State × Ghost → Prop :=
 Along (Call.step L) C

abbrev Permitted (L:Layout) : List Call → State × Ghost → Prop := AllCalls L (Call.Permitted L)

theorem Call.step_tracked {c:Call} {x:State × Ghost} (h:Tracked L x.1 x.2)
 (hc:c.Permitted L x) : ∃y,c.step L x=some y ∧ Tracked L y.1 y.2 := by
 obtain ⟨s,g⟩:=x
 cases c with
 | implementationWithBlock block mode address=>
  obtain ⟨hblock,hmode,hnew⟩:=hc
  obtain ⟨s',imp,himp,h',-⟩:=implementationWithBlockNoCopy_spec h hnew hblock hmode
  exact ⟨_,by rw [Call.step,himp,Option.map_some],h'⟩
 | getBlock anImp=>exact ⟨_,rfl,h⟩
 | removeBlock anImp=>
  obtain ⟨e,he,rfl⟩:=List.mem_map.mp hc
  obtain ⟨s',hrem,h',-⟩:=impRemoveBlock_spec h he
  exact ⟨_,by rw [Call.step,hrem,Option.map_some],h'⟩

def SlotOf (L:Layout) (s:State) (imp:Imp) (slot:ℕ × ℕ) : Prop :=
 pageAndIndexContainingIMP L imp s=some slot

/-- Live IMPs own their slots, and the free lists hold the rest. -/
structure Separated (L:Layout) (s:State) (g:Ghost) : Prop where
 nodup : (g.live.map Prod.fst).Nodup
 slot : ∀imp∈g.ever,∃slot,SlotOf L s imp slot ∧ L.startIndex ≤ slot.2 ∧ slot.2 < L.endIndex
 liveSlot : ∀e∈g.live,∃slot,SlotOf L s e.1 slot ∧
  L.startIndex ≤ slot.2 ∧ slot.2 < L.endIndex ∧ ∀e'∈g.live,SlotOf L s e'.1 slot → e'=e
 getBlock : ∀e∈g.live,impGetBlock L e.1 s=some e.2
 removed : ∀imp∈g.ever,∀slot,SlotOf L s imp slot →
  (∀e∈g.live,¬ SlotOf L s e.1 slot) → impGetBlock L imp s=none
 free : ∀p pg,s[p]?=some pg → ∃freed fresh,
  freeList L pg=freed++List.range' fresh (L.endIndex-fresh) ∧ freed.Nodup ∧
  (∀i,i∈freed ↔ (∃imp∈g.ever,SlotOf L s imp (p,i)) ∧ ∀e∈g.live,¬ SlotOf L s e.1 (p,i)) ∧
  (∀i,(fresh ≤ i ∧ i < L.endIndex) ↔ L.startIndex ≤ i ∧ i < L.endIndex ∧
   ∀imp∈g.ever,¬ SlotOf L s imp (p,i))

section Separated

variable (h:Slotted L (pages s) g)

include h

theorem slotOf_iff {imp:Imp} (hmem:imp∈g.ever ∨ ∃b,(imp,b)∈g.live) :
 SlotOf L s imp slot ↔ Denotes L (pages s) imp slot := by
 obtain ⟨slot',hden⟩ : ∃slot',Denotes L (pages s) imp slot':=by grind [h.ever,h.live]
 refine ⟨fun hslot=>?_,pageAndIndex_of_denotes h.apart⟩
 rw [SlotOf,pageAndIndex_of_denotes h.apart hden,Option.some.injEq] at hslot
 exact hslot ▸ hden

theorem slotOf_live {e:Imp × Block} (he:e∈g.live) :
 SlotOf L s e.1 slot ↔ Denotes L (pages s) e.1 slot := slotOf_iff h (.inr ⟨e.2,he⟩)

theorem impGetBlock_of_denotes {imp:Imp} {w:ℕ} (hden:Denotes L (pages s) imp slot)
 (hw:wordAt (pages s) slot=some w) :
 impGetBlock L imp s=if w ≤ L.endIndex then none else some w := by
 obtain ⟨d,hd,rfl⟩:=Option.map_eq_some_iff.mp hw
 obtain ⟨pg,hpg,rfl⟩:=pages_get hd
 rw [impGetBlock,if_neg hden.imp_ne_zero,pageAndIndex_of_denotes h.apart hden,
  Option.bind_some,hpg,Option.bind_some]
 rfl

theorem freeList_spec {p:ℕ} {pg:PageGroup} (hpg:s[p]?=some pg) : ∃freed fresh,
 freeList L pg=freed++List.range' fresh (L.endIndex-fresh) ∧ freed.Nodup ∧
 (∀i,i∈freed ↔ (∃imp∈g.ever,SlotOf L s imp (p,i)) ∧ ∀e∈g.live,¬ SlotOf L s e.1 (p,i)) ∧
 (∀i,(fresh ≤ i ∧ i < L.endIndex) ↔ L.startIndex ≤ i ∧ i < L.endIndex ∧
  ∀imp∈g.ever,¬ SlotOf L s imp (p,i)) := by
 have hd:(pages s)[p]?=some (pg.address,pg.slots):=by
  rw [pages,List.getElem?_map,hpg,Option.map_some]
 have hword:∀i,wordAt (pages s) (p,i)=some (pg.payload i):=fun i=>by
  rw [wordAt,hd]; rfl
 obtain ⟨freed,fresh,hshape⟩:=h.shape hd
 have hfirst:=hshape.first_le
 have hlast:=hshape.le_last
 have hused:∀i,L.startIndex ≤ i → i < L.endIndex →
  ((∃imp∈g.ever,SlotOf L s imp (p,i)) ↔ i < fresh) := by
  intro i hstart hend
  rw [←not_le,←hshape.unused_iff L.startIndex_pos hstart hend]
  constructor
  · rintro ⟨imp,hmem,hslot⟩
    obtain ⟨slot',w,hden,hw,hne⟩:=h.ever hmem
    obtain rfl:=Denotes.unique h.apart hden ((slotOf_iff h (.inl hmem)).mp hslot)
    rw [hword,Option.some.injEq] at hw
    rw [←hw] at hne
    exact hne
  · intro hne
    obtain ⟨imp,hmem,hden⟩:=h.used (validIndex_iff.mpr ⟨hstart,hend⟩) (hword i) hne
    exact ⟨imp,hmem,(slotOf_iff h (.inl hmem)).mpr hden⟩
 have hlive:∀i,L.startIndex ≤ i → i < L.endIndex →
  ((∃e∈g.live,SlotOf L s e.1 (p,i)) ↔ i < fresh ∧ i∉freed) := by
  intro i hstart hend
  rw [←hshape.taken_iff hstart hend]
  constructor
  · rintro ⟨e,he,hslot⟩
    by_contra hle
    exact h.not_live (hword i) (not_lt.mp hle) he ((slotOf_live h he).mp hslot)
  · intro hlarge
    obtain ⟨e,he,hden⟩:=h.taken (validIndex_iff.mpr ⟨hstart,hend⟩) (hword i) hlarge
    exact ⟨e,he,(slotOf_live h he).mpr hden⟩
 have hin:∀{imp:Imp} {i:ℕ},imp∈g.ever → SlotOf L s imp (p,i) → L.startIndex ≤ i ∧ i < L.endIndex :=
  fun hmem hslot=>((slotOf_iff h (.inl hmem)).mp hslot).bounds
 refine ⟨freed,fresh,hshape.listFrom_eq L.startIndex_pos,hshape.nodup,?_,?_⟩
 · intro i
   constructor
   · intro hi
     obtain ⟨hstart,hlt⟩:=hshape.used i hi
     grind
   · rintro ⟨⟨imp,hmem,hslot⟩,hfree⟩
     obtain ⟨hstart,hend⟩:=hin hmem hslot
     grind
 · grind

theorem Slotted.separated : Separated L s g where
 nodup := h.nodup
 slot imp hmem := by
  obtain ⟨slot,w,hden,-⟩:=h.ever hmem
  exact ⟨slot,pageAndIndex_of_denotes h.apart hden,hden.bounds⟩
 liveSlot e he := by
  obtain ⟨slot,hden,-⟩:=h.live he
  refine ⟨slot,pageAndIndex_of_denotes h.apart hden,hden.bounds.1,hden.bounds.2,?_⟩
  intro e' he' hslot
  exact h.distinct he' he ((slotOf_live h he').mp hslot) hden
 getBlock e he := by
  obtain ⟨slot,hden,hw,hlarge⟩:=h.live he
  rw [impGetBlock_of_denotes h hden hw,if_neg (not_le.mpr hlarge)]
 removed imp hmem slot hslot hfree := by
  have hden:=(slotOf_iff h (.inl hmem)).mp hslot
  obtain ⟨slot',w,hden',hw,-⟩:=h.ever hmem
  obtain rfl:=Denotes.unique h.apart hden hden'
  rw [impGetBlock_of_denotes h hden hw,if_pos]
  by_contra hlarge
  obtain ⟨e,he,hx⟩:=h.taken (validIndex_iff.mpr hden.bounds) hw (not_le.mp hlarge)
  exact hfree e he ((slotOf_live h he).mpr hx)
 free _ _ hpg := freeList_spec h hpg

end Separated

/-- Every sequence of permitted calls returns, and leaves live and free slots apart. -/
theorem blocks_separated (L:Layout) (calls:List Call) (hcalls:Permitted L calls ([],⟨[],[]⟩)) :
 ∃s g,run L calls ([],⟨[],[]⟩)=some (s,g) ∧ Separated L s g := by
 obtain ⟨⟨s,g⟩,hrun,h⟩:=run_total (I:=fun x=>Tracked L x.1 x.2) Call.step_tracked
  tracked_nil hcalls
 exact ⟨s,g,hrun,h.slotted.separated⟩

def twoSlots : Layout where
 slotSize := 8
 dataSize := 24
 headerSize := 8
 argumentModeCount := 2
 textSegmentSize := 72
 slot_pos := by decide
 header := by decide
 room := by decide
 text := by decide

def reuse : List Call :=
 [.implementationWithBlock 100 0 0,.implementationWithBlock 101 1 1000,.removeBlock 56,
  .implementationWithBlock 102 1 2000]

theorem unmapped_beyond {address:ℕ}
 (h:∀pg∈s,pg.address+L.dataSize+L.textSegmentSize ≤ address) : Unmapped L s address :=
 fun pg hpg _ ha hb=>absurd (Nat.le_trans (h pg hpg) hb.1) (Nat.not_le.mpr ha.2)

theorem reused_slot_separated : Permitted twoSlots reuse ([],⟨[],[]⟩) ∧
 ∃s g,run twoSlots reuse ([],⟨[],[]⟩)=some (s,g) ∧ Separated twoSlots s g := by
 have hpermitted:Permitted twoSlots reuse ([],⟨[],[]⟩) :=
  .cons ⟨by decide,by decide,nofun⟩ rfl <|
  .cons ⟨by decide,by decide,unmapped_beyond (by decide)⟩ rfl <|
  .cons (.tail _ (.head _)) rfl <|
  .cons ⟨by decide,by decide,unmapped_beyond (by decide)⟩ rfl trivial
 exact ⟨hpermitted,blocks_separated twoSlots reuse hpermitted⟩

section DeadImps

/-- `imp_removeBlock` is given a live IMP, or one that is in no slot of any page. -/
def Call.Answered (L:Layout) : Call → State × Ghost → Prop
 | .removeBlock anImp,(s,g)=>anImp∈g.live.map Prod.fst ∨ anImp=0 ∨
  pageAndIndexContainingIMP L anImp s=none
 | c,x=>c.Permitted L x

theorem impRemoveBlock_outside {anImp:Imp} (h:anImp=0 ∨ pageAndIndexContainingIMP L anImp s=none) :
 impRemoveBlock L anImp s=some (s,false) := by grind [impRemoveBlock]

theorem Call.step_answered {c:Call} {x:State × Ghost} (h:Tracked L x.1 x.2)
 (hc:c.Answered L x) : ∃y,c.step L x=some y ∧ Tracked L y.1 y.2 := by
 cases c with
 | implementationWithBlock block mode address=>exact Call.step_tracked h hc
 | getBlock anImp=>exact ⟨x,rfl,h⟩
 | removeBlock anImp=>
  by_cases hlive : anImp∈x.2.live.map Prod.fst
  · exact Call.step_tracked (c:=.removeBlock anImp) h hlive
  · refine ⟨x,?_,h⟩
    have hsame:(x.2.live.filter fun e=>e.1≠anImp)=x.2.live :=
     List.filter_eq_self.mpr fun e he=>decide_eq_true fun heq =>
      hlive (heq ▸ List.mem_map_of_mem he)
    rw [Call.step,impRemoveBlock_outside (hc.resolve_left hlive),Option.map_some,hsame]

theorem pageAndIndexFrom_lt {imp:Imp} {k p i:ℕ} (h:pageAndIndexFrom L imp k s=some (p,i)) :
 p < k+s.length := by
 induction s generalizing k with
 | nil=>cases h
 | cons pg rest ih=>grind [pageAndIndexFrom]

/-- An IMP that is not live is refused exactly if it is in no slot. -/
theorem dead_imp_refused_iff (L:Layout) (calls:List Call)
 (hcalls:AllCalls L (Call.Answered L) calls ([],⟨[],[]⟩)) :
 ∃s g,run L calls ([],⟨[],[]⟩)=some (s,g) ∧ Separated L s g ∧
  ∀anImp,anImp∉g.live.map Prod.fst → (impRemoveBlock L anImp s=some (s,false) ↔
   anImp=0 ∨ pageAndIndexContainingIMP L anImp s=none) := by
 obtain ⟨⟨s,g⟩,hrun,h⟩:=run_total (I:=fun x=>Tracked L x.1 x.2) Call.step_answered
  tracked_nil hcalls
 refine ⟨s,g,hrun,h.slotted.separated,fun anImp _=>⟨fun hno=>?_,impRemoveBlock_outside⟩⟩
 by_contra hin
 obtain ⟨hne,hsome⟩:=not_or.mp hin
 obtain ⟨⟨p,i⟩,hslot⟩:=Option.ne_none_iff_exists'.mp hsome
 have hlt:p < s.length:=by simpa using pageAndIndexFrom_lt hslot
 obtain ⟨l,havail⟩:=h.available (List.ne_nil_of_length_pos (Nat.zero_lt_of_lt hlt))
 obtain ⟨s',hrem,-⟩:=impRemoveBlock_slot havail.chain havail.nodup hne hslot
  (List.getElem?_eq_getElem hlt)
 rw [hrem] at hno
 cases hno

theorem removed_imp_not_refused :
 ∃s g,run twoSlots [.implementationWithBlock 100 0 0,.removeBlock 56,.removeBlock 7]
  ([],⟨[],[]⟩)=some (s,g) ∧ Separated twoSlots s g ∧
  (impRemoveBlock twoSlots 56 s=some (s,false) ↔
   56=0 ∨ pageAndIndexContainingIMP twoSlots 56 s=none) := by
 obtain ⟨s,g,hrun,hsep,hiff⟩:=dead_imp_refused_iff twoSlots
  [.implementationWithBlock 100 0 0,.removeBlock 56,.removeBlock 7]
  (.cons ⟨by decide,by decide,nofun⟩ rfl <| .cons (.inl (.head _)) rfl <|
   .cons (.inr (.inr rfl)) rfl trivial)
 obtain ⟨-,rfl⟩:=Prod.mk.inj (Option.some.inj hrun)
 exact ⟨s,_,hrun,hsep,hiff 56 (by decide)⟩

/-- Pages of 16K with 2048-4 trampolines, and one argument mode. -/
def arm64 : Layout where
 slotSize := 8
 dataSize := 16384
 headerSize := 32
 argumentModeCount := 1
 textSegmentSize := 32768
 slot_pos := by decide
 header := by decide
 room := by decide
 text := by decide

/-- A block is removed twice, and its slot is then given to two blocks. -/
theorem slot_of_two_blocks :
 ((run arm64 [.implementationWithBlock 5000 0 0,.removeBlock 32800] ([],⟨[],[]⟩)).bind
   fun x=>(impRemoveBlock arm64 32800 x.1).map fun r=>(x.2.live,r.2))=some ([],true) ∧
 (run arm64 [.implementationWithBlock 5000 0 0,.removeBlock 32800,.removeBlock 32800,
  .implementationWithBlock 5001 0 0,.implementationWithBlock 5002 0 0]
  ([],⟨[],[]⟩)).map (·.2.live)=some [(32800,5002),(32800,5001)] := by
 decide +kernel

end DeadImps

section Holes

/-- `imp_removeBlock` is not given an IMP of the head page while other pages are available. -/
def Call.SparesHead (L:Layout) : Call → State × Ghost → Prop
 | .removeBlock anImp,(s,_)=>∀i,pageAndIndexContainingIMP L anImp s=some (0,i) →
  (nexts s)[0]?=some none
 | _,_=>True

theorem Call.step_findable {c:Call} {x:State × Ghost}
 (h:Tracked L x.1 x.2 ∧ Findable L x.1) (hc:c.Permitted L x ∧ c.SparesHead L x) :
 ∃y,c.step L x=some y ∧ Tracked L y.1 y.2 ∧ Findable L y.1 := by
 obtain ⟨h,hf⟩:=h
 obtain ⟨hc,hspares⟩:=hc
 cases c with
 | implementationWithBlock block mode address=>
  obtain ⟨hblock,hmode,hnew⟩:=hc
  grind [implementationWithBlockNoCopy_spec,Call.step]
 | getBlock anImp=>exact ⟨_,rfl,h,hf⟩
 | removeBlock anImp=>
  obtain ⟨e,he,rfl⟩:=List.mem_map.mp hc
  obtain ⟨s',hrem,h',hf'⟩:=impRemoveBlock_spec h he
  exact ⟨_,by rw [Call.step,hrem,Option.map_some],h',(hf' hf).mpr hspares⟩

/-- Pages with free slots can be found, and a page is mapped only if there is none, as long as no
block of the head page is removed while other pages are available. -/
theorem holes_findable (L:Layout) (calls:List Call)
 (hcalls:AllCalls L (fun c x=>c.Permitted L x ∧ c.SparesHead L x) calls ([],⟨[],[]⟩)) :
 ∃s g,run L calls ([],⟨[],[]⟩)=some (s,g) ∧ Findable L s ∧ (∀block mode address,
   (Call.implementationWithBlock block mode address).Permitted L (s,g) →
   ∃s' imp,implementationWithBlockNoCopy L address block mode s=some (s',imp) ∧
    (s'.length=s.length ∨ ∀pg∈s,freeList L pg=[])) ∧
  ∀e∈g.live,∃s',impRemoveBlock L e.1 s=some (s',true) ∧
   (Findable L s' ↔ (Call.removeBlock e.1).SparesHead L (s,g)) := by
 obtain ⟨⟨s,g⟩,hrun,h,hf⟩:=run_total
  (I:=fun x=>Tracked L x.1 x.2 ∧ Findable L x.1) Call.step_findable
  ⟨tracked_nil,fun _ _ _ h=>by simp at h⟩ hcalls
 refine ⟨s,g,hrun,hf,fun block mode address hc=>?_,fun e he=>?_⟩
 · obtain ⟨s',imp,himp,-,hf'⟩:=implementationWithBlockNoCopy_spec h hc.2.2 hc.1 hc.2.1
   exact ⟨s',imp,himp,(hf' hf).2⟩
 · obtain ⟨s',hrem,-,hf'⟩:=impRemoveBlock_spec h he
   exact ⟨s',hrem,hf' hf⟩

/-- Two blocks fill the head page, two more a second page, and one of these is removed. -/
def removeFromSecond : List Call :=
 [.implementationWithBlock 100 0 0,.implementationWithBlock 101 0 1000,
  .implementationWithBlock 102 0 1000,.implementationWithBlock 103 0 2000,.removeBlock 1056]

theorem second_page_findable : ∃s g,run twoSlots removeFromSecond ([],⟨[],[]⟩)=some (s,g) ∧
 s.map (freeList twoSlots)=[[],[1]] ∧ Reaches s 0 1 := by
 obtain ⟨s,g,hrun,hf,-⟩:=holes_findable twoSlots removeFromSecond
  (.cons ⟨⟨by decide,by decide,nofun⟩,trivial⟩ rfl <|
   .cons ⟨⟨by decide,by decide,unmapped_beyond (by decide)⟩,trivial⟩ rfl <|
   .cons ⟨⟨by decide,by decide,unmapped_beyond (by decide)⟩,trivial⟩ rfl <|
   .cons ⟨⟨by decide,by decide,unmapped_beyond (by decide)⟩,trivial⟩ rfl <|
   .cons ⟨.tail _ (.head _),nofun⟩ rfl trivial)
 obtain ⟨rfl,rfl⟩:=Prod.mk.inj (Option.some.inj hrun)
 exact ⟨_,_,rfl,by decide,hf 1 _ (by decide) rfl (by decide)⟩

def removeFromHead : List Call :=
 [.implementationWithBlock 100 0 0,.implementationWithBlock 101 0 1000,
  .implementationWithBlock 102 0 1000,.removeBlock 56]

/-- The second page has a free slot, but the link to it is gone, and a third page is mapped. -/
theorem hole_lost : (∃s g,run twoSlots removeFromHead ([],⟨[],[]⟩)=some (s,g) ∧
 ¬ Findable twoSlots s) ∧
 (run twoSlots (removeFromHead++[.implementationWithBlock 103 0 2000,
  .implementationWithBlock 104 0 2000]) ([],⟨[],[]⟩)).map
   (fun x=>x.1.map (freeList twoSlots))=some [[],[2],[2]] := by
 refine ⟨⟨_,_,rfl,fun hf=>?_⟩,by decide⟩
 rcases (hf 1 _ (by decide) rfl (by decide)).cases_head with h|⟨r,hr,-⟩
 · cases h
 · cases hr

end Holes

end ObjcRuntime.Trampolines
