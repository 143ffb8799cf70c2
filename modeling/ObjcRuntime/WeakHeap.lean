import ObjcRuntime.WeakReferences

/-!
# Registration of weak variables

The weak variables against the weak tables, with the variables that a locked section has detached
for a while.
-/
set_option autoImplicit false
namespace ObjcRuntime.WeakReferences
open ProbeTable WeakEntry WeakTable
open Function

variable {E:Env} {h:Heap} {D:Set Ptr}

def Heap.Refers (E:Env) (h:Heap) (location obj:Ptr) : Prop :=
 (h.status location).isWeak=true ∧ h.mem location=obj ∧ E.Real obj

structure HeapInv (E:Env) (h:Heap) (D:Set Ptr) : Prop where
 tables : ∀i,TableWf (h.tables i)
 registered : ∀obj,obj≠0 → ∀x,
  x∈referrersOf (h.tables (E.sideTable obj)) obj ↔ x∉D ∧ h.Refers E x obj
 weak : ∀x obj,x∉D → h.Refers E x obj → (h.objs obj).weak=true ∧ (h.objs obj).phase≠.cleared
 aligned : ∀x,h.status x≠.uninit → Aligned x

theorem Heap.Refers.unique {x a b:Ptr} (ha:h.Refers E x a) (hb:h.Refers E x b) : a=b :=
 ha.2.1.symm.trans hb.2.1

theorem setTable_tables (obj:Ptr) (t:Table Entry) (r:Ptr) :
 (h.setTable E obj t).tables (E.sideTable r) =
  if E.sideTable r=E.sideTable obj then t else h.tables (E.sideTable r) :=
 update_apply ..

theorem HeapInv.setTable {D':Set Ptr} (hi:HeapInv E h D) (obj:Ptr) {t:Table Entry} (ht:TableWf t)
 (hin:∀r,r≠0 → E.sideTable r=E.sideTable obj → ∀x,x∈referrersOf t r ↔ x∉D' ∧ h.Refers E x r)
 (hout:∀r,r≠0 → E.sideTable r≠E.sideTable obj → ∀x,x∉D ∧ h.Refers E x r ↔ x∉D' ∧ h.Refers E x r)
 (hweak:∀x r,x∉D' → h.Refers E x r → (h.objs r).weak=true ∧ (h.objs r).phase≠.cleared) :
 HeapInv E (h.setTable E obj t) D' := by
 refine ⟨fun i=>?_,fun r hr x=>?_,hweak,hi.aligned⟩
 · change TableWf (update h.tables (E.sideTable obj) t i)
   grind [hi.tables]
 · rw [setTable_tables]
   split_ifs with hs
   · exact hin r hr hs x
   · exact (hi.registered r hr x).trans (hout r hr hs x)

theorem HeapInv.detach_plain (hi:HeapInv E h D) (location:Ptr)
 (hplain:(h.status location).isWeak=false) : HeapInv E h (insert location D) := by
 have hne:∀x r,h.Refers E x r → x≠location:=by grind [Heap.Refers]
 refine ⟨hi.tables,fun r hr x=>?_,fun x r hx hrefers=>hi.weak x r ?_ hrefers,hi.aligned⟩
 · grind [hi.registered]
 · exact fun hD=>hx (.inr hD)

variable {obj location addr:Ptr} {h':Heap} {s:Status} {v:Viability}

section

variable (hi:HeapInv E h D)
include hi

theorem HeapInv.unregister (hloc:location≠0) (hm:h.mem location=obj) :
 ∃t,h.unregister E obj location=some (h.setTable E obj t) ∧
  HeapInv E (h.setTable E obj t) (insert location D) := by
 obtain ⟨t,unknown,hrun,ht,hrefs⟩ :=
  unregister_spec (hi.tables (E.sideTable obj)) obj hloc
 have hother:∀r x,h.Refers E x r → (r=obj ∧ x=location ↔ x=location):=by
  intro r x hx
  refine ⟨And.right,fun heq=>⟨?_,heq⟩⟩
  rw [←hm,←heq]
  exact hx.2.1.symm
 refine ⟨t,by rw [Heap.unregister,hrun]; rfl,hi.setTable obj ht ?_ ?_ ?_⟩
 · grind [hi.registered]
 · grind
 · exact fun x r hx=>hi.weak x r fun hD=>hx (.inr hD)

theorem HeapInv.register (obj:Ptr) (haddr:addr≠0)
 (hal:Aligned location) (hD:location∈D) (hx:h.Refers E location obj)
 (hweak:(h.objs obj).weak=true) (hphase:(h.objs obj).phase≠.cleared) :
 ∃t,registerReferrer (h.tables (E.sideTable obj)) addr obj location=some t ∧
  HeapInv E (h.setTable E obj t) (D \ {location}) := by
 have hnew:location∉referrersOf (h.tables (E.sideTable obj)) obj:=by
  intro hmem
  exact ((hi.registered obj hx.2.2.1 location).mp hmem).1 hD
 obtain ⟨t,hrun,ht,hrefs⟩ :=
  register_spec (hi.tables (E.sideTable obj)) haddr hx.2.2.1 hal hnew
 have hkeep:∀x r,h.Refers E x r → (x∉D \ {location} ↔ x∉D ∨ (r=obj ∧ x=location)):=by
  intro x r hxr
  rw [Set.mem_sdiff,Set.mem_singleton_iff,not_and_or,not_not]
  refine or_congr Iff.rfl ⟨fun heq=>⟨?_,heq⟩,And.right⟩
  exact hxr.unique (heq ▸ hx)
 refine ⟨t,hrun,hi.setTable obj ht ?_ ?_ ?_⟩
 · grind [hi.registered]
 · grind
 · grind [hi.weak]

theorem HeapInv.attach_plain (hno:∀r,¬ h.Refers E location r) :
 HeapInv E h (D \ {location}) := by
 have hkeep:∀x r,h.Refers E x r → (x∉D \ {location} ↔ x∉D):=by grind
 refine ⟨hi.tables,fun r hr x=>?_,fun x r hxD hxr=>hi.weak x r ((hkeep x r hxr).mp hxD) hxr,
  hi.aligned⟩
 grind [hi.registered]

theorem HeapInv.change (htables:h'.tables=h.tables)
 (hobjs:h'.objs=h.objs) (hrefers:∀x r,x∉D → (h'.Refers E x r ↔ h.Refers E x r))
 (hal:∀x,h'.status x≠.uninit → Aligned x) : HeapInv E h' D := by
 refine ⟨fun i=>htables ▸ hi.tables i,fun r hr x=>?_,fun x r hx hxr=>?_,hal⟩
 · rw [htables,hi.registered r hr x]
   exact and_congr_right fun hx=>(hrefers x r hx).symm
 · rw [hobjs]
   exact hi.weak x r hx ((hrefers x r hx).mp hxr)

theorem HeapInv.change_detached (htables:h'.tables=h.tables)
 (hobjs:h'.objs=h.objs)
 (hsame:∀x,x∉D → h'.status x=h.status x ∧ h'.mem x=h.mem x)
 (hal:∀x,h'.status x≠.uninit → Aligned x) : HeapInv E h' D := by
 grind [hi.change,Heap.Refers]

theorem HeapInv.assign (value:Ptr)
 (hplain:(h.status location).isWeak=false) : HeapInv E (h.write location value) D := by
 refine hi.change rfl rfl (fun x r _=>?_) hi.aligned
 change (h.status x).isWeak=true ∧ update h.mem location value x=r ∧ E.Real r ↔ _
 grind [Heap.Refers]

end

theorem setStatus_status (location:Ptr) (s:Status) (x:Ptr) :
 (h.setStatus location s).status x=if x=location then s else h.status x :=
 update_apply ..

theorem HeapInv.setStatus (hi:HeapInv E h D) (hal:Aligned location)
 (hs:s.isWeak=(h.status location).isWeak) :
 HeapInv E (h.setStatus location s) D := by
 refine hi.change rfl rfl (fun x r _=>?_) fun x hx=>?_
 · rw [Heap.Refers,setStatus_status]
   split_ifs with heq
   · rw [hs,←heq]
     rfl
   · rfl
 · grind [setStatus_status,hi.aligned]

theorem HeapInv.setObj (hi:HeapInv E h D) (obj:Ptr) {o:Obj}
 (hkeep:∀x,x∉D → h.Refers E x obj → o.weak=true ∧ o.phase≠.cleared) :
 HeapInv E (h.setObj obj o) D := by
 refine ⟨hi.tables,hi.registered,fun x r hx hxr=>?_,hi.aligned⟩
 change (update h.objs obj o r).weak=true ∧ (update h.objs obj o r).phase≠_
 rw [update_apply]
 split_ifs with heq
 · subst r
   exact hkeep x hx hxr
 · exact hi.weak x r hx hxr

theorem setTable_self (obj:Ptr) : h.setTable E obj (h.tables (E.sideTable obj))=h := by
 rw [Heap.setTable,update_eq_self]

theorem not_real_iff : ¬ E.Real obj ↔ obj=0 ∨ E.isTagged obj=true := by
 rw [Env.Real,not_and_or,not_not,Bool.not_eq_false]

theorem honest_viable (honest:Honest E h obj v) (hv:v=.viable) : (h.objs obj).phase=.live := by
 rw [Honest] at honest
 grind

theorem register_cases {result:Ptr} {options:DeallocatingOptions}
 (hrun:h.register E addr obj location options v=some (result,h')) :
 (Accepts E.isTagged obj options v ∧ result=obj ∧
  ∃t,registerReferrer (h.tables (E.sideTable obj)) addr obj location=some t ∧
   h'=h.setTable E obj t) ∨
 (¬ Accepts E.isTagged obj options v ∧ ¬ E.Real result ∧ h'=h) := by
 rw [Heap.register,weakRegisterNoLock_eq] at hrun
 split_ifs at hrun with hacc hnil hcrash
 · cases hreg : registerReferrer (h.tables (E.sideTable obj)) addr obj location with
   | none=>
    rw [hreg] at hrun
    cases hrun
   | some t=>grind
 · grind [not_real_iff,setTable_self]
 · cases hrun
 · obtain ⟨rfl,rfl⟩:=Prod.mk.inj (Option.some.inj hrun)
   exact .inr ⟨hacc,fun hreal=>hreal.1 rfl,setTable_self obj⟩

theorem write_status {value:Ptr} (x:Ptr) :
 ((h.write location value).setStatus location s).status x =
   if x=location then s else h.status x :=
 update_apply ..

theorem write_mem {value:Ptr} (x:Ptr) : ((h.write location value).setStatus location s).mem x =
   if x=location then value else h.mem x :=
 update_apply ..

theorem HeapInv.write (hi:HeapInv E h D) (value:Ptr) (s:Status) (hal:Aligned location)
 (hD:location∈D) :
 HeapInv E ((h.write location value).setStatus location s) D := by
 refine hi.change_detached rfl rfl (fun x hx=>?_) fun x hx=>?_
 · grind [write_status,write_mem]
 · grind [write_status,hi.aligned]

theorem HeapInv.write_unreal (hi:HeapInv E h D) {value:Ptr} (s:Status)
 (hal:Aligned location) (hD:location∈D) (hno:¬ E.Real value) :
 HeapInv E ((h.write location value).setStatus location s) (D \ {location}) := by
 refine (hi.write value s hal hD).attach_plain fun r hr=>hno ?_
 have hv:=hr.2.1
 rw [write_mem,if_pos rfl] at hv
 rw [hv]
 exact hr.2.2

theorem HeapInv.store (hi:HeapInv E h D) {t:Table Entry} (haddr:addr≠0)
 (hal:Aligned location) (hD:location∈D) (hreal:E.Real obj)
 (hphase:(h.objs obj).phase≠.cleared)
 (hreg:registerReferrer (h.tables (E.sideTable obj)) addr obj location=some t) :
 HeapInv E ((((h.setTable E obj t).setWeaklyReferenced E obj).write location obj).setStatus
  location .live) (D \ {location}) := by
 have hbit:HeapInv E (h.setWeaklyReferenced E obj) D:=by
  grind [Heap.setWeaklyReferenced,hi.setObj]
 have hobj:(h.setWeaklyReferenced E obj).objs obj = {h.objs obj with weak:=true}:=by
  rw [Heap.setWeaklyReferenced,if_pos hreal]
  exact update_self ..
 obtain ⟨t',hreg',hi'⟩:=(hbit.write obj .live hal hD).register obj haddr hal hD
  ⟨by rw [write_status,if_pos rfl]; rfl,by rw [write_mem,if_pos rfl],hreal⟩
  (by change ((h.setWeaklyReferenced E obj).objs obj).weak=true; rw [hobj])
  (by change ((h.setWeaklyReferenced E obj).objs obj).phase≠_; rw [hobj]; exact hphase)
 have htables:(h.setWeaklyReferenced E obj).tables=h.tables:=by
  rw [Heap.setWeaklyReferenced,if_pos hreal]
  rfl
 have ht:t'=t:=by
  change registerReferrer ((h.setWeaklyReferenced E obj).tables _) addr obj location=_ at hreg'
  grind
 subst ht
 rw [Heap.setWeaklyReferenced,if_pos hreal] at hi' ⊢
 exact hi'

def SameCounts (h h':Heap) : Prop :=
 ∀obj,(h'.objs obj).refs=(h.objs obj).refs ∧ (h'.objs obj).phase=(h.objs obj).phase

theorem setWeaklyReferenced_counts (obj:Ptr) : SameCounts h (h.setWeaklyReferenced E obj) := by
 intro r
 rw [Heap.setWeaklyReferenced]
 split_ifs with hreal
 · change (update h.objs obj _ r).refs=_ ∧ (update h.objs obj _ r).phase=_
   grind
 · exact ⟨rfl,rfl⟩

theorem detach_old (hi:HeapInv E h ∅) (s:Store) {oldObj:Ptr} (hal:Aligned s.location)
 (hold:s.haveOld=true → h.mem s.location=oldObj)
 (hplain:s.haveOld=false → (h.status s.location).isWeak=false) :
 ∃h₁,(if s.haveOld then h.unregister E oldObj s.location else some h)=some h₁ ∧
  HeapInv E h₁ {s.location} ∧ h₁.mem=h.mem ∧ h₁.status=h.status ∧ h₁.objs=h.objs := by
 rw [←insert_empty_eq s.location]
 cases ho : s.haveOld with
 | true=>
  obtain ⟨t,hrun,hi₁⟩:=hi.unregister hal.ne (hold ho)
  exact ⟨_,hrun,hi₁,rfl,rfl,rfl⟩
 | false=>exact ⟨h,rfl,hi.detach_plain s.location (hplain ho),rfl,rfl,rfl⟩

theorem accepts_viable {crash:Bool} (hacc:Accepts E.isTagged obj
  (if crash then .crashIfDeallocating else .returnNilIfDeallocating) v) : v=.viable := by
 refine hacc.2.2.resolve_left ?_
 cases crash <;> simp

theorem storeSection_spec (hi:HeapInv E h ∅) {s:Store} {oldObj result:Ptr}
 (hal:Aligned s.location) (hold:s.haveOld=true → h.mem s.location=oldObj)
 (hplain:s.haveOld=false → (h.status s.location).isWeak=false) (haddr:addr≠0)
 (honest:Honest E h s.newObj v) (hrun:storeSection E h s oldObj addr v=some (result,h')) :
 HeapInv E h' ∅ ∧ SameCounts h h' ∧
  ∀x,h'.status x=if x=s.location then (if s.haveNew then .live else .uninit) else h.status x := by
 obtain ⟨h₁,hold₁,hi₁,hmem,hstatus,hobjs⟩:=detach_old hi s hal hold hplain
 have hcounts:SameCounts h h₁:=fun r=>by rw [hobjs]; exact ⟨rfl,rfl⟩
 rw [storeSection,hold₁,Option.bind_some] at hrun
 rw [←Set.sdiff_self (s:={s.location}),←hstatus]
 cases hnew : s.haveNew with
 | false=>
  rw [hnew] at hrun
  obtain ⟨rfl,rfl⟩:=Prod.mk.inj (Option.some.inj hrun)
  have hself:h₁.write s.location (h₁.mem s.location)=h₁:=by
   rw [Heap.write,update_eq_self]
  have hi₂:=hi₁.write (h₁.mem s.location) .uninit hal rfl
  rw [hself] at hi₂
  refine ⟨hi₂.attach_plain fun r hr=>?_,hcounts,fun x=>update_apply ..⟩
  have hw:=hr.1
  rw [setStatus_status,if_pos rfl] at hw
  cases hw
 | true=>
  rw [hnew,if_pos rfl,Option.map_eq_some_iff] at hrun
  obtain ⟨⟨r,h₂⟩,hreg,hout⟩:=hrun
  obtain ⟨rfl,rfl⟩:=Prod.mk.inj hout
  rcases register_cases hreg with ⟨hacc,rfl,t,hrun,rfl⟩|⟨-,hno,rfl⟩
  · have hlive:=honest_viable honest (accepts_viable hacc)
    have hreal:E.Real s.newObj:=⟨hacc.1,hacc.2.1⟩
    refine ⟨hi₁.store haddr hal rfl hreal ?_ hrun,?_,?_⟩
    · rw [hobjs,hlive]
      exact Phase.noConfusion
    · intro obj
      have:=setWeaklyReferenced_counts (E:=E) (h:=h₁.setTable E s.newObj t) s.newObj obj
      exact ⟨this.1.trans (hcounts obj).1,this.2.trans (hcounts obj).2⟩
    · intro x
      rw [write_status,Heap.setWeaklyReferenced,if_pos hreal,if_pos rfl]
      rfl
  · have hid:h₂.setWeaklyReferenced E r=h₂:=if_neg hno
    rw [hid]
    exact ⟨hi₁.write_unreal .live hal rfl hno,hcounts,fun x=>write_status x⟩

theorem register_runs (hi:HeapInv E h D) (obj:Ptr) (options:DeallocatingOptions)
 (v:Viability) (haddr:addr≠0) (hal:Aligned location) (hD:location∈D)
 (hcrash:¬ (options=.crashIfDeallocating ∧ v=.deallocating)) :
 ∃x,h.register E addr obj location options v=some x := by
 rw [Heap.register,weakRegisterNoLock_eq]
 split_ifs with hacc hnil
 · obtain ⟨t,hrun,-⟩:=register_spec (hi.tables (E.sideTable obj)) haddr hacc.1 hal
    fun hmem=>((hi.registered obj hacc.1 location).mp hmem).1 hD
   rw [hrun]
   exact ⟨_,rfl⟩
 · exact ⟨_,rfl⟩
 · exact ⟨_,rfl⟩

theorem storeSection_runs (hi:HeapInv E h ∅) {s:Store} {oldObj:Ptr}
 (hal:Aligned s.location) (hold:s.haveOld=true → h.mem s.location=oldObj)
 (hplain:s.haveOld=false → (h.status s.location).isWeak=false) (haddr:addr≠0)
 (hcrash:s.crashIfDeallocating=true → v≠.deallocating) :
 ∃x,storeSection E h s oldObj addr v=some x := by
 obtain ⟨h₁,hold₁,hi₁,-,-,-⟩:=detach_old hi s hal hold hplain
 rw [storeSection,hold₁,Option.bind_some]
 cases s.haveNew with
 | false=>exact ⟨_,rfl⟩
 | true=>
  obtain ⟨x,hx⟩:=register_runs hi₁ s.newObj
   (if s.crashIfDeallocating then .crashIfDeallocating else .returnNilIfDeallocating) v
   haddr hal rfl (by
    rintro ⟨hopt,hv⟩
    cases hc : s.crashIfDeallocating with
    | true=>exact hcrash hc hv
    | false=>
     rw [hc] at hopt
     cases hopt)
  rw [if_pos rfl,hx]
  exact ⟨_,rfl⟩

theorem HeapInv.move (hi:HeapInv E h D) {dst src:Ptr} (obj:Ptr) (hal:Aligned dst)
 (hdst:dst∈D) (hsrc:src∈D) :
 HeapInv E (((h.write dst obj).write src 0).setStatus dst .live) (D \ {src}) := by
 have hD:HeapInv E (((h.write dst obj).write src 0).setStatus dst .live) D:=by
  refine hi.change_detached rfl rfl (fun x hx=>?_) fun x hx=>?_
  · have hxd:x≠dst:=fun heq=>hx (heq ▸ hdst)
    have hxs:x≠src:=fun heq=>hx (heq ▸ hsrc)
    refine ⟨by rw [setStatus_status,if_neg hxd]; rfl,?_⟩
    simp [Heap.setStatus,Heap.write,hxd,hxs]
  · rw [setStatus_status] at hx
    split_ifs at hx with heq
    · rw [heq]
      exact hal
    · exact hi.aligned x hx
 refine hD.attach_plain fun r hr=>?_
 have hz:=hr.2.1
 rw [Heap.setStatus,Heap.write] at hz
 simp only [update_self] at hz
 exact hr.2.2.1 hz.symm

theorem moveSection_spec (hi:HeapInv E h ∅) {dst src:Ptr} (hdst:Aligned dst)
 (hsrc:Aligned src) (hm:h.mem src=obj) (hweak:(h.status src).isWeak=true)
 (hplain:(h.status dst).isWeak=false) (haddr:addr≠0)
 (hrun:moveSection E h dst src obj addr=some h') :
 HeapInv E h' ∅ ∧ SameCounts h h' ∧
  ∀x,h'.status x=if x=dst then .live else h.status x := by
 have hne:dst≠src:=by grind
 obtain ⟨t,hrun₁,hi₁⟩:=hi.unregister hsrc.ne hm
 have hi₂:=(hi₁.detach_plain dst hplain).move obj hdst (.inl rfl) (.inr (.inl rfl))
 have hempty:(insert dst (insert src ∅) \ {src}) \ {dst}=(∅ : Set Ptr):=by
  ext x
  simp
  tauto
 rw [moveSection,hrun₁,Option.bind_some,Option.map_eq_some_iff] at hrun
 obtain ⟨⟨r,h₂⟩,hreg,rfl⟩:=hrun
 rw [←hempty]
 have hrefers:
  (((h.setTable E obj t).write dst obj).write src 0 |>.setStatus dst .live).mem dst=obj:=by
  simp [Heap.setStatus,Heap.write,hne]
 rcases register_cases hreg with ⟨hacc,-,t₂,hrun₂,rfl⟩|⟨hno,-,rfl⟩
 · have hreal:E.Real obj:=⟨hacc.1,hacc.2.1⟩
   have hold:=hi.weak src obj (Set.notMem_empty src) ⟨hweak,hm,hreal⟩
   obtain ⟨t',hrun',hi₃⟩:=hi₂.register obj haddr hdst ⟨.inl rfl,hne⟩
    ⟨by rw [setStatus_status,if_pos rfl]; rfl,hrefers,hreal⟩ hold.1 hold.2
   obtain rfl : t₂=t':=Option.some.inj (hrun₂.symm.trans hrun')
   exact ⟨hi₃,fun r=>⟨rfl,rfl⟩,setStatus_status dst .live⟩
 · refine ⟨hi₂.attach_plain fun x hx=>?_,fun r=>⟨rfl,rfl⟩,setStatus_status dst .live⟩
   obtain rfl : obj=x:=hrefers.symm.trans hx.2.1
   exact hno ⟨hx.2.2.1,hx.2.2.2,.inl rfl⟩

theorem moveSection_runs (hi:HeapInv E h ∅) {dst src:Ptr} (hdst:Aligned dst)
 (hsrc:Aligned src) (hm:h.mem src=obj) (hplain:(h.status dst).isWeak=false)
 (haddr:addr≠0) : ∃h',moveSection E h dst src obj addr=some h' := by
 obtain ⟨t,hrun,hi₁⟩:=hi.unregister hsrc.ne hm
 obtain ⟨x,hx⟩:=register_runs (hi₁.detach_plain dst hplain) obj .dontCheckDeallocating .viable haddr
  hdst (.inl rfl) fun hc=>by cases hc.1
 grind [moveSection]

theorem clearSection_spec (hi:HeapInv E h ∅) (hreal:E.Real obj) : ∃h',clearSection E h obj=some h' ∧
  HeapInv E (h'.setObj obj {h'.objs obj with phase:=.cleared}) ∅ ∧ h'.objs=h.objs ∧
  h'.status=h.status := by
 rw [clearSection]
 split_ifs with hbit
 · obtain ⟨t,mem,hrun,ht,hrefs,hmem⟩ :=
    clear_spec (hi.tables (E.sideTable obj)) hreal.1 h.mem
   have hcleared:∀x r,({h.setTable E obj t with mem:=mem} : Heap).Refers E x r ↔
    h.Refers E x r ∧ r≠obj := by
    intro x r
    change (h.status x).isWeak=true ∧ mem x=r ∧ E.Real r ↔ _
    rw [hmem]
    split_ifs with hx
    · refine ⟨fun hr=>absurd hr.2.1.symm hr.2.2.1,fun hr=>absurd ?_ hr.2⟩
      exact hr.1.2.1.symm.trans hx.2
    · refine ⟨fun hr=>⟨hr,fun heq=>hx ⟨?_,hr.2.1.trans heq⟩⟩,And.left⟩
      subst heq
      exact (hi.registered r hreal.1 x).mpr ⟨Set.notMem_empty x,hr⟩
   refine ⟨{h.setTable E obj t with mem:=mem},by rw [hrun]; rfl,
    ⟨fun i=>?_,fun r hr x=>?_,fun x r _ hxr=>?_,hi.aligned⟩,
    rfl,rfl⟩
   · change TableWf (update h.tables (E.sideTable obj) t i)
     grind [hi.tables]
   · change x∈referrersOf ((h.setTable E obj t).tables (E.sideTable r)) r ↔
      x ∉ ∅ ∧ ({h.setTable E obj t with mem:=mem} : Heap).Refers E x r
     grind [setTable_tables,hi.registered]
   · obtain ⟨hold,hne⟩:=(hcleared x r).mp hxr
     have hobj:update h.objs obj {h.objs obj with phase:=.cleared} r=h.objs r :=
      update_of_ne hne ..
     change (update h.objs obj {h.objs obj with phase:=.cleared} r).weak=true ∧
      (update h.objs obj {h.objs obj with phase:=.cleared} r).phase≠.cleared
     grind [hi.weak]
 · grind [hi.setObj,hi.weak]

end ObjcRuntime.WeakReferences
