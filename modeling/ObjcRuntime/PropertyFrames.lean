import ObjcRuntime.ClassLists

/-!
# Whose property is replaced

`class_replaceProperty` looks a property up through the superclasses and writes to the one it
finds, whatever class that belongs to.
-/

set_option autoImplicit false
namespace ObjcRuntime.ClassLists

open ListArrays

variable {s t:State} {c d cls k:Cls} {name attrs:String} {l new:ℕ} {r:ℕ × ℕ}

structure Hierarchy (s:State) : Prop where
 coherent : ∀{c p:Cls} {rest:List Cls},s.superclasses c=p::rest → s.superclasses p=rest
 live : ∀c,s.Live c .properties

def State.Below (s:State) (cls k:Cls) : Prop := cls∈k::s.superclasses k

variable {p:Cls} {cs:List Cls}

theorem Hierarchy.suffix (h:Hierarchy s) (hp:p∈s.superclasses c) :
 p::s.superclasses p <:+ s.superclasses c := by
 generalize hcs : s.superclasses c=cs at hp
 induction cs generalizing c with
 | nil=>cases hp
 | cons q rest ih=>
  have hq:=h.coherent hcs
  grind

theorem Hierarchy.below_trans (h:Hierarchy s) (hd:d∈k::s.superclasses k)
 (hcls:s.Below cls d) : s.Below cls k := by
 rcases List.mem_cons.mp hd with rfl|hd
 · exact hcls
 · exact List.mem_cons_of_mem _ ((h.suffix hd).mem hcls)

theorem searchProperty_some (h:s.searchProperty name cs=some (some r)) :
 ∃d∈cs,(∃ls,s.lists d .properties=some ls ∧ r.1∈ls) ∧
  ∃p : Property,(s.mem .properties).get r=some p ∧ p.name=name := by
 induction cs with
 | nil=>cases h
 | cons c rest ih=>
  obtain ⟨ls,hls,h⟩:=Option.bind_eq_some_iff.mp h
  split at h
  · case h_1 q hq =>
    obtain rfl:=Option.some.inj (Option.some.inj h)
    obtain ⟨hin,p,hp,hname⟩:=Memory.locate_some hq
    grind
  · grind

theorem searchProperty_congr (hlists:∀d∈cs,t.lists d .properties=s.lists d .properties)
 (hnames:∀d∈cs,∀ls,s.lists d .properties=some ls → ∀l∈ls,
  ((t.mem .properties).list l).findIdx? (fun p:Property=>p.name=name) =
    ((s.mem .properties).list l).findIdx? fun p : Property=>p.name=name) :
 t.searchProperty name cs=s.searchProperty name cs := by
 induction cs with
 | nil=>rfl
 | cons c rest ih=>
  have hrest:=ih (fun d hd=>hlists d (List.mem_cons_of_mem _ hd))
   fun d hd=>hnames d (List.mem_cons_of_mem _ hd)
  rw [State.searchProperty,State.searchProperty,hlists c List.mem_cons_self]
  cases hls : s.lists c .properties with
  | none=>rfl
  | some ls=>
   have hlocate:=Memory.locate_congr (hnames c List.mem_cons_self ls hls)
   simp only [Option.bind_some,hlocate,hrest]

theorem searchProperty_isSome (h:∀d∈cs,(s.lists d .properties).isSome) :
 (s.searchProperty name cs).isSome := by
 induction cs with
 | nil=>rfl
 | cons c rest ih=>grind [Option.isSome_iff_exists,State.searchProperty]

theorem setAttributes_list (l:ℕ) : ((s.setAttributes r attrs).mem .properties).list l =
 if l=r.1 then ((s.mem .properties).list r.1).modify r.2
  fun p : Property=>{p with attributes:=attrs}
 else (s.mem .properties).list l := by
 rw [State.setAttributes,modify_self,Memory.modify_list]

theorem findIdx?_modify (ps:List Property) (i:ℕ) :
 (ps.modify i fun p=>{p with attributes:=attrs}).findIdx? (fun p=>p.name=name) =
  ps.findIdx? fun p=>p.name=name := by
 induction ps generalizing i with
 | nil=>rw [List.modify_nil]
 | cons p ps ih=>grind

theorem getProperty_setAttributes :
 (s.setAttributes r attrs).getProperty k name=s.getProperty k name := by
 refine searchProperty_congr (fun d _=>modify_lists) fun d _ ls _ l _=>?_
 rw [setAttributes_list]
 split
 · case isTrue hl=>rw [findIdx?_modify,hl]
 · rfl

theorem get_setAttributes (q:ℕ × ℕ) : ((s.setAttributes r attrs).mem .properties).get q =
 if q=r then ((s.mem .properties).get r).map fun p : Property=>{p with attributes:=attrs}
 else (s.mem .properties).get q := by
 obtain ⟨l,i⟩:=q
 grind [Memory.get,setAttributes_list]

theorem attributes_setAttributes {q:Option (ℕ × ℕ)} (hq:s.getProperty k name=some q)
 (hne:q≠some r) : (s.setAttributes r attrs).attributes k name=s.attributes k name := by
 rw [State.attributes,State.attributes,getProperty_setAttributes,hq]
 cases q with
 | none=>rfl
 | some q=>grind [get_setAttributes]

theorem attributes_replaced (hr:s.getProperty k name=some (some r)) :
 (s.setAttributes r attrs).attributes k name=some (some attrs) := by
 obtain ⟨d,-,-,p,hp,-⟩:=searchProperty_some hr
 grind [State.attributes,getProperty_setAttributes,get_setAttributes]

theorem attributes_congr (hsuper:t.superclasses k=s.superclasses k)
 (hsame:∀d∈k::s.superclasses k,Same d .properties s t)
 (hlist:∀d∈k::s.superclasses k,∀ls,s.lists d .properties=some ls → ∀l∈ls,
  (t.mem .properties).list l=(s.mem .properties).list l) :
 t.attributes k name=s.attributes k name := by
 have hget:t.getProperty k name=s.getProperty k name:=by
  rw [State.getProperty,State.getProperty,hsuper]
  refine searchProperty_congr (fun d hd=>(hsame d hd).lists) fun d hd ls hls l hl=>?_
  rw [hlist d hd ls hls l hl]
 rw [State.attributes,State.attributes,hget]
 cases hq : s.getProperty k name with
 | none=>rfl
 | some q=>
  cases q with
  | none=>rfl
  | some q=>
   obtain ⟨d,hd,⟨ls,hls,hin⟩,-⟩:=searchProperty_some hq
   grind [Memory.get]

theorem add_list {j:Kind} {es:List (Elem j)} (h:AttachedTo c j [l] (s.newList j l es) t)
 (m:ℕ) : (t.mem j).list m=if m=l then es else (s.mem j).list m := by
 rw [h.attached.list,newList_self]
 exact Function.update_apply ..

section

variable (h:AttachedTo cls .properties [l] (s.newList .properties l [(⟨name,attrs⟩ : Property)]) t)
include h

theorem getProperty_added
 (hlive:s.Live cls .properties) (hl:(s.mem .properties).used l=false) :
 t.getProperty cls name=some (some (l,0)) := by
 obtain ⟨ls,hls⟩:=Option.isSome_iff_exists.mp hlive.isSome
 have hlists:t.lists cls .properties=some (l::ls):=by
  rw [h.lists,(hlive.newList hl _).lists,hls]
  rfl
 grind [Memory.locate,add_list,State.getProperty,State.searchProperty]

theorem attributes_added
 (hlive:s.Live cls .properties) (hl:(s.mem .properties).used l=false) :
 t.attributes cls name=some (some attrs) := by
 rw [State.attributes,getProperty_added h hlive hl,Option.map_some,Option.bind_some,Memory.get,
  add_list h,if_pos rfl]
 rfl

end

/-- No class but the class and its subclasses finds the property that gets new attributes, or has
the array of property lists that is replaced. -/
structure OnlyBelow (s:State) (cls:Cls) (name attrs:String) : Prop where
 found : ∀r,s.getProperty cls name=some (some r) → s.attributes cls name≠some (some attrs) →
  ∀k,¬s.Below cls k → s.getProperty k name≠some (some r)
 missing : s.getProperty cls name=some none →
  ∀k,¬s.Below cls k → ¬(s.word cls .properties).Shares (s.word k .properties)

theorem replaced_frame (hr:s.getProperty cls name=some (some r)) :
 (∀k,¬s.Below cls k → ∀n,(s.setAttributes r attrs).attributes k n=s.attributes k n) ↔
  OnlyBelow s cls name attrs := by
 obtain ⟨-,-,-,p,hp,hname⟩:=searchProperty_some hr
 constructor
 · intro hframe
   refine ⟨fun q hq hne k hk hkq=>?_,fun hnone=>?_⟩
   · obtain rfl : r=q:=Option.some.inj (Option.some.inj (hr.symm.trans hq))
     have hsame:=hframe k hk name
     grind [State.attributes,attributes_replaced]
   · rw [hr] at hnone
     cases hnone
 · intro honly k hk n
   cases hq : s.getProperty k n with
   | none=>
    rw [State.attributes,State.attributes,getProperty_setAttributes,hq]
    rfl
   | some q=>
    by_cases hqr : q=some r
    · subst hqr
      obtain ⟨-,-,-,p',hp',hname'⟩:=searchProperty_some hq
      grind [honly.found,State.attributes,attributes_replaced]
    · exact attributes_setAttributes hq hqr

theorem added_frame (hs:Hierarchy s) (hnone:s.getProperty cls name=some none)
 (hl:(s.mem .properties).used l=false) (h:AttachedTo cls .properties [l]
  (s.newList .properties l [(⟨name,attrs⟩ : Property)]) t) :
 (∀k,¬s.Below cls k → ∀n,t.attributes k n=s.attributes k n) ↔
  OnlyBelow s cls name attrs := by
 have hsuper:t.superclasses=s.superclasses:=h.superclasses
 constructor
 · intro hframe
   refine ⟨fun r hr=>?_,fun _ k hk hsh=>?_⟩
   · rw [hnone] at hr
     cases hr
   · have hkc:k≠cls:=fun heq=>hk (heq ▸ List.mem_cons_self)
     have hfreed:t.lists k .properties=none:=by
      rw [State.lists,h.others k .properties fun hkc'=>hkc hkc'.1]
      exact h.attached.freed _ hsh (List.cons_ne_nil _ _)
     have hread:(s.getProperty k name).isSome :=
      searchProperty_isSome fun d _=>(hs.live d).isSome
     have hsame:=hframe k hk name
     grind [State.attributes,State.getProperty,State.searchProperty,Option.isSome_map]
 · intro honly k hk n
   have hsame:∀d∈k::s.superclasses k,Same d .properties s t:=by
    intro d hd
    have hout:¬s.Below cls d:=fun hbelow=>hk (hs.below_trans hd hbelow)
    refine add_same h hl (fun hdc=>hout (hdc.1 ▸ List.mem_cons_self)) (hs.live d) fun _=>?_
    exact honly.missing hnone d hout
   refine attributes_congr (congrFun hsuper k) hsame fun d hd ls hls m hm=>?_
   obtain ⟨ls',hls',hused⟩:=hs.live d
   obtain rfl:=Option.some.inj (hls.symm.trans hls')
   rw [add_list h,if_neg]
   rintro rfl
   rw [hused m hm] at hl
   cases hl

/-- After `class_replaceProperty` the class finds the new attributes. The classes that are not below
it find what they found exactly if none of them finds the property that was written to, and none has
the array that was freed. -/
theorem replaceProperty_only_below (s:State) (hs:Hierarchy s) (cls:Cls) (name attrs:String)
 (l new:ℕ) (hl:(s.mem .properties).used l=false)
 (hnew:(s.mem .properties).array new=none) :
 ∃t,s.addProperty cls name attrs true l new=some t ∧ t.attributes cls name=some (some attrs) ∧
  ((∀k,¬s.Below cls k → ∀n,t.attributes k n=s.attributes k n) ↔
    OnlyBelow s cls name attrs) := by
 have hread:(s.getProperty cls name).isSome :=
  searchProperty_isSome fun d _=>(hs.live d).isSome
 obtain ⟨found,hfound⟩:=Option.isSome_iff_exists.mp hread
 rw [State.addProperty,hfound,Option.bind_some]
 cases found with
 | some r=>exact ⟨_,rfl,attributes_replaced hfound,replaced_frame hfound⟩
 | none=>
  obtain ⟨t,ht,hatt⟩:=add_spec (hs.live cls) hnew [(⟨name,attrs⟩ : Property)] hl
  exact ⟨t,ht,attributes_added hatt (hs.live cls) hl,added_frame hs hfound hl hatt⟩

section Samples

/-- Classes 1 and 2 are subclasses of class 0, which has a property `a` as class 3 does. -/
def subclassState : State where
 superclasses c := if c=1 ∨ c=2 then [0] else []
 data c := ⟨fun k=>if k=.properties ∧ c % 3=0 then some (20+c) else none,none⟩
 mem
  | .methods=>⟨fun _=>[],fun _=>false,fun _=>none⟩
  | .properties=>⟨fun _=>[(⟨"a","Ti"⟩ : Property)],fun l=>20≤l,fun _=>none⟩
  | .protocols=>⟨fun _=>[],fun _=>false,fun _=>none⟩

theorem subclassState_lists (c:Cls) :
 subclassState.lists c .properties=some (if c % 3=0 then [20+c] else []) := by
 have hword:subclassState.word c .properties=.list (if c % 3=0 then some (20+c) else none) := by
  simp [State.word,subclassState,ClassRw.word]
 rw [State.lists,hword]
 split <;> rfl

theorem subclassState_hierarchy : Hierarchy subclassState where
 coherent := by grind [subclassState]
 live c := by
  refine ⟨_,subclassState_lists c,fun l hl=>decide_eq_true ?_⟩
  split at hl
  · exact List.mem_singleton.mp hl ▸ Nat.le_add_right 20 c
  · cases hl

/-- Replacing `a` in one subclass replaces it in the superclass and in the other subclass. -/
theorem sibling_property_replaced : ∃t,Hierarchy subclassState ∧
 ¬subclassState.Below 1 0 ∧ ¬subclassState.Below 1 2 ∧
 subclassState.addProperty 1 "a" "Tq" true 10 31=some t ∧
 subclassState.attributes 0 "a" = some (some "Ti") ∧ t.attributes 0 "a" = some (some "Tq") ∧
 subclassState.attributes 2 "a" = some (some "Ti") ∧ t.attributes 2 "a" = some (some "Tq") := by
 refine ⟨_,subclassState_hierarchy,?_,?_,rfl,rfl,rfl,rfl,rfl⟩
 · unfold State.Below
   decide
 · unfold State.Below
   decide

/-- Replacing `a` in class 0 leaves that of class 3 alone. -/
theorem own_property_replaced : ∃t,subclassState.addProperty 0 "a" "Tq" true 10 31=some t ∧
 t.attributes 0 "a" = some (some "Tq") ∧ t.attributes 3 "a" = some (some "Ti") := by
 obtain ⟨t,ht,hattrs,hframe⟩:=replaceProperty_only_below subclassState subclassState_hierarchy
  0 "a" "Tq" 10 31 rfl rfl
 have honly:OnlyBelow subclassState 0 "a" "Tq":=by
  refine ⟨fun r hr _ k hk hkr=>?_,nofun⟩
  obtain rfl : (20,0)=r:=Option.some.inj (Option.some.inj hr)
  obtain ⟨d,hd,⟨ls,hls,hin⟩,-⟩:=searchProperty_some hkr
  rw [subclassState_lists] at hls
  grind [State.Below]
 have hout:¬subclassState.Below 0 3:=by
  unfold State.Below
  decide
 exact ⟨t,ht,hattrs,(hframe.mpr honly 3 hout "a").trans rfl⟩

end Samples

end ObjcRuntime.ClassLists
