import ObjcRuntime.ClassLists

/-!
# The lists of a duplicated class

`objc_duplicateClass` copies the method lists of a class but only the words for its property and
protocol lists, so attaching to one of the two classes may free the array of the other.
-/

set_option autoImplicit false
namespace ObjcRuntime.ClassLists

open ListArrays
open MethodLookup (Sel MethodImp)
open Function

variable {conforms:Protocol → Protocol → Bool} {c o:Cls} {k:Kind} {s t:State}
 {added:List ℕ} {l new:ℕ}

structure Apart (c o:Cls) (s:State) : Prop where
 ne : c≠o
 live : ∀k,s.Live c k
 liveOther : ∀k,s.Live o k
 methods : ∀lc lo,s.lists c .methods=some lc → s.lists o .methods=some lo → lc.Disjoint lo
 array : ¬(s.word c .methods).Shares (s.word o .methods)

variable {r:ℕ × ℕ}

namespace Apart

theorem symm (h:Apart c o s) : Apart o c s where
 ne := h.ne.symm
 live := h.liveOther
 liveOther := h.live
 methods lc lo hc ho := (h.methods lo lc ho hc).symm
 array := by
  rintro ⟨a,ho,hc⟩
  exact h.array ⟨a,hc,ho⟩

theorem of_lists (h:Apart c o s) (hword:t.word=s.word) (hc:∀j,t.lists c j=s.lists c j ∧ t.Live c j)
 (ho:∀j,t.lists o j=s.lists o j ∧ t.Live o j) : Apart c o t where
 ne := h.ne
 live k := (hc k).2
 liveOther k := (ho k).2
 methods lc lo hlc hlo := h.methods lc lo ((hc _).1.symm.trans hlc) ((ho _).1.symm.trans hlo)
 array := hword ▸ h.array

theorem newList (h:Apart c o s) (hl:(s.mem k).used l=false) (es:List (Elem k)) :
 Apart c o (s.newList k l es) :=
 h.of_lists rfl
  (fun j=>⟨((h.live j).newList hl es).lists,((h.live j).newList hl es).live⟩)
  fun j=>⟨((h.liveOther j).newList hl es).lists,((h.liveOther j).newList hl es).live⟩

theorem attach (h:Apart c o s) (hatt:AttachedTo c k added s t)
 (hused:∀l∈added,(s.mem k).used l=true)
 (hsh:added≠[] → ¬(s.word c k).Shares (s.word o k))
 (hmethods:k=.methods → ∀lo,s.lists o .methods=some lo → added.Disjoint lo) :
 Apart c o t ∧ ∀j,Same o j s t := by
 have ho:∀j,Same o j s t:=fun j=>by grind [hatt.same,h.ne,h.liveOther]
 have hc:∀{j},j≠k → Same c j s t:=fun {j} hj =>
  hatt.same (fun hc=>hj hc.2) (h.live j) fun hjk=>absurd hjk hj
 refine ⟨⟨h.ne,fun j=>?_,fun j=>(ho j).live,fun lc lo hlc hlo=>?_,fun hshares=>?_⟩,ho⟩
 · by_cases hj : j=k
   · subst hj
     exact hatt.live (h.live j) hused
   · exact (hc hj).live
 · rw [(ho .methods).lists] at hlo
   by_cases hk : Kind.methods=k
   · subst hk
     obtain ⟨ls,hls,-⟩:=h.live .methods
     grind [hatt.lists,List.disjoint_append_left,h.methods]
   · exact h.methods lc lo ((hc hk).lists.symm.trans hlc) hlo
 · rw [hatt.others o .methods fun hoc=>h.ne hoc.1.symm] at hshares
   by_cases hk : Kind.methods=k
   · subst hk
     exact h.array (hatt.attached.unshared _ (h.liveOther .methods).isSome hshares).2
   · rw [hatt.others c .methods fun hc=>hk hc.2] at hshares
     exact h.array hshares

theorem modify {f:Elem k → Elem k} (h:Apart c o s) (hr:∀lo,s.lists o k=some lo → r.1∉lo) :
 Apart c o (s.modify k r f) ∧ ∀j,Same o j s (s.modify k r f) := by
 refine ⟨h.of_lists rfl (fun j=>⟨modify_lists,(h.live j).modify⟩)
  fun j=>⟨modify_lists,(h.liveOther j).modify⟩,fun j=>(h.liveOther j).modify_same ?_⟩
 rintro rfl
 exact hr

theorem add {es:List (Elem k)} (h:Apart c o s) (hl:(s.mem k).used l=false)
 (hnew:(s.mem k).array new=none) (hsh:¬(s.word c k).Shares (s.word o k))
 (ht:s.add c k es l new=some t) : Apart c o t ∧ ∀j,Same o j s t := by
 obtain ⟨u,hu,hatt⟩:=add_spec (h.live k) hnew es hl
 obtain rfl:=Option.some.inj (hu.symm.trans ht)
 have hsame:∀j,Same o j s (s.newList k l es):=fun j=>(h.liveOther j).newList hl es
 have hused:∀m∈[l],((s.newList k l es).mem k).used m=true:=fun m hm=>by
  grind [newList_self,newList_used]
 obtain ⟨hapart,ho⟩:=(h.newList hl es).attach hatt hused (fun _=>hsh) (by
  rintro rfl lo hlo m hm hin
  rw [(hsame .methods).lists] at hlo
  obtain ⟨ls,hls,hin'⟩:=h.liveOther .methods
  obtain rfl:=Option.some.inj (hlo.symm.trans hls)
  rw [List.mem_singleton.mp hm] at hin
  rw [hin' l hin] at hl
  cases hl)
 exact ⟨hapart,fun j=>(hsame j).trans (ho j)⟩

end Apart

namespace Op

/-- What the callers see to: free memory for what is new, a method of the class itself, and
categories whose method lists are not yet in the other class. -/
def Legal (c o:Cls) : Op → State → Prop
 | .addMethod _ _ _ l new,s=>
  (s.mem .methods).used l=false ∧ (s.mem .methods).array new=none
 | .setImplementation r _,s=>∃ls,s.lists c .methods=some ls ∧ r.1∈ls
 | .addProperty _ _ _ l new,s=>
  (s.mem .properties).used l=false ∧ (s.mem .properties).array new=none
 | .addProtocol _ l new,s=>
  (s.mem .protocols).used l=false ∧ (s.mem .protocols).array new=none
 | .attachLists k added new,s=>(s.mem k).array new=none ∧ (∀l∈added,(s.mem k).used l=true) ∧
  (k=.methods → ∀lo,s.lists o .methods=some lo → added.Disjoint lo)

/-- The class and the other have no array of properties or protocols in common when it is replaced,
and a property is not replaced in a list that the other has too. -/
def Separate (conforms:Protocol → Protocol → Bool) (c o:Cls) : Op → State → Prop
 | .addMethod ..,_=>True
 | .setImplementation ..,_=>True
 | .addProperty name _ replace _ _,s=>
  (∀r,s.getProperty c name=some (some r) → replace=true →
   ∀lo,s.lists o .properties=some lo → r.1∉lo) ∧
  (s.getProperty c name=some none → ¬(s.word c .properties).Shares (s.word o .properties))
 | .addProtocol proto _ _,s=>
  s.conformsToProtocol conforms c proto=some false →
   ¬(s.word c .protocols).Shares (s.word o .protocols)
 | .attachLists k added _,s=>k≠.methods → added≠[] → ¬(s.word c k).Shares (s.word o k)

end Op

theorem getMethodNoSuper_some {sel:Sel} (h:s.getMethodNoSuper c sel=some (some r)) :
 ∃ls,s.lists c .methods=some ls ∧ r.1∈ls := by
 obtain ⟨ls,hls,hr⟩:=Option.map_eq_some_iff.mp h
 exact ⟨ls,hls,(Memory.locate_some hr).1⟩

theorem Apart.not_mem (h:Apart c o s) (hr:∃ls,s.lists c .methods=some ls ∧ r.1∈ls)
 {lo:List ℕ} (hlo:s.lists o .methods=some lo) : r.1∉lo := by
 obtain ⟨ls,hls,hin⟩:=hr
 exact h.methods ls lo hls hlo hin

theorem Apart.step {op:Op} (h:Apart c o s) (hlegal:op.Legal c o s)
 (hsep:op.Separate conforms c o s) (ht:op.step conforms c s=some t) :
 Apart c o t ∧ ∀j,Same o j s t := by
 have hsame:Apart c o s ∧ ∀j,Same o j s s:=⟨h,fun j=>(h.liveOther j).same⟩
 cases op with
 | addMethod name imp replace l new=>
  obtain ⟨found,hfound,ht⟩:=Option.bind_eq_some_iff.mp ht
  cases found with
  | none=>exact h.add hlegal.1 hlegal.2 h.array ht
  | some r=>
   obtain rfl:=Option.some.inj ht
   cases replace with
   | false=>exact hsame
   | true=>exact h.modify fun lo hlo=>h.not_mem (getMethodNoSuper_some hfound) hlo
 | setImplementation r imp=>
  obtain rfl:=Option.some.inj ht
  exact h.modify fun lo hlo=>h.not_mem hlegal hlo
 | addProperty name attrs replace l new=>
  obtain ⟨found,hfound,ht⟩:=Option.bind_eq_some_iff.mp ht
  cases found with
  | none=>exact h.add hlegal.1 hlegal.2 (hsep.2 hfound) ht
  | some r=>
   obtain rfl:=Option.some.inj ht
   cases replace with
   | false=>exact hsame
   | true=>exact h.modify (hsep.1 r hfound rfl)
 | addProtocol proto l new=>
  obtain ⟨found,hfound,ht⟩:=Option.bind_eq_some_iff.mp ht
  cases found with
  | true=>grind
  | false=>exact h.add hlegal.1 hlegal.2 (hsep hfound) ht
 | attachLists k added new=>
  obtain ⟨hnew,hused,hmethods⟩:=hlegal
  obtain ⟨u,hu,hatt⟩:=attachLists_spec (h.live k).isSome hnew added
  obtain rfl:=Option.some.inj (hu.symm.trans ht)
  refine h.attach hatt hused (fun hne=>?_) hmethods
  by_cases hk : k=.methods
  · rw [hk]
    exact h.array
  · exact hsep hk hne

abbrev Along (conforms:Protocol → Protocol → Bool) (c:Cls) (C:Op → State → Prop) :
 List Op → State → Prop := PartialRuns.Along (Op.step conforms c) C

theorem Apart.run {ops:List Op} (h:Apart c o s)
 (hops:Along conforms c (fun op s=>op.Legal c o s ∧ op.Separate conforms c o s) ops s)
 (ht:run conforms c ops s=some t) : Apart c o t ∧ ∀j,Same o j s t := by
 refine PartialRuns.run_invariant (I:=fun u=>Apart c o u ∧ ∀j,Same o j s u)
  (fun hC hstep hI=>?_) hops ht ⟨h,fun j=>(h.liveOther j).same⟩
 obtain ⟨hapart,hsame⟩:=hI.1.step hC.1 hC.2 hstep
 exact ⟨hapart,fun j=>(hI.2 j).trans (hsame j)⟩

structure Copies (original:Cls) (copies:List ℕ) (new:ℕ) (s:State) : Prop where
 nodup : copies.Nodup
 unused : ∀l∈copies,(s.mem .methods).used l=false
 length : ∀ls,s.lists original .methods=some ls → copies.length=ls.length
 array : (s.mem .methods).array new=none

section Duplicate

variable {original duplicate:Cls} {copies:List ℕ}

structure Duplicated (original duplicate:Cls) (copies:List ℕ) (s t:State) : Prop where
 kept : ∀j,t.word original j=s.word original j
 words : ∀j,j≠.methods → t.word duplicate j=s.word original j
 mems : ∀j,j≠.methods → t.mem j=s.mem j
 copied : Copied (s.mem .methods) (s.word original .methods) copies (t.mem .methods)
  (t.word duplicate .methods)

theorem duplicateClass_duplicated (hne:original≠duplicate) (hlive:s.Live original .methods)
 (hcopies:Copies original copies new s) :
 ∃t,s.duplicateClass original duplicate copies new=some t ∧
  Duplicated original duplicate copies s t := by
 obtain ⟨ls,hls,hused⟩:=hlive
 obtain ⟨m,w,heq,hcopied⟩:=duplicate_spec hls hcopies.array hused hcopies.unused
  hcopies.nodup (hcopies.length ls hls)
 unfold State.duplicateClass
 by_cases hext : ((s.data original).ext.isSome || ((s.data original).base .methods).isSome)=true
 · rw [if_pos hext,heq,Option.map_some]
   refine ⟨_,rfl,fun j=>?_,fun j hj=>?_,fun j hj=>?_,?_⟩
   · simp only [State.word,update_of_ne hne]
   · simp only [State.word,update_self]
     exact update_of_ne hj ..
   · exact update_of_ne hj ..
   · simp only [State.word,update_self,word_ext]
     exact hcopied
 · rw [if_neg hext]
   rw [Bool.or_eq_true,not_or,Option.not_isSome_iff_eq_none,Option.not_isSome_iff_eq_none] at hext
   have hword:(s.data original).word=fun k=>.list ((s.data original).base k):=by
    rw [ClassRw.word,hext.1]
    rfl
   refine ⟨_,rfl,fun j=>?_,fun j hj=>?_,fun j hj=>rfl,?_⟩
   · simp only [State.word,update_of_ne hne]
   · simp only [State.word,update_self,hword]
     rfl
   · have horiginal:s.word original .methods=.list none :=
      (congrFun hword .methods).trans (congrArg WordOf.list hext.2)
     have hduplicate:ClassRw.word ⟨(s.data original).base,none⟩ .methods=.list none :=
      congrArg WordOf.list hext.2
     have hnil:copies=[]:=by
      refine List.eq_nil_of_length_eq_zero (hcopies.length [] ?_)
      rw [State.lists,horiginal]
      rfl
     simp only [State.word,update_self] at horiginal ⊢
     rw [horiginal,hduplicate,hnil]
     exact .nil _

theorem Duplicated.same (h:Duplicated original duplicate copies s t)
 (hlive:∀k,s.Live original k) (j:Kind) : Same original j s t := by
 by_cases hj : j=.methods
 · subst hj
   refine (hlive .methods).same_of (h.kept _) (h.copied.kept _ (hlive _).isSome) ?_ ?_
   · intro ls hls l hl
     obtain ⟨ls',hls',hin⟩:=hlive .methods
     grind [h.copied.list]
   · exact fun l hl=>(h.copied.used l).mpr (.inl hl)
 · refine (hlive j).same_of (h.kept _) ?_ (fun _ _ l _=>?_) fun l hl=>?_
   · rw [h.mems j hj]
   · rw [h.mems j hj]
   · rw [h.mems j hj]
     exact hl

theorem Duplicated.apart (h:Duplicated original duplicate copies s t) (hne:original≠duplicate)
 (hlive:∀k,s.Live original k) (hcopies:Copies original copies new s) :
 Apart original duplicate t := by
 have hsame:=h.same hlive
 have hlists:t.lists duplicate .methods=some copies:=h.copied.lists
 refine ⟨hne,fun k=>(hsame k).live,fun k=>?_,fun lc lo hlc hlo l hl hl'=>?_,?_⟩
 · by_cases hk : k=.methods
   · subst hk
     exact ⟨copies,hlists,fun l hl=>(h.copied.used l).mpr (.inr hl)⟩
   · obtain ⟨ls,hls,hin⟩:=hlive k
     refine ⟨ls,?_,?_⟩
     · rw [State.lists,h.words k hk,h.mems k hk]
       exact hls
     · rw [h.mems k hk]
       exact hin
 · obtain ⟨ls,hls,hin⟩:=hlive .methods
   rw [(hsame _).lists,hls] at hlc
   grind [hcopies.unused]
 · rw [h.kept]
   intro hsh
   obtain ⟨a,ho,hd⟩:=hsh
   exact h.copied.unshared _ (hlive .methods).isSome ⟨a,hd,ho⟩

/-- One of a class and its duplicate is changed by any sequence of operations that meets the
condition at each step: the method, property and protocol lists of the other stay as they were. -/
theorem duplicate_independent (conforms:Protocol → Protocol → Bool) (s:State)
 (original duplicate:Cls) (hne:original≠duplicate) (hlive:∀k,s.Live original k)
 (copies:List ℕ) (new:ℕ) (hcopies:Copies original copies new s) :
 ∃t,s.duplicateClass original duplicate copies new=some t ∧
  ∀c o,c=original ∧ o=duplicate ∨ c=duplicate ∧ o=original →
  ∀(ops:List Op) (u:State),
   Along conforms c (fun op s=>op.Legal c o s ∧ op.Separate conforms c o s) ops t →
   run conforms c ops t=some u → ∀k,u.observed o k=t.observed o k := by
 obtain ⟨t,ht,hdup⟩:=duplicateClass_duplicated hne (hlive .methods) hcopies
 have hapart:=hdup.apart hne hlive hcopies
 refine ⟨t,ht,fun c o hpair ops u hops hrun k=>?_⟩
 have hco:Apart c o t:=by
  rcases hpair with ⟨rfl,rfl⟩|⟨rfl,rfl⟩
  · exact hapart
  · exact hapart.symm
 exact ((hco.run hops hrun).2 k).observed

end Duplicate

section Samples

def propertyState (word:Word) : State where
 superclasses _ := []
 data c := ⟨fun _=>none,if c=1 then some fun k=>if k=.properties then word
  else .list none else none⟩
 mem
  | .methods=>⟨fun _=>[],fun _=>false,fun _=>none⟩
  | .properties=>⟨fun l=>if l=20 then [(⟨"a","Ti"⟩ : Property)]
   else if l=21 then [(⟨"b","Ti"⟩ : Property)] else [],
   fun l=>l=20 || l=21,fun a=>if a=10 then some [20,21] else none⟩
  | .protocols=>⟨fun _=>[],fun _=>false,fun _=>none⟩

/-- Adding a property to the duplicate frees the original's array of property lists; replacing one
in the duplicate replaces the original's. -/
theorem original_loses_properties : ∃t u v,
 (propertyState (.array 10)).duplicateClass 1 2 [] 30=some t ∧
 t.observed 1 .properties=some [(⟨"a","Ti"⟩ : Property),(⟨"b","Ti"⟩ : Property)] ∧
 run (fun _ _=>false) 2 [.addProperty "c" "Ti" false 22 11] t=some u ∧
 u.observed 1 .properties=none ∧
 run (fun _ _=>false) 2 [.addProperty "a" "Tq" true 22 11] t=some v ∧
 v.observed 1 .properties=some [(⟨"a","Tq"⟩ : Property),(⟨"b","Ti"⟩ : Property)] := by
 refine ⟨_,_,_,rfl,?_,rfl,?_,rfl,?_⟩
 · rfl
 · rfl
 · rfl

def duplicateOps : List Op :=
 [.addProperty "c" "Ti" false 22 11,.addProperty "c" "Tq" true 23 12]

theorem original_keeps_properties : ∃t u,
 (propertyState (.list (some 20))).duplicateClass 1 2 [] 30=some t ∧
 run (fun _ _=>false) 2 duplicateOps t=some u ∧
 u.observed 1 .properties=some [(⟨"a","Ti"⟩ : Property)] ∧
 u.observed 2 .properties=some [(⟨"c","Tq"⟩ : Property),(⟨"a","Ti"⟩ : Property)] := by
 have hlive:∀k,(propertyState (.list (some 20))).Live 1 k:=by
  rintro (_|_|_)
  · exact ⟨[],rfl,nofun⟩
  · exact ⟨[20],rfl,by decide⟩
  · exact ⟨[],rfl,nofun⟩
 have hcopies:Copies 1 [] 30 (propertyState (.list (some 20))):=by
  refine ⟨List.nodup_nil,nofun,fun ls hls=>?_,rfl⟩
  obtain rfl : []=ls:=Option.some.inj hls
  rfl
 obtain ⟨t,ht,hkept⟩:=duplicate_independent (fun _ _=>false) (propertyState (.list (some 20))) 1 2
  (by decide) hlive [] 30 hcopies
 obtain rfl:=Option.some.inj ht
 refine ⟨_,_,ht,rfl,?_,rfl⟩
 refine (hkept 2 1 (.inr ⟨rfl,rfl⟩) duplicateOps _ ?_ rfl .properties).trans rfl
 refine .cons ⟨⟨rfl,rfl⟩,nofun,fun _=>?_⟩ rfl (.cons ⟨⟨rfl,rfl⟩,fun r hr _ lo hlo=>?_,nofun⟩ rfl
  trivial)
 · rintro ⟨a,heq,-⟩
   cases heq
 · obtain rfl:=Option.some.inj (Option.some.inj hr)
   obtain rfl:=Option.some.inj hlo
   decide

end Samples

end ObjcRuntime.ClassLists
