import ObjcRuntime.ClassOperations

/-!
# What a lookup without caches answers

The IMP of the first method found in the class and its superclasses, or the forwarding IMP.
-/

set_option autoImplicit false
namespace ObjcRuntime.ClassGraph

open MethodLookup (Sel Imp MethodImp Cache msgForwardImpcache)
open Function

variable {preopt:Bool} {s t u:State preopt} {prog:Program}

inductive Answer (s:State preopt) (sel:Sel) : Cls → Imp → Prop
 | own {c:Cls} {imp:MethodImp} : ownImp s c sel=some imp → Answer s sel c imp
 | inherited {c p:Cls} {imp:Imp} : ownImp s c sel=none → s.superclass c=some p →
  Answer s sel p imp → Answer s sel c imp
 | missing {c:Cls} : ownImp s c sel=none → s.superclass c=none → Answer s sel c msgForwardImpcache

namespace Answer

variable {sel:Sel} {c:Cls} {imp imp':Imp}

theorem unique (h:Answer s sel c imp) (h':Answer s sel c imp') : imp=imp' := by
 induction h with
 | own hown=>
  cases h' with
  | own hown'=>rw [hown,Option.some.injEq] at hown'; rw [hown']
  | inherited hnone | missing hnone=>rw [hown] at hnone; cases hnone
 | inherited hnone hp _ ih=>
  cases h' with
  | own hown=>rw [hown] at hnone; cases hnone
  | inherited _ hp' hanswer=>grind
  | missing _ hroot=>rw [hp] at hroot; cases hroot
 | missing hnone hroot=>
  cases h' with
  | own hown=>rw [hown] at hnone; cases hnone
  | inherited _ hp=>rw [hroot] at hp; cases hp
  | missing=>rfl

theorem exists_of_noCycle (hcycle:NoCycle s.superclass) (sel:Sel) (c:Cls) :
 ∃imp,Answer s sel c imp := by
 obtain ⟨rank,hrank⟩:=hcycle
 induction hn : rank c using Nat.strong_induction_on generalizing c with
 | _ n ih=>
  cases hown : ownImp s c sel with
  | some imp=>exact ⟨imp,.own hown⟩
  | none=>
   cases hp : s.superclass c with
   | none=>exact ⟨_,.missing hown hp⟩
   | some p=>
    obtain ⟨imp,himp⟩:=ih (rank p) (hn ▸ hrank hp) p rfl
    exact ⟨imp,.inherited hown hp himp⟩

theorem congr (h:Answer s sel c imp) (hsame:∀d,Ancestor s d c → t.superclass d=s.superclass d ∧
  ownImp t d sel=ownImp s d sel) : Answer t sel c imp := by
 induction h with
 | own hown=>exact .own ((hsame _ .refl).2.trans hown)
 | @inherited c p imp hnone hp _ ih=>
  obtain ⟨hsuper,hown⟩:=hsame _ .refl
  exact .inherited (hown.trans hnone) (hsuper.trans hp) (ih fun d hd=>hsame d (.head hp hd))
 | missing hnone hroot=>
  obtain ⟨hsuper,hown⟩:=hsame _ .refl
  exact .missing (hown.trans hnone) (hsuper.trans hroot)

end Answer

theorem ownImp_congr {c:Cls} (h:t.lists c=s.lists c) (sel:Sel) : ownImp t c sel=ownImp s c sel := by
 rw [ownImp,ownImp,h]

theorem refIn_method {sel:Sel} {k i j:ℕ} {ls:List (List Method)} (h:refIn sel k ls=some (i,j)) :
 k ≤ i ∧ ∃m,(ls[i-k]?.bind fun l=>l[j]?)=some m ∧ m.name=sel := by
 induction ls generalizing k with
 | nil=>cases h
 | cons l newer ih=>
  rw [refIn,Option.or_eq_some_iff] at h
  rcases h with h|⟨-,h⟩
  · grind
  · grind [Option.map_eq_some_iff,List.findIdx?_eq_some_iff_getElem]

variable {m:MethodRef} {old:Method}

theorem getMethodNoSuper_name {cls:Cls} {sel:Sel} (h:getMethodNoSuper s cls sel=some m)
 (hold:s.method m=some old) : old.name=sel := by
 obtain ⟨⟨i,j⟩,hr,rfl⟩:=Option.map_eq_some_iff.mp h
 obtain ⟨-,m,hm,hname⟩:=refIn_method hr
 have hold:((s.lists cls)[i]?.bind fun l=>l[j]?)=some old:=hold
 grind

theorem find?_modify {sel:Sel} {imp:MethodImp} (l:List Method) (i:ℕ) (hold:l[i]?=some old) :
 ((l.modify i fun x=>{x with imp:=imp}).find? fun m=>m.name=sel).map (·.imp) =
  (l.find? fun m=>m.name=sel).map (·.imp) ∨
  sel=old.name ∧ (l.find? fun m=>m.name=sel)=some old := by
 induction l generalizing i with
 | nil=>cases hold
 | cons x l ih=>grind

theorem methodIn_modify {sel:Sel} {imp:MethodImp} (ls:List (List Method)) (k i:ℕ)
 (hold:(ls[k]?.bind fun l=>l[i]?)=some old) :
 (methodIn sel (ls.modify k fun l=>l.modify i fun x=>{x with imp:=imp})).map (·.imp) =
  (methodIn sel ls).map (·.imp) ∨
  sel=old.name ∧ methodIn sel ls=some old := by
 induction ls generalizing k with
 | nil=>cases hold
 | cons l newer ih=>
  cases k with
  | zero=>
   rw [List.modify_zero_cons,methodIn,methodIn]
   cases hnewer : methodIn sel newer with
   | some m=>exact .inl rfl
   | none=>exact find?_modify l i hold
  | succ k=>grind [methodIn]

theorem setImp_ownImp {imp:MethodImp} (hold:s.method m=some old) (d:Cls) (sel:Sel) :
 ownImp (setImp m imp s) d sel=ownImp s d sel ∨
  (d=m.cls ∧ sel=old.name) ∧ ownImp s d sel=some old.imp := by
 by_cases hd : d=m.cls
 · subst hd
   have hlists:(setImp m imp s).lists m.cls=(s.lists m.cls).modify m.list fun l =>
    l.modify m.index fun x=>{x with imp:=imp} := update_self ..
   rw [ownImp,ownImp,hlists]
   rcases methodIn_modify (s.lists m.cls) m.list m.index hold with hsame|⟨hsel,hfound⟩
   · exact .inl hsame
   · grind
 · exact .inl (ownImp_congr (update_of_ne hd ..) sel)

theorem setImp_method {m':MethodRef} (hold:s.method m'=some old) :
 ∃mid,(setImp m old.imp s).method m'=some mid ∧ mid.name=old.name ∧ mid.imp=old.imp := by
 by_cases hcls : m'.cls=m.cls
 · obtain ⟨l,hl,hold⟩:=Option.bind_eq_some_iff.mp hold
   have hlists:(setImp m old.imp s).lists m'.cls=(s.lists m.cls).modify m.list fun l =>
    l.modify m.index fun x=>{x with imp:=old.imp} := by
    rw [hcls]
    exact update_self ..
   grind [State.method]
 · refine ⟨old,?_,rfl,rfl⟩
   rw [State.method,show (setImp m old.imp s).lists m'.cls=s.lists m'.cls from
    update_of_ne hcls ..]
   exact hold

theorem findIdx?_modify {sel:Sel} {imp:MethodImp} (l:List Method) (i:ℕ) :
 ((l.modify i fun x=>{x with imp:=imp}).findIdx? fun m=>m.name=sel) =
   l.findIdx? fun m=>m.name=sel := by
 induction l generalizing i with
 | nil=>cases i <;> rfl
 | cons x l ih=>grind

theorem refIn_modify {sel:Sel} {imp:MethodImp} (ls:List (List Method)) (k a i:ℕ) :
 refIn sel k (ls.modify a fun l=>l.modify i fun x=>{x with imp:=imp}) =
  refIn sel k ls := by
 induction ls generalizing k a with
 | nil=>cases a <;> rfl
 | cons l newer ih=>
  cases a with
  | zero=>rw [List.modify_zero_cons,refIn,refIn,findIdx?_modify]
  | succ a=>rw [List.modify_succ_cons,refIn,refIn,ih]

theorem setImp_getMethodNoSuper {imp:MethodImp} (c:Cls) (sel:Sel) :
 getMethodNoSuper (setImp m imp s) c sel=getMethodNoSuper s c sel := by
 rw [getMethodNoSuper,getMethodNoSuper]
 by_cases hc : c=m.cls
 · subst hc
   rw [show (setImp m imp s).lists m.cls=(s.lists m.cls).modify m.list fun l =>
    l.modify m.index fun x=>{x with imp:=imp} from update_self ..,refIn_modify]
 · rw [show (setImp m imp s).lists c=s.lists c from update_of_ne hc ..]

theorem methodSetImplementation_getMethodNoSuper {cls:Option Cls} {imp:MethodImp}
 (ht:methodSetImplementation prog cls m imp s=some t) (c:Cls) (sel:Sel) :
 getMethodNoSuper t c sel=getMethodNoSuper s c sel := by
 rw [methodSetImplementation] at ht
 split at ht
 · cases ht
   rfl
 · obtain ⟨u,hu,ht⟩:=Option.bind_eq_some_iff.mp ht
   have hlists:t.lists c=(setImp m imp s).lists c :=
    ((adjustCustomFlags_touched (X:=∅) ht).lists (Set.notMem_empty c)).trans
      ((flushCaches_touched (X:=∅) hu).lists (Set.notMem_empty c))
   rw [getMethodNoSuper,hlists]
   exact setImp_getMethodNoSuper c sel

/-- Own methods change only where `K` names the class, the selector and the old IMP. -/
def Varies (K:Cls → Sel → Imp → Prop) (s t:State preopt) : Prop :=
 ∀d sel,ownImp t d sel=ownImp s d sel ∨ ∃imp,ownImp s d sel=some imp ∧ K d sel imp

theorem Varies.trans {K:Cls → Sel → Imp → Prop} (h:Varies K s t) (h':Varies K t u) :
 Varies K s u := by
 intro d sel
 rcases h d sel with hsame|hvaries
 · rcases h' d sel with hsame'|⟨imp,himp,hK⟩
   · exact .inl (hsame'.trans hsame)
   · exact .inr ⟨imp,hsame ▸ himp,hK⟩
 · exact .inr hvaries

theorem Answer.varies {K:Cls → Sel → Imp → Prop} {sel:Sel} {c:Cls} {imp:Imp}
 (h:Answer s sel c imp) (hvaries:Varies K s t)
 (hsuper:∀d,t.superclass d=s.superclass d) :
 Answer t sel c imp ∨ ∃d,Ancestor s d c ∧ K d sel imp := by
 induction h with
 | @own c imp hown=>
  rcases hvaries c sel with hsame|⟨i,hi,hK⟩
  · exact .inl (.own (hsame.trans hown))
  · rw [hown,Option.some.injEq] at hi
    exact .inr ⟨c,.refl,hi ▸ hK⟩
 | @inherited c p imp hnone hp _ ih=>
  rcases hvaries c sel with hsame|⟨i,hi,-⟩
  · rcases ih with hanswer|⟨d,hd,hK⟩
    · exact .inl (.inherited (hsame.trans hnone) ((hsuper c).trans hp) hanswer)
    · exact .inr ⟨d,.head hp hd,hK⟩
  · rw [hnone] at hi
    cases hi
 | @missing c hnone hroot=>
  rcases hvaries c sel with hsame|⟨i,hi,-⟩
  · exact .inl (.missing (hsame.trans hnone) ((hsuper c).trans hroot))
  · rw [hnone] at hi
    cases hi

theorem searchChain_answer {sel:Sel} {attempts:ℕ} {c:Cls} {imp:Imp}
 (hcache:∀{d:Cls} {i:Imp},Ancestor s d c → s.getImp d sel=some i → Answer s sel d i)
 (h:searchChain sel s attempts c=some imp) : Answer s sel c imp := by
 fun_induction searchChain sel s attempts c with
 | case1 attempts c i hown=>
  cases h
  exact .own hown
 | case2 attempts c hown hp=>
  cases h
  exact .missing hown hp
 | case3=>cases h
 | case4 c hown attempts p hp i hi=>
  cases h
  exact .inherited hown hp (hcache (.single hp) hi)
 | case5 c hown attempts p hp hmiss ih=>
  exact .inherited hown hp (ih (fun hd=>hcache (.head hp hd)) h)

end ObjcRuntime.ClassGraph
