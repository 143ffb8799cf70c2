import ObjcRuntime.CheckThenAct
import ObjcRuntime.PropertyFrames

/-!
# Threads that add the same property or protocol

`class_addProperty` and `class_addProtocol` hold `runtimeLock` to look, and take it again to add.
-/

set_option autoImplicit false
namespace ObjcRuntime.ClassLists

open ListArrays CheckThenAct Interleaving

variable {s t:State} {cls:Cls} {name:String} {l new:ℕ}

/-- The property lists of the class and its superclasses can be read, and no superclass has the
array of the class. -/
structure PropertyChain (cls:Cls) (s:State) : Prop where
 live : ∀d∈cls::s.superclasses cls,s.Live d .properties
 unshared : ∀d∈s.superclasses cls,d≠cls ∧ ¬(s.word cls .properties).Shares (s.word d .properties)

def insertProperty (cls:Cls) (name attrs:String) (s t:State) : Prop :=
 ∃l new,(s.mem .properties).used l=false ∧ (s.mem .properties).array new=none ∧
  s.add cls .properties [(⟨name,attrs⟩ : Property)] l new=some t

def hasProperty (cls:Cls) (name:String) (s:State) : Bool := (s.getProperty cls name).join.isSome

def propertyCount (cls:Cls) (name:String) (s:State) : ℕ :=
 ((s.observed cls .properties).getD []).countP fun p : Property=>p.name=name

def insertProtocol (cls:Cls) (proto:Protocol) (s t:State) : Prop :=
 ∃l new,(s.mem .protocols).used l=false ∧ (s.mem .protocols).array new=none ∧
  s.add cls .protocols [(proto:Protocol)] l new=some t

def hasProtocol (conforms:Protocol → Protocol → Bool) (cls:Cls) (proto:Protocol) (s:State) :
 Bool := (s.conformsToProtocol conforms cls proto).getD false

def protocolCount (cls:Cls) (proto:Protocol) (s:State) : ℕ :=
 ((s.observed cls .protocols).getD []).countP fun p : Protocol=>p=proto

theorem insertProperty_spec {attrs:String} (hs:PropertyChain cls s)
 (h:insertProperty cls name attrs s t) : PropertyChain cls t ∧ hasProperty cls name t=true ∧
  propertyCount cls name t=propertyCount cls name s+1 := by
 obtain ⟨l,new,hl,hnew,hadd⟩:=h
 have hlive:=hs.live cls List.mem_cons_self
 obtain ⟨u,hu,hatt⟩:=add_spec hlive hnew [(⟨name,attrs⟩ : Property)] hl
 obtain rfl:=Option.some.inj (hu.symm.trans hadd)
 obtain ⟨hobserved,hlive'⟩:=add_observed hatt hl hlive
 have hsuper:u.superclasses cls=s.superclasses cls:=congrFun hatt.superclasses cls
 have hword:∀d∈s.superclasses cls,u.word d .properties=s.word d .properties:=by
  intro d hd
  exact hatt.others d .properties fun h=>(hs.unshared d hd).1 h.1
 refine ⟨⟨fun d hd=>?_,fun d hd=>?_⟩,?_,?_⟩
 · rw [hsuper] at hd
   rcases List.mem_cons.mp hd with rfl|hd
   · exact hlive'
   · refine (add_same hatt hl (fun h=>(hs.unshared d hd).1 h.1)
      (hs.live d (List.mem_cons_of_mem _ hd)) fun _=>(hs.unshared d hd).2).live
 · rw [hsuper] at hd
   refine ⟨(hs.unshared d hd).1,fun hsh=>?_⟩
   rw [hword d hd] at hsh
   have hread:=(hs.live d (List.mem_cons_of_mem _ hd)).newList hl [(⟨name,attrs⟩ : Property)]
   exact absurd (hatt.attached.unshared _ hread.live.isSome hsh).1 (List.cons_ne_nil _ _)
 · rw [hasProperty,getProperty_added hatt hlive hl]
   rfl
 · obtain ⟨es,hes⟩:=hlive.observed
   grind [propertyCount]

def propertyStore (cls:Cls) (name:String) (attrs:ℕ → String) : Store State where
 valid := PropertyChain cls
 present := hasProperty cls name
 entries := propertyCount cls name
 insert t := insertProperty cls name (attrs t)
 inserted := insertProperty_spec

theorem insertProtocol_spec {conforms:Protocol → Protocol → Bool} {proto:Protocol}
 (hs:s.Live cls .protocols) (h:insertProtocol cls proto s t) :
 t.Live cls .protocols ∧ hasProtocol conforms cls proto t=true ∧
  protocolCount cls proto t=protocolCount cls proto s+1 := by
 obtain ⟨l,new,hl,hnew,hadd⟩:=h
 obtain ⟨u,hu,hatt⟩:=add_spec hs hnew [(proto:Protocol)] hl
 obtain rfl:=Option.some.inj (hu.symm.trans hadd)
 obtain ⟨hobserved,hlive⟩:=add_observed hatt hl hs
 grind [hs.observed,hasProtocol,State.conformsToProtocol,protocolCount]

def protocolStore (conforms:Protocol → Protocol → Bool) (cls:Cls) (proto:Protocol) :
 Store State where
 valid s := s.Live cls .protocols
 present := hasProtocol conforms cls proto
 entries := protocolCount cls proto
 insert _ := insertProtocol cls proto
 inserted := insertProtocol_spec

/-- Any number of threads add the same property, or the same protocol, to a class that lacks it,
and all calls return: exactly one returns YES and adds one entry, if and only if every check but
the first comes after an insertion. -/
theorem added_once_iff_serial (s:State) (cls:Cls) (calls:Finset ℕ) (hcalls:calls.Nonempty) :
 (∀(name:String) (attrs:ℕ → String),PropertyChain cls s → s.getProperty cls name=some none →
  ∀c,Reachable (CallStep (propertyStore cls name attrs)) (start s calls) c → Complete c →
   (AddedOnce (propertyStore cls name attrs) s c ↔ Serial c.trace)) ∧
 ∀(conforms:Protocol → Protocol → Bool) (proto:Protocol),s.Live cls .protocols →
  s.conformsToProtocol conforms cls proto=some false →
  ∀c,Reachable (CallStep (protocolStore conforms cls proto)) (start s calls) c → Complete c →
   (AddedOnce (protocolStore conforms cls proto) s c ↔ Serial c.trace) := by
 constructor
 · intro name attrs hs hnone c hrun hdone
   refine addedOnce_iff (propertyStore cls name attrs) hs ?_ hcalls hrun hdone
   change hasProperty cls name s=false
   rw [hasProperty,hnone]
   rfl
 · intro conforms proto hs hnone c hrun hdone
   refine addedOnce_iff (protocolStore conforms cls proto) hs ?_ hcalls hrun hdone
   change hasProtocol conforms cls proto s=false
   rw [hasProtocol,hnone]
   rfl

section Samples

def bareState : State where
 superclasses _ := []
 data _ := ⟨fun _=>none,none⟩
 mem _ := ⟨fun _=>[],fun _=>false,fun _=>none⟩

def noConformance : Protocol → Protocol → Bool := fun _ _=>false

theorem bareState_live : bareState.Live 1 .protocols := ⟨[],rfl,fun _ hl=>nomatch hl⟩

def oneProtocol : State :=
 (bareState.newList .protocols 20 [(5 : Protocol)]).setWord 1 .protocols
  ((bareState.mem .protocols).newList 20 [(5 : Protocol)]) (.list (some 20))

theorem insert_one : insertProtocol 1 5 bareState oneProtocol := ⟨20,30,rfl,rfl,rfl⟩

theorem insert_two : ∃t,insertProtocol 1 5 oneProtocol t ∧ protocolCount 1 5 t=2 :=
 ⟨_,⟨21,31,rfl,rfl,rfl⟩,rfl⟩

def twoCalls (t:State) (first second:Phase) (tr:List Event) : Config State Phase Event :=
 ⟨t,fun u=>if u=0 then first else if u=1 then second else .idle,tr⟩

theorem twoCalls_complete {t:State} {first second:Bool} {tr:List Event} :
 Complete (twoCalls t (.done first) (.done second) tr) := by
 intro u
 grind [twoCalls]

theorem twoCalls_start : start bareState {0,1}=twoCalls bareState .calling .calling [] := by
 refine congrArg (fun f=>Config.mk bareState f []) (funext fun u=>?_)
 grind

section Steps

variable {M:Store State} {t t':State} {first second phase:Phase} {tr events:List Event}

theorem twoCalls_first (h:CallStep M 0 t first events t' phase) :
 Step (CallStep M) (twoCalls t first second tr) (twoCalls t' phase second (tr++events)) := by
 have hthreads:(twoCalls t' phase second (tr++events)).threads =
  Function.update (twoCalls t first second tr).threads 0 phase := by grind [twoCalls]
 have hstep:=Step.mk (twoCalls t first second tr) 0 events t' phase h
 rw [←hthreads] at hstep
 exact hstep

theorem twoCalls_second (h:CallStep M 1 t second events t' phase) :
 Step (CallStep M) (twoCalls t first second tr) (twoCalls t' first phase (tr++events)) := by
 have hthreads:(twoCalls t' first phase (tr++events)).threads =
  Function.update (twoCalls t first second tr).threads 1 phase := by grind [twoCalls]
 have hstep:=Step.mk (twoCalls t first second tr) 1 events t' phase h
 rw [←hthreads] at hstep
 exact hstep

end Steps

/-- Both threads check before one of them adds: both return YES, and the class has the protocol
twice. -/
theorem both_add_protocol : ∃c,
 Reachable (CallStep (protocolStore noConformance 1 5)) (start bareState {0,1}) c ∧ Complete c ∧
 c.threads 0=.done true ∧ c.threads 1=.done true ∧ protocolCount 1 5 c.shared=2 ∧
 ¬AddedOnce (protocolStore noConformance 1 5) bareState c := by
 obtain ⟨u,hins,hcount⟩:=insert_two
 refine ⟨twoCalls u (.done true) (.done true) [.check 0,.check 1,.add 0,.add 1],?_,
  twoCalls_complete,rfl,rfl,hcount,fun honce=>?_⟩
 · rw [twoCalls_start]
   exact .tail (.tail (.tail (.single (twoCalls_first (.absent 0 bareState rfl)))
    (twoCalls_second (.absent 1 bareState rfl)))
    (twoCalls_first (.add 0 bareState oneProtocol insert_one)))
    (twoCalls_second (.add 1 oneProtocol u hins))
 · have hone:protocolCount 1 5 u=0+1:=honce.entries
   rw [hcount] at hone
   cases hone

theorem one_adds_protocol : ∃c,
 Reachable (CallStep (protocolStore noConformance 1 5)) (start bareState {0,1}) c ∧ Complete c ∧
 AddedOnce (protocolStore noConformance 1 5) bareState c := by
 have hrun:Reachable (CallStep (protocolStore noConformance 1 5)) (start bareState {0,1})
  (twoCalls oneProtocol (.done true) (.done false) [.check 0,.add 0,.check 1]) := by
  rw [twoCalls_start]
  exact .tail (.tail (.single (twoCalls_first (.absent 0 bareState rfl)))
   (twoCalls_first (.add 0 bareState oneProtocol insert_one)))
   (twoCalls_second (.found 1 oneProtocol rfl))
 refine ⟨_,hrun,twoCalls_complete,?_⟩
 refine ((added_once_iff_serial bareState 1 {0,1} (Finset.insert_nonempty ..)).2 noConformance 5
  bareState_live rfl _ hrun twoCalls_complete).mpr ?_
 rintro before t after heq ⟨u,hu⟩
 rcases before with _|⟨_,_|⟨_,before⟩⟩
 · cases hu
 · cases heq
 · have hadd:=(List.cons.inj (List.cons.inj heq).2).1
   rw [←hadd]
   exact ⟨0,List.mem_cons_of_mem _ List.mem_cons_self⟩

end Samples

end ObjcRuntime.ClassLists
