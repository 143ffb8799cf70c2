import ObjcRuntime.Interleaving

/-!
Publishing a lazy name in `gdb_objc_realized_classes` and winning the exchange on `ro->name` are
separate actions.
-/

set_option autoImplicit false
namespace ObjcRuntime.LazyNames

open Interleaving Function

abbrev Cls := ℕ

/-- A string that was there before, or the copy the namer made for a call. -/
inductive StringRef
 | old (n:ℕ)
 | copy (call:ℕ)
 deriving DecidableEq,Repr

structure Env where
 cls : Cls
 metaclass : Cls
 name : String
 content : ℕ → String
 getPreoptimizedClass : String → Option Cls
 copySwiftV1MangledName : String → Option String

def Env.text (env:Env) : StringRef → String
 | .old n=>env.content n
 | .copy _=>env.name

structure Names where
 /-- `gdb_objc_realized_classes` -/
 table : List (StringRef × Cls)
 nonMetaClasses : Cls → Option Cls
 roName : Option StringRef
 metaName : Option StringRef
 freed : List StringRef

variable (env:Env)

def nxMapGet (table:List (StringRef × Cls)) (name:String) : Option Cls :=
 (table.find? fun pair=>env.text pair.1=name).map Prod.snd

/-- An equal key stays, and only its value is replaced. -/
def nxMapInsert (table:List (StringRef × Cls)) (key:StringRef) (value:Cls) :
 List (StringRef × Cls) :=
 if table.any fun pair=>env.text pair.1=env.text key then
  table.map fun pair=>if env.text pair.1=env.text key then (pair.1,value) else pair
 else (key,value)::table

def getClassImpl (s:Names) (name:String) : Option Cls :=
 match nxMapGet env s.table name with
 | some result=>some result
 | none=>env.getPreoptimizedClass name

def getClassExceptSomeSwift (s:Names) (name:String) : Option Cls :=
 match getClassImpl env s name with
 | some result=>some result
 | none=>(env.copySwiftV1MangledName name).bind (getClassImpl env s)

def addNonMetaClass (s:Names) : Names :=
 {s with nonMetaClasses:=update s.nonMetaClasses env.metaclass (some env.cls)}

/-- `addNamedClass(cls, name, nil)` -/
def addNamedClass (s:Names) (name:StringRef) : Names :=
 match getClassExceptSomeSwift env s (env.text name) with
 | some _=>addNonMetaClass env s
 | none=>{s with table:=nxMapInsert env s.table name env.cls}

inductive Phase
 | calling
 | named
 | added
 | lost (previously:StringRef)
 | settled (name:StringRef)
 | returned (name:StringRef)
 deriving DecidableEq

inductive Install : ThreadStep Names Phase ℕ
 | namer (t s) : Install t s .calling [] s .named
 | add (t s) : Install t s .named [t] (addNamedClass env s (.copy t)) .added
 | won (t) (s:Names) (h:s.roName=none) :
  Install t s .added [] {s with roName:=some (.copy t)} (.settled (.copy t))
 | lost (t) (s:Names) (previously) (h:s.roName=some previously) :
  Install t s .added [] s (.lost previously)
 | free (t) (s:Names) (previously) :
  Install t s (.lost previously) [] {s with freed:=.copy t::s.freed} (.settled previously)
 | nameMetaclass (t) (s:Names) (name) :
  Install t s (.settled name) [] {s with metaName:=s.metaName.or (some name)}
   (.returned name)

def start (s:Names) : Config Names Phase ℕ := ⟨s,fun _=>.calling,[]⟩

structure Unnamed (s:Names) : Prop where
 roName : s.roName=none
 freed : s.freed=[]
 nonMeta : s.nonMetaClasses env.metaclass≠some env.cls

/-- The calls that returned agree on a string that was not freed. -/
structure Agreed (c:Config Names Phase ℕ) : Prop where
 same : ∀t u p q,c.threads t=.returned p → c.threads u=.returned q → p=q
 live : ∀t p,c.threads t=.returned p → p∉c.shared.freed

/-- Once a name is published the class has a key, which was not freed, and is no duplicate. -/
structure Keyed (c:Config Names Phase ℕ) : Prop where
 stored : c.trace≠[] → ∃key,(key,env.cls)∈c.shared.table
 live : ∀key,(key,env.cls)∈c.shared.table → key∉c.shared.freed
 single : c.shared.nonMetaClasses env.metaclass≠some env.cls

section Table

variable {env} {s:Names}

theorem nxMapInsert_of_none (key:StringRef) (value:Cls)
 (h:nxMapGet env s.table (env.text key)=none) :
 nxMapInsert env s.table key value=(key,value)::s.table := by
 grind [nxMapGet,Option.map_eq_none_iff,nxMapInsert]

theorem nxMapGet_of_not_found {name:String}
 (h:getClassExceptSomeSwift env s name=none) : nxMapGet env s.table name=none := by
 grind [getClassExceptSomeSwift,getClassImpl]

theorem addNamedClass_found (t:ℕ) (h:(getClassExceptSomeSwift env s env.name).isSome) :
 addNamedClass env s (.copy t)=addNonMetaClass env s := by
 obtain ⟨old,found⟩:=Option.isSome_iff_exists.mp h
 rw [addNamedClass,show env.text (.copy t)=env.name from rfl,found]

theorem addNamedClass_new (t:ℕ) (h:getClassExceptSomeSwift env s env.name=none) :
 addNamedClass env s (.copy t) = {s with table:=(.copy t,env.cls)::s.table} := by
 have insert:=nxMapInsert_of_none (.copy t) env.cls (nxMapGet_of_not_found h)
 rw [addNamedClass,show env.text (.copy t)=env.name from rfl,h,insert]

end Table

variable {env} {s₀ s s':Names} {tr:List ℕ} {t u:ℕ} {l l':Phase}

variable (env) (s₀) in
structure Inv (s:Names) (tr:List ℕ) : Prop where
 found : (getClassExceptSomeSwift env s env.name).isSome ↔
  tr≠[] ∨ (getClassExceptSomeSwift env s₀ env.name).isSome
 recorded : s.nonMetaClasses env.metaclass=some env.cls ↔
  2 ≤ tr.length ∨ tr≠[] ∧ (getClassExceptSomeSwift env s₀ env.name).isSome
 stored : tr≠[] → getClassExceptSomeSwift env s₀ env.name=none → ∃key,(key,env.cls)∈s.table
 owner : ∀string,s.roName=some string → ∃u∈tr,string=.copy u
 freed : ∀string∈s.freed,(∃name,s.roName=some name ∧ name≠string) ∧ 2 ≤ tr.length

def Told (t:ℕ) (s:Names) (tr:List ℕ) : Phase → Prop
 | .calling | .named=>t∉tr
 | .added=>t∈tr ∧ s.roName≠some (.copy t) ∧ (s.roName≠none → 2 ≤ tr.length)
 | .lost previously=>
  s.roName=some previously ∧ previously≠.copy t ∧ 2 ≤ tr.length
 | .settled name | .returned name=>s.roName=some name

theorem two_le_length (ht:t∈tr) (hu:u∈tr) (ne:u≠t) : 2 ≤ tr.length := by
 match tr with
 | []=>cases ht
 | [a]=>exact absurd ((List.mem_singleton.mp hu).trans (List.mem_singleton.mp ht).symm) ne
 | _::_::_=>simp

theorem Inv.add (inv:Inv env s₀ s tr) (t:ℕ) :
 Inv env s₀ (addNamedClass env s (.copy t)) (tr++[t]) := by
 have grows:2 ≤ tr.length → 2 ≤ (tr++[t]).length:=fun h=>by grind
 have owner:∀string,s.roName=some string → ∃u∈tr++[t],string=.copy u :=
  fun string h=>(inv.owner string h).imp fun u hu=>⟨List.mem_append_left _ hu.1,hu.2⟩
 have freed:∀string∈s.freed,(∃name,s.roName=some name ∧ name≠string) ∧ 2 ≤ (tr++[t]).length :=
  fun string h=>(inv.freed string h).imp id grows
 by_cases h : (getClassExceptSomeSwift env s env.name).isSome
 · rw [addNamedClass_found t h]
   have before:=inv.found.mp h
   refine ⟨iff_of_true h (.inl (by simp)),iff_of_true (update_self ..) ?_,
    fun _ unknown=>?_,owner,freed⟩
   · grind [List.length_pos_iff]
   · rcases before with some|found
     · exact inv.stored some unknown
     · simp [unknown] at found
 · have unknown:=Option.not_isSome_iff_eq_none.mp h
   rw [addNamedClass_new t unknown]
   have ⟨first,absent⟩:=not_or.mp (mt inv.found.mpr h)
   rw [not_not] at first
   subst first
   refine ⟨?_,?_,fun _ _=>⟨.copy t,.head _⟩,owner,freed⟩
   · simp [getClassExceptSomeSwift,getClassImpl,nxMapGet,Env.text]
   · grind [inv.recorded]

theorem addNamedClass_frame (s:Names) (string:StringRef) :
 (addNamedClass env s string).roName=s.roName ∧
  (addNamedClass env s string).freed=s.freed := by
 rw [addNamedClass]
 split <;> exact ⟨rfl,rfl⟩

theorem Told.added (inv:Inv env s₀ s tr) (new:t∉tr) :
 Told t (addNamedClass env s (.copy t)) (tr++[t]) .added := by
 rw [Told,(addNamedClass_frame s (.copy t)).1]
 refine ⟨by simp,fun mine=>?_,fun some=>?_⟩
 · grind [inv.owner]
 · obtain ⟨string,h⟩:=Option.ne_none_iff_exists'.mp some
   grind [inv.owner]

theorem Told.other (told:Told u s tr l) (ne:u≠t)
 (h:s'.roName=s.roName) : Told u s' (tr++[t]) l := by
 cases l with
 | calling | named=>simpa [Told,ne] using told
 | added=>
  obtain ⟨mem,mine,two⟩:=told
  refine ⟨List.mem_append_left _ mem,h ▸ mine,fun some=>?_⟩
  grind
 | lost previously=>
  obtain ⟨named,ne,two⟩:=told
  refine ⟨h.trans named,ne,?_⟩
  grind
 | settled name | returned name=>exact h.trans told

theorem install_sound : Sound (Install env) (Inv env s₀) Told where
 own := by
  intro t s tr l events s' l' inv told step
  cases step with
  | namer=>
   rw [List.append_nil]
   exact ⟨inv,told⟩
  | add=>exact ⟨inv.add t,.added inv told⟩
  | won _ _ h=>
   rw [List.append_nil]
   refine ⟨{inv with owner:=?_,freed:=fun string hs=>?_},rfl⟩
   · rintro string ⟨⟩
     exact ⟨t,told.1,rfl⟩
   · grind [inv.freed]
  | lost _ _ previously h=>
   rw [List.append_nil]
   exact ⟨inv,h,fun same=>told.2.1 (same ▸ h),told.2.2 (by simp [h])⟩
  | free _ _ previously=>
   obtain ⟨named,ne,two⟩:=told
   rw [List.append_nil]
   refine ⟨{inv with freed:=?_},named⟩
   grind [inv.freed]
  | nameMetaclass _ _ name=>
   rw [List.append_nil]
   exact ⟨{inv with},told⟩
 others := by
  intro t u s tr l m events s' l' ne inv mine told step
  cases step with
  | add=>exact told.other ne (addNamedClass_frame s _).1
  | won _ _ h=>
   rw [List.append_nil]
   cases m with
   | calling | named=>exact told
   | added=>
    refine ⟨told.1,fun same=>ne ?_,fun _=>two_le_length mine.1 told.1 ne⟩
    cases same
    rfl
   | lost previously=>
    rw [told.1] at h
    cases h
   | settled name | returned name=>
    rw [show s.roName=some name from told] at h
    cases h
  | namer | lost | free | nameMetaclass=>
   rw [List.append_nil]
   cases m <;> exact told

theorem start_holds (unnamed:Unnamed env s₀) : Holds (Inv env s₀) Told (start s₀) where
 shared :=
  { found := by simp [start]
    recorded := by simpa [start] using unnamed.nonMeta
    stored := fun some=>absurd rfl some
    owner := fun string h=>by simp [start,unnamed.roName] at h
    freed := fun string h=>by simp [start,unnamed.freed] at h }
 threads _ := List.not_mem_nil

/-- The calls always agree; the table stays in order exactly if one call alone published a name
that no class had. -/
theorem installed_iff (unnamed:Unnamed env s₀) {c:Config Names Phase ℕ}
 (run:Reachable (Install env) (start s₀) c) :
 Agreed c ∧ (Keyed env c ↔ c.trace.length=0 ∨
  c.trace.length=1 ∧ getClassExceptSomeSwift env s₀ env.name=none) := by
 have ⟨inv,told⟩:=(start_holds unnamed).reachable install_sound run
 have named:∀{t p},c.threads t=.returned p → c.shared.roName=some p:=fun {t p} h=>by
  have:=told t
  rwa [h] at this
 refine ⟨⟨fun t u p q hp hq=>?_,fun t p hp freed=>?_⟩,fun keyed=>?_,fun alone=>?_⟩
 · exact Option.some.inj ((named hp).symm.trans (named hq))
 · obtain ⟨⟨name,won,ne⟩,-⟩:=inv.freed p freed
   exact ne (Option.some.inj (won.symm.trans (named hp)))
 · have ⟨few,rest⟩:=not_or.mp (mt inv.recorded.mpr keyed.single)
   grind [Option.not_isSome_iff_eq_none]
 · have few:¬ 2 ≤ c.trace.length:=by omega
   have kept:∀string,string∉c.shared.freed:=fun string h=>few (inv.freed string h).2
   refine ⟨fun some=>?_,fun key _=>kept key,fun again=>?_⟩
   · rcases alone with none|⟨-,unknown⟩
     · exact absurd (List.length_eq_zero_iff.mp none) some
     · exact inv.stored some unknown
   · rcases inv.recorded.mp again with two|⟨some,found⟩
     · exact few two
     · grind

def sampleEnv : Env where
 cls := 5
 metaclass := 6
 name := "Lazy"
 content _ := ""
 getPreoptimizedClass _ := none
 copySwiftV1MangledName _ := none

def sampleNames : Names := ⟨[],fun _=>none,none,none,[]⟩

theorem sampleNames_unnamed : Unnamed sampleEnv sampleNames := ⟨rfl,rfl,nofun⟩

theorem installed_once : ∃c,Reachable (Install sampleEnv) (start sampleNames) c ∧
 c.threads 0=.returned (.copy 0) ∧ Keyed sampleEnv c := by
 have call:ThreadRun (Install sampleEnv) 0 sampleNames .calling _ _ (.returned (.copy 0)) :=
  .cons (.namer 0 _) <| .cons (.add 0 _) <| .cons (.won 0 _ rfl) <|
   .cons (.nameMetaclass 0 _ _) <| .nil _ _
 have run:=call.reachable (c:=start sampleNames) rfl rfl
 exact ⟨_,run,rfl,(installed_iff sampleNames_unnamed run).2.mpr (.inr ⟨rfl,rfl⟩)⟩

/-- The first of two calls publishes its copy, loses the exchange and frees the key. -/
theorem first_key_freed : ∃c,Reachable (Install sampleEnv) (start sampleNames) c ∧
 c.threads 0=.returned (.copy 1) ∧ c.threads 1=.returned (.copy 1) ∧
 (.copy 0,sampleEnv.cls)∈c.shared.table ∧ .copy 0∈c.shared.freed ∧
 c.shared.nonMetaClasses sampleEnv.metaclass=some sampleEnv.cls := by
 have publish:ThreadRun (Install sampleEnv) 0 sampleNames .calling _ _ .added :=
  .cons (.namer 0 _) <| .cons (.add 0 _) <| .nil _ _
 have other:ThreadRun (Install sampleEnv) 1 (addNamedClass sampleEnv sampleNames (.copy 0))
  .calling _ _ (.returned (.copy 1)) :=
  .cons (.namer 1 _) <| .cons (.add 1 _) <| .cons (.won 1 _ rfl) <|
   .cons (.nameMetaclass 1 _ _) <| .nil _ _
 have free:ThreadRun (Install sampleEnv) 0
  ⟨[(.copy 0,5)],update (fun _=>none) 6 (some 5),some (.copy 1),some (.copy 1),[]⟩
  .added _ _ (.returned (.copy 1)) :=
  .cons (.lost 0 _ (.copy 1) rfl) <| .cons (.free 0 _ _) <| .cons (.nameMetaclass 0 _ _) <|
   .nil _ _
 have first:=publish.reachable (c:=start sampleNames) rfl rfl
 have second:=first.trans (other.reachable rfl rfl)
 exact ⟨_,second.trans (free.reachable rfl rfl),rfl,rfl,.head _,.head _,rfl⟩

end ObjcRuntime.LazyNames
