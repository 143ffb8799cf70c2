import ObjcRuntime.AutoreleasePage

/-!
# One thread and its autorelease pools

Releasing an object and initializing a class run code that calls the runtime again, so a
configuration has a stack of frames: outside code with the pool tokens it has not popped, and
runtime functions that wait. Objects are not deallocating when they are autoreleased.
-/
set_option autoImplicit false
namespace ObjcRuntime.AutoreleaseThread
open AutoreleasePage

/-- `ReturnAutoreleaseInfo` with an object. The return disposition is `ReturnAtPlus1`. -/
structure Info where
 obj : ℕ
 cameFromRootAutorelease : Bool
 returnAddress : ℕ
 deriving DecidableEq

/-- For each object, how many references were handed to autoreleasing calls, claimed by
    accepting calls, and released for a pool. -/
structure Ledger where
 handed : ℕ → ℕ
 claimed : ℕ → ℕ
 released : ℕ → ℕ

def Ledger.empty : Ledger := ⟨fun _=>0,fun _=>0,fun _=>0⟩

def tally (f:ℕ → ℕ) (obj:ℕ) : ℕ → ℕ := Function.update f obj (f obj+1)

def Ledger.hand (l:Ledger) (obj:ℕ) : Ledger := {l with handed:=tally l.handed obj}

def Ledger.claim (l:Ledger) (obj:ℕ) : Ledger := {l with claimed:=tally l.claimed obj}

def Ledger.release (l:Ledger) (obj:ℕ) : Ledger := {l with released:=tally l.released obj}

/-- A token that was pushed, with the pages it was pushed on and the ledger at that time. -/
structure Held where
 token : Token
 before : List Page
 ledger : Ledger

inductive Frame where
 | user (tokens:List Held)
 | popping (held:Held)
 /-- `releaseUntil(stop)` of the page at a depth. Without a token it is the one that
      `HotPageDealloc` asks for. -/
 | unwinding (held:Option Held) (depth stop:ℕ)
 | releasing (obj n:ℕ)
 /-- `prepareOptimizedReturn`, and whether `class_initialize` is behind it. -/
 | preparing (obj:ℕ) (cameFromRootAutorelease:Bool) (returnAddress:ℕ) (initialized:Bool)
 | exiting
 | hotPageDealloc (p:HotPage)

structure Config where
 hotPage : HotPage
 tls : Option Info
 ledger : Ledger
 stack : List Frame

structure Env where
 hasCustomRR : ℕ → Bool
 callerAccepts : ℕ → Bool

/-- `moveTLSAutoreleaseToPool`. An object that did not come from `rootAutorelease` is sent
    `autorelease` with the slot blocked, and so reaches the pool too. -/
def Config.moveTLS (O:Options) (c:Config) : HotPage :=
 match c.tls with
 | some info=>(autoreleaseFast O info.obj c.hotPage).1
 | none=>c.hotPage

def Config.push (O:Options) (c:Config) : HotPage × Token := pushBoundary O (c.moveTLS O)

def Config.held (O:Options) (c:Config) : Held :=
 ⟨(c.push O).2,(c.moveTLS O).pages,c.ledger⟩

def accepts (E:Env) (info:Info) (a:Accepting) (returnAddress:ℕ) : Bool :=
 a.fits ((returnAddress+2^64-info.returnAddress) % 2^64) (E.callerAccepts info.returnAddress)

inductive Act where
 | push | pop | ret | exit
 | autorelease (obj returnAddress:ℕ)
 | rootAutorelease2 (obj:ℕ)
 | autoreleaseReturnValue (obj returnAddress:ℕ)
 | retainAutoreleaseReturnValue (obj returnAddress:ℕ)
 | accept (a:Accepting) (returnAddress:ℕ)
 | classInitialize
 | setInfo
 | sendAutorelease (returnAddress:ℕ)
 | reinstate
 | internal
 deriving DecidableEq

variable (O:Options) (E:Env)

inductive Step : Config → Act → Config → Prop where
 | push {c:Config} {ts fs} (top:c.stack=.user ts::fs) :
  Step c .push ⟨(c.push O).1,none,c.ledger,.user (c.held O::ts)::fs⟩
 | pop {c:Config} {t ts fs}
  (top:c.stack=.user (t::ts)::fs) :
  Step c .pop {c with stack:=.popping t :: .user ts::fs}
 | ret {c:Config} {f fs} (top:c.stack=.user []::f::fs) :
  Step c .ret {c with stack:=f::fs}
 | autorelease {c:Config} {ts fs obj returnAddress}
  (top:c.stack=.user ts::fs) (real:obj≠0) (elides:O.elision=true) :
  Step c (.autorelease obj returnAddress) ⟨c.moveTLS O,none,c.ledger.hand obj,
   .preparing obj true returnAddress false :: .user ts::fs⟩
 -- without elision by return address, an object whose caller does not accept it
 | rootAutorelease2 {c:Config} {ts fs obj}
  (top:c.stack=.user ts::fs) (real:obj≠0) (elides:O.elision=false) :
  Step c (.rootAutorelease2 obj)
   ⟨(autoreleaseFast O obj c.hotPage).1,c.tls,c.ledger.hand obj,.user ts::fs⟩
 | autoreleaseReturnValue {c:Config} {ts fs obj returnAddress}
  (top:c.stack=.user ts::fs) (real:obj≠0) (elides:O.elision=true) :
  Step c (.autoreleaseReturnValue obj returnAddress) ⟨c.moveTLS O,none,c.ledger.hand obj,
   .preparing obj false returnAddress false :: .user ts::fs⟩
 -- the reference that is handed over is the one that `objc_retain` makes
 | retainAutoreleaseReturnValue {c:Config} {ts fs obj returnAddress} (top:c.stack=.user ts::fs)
  (real:obj≠0)
  (elides:O.elision=true) :
  Step c (.retainAutoreleaseReturnValue obj returnAddress) ⟨c.moveTLS O,none,
   c.ledger.hand obj,.preparing obj false returnAddress false :: .user ts::fs⟩
 -- acceptOptimizedReturn
 | acceptNothing {c:Config} {ts fs a returnAddress} (top:c.stack=.user ts::fs) (clear:c.tls=none) :
  Step c (.accept a returnAddress) c
 | accepted {c:Config} {info:Info} {ts fs a returnAddress} (top:c.stack=.user ts::fs)
  (pending:c.tls=some info)
  (match_:accepts E info a returnAddress=true) :
  Step c (.accept a returnAddress) ⟨c.hotPage,none,c.ledger.claim info.obj,
   if a=.unsafeClaimAutoreleasedReturnValue then .user [] :: .user ts::fs
   else .user ts::fs⟩
 | declined {c:Config} {ts fs info a returnAddress} (top:c.stack=.user ts::fs)
  (pending:c.tls=some info)
  (match_:accepts E info a returnAddress=false) :
  Step c (.accept a returnAddress) ⟨c.moveTLS O,none,c.ledger,.user ts::fs⟩
 -- prepareOptimizedReturn
 | classInitialize {c:Config} {obj returnAddress root fs}
  (top:c.stack=.preparing obj root returnAddress false::fs) :
  Step c .classInitialize
   {c with stack:=.user [] :: .preparing obj root returnAddress true::fs}
 | setInfo {c:Config} {obj returnAddress root initialized fs}
  (top:c.stack=.preparing obj root returnAddress initialized::fs)
  (fits:root=true ∨ E.hasCustomRR obj=false ∨ E.callerAccepts returnAddress=true) :
  Step c .setInfo {c with tls:=some ⟨obj,root,returnAddress⟩,stack:=fs}
 | sendAutorelease {c:Config} {obj returnAddress clientAddress initialized fs}
  (top:c.stack=.preparing obj false returnAddress initialized::fs)
  (custom:E.hasCustomRR obj=true) (unfit:E.callerAccepts returnAddress=false) :
  Step c (.sendAutorelease clientAddress)
   ⟨c.moveTLS O,none,c.ledger,.preparing obj true clientAddress true::fs⟩
 -- pop
 | popTLS {c:Config} {info:Info} {t fs}
  (top:c.stack=.popping t::fs) (pending:c.tls=some info) :
  Step c .internal ⟨c.hotPage,none,c.ledger.release info.obj,.user [] :: .popping t::fs⟩
 | popUnused {c:Config} {t:Held} {fs} (top:c.stack=.popping t::fs)
  (clear:c.tls=none) (unused:c.hotPage.pop t.token=.unused) :
  Step c .internal {c with hotPage:=.nil,stack:=fs}
 | popUntil {c:Config} {t:Held} {fs depth stop} (top:c.stack=.popping t::fs)
  (clear:c.tls=none) (opens:c.hotPage.pop t.token=.releaseUntil depth stop) :
  Step c .internal {c with stack:=.unwinding (some t) depth stop::fs}
 | badPop {c:Config} {t:Held} {fs} (top:c.stack=.popping t::fs)
  (clear:c.tls=none) (bad:c.hotPage.pop t.token=.badPop) : Step c .internal {c with stack:=fs}
 -- releaseUntil
 | takeEntry {c:Config} {e:Entry} {t fs depth stop h} (top:c.stack=.unwinding t depth stop::fs)
  (more:(c.hotPage.pageAt depth).map List.length≠some stop)
  (took:c.hotPage.take=some (e,h)) :
  Step c .internal { c with
   hotPage := h
   stack := if e.ptr=0 then .unwinding t depth stop::fs
    else .releasing e.ptr (e.count+1) :: .unwinding t depth stop::fs }
 | unwindTLS {c:Config} {info:Info} {t fs depth stop}
  (top:c.stack=.unwinding t depth stop::fs)
  (done:(c.hotPage.pageAt depth).map List.length=some stop) (pending:c.tls=some info) :
  Step c .internal
   ⟨c.hotPage,none,c.ledger.release info.obj,.user [] :: .unwinding t depth stop::fs⟩
 | popReturn {c:Config} {t fs depth stop}
  (top:c.stack=.unwinding (some t) depth stop::fs)
  (done:(c.hotPage.pageAt depth).map List.length=some stop) (clear:c.tls=none) :
  Step c .internal {c with hotPage:=popPage O (c.hotPage.setHot depth),stack:=fs}
 | release {c:Config} {obj n fs} (top:c.stack=.releasing obj (n+1)::fs) :
  Step c .internal
   {c with ledger:=c.ledger.release obj,stack:=.user [] :: .releasing obj n::fs}
 | releasedAll {c:Config} {obj fs} (top:c.stack=.releasing obj 0::fs) :
  Step c .internal {c with stack:=fs}
 -- thread exit: the storage of a slot is cleared before its destructor runs
 | exit {c:Config} {ts} (top:c.stack=[.user ts]) : Step c .exit {c with stack:=[.exiting]}
 | tlsDealloc {c:Config} {info:Info} (top:c.stack=[.exiting]) (pending:c.tls=some info) :
  Step c .internal ⟨c.hotPage,none,c.ledger.release info.obj,[.user [],.exiting]⟩
 | hotPageDealloc {c:Config} (top:c.stack=[.exiting]) (used:c.hotPage≠.nil) :
  Step c .internal {c with hotPage:=.nil,stack:=[.hotPageDealloc c.hotPage,.exiting]}
 | deallocTLS {c:Config} {info:Info} {p} (top:c.stack=[.hotPageDealloc p,.exiting])
  (pending:c.tls=some info) :
  Step c .internal
   ⟨c.hotPage,none,c.ledger.release info.obj,[.user [],.hotPageDealloc p,.exiting]⟩
 | deallocPlaceholder {c:Config} (top:c.stack=[.hotPageDealloc .placeholder,.exiting])
  (clear:c.tls=none) :
  Step c .internal {c with stack:=[.exiting]}
 | reinstate {c:Config} {p:HotPage} {cold} (top:c.stack=[.hotPageDealloc p,.exiting])
  (clear:c.tls=none) (used:p.pageAt 0=some cold) (nonempty:cold≠[]) :
  Step c .reinstate {c with hotPage:=p,stack:=[.unwinding none 0 0,.exiting]}
 | reinstateEmpty {c:Config} {p:HotPage} (top:c.stack=[.hotPageDealloc p,.exiting])
  (clear:c.tls=none) (used:p.pageAt 0=some []) :
  Step c .reinstate {c with hotPage:=.nil,stack:=[.exiting]}
 | exitReturn {c:Config} {fs depth stop}
  (top:c.stack=.unwinding none depth stop::fs)
  (done:(c.hotPage.pageAt depth).map List.length=some stop) (clear:c.tls=none) :
  Step c .internal {c with hotPage:=.nil,stack:=fs}
 | exited {c:Config} (top:c.stack=[.exiting]) (unused:c.hotPage=.nil)
  (clear:c.tls=none) :
  Step c .internal {c with stack:=[]}

def initial : Config := ⟨.nil,none,.empty,[.user []]⟩

abbrev Reachable (admits:Config → Act → Prop) : Config → Config → Prop :=
 Relation.ReflTransGen fun c c'=>∃a,admits c a ∧ Step O E c a c'

theorem Reachable.step {O:Options} {E:Env} {admits:Config → Act → Prop} {c c' c'':Config} {a:Act}
 (run:Reachable O E admits c c') (admitted:admits c' a) (step:Step O E c' a c'') :
 Reachable O E admits c c'' :=
 run.tail ⟨a,admitted,step⟩

end ObjcRuntime.AutoreleaseThread
