import Mathlib

/-!
Parsing of old-style type strings. A cursor is the text that is left before the terminating NUL; a
scan can stop in the fatal error of `SubtypeUntil`, or step over the NUL. Counters of arguments are
unsigned ints, and `SubtypeUntil` counts ints.
-/

set_option autoImplicit false
namespace ObjcRuntime.Encoding

abbrev Text := List Char

inductive Stop
 | fatal
 | pastEnd
 /-- A distance that does not fit an `int` leads backwards. -/
 | tooFar
 deriving DecidableEq

abbrev Scan (α:Type) := Except Stop α

@[simp]
theorem ok_bind {α β:Type} (a:α) (f:α → Scan β) : ((.ok a : Scan α) >>= f)=f a := rfl

@[simp]
theorem error_bind {α β:Type} (stop:Stop) (f:α → Scan β) :
 ((.error stop : Scan α) >>= f)=.error stop := rfl

def wrap (n:ℤ) : ℤ := Int.bmod n (2^32)

theorem wrap_eq_self {n:ℤ} : wrap n=n ↔ -2^31 ≤ n ∧ n<2^31 := by
 rw [wrap,Int.bmod_def]
 split <;> omega

def levelOf (c:Char) : ℤ :=
 if c∈[']','}',')'] then -1 else if c∈['[','{','('] then 1 else 0

def subtypeUntil (stop:Char) : ℤ → Text → Scan ℕ
 | _,[]=>.error .fatal
 | level,c::type=>
  if level=0 ∧ c=stop then .ok 0
  else (subtypeUntil stop (wrap (level+levelOf c)) type).map (· + 1)

/-- bycopy, in, out, inout, const, oneway and pointers -/
def prefixes : List Char := ['O','n','o','N','r','V','^']

def skipDigits (type:Text) : Text := type.dropWhile Char.isDigit

def skipThrough (stop:Char) (type:Text) : Scan Text := do
 let n ← subtypeUntil stop 0 type
 if n < 2^31 then .ok (type.drop (n+1)) else .error .tooFar

def skipFirstType : Text → Scan Text
 | []=>.error .pastEnd
 | c::type=>
  if c∈prefixes then skipFirstType type
  else if c = '@' then .ok (if type.head?=some '?' then type.tail else type)
  else if c = '[' then skipThrough ']' (skipDigits type)
  else if c = '{' then skipThrough '}' type
  else if c = '(' then skipThrough ')' type
  else .ok type

def skipChar (c:Char) (type:Text) : Text := if type.head?=some c then type.tail else type

/-- The register hint, the sign and the digits after an argument type. -/
def skipOffset (type:Text) : Text := skipDigits (skipChar '-' (skipChar '+' type))

theorem skipDigits_suffix (type:Text) : skipDigits type <:+ type := List.dropWhile_suffix _

theorem skipChar_suffix (c:Char) (type:Text) : skipChar c type <:+ type := by
 grind [skipChar, List.tail_suffix]

theorem skipOffset_suffix (type:Text) : skipOffset type <:+ type :=
 (skipDigits_suffix _).trans ((skipChar_suffix ..).trans (skipChar_suffix ..))

/-- What ends a type or an offset is no prefix of a type. -/
def endsInType (type:Text) : Bool := type.getLast?.any (· ∉ prefixes)

theorem endsInType_concat (type:Text) (c:Char) :
 endsInType (type++[c])=true ↔ c∉prefixes := by simp [endsInType]

theorem endsInType_append {u v:Text} (h:endsInType u=true) :
 endsInType (u++v)=true ↔ v=[] ∨ endsInType v=true := by
 cases v with
 | nil=>simp [h]
 | cons c v=>simp [endsInType,List.getLast?_append,List.getLast?_cons]

theorem subtypeUntil_ok {stop:Char} {level:ℤ} {type:Text} {n:ℕ}
 (h:subtypeUntil stop level type=.ok n) : type=type.take n++stop::type.drop (n+1) := by
 induction type generalizing level n with
 | nil=>simp [subtypeUntil] at h
 | cons c type ih=>
  rw [subtypeUntil] at h
  split at h
  · grind
  · cases eq : subtypeUntil stop (wrap (level+levelOf c)) type with
    | error e=>simp [eq,Except.map] at h
    | ok m=>grind [Except.map]

theorem skipThrough_ok {stop:Char} {type rest:Text} (h:skipThrough stop type=.ok rest) :
 ∃u,type=u++stop::rest := by
 rw [skipThrough] at h
 cases eq : subtypeUntil stop 0 type with
 | error e=>simp [eq] at h
 | ok n=>
  have split:=subtypeUntil_ok eq
  exact ⟨type.take n,by grind [ok_bind]⟩

theorem skipFirstType_ok {type rest:Text} (h:skipFirstType type=.ok rest) :
 ∃u,type=u++rest ∧ endsInType u=true := by
 induction type with
 | nil=>simp [skipFirstType] at h
 | cons c tail ih=>
  rw [skipFirstType] at h
  split at h
  · grind [endsInType]
  split at h
  · cases h
    split
    next block=>
     obtain ⟨tail',rfl⟩:=List.head?_eq_some_iff.mp block
     exact ⟨['@','?'],by simp_all,by decide⟩
    next=>exact ⟨['@'],by simp_all,by decide⟩
  have closed:∀{stop digits},stop∉prefixes → digits <:+ tail →
    skipThrough stop digits=.ok rest → ∃u,c::tail=u++rest ∧ endsInType u=true := by
   rintro stop digits other ⟨w,rfl⟩ through
   obtain ⟨u,rfl⟩:=skipThrough_ok through
   exact ⟨c::w++u++[stop],by simp,(endsInType_concat ..).mpr other⟩
  split at h
  · exact closed (by decide) (skipDigits_suffix tail) h
  split at h
  · exact closed (by decide) List.suffix_rfl h
  split at h
  · exact closed (by decide) List.suffix_rfl h
  · cases h
    exact ⟨[c],rfl,by simp_all [endsInType]⟩

theorem skipOffset_length {type rest:Text} (h:skipFirstType type=.ok rest) :
 (skipOffset rest).length < type.length := by
 obtain ⟨u,rfl,last⟩:=skipFirstType_ok h
 have shorter:=(skipOffset_suffix rest).length_le
 cases u with
 | nil=>cases last
 | cons c u=>grind

def countArguments (type:Text) (nargs:ℕ) : Scan (ℕ × Text) :=
 if type=[] then .ok (nargs,type)
 else match h : skipFirstType type with
  | .error stop=>.error stop
  | .ok rest=>countArguments (skipOffset rest) ((nargs+1) % 2^32)
termination_by type.length
decreasing_by exact skipOffset_length h

def getNumberOfArguments (type:Text) : Scan (ℕ × Text) := do
 let type ← skipFirstType type
 countArguments (skipDigits type) 0

/-- The digits of a decimal number, read into a variable of 32 bits that `f` makes of the sum. -/
def readDigits (f:ℤ → ℤ) (value:ℤ) : Text → ℤ × Text
 | []=>(value,[])
 | c::type=>
  if c.isDigit then readDigits f (f (value*10+(c.toNat - '0'.toNat))) type
  else (value,c::type)

def getSizeOfArguments (type:Text) : Scan (ℤ × Text) := do
 let type ← skipFirstType type
 .ok (readDigits (· % 2^32) 0 type)

def readOffset (type:Text) : ℤ × Text :=
 let type:=skipChar '+' type
 let (value,rest):=readDigits wrap 0 (skipChar '-' type)
 (if type.head?=some '-' then wrap (-value) else value,rest)

def seekArgument (arg:ℕ) (type:Text) (nargs:ℕ) (selfOffset:ℤ) : Scan (Text × ℕ × ℤ) :=
 if type=[] ∨ nargs=arg then .ok (type,nargs,selfOffset)
 else match h : skipFirstType type with
  | .error stop=>.error stop
  | .ok rest=>
   seekArgument arg (skipOffset rest) ((nargs+1) % 2^32)
    (if nargs=0 then (readOffset rest).1 else selfOffset)
termination_by type.length
decreasing_by exact skipOffset_length h

structure ArgumentInfo where
 nargs : ℕ
 type : Option Text
 offset : ℤ
 deriving DecidableEq

def getArgumentInfo (type:Text) (arg:ℕ) : Scan (ArgumentInfo × Text) := do
 let type ← skipFirstType type
 let (type,nargs,selfOffset) ← seekArgument arg (skipDigits type) 0 0
 if type=[] then .ok (⟨nargs,none,0⟩,type)
 else
  let rest ← skipFirstType type
  if arg=0 then .ok (⟨nargs,some type,0⟩,rest)
  else
   let (argOffset,rest):=readOffset rest
   .ok (⟨nargs,some type,wrap (argOffset-selfOffset)⟩,rest)

def firstType (type:Text) : Scan (Text × Text) := do
 let rest ← skipFirstType type
 .ok (type.take (type.length-rest.length),rest)

def copyReturnType (type:Text) : Scan (Text × Text) := firstType type

def copyArgumentType (type:Text) (index:ℕ) : Scan (Option Text × Text) := do
 let (info,rest) ← getArgumentInfo type index
 match info.type with
 | none=>.ok (none,rest)
 | some type=>(firstType type).map fun (text,rest)=>(some text,rest)

/-- What the call leaves in a destination of the given length. -/
def getArgumentType (type:Text) (index length:ℕ) : Scan Text := do
 let (info,_) ← getArgumentInfo type index
 match info.type with
 | none=>.ok (List.replicate length '\x00')
 | some type=>do
  let (text,_) ← firstType type
  .ok (text.take length++List.replicate (length-text.length) '\x00')

section Bounds

theorem endsInType_keep {u v:Text} (hu:endsInType u=true) (hv:∀c∈v,c∉prefixes) :
 endsInType (u++v)=true := by grind [endsInType]

theorem skipDigits_eq (type:Text) : ∃w,type=w++skipDigits type ∧ ∀c∈w,c∉prefixes := by
 refine ⟨_,(List.takeWhile_append_dropWhile).symm,fun c hc=>?_⟩
 have digit:=List.all_eq_true.mp List.all_takeWhile c hc
 have code:∀d∈prefixes,d.isDigit=false:=by simp [prefixes]
 grind

theorem skipChar_eq (c:Char) (type:Text) : ∃w,type=w++skipChar c type ∧ ∀d∈w,d=c := by
 rw [skipChar]
 split
 next head=>
  obtain ⟨tail,rfl⟩:=List.head?_eq_some_iff.mp head
  exact ⟨[c],rfl,by simp⟩
 next=>exact ⟨[],rfl,by simp⟩

theorem skipOffset_ok {type rest:Text} (h:skipFirstType type=.ok rest) :
 ∃u,type=u++skipOffset rest ∧ endsInType u=true := by
 obtain ⟨u,rfl,last⟩:=skipFirstType_ok h
 obtain ⟨w₁,eq₁,plus⟩:=skipChar_eq '+' rest
 obtain ⟨w₂,eq₂,minus⟩:=skipChar_eq '-' (skipChar '+' rest)
 obtain ⟨w₃,eq₃,digits⟩:=skipDigits_eq (skipChar '-' (skipChar '+' rest))
 refine ⟨u++(w₁++(w₂++w₃)),?_,endsInType_keep last fun c hc=>?_⟩
 · simp only [List.append_assoc,skipOffset]
   rw [←eq₃,←eq₂,←eq₁]
 · have signs : '+' ∉ prefixes ∧ '-' ∉ prefixes:=by decide
   grind

theorem skipDigits_ok {type rest:Text} (h:skipFirstType type=.ok rest) :
 ∃u,type=u++skipDigits rest ∧ endsInType u=true := by
 obtain ⟨u,rfl,last⟩:=skipFirstType_ok h
 obtain ⟨w,eq,digits⟩:=skipDigits_eq rest
 exact ⟨u++w,by rw [List.append_assoc,←eq],endsInType_keep last digits⟩

theorem skipThrough_pastEnd {stop:Char} {type:Text} : skipThrough stop type≠.error .pastEnd := by
 have search:∀level,subtypeUntil stop level type≠.error .pastEnd:=by
  induction type with
  | nil=>simp [subtypeUntil]
  | cons c type ih=>
   intro level
   rw [subtypeUntil]
   split
   · simp
   · cases eq : subtypeUntil stop (wrap (level+levelOf c)) type with
     | error e=>simpa [Except.map,eq] using ih (wrap (level+levelOf c))
     | ok n=>simp [Except.map]
 have:=search 0
 rw [skipThrough]
 cases eq : subtypeUntil stop 0 type <;> grind [ok_bind,error_bind]

theorem skipFirstType_pastEnd {type:Text} (h:skipFirstType type=.error .pastEnd) :
 endsInType type=false := by
 induction type with
 | nil=>rfl
 | cons c type ih=>grind [skipFirstType, endsInType, skipThrough_pastEnd]

theorem countArguments_ends (type:Text) (nargs:ℕ) :
 (countArguments type nargs=.error .pastEnd → type≠[] ∧ endsInType type=false) ∧
  (∀r,countArguments type nargs=.ok r → r.2=[] ∧ (type=[] ∨ endsInType type=true)) := by
 fun_induction countArguments type nargs with
 | case1=>simp
 | case2 type nargs ne stop h=>grind [skipFirstType_pastEnd]
 | case3 type nargs ne rest h ih=>grind [skipOffset_ok, endsInType_append]

/-- At `n` stands `stop`, and the brackets before it make up for `level`. -/
def Closes (stop:Char) (level:ℤ) (type:Text) (n:ℕ) : Prop :=
 type[n]?=some stop ∧ level+((type.take n).map levelOf).sum=0

def closing (c:Char) : Option Char :=
 if c = '[' then some ']' else if c = '{' then some '}' else if c = '(' then some ')' else none

/-- Outside of brackets that are closed, the text comes to one that is not. -/
inductive Unclosed : Text → Prop
 | char {c:Char} {type:Text} (plain:closing c=none) (below:Unclosed type) : Unclosed (c::type)
 | group {c stop:Char} {type:Text} {n:ℕ} (pair:closing c=some stop) (closes:Closes stop 0 type n)
   (first:∀m < n,¬ Closes stop 0 type m) (below:Unclosed (type.drop (n+1))) : Unclosed (c::type)
 | never {c stop:Char} {type:Text} (pair:closing c=some stop)
   (opened:∀n,¬ Closes stop 0 type n) : Unclosed (c::type)

section Brackets

theorem closes_cons {stop c:Char} {level:ℤ} {type:Text} {n:ℕ} :
 Closes stop level (c::type) (n+1) ↔ Closes stop (level+levelOf c) type n := by
 simp [Closes,Int.add_assoc]

theorem levelOf_bounds (c:Char) : -1 ≤ levelOf c ∧ levelOf c ≤ 1 := by grind [levelOf]

theorem subtypeUntil_spec (stop:Char) (type:Text) (level:ℤ) (low:type.length-2^31 < level)
 (high:level+type.length < 2^31) :
 (∃n<type.length,subtypeUntil stop level type=.ok n ∧ Closes stop level type n ∧
   ∀m < n,¬ Closes stop level type m) ∨
  subtypeUntil stop level type=.error .fatal ∧ ∀n,¬ Closes stop level type n := by
 induction type generalizing level with
 | nil=>exact .inr ⟨rfl,by simp [Closes]⟩
 | cons c type ih=>
  have step:=levelOf_bounds c
  rw [List.length_cons] at low high
  rw [subtypeUntil]
  split
  next here=>exact .inl ⟨0,by simp,rfl,by simp [Closes,here],nofun⟩
  next other=>
   have zero:¬ Closes stop level (c::type) 0:=by simpa [Closes,and_comm] using other
   rw [wrap_eq_self.mpr ⟨by omega,by omega⟩]
   rcases ih (level+levelOf c) (by omega) (by omega) with ⟨n,lt,ok,closes,first⟩|⟨fatal,never⟩
   · refine .inl ⟨n+1,by simpa using lt,by rw [ok]; rfl,closes_cons.mpr closes,fun m hm=>?_⟩
     cases m with
     | zero=>exact zero
     | succ m=>exact closes_cons.not.mpr (first m (by omega))
   · refine .inr ⟨by rw [fatal]; rfl,fun n=>?_⟩
     cases n with
     | zero=>exact zero
     | succ n=>exact closes_cons.not.mpr (never n)

variable {type rest:Text}

theorem skipThrough_spec (stop:Char) (short:type.length < 2^31) :
 (∃n,skipThrough stop type=.ok (type.drop (n+1)) ∧ Closes stop 0 type n ∧
   ∀m < n,¬ Closes stop 0 type m) ∨
  skipThrough stop type=.error .fatal ∧ ∀n,¬ Closes stop 0 type n := by
 rcases subtypeUntil_spec stop type 0 (by omega) (by omega) with ⟨n,lt,ok,closes⟩|⟨fatal,never⟩
 · refine .inl ⟨n,?_,closes⟩
   rw [skipThrough,ok,ok_bind,if_pos (by omega)]
 · exact .inr ⟨by rw [skipThrough,fatal,error_bind],never⟩

theorem unclosed_char {c:Char} (plain:closing c=none) : Unclosed (c::type) ↔ Unclosed type := by
 refine ⟨fun h=>?_,.char plain⟩
 cases h with
 | char _ below=>exact below
 | group pair | never pair=>simp [plain] at pair

theorem unclosed_bracket {c stop:Char} (pair:closing c=some stop) (short:type.length < 2^31) :
 (∃rest,skipThrough stop type=.ok rest ∧ (Unclosed (c::type) ↔ Unclosed rest)) ∨
  skipThrough stop type=.error .fatal ∧ Unclosed (c::type) := by
 rcases skipThrough_spec stop short with ⟨n,ok,closes,first⟩|⟨fatal,never⟩
 · refine .inl ⟨_,ok,fun h=>?_,.group pair closes first⟩
   cases h with
   | char plain=>simp [pair] at plain
   | @group _ stop' _ n' pair' closes' first' below=>
    obtain rfl:=Option.some.inj (pair.symm.trans pair')
    obtain rfl : n=n':=by
     by_contra ne
     rcases Nat.lt_or_gt_of_ne ne with lt|gt
     · exact first' n lt closes
     · exact first n' gt closes'
    exact below
   | never pair' opened=>
    obtain rfl:=Option.some.inj (pair.symm.trans pair')
    exact absurd closes (opened n)
 · exact .inr ⟨fatal,.never pair never⟩

theorem closing_digit {c:Char} (digit:c.isDigit=true) : closing c=none := by
 have plain:∀d∈['[','{','('],d.isDigit=false:=by simp
 grind [closing]

theorem unclosed_skipDigits : Unclosed (skipDigits type) ↔ Unclosed type := by
 induction type with
 | nil=>rfl
 | cons c type ih=>
  rw [skipDigits,List.dropWhile_cons]
  split
  next digit=>exact ih.trans (unclosed_char (closing_digit digit)).symm
  next=>rfl

theorem unclosed_skipChar {c:Char} (plain:closing c=none) :
 Unclosed (skipChar c type) ↔ Unclosed type := by
 rw [skipChar]
 split
 next head=>
  obtain ⟨tail,rfl⟩:=List.head?_eq_some_iff.mp head
  exact (unclosed_char plain).symm
 next=>rfl

theorem unclosed_skipOffset : Unclosed (skipOffset type) ↔ Unclosed type :=
 unclosed_skipDigits.trans ((unclosed_skipChar rfl).trans (unclosed_skipChar rfl))

theorem skipThrough_digits (short:type.length < 2^31) :
 skipThrough ']' (skipDigits type)=skipThrough ']' type := by
 induction type with
 | nil=>rfl
 | cons c type ih=>
  rw [List.length_cons] at short
  rw [skipDigits,List.dropWhile_cons]
  split
  next digit=>
   have level:levelOf c=0:=by
    have plain:∀d∈[']','}',')','[','{','('],d.isDigit=false:=by simp
    grind [levelOf]
   have other:c ≠ ']':=fun eq=>by simp [eq] at digit
   refine (ih (by omega)).trans ?_
   rw [skipThrough,skipThrough,subtypeUntil,if_neg (by simp [other]),level,
    wrap_eq_self.mpr (by omega),Int.add_zero]
   rcases subtypeUntil_spec ']' type 0 (by omega) (by omega) with ⟨n,lt,ok,-⟩|⟨fatal,-⟩
   · simp only [ok,Except.map,ok_bind]
     rw [if_pos (by omega),if_pos (by omega),List.drop_succ_cons]
   · simp only [fatal,Except.map,error_bind]
  next=>rfl

theorem skipFirstType_unclosed (short:type.length < 2^31) :
 (∃rest,skipFirstType type=.ok rest ∧ (Unclosed type ↔ Unclosed rest)) ∨
  skipFirstType type=.error .fatal ∧ Unclosed type ∨
  skipFirstType type=.error .pastEnd ∧ ¬ Unclosed type := by
 induction type with
 | nil=>exact .inr (.inr ⟨rfl,nofun⟩)
 | cons c type ih=>
  rw [List.length_cons] at short
  have shorter:type.length < 2^31:=by omega
  have bracket {stop:Char} (pair:closing c=some stop) := unclosed_bracket pair shorter
  rw [skipFirstType]
  split
  next known=>
   have plain:closing c=none:=by
    have:∀d∈['[','{','('],d∉prefixes:=by simp [prefixes]
    grind [closing]
   rw [unclosed_char plain]
   exact ih (by omega)
  split
  next object=>
   refine .inl ⟨_,rfl,(unclosed_char (by rw [object]; rfl)).trans ?_⟩
   exact (unclosed_skipChar (c:= '?') rfl).symm
  split
  next array=>
   rw [skipThrough_digits (by omega)]
   exact (bracket (by rw [array]; rfl)).imp_right .inl
  split
  next struct=>exact (bracket (by rw [struct]; rfl)).imp_right .inl
  split
  next union=>exact (bracket (by rw [union]; rfl)).imp_right .inl
  next=>exact .inl ⟨_,rfl,unclosed_char (by simp_all [closing])⟩

theorem countArguments_unclosed (nargs:ℕ) (short:type.length < 2^31) :
 (∃r,countArguments type nargs=.ok r ∧ ¬ Unclosed type) ∨
  countArguments type nargs=.error .fatal ∧ Unclosed type ∨
  countArguments type nargs=.error .pastEnd ∧ ¬ Unclosed type := by
 fun_induction countArguments type nargs with
 | case1=>exact .inl ⟨_,rfl,nofun⟩
 | case2 type nargs ne stop h=>grind [skipFirstType_unclosed]
 | case3 type nargs ne rest h ih=>
  have:=skipOffset_length h
  grind [skipFirstType_unclosed,unclosed_skipOffset]

end Brackets

theorem seekArgument_ok {arg nargs:ℕ} {type:Text} {self:ℤ} {r:Text × ℕ × ℤ}
 (h:seekArgument arg type nargs self=.ok r) : r.1 <:+ type := by
 fun_induction seekArgument arg type nargs self with
 | case1=>grind
 | case2=>simp at h
 | case3 type nargs self _ rest eq ih=>grind [skipOffset_ok]

theorem seekArgument_error {arg nargs:ℕ} {type:Text} {self:ℤ} {stop:Stop}
 (h:(seekArgument arg type nargs self=.error stop) ∨
  ∃r,seekArgument arg type nargs self=.ok r ∧ r.1≠[] ∧ skipFirstType r.1=.error stop) :
 ∀k,countArguments type k=.error stop := by
 fun_induction seekArgument arg type nargs self with
 | case1 type nargs self done=>
  intro k
  rw [countArguments]
  grind
 | case2 type nargs self going stop' eq=>
  intro k
  rw [countArguments]
  grind
 | case3 type nargs self going rest eq ih=>grind [countArguments]

theorem readDigits_rest (f:ℤ → ℤ) (value:ℤ) (type:Text) :
 (readDigits f value type).2=skipDigits type := by
 induction type generalizing value with
 | nil=>rfl
 | cons c type ih=>
  rw [readDigits,skipDigits,List.dropWhile_cons]
  split
  · exact ih _
  · rfl

theorem readOffset_rest (type:Text) : (readOffset type).2=skipOffset type :=
 readDigits_rest ..

/-- The scan stops in the fatal error, or its cursor is within the string. -/
def Within {α:Type} (type:Text) : Scan (α × Text) → Prop
 | .error stop=>stop=.fatal
 | .ok (_,rest)=>rest <:+ type

theorem getArgumentInfo_within {type rest:Text} (h:skipFirstType type=.ok rest)
 (fatal:∀{stop},countArguments (skipDigits rest) 0=.error stop → stop=.fatal) (i:ℕ) :
 Within type (getArgumentInfo type i) ∧ Within type (copyArgumentType type i) := by
 obtain ⟨u,eq,-⟩:=skipDigits_ok h
 cases seek : seekArgument i (skipDigits rest) 0 0 with
 | error stop=>
  have:=fatal (seekArgument_error (.inl seek) 0)
  simpa [getArgumentInfo,copyArgumentType,h,seek,Within] using this
 | ok r=>
  obtain ⟨type',nargs,self⟩:=r
  have suffix:type' <:+ type:=(seekArgument_ok seek).trans ⟨u,eq.symm⟩
  by_cases empty : type'=[]
  · simp [getArgumentInfo,copyArgumentType,h,seek,Within,empty]
  · cases skip : skipFirstType type' with
    | error stop=>
     have:=fatal (seekArgument_error (.inr ⟨_,seek,empty,skip⟩) 0)
     simpa [getArgumentInfo,copyArgumentType,h,seek,Within,empty,skip]
      using this
    | ok rest'=>
     obtain ⟨u',eq',-⟩:=skipFirstType_ok skip
     have suffix':rest' <:+ type:=.trans ⟨u',eq'.symm⟩ suffix
     have suffix'':=(skipOffset_suffix rest').trans suffix'
     by_cases first : i=0
     · subst first
       simp [getArgumentInfo,copyArgumentType,firstType,h,seek,Within,Except.map,empty,skip,suffix']
     · simp [getArgumentInfo,copyArgumentType,firstType,h,seek,Within,Except.map,empty,skip,
        first,suffix',readOffset_rest,suffix'']

/-- The scans stay in the string exactly if it ends in a type or an offset, or a bracket that is not
closed stops them before. -/
theorem scans_within_iff (type:Text) (short:type.length < 2^31) :
 (∀i,Within type (getNumberOfArguments type) ∧ Within type (getSizeOfArguments type) ∧
   Within type (getArgumentInfo type i) ∧ Within type (copyReturnType type) ∧
   Within type (copyArgumentType type i)) ↔ Unclosed type ∨ endsInType type=true := by
 rcases skipFirstType_unclosed short with ⟨rest,h,unclosed⟩|⟨h,unclosed⟩|⟨h,closed⟩
 · obtain ⟨u,eq,last⟩:=skipDigits_ok h
   have ends:=endsInType_append (v:=skipDigits rest) last
   rw [←eq] at ends
   have length:(skipDigits rest).length < 2^31:=by grind
   have bounds:=countArguments_ends (skipDigits rest) 0
   have brackets:=countArguments_unclosed 0 length
   have counts:getNumberOfArguments type=countArguments (skipDigits rest) 0:=by
    simp [getNumberOfArguments,h]
   rw [counts,ends,unclosed,←unclosed_skipDigits]
   constructor
   · intro all
     have within:=(all 0).1
     rcases brackets with ⟨r,count,-⟩|⟨-,un⟩|⟨count,-⟩
     · exact .inr (bounds.2 r count).2
     · exact .inl un
     · simp [count,Within] at within
   · intro cond
     have fatal:∀{stop},countArguments (skipDigits rest) 0=.error stop → stop=.fatal:=by grind
     refine fun i=>⟨?_,?_,(getArgumentInfo_within h fatal i).1,?_,
      (getArgumentInfo_within h fatal i).2⟩
     · rcases brackets with ⟨r,count,-⟩|⟨count,-⟩|⟨count,-⟩ <;> grind [Within]
     · simp [getSizeOfArguments,h,Within,readDigits_rest]
       exact ⟨u,eq.symm⟩
     · obtain ⟨w,eq',-⟩:=skipFirstType_ok h
       simp [copyReturnType,firstType,h,Within]
       exact ⟨w,eq'.symm⟩
 · simp [getNumberOfArguments,getSizeOfArguments,getArgumentInfo,copyReturnType,
    copyArgumentType,firstType,h,Within,unclosed]
 · simp [getNumberOfArguments,h,Within,skipFirstType_pastEnd h,closed]

theorem struct_pointer_within :
 Within "v24@0:8^{P=dd}16".toList (getNumberOfArguments "v24@0:8^{P=dd}16".toList) ∧
  Within "v24@0:8^{P=dd}16".toList (copyArgumentType "v24@0:8^{P=dd}16".toList 2) :=
 have within:=(scans_within_iff "v24@0:8^{P=dd}16".toList (by decide)).mpr (.inr rfl) 2
 ⟨within.1,within.2.2.2.2⟩

theorem empty_string_left :
 ¬ Within [] (copyReturnType []) ∧ ¬ Within [] (getNumberOfArguments []) := by
 simp [copyReturnType,getNumberOfArguments,firstType,skipFirstType,Within]

end Bounds

end ObjcRuntime.Encoding
