import ObjcRuntime.TypeEncodings

/-!
The accessors of a method's type string against one split of the string into its types, hints and
offsets.
-/

set_option autoImplicit false
namespace ObjcRuntime.Encoding

structure Argument where
 type : Text
 hint : Bool
 negative : Bool
 digits : Text
 all : ∀c∈digits,c.isDigit=true

def Argument.text (a:Argument) : Text :=
 a.type++((if a.hint then ['+'] else [])++((if a.negative then ['-'] else [])++a.digits))

def decimal (value:ℕ) (digits:Text) : ℕ :=
 digits.foldl (fun v c=>v*10+(c.toNat - '0'.toNat)) value

def Argument.offset (a:Argument) : ℤ :=
 if a.negative then -decimal 0 a.digits else decimal 0 a.digits

def argumentOf (type rest:Text) : Argument where
 type := type.take (type.length-rest.length)
 hint := rest.head?=some '+'
 negative := (skipChar '+' rest).head?=some '-'
 digits := (skipChar '-' (skipChar '+' rest)).takeWhile Char.isDigit
 all := fun c hc=>List.all_eq_true.mp List.all_takeWhile c hc

inductive Splits : Text → List Argument → Prop
 | nil : Splits [] []
 | cons {type rest:Text} {args:List Argument} (h:skipFirstType type=.ok rest)
   (below:Splits (skipOffset rest) args) : Splits type (argumentOf type rest::args)

def Signature (type ret frame:Text) (args:List Argument) : Prop :=
 ∃rest,skipFirstType type=.ok rest ∧ type=ret++rest ∧
  frame=rest.takeWhile Char.isDigit ∧ Splits (skipDigits rest) args

theorem firstType_ok {type rest:Text} (h:skipFirstType type=.ok rest) :
 ∃u,type=u++rest ∧ firstType type=.ok (u,rest) := by
 obtain ⟨u,rfl,-⟩:=skipFirstType_ok h
 exact ⟨u,rfl,by simp [firstType,h]⟩

theorem skipChar_text (c:Char) (type:Text) :
 (if type.head?=some c then [c] else [])++skipChar c type=type := by
 rw [skipChar]
 grind [List.head?_eq_some_iff]

theorem argumentOf_text {type rest:Text} (h:skipFirstType type=.ok rest) :
 type=(argumentOf type rest).text++skipOffset rest := by
 obtain ⟨u,rfl,-⟩:=skipFirstType_ok h
 have digits:(skipChar '-' (skipChar '+' rest)).takeWhile Char.isDigit++skipOffset rest =
   skipChar '-' (skipChar '+' rest) := List.takeWhile_append_dropWhile
 simp only [Argument.text,argumentOf,List.append_assoc,digits,decide_eq_true_eq,skipChar_text]
 simp

theorem Splits.text {type:Text} {args:List Argument} (h:Splits type args) :
 type=args.flatMap Argument.text := by
 induction h with
 | nil=>rfl
 | cons h _ ih=>
  rw [List.flatMap_cons,←ih]
  exact argumentOf_text h

theorem Splits.length_le {type:Text} {args:List Argument} (h:Splits type args) :
 args.length ≤ type.length := by
 induction h with
 | nil=>exact Nat.le_refl _
 | cons h _ ih=>
  have:=skipOffset_length h
  grind

theorem countArguments_splits {type:Text} {nargs:ℕ} {r:ℕ × Text}
 (h:countArguments type nargs=.ok r) (fits:nargs+type.length < 2^32) :
 ∃args,Splits type args ∧ r.1=nargs+args.length := by
 fun_induction countArguments type nargs with
 | case1 nargs=>
  cases h
  exact ⟨[],.nil,rfl⟩
 | case2=>cases h
 | case3 type nargs _ rest eq ih=>
  have shorter:=skipOffset_length eq
  rw [Nat.mod_eq_of_lt (by omega)] at h ih
  obtain ⟨args,splits,count⟩:=ih h (by omega)
  exact ⟨_,.cons eq splits,by grind⟩

theorem countArguments_step {type rest:Text} (skip:skipFirstType type=.ok rest) (nargs:ℕ) :
 countArguments type nargs=countArguments (skipOffset rest) ((nargs+1) % 2^32) := by
 have nonempty:type≠[]:=by
  rintro rfl
  cases skip
 grind [countArguments]

theorem Splits.count {type:Text} {args:List Argument} (h:Splits type args) {nargs:ℕ}
 (fits:nargs < 2^32) : countArguments type nargs=.ok ((nargs+args.length) % 2^32,[]) := by
 induction h generalizing nargs with
 | nil=>
  rw [countArguments,if_pos rfl,List.length_nil,Nat.add_zero,Nat.mod_eq_of_lt fits]
 | cons skip _ ih=>
  rw [countArguments_step skip,ih (Nat.mod_lt _ (by decide))]
  grind

theorem decimal_mono (value:ℕ) (digits:Text) : value ≤ decimal value digits := by
 induction digits generalizing value with
 | nil=>exact Nat.le_refl _
 | cons c digits ih=>
  have:=ih (value*10+(c.toNat - '0'.toNat))
  grind [decimal]

def Argument.machineOffset (a:Argument) : ℤ :=
 let value:=(readDigits wrap 0 a.digits).1
 if a.negative then wrap (-value) else value

theorem readDigits_decimal {value:ℕ} {digits:Text} (all:∀c∈digits,c.isDigit=true)
 (small:decimal value digits<2^31) : (readDigits wrap value digits).1=decimal value digits := by
 induction digits generalizing value with
 | nil=>rfl
 | cons c digits ih=>
  rw [List.forall_mem_cons] at all
  have small':decimal (value*10+(c.toNat - '0'.toNat)) digits<2^31:=small
  have le:=decimal_mono (value*10+(c.toNat - '0'.toNat)) digits
  have low : '0'.toNat ≤ c.toNat:=by
   have digit:=all.1
   simp only [Char.isDigit,Bool.and_eq_true,decide_eq_true_eq] at digit
   exact digit.1
  have fits:wrap (value*10+(c.toNat - '0'.toNat)) =
    ((value*10+(c.toNat - '0'.toNat) : ℕ) : ℤ) := by
   rw [wrap_eq_self.mpr (by omega)]
   omega
  rw [readDigits,if_pos all.1,fits]
  exact ih all.2 small'

theorem Argument.machineOffset_eq {a:Argument} (small:decimal 0 a.digits<2^31) :
 a.machineOffset=a.offset := by
 have value:(readDigits wrap 0 a.digits).1=decimal 0 a.digits:=readDigits_decimal a.all small
 grind [machineOffset, offset, wrap_eq_self]

theorem readDigits_takeWhile (value:ℤ) (type:Text) :
 (readDigits wrap value (type.takeWhile Char.isDigit)).1=(readDigits wrap value type).1 := by
 induction type generalizing value with
 | nil=>rfl
 | cons c type ih=>grind [readDigits,List.takeWhile_cons]

theorem readOffset_value (type rest:Text) :
 (readOffset rest).1=(argumentOf type rest).machineOffset := by
 simp only [readOffset,Argument.machineOffset,argumentOf,decide_eq_true_eq,readDigits_takeWhile]

theorem Splits.seek {type:Text} {args:List Argument} (h:Splits type args)
 (arg nargs:ℕ) (self:ℤ) (le:nargs ≤ arg) (fits:nargs+args.length < 2^32) :
 ∃type',seekArgument arg type nargs self=.ok (type',min arg (nargs+args.length),
   if nargs=0 ∧ 0 < arg then (args.head?.map Argument.machineOffset).getD self else self) ∧
  Splits type' (args.drop (arg-nargs)) := by
 induction h generalizing nargs self with
 | nil=>exact ⟨[],by rw [seekArgument]; simp [le],by simpa using Splits.nil⟩
 | @cons type rest args skip below ih=>
  by_cases here : nargs=arg
  · subst here
    refine ⟨type,?_,?_⟩
    · rw [seekArgument,if_pos (.inr rfl)]
      grind
    · rw [Nat.sub_self]
      exact .cons skip below
  · rw [List.length_cons] at fits
    obtain ⟨type',seek,splits⟩:=ih (nargs+1)
      (if nargs=0 then (readOffset rest).1 else self) (by omega) (by omega)
    have nonempty:type≠[]:=by
     rintro rfl
     cases skip
    refine ⟨type',?_,?_⟩
    · rw [seekArgument,if_neg (by simp [nonempty,here]),Nat.mod_eq_of_lt (by omega)]
      grind [readOffset_value]
    · rw [show arg-nargs=arg-(nargs+1)+1 by omega]
      exact splits

section Accessors

variable {type ret frame:Text} {args:List Argument}

theorem Signature.few (sig:Signature type ret frame args) (short:type.length < 2^31) :
 0+args.length < 2^32 := by
 obtain ⟨rest,skip,whole,-,splits⟩:=sig
 have:=splits.length_le
 have:=(skipDigits_suffix rest).length_le
 have:=congrArg List.length whole
 grind

omit type ret frame in
theorem head_eq {i:ℕ} (hi:i < args.length) : args.head?=some args[0] := by
 rw [List.head?_eq_getElem?,List.getElem?_eq_getElem]

theorem getArgumentInfo_lt (sig:Signature type ret frame args) (short:type.length < 2^31) {i:ℕ}
 (hi:i < args.length) :
 ∃type' rest rest',getArgumentInfo type i=.ok (⟨i,some type',
   if i=0 then 0 else wrap (args[i].machineOffset-args[0].machineOffset)⟩,rest') ∧
  firstType type'=.ok (args[i].type,rest) := by
 have few:=sig.few short
 obtain ⟨rest,skip,-,-,splits⟩:=sig
 obtain ⟨type',seek,splits'⟩:=splits.seek i 0 0 (Nat.zero_le i) few
 rw [Nat.sub_zero,List.drop_eq_getElem_cons hi] at splits'
 generalize ha : args[i]=a at splits'
 cases splits' with
 | @cons _ rest' _ skip' below=>
  have nonempty:type'≠[]:=by
   rintro rfl
   cases skip'
  have first:firstType type'=.ok ((argumentOf type' rest').type,rest'):=by
   simp [firstType,skip',argumentOf]
  have least:min i (0+args.length)=i:=by omega
  by_cases zero : i=0
  · subst zero
    exact ⟨type',rest',rest',by simp [getArgumentInfo,skip,seek,nonempty,skip'],first⟩
  · have value:=readOffset_value type' rest'
    refine ⟨type',rest',skipOffset rest',?_,first⟩
    rw [least,if_pos ⟨rfl,by omega⟩] at seek
    simp [getArgumentInfo,skip,seek,nonempty,skip',zero,head_eq hi,value,readOffset_rest]

theorem getArgumentInfo_small (sig:Signature type ret frame args) (short:type.length < 2^31)
 (small:∀a∈args,decimal 0 a.digits<2^31) {i:ℕ} (hi:i < args.length) :
 ∃type' rest',getArgumentInfo type i=.ok (⟨i,some type',
  if i=0 then 0 else wrap (args[i].offset-args[0].offset)⟩,rest') := by
 grind [getArgumentInfo_lt, Argument.machineOffset_eq]

theorem getArgumentInfo_ge (sig:Signature type ret frame args) (short:type.length < 2^31) {i:ℕ}
 (hi:args.length ≤ i) :
 getArgumentInfo type i=.ok (⟨args.length,none,0⟩,[]) := by
 have few:=sig.few short
 obtain ⟨rest,skip,-,-,splits⟩:=sig
 obtain ⟨type',seek,splits'⟩:=splits.seek i 0 0 (Nat.zero_le i) few
 rw [Nat.sub_zero,List.drop_of_length_le hi] at splits'
 cases splits'
 simp [getArgumentInfo,skip,seek,Nat.min_eq_right hi]

structure Agree (type ret frame:Text) (args:List Argument) : Prop where
 returnType : ∃rest,copyReturnType type=.ok (ret,rest)
 info : ∀i (h:i < args.length),∃type' rest,getArgumentInfo type i=.ok
  (⟨i,some type',if i=0 then 0 else args[i].offset-args[0].offset⟩,rest)
 beyond : ∀i ≥ args.length,∃rest,getArgumentInfo type i=.ok (⟨args.length,none,0⟩,rest)
 copies : ∀i (h:i < args.length),∃rest,copyArgumentType type i=.ok (some args[i].type,rest)
 same : ∀i,∃text rest,copyArgumentType type i=.ok (text,rest) ∧
  ∀length ≥ (text.getD []).length,getArgumentType type i length =
   .ok (text.getD []++List.replicate (length-(text.getD []).length) '\x00')
 text : type=ret++frame++args.flatMap Argument.text

theorem accessors_agree_iff {n:ℕ} {rest:Text} (short:type.length < 2^31)
 (scan:getNumberOfArguments type=.ok (n,rest)) :
 ∃ret frame args,Signature type ret frame args ∧ args.length=n ∧
  ((∀a∈args,decimal 0 a.digits<2^31) → (Agree type ret frame args ↔ ∀a∈args,∀first∈args.head?,
    -2^31 ≤ a.offset-first.offset ∧ a.offset-first.offset<2^31)) := by
 cases skip : skipFirstType type with
 | error stop=>simp [getNumberOfArguments,skip] at scan
 | ok after=>
  rw [getNumberOfArguments,skip,ok_bind] at scan
  obtain ⟨ret,whole,first⟩:=firstType_ok skip
  have shorter:=(skipDigits_suffix after).length_le
  have length:=congrArg List.length whole
  rw [List.length_append] at length
  obtain ⟨args,splits,count⟩:=countArguments_splits scan (by omega)
  have sig:Signature type ret (after.takeWhile Char.isDigit) args :=
   ⟨after,skip,whole,rfl,splits⟩
  refine ⟨ret,_,args,sig,by simpa using count.symm,fun small=>⟨fun agree a ha b hb=>?_,
   fun fits=>⟨⟨after,first⟩,fun i hi=>?_,fun i hi=>⟨[],getArgumentInfo_ge sig short hi⟩,
    fun i hi=>?_,fun i=>?_,?_⟩⟩⟩
  · obtain ⟨i,hi,rfl⟩:=List.mem_iff_getElem.mp ha
    obtain ⟨type',rest',eq⟩:=agree.info i hi
    grind [getArgumentInfo_small, head_eq, wrap_eq_self]
  · grind [getArgumentInfo_small, wrap_eq_self, head_eq]
  · obtain ⟨type',rest',_,eq,text⟩:=getArgumentInfo_lt sig short hi
    exact ⟨rest',by simp [copyArgumentType,eq,text,Except.map]⟩
  · by_cases hi : i < args.length
    · obtain ⟨type',rest',_,eq,text⟩:=getArgumentInfo_lt sig short hi
      refine ⟨some args[i].type,rest',by simp [copyArgumentType,eq,text,Except.map],
       fun length enough=>?_⟩
      simp only [Option.getD_some] at enough
      simp [getArgumentType,eq,text,List.take_of_length_le enough]
    · have eq:=getArgumentInfo_ge sig short (Nat.le_of_not_lt hi)
      exact ⟨none,[],by simp [copyArgumentType,eq],by simp [getArgumentType,eq]⟩
  · rw [←splits.text,List.append_assoc,skipDigits,List.takeWhile_append_dropWhile]
    exact whole

def farOffsets : Text :=
 ['v','8','@','-','1','@','2','1','4','7','4','8','3','6','4','7']

theorem farOffsets_signature :
 ∃args,Signature farOffsets ['v'] ['8'] args ∧ args.map Argument.offset=[-1,2147483647] ∧
  ∀a∈args,decimal 0 a.digits<2^31 :=
 ⟨_,⟨farOffsets.tail,rfl,rfl,rfl,.cons rfl (.cons rfl .nil)⟩,rfl,by decide⟩

theorem farOffsets_counted : getNumberOfArguments farOffsets=.ok (2,[]) ∧
  ∃ret frame args,Signature farOffsets ret frame args ∧ args.length=2 ∧
   ((∀a∈args,decimal 0 a.digits<2^31) →
    (Agree farOffsets ret frame args ↔ ∀a∈args,∀first∈args.head?,
     -2^31 ≤ a.offset-first.offset ∧ a.offset-first.offset<2^31)) := by
 obtain ⟨args,⟨rest,skip,-,-,splits⟩,offsets,-⟩:=farOffsets_signature
 have scan:getNumberOfArguments farOffsets=.ok (2,[]):=by
  rw [getNumberOfArguments,skip,ok_bind,splits.count (by decide),show args.length=2 by
   simpa using congrArg List.length offsets]
  rfl
 exact ⟨scan,accessors_agree_iff (by decide) scan⟩

theorem farOffsets_disagree :
 ∃args,Signature farOffsets ['v'] ['8'] args ∧ (∀a∈args,decimal 0 a.digits<2^31) ∧
  ¬ Agree farOffsets ['v'] ['8'] args := by
 obtain ⟨args,sig,offsets,small⟩:=farOffsets_signature
 refine ⟨args,sig,small,fun agree=>?_⟩
 obtain ⟨a,b,rfl⟩ : ∃a b,args=[a,b] :=
  List.length_eq_two.mp (by simpa using congrArg List.length offsets)
 obtain ⟨_,_,eq⟩:=agree.info 1 (by simp)
 obtain ⟨_,_,eq'⟩:=getArgumentInfo_small sig (by decide) small (i:=1) (by simp)
 rw [eq] at eq'
 simp only [Except.ok.injEq,Prod.mk.injEq,ArgumentInfo.mk.injEq] at eq'
 have fits:=wrap_eq_self.mp eq'.1.2.2.symm
 simp at fits offsets
 omega

end Accessors

end ObjcRuntime.Encoding
