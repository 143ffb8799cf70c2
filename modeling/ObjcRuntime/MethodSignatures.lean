import ObjcRuntime.EncodingAccessors

/-!
The types of the headers as a grammar, and where `SkipFirstType` splits a method's type string.
-/

set_option autoImplicit false
namespace ObjcRuntime.Encoding

inductive Modifier
 | const | in_ | inout | out | bycopy | byref | oneway | atomic | complex
 deriving DecidableEq

def Modifier.code : Modifier → Char
 | const=> 'r'
 | in_=> 'n'
 | inout=> 'N'
 | out=> 'o'
 | bycopy=> 'O'
 | byref=> 'R'
 | oneway=> 'V'
 | atomic=> 'A'
 | complex=> 'j'

def Modifier.known (m:Modifier) : Bool := m.code∈prefixes

def basicCodes : List Char :=
 ['@','#',':','c','C','s','S','i','I','l','L','q','Q','t','T','f','d','D','b','B','v','?','*','%']

abbrev Digits := { s : Text // s≠[] ∧ ∀c∈s,c.isDigit=true }
abbrev Label := { s : Text // ∀c∈s,levelOf c=0 }

mutual
inductive Ty
 | basic (c:{ c : Char // c∈basicCodes })
 | block
 | pointer (t:Ty)
 | modified (m:Modifier) (t:Ty)
 | array (count:Digits) (t:Ty)
 | struct (name:Label) (fields:Fields)
 | union (name:Label) (fields:Fields)
inductive Fields
 | nil
 | cons (t:Ty) (ts:Fields)
end

mutual
def Ty.text : Ty → Text
 | .basic c=>[c.1]
 | .block=>['@','?']
 | .pointer t=> '^' :: t.text
 | .modified m t=>m.code::t.text
 | .array count t=> '[' :: (count.1++(t.text++[']']))
 | .struct name fields=> '{' :: (name.1++(fields.text++['}']))
 | .union name fields=> '(' :: (name.1++(fields.text++[')']))
def Fields.text : Fields → Text
 | .nil=>[]
 | .cons t ts=>t.text++ts.text
end

/-- How many modifiers `SkipFirstType` does not know stand before the type and what it points to. -/
def Ty.unknown : Ty → ℕ
 | .pointer t=>t.unknown
 | .modified m t=>(if m.known then 0 else 1)+t.unknown
 | _=>0

structure Parameter where
 type : Ty
 negative : Bool
 digits : Digits

def Parameter.text (p:Parameter) : Text :=
 p.type.text++((if p.negative then ['-'] else [])++p.digits.1)

structure Method where
 ret : Ty
 frame : Digits
 params : List Parameter

def Method.text (m:Method) : Text :=
 m.ret.text++(m.frame.1++m.params.flatMap Parameter.text)

def Method.unknown (m:Method) : ℕ := m.ret.unknown+(m.params.map (·.type.unknown)).sum

/-- The brackets in the text are closed, so that a search for the end of what is around it goes on
behind it. -/
def Balanced (s:Text) : Prop :=
 ∀stop∈[']','}',')'],∀level : ℤ,0 ≤ level → level+s.length < 2^31 → ∀rest,
  subtypeUntil stop level (s++rest)=(subtypeUntil stop level rest).map (· + s.length)

theorem map_map {α β γ:Type} (f:α → β) (g:β → γ) (x:Scan α) :
 (x.map f).map g=x.map (g ∘ f) := by cases x <;> rfl

theorem balanced_nil : Balanced [] := fun stop _ level _ _ rest=>by
 cases h : subtypeUntil stop level rest <;> simp [h,Except.map]

theorem Balanced.append {s t:Text} (hs:Balanced s) (ht:Balanced t) : Balanced (s++t) := by
 intro stop hstop level hlevel hfits rest
 rw [List.length_append] at hfits
 rw [List.append_assoc,hs stop hstop level hlevel (by omega),
  ht stop hstop level hlevel (by omega),map_map]
 simp [Function.comp_def,Nat.add_assoc,Nat.add_comm t.length]

theorem balanced_singleton {c:Char} (h:levelOf c=0) : Balanced [c] := by
 intro stop hstop level hlevel hfits rest
 rw [List.length_singleton] at hfits
 have same:wrap level=level:=wrap_eq_self.mpr (by omega)
 grind [levelOf, subtypeUntil]

theorem balanced_of_plain {s:Text} (h:∀c∈s,levelOf c=0) : Balanced s := by
 induction s with
 | nil=>exact balanced_nil
 | cons c s ih=>
  rw [List.forall_mem_cons] at h
  exact (balanced_singleton h.1).append (ih h.2)

theorem Balanced.bracket {s:Text} {first last:Char} (hs:Balanced s)
 (h₁:levelOf first=1) (h₂:levelOf last = -1) : Balanced (first::(s++[last])) := by
 intro stop hstop level hlevel hfits rest
 simp only [List.length_cons,List.length_append,List.length_nil] at hfits
 have other:first≠stop:=by grind [levelOf]
 simp only [List.cons_append,List.append_assoc,List.nil_append]
 rw [subtypeUntil,if_neg (by simp [other]),h₁,wrap_eq_self.mpr (by omega),
  hs stop hstop _ (by omega) (by omega),subtypeUntil,if_neg (by omega),h₂,map_map,map_map,
  Int.add_neg_cancel_right,wrap_eq_self.mpr (by omega)]
 simp [Function.comp_def,Nat.add_assoc,Nat.add_comm]

mutual
theorem Ty.balanced : ∀t : Ty,Balanced t.text
 | .basic c=>balanced_singleton ((by simp [basicCodes,levelOf] : ∀c∈basicCodes,levelOf c=0) c.1 c.2)
 | .block=>balanced_of_plain (by simp [Ty.text,levelOf])
 | .pointer t=>(balanced_singleton (c:= '^') rfl).append t.balanced
 | .modified m t=>(balanced_singleton (c:=m.code) (by cases m <;> rfl)).append t.balanced
 | .array count t=>by
  have digits:Balanced count.1:=balanced_of_plain fun c hc=>by
   have plain:∀d∈[']','}',')','[','{','('],d.isDigit=false:=by simp
   have digit:=count.2.2 c hc
   grind [levelOf]
  rw [Ty.text,←List.append_assoc]
  exact (digits.append t.balanced).bracket rfl rfl
 | .struct name fields=>by
  rw [Ty.text,←List.append_assoc]
  exact ((balanced_of_plain name.2).append fields.balanced).bracket rfl rfl
 | .union name fields=>by
  rw [Ty.text,←List.append_assoc]
  exact ((balanced_of_plain name.2).append fields.balanced).bracket rfl rfl
theorem Fields.balanced : ∀ts : Fields,Balanced ts.text
 | .nil=>balanced_nil
 | .cons t ts=>t.balanced.append ts.balanced
end

def Fresh (s:Text) : Prop := ∀c∈s.head?,c.isDigit=false ∧ c ≠ '+' ∧ c ≠ '-'

theorem Ty.fresh (t:Ty) (rest:Text) : Fresh (t.text++rest) ∧ t.text++rest≠[] := by
 cases t with
 | basic c=>
  have plain:∀c∈basicCodes,c.isDigit=false ∧ c ≠ '+' ∧ c ≠ '-':=by simp [basicCodes]
  simpa [Fresh,Ty.text] using plain c.1 c.2
 | modified m t=>cases m <;> simp [Fresh,Ty.text,Modifier.code,Char.isDigit]
 | _=>simp [Fresh,Ty.text,Char.isDigit]

theorem Fresh.skipDigits {s:Text} (h:Fresh s) (digits:Text)
 (all:∀c∈digits,c.isDigit=true) : skipDigits (digits++s)=s := by
 rw [Encoding.skipDigits,List.dropWhile_append_of_pos all]
 cases s with
 | nil=>rfl
 | cons c s=>simp [(h c rfl).1]

theorem Fresh.skipOffset {s:Text} (h:Fresh s) (negative:Bool) (digits:Digits) :
 skipOffset ((if negative then ['-'] else [])++(digits.1++s))=s := by
 obtain ⟨digits,nonempty,all⟩:=digits
 have skip:=h.skipDigits digits all
 cases digits with
 | nil=>cases nonempty rfl
 | cons c digits=>
  have plain:∀d∈['+','-'],d.isDigit=false:=by simp
  have signs:∀d∈['+','-'],c≠d:=by
   rintro d hd rfl
   simp [plain c hd] at all
  cases negative <;> grind [Encoding.skipOffset,skipChar]

theorem Fresh.skipOffset_self {s:Text} (h:Fresh s) : Encoding.skipOffset s=s := by
 have skip:=h.skipDigits [] (by simp)
 cases s with
 | nil=>rfl
 | cons c s=>
  have head:=h c rfl
  grind [Encoding.skipOffset,skipChar]

theorem skipThrough_balanced {s rest:Text} {stop:Char} (h:Balanced s)
 (hstop:stop∈[']','}',')']) (short:s.length < 2^31) :
 skipThrough stop (s++stop::rest)=.ok rest := by
 rw [skipThrough,h stop hstop 0 (Int.le_refl 0) (by omega),subtypeUntil,if_pos ⟨rfl,rfl⟩]
 simp [Except.map]
 omega

def Numbered (rest:Text) : Prop := ∀c∈rest.head?,c ≠ '?'

theorem skipFirstType_text {rest:Text} (h:Numbered rest) : ∀t : Ty,t.text.length < 2^31 →
 ∃s,skipFirstType (t.text++rest)=.ok s ∧ (t.unknown=0 ∧ s=rest ∨
  ∃t' : Ty,s=t'.text++rest ∧ t.unknown=t'.unknown+1)
 | .basic c,_=>by
  have plain:∀c∈basicCodes,c∉prefixes ∧ c ≠ '[' ∧ c ≠ '{' ∧ c ≠ '(':=by simp [basicCodes,prefixes]
  obtain ⟨h₁,h₂,h₃,h₄⟩:=plain c.1 c.2
  have other:rest.head?≠some '?':=fun eq=>h '?' eq rfl
  exact ⟨rest,by simp [Ty.text,skipFirstType,h₁,h₂,h₃,h₄,other],.inl ⟨rfl,rfl⟩⟩
 | .block,_=>⟨rest,rfl,.inl ⟨rfl,rfl⟩⟩
 | .pointer t,short=>by
  rw [Ty.text,List.cons_append,skipFirstType,if_pos (by decide)]
  exact skipFirstType_text h t (Nat.lt_of_succ_lt short)
 | .modified m t,short=>by
  rw [Ty.text,List.cons_append,skipFirstType]
  by_cases known : m.code∈prefixes
  · rw [if_pos known]
    simpa [Ty.unknown,Modifier.known,known] using
     skipFirstType_text h t (Nat.lt_of_succ_lt short)
  · have more:(Ty.modified m t).unknown=t.unknown+1:=by
     simp [Ty.unknown,Modifier.known,known,Nat.add_comm]
    refine ⟨t.text++rest,?_,.inr ⟨t,rfl,more⟩⟩
    cases m <;> simp [Modifier.code,prefixes] at known ⊢
 | .array count t,short=>by
  simp only [Ty.text,List.length_cons,List.length_append] at short
  refine ⟨rest,?_,.inl ⟨rfl,rfl⟩⟩
  have skip:=(t.fresh (']' :: rest)).1.skipDigits count.1 count.2.2
  have through:skipThrough ']' (t.text ++ ']' :: rest)=.ok rest :=
   skipThrough_balanced t.balanced (by simp) (by omega)
  simpa [Ty.text,skipFirstType,prefixes,skip] using through
 | .struct name fields,short=>by
  simp only [Ty.text,List.length_cons,List.length_append] at short
  refine ⟨rest,?_,.inl ⟨rfl,rfl⟩⟩
  have inside:=(balanced_of_plain name.2).append fields.balanced
  have through:skipThrough '}' (name.1++fields.text ++ '}' :: rest)=.ok rest :=
   skipThrough_balanced inside (by simp) (by grind)
  simpa [Ty.text,skipFirstType,prefixes] using through
 | .union name fields,short=>by
  simp only [Ty.text,List.length_cons,List.length_append] at short
  refine ⟨rest,?_,.inl ⟨rfl,rfl⟩⟩
  have inside:=(balanced_of_plain name.2).append fields.balanced
  have through:skipThrough ')' (name.1++fields.text ++ ')' :: rest)=.ok rest :=
   skipThrough_balanced inside (by simp) (by grind)
  simpa [Ty.text,skipFirstType,prefixes] using through

theorem countArguments_text {rest:Text} (h:Numbered rest) (t:Ty) (short:t.text.length < 2^31)
 (nargs:ℕ) : countArguments (t.text++rest) nargs =
  countArguments (skipOffset rest) ((nargs+t.unknown+1) % 2^32) := by
 induction k : t.unknown generalizing t nargs with
 | zero=>
  obtain ⟨s,skip,⟨-,rfl⟩ | ⟨t',-,more⟩⟩:=skipFirstType_text h t short
  · exact countArguments_step skip nargs
  · omega
 | succ k ih=>
  obtain ⟨s,skip,⟨none,-⟩ | ⟨t',rfl,more⟩⟩:=skipFirstType_text h t short
  · omega
  · obtain ⟨u,eq,-⟩:=skipFirstType_ok skip
    have shorter:=congrArg List.length eq
    simp only [List.length_append] at shorter
    rw [countArguments_step skip,(t'.fresh rest).1.skipOffset_self,ih t' (by omega) _ (by omega)]
    congr 1
    omega

theorem numbered_offset (negative:Bool) (digits:Digits) (rest:Text) :
 Numbered ((if negative then ['-'] else [])++(digits.1++rest)) := by
 obtain ⟨digits,nonempty,all⟩:=digits
 cases digits with
 | nil=>cases nonempty rfl
 | cons c digits=>
  have digit:c ≠ '?':=by
   rintro rfl
   simp [Char.isDigit] at all
  cases negative <;> simp [Numbered,digit]

theorem fresh_params (params:List Parameter) : Fresh (params.flatMap Parameter.text) := by
 cases params with
 | nil=>simp [Fresh]
 | cons p params=>
  rw [List.flatMap_cons,Parameter.text,List.append_assoc]
  exact (p.type.fresh _).1

theorem length_params (params:List Parameter) {p:Parameter} (hp:p∈params) :
 p.type.text.length ≤ (params.flatMap Parameter.text).length := by
 have le:=(List.sublist_flatten_of_mem (List.mem_map_of_mem (f:=Parameter.text) hp)).length_le
 simp only [Parameter.text,List.length_append] at le
 exact Nat.le_trans (Nat.le_add_right _ _) le

theorem countArguments_params (params:List Parameter)
 (short:(params.flatMap Parameter.text).length < 2^31) {nargs:ℕ} (fits:nargs < 2^32) :
 countArguments (params.flatMap Parameter.text) nargs =
  .ok ((nargs+params.length+(params.map (·.type.unknown)).sum) % 2^32,[]) := by
 induction params generalizing nargs with
 | nil=>exact Splits.nil.count fits
 | cons p params ih=>
  have first:=length_params (p::params) List.mem_cons_self
  rw [List.flatMap_cons,List.length_append] at short first
  rw [List.flatMap_cons,Parameter.text,List.append_assoc,List.append_assoc,
   countArguments_text (numbered_offset _ _ _) _ (by omega),(fresh_params params).skipOffset,
   ih (by omega) (Nat.mod_lt _ (by decide))]
  grind

theorem Method.count (m:Method) (short:m.text.length < 2^31) :
 getNumberOfArguments m.text=.ok ((m.params.length+m.unknown) % 2^32,[]) := by
 have numbered:Numbered (m.frame.1++m.params.flatMap Parameter.text) :=
  numbered_offset false m.frame _
 have parts:=short
 simp only [Method.text,List.length_append] at parts
 obtain ⟨s,skip,⟨none,rfl⟩ | ⟨t,rfl,more⟩⟩:=skipFirstType_text numbered m.ret (by omega)
 · rw [getNumberOfArguments,Method.text,skip,ok_bind,
    (fresh_params m.params).skipDigits _ m.frame.2.2,countArguments_params _ (by omega) (by decide)]
   simp [Method.unknown,none]
 · have self:skipDigits (t.text++(m.frame.1++m.params.flatMap Parameter.text))=_ :=
    (t.fresh _).1.skipDigits [] (by simp)
   have offset:skipOffset (m.frame.1++m.params.flatMap Parameter.text)=_ :=
    (fresh_params m.params).skipOffset false m.frame
   obtain ⟨u,eq,-⟩:=skipFirstType_ok skip
   have shorter:=congrArg List.length eq
   simp only [List.length_append] at shorter
   rw [getNumberOfArguments,Method.text,skip,ok_bind,self,
    countArguments_text numbered t (by omega),offset,
    countArguments_params _ (by omega) (Nat.mod_lt _ (by decide)),Method.unknown,more]
   congr 2
   omega

theorem Ty.unknown_lt : ∀t : Ty,t.unknown < t.text.length
 | .pointer t=>Nat.lt_succ_of_lt t.unknown_lt
 | .modified m t=>by
  have:=t.unknown_lt
  grind [Ty.unknown,Ty.text]
 | .basic _ | .block | .array _ _ | .struct _ _ | .union _ _=>Nat.succ_pos _

theorem Method.unknown_le (m:Method) : m.params.length+m.unknown ≤ m.text.length := by
 have params:m.params.length+(m.params.map (·.type.unknown)).sum ≤
   (m.params.flatMap Parameter.text).length := by
  induction m.params with
  | nil=>exact Nat.le_refl _
  | cons p params ih=>
   have:=p.type.unknown_lt
   simp only [List.length_cons,List.map_cons,List.sum_cons,List.flatMap_cons,List.length_append,
    Parameter.text]
   omega
 have:=m.ret.unknown_lt
 simp only [Method.unknown,Method.text,List.length_append]
 omega

theorem splits_params {params:List Parameter} (known:∀p∈params,p.type.unknown=0)
 (short:(params.flatMap Parameter.text).length < 2^31) :
 ∃args,Splits (params.flatMap Parameter.text) args ∧
  args.map (·.type)=params.map (·.type.text) := by
 induction params with
 | nil=>exact ⟨[],.nil,rfl⟩
 | cons p params ih=>
  have first:=length_params (p::params) List.mem_cons_self
  rw [List.flatMap_cons,List.length_append] at short first
  rw [List.forall_mem_cons] at known
  obtain ⟨args,splits,types⟩:=ih known.2 (by omega)
  obtain ⟨s,skip,⟨-,rfl⟩ | ⟨t,-,more⟩⟩:=skipFirstType_text
   (numbered_offset p.negative p.digits (params.flatMap Parameter.text)) p.type (by omega)
  · rw [List.flatMap_cons,Parameter.text,List.append_assoc,List.append_assoc]
    rw [←(fresh_params params).skipOffset p.negative p.digits] at splits
    exact ⟨_,.cons skip splits,by simp [argumentOf,types]⟩
  · omega

theorem method_split_iff (m:Method) (short:m.text.length < 2^31) :
 ((∃rest,getNumberOfArguments m.text=.ok (m.params.length,rest)) ∧ ∀i (h:i < m.params.length),
   ∃rest,copyArgumentType m.text i=.ok (some m.params[i].type.text,rest)) ↔
  m.ret.unknown=0 ∧ ∀p∈m.params,p.type.unknown=0 := by
 have le:=m.unknown_le
 have count:=m.count short
 rw [Nat.mod_eq_of_lt (by omega)] at count
 have parts:=short
 simp only [Method.text,List.length_append] at parts
 constructor
 · rintro ⟨⟨rest,counted⟩,-⟩
   have none_:m.unknown=0:=by grind
   rwa [Method.unknown,Nat.add_eq_zero_iff,List.sum_eq_zero_iff_forall_eq_nat,List.forall_mem_map]
    at none_
 · rintro ⟨ret,known⟩
   obtain ⟨args,splits,types⟩:=splits_params known (by omega)
   have sum:(m.params.map (·.type.unknown)).sum=0:=by
    apply List.sum_eq_zero_iff_forall_eq_nat.mpr
    simpa using known
   refine ⟨⟨[],by simp [count,Method.unknown,ret,sum]⟩,fun i hi=>?_⟩
   obtain ⟨s,skip,⟨-,rfl⟩ | ⟨t,-,more⟩⟩:=skipFirstType_text
    (numbered_offset false m.frame (m.params.flatMap Parameter.text)) m.ret (by omega)
   · rw [←(fresh_params m.params).skipDigits _ m.frame.2.2] at splits
     have sig:Signature m.text m.ret.text _ args:=⟨_,skip,rfl,rfl,splits⟩
     have length:args.length=m.params.length:=by simpa using congrArg List.length types
     have hi':i < args.length:=by omega
     have same:args[i].type=m.params[i].type.text:=by
      have at_i:=congrArg (·[i]?) types
      simpa [hi,hi'] using at_i
     obtain ⟨type,rest,_,info,first⟩:=getArgumentInfo_lt sig short hi'
     exact ⟨rest,by simp [copyArgumentType,info,first,same,Except.map]⟩
   · omega

/-- `- (void)set:(const struct P *)value` -/
def structSetter : Method where
 ret := .basic ⟨'v',by decide⟩
 frame := ⟨['2','4'],by simp⟩
 params :=
  [⟨.basic ⟨'@',by decide⟩,false,⟨['0'],by simp⟩⟩,⟨.basic ⟨':',by decide⟩,false,⟨['8'],by simp⟩⟩,
   ⟨.modified .const (.pointer (.struct ⟨['P','='],by simp [levelOf]⟩
     (.cons (.basic ⟨'d',by decide⟩) (.cons (.array ⟨['4'],by simp⟩ (.basic ⟨'i',by decide⟩))
      .nil)))),false,⟨['1','6'],by simp⟩⟩]

theorem structSetter_split : structSetter.text = "v24@0:8r^{P=d[4i]}16".toList ∧
 ∃rest,getNumberOfArguments structSetter.text=.ok (3,rest) :=
 ⟨by decide,((method_split_iff structSetter (by decide)).mpr ⟨rfl,by decide⟩).1⟩

/-- `- (void)set:(_Atomic int)value` -/
def atomicSetter : Method where
 ret := .basic ⟨'v',by decide⟩
 frame := ⟨['2','0'],by simp⟩
 params :=
  [⟨.basic ⟨'@',by decide⟩,false,⟨['0'],by simp⟩⟩,⟨.basic ⟨':',by decide⟩,false,⟨['8'],by simp⟩⟩,
   ⟨.modified .atomic (.basic ⟨'i',by decide⟩),false,⟨['1','6'],by simp⟩⟩]

theorem atomicSetter_miscounted :
 atomicSetter.text = "v20@0:8Ai16".toList ∧ atomicSetter.params.length=3 ∧
  getNumberOfArguments atomicSetter.text=.ok (4,[]) :=
 ⟨by decide,rfl,atomicSetter.count (by decide)⟩

end ObjcRuntime.Encoding
