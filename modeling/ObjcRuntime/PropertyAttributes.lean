import Mathlib

/-!
Printing and parsing of property attribute strings. A pointer into a string is the text from there
to the terminating NUL.
-/

set_option autoImplicit false
namespace ObjcRuntime.PropertyAttributes

abbrev Text := List Char

/-- An attribute as `iteratePropertyAttributes` passes it to its callback, by its four pointers. -/
structure Found where
 name : Text
 nameEnd : Text
 value : Text
 valueEnd : Text

def textBetween (first last:Text) : Text := first.take (first.length-last.length)

def Found.nameText (f:Found) : Text := textBetween f.name f.nameEnd
def Found.valueText (f:Found) : Text := textBetween f.value f.valueEnd

/-- `strcspn`, as the pointer to the first of the characters. -/
def seek (reject:List Char) (s:Text) : Text := s.dropWhile (· ∉ reject)

def findOne (start:Text) : Found :=
 if start.head?≠some '"' then ⟨start,start.tail,start.tail,seek [','] start⟩
 else
  let nameEnd:=seek ['"',','] start.tail
  ⟨start.tail,nameEnd,if nameEnd.head?=some '"' then nameEnd.tail else nameEnd,seek [','] start⟩

theorem seek_suffix (reject:List Char) (s:Text) : seek reject s <:+ s := List.dropWhile_suffix _

def found (attrs:Text) : List Found :=
 if attrs=[] then []
 else if attrs=seek [','] attrs then found (seek [','] attrs).tail
 else findOne attrs::found (seek [','] attrs).tail
termination_by attrs.length
decreasing_by all_goals
 have:=(seek_suffix [','] attrs).length_le
 have:=List.length_pos_iff.mpr ‹attrs≠[]›
 grind

/-- The number of attributes passed to the callback, an unsigned int, and what the callback made of
its state. -/
def iterate {σ:Type} (fn:Found → σ → σ × Bool) : List Found → σ → ℕ × σ
 | [],s=>(0,s)
 | f::fs,s=>
  match fn f s with
  | (s,true)=>(((iterate fn fs s).1+1) % 2^32,(iterate fn fs s).2)
  | (s,false)=>(1,s)

def iteratePropertyAttributes {σ:Type} (attrs:Text) (fn:Found → σ → σ × Bool) (s:σ) :
 ℕ × σ := iterate fn (found attrs) s

structure Attribute where
 name : Text
 value : Text
 deriving DecidableEq

/-- The records written so far, and how far the text behind them goes. -/
def copyOneAttribute (f:Found) (s:List Attribute × ℕ) : (List Attribute × ℕ) × Bool :=
 ((s.1++[⟨f.nameText,f.valueText⟩],s.2+f.nameText.length+1+f.valueText.length+1),true)

def copied (attrs:Text) : ℕ × List Attribute × ℕ :=
 iteratePropertyAttributes attrs copyOneAttribute ([],0)

def copyPropertyAttributeList (attrs:Text) : List Attribute :=
 if (copied attrs).1=0 then [] else (copied attrs).2.1

section Parsing

theorem textBetween_append (u v:Text) : textBetween (u++v) v=u := by simp [textBetween]

theorem seek_eq (reject:List Char) (s:Text) :
 ∃u v,s=u++v ∧ seek reject s=v ∧ (∀c∈u,c∉reject) ∧ ∀c∈v.head?,c∈reject := by
 refine ⟨_,_,(List.takeWhile_append_dropWhile).symm,rfl,fun c hc=>?_,fun c hc=>?_⟩
 · simpa using List.all_eq_true.mp List.all_takeWhile c hc
 · grind [List.head?_dropWhile_not]

theorem seek_append {reject:List Char} {u v:Text} (hu:∀c∈u,c∉reject)
 (hv:∀c∈v.head?,c∈reject) : seek reject (u++v)=v := by
 rw [seek,List.dropWhile_append_of_pos (by simpa using hu)]
 cases v with
 | nil=>rfl
 | cons c v=>simp [hv c rfl]

def parse : Text → Attribute
 | []=>⟨[],[]⟩
 | c::u=>
  if c = '"' then ⟨textBetween u (seek ['"'] u),(seek ['"'] u).tail⟩ else ⟨[c],u⟩

structure Within (attrs:Text) (f:Found) : Prop where
 name : f.name <:+ attrs
 nameEnd : f.nameEnd <:+ f.name
 value : f.value <:+ f.nameEnd
 valueEnd : f.valueEnd <:+ f.value

theorem findOne_spec {u v:Text} (hu : ',' ∉ u) (ne:u≠[]) (hv:∀c∈v.head?,c = ',') :
 Within (u++v) (findOne (u++v)) ∧ (findOne (u++v)).nameText=(parse u).name ∧
  (findOne (u++v)).valueText=(parse u).value := by
 have comma:seek [','] (u++v)=v :=
  seek_append (fun c hc=>by grind) (by simpa using hv)
 match u,ne with
 | c::u,_=>
  by_cases quote : c = '"'
  · subst quote
    obtain ⟨n,m,rfl,word,hn,hm⟩:=seek_eq ['"'] u
    have name:seek ['"',','] (n++(m++v))=m++v:=by
     refine seek_append (fun d hd=>by grind) fun d hd=>?_
     cases m with
     | nil | cons e m=>grind
    have long:findOne ('"'::(n++m)++v)=⟨n++(m++v),m++v,m.tail++v,v⟩:=by
     rw [findOne,if_neg (by simp),comma]
     simp only [List.cons_append,List.tail_cons,List.append_assoc,name]
     cases m with
     | nil=>
      have other:v.head?≠some '"':=fun h=>absurd (hv '"' h) (by decide)
      simp [other]
     | cons e m=>simp_all
    rw [long,parse,if_pos rfl,word,textBetween_append]
    refine ⟨⟨⟨['"'],by simp⟩,List.suffix_append ..,?_,List.suffix_append ..⟩,
     textBetween_append n (m++v),textBetween_append m.tail v⟩
    exact (List.tail_suffix m).elim fun w hw=>⟨w,by rw [←List.append_assoc,hw]⟩
  · have short:findOne (c::u++v)=⟨c::u++v,u++v,u++v,v⟩:=by grind [findOne]
    rw [short,parse,if_neg quote]
    refine ⟨⟨List.suffix_rfl,List.suffix_cons ..,List.suffix_rfl,List.suffix_append ..⟩,?_,?_⟩
    · exact textBetween_append [c] (u++v)
    · exact textBetween_append u v

theorem Within.mono {attrs attrs':Text} {f:Found} (h:Within attrs f) (le:attrs <:+ attrs') :
 Within attrs' f :=
 ⟨h.name.trans le,h.nameEnd,h.value,h.valueEnd⟩

def Found.attribute (f:Found) : Attribute := ⟨f.nameText,f.valueText⟩
def Found.size (f:Found) : ℕ := f.nameText.length+1+f.valueText.length+1

theorem copied_eq (attrs:Text) :
 copied attrs=((found attrs).length % 2^32,(found attrs).map Found.attribute,
  ((found attrs).map Found.size).sum) := by
 have run:∀(fs:List Found) (s:List Attribute × ℕ),iterate copyOneAttribute fs s =
   (fs.length % 2^32,s.1++fs.map Found.attribute,s.2+(fs.map Found.size).sum) := by
  intro fs
  induction fs with
  | nil=>simp [iterate]
  | cons f fs ih=>
   intro s
   simp [iterate,copyOneAttribute,ih,Found.attribute,Found.size]
   omega
 simpa [copied,iteratePropertyAttributes] using run (found attrs) ([],0)

theorem found_nil : found []=[] := by rw [found,if_pos rfl]

/-- One round of the loop: the text up to the comma is an attribute unless it is empty. -/
theorem found_step {u v:Text} (hu : ',' ∉ u) (hv:∀c∈v.head?,c = ',') :
 found (u++v)=(if u=[] then [] else [findOne (u++v)])++found v.tail := by
 have comma:seek [','] (u++v)=v :=
  seek_append (fun c hc=>by grind) (by simpa using hv)
 rw [found,comma]
 by_cases empty : u=[]
 · grind [found]
 · simp [empty]

theorem copyPropertyAttributeList_eq (attrs:Text) (few:(found attrs).length < 2^32) :
 copyPropertyAttributeList attrs=(found attrs).map Found.attribute := by
 rw [copyPropertyAttributeList,copied_eq,Nat.mod_eq_of_lt few]
 split
 next none=>rw [List.length_eq_zero_iff.mp none,List.map_nil]
 next=>rfl

end Parsing

section Printing

structure Given where
 name : Text
 value : Option Text

def body (a:Attribute) : Text :=
 (if a.name.length > 1 then '"'::(a.name++['"']) else a.name)++a.value

def kept (attrs:List Given) : List Attribute :=
 attrs.filterMap fun a=>a.value.map (⟨a.name,·⟩)

/-- The sum in `len`: the name, two quotes for a long one, the value and the comma. -/
def bufferLength (attrs:List Given) : ℕ :=
 ((kept attrs).map fun a =>
  (if a.name.length > 1 then a.name.length+2 else a.name.length)+a.value.length+1).sum

def write (buf:Text) (pos:ℕ) (s:Text) : Text := buf.take pos++(s++buf.drop (pos+s.length))

def snprintf (buf:Text) (pos size:ℕ) (s:Text) : Text :=
 if size=0 then buf else write buf pos (s.take (size-1)++['\x00'])

/-- `sprintfLen`, a `size_t`: `snprintf` returns an `int`, and -1 for texts that do not fit one. -/
def sprintfLen (s:Text) : ℕ := if s.length < 2^31-1 then s.length else 2^64-1

/-- The printing loop, from the buffer and the position in it; `none` is the fatal error. -/
def print (len:ℕ) : List Given → Text × ℕ → Option (Text × ℕ)
 | [],state=>some state
 | ⟨_,none⟩::attrs,state=>print len attrs state
 | ⟨name,some value⟩::attrs,(buf,s)=>
  let text:=body ⟨name,value⟩++[',']
  let remaining:=len+1-s
  if sprintfLen text > remaining then none
  else print len attrs (snprintf buf s remaining text,s+sprintfLen text)

/-- `fresh` is what the allocated memory contained. -/
def copyPropertyAttributeString (fresh:Text) (attrs:List Given) : Option Text :=
 if attrs=[] then some ['\x00']
 else (print (bufferLength attrs) attrs (fresh,0)).map fun (buf,s) =>
  if 0 < s then write buf (s-1) ['\x00'] else buf

/-- The string in a buffer; `none` when it does not end in the buffer. -/
def cString (buf:Text) : Option Text :=
 if '\x00' ∈ buf then some (buf.takeWhile (· ≠ '\x00')) else none

structure Legal (a:Given) : Prop where
 name : a.name≠[] ∧ ∀c∈a.name,c ≠ ',' ∧ c ≠ '"' ∧ c ≠ '\x00'
 value : ∀v∈a.value,∀c∈v,c ≠ ',' ∧ c ≠ '\x00'

/-- What `snprintf` prints of the attribute fits an `int`. -/
def Given.Short (a:Given) : Prop := ∀v∈a.value,(body ⟨a.name,v⟩).length+1 < 2^31-1

def printed (as:List Attribute) : Text := as.flatMap fun a=>body a++[',']

theorem bufferLength_eq (attrs:List Given) : bufferLength attrs=(printed (kept attrs)).length := by
 rw [bufferLength,printed,List.length_flatMap]
 congr 2
 funext a
 grind [body]

theorem write_append (before after s:Text) :
 write (before++after) before.length s=before++(s++after.drop s.length) := by
 rw [write,List.take_left,List.drop_append,List.drop_of_length_le (by omega),
  Nat.add_sub_cancel_left]
 rfl

theorem snprintf_append (before after s:Text) {size:ℕ} (room:s.length < size) :
 snprintf (before++after) before.length size s =
  before++s++ '\x00'::after.drop (s.length+1) := by
 rw [snprintf,if_neg (by omega),List.take_of_length_le (by omega),write_append]
 simp

theorem print_spec (attrs:List Given) (short:∀a∈attrs,a.Short) (before after:Text)
 (size:after.length=(printed (kept attrs)).length+1) :
 print (before++printed (kept attrs)).length attrs (before++after,before.length) =
  some (if kept attrs=[] then before++after else before++(printed (kept attrs)++['\x00']),
   (before++printed (kept attrs)).length) := by
 induction attrs generalizing before after with
 | nil=>simp [print,kept,printed]
 | cons a attrs ih=>
  obtain ⟨name,value⟩:=a
  rw [List.forall_mem_cons] at short
  cases value with
  | none=>exact ih short.2 before after size
  | some value=>
   have fits:sprintfLen (body ⟨name,value⟩++[','])=(body ⟨name,value⟩++[',']).length :=
    if_pos (by simpa using short.1 value rfl)
   have keep:kept (⟨name,some value⟩::attrs)=⟨name,value⟩::kept attrs:=rfl
   have text:printed (⟨name,value⟩::kept attrs) =
    body ⟨name,value⟩++[',']++printed (kept attrs) := rfl
   rw [keep,text] at size ⊢
   rw [print]
   generalize body ⟨name,value⟩++[',']=s at size fits ⊢
   have room:s.length < (before++(s++printed (kept attrs))).length+1-before.length:=by
    simp
    omega
   have later:=ih short.2 (before++s) ('\x00'::after.drop (s.length+1)) (by simp at size ⊢; omega)
   rw [List.append_assoc before s] at later
   simp only [fits,if_neg (Nat.not_lt.mpr (Nat.le_of_lt room)),snprintf_append _ _ _ room,
    ← List.length_append,later]
   by_cases last : kept attrs=[]
   · simp only [last,printed,List.flatMap_nil,List.append_nil] at size
     simp [last,printed,List.drop_of_length_le (Nat.le_of_eq size)]
   · simp [last]

theorem mem_kept {attrs:List Given} {a:Attribute} (ha:a∈kept attrs) :
 ⟨a.name,some a.value⟩∈attrs := by
 obtain ⟨g,hg,eq⟩:=List.mem_filterMap.mp ha
 obtain ⟨v,hv,rfl⟩:=Option.map_eq_some_iff.mp eq
 exact hv ▸ hg

variable {attrs:List Given}

theorem body_chars {a:Attribute} (h:Legal ⟨a.name,some a.value⟩) :
 ',' ∉ body a ∧ '\x00' ∉ body a ∧ body a≠[] := by
 obtain ⟨⟨ne,name⟩,value⟩:=h
 grind [body, List.append_eq_nil_iff]

theorem parse_body {a:Attribute} (h:Legal ⟨a.name,some a.value⟩) : parse (body a)=a := by
 obtain ⟨⟨ne,name⟩,-⟩:=h
 rw [body]
 split
 · have quote:seek ['"'] (a.name++('"'::a.value)) = '"'::a.value :=
    seek_append (fun c hc=>by grind) (by simp)
   simp [parse,quote,textBetween_append]
 next short=>
  have long:=List.length_pos_iff.mpr ne
  obtain ⟨c,eq⟩ : ∃c,a.name=[c] := List.length_eq_one_iff.mp (by simp at long; omega)
  have other:=(name c (by simp [eq])).2.1
  rw [eq,List.singleton_append,parse,if_neg other,←eq]

theorem printed_comma {as:List Attribute} (ne:as≠[]) : ∃text,printed as=text++[','] := by
 rcases List.eq_nil_or_concat as with rfl|⟨init,a,rfl⟩
 · cases ne rfl
 · exact ⟨printed init++body a,by simp [printed]⟩

theorem found_printed {as:List Attribute} (legal:∀a∈as,Legal ⟨a.name,some a.value⟩)
 {text:Text} (h:printed as=text++[',']) : (found text).map Found.attribute=as := by
 induction as generalizing text with
 | nil=>simp [printed] at h
 | cons a as ih=>
  rw [List.forall_mem_cons] at legal
  obtain ⟨comma,-,ne⟩:=body_chars legal.1
  have cons:printed (a::as)=body a++(','::printed as):=by simp [printed]
  have first:∀v : Text,(∀c∈v.head?,c = ',') → (findOne (body a++v)).attribute=a:=by
   intro v hv
   obtain ⟨-,name,value⟩:=findOne_spec comma ne hv
   rw [Found.attribute,name,value,parse_body legal.1]
  rw [cons] at h
  by_cases last : as=[]
  · subst last
    obtain rfl : body a=text:=by simpa [printed] using h
    have step:=found_step (v:=[]) comma (by simp)
    rw [List.append_nil,if_neg ne,List.tail_nil,found_nil] at step
    simpa [step] using first [] (by simp)
  · obtain ⟨rest,eq⟩:=printed_comma last
    rw [eq,←List.cons_append,←List.append_assoc] at h
    obtain rfl:=List.append_cancel_right h
    have step:=found_step (v:= ','::rest) comma (by simp)
    simpa [step,ne,ih legal.2 eq] using first (','::rest) (by simp)

theorem copyPropertyAttributeString_ok (legal:∀a∈attrs,Legal a) (short:∀a∈attrs,a.Short)
 (few:attrs.length < 2^31) (some_:kept attrs≠[]) {fresh:Text}
  (size:fresh.length=bufferLength attrs+1) :
 ∃buf s,copyPropertyAttributeString fresh attrs=some buf ∧ cString buf=some s ∧
  copyPropertyAttributeList s=kept attrs := by
 obtain ⟨text,eq⟩:=printed_comma some_
 have legal':∀a∈kept attrs,Legal ⟨a.name,some a.value⟩:=fun a ha=>legal _ (mem_kept ha)
 have nul : '\x00' ∉ text:=fun h=>by
  have mem : '\x00' ∈ printed (kept attrs):=eq ▸ List.mem_append_left _ h
  obtain ⟨a,ha,hc⟩:=List.mem_flatMap.mp mem
  have:=(body_chars (legal' a ha)).2.1
  simp_all
 have spec:=print_spec attrs short [] fresh (by rw [size,bufferLength_eq])
 rw [if_neg some_] at spec
 simp only [List.nil_append,List.length_nil,←bufferLength_eq] at spec
 have given:attrs≠[]:=fun none=>some_ (none ▸ rfl)
 have length:bufferLength attrs=text.length+1:=by simp [bufferLength_eq,eq]
 refine ⟨text++['\x00','\x00'],text,?_,?_,?_⟩
 · rw [copyPropertyAttributeString,if_neg given,spec]
   have last:=write_append text ([','] ++ ['\x00']) ['\x00']
   simp [length,eq]
   simpa using last
 · have all:∀c∈text,decide (c ≠ '\x00')=true:=by grind
   rw [cString,if_pos (by simp),List.takeWhile_append_of_pos all]
   simp
 · have read:=found_printed legal' eq
   have count:=congrArg List.length read
   have:=List.length_filterMap_le (fun a:Given=>a.value.map (⟨a.name,·⟩ : Text → Attribute)) attrs
   rw [List.length_map] at count
   rw [copyPropertyAttributeList_eq _ (by rw [count,kept]; omega),read]

theorem kept_nil_iff (attrs:List Given) : kept attrs=[] ↔ ∀a∈attrs,a.value=none := by
 simp [kept,List.filterMap_eq_nil_iff]

/-- Fewer than 2^31 attributes that `snprintf` can print. -/
theorem attributes_round_trip_iff {attrs:List Given} (legal:∀a∈attrs,Legal a)
 (short:∀a∈attrs,a.Short) (few:attrs.length < 2^31) :
 (∀fresh : Text,fresh.length=bufferLength attrs+1 →
  ∃buf s,copyPropertyAttributeString fresh attrs=some buf ∧ cString buf=some s ∧
   copyPropertyAttributeList s=kept attrs) ↔ attrs=[] ∨ ∃a∈attrs,a.value≠none := by
 constructor
 · intro all
   by_contra no
   push Not at no
   have none:=(kept_nil_iff attrs).mpr no.2
   have zero:bufferLength attrs=0:=by simp [bufferLength,none]
   obtain ⟨buf,s,copy,read,-⟩:=all ['x'] (by simp [zero])
   have spec:=print_spec attrs short [] ['x'] (by simp [none,printed])
   grind [printed, copyPropertyAttributeString, cString]
 · rintro (rfl|⟨a,ha,value⟩) fresh size
   · exact ⟨['\x00'],[],rfl,by simp [cString],by
      simp [copyPropertyAttributeList_eq,found_nil,kept]⟩
   · exact copyPropertyAttributeString_ok legal short few
      (fun no=>value ((kept_nil_iff attrs).mp no a ha)) size

theorem int_attribute_round_trip :
 ∃buf s,copyPropertyAttributeString ['w','x','y','z'] [⟨['T'],some ['i']⟩,⟨['N'],none⟩]=some buf ∧
  cString buf=some s ∧ copyPropertyAttributeList s=[⟨['T'],['i']⟩] :=
 have legal:∀a∈[(⟨['T'],some ['i']⟩ : Given),⟨['N'],none⟩],Legal a ∧ a.Short:=by
  simp only [List.forall_mem_cons,List.not_mem_nil,false_implies,implies_true,and_true]
  exact ⟨⟨⟨by simp,by simp⟩,by simp [Given.Short,body]⟩,⟨by simp,by simp⟩,by simp [Given.Short]⟩
 (attributes_round_trip_iff (fun a ha=>(legal a ha).1) (fun a ha=>(legal a ha).2) (by decide)).mpr
  (.inr ⟨_,.head _,by simp⟩) ['w','x','y','z'] rfl

theorem null_value_unterminated : Legal ⟨['T'],none⟩ ∧ bufferLength [⟨['T'],none⟩]=0 ∧
  copyPropertyAttributeString ['x'] [⟨['T'],none⟩]=some ['x'] ∧ cString ['x']=none :=
 ⟨⟨by simp,by simp⟩,rfl,rfl,by simp [cString]⟩

end Printing

end ObjcRuntime.PropertyAttributes
