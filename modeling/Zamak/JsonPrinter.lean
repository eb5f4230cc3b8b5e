import Zamak.Rfc8259Parser

/-! # The JSON encoder of the command line

`Value` with its two printers. Both write texts of RFC 8259 that say the value: the compact
one without white space, the pretty one with a line for each item. A number is displayed by
its digits; the display of a float is a parameter. -/

set_option autoImplicit false

namespace Zamak.JsonPrinter
open Zamak.Rfc8259

inductive Value (F : Type) where
  | null
  | bool (b : Bool)
  | int (i : Int64)
  | uint (u : UInt64)
  | float (f : F)
  | str (s : Text)
  | array (items : List (Value F))
  | object (props : List (Text × Value F))

def displayInt (i : ℤ) : Text :=
  if i < 0 then '-' :: Nat.toDigits 10 i.natAbs else Nat.toDigits 10 i.natAbs

/-- `{:04x}` of a code below `0x10000`. -/
def hex04 (n : ℕ) : Text := [n/4096%16,n/256%16,n/16%16,n%16].map Nat.digitChar

/-- The loop body of `write_string`. -/
def writeChar (out : Text) (c : Char) : Text :=
  match c with
  | '"' => out++['\\', '"']
  | '\\' => out++['\\', '\\']
  | '\n' => out++['\\', 'n']
  | '\r' => out++['\\', 'r']
  | '\t' => out++['\\', 't']
  | '\x08' => out++['\\', 'b']
  | '\x0c' => out++['\\', 'f']
  | c => if c.toNat < 0x20 then out++['\\', 'u']++hex04 c.toNat else out++[c]

def writeString (out s : Text) : Text := s.foldl writeChar (out++[ '"'])++[ '"']

def indent (out : Text) (depth : ℕ) : Text :=
  (List.range depth).foldl (fun out _ => out++[ ' ', ' ']) out

section Printers
variable {F : Type} (isFinite : F → Bool) (display : F → Text)

mutual

def writeCompact : Value F → Text → Text
  | .null, out => out++[ 'n', 'u', 'l', 'l']
  | .bool b, out => out++if b then [ 't', 'r', 'u', 'e'] else [ 'f', 'a', 'l', 's', 'e']
  | .int i, out => out++displayInt i.toInt
  | .uint u, out => out++Nat.toDigits 10 u.toNat
  | .float f, out => if ¬isFinite f then out++[ 'n', 'u', 'l', 'l'] else out++display f
  | .str s, out => writeString out s
  | .array items, out => compactItems 0 items (out++[ '['])++[ ']']
  | .object props, out => compactProps 0 props (out++[ '{'])++[ '}']

def compactItems : ℕ → List (Value F) → Text → Text
  | _, [], out => out
  | i, v::rest, out =>
    compactItems (i+1) rest (writeCompact v (if i > 0 then out++[ ','] else out))

def compactProps : ℕ → List (Text × Value F) → Text → Text
  | _, [], out => out
  | i, (k,v)::rest, out =>
    compactProps (i+1) rest
      (writeCompact v (writeString (if i > 0 then out++[ ','] else out) k++[ ':']))

end

mutual

def writePretty : Value F → Text → ℕ → Text
  | .array [], out, _ => out++[ '[', ']']
  | .object [], out, _ => out++[ '{', '}']
  | .array (v::items), out, depth =>
    indent (prettyItems (items.length+1) 0 (v::items) (out++[ '[']++[ '\n']) depth) depth++[ ']']
  | .object (p::props), out, depth =>
    indent (prettyProps (props.length+1) 0 (p::props) (out++[ '{']++[ '\n']) depth) depth++[ '}']
  | other, out, _ => writeCompact isFinite display other out

def prettyItems (len : ℕ) : ℕ → List (Value F) → Text → ℕ → Text
  | _, [], out, _ => out
  | i, v::rest, out, depth =>
    let out := writePretty v (indent out (depth+1)) (depth+1)
    prettyItems len (i+1) rest ((if i+1 < len then out++[ ','] else out)++[ '\n']) depth

def prettyProps (len : ℕ) : ℕ → List (Text × Value F) → Text → ℕ → Text
  | _, [], out, _ => out
  | i, (k,v)::rest, out, depth =>
    let out := writePretty v (writeString (indent out (depth+1)) k++[ ':', ' ']) (depth+1)
    prettyProps len (i+1) rest ((if i+1 < len then out++[ ','] else out)++[ '\n']) depth

end

def toCompact (v : Value F) : Text := writeCompact isFinite display v []

def toPretty (v : Value F) : Text := writePretty isFinite display v [] 0

end Printers

section Meaning
variable {F : Type}

mutual

def FloatFree : Value F → Prop
  | .float _ => False
  | .array items => FloatFreeItems items
  | .object props => FloatFreeProps props
  | _ => True

def FloatFreeItems : List (Value F) → Prop
  | [] => True
  | v::rest => FloatFree v ∧ FloatFreeItems rest

def FloatFreeProps : List (Text × Value F) → Prop
  | [] => True
  | (_,v)::rest => FloatFree v ∧ FloatFreeProps rest

end

mutual

/-- The document that says a value; both kinds of integers are their number. -/
def json : Value F → Json
  | .null => .null
  | .bool b => .bool b
  | .int i => .number i.toInt
  | .uint u => .number u.toNat
  | .float _ => .null
  | .str s => .string s
  | .array items => .array (jsonItems items)
  | .object props => .object (jsonProps props)

def jsonItems : List (Value F) → List Json
  | [] => []
  | v::rest => json v::jsonItems rest

def jsonProps : List (Text × Value F) → List (Text × Json)
  | [] => []
  | (k,v)::rest => (k,json v)::jsonProps rest

end

end Meaning

section Leaves

theorem digit_head (n : ℕ) (hn : 0 < n) : (Nat.toDigits 10 n).head? ≠ some '0' := by
  induction n using Nat.strongRecOn with
  | _ n ih =>
    by_cases hlt : n < 10
    · rw [Nat.toDigits_of_lt_base hlt]
      simp
      omega
    · have hrest := ih (n/10) (by omega) (by omega)
      rw [Nat.toDigits_of_base_le (by decide) (by omega)]
      cases hd : Nat.toDigits 10 (n/10) with
      | nil => exact absurd hd Nat.toDigits_ne_nil
      | cons c ds =>
        rw [hd] at hrest
        exact hrest

theorem toDigits_int (n : ℕ) : IntText (Nat.toDigits 10 n) := by
  refine ⟨⟨Nat.toDigits_ne_nil,?_⟩,?_⟩
  · intro c hc
    exact Nat.isDigit_of_mem_toDigits (by decide) (by decide) hc
  · intro hz
    cases n with
    | zero => rfl
    | succ n => exact absurd hz (digit_head (n+1) (by omega))

theorem natOf_toDigits (n : ℕ) : ((natOf (Nat.toDigits 10 n) : ℚ)+0)*10^(0 : ℤ) = n := by
  rw [natOf,Nat.ofDigitChars_ten_toDigits,zpow_zero,mul_one,add_zero]

theorem toDigits_number (n : ℕ) : NumberText (Nat.toDigits 10 n) (n : ℚ) := by
  have h := NumberText.plain (Nat.toDigits 10 n) [] [] 0 0 (toDigits_int n) .none .none
  rwa [natOf_toDigits,List.append_nil,List.append_nil] at h

theorem displayInt_number (i : ℤ) : NumberText (displayInt i) (i : ℚ) := by
  unfold displayInt
  split_ifs with hneg
  · have h := NumberText.minus (Nat.toDigits 10 i.natAbs) [] [] 0 0 (toDigits_int _) .none .none
    have habs : -(i.natAbs : ℚ) = (i : ℚ) := by
      rw [← Int.cast_natCast,Int.ofNat_natAbs_of_nonpos hneg.le,Int.cast_neg,neg_neg]
    rwa [natOf_toDigits,habs,List.append_nil,List.append_nil] at h
  · have h := toDigits_number i.natAbs
    have habs : (i.natAbs : ℚ) = (i : ℚ) := by
      rw [← Int.cast_natCast,Int.natAbs_of_nonneg (Int.not_lt.mp hneg)]
    rwa [habs] at h

theorem hexValue_digitChar (d : ℕ) (h : d < 16) : hexValue d.digitChar = some d := by
  have hall : ∀ d < 16, hexValue d.digitChar = some d := by decide
  exact hall d h

theorem writeChar_text (out : Text) (c : Char) :
    ∃ t, writeChar out c = out++t ∧ CharText t c := by
  unfold writeChar
  split
  · exact ⟨_,rfl,.short '"' _ rfl⟩
  · exact ⟨_,rfl,.short '\\' _ rfl⟩
  · exact ⟨_,rfl,.short 'n' _ rfl⟩
  · exact ⟨_,rfl,.short 'r' _ rfl⟩
  · exact ⟨_,rfl,.short 't' _ rfl⟩
  · exact ⟨_,rfl,.short 'b' _ rfl⟩
  · exact ⟨_,rfl,.short 'f' _ rfl⟩
  · split_ifs with hlow
    · refine ⟨_,List.append_assoc _ _ _,?_⟩
      have hhex : hex4 (c.toNat/4096%16).digitChar (c.toNat/256%16).digitChar
          (c.toNat/16%16).digitChar (c.toNat%16).digitChar = some c.toNat := by
        simp only [hex4,hexValue_digitChar _ (Nat.mod_lt _ (by decide : 0 < 16)),
          Option.bind_eq_bind,Option.bind_some,Option.some.injEq]
        omega
      have h := CharText.code _ _ _ _ _ hhex (by simp only [IsHigh]; omega)
        (by simp only [IsLow]; omega)
      rwa [Char.ofNat_toNat] at h
    · exact ⟨_,rfl,.unescaped c (by omega) (by assumption) (by assumption)⟩

theorem writeChars_text (s out : Text) :
    ∃ t, s.foldl writeChar out = out++t ∧ CharsText t s := by
  induction s generalizing out with
  | nil => exact ⟨[],by simp,.nil⟩
  | cons c s ih =>
    obtain ⟨t,ht,hc⟩ := writeChar_text out c
    obtain ⟨u,hu,hs⟩ := ih (out++t)
    refine ⟨t++u,?_,.cons t u c s hc hs⟩
    rw [List.foldl_cons,ht,hu,List.append_assoc]

theorem writeString_text (out s : Text) :
    ∃ t, writeString out s = out++ '"' :: (t++[ '"']) ∧ CharsText t s := by
  obtain ⟨t,ht,hs⟩ := writeChars_text s (out++[ '"'])
  refine ⟨t,?_,hs⟩
  rw [writeString,ht]
  simp

theorem indent_blank (out : Text) (depth : ℕ) : ∃ w, indent out depth = out++w ∧ Blank w := by
  induction depth with
  | zero => exact ⟨[],by simp [indent],blank_nil⟩
  | succ depth ih =>
    obtain ⟨w,hw,hb⟩ := ih
    refine ⟨w++[ ' ', ' '],?_,blank_append w _ hb (by intro c hc; simp at hc; subst hc; rfl)⟩
    rw [indent] at hw ⊢
    rw [List.range_succ,List.foldl_append,hw]
    simp

end Leaves

section Texts
variable {F : Type} (isFinite : F → Bool) (display : F → Text)

def ItemsTail (t : Text) (items : List Json) : Prop :=
  ∀ u j, ValueText u j → ElementsText (u++t) (j::items)

theorem itemsTail_nil : ItemsTail [] [] := by
  intro u j h
  simpa using ElementsText.last [] u [] j blank_nil blank_nil h

theorem itemsTail_cons (t u : Text) (j : Json) (items : List Json) (h : ValueText t j)
    (ht : ItemsTail u items) : ItemsTail (',' :: (t++u)) (j::items) := by
  intro v i hv
  simpa using ElementsText.more [] v [] (t++u) i (j::items) blank_nil blank_nil hv (ht t j h)

def PropsTail (t : Text) (members : List (Text × Json)) : Prop :=
  ∀ k s u j, CharsText k s → ValueText u j →
    MembersText ('"' :: (k++ '"' :: ':' :: (u++t))) ((s,j)::members)

theorem colon_bare : ColonText [ ':'] := ColonText.mk [] [] blank_nil blank_nil

theorem propsTail_nil : PropsTail [] [] := by
  intro k s u j hk hu
  simpa using MembersText.last [] k [ ':'] u [] s j blank_nil hk colon_bare blank_nil hu

theorem propsTail_cons (k s t u : Text) (j : Json) (members : List (Text × Json))
    (hk : CharsText k s) (h : ValueText t j) (ht : PropsTail u members) :
    PropsTail (',' :: '"' :: (k++ '"' :: ':' :: (t++u))) ((s,j)::members) := by
  intro k' s' v i hk' hv
  simpa using MembersText.more [] k' [ ':'] v [] _ s' i _ blank_nil hk' colon_bare blank_nil hv
    (ht k s t j hk h)

mutual

theorem writeCompact_text (v : Value F) (hv : FloatFree v) (out : Text) :
    ∃ t, writeCompact isFinite display v out = out++t ∧ ValueText t (json v) := by
  match v with
  | .null => exact ⟨_,rfl,.null⟩
  | .bool true => exact ⟨_,rfl,.true⟩
  | .bool false => exact ⟨_,rfl,.false⟩
  | .int i => exact ⟨_,rfl,.number _ _ (displayInt_number i.toInt)⟩
  | .uint u => exact ⟨_,rfl,.number _ _ (toDigits_number u.toNat)⟩
  | .float f => exact hv.elim
  | .str s =>
    obtain ⟨t,ht,hs⟩ := writeString_text out s
    exact ⟨_,ht,.string t s hs⟩
  | .array [] =>
    exact ⟨[ '[', ']'],by simp [writeCompact,compactItems],.emptyArray [] blank_nil⟩
  | .object [] =>
    exact ⟨[ '{', '}'],by simp [writeCompact,compactProps],.emptyObject [] blank_nil⟩
  | .array (v::items) =>
    obtain ⟨t,ht,hj⟩ := writeCompact_text v hv.1 (out++[ '['])
    obtain ⟨u,hu,htail⟩ := compactItems_text items hv.2 0 (out++[ '[']++t)
    refine ⟨_,?_,.array (t++u) _ (htail t _ hj)⟩
    simp only [writeCompact,compactItems]
    rw [if_neg (by decide),ht,hu]
    simp
  | .object ((k,v)::props) =>
    obtain ⟨k',hkt,hk⟩ := writeString_text (out++[ '{']) k
    obtain ⟨t,ht,hj⟩ := writeCompact_text v hv.1 (writeString (out++[ '{']) k++[ ':'])
    obtain ⟨u,hu,htail⟩ := compactProps_text props hv.2 0
      (writeString (out++[ '{']) k++[ ':']++t)
    refine ⟨_,?_,.object _ _ (htail k' k t _ hk hj)⟩
    simp only [writeCompact,compactProps]
    rw [if_neg (by decide),ht,hu,hkt]
    simp

theorem compactItems_text (items : List (Value F)) (hv : FloatFreeItems items) (i : ℕ)
    (out : Text) : ∃ t, compactItems isFinite display (i+1) items out = out++t ∧
      ItemsTail t (jsonItems items) := by
  match items with
  | [] => exact ⟨[],by simp [compactItems],itemsTail_nil⟩
  | v::rest =>
    obtain ⟨t,ht,hj⟩ := writeCompact_text v hv.1 (out++[ ','])
    obtain ⟨u,hu,htail⟩ := compactItems_text rest hv.2 (i+1) (out++[ ',']++t)
    refine ⟨_,?_,itemsTail_cons t u _ _ hj htail⟩
    simp only [compactItems]
    rw [if_pos (by omega),ht,hu]
    simp

theorem compactProps_text (props : List (Text × Value F)) (hv : FloatFreeProps props) (i : ℕ)
    (out : Text) : ∃ t, compactProps isFinite display (i+1) props out = out++t ∧
      PropsTail t (jsonProps props) := by
  match props with
  | [] => exact ⟨[],by simp [compactProps],propsTail_nil⟩
  | (k,v)::rest =>
    obtain ⟨k',hkt,hk⟩ := writeString_text (out++[ ',']) k
    obtain ⟨t,ht,hj⟩ := writeCompact_text v hv.1 (writeString (out++[ ',']) k++[ ':'])
    obtain ⟨u,hu,htail⟩ := compactProps_text rest hv.2 (i+1)
      (writeString (out++[ ',']) k++[ ':']++t)
    refine ⟨_,?_,propsTail_cons k' k t u _ _ hk hj htail⟩
    simp only [compactProps]
    rw [if_pos (by omega),ht,hu,hkt]
    simp

end

theorem blank_newline : Blank [ '\n'] := by
  intro c hc
  rw [List.mem_singleton.mp hc]
  rfl

theorem colon_spaced : ColonText [ ':', ' '] := by
  refine ColonText.mk [] [ ' '] blank_nil ?_
  intro c hc
  rw [List.mem_singleton.mp hc]
  rfl

def ItemLines (t : Text) (items : List Json) : Prop :=
  ∀ w w', Blank w → Blank w' → ElementsText (w++t++w') items

theorem itemLines_last (w t : Text) (j : Json) (hw : Blank w) (h : ValueText t j) :
    ItemLines (w++(t++[ '\n'])) [j] := by
  intro a b ha hb
  simpa using ElementsText.last (a++w) t ([ '\n']++b) j (blank_append a w ha hw)
    (blank_append _ b blank_newline hb) h

theorem itemLines_more (w t u : Text) (j : Json) (items : List Json) (hw : Blank w)
    (h : ValueText t j) (hu : ItemLines u items) :
    ItemLines (w++(t++ ',' :: '\n' :: u)) (j::items) := by
  intro a b ha hb
  simpa using ElementsText.more (a++w) t [] ([ '\n']++u++b) j items (blank_append a w ha hw)
    blank_nil h (hu _ b blank_newline hb)

def PropLines (t : Text) (members : List (Text × Json)) : Prop :=
  ∀ w w', Blank w → Blank w' → MembersText (w++t++w') members

theorem propLines_last (w k s t : Text) (j : Json) (hw : Blank w) (hk : CharsText k s)
    (h : ValueText t j) :
    PropLines (w++ '"' :: (k++ '"' :: ':' :: ' ' :: (t++[ '\n']))) [(s,j)] := by
  intro a b ha hb
  simpa using MembersText.last (a++w) k [ ':', ' '] t ([ '\n']++b) s j (blank_append a w ha hw) hk
    colon_spaced (blank_append _ b blank_newline hb) h

theorem propLines_more (w k s t u : Text) (j : Json) (members : List (Text × Json))
    (hw : Blank w) (hk : CharsText k s) (h : ValueText t j) (hu : PropLines u members) :
    PropLines (w++ '"' :: (k++ '"' :: ':' :: ' ' :: (t++ ',' :: '\n' :: u))) ((s,j)::members) := by
  intro a b ha hb
  simpa using MembersText.more (a++w) k [ ':', ' '] t [] ([ '\n']++u++b) s j members
    (blank_append a w ha hw) hk colon_spaced blank_nil h (hu _ b blank_newline hb)

mutual

theorem writePretty_text (v : Value F) (hv : FloatFree v) (out : Text) (depth : ℕ) :
    ∃ t, writePretty isFinite display v out depth = out++t ∧ ValueText t (json v) := by
  match v with
  | .null => exact writeCompact_text isFinite display .null hv out
  | .bool b => exact writeCompact_text isFinite display (.bool b) hv out
  | .int i => exact writeCompact_text isFinite display (.int i) hv out
  | .uint u => exact writeCompact_text isFinite display (.uint u) hv out
  | .float f => exact hv.elim
  | .str s => exact writeCompact_text isFinite display (.str s) hv out
  | .array [] => exact ⟨_,rfl,.emptyArray [] blank_nil⟩
  | .object [] => exact ⟨_,rfl,.emptyObject [] blank_nil⟩
  | .array (v::items) =>
    obtain ⟨t,ht,hlines⟩ := prettyItems_text (v::items) hv (by simp) (items.length+1)
      0 (out++[ '[']++[ '\n']) depth (by simp)
    obtain ⟨w,hw,hb⟩ := indent_blank (out++[ '[']++[ '\n']++t) depth
    refine ⟨_,?_,.array _ _ (hlines [ '\n'] w blank_newline hb)⟩
    rw [writePretty,ht,hw]
    simp
  | .object ((k,v)::props) =>
    obtain ⟨t,ht,hlines⟩ := prettyProps_text ((k,v)::props) hv (by simp)
      (props.length+1) 0 (out++[ '{']++[ '\n']) depth (by simp)
    obtain ⟨w,hw,hb⟩ := indent_blank (out++[ '{']++[ '\n']++t) depth
    refine ⟨_,?_,.object _ _ (hlines [ '\n'] w blank_newline hb)⟩
    rw [writePretty,ht,hw]
    simp

theorem prettyItems_text (items : List (Value F)) (hv : FloatFreeItems items) (hne : items ≠ [])
    (len i : ℕ) (out : Text) (depth : ℕ) (hlen : i+items.length = len) :
    ∃ t, prettyItems isFinite display len i items out depth = out++t ∧
      ItemLines t (jsonItems items) := by
  match items with
  | [] => exact absurd rfl hne
  | v::rest =>
    obtain ⟨w,hw,hb⟩ := indent_blank out (depth+1)
    obtain ⟨t,ht,hj⟩ := writePretty_text v hv.1 (indent out (depth+1)) (depth+1)
    rw [List.length_cons] at hlen
    by_cases hrest : rest = []
    · subst hrest
      refine ⟨_,?_,itemLines_last w t _ hb hj⟩
      simp only [prettyItems]
      rw [ht,hw,if_neg (by simp at hlen; omega)]
      simp
    · have hpos := List.length_pos_iff.mpr hrest
      obtain ⟨u,hu,hlines⟩ := prettyItems_text rest hv.2 hrest len (i+1)
        (indent out (depth+1)++t++[ ',']++[ '\n']) depth (by omega)
      refine ⟨_,?_,itemLines_more w t u _ _ hb hj hlines⟩
      rw [prettyItems,ht,if_pos (by omega),hu,hw]
      simp

theorem prettyProps_text (props : List (Text × Value F)) (hv : FloatFreeProps props)
    (hne : props ≠ []) (len i : ℕ) (out : Text) (depth : ℕ) (hlen : i+props.length = len) :
    ∃ t, prettyProps isFinite display len i props out depth = out++t ∧
      PropLines t (jsonProps props) := by
  match props with
  | [] => exact absurd rfl hne
  | (k,v)::rest =>
    obtain ⟨w,hw,hb⟩ := indent_blank out (depth+1)
    obtain ⟨k',hkt,hk⟩ := writeString_text (indent out (depth+1)) k
    obtain ⟨t,ht,hj⟩ := writePretty_text v hv.1
      (writeString (indent out (depth+1)) k++[ ':', ' ']) (depth+1)
    rw [List.length_cons] at hlen
    by_cases hrest : rest = []
    · subst hrest
      refine ⟨_,?_,propLines_last w k' k t _ hb hk hj⟩
      simp only [prettyProps]
      rw [ht,hkt,hw,if_neg (by simp at hlen; omega)]
      simp
    · have hpos := List.length_pos_iff.mpr hrest
      obtain ⟨u,hu,hlines⟩ := prettyProps_text rest hv.2 hrest len (i+1)
        (writeString (indent out (depth+1)) k++[ ':', ' ']++t++[ ',']++[ '\n']) depth (by omega)
      refine ⟨_,?_,propLines_more w k' k t u _ _ hb hk hj hlines⟩
      rw [prettyProps,ht,if_pos (by omega),hu,hkt,hw]
      simp

end

/-- A parser of RFC 8259 reads the value back from either text. -/
theorem toCompact_parses (parse : Text → Option Json) (hp : IsParser parse) (v : Value F)
    (hv : FloatFree v) :
    parse (toCompact isFinite display v) = some (json v) ∧
      parse (toPretty isFinite display v) = parse (toCompact isFinite display v) := by
  obtain ⟨t,ht,hj⟩ := writeCompact_text isFinite display v hv []
  obtain ⟨u,hu,hj'⟩ := writePretty_text isFinite display v hv [] 0
  have hdoc : ∀ t, ValueText t (json v) → parse t = some (json v) := by
    intro t h
    refine hp t (json v) ?_
    simpa using DocumentText.mk [] t [] (json v) blank_nil blank_nil h
  have hc : parse (toCompact isFinite display v) = some (json v) := by
    rw [toCompact,ht]
    exact hdoc t hj
  refine ⟨hc,?_⟩
  rw [hc,toPretty,hu]
  exact hdoc u hj'

end Texts

def sample : Value Empty :=
  .object [([ 'a'],.int (-42)),([ 'a'],.array [.uint 7,.str [ '"', '\x01', 'é'],.object []])]

theorem toCompact_parses_sample :
    FloatFree sample ∧
      Rfc8259Parser.parse (toCompact (fun _ => true) (fun _ => []) sample) = some (json sample) ∧
      Rfc8259Parser.parse (toPretty (fun _ => true) (fun _ => []) sample) =
        Rfc8259Parser.parse (toCompact (fun _ => true) (fun _ => []) sample) := by
  have hfree : FloatFree sample := by
    simp [sample,FloatFree,FloatFreeItems,FloatFreeProps]
  exact ⟨hfree,toCompact_parses _ _ Rfc8259Parser.parse Rfc8259Parser.parse_isParser sample hfree⟩

end Zamak.JsonPrinter
