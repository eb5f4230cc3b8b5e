import Zamak.IndentedForests
import Zamak.JsonPrinter

/-! # The YAML encoder of the command line

`to_yaml` with `scalar_yaml` and `yaml_escape`. Structure is in the indentation alone: a
text is the page of a forest, a line for each member or item and the lines of its value one
level deeper. A collection without members has no lines, so inside another value an array
and an object that are empty look the same. Nothing else does: a value with no empty
collection inside it is told by its text. -/

set_option autoImplicit false

namespace Zamak.YamlPrinter
open Zamak.Rfc8259 Zamak.JsonPrinter Zamak.IndentedForests

def hex02 (n : ℕ) : Text := [n/16%16,n%16].map Nat.digitChar

def escapeChar (c : Char) : Text :=
  match c with
  | '"' => ['\\', '"']
  | '\\' => ['\\', '\\']
  | '\n' => ['\\', 'n']
  | '\r' => ['\\', 'r']
  | '\t' => ['\\', 't']
  | c => if c.toNat < 0x20 then '\\' :: 'x' :: hex02 c.toNat else [c]

def yamlEscape (s : Text) : Text := s.flatMap escapeChar

section Printer
variable {F : Type} (isFinite : F → Bool) (display : F → Text)

def scalarYaml : Value F → Text
  | .null => [ 'n', 'u', 'l', 'l']
  | .bool b => if b then [ 't', 'r', 'u', 'e'] else [ 'f', 'a', 'l', 's', 'e']
  | .int i => displayInt i.toInt
  | .uint u => Nat.toDigits 10 u.toNat
  | .float f => if isFinite f then display f else [ 'n', 'u', 'l', 'l']
  | .str s => '"' :: (yamlEscape s++[ '"'])
  | .array _ => [ '[', ']']
  | .object _ => [ '[', ']']

def isNested : Value F → Bool
  | .null => false
  | .bool _ => false
  | .int _ => false
  | .uint _ => false
  | .float _ => false
  | .str _ => false
  | .array _ => true
  | .object _ => true

def margin (depth : ℕ) : Text := List.replicate (2*depth) ' '

mutual

def toYaml : Value F → ℕ → Text
  | .null, _ => scalarYaml isFinite display .null++[ '\n']
  | .bool b, _ => scalarYaml isFinite display (.bool b)++[ '\n']
  | .int i, _ => scalarYaml isFinite display (.int i)++[ '\n']
  | .uint u, _ => scalarYaml isFinite display (.uint u)++[ '\n']
  | .float f, _ => scalarYaml isFinite display (.float f)++[ '\n']
  | .str s, _ => scalarYaml isFinite display (.str s)++[ '\n']
  | .array items, depth => yamlItems items depth
  | .object props, depth => yamlProps props depth

def yamlProps : List (Text × Value F) → ℕ → Text
  | [], _ => []
  | (k,val)::rest, depth =>
    margin depth++k++[ ':']++
      (if isNested val then '\n' :: toYaml val (depth+1)
        else ' ' :: (scalarYaml isFinite display val++[ '\n']))++
      yamlProps rest depth

def yamlItems : List (Value F) → ℕ → Text
  | [], _ => []
  | item::rest, depth =>
    margin depth++[ '-', ' ']++
      (if isNested item then '\n' :: toYaml item (depth+1)
        else scalarYaml isFinite display item++[ '\n'])++
      yamlItems rest depth

end

end Printer

section Domain
variable {F : Type}

/-- A letter or an underscore, then letters, digits, underscores and hyphens. -/
def PlainKey : Text → Prop
  | [] => False
  | c::k => (c.isAlpha = true ∨ c = '_') ∧ ∀ x ∈ k, x.isAlphanum = true ∨ x = '_' ∨ x = '-'

mutual

def PlainKeys : Value F → Prop
  | .null => True
  | .bool _ => True
  | .int _ => True
  | .uint _ => True
  | .float _ => True
  | .str _ => True
  | .array items => PlainItems items
  | .object props => PlainProps props

def PlainItems : List (Value F) → Prop
  | [] => True
  | v::rest => PlainKeys v ∧ PlainItems rest

def PlainProps : List (Text × Value F) → Prop
  | [] => True
  | (k,v)::rest => PlainKey k ∧ PlainKeys v ∧ PlainProps rest

end

/-- An object without floats whose keys, at every level, are plain identifiers. -/
def Admitted (v : Value F) : Prop := (∃ props, v = .object props) ∧ FloatFree v ∧ PlainKeys v

mutual

/-- Neither an empty collection nor one with an empty collection inside. -/
def Filled : Value F → Prop
  | .null => True
  | .bool _ => True
  | .int _ => True
  | .uint _ => True
  | .float _ => True
  | .str _ => True
  | .array items => items ≠ [] ∧ FilledItems items
  | .object props => props ≠ [] ∧ FilledProps props

def FilledItems : List (Value F) → Prop
  | [] => True
  | v::rest => Filled v ∧ FilledItems rest

def FilledProps : List (Text × Value F) → Prop
  | [] => True
  | (_,v)::rest => Filled v ∧ FilledProps rest

end

/-- No empty collection inside; the value itself may be one. -/
def FilledInside : Value F → Prop
  | .null => True
  | .bool _ => True
  | .int _ => True
  | .uint _ => True
  | .float _ => True
  | .str _ => True
  | .array items => FilledItems items
  | .object props => FilledProps props

end Domain

section Scalars

def unescapeChar (c : Char) : Char :=
  if c = 'n' then '\n' else if c = 'r' then '\r' else if c = 't' then '\t' else c

def unescape : Text → Text
  | [] => []
  | c::t =>
    if c = '\\' then
      match t with
      | [] => []
      | d::u =>
        if d = 'x' then
          match u with
          | a::b::r => Char.ofNat ((hexValue a).getD 0*16+(hexValue b).getD 0)::unescape r
          | r => r
        else unescapeChar d::unescape u
    else c::unescape t

theorem unescape_plain (c : Char) (t : Text) (h : c ≠ '\\') :
    unescape (c::t) = c::unescape t := by
  rw [unescape.eq_def]
  exact if_neg h

theorem unescape_short (c : Char) (t : Text) (h : c ≠ 'x') :
    unescape ('\\' :: c::t) = unescapeChar c::unescape t := by
  rw [unescape.eq_def]
  exact (if_pos rfl).trans (if_neg h)

theorem unescape_hex (a b : Char) (t : Text) :
    unescape ('\\' :: 'x' :: a::b::t) =
      Char.ofNat ((hexValue a).getD 0*16+(hexValue b).getD 0)::unescape t := by
  rw [unescape.eq_def]
  exact (if_pos rfl).trans (if_pos rfl)

theorem unescape_escapeChar (c : Char) (t : Text) :
    unescape (escapeChar c++t) = c::unescape t := by
  unfold escapeChar
  split
  · exact unescape_short '"' t (by decide)
  · exact unescape_short '\\' t (by decide)
  · exact unescape_short 'n' t (by decide)
  · exact unescape_short 'r' t (by decide)
  · exact unescape_short 't' t (by decide)
  · rename_i hback _ _ _
    split
    · have hhex := unescape_hex (c.toNat/16%16).digitChar (c.toNat%16).digitChar t
      rw [hexValue_digitChar _ (Nat.mod_lt _ (by decide)),
        hexValue_digitChar _ (Nat.mod_lt _ (by decide)),Option.getD_some,Option.getD_some,
        show c.toNat/16%16*16+c.toNat%16 = c.toNat by omega,Char.ofNat_toNat] at hhex
      exact hhex
    · exact unescape_plain c t hback

theorem unescape_yamlEscape (s : Text) : unescape (yamlEscape s) = s := by
  induction s with
  | nil => rfl
  | cons c s ih =>
    have hcons : yamlEscape (c::s) = escapeChar c++yamlEscape s := List.flatMap_cons
    rw [hcons,unescape_escapeChar,ih]

theorem digitChar_newline (d : ℕ) (h : d < 16) : d.digitChar ≠ '\n' := by
  have hall : ∀ d < 16, d.digitChar ≠ '\n' := by decide
  exact hall d h

theorem escapeChar_newline (c : Char) : ∀ x ∈ escapeChar c, x ≠ '\n' := by
  unfold escapeChar
  split
  iterate 5
    · intro x hx
      simp only [List.mem_cons,List.not_mem_nil,or_false] at hx
      rcases hx with rfl | rfl <;> decide
  · rename_i _ hnewline _ _
    split
    · intro x hx
      simp only [hex02,List.map_cons,List.map_nil,List.mem_cons,List.not_mem_nil,or_false] at hx
      rcases hx with rfl | rfl | rfl | rfl
      · decide
      · decide
      · exact digitChar_newline _ (Nat.mod_lt _ (by decide))
      · exact digitChar_newline _ (Nat.mod_lt _ (by decide))
    · intro x hx
      rw [List.mem_singleton.mp hx]
      exact hnewline

theorem yamlEscape_newline (s : Text) : ∀ x ∈ yamlEscape s, x ≠ '\n' := by
  intro x hx
  obtain ⟨c,-,hc⟩ := List.mem_flatMap.mp hx
  exact escapeChar_newline c x hc

def readInt : Text → ℤ
  | '-' :: ds => -natOf ds
  | ds => natOf ds

def readScalar (t : Text) : Json :=
  if t = [ 'n', 'u', 'l', 'l'] then .null
  else if t = [ 't', 'r', 'u', 'e'] then .bool true
  else if t = [ 'f', 'a', 'l', 's', 'e'] then .bool false
  else if t.head? = some '"' then .string (unescape t.tail.dropLast)
  else .number (readInt t)

theorem displayInt_nat (n : ℕ) : displayInt n = Nat.toDigits 10 n := by
  rw [displayInt,if_neg (Int.not_lt.mpr (Int.natCast_nonneg n)),Int.natAbs_natCast]

theorem displayInt_chars (i : ℤ) : ∀ c ∈ displayInt i, c.isDigit = true ∨ c = '-' := by
  have hdigits : ∀ n : ℕ, ∀ c ∈ Nat.toDigits 10 n, c.isDigit = true := fun n c hc =>
    Nat.isDigit_of_mem_toDigits (by decide) (by decide) hc
  intro c hc
  unfold displayInt at hc
  split at hc
  · rcases List.mem_cons.mp hc with rfl | hc
    · exact .inr rfl
    · exact .inl (hdigits _ c hc)
  · exact .inl (hdigits _ c hc)

theorem readInt_digits (n : ℕ) : readInt (Nat.toDigits 10 n) = n := by
  have hread : (natOf (Nat.toDigits 10 n) : ℤ) = n := by
    rw [natOf,Nat.ofDigitChars_ten_toDigits]
  unfold readInt
  split
  · rename_i ds hds
    have hminus : '-'.isDigit = true := Nat.isDigit_of_mem_toDigits (b := 10) (n := n) (by decide)
      (by decide) (by rw [hds]; exact List.mem_cons_self ..)
    exact (Bool.false_ne_true hminus).elim
  · exact hread

theorem readInt_displayInt (i : ℤ) : readInt (displayInt i) = i := by
  unfold displayInt
  split
  · have hread : readInt ('-' :: Nat.toDigits 10 i.natAbs) =
        -(natOf (Nat.toDigits 10 i.natAbs) : ℤ) := rfl
    rw [hread,natOf,Nat.ofDigitChars_ten_toDigits]
    omega
  · rw [readInt_digits]
    omega

theorem displayInt_head (i : ℤ) (c : Char) (t : Text) (hdigit : c.isDigit = false)
    (hminus : c ≠ '-') : displayInt i ≠ c::t := by
  intro h
  have hc := displayInt_chars i c (by rw [h]; exact List.mem_cons_self ..)
  rcases hc with hc | hc
  · rw [hdigit] at hc
    exact Bool.false_ne_true hc
  · exact hminus hc

theorem displayInt_ne_nil (i : ℤ) : displayInt i ≠ [] := by
  unfold displayInt
  split
  · exact List.cons_ne_nil _ _
  · exact Nat.toDigits_ne_nil

theorem readScalar_number (i : ℤ) : readScalar (displayInt i) = .number i := by
  have hquote : (displayInt i).head? ≠ some '"' := by
    intro h
    obtain ⟨t,ht⟩ := List.head?_eq_some_iff.mp h
    exact displayInt_head i '"' t (by decide) (by decide) ht
  rw [readScalar,if_neg (displayInt_head i 'n' _ (by decide) (by decide)),
    if_neg (displayInt_head i 't' _ (by decide) (by decide)),
    if_neg (displayInt_head i 'f' _ (by decide) (by decide)),if_neg hquote,readInt_displayInt]

theorem readScalar_string (s : Text) :
    readScalar ('"' :: (yamlEscape s++[ '"'])) = .string s := by
  have hother : ∀ c t, c ≠ '"' → '"' :: (yamlEscape s++[ '"']) ≠ c::t :=
    fun c t hc h => hc (List.cons.inj h).1.symm
  rw [readScalar,if_neg (hother 'n' _ (by decide)),if_neg (hother 't' _ (by decide)),
    if_neg (hother 'f' _ (by decide)),if_pos List.head?_cons,List.tail_cons,List.dropLast_concat,
    unescape_yamlEscape]

section Readable
variable {F : Type} (isFinite : F → Bool) (display : F → Text)

theorem readScalar_scalarYaml (v : Value F) (hfree : FloatFree v) (h : isNested v = false) :
    readScalar (scalarYaml isFinite display v) = json v := by
  cases v with
  | null => rfl
  | bool b =>
    cases b with
    | true => rfl
    | false => rfl
  | int i => exact readScalar_number i.toInt
  | uint u =>
    have hread := readScalar_number u.toNat
    rw [displayInt_nat,Int.cast_natCast] at hread
    exact hread
  | float f => exact hfree.elim
  | str s => exact readScalar_string s
  | array items => cases h
  | object props => cases h

theorem scalarYaml_ne_nil (v : Value F) (hfree : FloatFree v) :
    scalarYaml isFinite display v ≠ [] := by
  cases v with
  | null => exact List.cons_ne_nil _ _
  | bool b =>
    cases b with
    | true => exact List.cons_ne_nil _ _
    | false => exact List.cons_ne_nil _ _
  | int i => exact displayInt_ne_nil i.toInt
  | uint u => exact Nat.toDigits_ne_nil
  | float f => exact hfree.elim
  | str s => exact List.cons_ne_nil _ _
  | array items => exact List.cons_ne_nil _ _
  | object props => exact List.cons_ne_nil _ _

theorem scalarYaml_newline (v : Value F) (hfree : FloatFree v) :
    ∀ c ∈ scalarYaml isFinite display v, c ≠ '\n' := by
  have hnumber : ∀ i : ℤ, ∀ c ∈ displayInt i, c ≠ '\n' := by
    rintro i c hc rfl
    rcases displayInt_chars i _ hc with h | h
    · exact Bool.false_ne_true h
    · exact absurd h (by decide)
  have hword : ∀ w : Text, '\n' ∉ w → ∀ c ∈ w, c ≠ '\n' := by
    rintro w hw c hc rfl
    exact hw hc
  cases v with
  | null => exact hword [ 'n', 'u', 'l', 'l'] (by decide)
  | bool b =>
    cases b with
    | true => exact hword [ 't', 'r', 'u', 'e'] (by decide)
    | false => exact hword [ 'f', 'a', 'l', 's', 'e'] (by decide)
  | int i => exact hnumber i.toInt
  | uint u =>
    have hdigits := hnumber u.toNat
    rw [displayInt_nat] at hdigits
    exact hdigits
  | float f => exact hfree.elim
  | str s =>
    intro c hc
    rcases List.mem_cons.mp hc with rfl | hc
    · decide
    · rcases List.mem_append.mp hc with hc | hc
      · exact yamlEscape_newline s c hc
      · rw [List.mem_singleton.mp hc]
        decide
  | array items => exact hword [ '[', ']'] (by decide)
  | object props => exact hword [ '[', ']'] (by decide)

end Readable

end Scalars

section Forests
variable {F : Type} (isFinite : F → Bool) (display : F → Text)

/-- The line of a member or of an item, without its margin: a collection is on the lines
below. -/
def propLabel (k : Text) (v : Value F) : Text :=
  k++ ':' :: (if isNested v then [] else ' ' :: scalarYaml isFinite display v)

def itemLabel (v : Value F) : Text :=
  '-' :: ' ' :: (if isNested v then [] else scalarYaml isFinite display v)

mutual

def forest : Value F → Forest Text
  | .null => .nil
  | .bool _ => .nil
  | .int _ => .nil
  | .uint _ => .nil
  | .float _ => .nil
  | .str _ => .nil
  | .array items => forestItems items
  | .object props => forestProps props

def forestItems : List (Value F) → Forest Text
  | [] => .nil
  | v::rest => .cons (itemLabel isFinite display v) (forest v) (forestItems rest)

def forestProps : List (Text × Value F) → Forest Text
  | [] => .nil
  | (k,v)::rest => .cons (propLabel isFinite display k v) (forest v) (forestProps rest)

end

theorem forest_scalar (v : Value F) (h : isNested v = false) :
    forest isFinite display v = .nil := by
  cases v with
  | null => rfl
  | bool b => rfl
  | int i => rfl
  | uint u => rfl
  | float f => rfl
  | str s => rfl
  | array items => cases h
  | object props => cases h

def yamlPage (depth : ℕ) (f : Forest Text) : Text := page ' ' '\n' 2 (f.lines depth)

theorem yamlPage_nil (depth : ℕ) : yamlPage depth .nil = [] := rfl

theorem yamlPage_cons (depth : ℕ) (label : Text) (children rest : Forest Text) :
    yamlPage depth (.cons label children rest) =
      margin depth++label++ '\n' :: (yamlPage (depth+1) children++yamlPage depth rest) := by
  simp only [yamlPage,Forest.lines,page_cons,page_append,pageLine,margin,List.append_assoc,
    List.cons_append,List.nil_append]

/-- What is printed behind a key or a dash: the end of the line and the lines below it. -/
theorem printed_behind (before : Text) (v : Value F) (depth : ℕ)
    (hpage : isNested v = true →
      toYaml isFinite display v depth = yamlPage depth (forest isFinite display v)) :
    (if isNested v then '\n' :: toYaml isFinite display v depth
        else before++(scalarYaml isFinite display v++[ '\n'])) =
      (if isNested v then [] else before++scalarYaml isFinite display v)++
        '\n' :: yamlPage depth (forest isFinite display v) := by
  by_cases h : isNested v = true
  · rw [if_pos h,if_pos h,hpage h,List.nil_append]
  · rw [if_neg h,if_neg h,forest_scalar isFinite display v (Bool.eq_false_iff.mpr h),
      yamlPage_nil,List.append_assoc]

mutual

theorem toYaml_page (v : Value F) (h : isNested v = true) (depth : ℕ) :
    toYaml isFinite display v depth = yamlPage depth (forest isFinite display v) := by
  match v with
  | .array items =>
    rw [toYaml,forest]
    exact yamlItems_page items depth
  | .object props =>
    rw [toYaml,forest]
    exact yamlProps_page props depth

theorem yamlProps_page (props : List (Text × Value F)) (depth : ℕ) :
    yamlProps isFinite display props depth =
      yamlPage depth (forestProps isFinite display props) := by
  match props with
  | [] => rfl
  | (k,v)::rest =>
    rw [yamlProps,forestProps,yamlPage_cons,yamlProps_page rest depth,propLabel]
    have hbehind := printed_behind isFinite display [ ' '] v (depth+1)
      fun h => toYaml_page v h (depth+1)
    simp only [List.append_assoc,List.cons_append,List.nil_append] at hbehind ⊢
    rw [hbehind,List.append_assoc,List.cons_append]

theorem yamlItems_page (items : List (Value F)) (depth : ℕ) :
    yamlItems isFinite display items depth =
      yamlPage depth (forestItems isFinite display items) := by
  match items with
  | [] => rfl
  | v::rest =>
    rw [yamlItems,forestItems,yamlPage_cons,yamlItems_page rest depth,itemLabel]
    have hbehind := printed_behind isFinite display [] v (depth+1)
      fun h => toYaml_page v h (depth+1)
    simp only [List.append_assoc,List.cons_append,List.nil_append] at hbehind ⊢
    rw [hbehind,List.append_assoc,List.cons_append]

end

theorem plainKey_chars {k : Text} (hk : PlainKey k) :
    ∀ c ∈ k, c.isAlphanum = true ∨ c = '_' ∨ c = '-' := by
  cases k with
  | nil => exact hk.elim
  | cons c k =>
    intro x hx
    rcases List.mem_cons.mp hx with rfl | hx
    · rcases hk.1 with hc | hc
      · exact .inl (by rw [Char.isAlphanum,hc,Bool.true_or])
      · exact .inr (.inl hc)
    · exact hk.2 x hx

theorem plainKey_ne {k : Text} (hk : PlainKey k) (x : Char) (hx : x.isAlphanum = false)
    (hx' : x ≠ '_') (hx'' : x ≠ '-') : ∀ c ∈ k, c ≠ x := by
  rintro c hc rfl
  rcases plainKey_chars hk c hc with h | h | h
  · rw [hx] at h
    exact Bool.false_ne_true h
  · exact hx' h
  · exact hx'' h

theorem plainKey_letters (c : Char) (k : Text) (h : (c::k).all Char.isAlpha = true) :
    PlainKey (c::k) := by
  have hall := List.all_eq_true.mp h
  refine ⟨.inl (hall c (List.mem_cons_self ..)),fun x hx => .inl ?_⟩
  rw [Char.isAlphanum,hall x (List.mem_cons_of_mem c hx),Bool.true_or]

theorem plainKey_head {k : Text} (hk : PlainKey k) :
    ∃ c t, k = c::t ∧ c ≠ ' ' ∧ c ≠ '-' := by
  cases k with
  | nil => exact hk.elim
  | cons c k =>
    refine ⟨c,k,rfl,?_,?_⟩
    · rintro rfl
      exact absurd hk.1 (by decide)
    · rintro rfl
      exact absurd hk.1 (by decide)

theorem propLabel_visible (k : Text) (v : Value F) (hk : PlainKey k) (hv : FloatFree v) :
    Visible ' ' '\n' (propLabel isFinite display k v) := by
  obtain ⟨c,t,ht,hc,-⟩ := plainKey_head hk
  refine ⟨⟨c,_,by rw [propLabel,ht,List.cons_append],hc⟩,?_⟩
  intro x hx
  rcases List.mem_append.mp hx with hx | hx
  · exact plainKey_ne hk '\n' (by decide) (by decide) (by decide) x hx
  · rcases List.mem_cons.mp hx with rfl | hx
    · decide
    · split at hx
      · cases hx
      · rcases List.mem_cons.mp hx with rfl | hx
        · decide
        · exact scalarYaml_newline isFinite display v hv x hx

theorem itemLabel_visible (v : Value F) (hv : FloatFree v) :
    Visible ' ' '\n' (itemLabel isFinite display v) := by
  refine ⟨⟨'-',_,rfl,by decide⟩,?_⟩
  intro x hx
  rcases List.mem_cons.mp hx with rfl | hx
  · decide
  · rcases List.mem_cons.mp hx with rfl | hx
    · decide
    · split at hx
      · cases hx
      · exact scalarYaml_newline isFinite display v hv x hx

mutual

theorem forest_visible (v : Value F) (hfree : FloatFree v) (hkeys : PlainKeys v) :
    (forest isFinite display v).All (Visible ' ' '\n') := by
  match v with
  | .null => trivial
  | .bool _ => trivial
  | .int _ => trivial
  | .uint _ => trivial
  | .float _ => trivial
  | .str _ => trivial
  | .array items => exact forestItems_visible items hfree hkeys
  | .object props => exact forestProps_visible props hfree hkeys

theorem forestItems_visible (items : List (Value F)) (hfree : FloatFreeItems items)
    (hkeys : PlainItems items) :
    (forestItems isFinite display items).All (Visible ' ' '\n') := by
  match items with
  | [] => trivial
  | v::rest =>
    exact ⟨itemLabel_visible isFinite display v hfree.1,forest_visible v hfree.1 hkeys.1,
      forestItems_visible rest hfree.2 hkeys.2⟩

theorem forestProps_visible (props : List (Text × Value F)) (hfree : FloatFreeProps props)
    (hkeys : PlainProps props) :
    (forestProps isFinite display props).All (Visible ' ' '\n') := by
  match props with
  | [] => trivial
  | (k,v)::rest =>
    exact ⟨propLabel_visible isFinite display k v hkeys.1 hfree.1,
      forest_visible v hfree.1 hkeys.2.1,forestProps_visible rest hfree.2 hkeys.2.2⟩

end

end Forests

section Told
variable {F : Type} {isFinite : F → Bool} {display : F → Text}

def Behind (isFinite : F → Bool) (display : F → Text) (v w : Value F) : Prop :=
  isNested v = isNested w ∧
    (isNested v = false → scalarYaml isFinite display v = scalarYaml isFinite display w)

theorem behind_of_eq (before : Text) {v w : Value F}
    (hv : before++scalarYaml isFinite display v ≠ [])
    (hw : before++scalarYaml isFinite display w ≠ [])
    (h : (if isNested v then [] else before++scalarYaml isFinite display v) =
      if isNested w then [] else before++scalarYaml isFinite display w) :
    Behind isFinite display v w := by
  cases hnv : isNested v with
  | true =>
    cases hnw : isNested w with
    | true => exact ⟨hnv.trans hnw.symm,fun hno => absurd (hnv.symm.trans hno) (by decide)⟩
    | false =>
      rw [hnv,hnw] at h
      exact (hw h.symm).elim
  | false =>
    cases hnw : isNested w with
    | true =>
      rw [hnv,hnw] at h
      exact (hv h).elim
    | false =>
      rw [hnv,hnw] at h
      exact ⟨hnv.trans hnw.symm,fun _ => List.append_cancel_left h⟩

theorem propLabel_inj {k k' : Text} {v w : Value F} (hk : PlainKey k) (hk' : PlainKey k')
    (h : propLabel isFinite display k v = propLabel isFinite display k' w) :
    k = k' ∧ Behind isFinite display v w := by
  have hcolon : ∀ {k : Text}, PlainKey k → ∀ x ∈ k, decide (x ≠ ':') = true :=
    fun hk x hx => decide_eq_true
      (plainKey_ne hk ':' (by decide) (by decide) (by decide) x hx)
  have hcut := Trimming.cut_inj _ (hcolon hk) (hcolon hk') (by decide) (by decide) h
  exact ⟨hcut.1,behind_of_eq [ ' '] (List.cons_ne_nil _ _) (List.cons_ne_nil _ _) hcut.2.2⟩

theorem itemLabel_inj {v w : Value F} (hv : FloatFree v) (hw : FloatFree w)
    (h : itemLabel isFinite display v = itemLabel isFinite display w) :
    Behind isFinite display v w :=
  behind_of_eq [] (scalarYaml_ne_nil isFinite display v hv)
    (scalarYaml_ne_nil isFinite display w hw) (List.cons.inj (List.cons.inj h).2).2

theorem label_apart {k : Text} (v w : Value F) (hk : PlainKey k) :
    propLabel isFinite display k v ≠ itemLabel isFinite display w := by
  obtain ⟨c,t,rfl,-,hc⟩ := plainKey_head hk
  intro h
  exact hc (List.cons.inj h).1

mutual

/-- A value without empty collections is told by what stands behind its key or dash and by
the lines below it. -/
theorem told (v w : Value F) (hfilled : Filled v) (hv : FloatFree v) (hw : FloatFree w)
    (kv : PlainKeys v) (kw : PlainKeys w) (hbehind : Behind isFinite display v w)
    (h : forest isFinite display v = forest isFinite display w) : json v = json w := by
  by_cases hscalar : isNested v = false
  · rw [← readScalar_scalarYaml isFinite display v hv hscalar,hbehind.2 hscalar,
      readScalar_scalarYaml isFinite display w hw (hbehind.1.symm.trans hscalar)]
  · match v, w with
    | .array items, .array items' =>
      rw [json,json,toldItems items items' hfilled.2 hv hw kv kw h]
    | .array (_::_), .object [] => cases h
    | .array (v::_), .object ((k,w)::_) =>
      exact (label_apart w v kw.1 (Forest.cons.inj h).1.symm).elim
    | .array [], .object _ => exact (hfilled.1 rfl).elim
    | .object props, .object props' =>
      rw [json,json,toldProps props props' hfilled.2 hv hw kv kw h]
    | .object (_::_), .array [] => cases h
    | .object ((k,v)::_), .array (w::_) =>
      exact (label_apart v w kv.1 (Forest.cons.inj h).1).elim
    | .object [], .array _ => exact (hfilled.1 rfl).elim

theorem toldItems (items items' : List (Value F)) (hfilled : FilledItems items)
    (hv : FloatFreeItems items) (hw : FloatFreeItems items') (kv : PlainItems items)
    (kw : PlainItems items')
    (h : forestItems isFinite display items = forestItems isFinite display items') :
    jsonItems items = jsonItems items' := by
  match items, items' with
  | [], [] => rfl
  | [], _::_ => cases h
  | _::_, [] => cases h
  | v::rest, w::rest' =>
    obtain ⟨hlabel,hchildren,hrest⟩ := Forest.cons.inj h
    rw [jsonItems,jsonItems,told v w hfilled.1 hv.1 hw.1 kv.1 kw.1
      (itemLabel_inj hv.1 hw.1 hlabel) hchildren,
      toldItems rest rest' hfilled.2 hv.2 hw.2 kv.2 kw.2 hrest]

theorem toldProps (props props' : List (Text × Value F)) (hfilled : FilledProps props)
    (hv : FloatFreeProps props) (hw : FloatFreeProps props') (kv : PlainProps props)
    (kw : PlainProps props')
    (h : forestProps isFinite display props = forestProps isFinite display props') :
    jsonProps props = jsonProps props' := by
  match props, props' with
  | [], [] => rfl
  | [], _::_ => cases h
  | _::_, [] => cases h
  | (k,v)::rest, (k',w)::rest' =>
    obtain ⟨hlabel,hchildren,hrest⟩ := Forest.cons.inj h
    obtain ⟨hkey,hbehind⟩ := propLabel_inj kv.1 kw.1 hlabel
    rw [jsonProps,jsonProps,hkey,told v w hfilled.1 hv.1 hw.1 kv.2.1 kw.2.1 hbehind hchildren,
      toldProps rest rest' hfilled.2 hv.2 hw.2 kv.2.2 kw.2.2 hrest]

end

end Told

section Swapped
variable {F : Type}

mutual

def swapped : Value F → Value F
  | .null => .null
  | .bool b => .bool b
  | .int i => .int i
  | .uint u => .uint u
  | .float f => .float f
  | .str s => .str s
  | .array [] => .object []
  | .array (v::rest) => .array (swapped v::swappedItems rest)
  | .object [] => .array []
  | .object ((k,v)::rest) => .object ((k,swapped v)::swappedProps rest)

def swappedItems : List (Value F) → List (Value F)
  | [] => []
  | v::rest => swapped v::swappedItems rest

def swappedProps : List (Text × Value F) → List (Text × Value F)
  | [] => []
  | (k,v)::rest => (k,swapped v)::swappedProps rest

end

theorem swapped_nested (v : Value F) : isNested (swapped v) = isNested v := by
  match v with
  | .null => rfl
  | .bool _ => rfl
  | .int _ => rfl
  | .uint _ => rfl
  | .float _ => rfl
  | .str _ => rfl
  | .array [] => rfl
  | .array (_::_) => rfl
  | .object [] => rfl
  | .object (_::_) => rfl

theorem swapped_scalar (v : Value F) (h : isNested v = false) : swapped v = v := by
  cases v with
  | null => rfl
  | bool b => rfl
  | int i => rfl
  | uint u => rfl
  | float f => rfl
  | str s => rfl
  | array items => cases h
  | object props => cases h

mutual

theorem swapped_free (v : Value F) (h : FloatFree v) : FloatFree (swapped v) := by
  match v with
  | .null => trivial
  | .bool _ => trivial
  | .int _ => trivial
  | .uint _ => trivial
  | .float _ => exact h
  | .str _ => trivial
  | .array [] => trivial
  | .array (v::rest) => exact ⟨swapped_free v h.1,swappedItems_free rest h.2⟩
  | .object [] => trivial
  | .object ((_,v)::rest) => exact ⟨swapped_free v h.1,swappedProps_free rest h.2⟩

theorem swappedItems_free (items : List (Value F)) (h : FloatFreeItems items) :
    FloatFreeItems (swappedItems items) := by
  match items with
  | [] => trivial
  | v::rest => exact ⟨swapped_free v h.1,swappedItems_free rest h.2⟩

theorem swappedProps_free (props : List (Text × Value F)) (h : FloatFreeProps props) :
    FloatFreeProps (swappedProps props) := by
  match props with
  | [] => trivial
  | (_,v)::rest => exact ⟨swapped_free v h.1,swappedProps_free rest h.2⟩

end

mutual

theorem swapped_keys (v : Value F) (h : PlainKeys v) : PlainKeys (swapped v) := by
  match v with
  | .null => trivial
  | .bool _ => trivial
  | .int _ => trivial
  | .uint _ => trivial
  | .float _ => trivial
  | .str _ => trivial
  | .array [] => trivial
  | .array (v::rest) => exact ⟨swapped_keys v h.1,swappedItems_keys rest h.2⟩
  | .object [] => trivial
  | .object ((_,v)::rest) => exact ⟨h.1,swapped_keys v h.2.1,swappedProps_keys rest h.2.2⟩

theorem swappedItems_keys (items : List (Value F)) (h : PlainItems items) :
    PlainItems (swappedItems items) := by
  match items with
  | [] => trivial
  | v::rest => exact ⟨swapped_keys v h.1,swappedItems_keys rest h.2⟩

theorem swappedProps_keys (props : List (Text × Value F)) (h : PlainProps props) :
    PlainProps (swappedProps props) := by
  match props with
  | [] => trivial
  | (_,v)::rest => exact ⟨h.1,swapped_keys v h.2.1,swappedProps_keys rest h.2.2⟩

end

section Page
variable (isFinite : F → Bool) (display : F → Text)

theorem behind_swapped (before : Text) (v : Value F) :
    (if isNested (swapped v) then [] else before++scalarYaml isFinite display (swapped v)) =
      if isNested v then [] else before++scalarYaml isFinite display v := by
  rw [swapped_nested]
  by_cases h : isNested v = true
  · rw [if_pos h,if_pos h]
  · rw [swapped_scalar v (Bool.eq_false_iff.mpr h)]

theorem propLabel_swapped (k : Text) (v : Value F) :
    propLabel isFinite display k (swapped v) = propLabel isFinite display k v := by
  rw [propLabel]
  exact congrArg (fun t => k++ ':' :: t) (behind_swapped isFinite display [ ' '] v)

theorem itemLabel_swapped (v : Value F) :
    itemLabel isFinite display (swapped v) = itemLabel isFinite display v := by
  rw [itemLabel]
  exact congrArg (fun t => '-' :: ' ' :: t) (behind_swapped isFinite display [] v)

mutual

theorem forest_swapped (v : Value F) :
    forest isFinite display (swapped v) = forest isFinite display v := by
  match v with
  | .null => rfl
  | .bool _ => rfl
  | .int _ => rfl
  | .uint _ => rfl
  | .float _ => rfl
  | .str _ => rfl
  | .array [] => rfl
  | .array (v::rest) =>
    rw [swapped,forest,forest,forestItems,forestItems,itemLabel_swapped,forest_swapped v,
      forestItems_swapped rest]
  | .object [] => rfl
  | .object ((k,v)::rest) =>
    rw [swapped,forest,forest,forestProps,forestProps,propLabel_swapped,forest_swapped v,
      forestProps_swapped rest]

theorem forestItems_swapped (items : List (Value F)) :
    forestItems isFinite display (swappedItems items) = forestItems isFinite display items := by
  match items with
  | [] => rfl
  | v::rest =>
    rw [swappedItems,forestItems,forestItems,itemLabel_swapped,forest_swapped v,
      forestItems_swapped rest]

theorem forestProps_swapped (props : List (Text × Value F)) :
    forestProps isFinite display (swappedProps props) = forestProps isFinite display props := by
  match props with
  | [] => rfl
  | (k,v)::rest =>
    rw [swappedProps,forestProps,forestProps,propLabel_swapped,forest_swapped v,
      forestProps_swapped rest]

end

end Page

mutual

theorem filled_of_swapped (v : Value F) (h : json v = json (swapped v)) : Filled v := by
  match v with
  | .null => trivial
  | .bool _ => trivial
  | .int _ => trivial
  | .uint _ => trivial
  | .float _ => trivial
  | .str _ => trivial
  | .array [] => cases h
  | .array (v::rest) =>
    obtain ⟨hv,hrest⟩ := List.cons.inj (Json.array.inj h)
    exact ⟨List.cons_ne_nil _ _,filled_of_swapped v hv,filledItems_of_swapped rest hrest⟩
  | .object [] => cases h
  | .object ((_,v)::rest) =>
    obtain ⟨hv,hrest⟩ := List.cons.inj (Json.object.inj h)
    exact ⟨List.cons_ne_nil _ _,filled_of_swapped v (Prod.mk.inj hv).2,
      filledProps_of_swapped rest hrest⟩

theorem filledItems_of_swapped (items : List (Value F))
    (h : jsonItems items = jsonItems (swappedItems items)) : FilledItems items := by
  match items with
  | [] => trivial
  | v::rest =>
    obtain ⟨hv,hrest⟩ := List.cons.inj h
    exact ⟨filled_of_swapped v hv,filledItems_of_swapped rest hrest⟩

theorem filledProps_of_swapped (props : List (Text × Value F))
    (h : jsonProps props = jsonProps (swappedProps props)) : FilledProps props := by
  match props with
  | [] => trivial
  | (_,v)::rest =>
    obtain ⟨hv,hrest⟩ := List.cons.inj h
    exact ⟨filled_of_swapped v (Prod.mk.inj hv).2,filledProps_of_swapped rest hrest⟩

end

end Swapped

section Unambiguous
variable {F : Type} (isFinite : F → Bool) (display : F → Text)

/-- No other value that may be printed has the same text. -/
def Tells (v : Value F) : Prop :=
  ∀ w, Admitted w → toYaml isFinite display v 0 = toYaml isFinite display w 0 → json v = json w

/-- The text of a value tells it exactly when no empty collection is inside it. -/
theorem toYaml_tells_iff (v : Value F) (hv : Admitted v) :
    Tells isFinite display v ↔ FilledInside v := by
  obtain ⟨⟨props,rfl⟩,hfree,hkeys⟩ := hv
  constructor
  · intro htells
    have hadmitted : Admitted (.object (swappedProps props)) :=
      ⟨⟨_,rfl⟩,swappedProps_free props hfree,swappedProps_keys props hkeys⟩
    have hsame := htells _ hadmitted (by
      rw [toYaml,toYaml,yamlProps_page,yamlProps_page,forestProps_swapped])
    exact filledProps_of_swapped props (Json.object.inj hsame)
  · rintro hfilled w ⟨⟨props',rfl⟩,hfree',hkeys'⟩ htext
    rw [toYaml,toYaml,yamlProps_page,yamlProps_page] at htext
    have hforest := page_lines_inj (by decide) (by decide) _ _
      (forestProps_visible isFinite display props hfree hkeys)
      (forestProps_visible isFinite display props' hfree' hkeys') 0 htext
    rw [json,json,toldProps props props' hfilled hfree hfree' hkeys hkeys' hforest]

end Unambiguous

def envelope : Value Unit :=
  .object [([ 'd', 'a', 't', 'a'],.array [.object [([ 'i', 'd'],.int 1)],.null]),
    ([ 'n'],.uint 2)]

theorem toYaml_tells_envelope : Tells (fun _ => true) (fun _ => []) envelope := by
  have hadmitted : Admitted envelope := by
    refine ⟨⟨_,rfl⟩,?_,?_⟩
    · simp [envelope,FloatFree,FloatFreeItems,FloatFreeProps]
    · exact ⟨plainKey_letters _ _ rfl,⟨⟨plainKey_letters _ _ rfl,trivial,trivial⟩,trivial,trivial⟩,
        plainKey_letters _ _ rfl,trivial,trivial⟩
  refine (toYaml_tells_iff (fun _ => true) (fun _ => []) envelope hadmitted).mpr ?_
  simp [envelope,FilledInside,FilledProps,FilledItems,Filled]

/-- A member whose value is an empty array, and the same member with an empty object. -/
def emptyArray : Value Unit := .object [([ 'a'],.array [])]

def emptyObject : Value Unit := .object [([ 'a'],.object [])]

theorem empty_collections_agree :
    Admitted emptyArray ∧ Admitted emptyObject ∧
      toYaml (fun _ => true) (fun _ => []) emptyArray 0 =
        toYaml (fun _ => true) (fun _ => []) emptyObject 0 ∧
      json emptyArray ≠ json emptyObject := by
  have hkey : PlainKey [ 'a'] := plainKey_letters 'a' [] rfl
  refine ⟨⟨⟨_,rfl⟩,⟨trivial,trivial⟩,⟨hkey,trivial,trivial⟩⟩,
    ⟨⟨_,rfl⟩,⟨trivial,trivial⟩,⟨hkey,trivial,trivial⟩⟩,rfl,?_⟩
  intro h
  cases h

end Zamak.YamlPrinter
