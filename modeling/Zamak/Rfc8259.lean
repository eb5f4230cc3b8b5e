import Mathlib.Data.Rat.Init
import Mathlib.Algebra.Field.Rat
import Mathlib.Logic.Function.Basic

/-! # The texts of RFC 8259

The grammar of JSON as relations between a text and what it says. A number is its value, a
string its characters, and an object keeps its members in order with every duplicate. White
space stands around the structural characters and the document. -/

set_option autoImplicit false

namespace Zamak.Rfc8259

abbrev Text := List Char

inductive Json where
  | null
  | bool (b : Bool)
  | number (value : ℚ)
  | string (s : Text)
  | array (items : List Json)
  | object (members : List (Text × Json))

def isWs (c : Char) : Bool := c == ' ' || c == '\t' || c == '\n' || c == '\r'

def Blank (t : Text) : Prop := ∀ c ∈ t, isWs c = true

theorem blank_nil : Blank [] := by
  intro c hc
  simp at hc

theorem blank_append (t u : Text) (ht : Blank t) (hu : Blank u) : Blank (t++u) := by
  intro c hc
  rcases List.mem_append.mp hc with hc | hc
  · exact ht c hc
  · exact hu c hc

section Strings

def shortEscape : Char → Option Char
  | '"' => some '"'
  | '\\' => some '\\'
  | '/' => some '/'
  | 'b' => some '\x08'
  | 'f' => some '\x0c'
  | 'n' => some '\n'
  | 'r' => some '\r'
  | 't' => some '\t'
  | _ => none

def hexValue (c : Char) : Option ℕ :=
  if '0' ≤ c ∧ c ≤ '9' then some (c.toNat-48)
  else if 'a' ≤ c ∧ c ≤ 'f' then some (c.toNat-87)
  else if 'A' ≤ c ∧ c ≤ 'F' then some (c.toNat-55)
  else none

def hex4 (a b c d : Char) : Option ℕ := do
  let a ← hexValue a
  let b ← hexValue b
  let c ← hexValue c
  let d ← hexValue d
  some (((a*16+b)*16+c)*16+d)

def IsHigh (n : ℕ) : Prop := 0xD800 ≤ n ∧ n < 0xDC00
def IsLow (n : ℕ) : Prop := 0xDC00 ≤ n ∧ n < 0xE000

instance (n : ℕ) : Decidable (IsHigh n) := inferInstanceAs (Decidable (_ ∧ _))
instance (n : ℕ) : Decidable (IsLow n) := inferInstanceAs (Decidable (_ ∧ _))

def pairValue (high low : ℕ) : ℕ := 0x10000+(high-0xD800)*0x400+(low-0xDC00)

inductive CharText : Text → Char → Prop where
  | unescaped (c : Char) (hc : 0x20 ≤ c.toNat) (hq : c ≠ '"') (hb : c ≠ '\\') : CharText [c] c
  | short (e c : Char) (h : shortEscape e = some c) : CharText ['\\',e] c
  | code (a b c d : Char) (n : ℕ) (h : hex4 a b c d = some n) (hh : ¬IsHigh n) (hl : ¬IsLow n) :
      CharText ['\\', 'u',a,b,c,d] (Char.ofNat n)
  | pair (a b c d a' b' c' d' : Char) (high low : ℕ) (h : hex4 a b c d = some high)
      (h' : hex4 a' b' c' d' = some low) (hh : IsHigh high) (hl : IsLow low) :
      CharText ['\\', 'u',a,b,c,d, '\\', 'u',a',b',c',d'] (Char.ofNat (pairValue high low))

inductive CharsText : Text → Text → Prop where
  | nil : CharsText [] []
  | cons (t u : Text) (c : Char) (s : Text) (hc : CharText t c) (hs : CharsText u s) :
      CharsText (t++u) (c::s)

end Strings

section Numbers

def Digits (ds : Text) : Prop := ds ≠ [] ∧ ∀ c ∈ ds, c.isDigit = true

/-- No leading zero before another digit. -/
def IntText (ds : Text) : Prop := Digits ds ∧ (ds.head? = some '0' → ds = ['0'])

def natOf (ds : Text) : ℕ := Nat.ofDigitChars 10 ds 0

inductive FracText : Text → ℚ → Prop where
  | none : FracText [] 0
  | some (ds : Text) (h : Digits ds) : FracText ('.' :: ds) (natOf ds/10^ds.length)

def IsExpMark (c : Char) : Prop := c = 'e' ∨ c = 'E'

inductive ExpText : Text → ℤ → Prop where
  | none : ExpText [] 0
  | bare (e : Char) (ds : Text) (he : IsExpMark e) (h : Digits ds) : ExpText (e::ds) (natOf ds)
  | plus (e : Char) (ds : Text) (he : IsExpMark e) (h : Digits ds) :
      ExpText (e :: '+' :: ds) (natOf ds)
  | minus (e : Char) (ds : Text) (he : IsExpMark e) (h : Digits ds) :
      ExpText (e :: '-' :: ds) (-natOf ds)

inductive NumberText : Text → ℚ → Prop where
  | plain (int frac exp : Text) (f : ℚ) (e : ℤ) (hi : IntText int) (hf : FracText frac f)
      (he : ExpText exp e) : NumberText (int++frac++exp) ((natOf int+f)*10^e)
  | minus (int frac exp : Text) (f : ℚ) (e : ℤ) (hi : IntText int) (hf : FracText frac f)
      (he : ExpText exp e) : NumberText ('-' :: (int++frac++exp)) (-((natOf int+f)*10^e))

end Numbers

inductive ColonText : Text → Prop where
  | mk (w w' : Text) (hw : Blank w) (hw' : Blank w') : ColonText (w++ ':' :: w')

mutual

inductive ValueText : Text → Json → Prop where
  | null : ValueText [ 'n', 'u', 'l', 'l'] .null
  | true : ValueText [ 't', 'r', 'u', 'e'] (.bool true)
  | false : ValueText [ 'f', 'a', 'l', 's', 'e'] (.bool false)
  | number (t : Text) (q : ℚ) (h : NumberText t q) : ValueText t (.number q)
  | string (t s : Text) (h : CharsText t s) : ValueText ('"' :: (t++[ '"'])) (.string s)
  | emptyArray (w : Text) (hw : Blank w) : ValueText ('[' :: (w++[ ']'])) (.array [])
  | array (t : Text) (items : List Json) (h : ElementsText t items) :
      ValueText ('[' :: (t++[ ']'])) (.array items)
  | emptyObject (w : Text) (hw : Blank w) : ValueText ('{' :: (w++[ '}'])) (.object [])
  | object (t : Text) (members : List (Text × Json)) (h : MembersText t members) :
      ValueText ('{' :: (t++[ '}'])) (.object members)

/-- The values between brackets, with the white space around them. -/
inductive ElementsText : Text → List Json → Prop where
  | last (w t w' : Text) (j : Json) (hw : Blank w) (hw' : Blank w') (h : ValueText t j) :
      ElementsText (w++t++w') [j]
  | more (w t w' u : Text) (j : Json) (items : List Json) (hw : Blank w) (hw' : Blank w')
      (h : ValueText t j) (hu : ElementsText u items) :
      ElementsText (w++t++w'++ ',' :: u) (j::items)

/-- The members between braces: a string, a colon and a value each. -/
inductive MembersText : Text → List (Text × Json) → Prop where
  | last (w k x t w' : Text) (s : Text) (j : Json) (hw : Blank w) (hk : CharsText k s)
      (hx : ColonText x) (hw' : Blank w') (h : ValueText t j) :
      MembersText (w++ '"' :: (k++ '"' :: (x++t++w'))) [(s,j)]
  | more (w k x t w' u : Text) (s : Text) (j : Json) (members : List (Text × Json))
      (hw : Blank w) (hk : CharsText k s) (hx : ColonText x) (hw' : Blank w')
      (h : ValueText t j) (hu : MembersText u members) :
      MembersText (w++ '"' :: (k++ '"' :: (x++t++w'++ ',' :: u))) ((s,j)::members)

end

inductive DocumentText : Text → Json → Prop where
  | mk (w t w' : Text) (j : Json) (hw : Blank w) (hw' : Blank w') (h : ValueText t j) :
      DocumentText (w++t++w') j

/-- A parser takes every document to what it says; it may accept more. -/
def IsParser (parse : Text → Option Json) : Prop :=
  ∀ t j, DocumentText t j → parse t = some j

end Zamak.Rfc8259
