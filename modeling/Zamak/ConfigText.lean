import Mathlib.Algebra.Group.Nat.Defs
import Mathlib.Data.List.DropRight
import Mathlib.Logic.Function.Basic

/-! # Text as the configuration parser sees it

A `&str` is a list of characters here. The functions below are the ones the parser
takes from the standard library, and its macro expansion, which works on the bytes
of the text. Upper-casing is left to the platform. -/

set_option autoImplicit false

namespace Zamak.ConfigText

abbrev Text := List Char

instance textLawful : LawfulBEq Text := inferInstance

def isWhitespace (c : Char) : Bool :=
  (0x09 ≤ c.toNat && c.toNat ≤ 0x0D) || c.toNat == 0x20 || c.toNat == 0x85 ||
    c.toNat == 0xA0 || c.toNat == 0x1680 || (0x2000 ≤ c.toNat && c.toNat ≤ 0x200A) ||
    c.toNat == 0x2028 || c.toNat == 0x2029 || c.toNat == 0x202F || c.toNat == 0x205F ||
    c.toNat == 0x3000

def trim (s : Text) : Text := (s.dropWhile isWhitespace).rdropWhile isWhitespace

def stripCr (s : Text) : Text := if s.getLast? = some '\r' then s.dropLast else s

/-- `str::lines`: a terminator is `\n` or `\r\n`, and a final empty line is none. -/
def lines (s : Text) : List Text :=
  let parts := s.splitOn '\n'
  parts.dropLast.map stripCr++parts.getLast?.toList.filter (· ≠ [])

def splitOnce (c : Char) (s : Text) : Option (Text × Text) :=
  match s.dropWhile (· != c) with
  | [] => none
  | _::rest => some (s.takeWhile (· != c),rest)

/-- `str::parse` at an unsigned type of the given width: an optional `+`, then
decimal digits, with overflow an error. -/
def parseUnsigned (bits : ℕ) (s : Text) : Option ℕ :=
  let digits := if s.head? = some '+' then s.tail else s
  if digits ≠ [] ∧ digits.all Char.isDigit then
    let n := digits.foldl (fun n c => 10*n+(c.toNat - '0'.toNat)) 0
    if n < 2^bits then some n else none
  else none

/-- A `BTreeMap` of strings, of which only insertion and lookup are used. -/
abbrev StringMap := Text → Option Text

def StringMap.insert (m : StringMap) (key value : Text) : StringMap :=
  Function.update m key (some value)

/-- `bytes[i] as char` for each byte of a character. -/
def bytesAsChars (c : Char) : Text :=
  (String.utf8EncodeChar c).map fun b => Char.ofNat b.toNat

/-- The loop of `expand_macros`, with `skip` characters already consumed. The bytes
`$`, `{` and `}` occur in no other character, so the scan over bytes and this one
over characters find the same references; every other byte is pushed as a
character of its own. -/
def expandFrom (macros : StringMap) : ℕ → Text → Text
  | _, [] => []
  | skip+1, _::rest => expandFrom macros skip rest
  | 0, c::rest =>
    if c = '$' ∧ rest.head? = some '{' then
      match splitOnce '}' rest.tail with
      | some (name,_) =>
        (macros name).getD (['$', '{']++name++['}'])++expandFrom macros (name.length+2) rest
      | none => bytesAsChars c++expandFrom macros 0 rest
    else bytesAsChars c++expandFrom macros 0 rest

def expandMacros (input : Text) (macros : StringMap) : Text := expandFrom macros 0 input

/-- `parse_macro_definition`: a line that reads `$`, a name in braces, `=`, a value. -/
def parseMacroDefinition (line : Text) : Option (Text × Text) :=
  match trim line with
  | '$' :: '{' :: body =>
    match splitOnce '}' body with
    | some (name, '=' :: value) => some (name,trim value)
    | _ => none
  | _ => none

end Zamak.ConfigText
