import Mathlib.Data.List.GetD
import Zamak.BootFlow
import Zamak.PartialSteps

/-! # Configuration lines in the SMBIOS table

A structure is its formatted area, whose second byte is the length, and a section of
strings. One scan cuts the section into strings and another one finds its end; on a
well-formed table they stop at the same place, so the walk meets every structure. -/

set_option autoImplicit false

namespace Zamak.SmbiosConfig
open Zamak.ConfigText Zamak.PartialSteps
open Zamak.BootFlow (fromUtf8)

def smbiosConfigPrefix : Text := "limine:config:".toList
def smbiosTypeOemStrings : UInt8 := 11

def stripPrefix (pattern s : Text) : Option Text :=
  if pattern.isPrefixOf s then some (s.drop pattern.length) else none

/-- The loop of `parse_smbios_strings`; the chunk is what was read since the last NUL. -/
def parseFrom (chunk : List UInt8) : List UInt8 → List Text
  | [] => []
  | b::data =>
    if b = 0 then
      if chunk = [] then [] else (fromUtf8 chunk).toList++parseFrom [] data
    else parseFrom (chunk++[b]) data

def parseSmbiosStrings (data : List UInt8) : List Text := parseFrom [] data

def stringsSectionLen : List UInt8 → ℕ
  | [] => 0
  | [_] => 1
  | a::b::data => if a = 0 ∧ b = 0 then 2 else 1+stringsSectionLen (b::data)

def configLinesOf (structType : UInt8) (strings : List Text) : List Text :=
  if structType = smbiosTypeOemStrings then strings.filterMap (stripPrefix smbiosConfigPrefix)
  else []

def extractFrom (table : List UInt8) (offset : ℕ) : Option (List Text) :=
  if offset+4 ≤ table.length then
    let structType := table.getD offset 0
    let structLen := (table.getD (offset+1) 0).toNat
    if structLen < 4 then some []
    else if structType = 127 then some []
    else
      let stringAreaStart := offset+structLen
      if stringAreaStart ≤ table.length then
        let area := table.drop stringAreaStart
        (extractFrom table (stringAreaStart+stringsSectionLen area)).map
          (configLinesOf structType (parseSmbiosStrings area)++·)
      else none
  else some []
termination_by table.length-offset
decreasing_by
  have : 4 ≤ structLen := Nat.le_of_not_lt ‹_›
  omega

def extractSmbiosConfig (smbiosTable : List UInt8) : Option (List Text) :=
  extractFrom smbiosTable 0

/-- A structure to be written: its formatted bytes after the length byte, and strings
that can be told apart. -/
structure Structure where
  kind : UInt8
  formatted : List UInt8
  strings : List (List UInt8)
  notEnd : kind ≠ 127
  size : 4 ≤ 2+formatted.length ∧ 2+formatted.length ≤ 255
  separable : ∀ s ∈ strings, s ≠ [] ∧ 0 ∉ s

def terminated (strings : List (List UInt8)) : List UInt8 := strings.flatMap (·++[0])

def section_ (strings : List (List UInt8)) : List UInt8 :=
  if strings = [] then [0,0] else terminated strings++[0]

def Structure.header (s : Structure) : List UInt8 :=
  s.kind::UInt8.ofNat (2+s.formatted.length)::s.formatted

def Structure.bytes (s : Structure) : List UInt8 := s.header++section_ s.strings

/-- The valid strings of an OEM structure that start with the prefix, without it. -/
def Structure.configLines (s : Structure) : List Text :=
  if s.kind = 11 then
    s.strings.filterMap fun bytes => (fromUtf8 bytes).bind (stripPrefix "limine:config:".toList)
  else []

section Scans
variable (rest : List UInt8)

theorem parseFrom_text (s : List UInt8) (hs : 0 ∉ s) (chunk data : List UInt8) :
    parseFrom chunk (s++data) = parseFrom (chunk++s) data := by
  induction s generalizing chunk with
  | nil => simp
  | cons b s ih =>
    have hb : b ≠ 0 := fun h => hs (h ▸ List.mem_cons_self)
    rw [List.cons_append,parseFrom,if_neg hb,ih (fun h => hs (List.mem_cons_of_mem b h)),
      List.append_assoc]
    rfl

theorem parseFrom_terminated (strings : List (List UInt8))
    (h : ∀ s ∈ strings, s ≠ [] ∧ 0 ∉ s) :
    parseFrom [] (terminated strings++0::rest) = strings.filterMap fromUtf8 := by
  induction strings with
  | nil => rfl
  | cons s strings ih =>
    have ⟨hne,hs⟩ := h s List.mem_cons_self
    have hcut : terminated (s::strings)++0::rest = s++0::(terminated strings++0::rest) := by
      simp [terminated]
    rw [hcut,parseFrom_text s hs,List.nil_append,parseFrom,if_pos rfl,if_neg hne,
      ih (fun t ht => h t (List.mem_cons_of_mem s ht))]
    cases hutf8 : fromUtf8 s with
    | none => rw [List.filterMap_cons_none hutf8]; rfl
    | some text => rw [List.filterMap_cons_some hutf8]; rfl

theorem sectionLen_skip (b : UInt8) (hb : b ≠ 0) (data : List UInt8) :
    stringsSectionLen (b::data) = 1+stringsSectionLen data := by
  cases data with
  | nil => rfl
  | cons c data => rw [stringsSectionLen,if_neg (fun h => hb h.1)]

theorem sectionLen_text (s : List UInt8) (hs : 0 ∉ s) (data : List UInt8) :
    stringsSectionLen (s++data) = s.length+stringsSectionLen data := by
  induction s with
  | nil => rw [List.nil_append,List.length_nil,Nat.zero_add]
  | cons b s ih =>
    have hb : b ≠ 0 := fun h => hs (h ▸ List.mem_cons_self)
    rw [List.cons_append,sectionLen_skip b hb,ih (fun h => hs (List.mem_cons_of_mem b h)),
      List.length_cons]
    omega

theorem sectionLen_terminated (s : List UInt8) (strings : List (List UInt8))
    (h : ∀ t ∈ s::strings, t ≠ [] ∧ 0 ∉ t) :
    stringsSectionLen (terminated (s::strings)++0::rest) =
      (terminated (s::strings)).length+1 := by
  induction strings generalizing s with
  | nil =>
    have hcut : terminated [s]++0::rest = s++0::0::rest := by simp [terminated]
    rw [hcut,sectionLen_text s (h s List.mem_cons_self).2,stringsSectionLen,if_pos ⟨rfl,rfl⟩]
    simp [terminated]
  | cons t strings ih =>
    have htail : ∀ u ∈ t::strings, u ≠ [] ∧ 0 ∉ u :=
      fun u hu => h u (List.mem_cons_of_mem s hu)
    have ⟨htne,ht⟩ := htail t List.mem_cons_self
    have hcut : terminated (s::t::strings)++0::rest =
        s++0::(terminated (t::strings)++0::rest) := by
      simp [terminated]
    have hlen : (terminated (s::t::strings)).length =
        s.length+1+(terminated (t::strings)).length := by
      simp only [terminated,List.flatMap_cons,List.length_append,List.length_singleton]
    -- The NUL after `s` is followed by the first byte of `t`, which is none.
    have hnul : stringsSectionLen (0::(terminated (t::strings)++0::rest)) =
        1+stringsSectionLen (terminated (t::strings)++0::rest) := by
      cases t with
      | nil => exact absurd rfl htne
      | cons b t =>
        have hb : b ≠ 0 := fun hz => ht (hz ▸ List.mem_cons_self)
        exact if_neg (fun hz => hb hz.2)
    rw [hcut,sectionLen_text s (h s List.mem_cons_self).2,hnul,ih t htail,hlen]
    omega

theorem section_scans (strings : List (List UInt8)) (h : ∀ s ∈ strings, s ≠ [] ∧ 0 ∉ s) :
    parseSmbiosStrings (section_ strings++rest) = strings.filterMap fromUtf8 ∧
    stringsSectionLen (section_ strings++rest) = (section_ strings).length := by
  cases strings with
  | nil => exact ⟨rfl,rfl⟩
  | cons s strings =>
    have hcut : section_ (s::strings)++rest = terminated (s::strings)++0::rest := by
      simp [section_]
    rw [hcut]
    refine ⟨parseFrom_terminated rest (s::strings) h,?_⟩
    rw [sectionLen_terminated rest s strings h,section_,if_neg (List.cons_ne_nil s strings),
      List.length_append]
    rfl

end Scans

theorem header_length (s : Structure) : s.header.length = 2+s.formatted.length := by
  simp only [Structure.header,List.length_cons]
  omega

theorem configLinesOf_strings (s : Structure) :
    configLinesOf s.kind (s.strings.filterMap fromUtf8) = s.configLines := by
  rw [configLinesOf,List.filterMap_filterMap]
  rfl

theorem extractFrom_structure (s : Structure) (before rest : List UInt8) :
    extractFrom (before++s.bytes++rest) before.length =
      (extractFrom (before++s.bytes++rest) (before++s.bytes).length).map
        (s.configLines++·) := by
  have hsize := s.size
  have hheader := header_length s
  have ⟨hparse,hlen⟩ := section_scans rest s.strings s.separable
  have htotal : (before++s.bytes++rest).length =
      before.length+(2+s.formatted.length)+(section_ s.strings).length+rest.length := by
    simp only [List.length_append,Structure.bytes,hheader]
    omega
  have hdrop : ∀ k, (before++s.bytes++rest).drop (before.length+k) = (s.bytes++rest).drop k := by
    intro k
    rw [List.append_assoc,← List.drop_drop,List.drop_left]
  have hkind : (before++s.bytes++rest).getD before.length 0 = s.kind := by
    rw [List.append_assoc,List.getD_append_right _ _ _ _ (Nat.le_refl _),Nat.sub_self]
    rfl
  have hlength : ((before++s.bytes++rest).getD (before.length+1) 0).toNat =
      2+s.formatted.length := by
    rw [List.append_assoc,List.getD_append_right _ _ _ _ (Nat.le_add_right _ _),
      Nat.add_sub_cancel_left]
    show (UInt8.ofNat (2+s.formatted.length)).toNat = _
    rw [UInt8.toNat_ofNat']
    omega
  have harea : (before++s.bytes++rest).drop (before.length+(2+s.formatted.length)) =
      section_ s.strings++rest := by
    rw [hdrop,Structure.bytes,List.append_assoc,← hheader,List.drop_left]
  have hnext : before.length+(2+s.formatted.length)+(section_ s.strings).length =
      (before++s.bytes).length := by
    simp only [List.length_append,Structure.bytes,hheader]
    omega
  rw [extractFrom,if_pos (by omega)]
  simp only [hkind,hlength,harea,hparse,hlen,hnext,configLinesOf_strings]
  rw [if_neg (by omega),if_neg s.notEnd,if_pos (by omega)]

theorem extractFrom_structures (structures : List Structure) (before trailing : List UInt8) :
    extractFrom (before++structures.flatMap Structure.bytes++127::trailing) before.length =
      some (structures.flatMap Structure.configLines) := by
  induction structures generalizing before with
  | nil =>
    have hkind : (before++127::trailing).getD before.length 0 = 127 := by
      rw [List.getD_append_right _ _ _ _ (Nat.le_refl _),Nat.sub_self]
      rfl
    simp only [List.flatMap_nil,List.append_nil]
    rw [extractFrom]
    simp only [hkind,if_true]
    split
    · split <;> rfl
    · rfl
  | cons s structures ih =>
    have hcut : before++(s::structures).flatMap Structure.bytes++127::trailing =
        before++s.bytes++(structures.flatMap Structure.bytes++127::trailing) := by
      simp
    have hstep := extractFrom_structure s before (structures.flatMap Structure.bytes++127::trailing)
    have hrest := ih (before++s.bytes)
    rw [List.append_assoc] at hrest
    rw [hcut,hstep,hrest]
    rfl

/-- Extraction inverts serialization, whatever follows the end structure's type. -/
theorem extractSmbiosConfig_serialized (structures : List Structure) (trailing : List UInt8) :
    extractSmbiosConfig (structures.flatMap Structure.bytes++127::trailing) =
      some (structures.flatMap Structure.configLines) :=
  extractFrom_structures structures [] trailing

section Bounds
variable (table : List UInt8)

/-- The walk takes a structure at an offset: there is room for a header, the length is one,
and the structure is not the last. -/
def TakesStructure (offset : ℕ) : Prop :=
  offset+4 ≤ table.length ∧ 4 ≤ (table.getD (offset+1) 0).toNat ∧ table.getD offset 0 ≠ 127

instance (offset : ℕ) : Decidable (TakesStructure table offset) :=
  inferInstanceAs (Decidable (_ ∧ _))

/-- Where the formatted area of a structure ends by its own length. -/
def formattedEnd (offset : ℕ) : ℕ := offset+(table.getD (offset+1) 0).toNat

def nextStructure (offset : ℕ) : Option ℕ :=
  if TakesStructure table offset then
    some (formattedEnd table offset+stringsSectionLen (table.drop (formattedEnd table offset)))
  else none

/-- Every structure the walk takes from an offset on ends its formatted area in the table. -/
def FormattedInside (offset : ℕ) : Prop :=
  ∀ n x, visit (nextStructure table) n offset = some x → TakesStructure table x →
    formattedEnd table x ≤ table.length

theorem extractFrom_untaken (offset : ℕ) (h : ¬TakesStructure table offset) :
    extractFrom table offset = some [] := by
  rw [extractFrom]
  split
  · next hroom =>
    simp only
    split
    · rfl
    · next hlength =>
      split
      · rfl
      · next hkind => exact absurd ⟨hroom,Nat.le_of_not_lt hlength,hkind⟩ h
  · rfl

theorem extractFrom_taken (offset : ℕ) (h : TakesStructure table offset) :
    extractFrom table offset =
      if formattedEnd table offset ≤ table.length then
        (extractFrom table (formattedEnd table offset+
          stringsSectionLen (table.drop (formattedEnd table offset)))).map
          (configLinesOf (table.getD offset 0)
            (parseSmbiosStrings (table.drop (formattedEnd table offset)))++·)
      else none := by
  rw [extractFrom,if_pos h.1]
  simp only
  rw [if_neg (Nat.not_lt.mpr h.2.1),if_neg h.2.2]
  rfl

theorem formattedInside_untaken (offset : ℕ) (h : ¬TakesStructure table offset) :
    FormattedInside table offset := by
  intro n x hvisit htakes
  cases n with
  | zero =>
    cases hvisit
    exact absurd htakes h
  | succ n =>
    rw [visit,nextStructure,if_neg h] at hvisit
    cases hvisit

theorem formattedInside_taken (offset : ℕ) (h : TakesStructure table offset) :
    FormattedInside table offset ↔ formattedEnd table offset ≤ table.length ∧
      FormattedInside table (formattedEnd table offset+
        stringsSectionLen (table.drop (formattedEnd table offset))) := by
  have hnext : nextStructure table offset = some (formattedEnd table offset+
      stringsSectionLen (table.drop (formattedEnd table offset))) := if_pos h
  constructor
  · intro hinside
    refine ⟨hinside 0 offset rfl h,fun n x hvisit => hinside (n+1) x ?_⟩
    rw [visit,hnext,Option.bind_some,hvisit]
  · rintro ⟨hfits,hrest⟩ n x hvisit htakes
    cases n with
    | zero =>
      cases hvisit
      exact hfits
    | succ n =>
      rw [visit,hnext,Option.bind_some] at hvisit
      exact hrest n x hvisit htakes

theorem extractFrom_safe_iff (offset : ℕ) :
    (∃ lines, extractFrom table offset = some lines) ↔ FormattedInside table offset := by
  induction hleft : table.length-offset using Nat.strongRecOn generalizing offset with
  | ind left ih =>
    by_cases htakes : TakesStructure table offset
    · rw [extractFrom_taken table offset htakes,formattedInside_taken table offset htakes]
      split
      · next hfits =>
        have hroom := htakes.1
        have hlength := htakes.2.1
        have hless : table.length-(formattedEnd table offset+
            stringsSectionLen (table.drop (formattedEnd table offset))) < left := by
          simp only [formattedEnd]
          omega
        rw [← ih _ hless _ rfl]
        simp [hfits]
      · next hfits => simp [hfits]
    · rw [extractFrom_untaken table offset htakes]
      exact ⟨fun _ => formattedInside_untaken table offset htakes,fun _ => ⟨[],rfl⟩⟩

/-- The extraction comes back from a table, and no slice is out of range, exactly when the
formatted area of every structure the walk takes ends in the table. -/
theorem extractSmbiosConfig_safe_iff :
    (∃ lines, extractSmbiosConfig table = some lines) ↔ FormattedInside table 0 :=
  extractFrom_safe_iff table 0

end Bounds

/-- A header whose length goes past the end of the table. -/
theorem truncated_structure :
    extractSmbiosConfig [0,5,0,0] = none ∧
    ¬∃ lines, extractSmbiosConfig [0,5,0,0] = some lines := by
  have htakes : TakesStructure [0,5,0,0] 0 := by decide
  have hnone : extractSmbiosConfig [0,5,0,0] = none := by
    rw [extractSmbiosConfig,extractFrom_taken _ 0 htakes]
    exact if_neg (by decide)
  simp [hnone]

end Zamak.SmbiosConfig
