import Mathlib.Data.Bool.AllAny
import Zamak.MacroSubstitution

/-! # The two ways to write an option

An option line is `KEY=value` or `KEY: value`. The parser looks for an `=` in the whole line
before it looks for a colon, so a value behind a colon is cut at its own first `=`; and the
expansion of macros copies bytes. Values that survive both are read alike in either form. -/

set_option autoImplicit false

namespace Zamak.OptionSyntax
open Zamak.ConfigText Zamak.ConfigParse Zamak.ConfigEntries Zamak.ConfigDifferential
open Zamak.Trimming Zamak.SmbiosMerge
open Zamak.ReferenceParser (trim_eq splitOnce_some configLine_plain)
open Zamak.BootFlow (asciiPlatform)

/-- A character of an option name: no blank and none of the marks a line is read by. Letters,
digits and underscores are such characters. -/
def NameChar (c : Char) : Prop := isWhitespace c = false ∧ c ∉ [ '=', ':', '/', '#', '$']

instance (c : Char) : Decidable (NameChar c) := inferInstanceAs (Decidable (_ ∧ _))

structure Written (name value : Text) : Prop where
  named : name ≠ []
  chars : ∀ c ∈ name, NameChar c
  given : value ≠ []
  trimmed : trim value = value
  oneLine : '\n' ∉ value
  macroFree : MacroFree value

def colonLine (name value : Text) : Text := name++ ':' :: ' ' :: value

def equalsLine (name value : Text) : Text := name++ '=' :: value

def readOption (platform : Platform) (macros : StringMap) (line : Text) : Option (Text × Text) :=
  match configLine platform line with
  | .option key value => some (key,expandMacros value macros)
  | _ => none

theorem parseLine_readOption (platform : Platform) (s : ParseState) (line key value : Text)
    (h : readOption platform s.macros line = some (key,value)) :
    parseLine platform s line = applyOption platform s key value := by
  unfold readOption at h
  rw [parseLine_eq]
  split at h
  · next hline =>
    rw [hline]
    cases h
    rfl
  · cases h

section Lines
variable (name value : Text)

/-- Nothing is trimmed from a name, or from a line that goes from a name to a value. -/
theorem trim_name (hw : Written name value) : trim name = name := by
  rw [trim_eq]
  apply strip_self
  · intro c hc
    exact (hw.chars c (List.mem_of_mem_head? hc)).1
  · intro c hc
    exact (hw.chars c (List.mem_of_getLast? hc)).1

theorem trim_line (hw : Written name value) (between : Text) :
    trim (name++(between++value)) = name++(between++value) := by
  rw [trim_eq]
  apply strip_self
  · intro c hc
    rw [List.head?_append_of_ne_nil _ hw.named] at hc
    exact (hw.chars c (List.mem_of_mem_head? hc)).1
  · intro c hc
    apply strip_last isWhitespace value c
    rw [← trim_eq,hw.trimmed]
    rwa [← List.append_assoc,List.getLast?_append_of_ne_nil _ hw.given] at hc

theorem configLine_named (platform : Platform) (hw : Written name value) (between : Text) :
    configLine platform (name++(between++value)) =
      match optionLine (name++(between++value)) with
      | some (key,value) => .option (platform.toUppercase (trim key)) (trim value)
      | none => .skipped := by
  obtain ⟨c,rest,hname⟩ := List.exists_cons_of_ne_nil hw.named
  have hmem : c ∈ name := by
    rw [hname]
    exact List.mem_cons_self
  have hmarks := (hw.chars c hmem).2
  have hline := trim_line name value hw between
  have hhead : (trim (name++(between++value))).head? = some c := by
    rw [hline,hname]
    rfl
  rw [configLine_plain platform _ c hhead (by rintro rfl; simp at hmarks)
    (by rintro rfl; simp at hmarks),hline]
  exact if_neg (by rintro (rfl | rfl) <;> simp at hmarks)

theorem notMem_name (hw : Written name value) (c : Char)
    (hc : c ∈ [ '=', ':', '/', '#', '$']) : c ∉ name :=
  fun hmem => (hw.chars c hmem).2 hc

theorem readOption_equals (platform : Platform) (macros : StringMap) (hw : Written name value) :
    readOption platform macros (equalsLine name value) =
      some (platform.toUppercase name,value.flatMap bytesAsChars) := by
  have hsplit : splitOnce '=' (name++([ '=']++value)) = some (name,value) :=
    (splitOnce_some '=' _ name value).mpr ⟨rfl,notMem_name name value hw '=' (by decide)⟩
  have hline := configLine_named name value platform hw [ '=']
  rw [optionLine,hsplit] at hline
  simp only [Option.some_or] at hline
  change configLine platform (equalsLine name value) = _ at hline
  rw [readOption,hline,trim_name name value hw,hw.trimmed]
  simp only [expandMacros_free macros value hw.macroFree]

theorem readOption_colon (platform : Platform) (macros : StringMap) (hw : Written name value)
    (hplain : '=' ∉ value) :
    readOption platform macros (colonLine name value) =
      some (platform.toUppercase name,value.flatMap bytesAsChars) := by
  have hnone : splitOnce '=' (name++([ ':', ' ']++value)) = none := by
    rw [← Option.not_isSome_iff_eq_none,Option.isSome_iff_exists]
    rintro ⟨⟨key,val⟩,hcut⟩
    have hline := ((splitOnce_some '=' _ key val).mp hcut).1
    have hmem : '=' ∈ name++([ ':', ' ']++value) := by
      rw [hline]
      simp
    have hname := notMem_name name value hw '=' (by decide)
    simp [hname,hplain] at hmem
  have hsplit : splitOnce ':' (name++([ ':', ' ']++value)) = some (name, ' ' :: value) :=
    (splitOnce_some ':' _ name _).mpr ⟨rfl,notMem_name name value hw ':' (by decide)⟩
  have hblank : trim ( ' ' :: value) = value := by
    have hspace : ∀ c ∈ [ ' '], isWhitespace c = true := List.all_eq_true.mp (by decide)
    have hstrip := strip_append_left isWhitespace [ ' '] value hspace
    rw [← trim_eq,← trim_eq,hw.trimmed] at hstrip
    exact hstrip
  have hline := configLine_named name value platform hw [ ':', ' ']
  rw [optionLine,hnone,hsplit] at hline
  simp only [Option.none_or,hblank] at hline
  change configLine platform (colonLine name value) = _ at hline
  rw [readOption,hline,trim_name name value hw]
  simp only [expandMacros_free macros value hw.macroFree]

end Lines

section Bytes

theorem utf8EncodeChar_high (c : Char) (h : 128 ≤ c.toNat) (b : UInt8)
    (hb : b ∈ String.utf8EncodeChar c) : 128 ≤ b.toNat := by
  have hlarge : ¬c.val.toNat ≤ 127 := Nat.not_le.mpr h
  unfold String.utf8EncodeChar at hb
  simp only [if_neg hlarge] at hb
  split at hb
  · simp only [List.mem_cons,List.not_mem_nil,or_false] at hb
    rcases hb with rfl | rfl <;> rw [UInt8.toNat_ofNat'] <;> omega
  · split at hb
    · simp only [List.mem_cons,List.not_mem_nil,or_false] at hb
      rcases hb with rfl | rfl | rfl <;> rw [UInt8.toNat_ofNat'] <;> omega
    · simp only [List.mem_cons,List.not_mem_nil,or_false] at hb
      rcases hb with rfl | rfl | rfl | rfl <;> rw [UInt8.toNat_ofNat'] <;> omega

theorem count_bytesAsChars (c : Char) : (bytesAsChars c).count '=' = [c].count '=' := by
  by_cases hascii : c.toNat < 128
  · rw [bytesAsChars_ascii c hascii]
  · have hbytes : '=' ∉ bytesAsChars c := by
      intro hmem
      obtain ⟨b,hb,heq⟩ := List.mem_map.mp hmem
      have hhigh := utf8EncodeChar_high c (Nat.le_of_not_lt hascii) b hb
      have hvalid : b.toNat.isValidChar := .inl (b.toNat_lt.trans (by decide))
      have hcode := congrArg Char.toNat heq
      rw [Char.ofNat,dif_pos hvalid] at hcode
      change b.toNat = 61 at hcode
      omega
    have hchar : '=' ∉ [c] := by
      intro hmem
      rw [← List.mem_singleton.mp hmem] at hascii
      exact hascii (by decide)
    rw [List.count_eq_zero_of_not_mem hbytes,List.count_eq_zero_of_not_mem hchar]

theorem count_flatMap_bytesAsChars (s : Text) :
    (s.flatMap bytesAsChars).count '=' = s.count '=' := by
  induction s with
  | nil => rfl
  | cons c s ih =>
    rw [List.flatMap_cons,List.count_append,ih,count_bytesAsChars,← List.count_append]
    rfl

end Bytes

section Forms
variable (platform : Platform) (name value : Text)

/-- With an `=` in the value, the form with a colon is cut there, and what is left of the
value has an `=` less. -/
theorem readOption_colon_cut (macros : StringMap) (hw : Written name value) (hmem : '=' ∈ value)
    (key : Text) : readOption platform macros (colonLine name value) ≠ some (key,value) := by
  obtain ⟨before,after,hvalue,hbefore⟩ := List.eq_append_cons_of_mem hmem
  have hsplit : splitOnce '=' (name++([ ':', ' ']++value)) =
      some (name++([ ':', ' ']++before),after) := by
    apply (splitOnce_some '=' _ _ after).mpr
    refine ⟨by rw [hvalue]; simp,?_⟩
    have hname := notMem_name name value hw '=' (by decide)
    simp [hname,hbefore]
  have hline := configLine_named name value platform hw [ ':', ' ']
  rw [optionLine,hsplit] at hline
  simp only [Option.some_or] at hline
  change configLine platform (colonLine name value) = _ at hline
  obtain ⟨front,back,hafter,-,-⟩ := strip_split isWhitespace after
  rw [← trim_eq] at hafter
  have hinside : trim after <:+: value := by
    refine ⟨before++ '=' :: front,back,?_⟩
    rw [hvalue]
    conv_rhs => rw [hafter]
    simp
  have hfree : MacroFree (trim after) := fun hin => hw.macroFree (hin.trans hinside)
  rw [readOption,hline]
  simp only [expandMacros_free macros _ hfree]
  intro heq
  have hsame := congrArg (List.count '=') (Prod.mk.inj (Option.some.inj heq)).2
  have hrest : (trim after).count '=' ≤ after.count '=' := by
    conv_rhs => rw [hafter]
    rw [List.count_append,List.count_append]
    omega
  rw [count_flatMap_bytesAsChars,hvalue,List.count_append,List.count_cons_self] at hsame
  omega

/-- Both lines give the key and the value, and set the option of the entry that is read. -/
structure BothCarry (s : ParseState) (entry : MenuEntry) : Prop where
  colon : readOption platform s.macros (colonLine name value) =
    some (platform.toUppercase name,value)
  equals : readOption platform s.macros (equalsLine name value) =
    some (platform.toUppercase name,value)
  sets : ∀ line ∈ [colonLine name value,equalsLine name value],
    parseLine platform s line =
      { s with
        currentEntry :=
          some (.mk (entryOption entry.fields (platform.toUppercase name) value) entry.children) }

/-- Both forms carry a value exactly when it holds no `=` and is ASCII. -/
theorem bothCarry_iff (s : ParseState) (entry : MenuEntry) (hentry : s.currentEntry = some entry)
    (hw : Written name value) :
    BothCarry platform name value s entry ↔ '=' ∉ value ∧ ∀ c ∈ value, c.toNat < 128 := by
  have hequals := readOption_equals name value platform s.macros hw
  constructor
  · intro h
    constructor
    · intro hmem
      exact readOption_colon_cut platform name value s.macros hw hmem _ h.colon
    · rw [h.equals] at hequals
      have hsame := (Prod.mk.inj (Option.some.inj hequals)).2
      exact (flatMap_bytesAsChars_iff value).mp hsame.symm
  · rintro ⟨hplain,hascii⟩
    have hsame := (flatMap_bytesAsChars_iff value).mpr hascii
    have hcolon := readOption_colon name value platform s.macros hw hplain
    rw [hsame] at hequals hcolon
    have happly : applyOption platform s (platform.toUppercase name) value =
        { s with
          currentEntry := some (.mk
            (entryOption entry.fields (platform.toUppercase name) value) entry.children) } := by
      rw [applyOption,hentry]
    refine ⟨hcolon,hequals,fun line hline => ?_⟩
    simp only [List.mem_cons,List.not_mem_nil,or_false] at hline
    rcases hline with rfl | rfl
    · rw [parseLine_readOption platform s _ _ _ hcolon,happly]
    · rw [parseLine_readOption platform s _ _ _ hequals,happly]

end Forms

def openedEntry : ParseState :=
  { config := initialConfig, currentEntry := some (.mk { name := "Linux".toList, depth := 1 } []),
    macros := fun _ => none }

theorem bothCarry_quiet :
    BothCarry asciiPlatform "CMDLINE".toList "quiet ro".toList openedEntry
      (.mk { name := "Linux".toList, depth := 1 } []) := by
  have hw : Written "CMDLINE".toList "quiet ro".toList :=
    ⟨by decide,List.all_iff_forall_prop.mp (by decide),by decide,by decide,by decide,by decide⟩
  apply (bothCarry_iff asciiPlatform _ _ openedEntry _ rfl hw).mpr
  exact ⟨by decide,List.all_iff_forall_prop.mp (by decide)⟩

/-- The line of the test for slash entries: the name of the option swallows the start of the
value. -/
theorem cmdline_root_cut :
    Written "CMDLINE".toList "root=/dev/sda1".toList ∧
    readOption asciiPlatform openedEntry.macros
        (colonLine "CMDLINE".toList "root=/dev/sda1".toList) =
      some ("CMDLINE: ROOT".toList,"/dev/sda1".toList) ∧
    ¬BothCarry asciiPlatform "CMDLINE".toList "root=/dev/sda1".toList openedEntry
      (.mk { name := "Linux".toList, depth := 1 } []) := by
  have hread : readOption asciiPlatform openedEntry.macros
      (colonLine "CMDLINE".toList "root=/dev/sda1".toList) =
        some ("CMDLINE: ROOT".toList,"/dev/sda1".toList) := by decide
  have hw : Written "CMDLINE".toList "root=/dev/sda1".toList :=
    ⟨by decide,List.all_iff_forall_prop.mp (by decide),by decide,by decide,by decide,by decide⟩
  refine ⟨hw,hread,fun h => ?_⟩
  have hcolon := h.colon
  rw [hread] at hcolon
  exact absurd hcolon (by decide)

end Zamak.OptionSyntax
