import Zamak.BootFlow
import Zamak.ReferenceParser

/-! # The differential law of the fuzz target

For a text the reference accepts, the parser agrees with it on the top-level names, the
timeout and the default entry exactly when every top-level header is a `/` line at
column zero whose title reads the same in both, and no line that only the parser takes
for a timeout or a default entry overrides the reference's last one. -/

set_option autoImplicit false

namespace Zamak.ConfigDifferential
open Zamak.ConfigText Zamak.ConfigParse Zamak.ConfigEntries Zamak.Trimming
open Zamak.ReferenceParser Zamak.BootFlow

section Lines
variable (platform : Platform)

theorem trim_stripCr (line : Text) : trim (stripCr line) = trim line := by
  unfold stripCr
  split
  · rename_i h
    have hsplit := List.dropLast_append_getLast? _ h
    conv_rhs => rw [← hsplit]
    refine (strip_append_right isWhitespace _ _ ?_).symm
    intro c hc
    rw [List.mem_singleton.mp hc]
    decide
  · rfl

theorem parseLine_stripCr (s : ParseState) (line : Text) :
    parseLine platform s (stripCr line) = parseLine platform s line := by
  unfold parseLine
  rw [trim_stripCr]

theorem parseLine_nil (s : ParseState) : parseLine platform s [] = s := by
  unfold parseLine
  exact if_pos (.inl rfl)

theorem foldl_lines (content : Text) (s : ParseState) :
    (lines content).foldl (parseLine platform) s =
      (content.splitOn '\n').foldl (parseLine platform) s := by
  have hmap : ∀ (l : List Text) (s : ParseState), (l.map stripCr).foldl (parseLine platform) s =
      l.foldl (parseLine platform) s := by
    intro l s
    rw [List.foldl_map]
    simp only [parseLine_stripCr]
  unfold lines
  simp only [List.foldl_append,hmap]
  cases hlast : (content.splitOn '\n').getLast? with
  | none =>
    rw [List.getLast?_eq_none_iff.mp hlast]
    rfl
  | some last =>
    have hsplit := List.dropLast_append_getLast? _ hlast
    conv_rhs => rw [← hsplit,List.foldl_append]
    by_cases hnil : last = []
    · simp [hnil,parseLine_nil]
    · simp [hnil]

theorem parse_pieces (content : Text) (env : BootEnvironment) :
    (parseWithEnv platform content env).entries =
      (describedEntries platform (builtinMacros env) (content.splitOn '\n')).foldl place [] := by
  unfold parseWithEnv
  simp only [foldl_lines]
  exact foldl_parseLine platform _ _ (by intro e he; cases he)

end Lines

/-- The described entries that end up at the top level: those of depth one, and the
first one whatever its depth. -/
def topLevel : Bool → List EntryFields → List EntryFields
  | _, [] => []
  | seen, field::fields =>
    if field.depth ≤ 1 ∨ seen = false then field::topLevel true fields else topLevel true fields

/-- A new entry joins the top level or changes only what lies below its last entry. -/
theorem place_top (entries : List MenuEntry) (field : EntryFields) :
    (place entries field).map MenuEntry.fields =
      entries.map MenuEntry.fields++
        (if field.depth ≤ 1 ∨ entries = [] then [field] else []) := by
  unfold place pushEntry
  by_cases hdepth : field.depth ≤ 1
  · have htop : (MenuEntry.mk field []).fields.depth ≤ 1 := hdepth
    rw [if_pos htop,if_pos (.inl hdepth),List.map_append]
    rfl
  · have htop : ¬(MenuEntry.mk field []).fields.depth ≤ 1 := hdepth
    rw [if_neg htop]
    cases hlast : entries.getLast? with
    | none =>
      obtain rfl := List.getLast?_eq_none_iff.mp hlast
      rw [if_pos (.inr rfl),List.map_append]
      rfl
    | some last =>
      have hne : ¬(field.depth ≤ 1 ∨ entries = []) := by
        rintro (h | rfl)
        · exact hdepth h
        · cases hlast
      have hsplit := List.dropLast_append_getLast? _ hlast
      rw [if_neg hne,List.append_nil]
      conv_rhs => rw [← hsplit]
      simp [MenuEntry.fields]

theorem places_top (fields : List EntryFields) (entries : List MenuEntry) :
    (fields.foldl place entries).map MenuEntry.fields =
      entries.map MenuEntry.fields++topLevel (!entries.isEmpty) fields := by
  induction fields generalizing entries with
  | nil => simp [topLevel]
  | cons field fields ih =>
    have hnew : (!(place entries field).isEmpty) = true := by
      have hne : place entries field ≠ [] := by
        intro hnil
        have htop := place_top entries field
        rw [hnil] at htop
        have ⟨hentries,hadded⟩ := List.append_eq_nil_iff.mp htop.symm
        rw [if_pos (.inr (List.map_eq_nil_iff.mp hentries))] at hadded
        cases hadded
      simpa using hne
    rw [List.foldl_cons,ih,place_top,hnew,List.append_assoc]
    congr 1
    rw [topLevel]
    have hempty : ((!entries.isEmpty) = false) ↔ entries = [] := by simp
    by_cases h : field.depth ≤ 1 ∨ entries = []
    · rw [if_pos h,if_pos (h.imp_right hempty.mpr)]
      rfl
    · rw [if_neg h,if_neg fun h' => h (h'.imp_right hempty.mp)]
      rfl

section Names
variable (platform : Platform)

/-- Every header that ends up at the top level is a `/` line at column zero of depth
one, and its title, with the macros above it, is what stands before its first `:`. -/
def PlainHeaders : Bool → StringMap → List Text → Prop
  | _, _, [] => True
  | seen, macros, raw::raws =>
    match configLine platform raw with
    | .header depth _ title =>
      (depth ≤ 1 ∨ seen = false → raw.head? = some '/' ∧ depth = 1 ∧
        expandMacros title macros = trim (title.takeWhile (· != ':'))) ∧
      PlainHeaders true macros raws
    | .definition name value =>
      PlainHeaders seen (macros.insert name (expandMacros value macros)) raws
    | _ => PlainHeaders seen macros raws

/-- The names of the top-level entries that the lines of a text describe. -/
def topNames (seen : Bool) (macros : StringMap) (raws : List Text) : List Text :=
  (topLevel seen (describedEntries platform macros raws)).map EntryFields.name

theorem referenceNames_line (raw : Text) (raws : List Text) :
    (∃ expanded title, raw.head? = some '/' ∧ configLine platform raw = .header 1 expanded title ∧
      referenceNames (raw::raws) =
        trim (title.takeWhile (· != ':'))::referenceNames raws) ∨
    ((∀ expanded title, raw.head? = some '/' → configLine platform raw ≠ .header 1 expanded title) ∧
      referenceNames (raw::raws) = referenceNames raws) := by
  by_cases hslash : raw.head? = some '/'
  · obtain ⟨expanded,title,hline,hname⟩ := slash_configLine platform raw hslash
    by_cases hone : slashes (trimEndCr raw) = 1
    · refine .inl ⟨expanded,title,hslash,hone ▸ hline,?_⟩
      simp [referenceNames,hslash,hone,hname]
    · refine .inr ⟨?_,by simp [referenceNames,hone]⟩
      intro e t _ heq
      rw [hline] at heq
      exact hone (ConfigLine.header.inj heq).1
  · exact .inr ⟨fun _ _ h => absurd h hslash,by simp [referenceNames,hslash]⟩

theorem referenceNames_skip (raw : Text) (raws : List Text)
    (h : ∀ depth expanded title, configLine platform raw ≠ .header depth expanded title) :
    referenceNames (raw::raws) = referenceNames raws := by
  rcases referenceNames_line platform raw raws with ⟨expanded,title,-,hline,-⟩ | ⟨-,hnames⟩
  · exact absurd hline (h _ _ _)
  · exact hnames

theorem topNames_header (seen : Bool) (macros : StringMap) (raw : Text) (raws : List Text)
    (depth : ℕ) (expanded : Bool) (title : Text)
    (h : configLine platform raw = .header depth expanded title) :
    topNames platform seen macros (raw::raws) =
      if depth ≤ 1 ∨ seen = false then
        expandMacros title macros::topNames platform true macros raws
      else topNames platform true macros raws := by
  unfold topNames
  rw [describedEntries,h]
  by_cases htop : depth ≤ 1 ∨ seen = false <;> simp [topLevel,givenFields,htop]

theorem names_length (seen : Bool) (macros : StringMap) (raws : List Text) :
    (referenceNames raws).length ≤ (topNames platform seen macros raws).length := by
  induction raws generalizing seen macros with
  | nil => exact Nat.zero_le _
  | cons raw raws ih =>
    cases hline : configLine platform raw with
    | header depth expanded title =>
      rw [topNames_header platform seen macros raw raws depth expanded title hline]
      rcases referenceNames_line platform raw raws with ⟨e,t,-,hone,hnames⟩ | ⟨-,hnames⟩
      · rw [hline] at hone
        obtain rfl := (ConfigLine.header.inj hone).1
        rw [hnames,if_pos (.inl (Nat.le_refl 1)),List.length_cons,List.length_cons]
        exact Nat.succ_le_succ (ih true macros)
      · rw [hnames]
        split
        · exact (ih true macros).trans (Nat.le_succ _)
        · exact ih true macros
    | skipped =>
      rw [referenceNames_skip platform raw raws (by simp [hline])]
      simpa only [topNames,describedEntries,hline] using ih seen macros
    | definition name value =>
      rw [referenceNames_skip platform raw raws (by simp [hline])]
      simpa only [topNames,describedEntries,hline] using
        ih seen (macros.insert name (expandMacros value macros))
    | option key value =>
      rw [referenceNames_skip platform raw raws (by simp [hline])]
      simpa only [topNames,describedEntries,hline] using ih seen macros

theorem names_iff (seen : Bool) (macros : StringMap) (raws : List Text) :
    topNames platform seen macros raws = referenceNames raws ↔
      PlainHeaders platform seen macros raws := by
  induction raws generalizing seen macros with
  | nil => simp [topNames,describedEntries,topLevel,referenceNames,PlainHeaders]
  | cons raw raws ih =>
    rw [PlainHeaders]
    cases hline : configLine platform raw with
    | header depth expanded title =>
      rw [topNames_header platform seen macros raw raws depth expanded title hline]
      simp only
      rcases referenceNames_line platform raw raws with ⟨e,t,hslash,hone,hnames⟩ | ⟨hnot,hnames⟩
      · -- A header of depth one at column zero: its names stand first in both lists.
        rw [hline] at hone
        obtain ⟨rfl,-,rfl⟩ := ConfigLine.header.inj hone
        rw [hnames,if_pos (.inl (Nat.le_refl 1)),List.cons.injEq,ih]
        simp [hslash]
      · rw [hnames]
        by_cases htop : depth ≤ 1 ∨ seen = false
        · -- A top-level entry that the reference does not have makes the list too long.
          rw [if_pos htop]
          constructor
          · intro heq
            have hlen := names_length platform true macros raws
            have := congrArg List.length heq
            rw [List.length_cons] at this
            omega
          · rintro ⟨hplain,-⟩
            obtain ⟨hslash,rfl,-⟩ := hplain htop
            exact absurd hline (hnot expanded title hslash)
        · rw [if_neg htop,ih]
          simp [htop]
    | skipped =>
      rw [referenceNames_skip platform raw raws (by simp [hline])]
      simpa only [topNames,describedEntries,hline] using ih seen macros
    | definition name value =>
      rw [referenceNames_skip platform raw raws (by simp [hline])]
      simpa only [topNames,describedEntries,hline] using
        ih seen (macros.insert name (expandMacros value macros))
    | option key value =>
      rw [referenceNames_skip platform raw raws (by simp [hline])]
      simpa only [topNames,describedEntries,hline] using ih seen macros

end Names

section Numbers

theorem bytesAsChars_ascii (c : Char) (h : c.toNat < 128) : bytesAsChars c = [c] := by
  have hle : c.val.toNat ≤ 0x7f := Nat.le_of_lt_succ h
  unfold bytesAsChars String.utf8EncodeChar
  simp only [if_pos hle,List.map_cons,List.map_nil,List.cons.injEq,and_true]
  have hbyte : (UInt8.ofNat c.val.toNat).toNat = c.toNat := Nat.mod_eq_of_lt (by omega)
  rw [hbyte,Char.ofNat_toNat]

theorem expandFrom_plain (macros : StringMap) (s : Text)
    (h : ∀ c ∈ s, c.toNat < 128 ∧ c ≠ '$') : expandFrom macros 0 s = s := by
  induction s with
  | nil => rfl
  | cons c s ih =>
    have ⟨hascii,hdollar⟩ := h c List.mem_cons_self
    have hrest := ih fun d hd => h d (List.mem_cons_of_mem c hd)
    unfold expandFrom
    rw [if_neg (fun hdef => hdollar hdef.1),bytesAsChars_ascii c hascii,hrest]
    rfl

theorem expandMacros_number (macros : StringMap) (bits n : ℕ) (s : Text)
    (h : parseUnsigned bits s = some n) : expandMacros s macros = s := by
  have hall : (if s.head? = some '+' then s.tail else s).all Char.isDigit = true := by
    by_contra hnot
    simp only [parseUnsigned] at h
    rw [if_neg fun hd => hnot hd.2] at h
    cases h
  have hdigits : ∀ c ∈ s, c.isDigit = true ∨ c = '+' := by
    intro c hc
    by_cases hplus : s.head? = some '+'
    · rw [if_pos hplus] at hall
      cases s with
      | nil => cases hc
      | cons d s =>
        rcases List.mem_cons.mp hc with rfl | hc
        · exact .inr (Option.some.inj hplus)
        · exact .inl (List.all_eq_true.mp hall c hc)
    · rw [if_neg hplus] at hall
      exact .inl (List.all_eq_true.mp hall c hc)
  apply expandFrom_plain
  intro c hc
  rcases hdigits c hc with hdigit | rfl
  · have hrange : 48 ≤ c.toNat ∧ c.toNat ≤ 57 := Char.isDigit_iff_toNat.mp hdigit
    refine ⟨by omega,?_⟩
    rintro rfl
    exact absurd hrange.1 (by decide)
  · decide

end Numbers

section Values
variable (platform : Platform) (keys : List Text) (key : Text) (bits : ℕ)

def numberFor (option : Text × Text) : Option ℕ :=
  if option.1 = key then parseUnsigned bits option.2 else none

/-- What each option line before the first header gives, to the reference and to the
parser. -/
def readings : StringMap → List Text → List (Option (Option ℕ) × Option ℕ)
  | _, [] => []
  | macros, raw::raws =>
    match configLine platform raw with
    | .skipped => readings macros raws
    | .definition name value =>
      readings (macros.insert name (expandMacros value macros)) raws
    | .header _ _ _ => []
    | .option k value =>
      (referenceRead keys bits raw,numberFor key bits (k,expandMacros value macros))::
        readings macros raws

/-- No reading that the parser alone takes comes after the last one of the reference
and gives another number. -/
def Kept (reads : List (Option (Option ℕ) × Option ℕ)) : Prop :=
  ∀ before n z after, reads = before++(some (some n),z)::after → (∀ r ∈ after, r.1 = none) →
    ∀ v, (after.filterMap Prod.snd).getLast? = some v → v = n

theorem not_slash (raw : Text)
    (h : ∀ depth expanded title, configLine platform raw ≠ .header depth expanded title) :
    raw.head? ≠ some '/' := by
  intro hslash
  obtain ⟨expanded,title,hline,-⟩ := slash_configLine platform raw hslash
  exact h _ _ _ hline

theorem readings_reference (hkeys : Readable keys) (macros : StringMap) (raws : List Text)
    (hplain : PlainHeaders platform false macros raws) :
    (readings platform keys key bits macros raws).filterMap Prod.fst =
      referenceReads keys bits raws := by
  induction raws generalizing macros with
  | nil => rfl
  | cons raw raws ih =>
    rw [PlainHeaders] at hplain
    rw [readings,referenceReads]
    cases hline : configLine platform raw with
    | header depth expanded title =>
      rw [hline] at hplain
      rw [if_pos (hplain.1 (.inr rfl)).1]
      rfl
    | skipped =>
      rw [hline] at hplain
      rw [if_neg (not_slash platform raw (by simp [hline])),
        referenceRead_none platform keys bits raw hkeys (by simp [hline])]
      exact ih macros hplain
    | definition name value =>
      rw [hline] at hplain
      rw [if_neg (not_slash platform raw (by simp [hline])),
        referenceRead_none platform keys bits raw hkeys (by simp [hline])]
      exact ih _ hplain
    | option k value =>
      rw [hline] at hplain
      rw [if_neg (not_slash platform raw (by simp [hline])),← ih macros hplain]
      cases referenceRead keys bits raw <;> rfl

theorem readings_numbers (macros : StringMap) (raws : List Text) :
    (readings platform keys key bits macros raws).filterMap Prod.snd =
      (blockOptions platform macros raws).filterMap (numberFor key bits) := by
  induction raws generalizing macros with
  | nil => rfl
  | cons raw raws ih =>
    rw [readings,blockOptions]
    cases configLine platform raw with
    | header depth expanded title => rfl
    | skipped => exact ih macros
    | definition name value => exact ih _
    | option k value =>
      simp only [List.filterMap_cons,ih]

theorem readings_consistent (hkeys : Readable keys)
    (hupper : ∀ k ∈ keys, platform.toUppercase k = key) (macros : StringMap) (raws : List Text)
    (n : ℕ) (z : Option ℕ) (h : (some (some n),z) ∈ readings platform keys key bits macros raws) :
    z = some n := by
  induction raws generalizing macros with
  | nil => cases h
  | cons raw raws ih =>
    rw [readings] at h
    cases hline : configLine platform raw with
    | header depth expanded title =>
      rw [hline] at h
      cases h
    | skipped =>
      rw [hline] at h
      exact ih macros h
    | definition name value =>
      rw [hline] at h
      exact ih _ h
    | option k value =>
      rw [hline] at h
      rcases List.mem_cons.mp h with heq | h
      · have ⟨hread,hz⟩ := Prod.mk.inj heq
        obtain ⟨k',hmem,val,hoption,hval⟩ :=
          referenceRead_option platform keys bits raw _ hkeys hread.symm
        rw [hline] at hoption
        obtain ⟨rfl,rfl⟩ := ConfigLine.option.inj hoption
        rw [hz,numberFor,if_pos (hupper k' hmem),expandMacros_number macros bits n value hval.symm]
        exact hval.symm
      · exact ih macros h

theorem snoc_split {α : Type} (l before after : List α) (x y : α)
    (h : l++[y] = before++x::after) :
    (after = [] ∧ x = y) ∨ ∃ rest, after = rest++[y] ∧ l = before++x::rest := by
  rcases List.eq_nil_or_concat after with rfl | ⟨rest,last,rfl⟩
  · have hxy := (List.append_inj' h rfl).2
    exact .inl ⟨rfl,(List.cons.inj hxy).1.symm⟩
  · rw [List.concat_eq_append,← List.cons_append,← List.append_assoc] at h
    have ⟨hl,hlast⟩ := List.append_inj' h rfl
    exact .inr ⟨rest,by rw [List.concat_eq_append,(List.cons.inj hlast).1],hl⟩

theorem lastRead_iff (reads : List (Option (Option ℕ) × Option ℕ)) (n : ℕ) :
    lastRead (reads.filterMap Prod.fst) none = some n ↔
      ∃ before z after, reads = before++(some (some n),z)::after ∧ ∀ r ∈ after, r.1 = none := by
  induction reads using List.reverseRecOn with
  | nil => simp [lastRead]
  | append_singleton reads r ih =>
    obtain ⟨read,z⟩ := r
    rw [List.filterMap_append]
    cases read with
    | none =>
      simp only [List.filterMap_cons,List.filterMap_nil,List.append_nil,ih]
      constructor
      · rintro ⟨before,w,after,rfl,hafter⟩
        refine ⟨before,w,after++[(none,z)],by simp,?_⟩
        intro r hr
        rcases List.mem_append.mp hr with hr | hr
        · exact hafter r hr
        · rw [List.mem_singleton.mp hr]
      · rintro ⟨before,w,after,hsplit,hafter⟩
        rcases snoc_split reads before after _ _ hsplit with ⟨-,heq⟩ | ⟨rest,rfl,hrest⟩
        · cases heq
        · exact ⟨before,w,rest,hrest,fun r hr => hafter r (List.mem_append_left _ hr)⟩
    | some read =>
      have hlast : lastRead (reads.filterMap Prod.fst++[(some read,z)].filterMap Prod.fst) none =
          read := by
        simp [lastRead]
      rw [hlast]
      constructor
      · rintro rfl
        exact ⟨reads,z,[],rfl,by simp⟩
      · rintro ⟨before,w,after,hsplit,hafter⟩
        rcases snoc_split reads before after _ _ hsplit with ⟨-,heq⟩ | ⟨rest,rfl,-⟩
        · exact (Option.some.inj (Prod.mk.inj heq).1).symm
        · have := hafter (some read,z) (by simp)
          cases this

theorem kept_iff (reads : List (Option (Option ℕ) × Option ℕ)) (start : ℕ)
    (hreads : ∀ n z, (some (some n),z) ∈ reads → z = some n) :
    (∀ n, lastRead (reads.filterMap Prod.fst) none = some n →
      (reads.filterMap Prod.snd).getLast?.getD start = n) ↔ Kept reads := by
  have hvalue : ∀ before n z after, reads = before++(some (some n),z)::after →
      (reads.filterMap Prod.snd).getLast?.getD start =
        (after.filterMap Prod.snd).getLast?.getD n := by
    intro before n z after hsplit
    have hz := hreads n z (by rw [hsplit]; simp)
    rw [hsplit,hz,List.filterMap_append,List.filterMap_cons]
    simp only [List.getLast?_append,List.getLast?_cons]
    simp
  constructor
  · intro h before n z after hsplit hafter v hv
    have := h n ((lastRead_iff reads n).mpr ⟨before,z,after,hsplit,hafter⟩)
    rw [hvalue before n z after hsplit,hv] at this
    exact this
  · intro h n hn
    obtain ⟨before,z,after,hsplit,hafter⟩ := (lastRead_iff reads n).mp hn
    rw [hvalue before n z after hsplit]
    cases hlast : (after.filterMap Prod.snd).getLast? with
    | none => rfl
    | some v => exact h before n z after hsplit hafter v hlast

end Values

section Globals
variable {β : Type*} (platform : Platform) (f : Config → β) (read : Text × Text → Option β)
variable (hentries : ∀ c entries, f { c with entries := entries } = f c)
variable (hread : ∀ c k v,
  f { globalOption platform c k v with
      globalOptions := (globalOption platform c k v).globalOptions.insert k v } =
    (read (k,v)).getD (f c))

include hentries in
theorem flush_field (c : Config) (current : Option MenuEntry) : f (flush c current) = f c := by
  cases current with
  | none => rfl
  | some entry => exact hentries c _

include hentries hread in
/-- What the global options keep is the last of its kind given before the first header. -/
theorem foldl_global (content : List Text) (s : ParseState) :
    f (flush (content.foldl (parseLine platform) s).config
        (content.foldl (parseLine platform) s).currentEntry) =
      if s.currentEntry.isSome then f s.config
      else ((blockOptions platform s.macros content).filterMap read).getLast?.getD
        (f s.config) := by
  induction content generalizing s with
  | nil =>
    rw [List.foldl_nil,flush_field f hentries]
    simp [blockOptions]
  | cons line content ih =>
    rw [List.foldl_cons,parseLine_eq]
    unfold blockOptions
    cases configLine platform line with
    | skipped => exact ih s
    | definition name value => exact ih _
    | header depth expanded title =>
      simp only
      rw [ih]
      simp [flush_field f hentries]
    | option k value =>
      simp only
      rw [ih]
      unfold applyOption
      cases hcurrent : s.currentEntry with
      | some entry => simp
      | none =>
        simp only [Option.isSome_none,Bool.false_eq_true,if_false,hread,List.filterMap_cons]
        cases read (k,expandMacros value s.macros) with
        | none => rfl
        | some n => simp [List.getLast?_cons]

include hentries hread in
theorem parse_global (content : Text) (env : BootEnvironment) :
    f (parseWithEnv platform content env) =
      ((blockOptions platform (builtinMacros env) (content.splitOn '\n')).filterMap
        read).getLast?.getD (f initialConfig) := by
  unfold parseWithEnv
  simp only [foldl_lines]
  rw [foldl_global platform f read hentries hread]
  rfl

end Globals

section Law
variable (platform : Platform)

def timeoutKey : Text := "TIMEOUT".toList

def defaultEntryKey : Text := "DEFAULT_ENTRY".toList

theorem globalOption_timeout (c : Config) (k v : Text) :
    (globalOption platform c k v).timeout = (numberFor timeoutKey 64 (k,v)).getD c.timeout := by
  unfold numberFor timeoutKey
  by_cases h : k = "TIMEOUT".toList
  · simp only [globalOption,if_pos h]
  · simp only [globalOption,if_neg h,apply_ite Config.timeout,ite_self,Option.getD_none]

theorem globalOption_defaultEntry (c : Config) (k v : Text) :
    (globalOption platform c k v).defaultEntry =
      (numberFor defaultEntryKey platform.usizeBits (k,v)).getD c.defaultEntry := by
  unfold numberFor defaultEntryKey
  by_cases h : k = "DEFAULT_ENTRY".toList
  · have hdistinct : "DEFAULT_ENTRY".toList ∉ ["TIMEOUT".toList,"THEME".toList,
      "THEME_VARIANT".toList,"EDITOR_ENABLED".toList] := by decide +kernel
    simp only [List.mem_cons,List.not_mem_nil,or_false,not_or,← h] at hdistinct
    simp only [globalOption,if_neg hdistinct.1,if_neg hdistinct.2.1,if_neg hdistinct.2.2.1,
      if_neg hdistinct.2.2.2,if_pos h]
  · simp only [globalOption,if_neg h,apply_ite Config.defaultEntry,ite_self,Option.getD_none]

def UppercasesAscii : Prop :=
  ∀ s : Text, (∀ c ∈ s, c.toNat < 128) → platform.toUppercase s = s.map Char.toUpper

theorem uppercase_keys (hupper : UppercasesAscii platform) :
    (∀ k ∈ timeoutKeys, platform.toUppercase k = timeoutKey) ∧
    ∀ k ∈ defaultEntryKeys, platform.toUppercase k = defaultEntryKey := by
  have hascii : ∀ k ∈ timeoutKeys++defaultEntryKeys, ∀ c ∈ k, c.toNat < 128 := by
    have hall : (timeoutKeys++defaultEntryKeys).all
      (fun k => k.all fun c => Nat.blt c.toNat 128) = true := rfl
    intro k hk c hc
    simpa using List.all_eq_true.mp (List.all_eq_true.mp hall k hk) c hc
  have htimeout : ∀ k ∈ timeoutKeys, k.map Char.toUpper = timeoutKey := by
    intro k hk
    rcases List.mem_cons.mp hk with rfl | hk
    · rfl
    · obtain rfl := List.mem_singleton.mp hk
      rfl
  have hdefault : ∀ k ∈ defaultEntryKeys, k.map Char.toUpper = defaultEntryKey := by
    intro k hk
    rcases List.mem_cons.mp hk with rfl | hk
    · rfl
    · obtain rfl := List.mem_singleton.mp hk
      rfl
  refine ⟨fun k hk => ?_,fun k hk => ?_⟩
  · rw [hupper k (hascii k (List.mem_append_left _ hk)),htimeout k hk]
  · rw [hupper k (hascii k (List.mem_append_right _ hk)),hdefault k hk]

/-- The two parsers agree: the same top-level names in order, and the numbers that the
reference extracted. -/
structure Agrees (reference : ReferenceConfig) (config : Config) : Prop where
  names : config.entries.map (fun entry => entry.fields.name) = reference.entries
  timeout : ∀ n, reference.timeout = some n → config.timeout = n
  defaultEntry : ∀ n, reference.defaultEntry = some n → config.defaultEntry = n

/-- A text that both parsers read alike: plain headers at the top level, and before
them no later timeout or default entry that only one of the parsers reads. -/
structure Tame (arch content : Text) : Prop where
  headers : PlainHeaders platform false (builtinMacros (.default arch)) (content.splitOn '\n')
  timeout : Kept (readings platform timeoutKeys timeoutKey 64 (builtinMacros (.default arch))
    (content.splitOn '\n'))
  defaultEntry : Kept (readings platform defaultEntryKeys defaultEntryKey platform.usizeBits
    (builtinMacros (.default arch)) (content.splitOn '\n'))

theorem parse_names (arch content : Text) :
    (parse platform arch content).entries.map (fun entry => entry.fields.name) =
      topNames platform false (builtinMacros (.default arch)) (content.splitOn '\n') := by
  unfold parse topNames
  rw [parse_pieces]
  have htop := congrArg (List.map EntryFields.name) (places_top
    (describedEntries platform (builtinMacros (.default arch)) (content.splitOn '\n')) [])
  rw [List.map_map] at htop
  exact htop

theorem parse_number (f : Config → ℕ) (key : Text) (bits : ℕ) (arch content : Text)
    (hentries : ∀ c entries, f { c with entries := entries } = f c)
    (hoptions : ∀ c options, f { c with globalOptions := options } = f c)
    (hread : ∀ c k v, f (globalOption platform c k v) = (numberFor key bits (k,v)).getD (f c)) :
    f (parse platform arch content) =
      ((blockOptions platform (builtinMacros (.default arch))
        (content.splitOn '\n')).filterMap (numberFor key bits)).getLast?.getD (f initialConfig) := by
  apply parse_global platform f (numberFor key bits) hentries
  intro c k v
  rw [hoptions,hread]

/-- With plain headers, the reference's number is the parser's exactly when it is kept. -/
theorem number_iff (f : Config → ℕ) (keys : List Text) (key : Text) (bits : ℕ)
    (arch content : Text) (hreadable : Readable keys)
    (hkey : ∀ k ∈ keys, platform.toUppercase k = key)
    (hf : f (parse platform arch content) =
      ((blockOptions platform (builtinMacros (.default arch))
        (content.splitOn '\n')).filterMap (numberFor key bits)).getLast?.getD (f initialConfig))
    (hplain : PlainHeaders platform false (builtinMacros (.default arch)) (content.splitOn '\n')) :
    (∀ n, lastRead (referenceReads keys bits (content.splitOn '\n')) none = some n →
      f (parse platform arch content) = n) ↔
      Kept (readings platform keys key bits (builtinMacros (.default arch))
        (content.splitOn '\n')) := by
  rw [hf,← readings_numbers platform keys key bits,
    ← readings_reference platform keys key bits hreadable _ _ hplain]
  exact kept_iff _ _ (readings_consistent platform keys key bits hreadable hkey _ _)

/-- On a text that the reference accepts, the parsers agree exactly when it is tame. -/
theorem agrees_iff (arch content : Text) (reference : ReferenceConfig)
    (hupper : UppercasesAscii platform)
    (haccept : parseReference platform content = some reference) :
    Agrees reference (parse platform arch content) ↔ Tame platform arch content := by
  obtain ⟨hentries,htimeout,hdefault⟩ := parseReference_read platform content reference haccept
  have ⟨htimeouts,hdefaults⟩ := uppercase_keys platform hupper
  have hnames : (parse platform arch content).entries.map (fun entry => entry.fields.name) =
      reference.entries ↔
      PlainHeaders platform false (builtinMacros (.default arch)) (content.splitOn '\n') := by
    rw [parse_names,hentries]
    exact names_iff platform false _ _
  have htimes := number_iff platform Config.timeout timeoutKeys timeoutKey 64 arch content
    readable_timeout htimeouts
    (parse_number platform _ _ _ arch content (fun _ _ => rfl) (fun _ _ => rfl)
      (globalOption_timeout platform))
  have hentry := number_iff platform Config.defaultEntry defaultEntryKeys defaultEntryKey
    platform.usizeBits arch content readable_defaultEntry hdefaults
    (parse_number platform _ _ _ arch content (fun _ _ => rfl) (fun _ _ => rfl)
      (globalOption_defaultEntry platform))
  rw [← htimeout] at htimes
  rw [← hdefault] at hentry
  constructor
  · intro h
    have hplain := hnames.mp h.names
    exact ⟨hplain,(htimes hplain).mp h.timeout,(hentry hplain).mp h.defaultEntry⟩
  · intro h
    exact ⟨hnames.mpr h.headers,(htimes h.headers).mpr h.timeout,
      (hentry h.headers).mpr h.defaultEntry⟩

end Law

theorem kept_singleton (reading : Option (Option ℕ) × Option ℕ) : Kept [reading] := by
  intro before n z after h _ v hv
  have hlen := congrArg List.length h
  simp only [List.length_cons,List.length_nil,List.length_append] at hlen
  obtain rfl : after = [] := List.length_eq_zero_iff.mp (by omega)
  cases hv

/-- A timeout and a plain header are read alike. -/
theorem agrees_timeout :
    Agrees { entries := ["A".toList], timeout := some 3 }
      (parse asciiPlatform "x86_64".toList "timeout=3\n/A".toList) := by
  apply (agrees_iff asciiPlatform "x86_64".toList "timeout=3\n/A".toList
    { entries := ["A".toList], timeout := some 3 } (fun _ _ => rfl) rfl).mpr
  exact ⟨⟨fun _ => ⟨rfl,rfl,rfl⟩,trivial⟩,kept_singleton (some (some 3),some 3),
    kept_singleton (none,none)⟩

/-- The name of `/A:b` is cut by the reference and kept by the parser. -/
theorem colon_parts_parsers :
    parseReference asciiPlatform "/A:b".toList = some { entries := ["A".toList] } ∧
    (parse asciiPlatform "x86_64".toList "/A:b".toList).entries.map
      (fun entry => entry.fields.name) = ["A:b".toList] ∧
    ¬Agrees { entries := ["A".toList] } (parse asciiPlatform "x86_64".toList "/A:b".toList) := by
  have hnames : (parse asciiPlatform "x86_64".toList "/A:b".toList).entries.map
      (fun entry => entry.fields.name) = ["A:b".toList] := by rfl
  refine ⟨by rfl,hnames,?_⟩
  intro h
  have := h.names
  rw [hnames] at this
  exact absurd this (by decide)

end Zamak.ConfigDifferential
