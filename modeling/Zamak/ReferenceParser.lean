import Mathlib.Algebra.GroupWithZero.Nat
import Zamak.ConfigEntries
import Zamak.Trimming

/-! # The reference parser of the differential fuzz target

`parse_reference` reads the top-level names, the timeout and the default entry of a
clean configuration and rejects what is not clean. Beside it stands what the two
parsers make of one and the same line. -/

set_option autoImplicit false

namespace Zamak.ReferenceParser
open Zamak.ConfigText Zamak.ConfigParse Zamak.ConfigEntries Zamak.Trimming

structure ReferenceConfig where
  entries : List Text := []
  timeout : Option ℕ := none
  defaultEntry : Option ℕ := none

structure ReferenceState where
  cfg : ReferenceConfig
  inEntryScope : Bool

def trimEndCr (raw : Text) : Text := raw.rdropWhile (· == '\r')

def slashes (line : Text) : ℕ := (line.takeWhile (· == '/')).length

def afterSlashes (line : Text) : Text :=
  let rest := line.drop (slashes line)
  if rest.head? = some '+' then rest.tail else rest

def referenceName (line : Text) : Text := trim ((afterSlashes line).takeWhile (· != ':'))

/-- A header line; names that are empty or hold control characters and depths over
three are not clean. -/
def referenceHeader (s : ReferenceState) (line : Text) : Option ReferenceState :=
  if (line.map Char.utf8Size).sum < slashes line then none
  else if referenceName line = [] ∨
      (referenceName line).any (fun c => c.toNat < 0x20 && c != '\t') then none
  else if slashes line = 1 then
    some { cfg := { s.cfg with entries := s.cfg.entries++[referenceName line] }
           inEntryScope := true }
  else if slashes line = 2 ∨ slashes line = 3 then some { s with inEntryScope := true }
  else none

def timeoutKeys : List Text := ["timeout".toList,"TIMEOUT".toList]

def defaultEntryKeys : List Text := ["default_entry".toList,"DEFAULT_ENTRY".toList]

def referenceOption (platform : Platform) (cfg : ReferenceConfig) (line : Text) :
    ReferenceConfig :=
  match splitOnce '=' line with
  | some (key,val) =>
    if trim key ∈ timeoutKeys then { cfg with timeout := parseUnsigned 64 (trim val) }
    else if trim key ∈ defaultEntryKeys then
      { cfg with defaultEntry := parseUnsigned platform.usizeBits (trim val) }
    else cfg
  | none => cfg

def referenceLine (platform : Platform) (s : ReferenceState) (raw : Text) :
    Option ReferenceState :=
  let line := trimEndCr raw
  let trimmed := trim line
  if trimmed = [] ∨ trimmed.head? = some '#' then some s
  else if line.head? = some '/' then referenceHeader s line
  else if s.inEntryScope then some s
  else some { s with cfg := referenceOption platform s.cfg line }

def parseReference (platform : Platform) (input : Text) : Option ReferenceConfig :=
  ((input.splitOn '\n').foldlM (referenceLine platform)
    { cfg := {}, inEntryScope := false }).map ReferenceState.cfg

section Lines

theorem trimEndCr_split (raw : Text) :
    ∃ ends, raw = trimEndCr raw++ends ∧ ∀ c ∈ ends, c = '\r' := by
  refine ⟨raw.rtakeWhile (· == '\r'),List.rdropWhile_append_rtakeWhile.symm,?_⟩
  intro c hc
  have := List.mem_rtakeWhile_imp hc
  simpa using this

theorem whitespace_cr (ends : Text) (h : ∀ c ∈ ends, c = '\r') :
    ∀ c ∈ ends, isWhitespace c = true := by
  intro c hc
  rw [h c hc]
  decide

theorem trim_eq (s : Text) : trim s = strip isWhitespace s := rfl

theorem trim_trimEndCr (raw : Text) : trim (trimEndCr raw) = trim raw := by
  obtain ⟨ends,hraw,hends⟩ := trimEndCr_split raw
  conv_rhs => rw [hraw]
  exact (strip_append_right isWhitespace _ ends (whitespace_cr ends hends)).symm

theorem trimEndCr_head (raw : Text) (c : Char) (h : (trimEndCr raw).head? = some c) :
    raw.head? = some c := by
  obtain ⟨ends,hraw,-⟩ := trimEndCr_split raw
  rw [hraw]
  exact head?_of_append _ ends c h

theorem slash_line (raw : Text) (h : raw.head? = some '/') :
    ∃ ends, trimEndCr raw = trim raw++ends ∧ (∀ c ∈ ends, isWhitespace c = true) ∧
      (trim raw).head? = some '/' ∧ (trimEndCr raw).head? = some '/' := by
  have hcr : (trimEndCr raw).head? = some '/' := rdropWhile_head _ raw '/' h (by decide)
  obtain ⟨ends,hsplit,hends,hhead⟩ := strip_of_head isWhitespace _ '/' hcr (by decide)
  rw [← trim_eq,trim_trimEndCr] at hsplit hhead
  exact ⟨ends,hsplit,hends,hhead,hcr⟩

theorem whitespace_ne (c d : Char) (hc : isWhitespace c = true) (hd : isWhitespace d = false) :
    c ≠ d := by
  rintro rfl
  rw [hc] at hd
  cases hd

theorem slashes_eq (raw : Text) (h : raw.head? = some '/') :
    slashes (trimEndCr raw) = headerDepth (trim raw) := by
  obtain ⟨ends,hsplit,hends,hhead,-⟩ := slash_line raw h
  unfold slashes headerDepth
  rw [if_pos hhead,hsplit,takeWhile_append_stop]
  intro c hc
  simpa using whitespace_ne c '/' (hends c hc) (by decide)

/-- What follows the slashes in the one parser and in the other differs by blanks. -/
theorem afterSlashes_eq (raw : Text) (h : raw.head? = some '/') :
    ∃ ends, afterSlashes (trimEndCr raw) = headerTitle (trim raw)++ends ∧
      ∀ c ∈ ends, isWhitespace c = true := by
  obtain ⟨ends,hsplit,hends,hhead,-⟩ := slash_line raw h
  refine ⟨ends,?_,hends⟩
  have hdrop : (trimEndCr raw).drop (slashes (trimEndCr raw)) = headerRest (trim raw)++ends := by
    rw [slashes_eq raw h,hsplit]
    unfold headerRest
    apply List.drop_append_of_le_length
    unfold headerDepth
    rw [if_pos hhead]
    exact (List.takeWhile_prefix _).length_le
  unfold afterSlashes headerTitle
  rw [hdrop]
  cases hrest : headerRest (trim raw) with
  | nil =>
    have hplus : ends.head? ≠ some '+' := by
      intro hplus
      have := hends '+' (List.mem_of_mem_head? hplus)
      exact absurd this (by decide)
    simp [hplus]
  | cons c rest =>
    by_cases hc : c = '+' <;> simp [hc]

theorem parseMacroDefinition_none (line : Text) (c : Char) (h : line.head? = some c)
    (hblank : isWhitespace c = false) (hc : c ≠ '$') : parseMacroDefinition line = none := by
  obtain ⟨-,-,-,hhead⟩ := strip_of_head isWhitespace line c h hblank
  rw [← trim_eq] at hhead
  unfold parseMacroDefinition
  split
  · rename_i body hline
    rw [hline] at hhead
    exact absurd (Option.some.inj hhead).symm hc
  · rfl

theorem configLine_plain (platform : Platform) (raw : Text) (c : Char)
    (h : (trim raw).head? = some c) (hcomment : c ≠ '#') (hdef : c ≠ '$') :
    configLine platform raw =
      if c = ':' ∨ c = '/' then
        .header (headerDepth (trim raw)) ((headerRest (trim raw)).head? = some '+')
          (trim (headerTitle (trim raw)))
      else
        match optionLine (trim raw) with
        | some (key,value) => .option (platform.toUppercase (trim key)) (trim value)
        | none => .skipped := by
  have hblank : isWhitespace c = false := strip_head isWhitespace raw c h
  have hskip : ¬(trim raw = [] ∨ c = '#') := by
    rintro (hnil | hhash)
    · rw [hnil] at h
      cases h
    · exact hcomment hhash
  simp only [configLine,parseMacroDefinition_none _ c h hblank hdef,h,Option.some.injEq]
  exact if_neg hskip

theorem slash_configLine (platform : Platform) (raw : Text) (h : raw.head? = some '/') :
    ∃ expanded title,
      configLine platform raw = .header (slashes (trimEndCr raw)) expanded title ∧
      referenceName (trimEndCr raw) = trim (title.takeWhile (· != ':')) := by
  obtain ⟨ends,hafter,hends⟩ := afterSlashes_eq raw h
  obtain ⟨-,-,-,hhead,-⟩ := slash_line raw h
  refine ⟨(headerRest (trim raw)).head? = some '+',trim (headerTitle (trim raw)),?_,?_⟩
  · rw [configLine_plain platform raw '/' hhead (by decide) (by decide),slashes_eq raw h]
    exact if_pos (.inr rfl)
  · obtain ⟨before,after,hsplit,hbefore,hafter'⟩ := strip_split isWhitespace (headerTitle (trim raw))
    have hblanks : ∀ c ∈ after++ends, isWhitespace c = true := by
      intro c hc
      rcases List.mem_append.mp hc with hc | hc
      · exact hafter' c hc
      · exact hends c hc
    have hcolon : ∀ c ∈ before, isWhitespace c = true ∧ (c != ':') = true := fun c hc =>
      ⟨hbefore c hc,by simpa using whitespace_ne c ':' (hbefore c hc) (by decide)⟩
    have hcut := strip_takeWhile isWhitespace (· != ':') before (trim (headerTitle (trim raw)))
      (after++ends) hcolon hblanks
    unfold referenceName
    conv_lhs => rw [hafter,hsplit,List.append_assoc]
    exact hcut

theorem splitOnce_some (c : Char) (s key val : Text) :
    splitOnce c s = some (key,val) ↔ s = key++c::val ∧ c ∉ key := by
  unfold splitOnce
  have hcut := List.takeWhile_append_dropWhile (p := (· != c)) (l := s)
  have hkey : c ∉ s.takeWhile (· != c) := by
    intro hmem
    have := List.mem_takeWhile_imp hmem
    simp at this
  constructor
  · intro h
    split at h
    · cases h
    · rename_i d rest hdrop
      have ⟨h1,h2⟩ := Prod.mk.inj (Option.some.inj h)
      have hd : d = c := by
        have hnot := List.head?_dropWhile_not (· != c) s
        rw [hdrop] at hnot
        simpa using hnot
      rw [hdrop,hd,h1,h2] at hcut
      exact ⟨hcut.symm,h1 ▸ hkey⟩
  · rintro ⟨rfl,hmem⟩
    have htake : ∀ x ∈ key, (x != c) = true := by
      intro x hx
      simp only [bne_iff_ne,ne_eq]
      rintro rfl
      exact hmem hx
    rw [List.dropWhile_append_of_pos htake,List.takeWhile_append_of_pos htake]
    simp

theorem split_trimmed (before t after key val : Text) (hbefore : '=' ∉ before)
    (hafter : '=' ∉ after) (h : before++t++after = key++ '=' :: val) :
    ∃ k v, t = k++ '=' :: v ∧ key = before++k ∧ val = v++after := by
  rw [List.append_assoc] at h
  obtain ⟨k,hk,hrest⟩ : ∃ k, key = before++k ∧ t++after = k++ '=' :: val := by
    rcases List.append_eq_append_iff.mp h with ⟨k,hk,hrest⟩ | ⟨b,hb,hrest⟩
    · exact ⟨k,hk,hrest⟩
    · cases b with
      | nil => exact ⟨[],by simp [hb],hrest.symm⟩
      | cons d b =>
        obtain ⟨rfl,-⟩ := List.cons.inj hrest
        exact absurd (by rw [hb]; simp) hbefore
  rcases List.append_eq_append_iff.mp hrest with ⟨b,-,hb⟩ | ⟨b,hb,hval⟩
  · exact absurd (by rw [hb]; simp) hafter
  · cases b with
    | nil =>
      rw [List.nil_append] at hval
      exact absurd (by rw [← hval]; simp) hafter
    | cons d v =>
      obtain ⟨rfl,hv⟩ := List.cons.inj hval
      exact ⟨k,v,hb,hk,hv⟩

theorem option_configLine (platform : Platform) (raw key val : Text) (c : Char)
    (h : splitOnce '=' (trimEndCr raw) = some (key,val)) (hkey : (trim key).head? = some c)
    (hc : c ∉ ['#', '$', ':', '/']) :
    configLine platform raw = .option (platform.toUppercase (trim key)) (trim val) := by
  obtain ⟨before,after,hsplit,hbefore,hafter⟩ := strip_split isWhitespace (trimEndCr raw)
  rw [← trim_eq,trim_trimEndCr] at hsplit
  have ⟨hline,hnot⟩ := (splitOnce_some '=' _ key val).mp h
  have hblank : ∀ w : Text, (∀ x ∈ w, isWhitespace x = true) → '=' ∉ w := fun w hw hmem =>
    whitespace_ne '=' '=' (hw _ hmem) (by decide) rfl
  obtain ⟨k,v,ht,rfl,rfl⟩ := split_trimmed before (trim raw) after key val
    (hblank before hbefore) (hblank after hafter) (hsplit ▸ hline)
  rw [trim_eq,strip_append_left isWhitespace before k hbefore,← trim_eq] at hkey ⊢
  rw [trim_eq (v++after),strip_append_right isWhitespace v after hafter,← trim_eq]
  have hk : '=' ∉ k := fun hmem => hnot (List.mem_append_right before hmem)
  have hoption : optionLine (trim raw) = some (k,v) := by
    unfold optionLine
    rw [(splitOnce_some '=' _ k v).mpr ⟨ht,hk⟩]
    rfl
  have hhead : (trim raw).head? = some c := by
    cases k with
    | nil => cases hkey
    | cons d k =>
      have hd : (trim raw).head? = some d := by
        rw [ht]
        rfl
      obtain ⟨-,-,-,hkd⟩ := strip_of_head isWhitespace (d::k) d rfl (strip_head isWhitespace raw d hd)
      rw [← trim_eq,hkey] at hkd
      rw [hd,← hkd]
  rw [configLine_plain platform raw c hhead (by rintro rfl; simp at hc) (by rintro rfl; simp at hc),
    if_neg (by rintro (rfl | rfl) <;> simp at hc),hoption]

end Lines

section Fold
variable (platform : Platform)

def referenceNames (raws : List Text) : List Text :=
  raws.filterMap fun raw =>
    if raw.head? = some '/' ∧ slashes (trimEndCr raw) = 1 then
      some (referenceName (trimEndCr raw))
    else none

/-- What the reference reads for one of some keys from a line: nothing, or a value that
may not be a number. -/
def referenceRead (keys : List Text) (bits : ℕ) (raw : Text) : Option (Option ℕ) :=
  match splitOnce '=' (trimEndCr raw) with
  | some (key,val) => if trim key ∈ keys then some (parseUnsigned bits (trim val)) else none
  | none => none

def referenceReads (keys : List Text) (bits : ℕ) : List Text → List (Option ℕ)
  | [] => []
  | raw::raws =>
    if raw.head? = some '/' then []
    else (referenceRead keys bits raw).toList++referenceReads keys bits raws

theorem referenceOption_timeout (cfg : ReferenceConfig) (raw : Text) :
    (referenceOption platform cfg (trimEndCr raw)).timeout =
      (referenceRead timeoutKeys 64 raw).getD cfg.timeout := by
  unfold referenceOption referenceRead
  cases splitOnce '=' (trimEndCr raw) with
  | none => rfl
  | some pair =>
    simp only
    split
    · rfl
    · split <;> rfl

theorem keys_disjoint (key : Text) (h : key ∈ timeoutKeys) : key ∉ defaultEntryKeys := by
  have hall : ∀ k ∈ timeoutKeys, k ∉ defaultEntryKeys := by decide
  exact hall key h

theorem referenceOption_defaultEntry (cfg : ReferenceConfig) (raw : Text) :
    (referenceOption platform cfg (trimEndCr raw)).defaultEntry =
      (referenceRead defaultEntryKeys platform.usizeBits raw).getD cfg.defaultEntry := by
  unfold referenceOption referenceRead
  cases splitOnce '=' (trimEndCr raw) with
  | none => rfl
  | some pair =>
    simp only
    split
    · rename_i h
      rw [if_neg (keys_disjoint _ h)]
      rfl
    · split <;> rfl

/-- Keys that no comment, macro or header starts with. -/
def Readable (keys : List Text) : Prop :=
  ∀ key ∈ keys, ∃ c, key.head? = some c ∧ c ∉ ['#', '$', ':', '/']

theorem readable_timeout : Readable timeoutKeys := by
  intro key hkey
  rcases List.mem_cons.mp hkey with rfl | hkey
  · exact ⟨'t',rfl,by decide⟩
  · obtain rfl := List.mem_singleton.mp hkey
    exact ⟨'T',rfl,by decide⟩

theorem readable_defaultEntry : Readable defaultEntryKeys := by
  intro key hkey
  rcases List.mem_cons.mp hkey with rfl | hkey
  · exact ⟨'d',rfl,by decide⟩
  · obtain rfl := List.mem_singleton.mp hkey
    exact ⟨'D',rfl,by decide⟩

theorem referenceRead_option (keys : List Text) (bits : ℕ) (raw : Text) (read : Option ℕ)
    (hkeys : Readable keys) (h : referenceRead keys bits raw = some read) :
    ∃ key ∈ keys, ∃ val, configLine platform raw = .option (platform.toUppercase key) val ∧
      read = parseUnsigned bits val := by
  unfold referenceRead at h
  cases hsplit : splitOnce '=' (trimEndCr raw) with
  | none =>
    rw [hsplit] at h
    cases h
  | some pair =>
    obtain ⟨key,val⟩ := pair
    simp only [hsplit] at h
    split at h
    · rename_i hmem
      obtain ⟨c,hhead,hc⟩ := hkeys _ hmem
      exact ⟨trim key,hmem,trim val,option_configLine platform raw key val c hsplit hhead hc,
        (Option.some.inj h).symm⟩
    · cases h

theorem referenceRead_none (keys : List Text) (bits : ℕ) (raw : Text) (hkeys : Readable keys)
    (h : ∀ key val, configLine platform raw ≠ .option key val) :
    referenceRead keys bits raw = none := by
  cases hread : referenceRead keys bits raw with
  | none => rfl
  | some read =>
    obtain ⟨key,-,val,hline,-⟩ := referenceRead_option platform keys bits raw read hkeys hread
    exact absurd hline (h _ _)

theorem configLine_skipped (raw : Text) (h : trim raw = [] ∨ (trim raw).head? = some '#') :
    configLine platform raw = .skipped := by
  simp only [configLine]
  exact if_pos h

structure Read (s : ReferenceState) (raw : Text) (s' : ReferenceState) : Prop where
  scope : s'.inEntryScope = (s.inEntryScope || raw.head? = some '/')
  names : s'.cfg.entries = s.cfg.entries++referenceNames [raw]
  timeout : s'.cfg.timeout = if s.inEntryScope then s.cfg.timeout
    else (referenceRead timeoutKeys 64 raw).getD s.cfg.timeout
  defaultEntry : s'.cfg.defaultEntry = if s.inEntryScope then s.cfg.defaultEntry
    else (referenceRead defaultEntryKeys platform.usizeBits raw).getD s.cfg.defaultEntry

theorem referenceNames_other (raw : Text) (h : raw.head? ≠ some '/') :
    referenceNames [raw] = [] := by
  simp [referenceNames,h]

theorem read_plain (s s' : ReferenceState) (raw : Text)
    (hline : ∀ key val, configLine platform raw ≠ .option key val)
    (hscope : s'.inEntryScope = (s.inEntryScope || raw.head? = some '/'))
    (hcfg : s'.cfg = { s.cfg with entries := s.cfg.entries++referenceNames [raw] }) :
    Read platform s raw s' where
  scope := hscope
  names := by rw [hcfg]
  timeout := by
    rw [referenceRead_none platform timeoutKeys 64 raw readable_timeout hline,hcfg]
    simp
  defaultEntry := by
    rw [referenceRead_none platform defaultEntryKeys _ raw readable_defaultEntry hline,hcfg]
    simp

theorem referenceHeader_read (s s' : ReferenceState) (raw : Text) (hslash : raw.head? = some '/')
    (h : referenceHeader s (trimEndCr raw) = some s') : Read platform s raw s' := by
  obtain ⟨expanded,title,hline,-⟩ := slash_configLine platform raw hslash
  have hplain : ∀ key val, configLine platform raw ≠ .option key val := by
    intro key val
    rw [hline]
    exact ConfigLine.noConfusion
  unfold referenceHeader at h
  split at h
  · cases h
  · split at h
    · cases h
    · split at h
      · rename_i hone
        obtain rfl := Option.some.inj h
        apply read_plain platform s _ raw hplain
        · simp [hslash]
        · simp [referenceNames,hslash,hone]
      · rename_i hone
        split at h
        · obtain rfl := Option.some.inj h
          apply read_plain platform s _ raw hplain
          · simp [hslash]
          · simp [referenceNames,hone]
        · cases h

theorem referenceOption_entries (cfg : ReferenceConfig) (line : Text) :
    (referenceOption platform cfg line).entries = cfg.entries := by
  unfold referenceOption
  cases splitOnce '=' line with
  | none => rfl
  | some pair =>
    simp only
    split
    · rfl
    · split <;> rfl

theorem referenceLine_read (s s' : ReferenceState) (raw : Text)
    (h : referenceLine platform s raw = some s') : Read platform s raw s' := by
  simp only [referenceLine,trim_trimEndCr] at h
  split at h
  · rename_i hskip
    have hother : raw.head? ≠ some '/' := by
      intro hslash
      obtain ⟨-,-,-,hhead,-⟩ := slash_line raw hslash
      rcases hskip with hnil | hhash
      · simp [hnil] at hhead
      · simp [hhash] at hhead
    obtain rfl := Option.some.inj h
    apply read_plain platform s s raw
    · intro key val
      rw [configLine_skipped platform raw hskip]
      exact ConfigLine.noConfusion
    · simp [hother]
    · simp [referenceNames_other raw hother]
  · split at h
    · rename_i hslash
      exact referenceHeader_read platform s s' raw (trimEndCr_head raw '/' hslash) h
    · rename_i hslash
      have hother : raw.head? ≠ some '/' := fun hraw => hslash (slash_line raw hraw).choose_spec.2.2.2
      have hnames := referenceNames_other raw hother
      split at h
      · rename_i hscope
        obtain rfl := Option.some.inj h
        exact ⟨by simp [hscope],by simp [hnames],by simp [hscope],by simp [hscope]⟩
      · rename_i hscope
        obtain rfl := Option.some.inj h
        have hglobal : s.inEntryScope = false := by simpa using hscope
        constructor
        · simp [hother]
        · simp [hnames,referenceOption_entries]
        · simp [hglobal,referenceOption_timeout]
        · simp [hglobal,referenceOption_defaultEntry]

theorem referenceNames_cons (raw : Text) (raws : List Text) :
    referenceNames (raw::raws) = referenceNames [raw]++referenceNames raws := by
  simp only [referenceNames,← List.filterMap_append,List.singleton_append]

def lastRead (reads : List (Option ℕ)) (before : Option ℕ) : Option ℕ :=
  reads.getLast?.getD before

theorem lastRead_cons (keys : List Text) (bits : ℕ) (raw : Text) (raws : List Text)
    (before : Option ℕ) :
    lastRead (referenceReads keys bits (raw::raws)) before =
      if raw.head? = some '/' then before
      else lastRead (referenceReads keys bits raws)
        ((referenceRead keys bits raw).getD before) := by
  unfold lastRead
  rw [referenceReads]
  split
  · rfl
  · cases referenceRead keys bits raw with
    | none => rfl
    | some read => simp [List.getLast?_cons]

include platform in
theorem referenceRead_slash (keys : List Text) (bits : ℕ) (raw : Text) (hkeys : Readable keys)
    (h : raw.head? = some '/') : referenceRead keys bits raw = none := by
  obtain ⟨expanded,title,hline,-⟩ := slash_configLine platform raw h
  apply referenceRead_none platform keys bits raw hkeys
  intro key val
  rw [hline]
  exact ConfigLine.noConfusion

include platform in
theorem lastRead_step (keys : List Text) (bits : ℕ) (raw : Text) (raws : List Text)
    (hkeys : Readable keys) (scope : Bool) (before : Option ℕ) :
    (if scope || raw.head? = some '/' then
      (if scope then before else (referenceRead keys bits raw).getD before)
      else lastRead (referenceReads keys bits raws)
        (if scope then before else (referenceRead keys bits raw).getD before)) =
      if scope then before else lastRead (referenceReads keys bits (raw::raws)) before := by
  rw [lastRead_cons]
  cases scope with
  | true => simp
  | false =>
    by_cases hslash : raw.head? = some '/'
    · simp [hslash,referenceRead_slash platform keys bits raw hkeys hslash]
    · simp [hslash]

/-- What the reference has read when it accepts: the names of its headers of depth one
and the last values before its first header. -/
theorem foldlM_read (raws : List Text) (s s' : ReferenceState)
    (h : raws.foldlM (referenceLine platform) s = some s') :
    s'.cfg.entries = s.cfg.entries++referenceNames raws ∧
    s'.cfg.timeout = (if s.inEntryScope then s.cfg.timeout
      else lastRead (referenceReads timeoutKeys 64 raws) s.cfg.timeout) ∧
    s'.cfg.defaultEntry = (if s.inEntryScope then s.cfg.defaultEntry
      else lastRead (referenceReads defaultEntryKeys platform.usizeBits raws)
        s.cfg.defaultEntry) := by
  induction raws generalizing s with
  | nil =>
    obtain rfl : s = s' := by simpa using h
    simp [referenceNames,referenceReads,lastRead]
  | cons raw raws ih =>
    rw [List.foldlM_cons] at h
    obtain ⟨next,hnext,hrest⟩ := Option.bind_eq_some_iff.mp h
    have hread := referenceLine_read platform s next raw hnext
    obtain ⟨hnames,htimeout,hdefault⟩ := ih next hrest
    refine ⟨?_,?_,?_⟩
    · rw [hnames,hread.names,referenceNames_cons raw raws,List.append_assoc]
    · rw [htimeout,hread.scope,hread.timeout]
      exact lastRead_step platform timeoutKeys 64 raw raws readable_timeout _ _
    · rw [hdefault,hread.scope,hread.defaultEntry]
      exact lastRead_step platform defaultEntryKeys _ raw raws readable_defaultEntry _ _

theorem parseReference_read (input : Text) (reference : ReferenceConfig)
    (h : parseReference platform input = some reference) :
    reference.entries = referenceNames (input.splitOn '\n') ∧
    reference.timeout = lastRead (referenceReads timeoutKeys 64 (input.splitOn '\n')) none ∧
    reference.defaultEntry =
      lastRead (referenceReads defaultEntryKeys platform.usizeBits (input.splitOn '\n')) none := by
  unfold parseReference at h
  obtain ⟨s,hs,rfl⟩ := Option.map_eq_some_iff.mp h
  exact foldlM_read platform _ _ s hs

end Fold

end Zamak.ReferenceParser
