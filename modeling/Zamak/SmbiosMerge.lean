import Zamak.ConfigDifferential

/-! # SMBIOS lines in front of the configuration file

`merge_smbios_config` puts the lines from the firmware before the text of the file. The
last assignment to an option wins, so a line from the firmware stands only where the file
does not set the option again; and the file's entries are its own as long as the lines
define no macro that it uses and open no entry that its first header nests under. -/

set_option autoImplicit false

namespace Zamak.SmbiosMerge
open Zamak.ConfigText Zamak.ConfigParse Zamak.ConfigEntries Zamak.ConfigDifferential
open Zamak.BootFlow

def notice : Text := "# SMBIOS OEM String injected config".toList

def mergeSmbiosConfig (smbiosLines : List Text) (fileConfig : Text) : Text :=
  if smbiosLines = [] then fileConfig
  else notice++ '\n' :: (smbiosLines.flatMap (·++[ '\n'])++ '\n' :: fileConfig)

/-- The SMBIOS lines; a string that holds newlines counts for several. -/
def smbiosPieces (smbiosLines : List Text) : List Text := smbiosLines.flatMap (·.splitOn '\n')

/-- No macro reference starts in the text. -/
def MacroFree (s : Text) : Prop := ¬[ '$', '{'] <:+: s

instance (s : Text) : Decidable (MacroFree s) := inferInstanceAs (Decidable (¬_))

section Reading
variable (platform : Platform)

def isHeader (line : Text) : Bool :=
  match configLine platform line with
  | .header _ _ _ => true
  | _ => false

def opensEntry (lines : List Text) : Bool := lines.any (isHeader platform)

/-- The assignments before the first header, as they are written. -/
def settings : List Text → List (Text × Text)
  | [] => []
  | line::rest =>
    match configLine platform line with
    | .header _ _ _ => []
    | .option key value => (key,value)::settings rest
    | _ => settings rest

def macrosAfter : StringMap → List Text → StringMap
  | macros, [] => macros
  | macros, line::rest =>
    match configLine platform line with
    | .definition name value => macrosAfter (macros.insert name (expandMacros value macros)) rest
    | _ => macrosAfter macros rest

/-- The options that the file's lines before its first header set, read with the macros
above them; none when the SMBIOS lines open an entry, which then takes them. -/
def fileOptions (env : BootEnvironment) (smbiosLines : List Text) (fileConfig : Text) :
    List (Text × Text) :=
  if opensEntry platform (smbiosPieces smbiosLines) then []
  else blockOptions platform (macrosAfter platform (builtinMacros env) (smbiosPieces smbiosLines))
    (fileConfig.splitOn '\n')

/-- The merged configuration has the option, and the file's own entries behind others. -/
structure Overridden (merged alone : Config) (key value : Text) : Prop where
  option : merged.globalOptions key = some value
  entries : ∃ added, merged.entries = added++alone.entries

/-- The file does not set the option to something else, the macros that the SMBIOS lines
define change nothing in the file's entries, and if the lines open an entry then the
file's first one is at depth one. -/
structure Unchallenged (env : BootEnvironment) (smbiosLines : List Text) (fileConfig : Text)
    (key value : Text) : Prop where
  option : match lastValue [key] (fileOptions platform env smbiosLines fileConfig) with
    | some given => given = value
    | none => ∀ c ∈ value, c.toNat < 128
  macros : describedEntries platform
      (macrosAfter platform (builtinMacros env) (smbiosPieces smbiosLines))
      (fileConfig.splitOn '\n') =
    describedEntries platform (builtinMacros env) (fileConfig.splitOn '\n')
  depth : opensEntry platform (smbiosPieces smbiosLines) = true →
    ∀ entry ∈ (describedEntries platform (builtinMacros env) (fileConfig.splitOn '\n')).head?,
      entry.depth ≤ 1

theorem configLine_nil : configLine platform [] = .skipped := by
  unfold configLine
  exact if_pos (Or.inl rfl)

theorem configLine_notice : configLine platform notice = .skipped := by
  unfold configLine
  exact if_pos (Or.inr rfl)

theorem blockOptions_append (before after : List Text) (macros : StringMap) :
    blockOptions platform macros (before++after) =
      blockOptions platform macros before++
        if opensEntry platform before then []
        else blockOptions platform (macrosAfter platform macros before) after := by
  induction before generalizing macros with
  | nil => rfl
  | cons line before ih =>
    rw [List.cons_append,blockOptions,blockOptions,macrosAfter,opensEntry,List.any_cons]
    have hrest : before.any (isHeader platform) = opensEntry platform before := rfl
    cases hline : configLine platform line with
    | skipped => simp only [isHeader,hline,Bool.false_or,hrest]; exact ih macros
    | definition name value => simp only [isHeader,hline,Bool.false_or,hrest]; exact ih _
    | header depth expanded title => simp [isHeader,hline]
    | option key value =>
      simp only [isHeader,hline,Bool.false_or,hrest]
      rw [ih macros]
      rfl

theorem describedEntries_append (before after : List Text) (macros : StringMap) :
    ∃ added, describedEntries platform macros (before++after) =
        added++describedEntries platform (macrosAfter platform macros before) after ∧
      (added = [] ↔ opensEntry platform before = false) := by
  induction before generalizing macros with
  | nil => exact ⟨[],rfl,by simp [opensEntry]⟩
  | cons line before ih =>
    rw [List.cons_append,describedEntries,macrosAfter,opensEntry,List.any_cons]
    have hrest : before.any (isHeader platform) = opensEntry platform before := rfl
    cases hline : configLine platform line with
    | skipped => simpa only [isHeader,hline,Bool.false_or,hrest] using ih macros
    | definition name value => simpa only [isHeader,hline,Bool.false_or,hrest] using ih _
    | header depth expanded title =>
      obtain ⟨added,hadded,-⟩ := ih macros
      refine ⟨_::added,congrArg _ hadded,?_⟩
      simp [isHeader,hline]
    | option key value => simpa only [isHeader,hline,Bool.false_or,hrest] using ih macros

theorem describedEntries_length (lines : List Text) (macros macros' : StringMap) :
    (describedEntries platform macros lines).length =
      (describedEntries platform macros' lines).length := by
  induction lines generalizing macros macros' with
  | nil => rfl
  | cons line lines ih =>
    rw [describedEntries,describedEntries]
    cases configLine platform line with
    | skipped => exact ih _ _
    | definition name value => exact ih _ _
    | header depth expanded title => exact congrArg (·+1) (ih _ _)
    | option key value => exact ih _ _

/-- The lines of the merged text are those of both parts; the other ones say nothing. -/
theorem merged_lines (smbiosLines : List Text) (fileConfig : Text) (macros : StringMap) :
    blockOptions platform macros ((mergeSmbiosConfig smbiosLines fileConfig).splitOn '\n') =
      blockOptions platform macros (smbiosPieces smbiosLines++fileConfig.splitOn '\n') ∧
    ∃ added, describedEntries platform macros
        ((mergeSmbiosConfig smbiosLines fileConfig).splitOn '\n') =
        added++describedEntries platform
          (macrosAfter platform macros (smbiosPieces smbiosLines)) (fileConfig.splitOn '\n') ∧
      (added = [] ↔ opensEntry platform (smbiosPieces smbiosLines) = false) := by
  unfold mergeSmbiosConfig
  by_cases hempty : smbiosLines = []
  · rw [if_pos hempty,hempty]
    exact ⟨rfl,[],rfl,by simp [smbiosPieces,opensEntry]⟩
  have hlines : ∀ (lines : List Text) (text : Text),
      (lines.flatMap (·++[ '\n'])++text).splitOn '\n' = smbiosPieces lines++text.splitOn '\n' := by
    intro lines text
    induction lines with
    | nil => rfl
    | cons line lines ih =>
      have hcut : (line::lines).flatMap (·++[ '\n'])++text =
          line++ '\n' :: (lines.flatMap (·++[ '\n'])++text) := by simp
      rw [hcut,List.splitOn_append_cons_self,ih]
      simp [smbiosPieces]
  have hnotice : notice.splitOn '\n' = [notice] := by
    apply List.splitOn_eq_singleton
    decide +kernel
  have hblank : ('\n' :: fileConfig).splitOn '\n' = []::fileConfig.splitOn '\n' :=
    List.splitOn_append_cons_self [] fileConfig
  rw [if_neg hempty,List.splitOn_append_cons_self,hnotice,hlines,hblank,List.singleton_append,
    blockOptions,describedEntries,configLine_notice]
  obtain ⟨added,hadded,hopens⟩ := describedEntries_append platform (smbiosPieces smbiosLines)
    ([]::fileConfig.splitOn '\n') macros
  simp only
  refine ⟨?_,added,?_,hopens⟩
  · rw [blockOptions_append,blockOptions_append,blockOptions,configLine_nil]
  · rw [hadded,describedEntries,configLine_nil]

end Reading

section Values

theorem lastValue_append (keys : List Text) (before after : List (Text × Text)) :
    lastValue keys (before++after) = (lastValue keys after).or (lastValue keys before) := by
  unfold lastValue
  rw [List.filter_append,List.getLast?_append]
  cases (after.filter fun option => option.1 ∈ keys).getLast? with
  | none => rfl
  | some option => rfl

theorem expandMacros_free (macros : StringMap) (s : Text) (h : MacroFree s) :
    expandMacros s macros = s.flatMap bytesAsChars := by
  unfold expandMacros
  induction s with
  | nil => rfl
  | cons c s ih =>
    have hstart : ¬(c = '$' ∧ s.head? = some '{') := by
      rintro ⟨rfl,hbrace⟩
      obtain ⟨rest,rfl⟩ := List.head?_eq_some_iff.mp hbrace
      exact h ⟨[],rest,rfl⟩
    have hrest : MacroFree s := fun hin => h (hin.trans (List.infix_cons (List.infix_refl s)))
    unfold expandFrom
    rw [if_neg hstart,ih hrest,List.flatMap_cons]

theorem bytesAsChars_length (c : Char) : (bytesAsChars c).length = c.utf8Size := by
  rw [bytesAsChars,List.length_map,String.length_utf8EncodeChar]

theorem flatMap_bytesAsChars_length (s : Text) :
    s.length ≤ (s.flatMap bytesAsChars).length ∧
    ((s.flatMap bytesAsChars).length = s.length → ∀ c ∈ s, c.utf8Size = 1) := by
  induction s with
  | nil => simp
  | cons c s ih =>
    have ⟨hle,heq⟩ := ih
    have hc := c.utf8Size_pos
    simp only [List.flatMap_cons,List.length_append,List.length_cons,bytesAsChars_length]
    refine ⟨by omega,fun hlen d hd => ?_⟩
    rcases List.mem_cons.mp hd with rfl | hd
    · omega
    · exact heq (by omega) d hd

theorem flatMap_bytesAsChars_iff (s : Text) :
    s.flatMap bytesAsChars = s ↔ ∀ c ∈ s, c.toNat < 128 := by
  constructor
  · intro h c hc
    have hone := (flatMap_bytesAsChars_length s).2 (congrArg List.length h) c hc
    exact Nat.lt_succ_of_le (Char.utf8Size_eq_one_iff.mp hone)
  · intro h
    induction s with
    | nil => rfl
    | cons c s ih =>
      rw [List.flatMap_cons,bytesAsChars_ascii c (h c List.mem_cons_self),
        ih fun d hd => h d (List.mem_cons_of_mem c hd)]
      rfl

/-- The last written value of a key is the one that is read, expanded with some macros. -/
theorem lastValue_settings (platform : Platform) (key : Text) (lines : List Text)
    (macros : StringMap) :
    match lastValue [key] (settings platform lines) with
    | none => lastValue [key] (blockOptions platform macros lines) = none
    | some value => ∃ macros', lastValue [key] (blockOptions platform macros lines) =
        some (expandMacros value macros') := by
  have hcons : ∀ (option : Text × Text) (options : List (Text × Text)),
      lastValue [key] (option::options) =
        (lastValue [key] options).or (if option.1 = key then some option.2 else none) := by
    intro option options
    have hsplit : option::options = [option]++options := rfl
    rw [hsplit,lastValue_append]
    congr 1
    by_cases hkey : option.1 = key <;> simp [lastValue,hkey]
  induction lines generalizing macros with
  | nil => rfl
  | cons line lines ih =>
    rw [settings,blockOptions]
    cases configLine platform line with
    | skipped => exact ih macros
    | definition name value => exact ih _
    | header depth expanded title => rfl
    | option k value =>
      have hrest := ih macros
      simp only [hcons]
      cases hlast : lastValue [key] (settings platform lines) with
      | some last =>
        rw [hlast] at hrest
        obtain ⟨macros',hread⟩ := hrest
        exact ⟨macros',by rw [hread]; rfl⟩
      | none =>
        rw [hlast] at hrest
        simp only [hrest,Option.none_or]
        by_cases hkey : k = key
        · simp only [if_pos hkey]
          exact ⟨macros,rfl⟩
        · simp only [if_neg hkey]

theorem parse_option (platform : Platform) (content : Text) (env : BootEnvironment) (key : Text) :
    (parseWithEnv platform content env).globalOptions key =
      lastValue [key] (blockOptions platform (builtinMacros env) (content.splitOn '\n')) := by
  have hglobal : ∀ c k v, (globalOption platform c k v).globalOptions = c.globalOptions := by
    intro c k v
    simp only [globalOption,apply_ite Config.globalOptions,ite_self]
  rw [parse_global platform (fun c => c.globalOptions key)
    (fun option => if option.1 = key then some (some option.2) else none) (fun _ _ => rfl)]
  · generalize blockOptions platform (builtinMacros env) (content.splitOn '\n') = options
    have hfilter : (options.filterMap fun option =>
        if option.1 = key then some (some option.2) else none) =
        (options.filter fun option => option.1 ∈ [key]).map fun option => some option.2 := by
      rw [← List.filterMap_eq_map,List.filterMap_filter]
      simp
    rw [hfilter,List.getLast?_map,lastValue]
    cases (options.filter fun option => option.1 ∈ [key]).getLast? <;> rfl
  · intro c k v
    simp only [hglobal,StringMap.insert,Function.update_apply]
    by_cases hkey : k = key
    · simp [hkey]
    · simp [hkey,Ne.symm hkey]

end Values

section Trees

theorem place_ne_nil (entries : List MenuEntry) (field : EntryFields) :
    place entries field ≠ [] := by
  intro hnil
  have hpre := preorder_places [field] entries
  rw [List.foldl_cons,List.foldl_nil,hnil] at hpre
  simp [preorder] at hpre

theorem place_append (before entries : List MenuEntry) (hne : entries ≠ [])
    (field : EntryFields) : place (before++entries) field = before++place entries field := by
  unfold place pushEntry
  rw [List.getLast?_append_of_ne_nil _ hne,List.dropLast_append_of_ne_nil hne]
  split
  · rw [List.append_assoc]
  · split <;> rw [List.append_assoc]

theorem places_append (fields : List EntryFields) (before entries : List MenuEntry)
    (hne : entries ≠ []) :
    fields.foldl place (before++entries) = before++fields.foldl place entries := by
  induction fields generalizing entries with
  | nil => rfl
  | cons field fields ih =>
    rw [List.foldl_cons,place_append before entries hne,List.foldl_cons,
      ih _ (place_ne_nil entries field)]

theorem places_apart (field : EntryFields) (fields : List EntryFields)
    (entries : List MenuEntry) (hdepth : field.depth ≤ 1) :
    (field::fields).foldl place entries = entries++(field::fields).foldl place [] := by
  have hplace : ∀ l : List MenuEntry, place l field = l++[.mk field []] := fun l => if_pos hdepth
  rw [List.foldl_cons,List.foldl_cons,hplace,hplace,
    places_append fields entries _ (List.cons_ne_nil _ _)]
  rfl

theorem places_nested (field : EntryFields) (fields : List EntryFields)
    (entries added : List MenuEntry) (hne : entries ≠ []) (hdepth : ¬field.depth ≤ 1) :
    (field::fields).foldl place entries ≠ added++(field::fields).foldl place [] := by
  intro hsuffix
  have hsplit := (List.dropLast_concat_getLast hne).symm
  have hlen : ∀ entries : List MenuEntry, ((field::fields).foldl place entries).length =
      entries.length+(topLevel (!entries.isEmpty) (field::fields)).length := by
    intro entries
    have htop := congrArg List.length (places_top (field::fields) entries)
    simpa only [List.length_map,List.length_append] using htop
  have hlast : ((field::fields).foldl place [entries.getLast hne]).length =
      ((field::fields).foldl place []).length := by
    rw [hlen,hlen]
    simp [topLevel,hdepth]
    omega
  rw [hsplit,places_append _ _ _ (List.cons_ne_nil _ _)] at hsuffix
  have hsame := (List.append_inj_right' hsuffix hlast)
  have hpre := congrArg preorder hsame
  rw [preorder_places,preorder_places] at hpre
  have hnil := List.append_cancel_right hpre
  cases hentry : entries.getLast hne with
  | mk lastFields children =>
    rw [hentry,preorder_singleton] at hnil
    simp [preorder] at hnil

/-- Entries placed behind others keep their trees exactly when they keep their fields and
the first of them does not nest. -/
theorem places_suffix_iff (others fields fields' : List EntryFields)
    (hlen : fields'.length = fields.length) :
    (∃ added, (others++fields').foldl place [] = added++fields.foldl place []) ↔
      fields' = fields ∧ (others ≠ [] → ∀ entry ∈ fields.head?, entry.depth ≤ 1) := by
  constructor
  · rintro ⟨added,hsuffix⟩
    have hpre := congrArg preorder hsuffix
    rw [preorder_append,preorder_places,preorder_places] at hpre
    simp only [preorder,List.nil_append] at hpre
    obtain rfl := List.append_inj_right' hpre hlen
    refine ⟨rfl,fun hothers entry hentry => ?_⟩
    cases fields' with
    | nil => cases hentry
    | cons field fields =>
      cases hentry
      by_contra hdepth
      have hne : others.foldl place [] ≠ [] := by
        intro hnil
        have := preorder_places others []
        rw [hnil] at this
        exact hothers (by simpa [preorder] using this.symm)
      rw [List.foldl_append] at hsuffix
      exact places_nested _ _ _ _ hne hdepth hsuffix
  · rintro ⟨rfl,hdepth⟩
    rw [List.foldl_append]
    cases fields' with
    | nil => exact ⟨others.foldl place [],by simp⟩
    | cons field fields =>
      by_cases hothers : others = []
      · exact ⟨[],by rw [hothers]; rfl⟩
      · exact ⟨_,places_apart field fields _ (hdepth hothers field rfl)⟩

end Trees

/-- What an SMBIOS line sets stands in the merged configuration, and the file keeps its
entries, exactly when nothing in the file or in the lines challenges it. -/
theorem merge_overrides_iff (platform : Platform) (env : BootEnvironment)
    (smbiosLines : List Text) (fileConfig key value : Text)
    (hset : lastValue [key] (settings platform (smbiosPieces smbiosLines)) = some value)
    (hfree : MacroFree value) :
    Overridden (parseWithEnv platform (mergeSmbiosConfig smbiosLines fileConfig) env)
        (parseWithEnv platform fileConfig env) key value ↔
      Unchallenged platform env smbiosLines fileConfig key value := by
  have ⟨hblock,added,hadded,hopens⟩ :=
    merged_lines platform smbiosLines fileConfig (builtinMacros env)
  have hoption : (parseWithEnv platform (mergeSmbiosConfig smbiosLines fileConfig)
      env).globalOptions key = some value ↔
      match lastValue [key] (fileOptions platform env smbiosLines fileConfig) with
      | some given => given = value
      | none => ∀ c ∈ value, c.toNat < 128 := by
    have hread := lastValue_settings platform key (smbiosPieces smbiosLines) (builtinMacros env)
    rw [hset] at hread
    obtain ⟨macros,hread⟩ := hread
    rw [expandMacros_free macros value hfree] at hread
    rw [parse_option,hblock,blockOptions_append,lastValue_append,hread]
    show ((lastValue [key] (fileOptions platform env smbiosLines fileConfig)).or _ = _) ↔ _
    cases lastValue [key] (fileOptions platform env smbiosLines fileConfig) with
    | some given => simp
    | none => simp [flatMap_bytesAsChars_iff]
  have hentries := places_suffix_iff added _ _ (describedEntries_length platform
    (fileConfig.splitOn '\n') (builtinMacros env)
    (macrosAfter platform (builtinMacros env) (smbiosPieces smbiosLines))).symm
  rw [← hadded,← parse_pieces platform _ env,← parse_pieces platform _ env] at hentries
  have hadds : added ≠ [] ↔ opensEntry platform (smbiosPieces smbiosLines) = true := by
    rw [Ne,hopens,Bool.not_eq_false]
  constructor
  · intro h
    have ⟨hmacros,hdepth⟩ := hentries.mp h.entries
    exact ⟨hoption.mp h.option,hmacros,fun hopen => hdepth (hadds.mpr hopen)⟩
  · intro h
    exact ⟨hoption.mpr h.option,
      hentries.mpr ⟨h.macros,fun hadd => h.depth (hadds.mp hadd)⟩⟩

/-- A timeout from the firmware, and a file that does not mention it. -/
theorem merge_overrides_timeout :
    Overridden (parseWithEnv asciiPlatform
        (mergeSmbiosConfig ["timeout=10".toList] "quiet=yes\n/A".toList) (.default []))
      (parseWithEnv asciiPlatform "quiet=yes\n/A".toList (.default []))
      "TIMEOUT".toList "10".toList := by
  apply (merge_overrides_iff asciiPlatform (.default []) ["timeout=10".toList]
    "quiet=yes\n/A".toList "TIMEOUT".toList "10".toList rfl (by decide)).mpr
  refine ⟨?_,rfl,fun hopen => ?_⟩
  · show ∀ c ∈ [ '1', '0'], c.toNat < 128
    rw [List.forall_mem_cons,List.forall_mem_singleton]
    exact ⟨by decide,by decide⟩
  · cases hopen

/-- The file has the last word. -/
theorem file_overrides_smbios :
    lastValue ["TIMEOUT".toList] (settings asciiPlatform (smbiosPieces ["timeout=10".toList])) =
      some "10".toList ∧ MacroFree "10".toList ∧
    (parseWithEnv asciiPlatform (mergeSmbiosConfig ["timeout=10".toList] "timeout=3".toList)
      (.default [])).globalOptions "TIMEOUT".toList = some "3".toList ∧
    ¬Overridden (parseWithEnv asciiPlatform
        (mergeSmbiosConfig ["timeout=10".toList] "timeout=3".toList) (.default []))
      (parseWithEnv asciiPlatform "timeout=3".toList (.default []))
      "TIMEOUT".toList "10".toList := by
  have hthree : (parseWithEnv asciiPlatform
      (mergeSmbiosConfig ["timeout=10".toList] "timeout=3".toList)
      (.default [])).globalOptions "TIMEOUT".toList = some "3".toList := by rfl
  refine ⟨rfl,by decide,hthree,fun h => ?_⟩
  have hten := h.option
  rw [hthree] at hten
  exact absurd hten (by decide)

end Zamak.SmbiosMerge
