import Zamak.ConfigParse

/-! # The entries of a configuration

What kind of line each line of a configuration is, and the entries a text describes:
its header lines in order, each with the options that stand between it and the next
header. The parser buffers the entry it reads and places it late, along the rightmost
branch of its tree; read in pre-order, the tree holds exactly the described entries. -/

set_option autoImplicit false

namespace Zamak.ConfigEntries
open Zamak.ConfigText Zamak.ConfigParse

inductive ConfigLine where
  | skipped
  | definition (name value : Text)
  | header (depth : ℕ) (expanded : Bool) (title : Text)
  | option (key value : Text)

def headerDepth (line : Text) : ℕ :=
  if line.head? = some '/' then (line.takeWhile (· == '/')).length else 1

def headerRest (line : Text) : Text := line.drop (headerDepth line)

def headerTitle (line : Text) : Text :=
  if (headerRest line).head? = some '+' then (headerRest line).tail else headerRest line

def configLine (platform : Platform) (line : Text) : ConfigLine :=
  let line := trim line
  if line = [] ∨ line.head? = some '#' then .skipped
  else
    match parseMacroDefinition line with
    | some (name,value) => .definition name value
    | none =>
      if line.head? = some ':' ∨ line.head? = some '/' then
        .header (headerDepth line) ((headerRest line).head? = some '+') (trim (headerTitle line))
      else
        match optionLine line with
        | some (key,value) => .option (platform.toUppercase (trim key)) (trim value)
        | none => .skipped

theorem openEntry_eq (s : ParseState) (line : Text) :
    openEntry s line =
      { s with
        config := flush s.config s.currentEntry
        currentEntry := some (.mk
          { name := expandMacros (trim (headerTitle line)) s.macros
            depth := headerDepth line
            expanded := (headerRest line).head? = some '+' } []) } := by
  unfold openEntry headerTitle headerRest headerDepth
  split <;> simp

theorem parseLine_eq (platform : Platform) (s : ParseState) (line : Text) :
    parseLine platform s line =
      match configLine platform line with
      | .skipped => s
      | .definition name value =>
        { s with macros := s.macros.insert name (expandMacros value s.macros) }
      | .header depth expanded title =>
        { s with
          config := flush s.config s.currentEntry
          currentEntry := some (.mk
            { name := expandMacros title s.macros, depth := depth, expanded := expanded } []) }
      | .option key value => applyOption platform s key (expandMacros value s.macros) := by
  simp only [parseLine,configLine]
  by_cases hskip : trim line = [] ∨ (trim line).head? = some '#'
  · simp only [if_pos hskip]
  · simp only [if_neg hskip]
    cases parseMacroDefinition (trim line) with
    | some definition => rfl
    | none =>
      by_cases hhead : (trim line).head? = some ':' ∨ (trim line).head? = some '/'
      · simp only [if_pos hhead]
        exact openEntry_eq s (trim line)
      · simp only [if_neg hhead]
        cases optionLine (trim line) with
        | some option => rfl
        | none => rfl

def lastValue (keys : List Text) (options : List (Text × Text)) : Option Text :=
  ((options.filter fun option => option.1 ∈ keys).getLast?).map Prod.snd

def modulePath : Text := "MODULE_PATH".toList

def moduleKeys : List Text := ["MODULE_STRING".toList,"MODULE_CMDLINE".toList]

def fieldKeys : List Text :=
  ["PROTOCOL".toList,"KERNEL_PATH".toList,"PATH".toList,"CMDLINE".toList,
    "KERNEL_CMDLINE".toList,"COMMENT".toList]++modulePath::moduleKeys

/-- One module for each `MODULE_PATH`, with the last string given before the next. -/
def givenModules : List (Text × Text) → List ModuleConfig
  | [] => []
  | (key,value)::options =>
    if key = modulePath then
      { path := value
        string := (lastValue moduleKeys
          (options.takeWhile fun option => option.1 ≠ modulePath)).getD [] } ::
        givenModules options
    else givenModules options

def givenFields (name : Text) (depth : ℕ) (expanded : Bool) (options : List (Text × Text)) :
    EntryFields where
  name := name
  protocol := (lastValue ["PROTOCOL".toList] options).getD []
  kernelPath := (lastValue ["KERNEL_PATH".toList,"PATH".toList] options).getD []
  cmdline := (lastValue ["CMDLINE".toList,"KERNEL_CMDLINE".toList] options).getD []
  comment := (lastValue ["COMMENT".toList] options).getD []
  options := fun key => if key ∈ fieldKeys then none else lastValue [key] options
  modules := givenModules options
  depth := depth
  expanded := expanded

/-- The options up to the next header, each expanded with the macros above it. -/
def blockOptions (platform : Platform) : StringMap → List Text → List (Text × Text)
  | _, [] => []
  | macros, line::rest =>
    match configLine platform line with
    | .skipped => blockOptions platform macros rest
    | .definition name value =>
      blockOptions platform (macros.insert name (expandMacros value macros)) rest
    | .header _ _ _ => []
    | .option key value => (key,expandMacros value macros)::blockOptions platform macros rest

def describedEntries (platform : Platform) : StringMap → List Text → List EntryFields
  | _, [] => []
  | macros, line::rest =>
    match configLine platform line with
    | .skipped => describedEntries platform macros rest
    | .definition name value =>
      describedEntries platform (macros.insert name (expandMacros value macros)) rest
    | .header depth expanded title =>
      givenFields (expandMacros title macros) depth expanded (blockOptions platform macros rest) ::
        describedEntries platform macros rest
    | .option _ _ => describedEntries platform macros rest

section Options

theorem lastValue_snoc (keys : List Text) (options : List (Text × Text)) (key value : Text) :
    lastValue keys (options++[(key,value)]) =
      if key ∈ keys then some value else lastValue keys options := by
  unfold lastValue
  rw [List.filter_append]
  by_cases h : key ∈ keys <;> simp [h]

theorem lastValue_of_not_mem (keys : List Text) (options : List (Text × Text)) (key value : Text)
    (h : key ∉ keys) : lastValue keys (options++[(key,value)]) = lastValue keys options := by
  rw [lastValue_snoc,if_neg h]

def setLast (modules : List ModuleConfig) (value : Text) : List ModuleConfig :=
  match modules.getLast? with
  | some last => modules.dropLast++[{ last with string := value }]
  | none => modules

theorem givenModules_nil (options : List (Text × Text)) :
    givenModules options = [] ↔ ∀ option ∈ options, option.1 ≠ modulePath := by
  induction options with
  | nil => simp [givenModules]
  | cons option options ih =>
    obtain ⟨key,value⟩ := option
    unfold givenModules
    by_cases h : key = modulePath <;> simp [h,ih]

def moduleString (options : List (Text × Text)) : Text :=
  (lastValue moduleKeys (options.takeWhile fun option => option.1 ≠ modulePath)).getD []

theorem givenModules_cons (value : Text) (options : List (Text × Text)) :
    givenModules ((modulePath,value)::options) =
      { path := value, string := moduleString options }::givenModules options := by
  simp [givenModules,moduleString]

theorem givenModules_skip (option : Text × Text) (options : List (Text × Text))
    (h : option.1 ≠ modulePath) : givenModules (option::options) = givenModules options := by
  simp [givenModules,h]

/-- An option further down reaches a module only if no other module comes between. -/
theorem moduleString_snoc (options : List (Text × Text)) (key value : Text) :
    moduleString (options++[(key,value)]) =
      if key ∈ moduleKeys ∧ givenModules options = [] then value else moduleString options := by
  unfold moduleString
  rw [List.takeWhile_append]
  by_cases hnone : givenModules options = []
  · have hall : options.takeWhile (fun option => option.1 ≠ modulePath) = options := by
      rw [List.takeWhile_eq_self_iff]
      simpa using (givenModules_nil options).mp hnone
    rw [if_pos (congrArg List.length hall),hall]
    by_cases hkey : key = modulePath
    · have hmem : modulePath ∉ moduleKeys := by decide
      simp [hkey,hmem]
    · have hsnoc := lastValue_snoc moduleKeys options key value
      by_cases hmem : key ∈ moduleKeys <;> simp [hkey,hmem,hnone,hsnoc]
  · have hshort : ¬(options.takeWhile fun option => option.1 ≠ modulePath).length =
        options.length := by
      intro hlen
      apply hnone
      have hself := (List.takeWhile_prefix fun option : Text × Text => (option.1 ≠ modulePath : Bool)).eq_of_length hlen
      rw [List.takeWhile_eq_self_iff] at hself
      exact (givenModules_nil options).mpr (by simpa using hself)
    rw [if_neg hshort]
    simp [hnone]

theorem setLast_cons (m : ModuleConfig) (modules : List ModuleConfig) (value : Text) :
    setLast (m::modules) value =
      if modules = [] then [{ m with string := value }] else m::setLast modules value := by
  cases modules with
  | nil => rfl
  | cons n modules =>
    rw [if_neg (List.cons_ne_nil n modules)]
    simp only [setLast,List.getLast?_cons_cons]
    cases h : (n::modules).getLast? with
    | none => rfl
    | some last => simp

theorem givenModules_snoc (options : List (Text × Text)) (key value : Text) :
    givenModules (options++[(key,value)]) =
      if key = modulePath then givenModules options++[{ path := value, string := [] }]
      else if key ∈ moduleKeys then setLast (givenModules options) value
      else givenModules options := by
  induction options with
  | nil =>
    by_cases h : key = modulePath <;> simp [givenModules,h,setLast,lastValue]
  | cons option options ih =>
    rw [List.cons_append]
    by_cases hfirst : option.1 = modulePath
    · obtain ⟨first,path⟩ := option
      obtain rfl : first = modulePath := hfirst
      rw [givenModules_cons,givenModules_cons,ih,moduleString_snoc]
      by_cases hkey : key = modulePath
      · have hmem : modulePath ∉ moduleKeys := by decide
        simp [hkey,hmem]
      · by_cases hmem : key ∈ moduleKeys
        · simp only [if_neg hkey,hmem,true_and,if_true,setLast_cons]
          by_cases hnone : givenModules options = []
          · simp [hnone,setLast]
          · simp [hnone]
        · simp [hkey,hmem]
    · rw [givenModules_skip _ _ hfirst,givenModules_skip _ _ hfirst,ih]

theorem options_field (options : List (Text × Text)) (key value : Text) (h : key ∈ fieldKeys) :
    (fun k => if k ∈ fieldKeys then none else lastValue [k] (options++[(key,value)])) =
      fun k => if k ∈ fieldKeys then none else lastValue [k] options := by
  funext k
  split
  · rfl
  · rename_i hk
    apply lastValue_of_not_mem
    intro hmem
    rw [List.mem_singleton] at hmem
    exact hk (hmem ▸ h)

theorem options_other (options : List (Text × Text)) (key value : Text) (h : key ∉ fieldKeys) :
    StringMap.insert (fun k => if k ∈ fieldKeys then none else lastValue [k] options) key value =
      fun k => if k ∈ fieldKeys then none else lastValue [k] (options++[(key,value)]) := by
  funext k
  by_cases hk : k = key
  · rw [hk,if_neg h,lastValue_snoc]
    simp [StringMap.insert]
  · rw [lastValue_of_not_mem [k] options key value (by simpa using Ne.symm hk)]
    simp [StringMap.insert,hk]

theorem fieldKeys_nodup : fieldKeys.Nodup ∧ fieldKeys.reverse.Nodup := by decide +kernel

theorem entryOption_eq (e : EntryFields) (key value : Text) :
    entryOption e key value =
      { e with
        protocol := if key ∈ ["PROTOCOL".toList] then value else e.protocol
        kernelPath := if key ∈ ["KERNEL_PATH".toList,"PATH".toList] then value else e.kernelPath
        cmdline := if key ∈ ["CMDLINE".toList,"KERNEL_CMDLINE".toList] then value else e.cmdline
        comment := if key ∈ ["COMMENT".toList] then value else e.comment
        modules := if key = modulePath then e.modules++[{ path := value, string := [] }]
          else if key ∈ moduleKeys then setLast e.modules value else e.modules
        options := if key ∈ fieldKeys then e.options else e.options.insert key value } := by
  have hd := fieldKeys_nodup
  unfold fieldKeys modulePath moduleKeys at hd
  unfold entryOption fieldKeys modulePath moduleKeys
  generalize "PROTOCOL".toList = protocol at hd ⊢
  generalize "KERNEL_PATH".toList = kernelPath at hd ⊢
  generalize "PATH".toList = path at hd ⊢
  generalize "CMDLINE".toList = cmdline at hd ⊢
  generalize "KERNEL_CMDLINE".toList = kernelCmdline at hd ⊢
  generalize "COMMENT".toList = comment at hd ⊢
  generalize "MODULE_PATH".toList = modulePath at hd ⊢
  generalize "MODULE_STRING".toList = moduleString at hd ⊢
  generalize "MODULE_CMDLINE".toList = moduleCmdline at hd ⊢
  simp only [List.cons_append,List.nil_append,
    List.mem_cons,List.not_mem_nil,or_false,List.nodup_cons,not_or,List.reverse_cons,
    List.reverse_nil,List.nodup_nil] at hd ⊢
  by_cases h1 : key = protocol
  · simp [h1,hd]
  by_cases h2 : key = kernelPath
  · simp [h2,hd]
  by_cases h3 : key = path
  · simp [h3,hd]
  by_cases h4 : key = cmdline
  · simp [h4,hd]
  by_cases h5 : key = kernelCmdline
  · simp [h5,hd]
  by_cases h6 : key = comment
  · simp [h6,hd]
  by_cases h7 : key = modulePath
  · simp [h7,hd]
  by_cases h8 : key = moduleString
  · cases hlast : e.modules.getLast? <;> simp [h8,hd,setLast,hlast]
  by_cases h9 : key = moduleCmdline
  · cases hlast : e.modules.getLast? <;> simp [h9,hd,setLast,hlast]
  simp [h1,h2,h3,h4,h5,h6,h7,h8,h9]

theorem entryOption_given (name : Text) (depth : ℕ) (expanded : Bool)
    (options : List (Text × Text)) (key value : Text) :
    entryOption (givenFields name depth expanded options) key value =
      givenFields name depth expanded (options++[(key,value)]) := by
  have hoptions : (if key ∈ fieldKeys then
        fun k => if k ∈ fieldKeys then none else lastValue [k] options
      else StringMap.insert
        (fun k => if k ∈ fieldKeys then none else lastValue [k] options) key value) =
      fun k => if k ∈ fieldKeys then none else lastValue [k] (options++[(key,value)]) := by
    by_cases hkey : key ∈ fieldKeys
    · rw [if_pos hkey,options_field options key value hkey]
    · rw [if_neg hkey,options_other options key value hkey]
  rw [entryOption_eq]
  unfold givenFields
  rw [← hoptions]
  simp only [lastValue_snoc,givenModules_snoc,apply_ite (Option.getD · []),Option.getD_some]

theorem foldl_entryOption (name : Text) (depth : ℕ) (expanded : Bool)
    (options : List (Text × Text)) :
    options.foldl (fun e option => entryOption e option.1 option.2)
      { name := name, depth := depth, expanded := expanded } =
      givenFields name depth expanded options := by
  induction options using List.reverseRecOn with
  | nil => simp [givenFields,lastValue,givenModules]
  | append_singleton options option ih =>
    rw [List.foldl_append,List.foldl_cons,List.foldl_nil,ih]
    exact entryOption_given name depth expanded options option.1 option.2

end Options

section Parse
variable (platform : Platform)

/-- The entry being read, with the options that are still to come for it. -/
def pending (options : List (Text × Text)) : Option MenuEntry → List EntryFields
  | none => []
  | some entry =>
    [options.foldl (fun e option => entryOption e option.1 option.2) entry.fields]

def Leaf (current : Option MenuEntry) : Prop :=
  ∀ entry, current = some entry → entry.children = []

theorem leaf_new (fields : EntryFields) : Leaf (some (.mk fields [])) := by
  intro entry h
  rw [← Option.some.inj h]
  rfl

/-- The entry being read is a leaf, so it is placed as its fields alone. -/
def place (entries : List MenuEntry) (fields : EntryFields) : List MenuEntry :=
  pushEntry entries (.mk fields [])

theorem flush_entries (config : Config) (current : Option MenuEntry) (h : Leaf current) :
    (flush config current).entries = (pending [] current).foldl place config.entries := by
  cases current with
  | none => rfl
  | some entry =>
    obtain ⟨fields,children⟩ := entry
    have hnil : children = [] := h _ rfl
    rw [hnil]
    rfl

theorem applyOption_pending (s : ParseState) (key value : Text) (options : List (Text × Text)) :
    pending options (applyOption platform s key value).currentEntry =
      pending ((key,value)::options) s.currentEntry := by
  unfold applyOption
  cases hcurrent : s.currentEntry with
  | none => simp [pending]
  | some entry => simp [pending,MenuEntry.fields]

theorem applyOption_leaf (s : ParseState) (key value : Text) (h : Leaf s.currentEntry) :
    Leaf (applyOption platform s key value).currentEntry := by
  unfold applyOption
  cases hcurrent : s.currentEntry with
  | none => simp [Leaf]
  | some entry =>
    intro e he
    rw [← Option.some.inj he]
    exact h entry hcurrent

theorem globalOption_entries (c : Config) (key value : Text) :
    (globalOption platform c key value).entries = c.entries := by
  simp only [globalOption,apply_ite Config.entries,ite_self]

theorem applyOption_entries (s : ParseState) (key value : Text) :
    (applyOption platform s key value).config.entries = s.config.entries := by
  unfold applyOption
  cases s.currentEntry with
  | none => exact globalOption_entries platform s.config key value
  | some entry => rfl

theorem applyOption_macros (s : ParseState) (key value : Text) :
    (applyOption platform s key value).macros = s.macros := by
  unfold applyOption
  cases s.currentEntry <;> rfl

/-- The parser's tree once the remaining lines are read: onto what it holds it places
the entry it is reading, with the options of its block, and the entries described. -/
theorem foldl_parseLine (content : List Text) (s : ParseState) (hleaf : Leaf s.currentEntry) :
    (flush (content.foldl (parseLine platform) s).config
        (content.foldl (parseLine platform) s).currentEntry).entries =
      (pending (blockOptions platform s.macros content) s.currentEntry++
        describedEntries platform s.macros content).foldl place s.config.entries := by
  induction content generalizing s with
  | nil =>
    rw [List.foldl_nil,flush_entries s.config s.currentEntry hleaf]
    simp [blockOptions,describedEntries]
  | cons line content ih =>
    rw [List.foldl_cons,parseLine_eq]
    unfold blockOptions describedEntries
    cases configLine platform line with
    | skipped => exact ih s hleaf
    | definition name value => exact ih _ hleaf
    | header depth expanded title =>
      simp only
      rw [ih _ (leaf_new _),flush_entries s.config s.currentEntry hleaf,List.foldl_append,
        List.foldl_append]
      simp only [pending,MenuEntry.fields,foldl_entryOption,List.foldl_cons,List.foldl_nil]
    | option key value =>
      simp only
      rw [ih _ (applyOption_leaf platform s _ _ hleaf),applyOption_entries,applyOption_macros,
        applyOption_pending]

/-- The tree of a configuration is built by placing the described entries in order. -/
theorem parse_places (content : Text) (env : BootEnvironment) :
    (parseWithEnv platform content env).entries =
      (describedEntries platform (builtinMacros env) (lines content)).foldl place [] := by
  unfold parseWithEnv
  exact foldl_parseLine platform (lines content) _ (by intro e he; cases he)

end Parse

def preorder : List MenuEntry → List EntryFields
  | [] => []
  | .mk fields children::entries => fields::(preorder children++preorder entries)

theorem preorder_append (xs ys : List MenuEntry) :
    preorder (xs++ys) = preorder xs++preorder ys := by
  induction xs with
  | nil => simp [preorder]
  | cons x xs ih =>
    obtain ⟨fields,children⟩ := x
    simp only [List.cons_append,preorder,ih,List.append_assoc]

theorem preorder_singleton (fields : EntryFields) (children : List MenuEntry) :
    preorder [.mk fields children] = fields::preorder children := by
  simp [preorder]

theorem preorder_last (entries : List MenuEntry) (parent : MenuEntry)
    (h : entries.getLast? = some parent) :
    preorder entries =
      preorder entries.dropLast++parent.fields::preorder parent.children := by
  obtain ⟨fields,children⟩ := parent
  have hsplit := List.dropLast_append_getLast? _ h
  conv_lhs => rw [← hsplit]
  rw [preorder_append,preorder_singleton]
  rfl

theorem preorder_pushEntryRecursive (children : List MenuEntry) (entry : MenuEntry)
    (currentDepth : ℕ) :
    preorder (pushEntryRecursive children entry currentDepth) =
      preorder children++preorder [entry] := by
  fun_induction pushEntryRecursive children entry currentDepth with
  | case1 children currentDepth h => exact preorder_append children [entry]
  | case2 children currentDepth h parent hlast ih =>
    rw [preorder_append,preorder_singleton,ih,preorder_last children parent hlast]
    simp
  | case3 children currentDepth h hlast => exact preorder_append children [entry]

theorem pushEntry_eq (entries : List MenuEntry) (entry : MenuEntry) :
    pushEntry entries entry = pushEntryRecursive entries entry 1 := by
  rw [pushEntryRecursive]
  rfl

theorem preorder_places (fields : List EntryFields) (entries : List MenuEntry) :
    preorder (fields.foldl place entries) = preorder entries++fields := by
  induction fields generalizing entries with
  | nil => simp
  | cons field fields ih =>
    rw [List.foldl_cons,ih,place,pushEntry_eq,preorder_pushEntryRecursive,preorder_singleton]
    simp [preorder]

/-- No entry is lost and none is made up: read in pre-order, the tree is the list of
entries the text describes. -/
theorem parseWithEnv_preorder (platform : Platform) (content : Text) (env : BootEnvironment) :
    preorder (parseWithEnv platform content env).entries =
      describedEntries platform (builtinMacros env) (lines content) := by
  rw [parse_places,preorder_places]
  simp [preorder]

end Zamak.ConfigEntries
