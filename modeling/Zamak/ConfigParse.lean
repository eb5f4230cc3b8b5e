import Zamak.ConfigText

/-! # The configuration parser

`config.rs`: the configuration record, the menu-entry tree and `parse_with_env`, one
line at a time over the configuration so far, the entry being read and the macro
table. The width of `usize` and Unicode upper-casing come from the platform. -/

set_option autoImplicit false

namespace Zamak.ConfigParse
open Zamak.ConfigText

/-- What the parser takes from its target and from the standard library's tables. -/
structure Platform where
  usizeBits : ℕ
  toUppercase : Text → Text

structure ModuleConfig where
  path : Text
  string : Text

structure EntryFields where
  name : Text := []
  protocol : Text := []
  kernelPath : Text := []
  cmdline : Text := []
  comment : Text := []
  options : StringMap := fun _ => none
  modules : List ModuleConfig := []
  depth : ℕ := 0
  expanded : Bool := false

inductive MenuEntry where
  | mk (fields : EntryFields) (children : List MenuEntry)

def MenuEntry.fields : MenuEntry → EntryFields
  | .mk fields _ => fields

def MenuEntry.children : MenuEntry → List MenuEntry
  | .mk _ children => children

/-- `Config`, with the values `Config::default` gives. -/
structure Config where
  globalOptions : StringMap := fun _ => none
  entries : List MenuEntry := []
  timeout : ℕ := 0
  themePath : Option Text := none
  themeVariant : Text := []
  configHash : Option (Vector UInt8 32) := none
  editorEnabled : Bool := false
  defaultEntry : ℕ := 0
  quiet : Bool := false
  serial : Bool := false
  serialBaudrate : ℕ := 0
  verbose : Bool := false
  hashMismatchPanic : Bool := false

structure BootEnvironment where
  arch : Text
  fwType : Text
  bootDrive : Text

/-- `BootEnvironment::default` on a target of the given architecture. -/
def BootEnvironment.default (arch : Text) : BootEnvironment :=
  { arch := arch, fwType := "bios".toList, bootDrive := [] }

/-- `push_entry_recursive`: descend into the last entry until the depth is reached. -/
def pushEntryRecursive (children : List MenuEntry) (entry : MenuEntry) (currentDepth : ℕ) :
    List MenuEntry :=
  if entry.fields.depth ≤ currentDepth then children++[entry]
  else
    match children.getLast? with
    | some parent =>
      children.dropLast++
        [.mk parent.fields (pushEntryRecursive parent.children entry (currentDepth+1))]
    | none => children++[entry]
termination_by entry.fields.depth-currentDepth

def pushEntry (entries : List MenuEntry) (entry : MenuEntry) : List MenuEntry :=
  if entry.fields.depth ≤ 1 then entries++[entry]
  else
    match entries.getLast? with
    | some parent =>
      entries.dropLast++[.mk parent.fields (pushEntryRecursive parent.children entry 2)]
    | none => entries++[entry]

structure ParseState where
  config : Config
  currentEntry : Option MenuEntry
  macros : StringMap

def flush (config : Config) : Option MenuEntry → Config
  | some entry => { config with entries := pushEntry config.entries entry }
  | none => config

/-- A line that opens an entry: its slashes or colon, an optional `+`, its title. -/
def openEntry (s : ParseState) (line : Text) : ParseState :=
  let depth := if line.head? = some '/' then (line.takeWhile (· == '/')).length else 1
  let rest := if line.head? = some '/' then line.drop depth else line.drop 1
  let expanded := rest.head? = some '+'
  let title := trim (if expanded then rest.tail else rest)
  let fields : EntryFields :=
    { name := expandMacros title s.macros, depth := depth, expanded := expanded }
  { s with config := flush s.config s.currentEntry, currentEntry := some (.mk fields []) }

def entryOption (e : EntryFields) (key value : Text) : EntryFields :=
  if key = "PROTOCOL".toList then { e with protocol := value }
  else if key = "KERNEL_PATH".toList ∨ key = "PATH".toList then { e with kernelPath := value }
  else if key = "CMDLINE".toList ∨ key = "KERNEL_CMDLINE".toList then
    { e with cmdline := value }
  else if key = "COMMENT".toList then { e with comment := value }
  else if key = "MODULE_PATH".toList then
    { e with modules := e.modules++[{ path := value, string := [] }] }
  else if key = "MODULE_STRING".toList ∨ key = "MODULE_CMDLINE".toList then
    match e.modules.getLast? with
    | some last => { e with modules := e.modules.dropLast++[{ last with string := value }] }
    | none => e
  else { e with options := e.options.insert key value }

def yes : Text := "yes".toList

def globalOption (platform : Platform) (c : Config) (key value : Text) : Config :=
  if key = "TIMEOUT".toList then { c with timeout := (parseUnsigned 64 value).getD c.timeout }
  else if key = "THEME".toList then { c with themePath := some value }
  else if key = "THEME_VARIANT".toList then { c with themeVariant := value }
  else if key = "EDITOR_ENABLED".toList then
    { c with editorEnabled := value = yes ∨ value = "true".toList ∨ value = "1".toList }
  else if key = "DEFAULT_ENTRY".toList then
    { c with defaultEntry := (parseUnsigned platform.usizeBits value).getD c.defaultEntry }
  else if key = "QUIET".toList then { c with quiet := value = yes }
  else if key = "SERIAL".toList then { c with serial := value = yes }
  else if key = "SERIAL_BAUDRATE".toList then
    { c with serialBaudrate := (parseUnsigned 32 value).getD c.serialBaudrate }
  else if key = "VERBOSE".toList then { c with verbose := value = yes }
  else if key = "HASH_MISMATCH_PANIC".toList then
    { c with hashMismatchPanic := value ≠ "no".toList }
  else c

/-- A line `key=value`, or `key: value` when it has no `=`. -/
def optionLine (line : Text) : Option (Text × Text) :=
  (splitOnce '=' line).or (splitOnce ':' line)

def applyOption (platform : Platform) (s : ParseState) (key value : Text) : ParseState :=
  match s.currentEntry with
  | some entry =>
    { s with currentEntry := some (.mk (entryOption entry.fields key value) entry.children) }
  | none =>
    let config := globalOption platform s.config key value
    { s with config :=
        { config with globalOptions := config.globalOptions.insert key value } }

def parseLine (platform : Platform) (s : ParseState) (line : Text) : ParseState :=
  let line := trim line
  if line = [] ∨ line.head? = some '#' then s
  else
    match parseMacroDefinition line with
    | some (name,value) =>
      { s with macros := s.macros.insert name (expandMacros value s.macros) }
    | none =>
      if line.head? = some ':' ∨ line.head? = some '/' then openEntry s line
      else
        match optionLine line with
        | some (key,value) =>
          applyOption platform s (platform.toUppercase (trim key))
            (expandMacros (trim value) s.macros)
        | none => s

def initialConfig : Config :=
  { timeout := 5, themeVariant := "dark".toList, editorEnabled := true, defaultEntry := 1,
    serialBaudrate := 115200, hashMismatchPanic := true }

def builtinMacros (env : BootEnvironment) : StringMap :=
  let macros := StringMap.insert (fun _ => none) "ARCH".toList env.arch
  let macros := macros.insert "FW_TYPE".toList env.fwType
  if env.bootDrive = [] then macros else macros.insert "BOOT_DRIVE".toList env.bootDrive

def parseWithEnv (platform : Platform) (content : Text) (env : BootEnvironment) : Config :=
  let final := (lines content).foldl (parseLine platform)
    { config := initialConfig, currentEntry := none, macros := builtinMacros env }
  flush final.config final.currentEntry

def parse (platform : Platform) (arch content : Text) : Config :=
  parseWithEnv platform content (BootEnvironment.default arch)

end Zamak.ConfigParse
