import Zamak.Enrolment

/-! # The UEFI loader up to its menu

`main` of `zamak-uefi`: the first configuration file that is there is read, decoded
and parsed, and the menu starts locked when the parsed configuration holds a hash.
The graphics protocol and the firmware calls around it are taken to succeed. The
hash slot is part of the loader, and nothing in the flow reads it. -/

set_option autoImplicit false

namespace Zamak.BootFlow
open Zamak.Blake2bHash Zamak.ConfigText Zamak.ConfigParse Zamak.EnrolledHash Zamak.Enrolment

inductive EditorDiagnosticLevel where
  | ok
  | warning
  | error
  deriving DecidableEq, Repr

structure EditorDiagnostic where
  level : EditorDiagnosticLevel
  message : Text

structure MenuState where
  selectedIdx : ℕ
  timeout : ℕ
  editing : Bool
  editBuffer : Text
  editorLocked : Bool
  expanded : List Bool
  validator : Option (Text → EditorDiagnostic)
  lastDiagnostic : Option EditorDiagnostic
  bootRequested : Bool

/-- `MenuState::new`; the product wraps in a `u64`. -/
def MenuState.new (timeoutSec : ℕ) : MenuState where
  selectedIdx := 0
  timeout := timeoutSec*10%2^64
  editing := false
  editBuffer := []
  editorLocked := false
  expanded := []
  validator := none
  lastDiagnostic := none
  bootRequested := false

def MenuState.newLocked (timeoutSec : ℕ) : MenuState :=
  { MenuState.new timeoutSec with editorLocked := true }

/-- The loader as built and enrolled: its target and its `ZAMAK_ENROLLED_HASH`. -/
structure Loader where
  platform : Platform
  arch : Text
  enrolledHash : EnrolledHashSlot

inductive OpenResult where
  | missing
  | directory
  | regular (content : List UInt8)

abbrev Volume := Text → OpenResult

def configPaths : List Text := ["\\zamak.conf".toList,"\\boot\\zamak.conf".toList]

def fromUtf8 (bytes : List UInt8) : Option Text :=
  (String.fromUTF8? ⟨bytes.toArray⟩).map String.toList

inductive BootOutcome where
  | noConfig
  | panicked
  | menu (config : Config) (state : MenuState)

def runConfig (loader : Loader) (configData : List UInt8) : BootOutcome :=
  match fromUtf8 configData with
  | none => .panicked
  | some configStr =>
    let config := parse loader.platform loader.arch configStr
    let state := if config.configHash.isSome then MenuState.newLocked config.timeout
      else MenuState.new config.timeout
    .menu config state

/-- The loop over `config_paths`, which stops at the first regular file. -/
def bootFrom (loader : Loader) (volume : Volume) : List Text → BootOutcome
  | [] => .noConfig
  | path::paths =>
    match volume path with
    | .regular content => runConfig loader content
    | _ => bootFrom loader volume paths

def main (loader : Loader) (volume : Volume) : BootOutcome :=
  bootFrom loader volume configPaths

def configContent (volume : Volume) : Option (List UInt8) :=
  configPaths.findSome? fun path =>
    match volume path with
    | .regular content => some content
    | _ => none

theorem bootFrom_regular (loader : Loader) (volume : Volume) (paths : List Text)
    (content : List UInt8)
    (h : (paths.findSome? fun path =>
      match volume path with
      | .regular content => some content
      | _ => none) = some content) :
    bootFrom loader volume paths = runConfig loader content := by
  induction paths with
  | nil => simp at h
  | cons path paths ih =>
    rw [List.findSome?_cons] at h
    unfold bootFrom
    cases hv : volume path with
    | missing =>
      rw [hv] at h
      exact ih h
    | directory =>
      rw [hv] at h
      exact ih h
    | regular found =>
      rw [hv] at h
      have hf : found = content := by simpa using h
      rw [hf]

section Parse
variable (platform : Platform)

theorem flush_hash (config : Config) (entry : Option MenuEntry) :
    (flush config entry).configHash = config.configHash := by
  cases entry <;> rfl

theorem globalOption_hash (c : Config) (key value : Text) :
    (globalOption platform c key value).configHash = c.configHash := by
  simp only [globalOption,apply_ite Config.configHash,ite_self]

theorem parseLine_hash (s : ParseState) (line : Text) :
    (parseLine platform s line).config.configHash = s.config.configHash := by
  simp only [parseLine]
  split
  · rfl
  · split
    · rfl
    · split
      · exact flush_hash s.config s.currentEntry
      · split
        · unfold applyOption
          split
          · rfl
          · exact globalOption_hash platform s.config _ _
        · rfl

theorem parseLines_hash (content : List Text) (s : ParseState) :
    (content.foldl (parseLine platform) s).config.configHash = s.config.configHash := by
  induction content generalizing s with
  | nil => rfl
  | cons line content ih =>
    rw [List.foldl_cons,ih,parseLine_hash]

theorem parse_hash (arch content : Text) :
    (parse platform arch content).configHash = none := by
  unfold parse parseWithEnv
  rw [flush_hash,parseLines_hash]
  rfl

end Parse

theorem runConfig_eq (loader : Loader) (content : List UInt8) :
    runConfig loader content =
      match fromUtf8 content with
      | none => .panicked
      | some text => .menu (parse loader.platform loader.arch text)
          (MenuState.new (parse loader.platform loader.arch text).timeout) := by
  unfold runConfig
  cases fromUtf8 content with
  | none => rfl
  | some text => simp [parse_hash]

theorem digestLength : 1 ≤ 32 ∧ 32 ≤ 64 := by decide

/-- The enrolled hash is enforced on a volume: the menu is reached only with the
enrolled digest, and then locked. -/
def Enforced (loader : Loader) (volume : Volume) (hash : Hash) (content : List UInt8) : Prop :=
  ∀ config state, main loader volume = .menu config state →
    (Core.hash content 32 digestLength).take 32 = hash.toList ∧ state.editorLocked = true

/-- With a hash enrolled, the loader enforces it only on contents that are no text
at all, on which it panics. -/
theorem enforced_iff (loader : Loader) (volume : Volume) (hash : Hash)
    (content : List UInt8) (_hslot : loader.enrolledHash.read = some hash)
    (hcontent : configContent volume = some content) :
    Enforced loader volume hash content ↔ fromUtf8 content = none := by
  have hmain : main loader volume = runConfig loader content :=
    bootFrom_regular loader volume configPaths content hcontent
  unfold Enforced
  rw [hmain,runConfig_eq]
  cases hu : fromUtf8 content with
  | none =>
    constructor
    · intro _
      rfl
    · intro _ config state h
      exact absurd h (by simp)
  | some text =>
    constructor
    · intro h
      have hlocked := (h _ _ rfl).2
      exact absurd hlocked (by simp [MenuState.new])
    · intro h
      exact absurd h (by simp)

def asciiPlatform : Platform := { usizeBits := 64, toUppercase := List.map Char.toUpper }

/-- A loader with the hash `01 00 … 00` enrolled. -/
def enrolledLoader : Loader where
  platform := asciiPlatform
  arch := "x86_64".toList
  enrolledHash := ⟨enrolledHashSignature,Vector.ofFn fun i => if i.val = 0 then 1 else 0⟩

def rootVolume (content : List UInt8) : Volume := fun path =>
  if path = "\\zamak.conf".toList then .regular content else .missing

theorem enforced_not_text :
    enrolledLoader.enrolledHash.read = some enrolledLoader.enrolledHash.hash ∧
    configContent (rootVolume [0xFF]) = some [0xFF] ∧
    Enforced enrolledLoader (rootVolume [0xFF]) enrolledLoader.enrolledHash.hash [0xFF] := by
  have hslot : enrolledLoader.enrolledHash.read = some enrolledLoader.enrolledHash.hash := by
    decide
  have hcontent : configContent (rootVolume [0xFF]) = some [0xFF] := by decide
  refine ⟨hslot,hcontent,(enforced_iff enrolledLoader _ _ _ hslot hcontent).mpr ?_⟩
  decide

/-- The empty configuration is accepted against any enrolled hash, unlocked. -/
theorem empty_config_unlocked :
    enrolledLoader.enrolledHash.read = some enrolledLoader.enrolledHash.hash ∧
    configContent (rootVolume []) = some [] ∧
    ¬ Enforced enrolledLoader (rootVolume []) enrolledLoader.enrolledHash.hash [] := by
  have hmain : main enrolledLoader (rootVolume []) = runConfig enrolledLoader [] := rfl
  have htext : fromUtf8 [] = some [] := by decide
  refine ⟨by decide,by decide,?_⟩
  intro h
  rw [Enforced,hmain,runConfig_eq,htext] at h
  exact absurd (h _ _ rfl).2 (by simp [MenuState.new])

end Zamak.BootFlow
