import Zamak.IsoDriver
import Zamak.PackedRecords
import Zamak.PathResolution

/-! # What an ISO 9660 volume holds

A volume is a root extent and the directories its records lead to; a directory is a run
of sectors of records. A name is answered by the first record that has it, version
suffixes and the case of ASCII letters aside, and a path is followed name by name. -/

set_option autoImplicit false

namespace Zamak.IsoVolume
open Zamak.ConfigText Zamak.TagStreams Zamak.PackedRecords Zamak.PathResolution Zamak.IsoDriver
open Zamak.BootFlow (fromUtf8)

structure Record where
  bytes : List UInt8
  name : Text
  long : 34 ≤ bytes.length
  length : (bytes.getD 0 0).toNat = bytes.length
  inside : 33+(bytes.getD 32 0).toNat ≤ bytes.length
  utf8 : fromUtf8 (nameBytes bytes) = some name

structure Extent where
  lba : UInt32
  size : UInt32
  deriving DecidableEq

def Record.extent (r : Record) : Extent := ⟨readLe32 (r.bytes.drop 2),readLe32 (r.bytes.drop 10)⟩

def Record.IsDirectory (r : Record) : Prop := r.bytes.getD 25 0&&&0x02 ≠ 0

/-- The records "." and "..", of the directory itself and of its parent. -/
def Record.IsDot (r : Record) : Prop := nameBytes r.bytes = [0] ∨ nameBytes r.bytes = [1]

def versions (k : ℕ) : Text := (List.replicate k [ ';', '1']).flatten

/-- A record answers a name that is its own up to version suffixes and case. -/
def Record.Answers (r : Record) (name : Text) : Prop :=
  ¬r.IsDot ∧ ∃ base k, r.name = base++versions k ∧ ¬[ ';', '1'] <:+ base ∧
    base.map Char.toLower = name.map Char.toLower

instance (r : Record) : Decidable r.IsDirectory := inferInstanceAs (Decidable (_ ≠ _))

instance (r : Record) : Decidable r.IsDot := inferInstanceAs (Decidable (_ ∨ _))

abbrev Directory := List (List Record)

def sectorBytes (sector : List Record) : List UInt8 := pack sectorSize (sector.map Record.bytes)

/-- The directories that the records lead to, from the root on, by their extents. -/
structure Volume where
  root : Extent
  directory : Extent → Option Directory
  root_present : ∃ d, directory root = some d
  closed : ∀ extent d, directory extent = some d → ∀ sector ∈ d, ∀ r ∈ sector,
    ¬r.IsDot → r.IsDirectory → ∃ inner, directory r.extent = some inner
  sectors : ∀ extent d, directory extent = some d → d.length = (extent.size.toNat+2047)/2048
  fits : ∀ extent d, directory extent = some d → ∀ sector ∈ d,
    (sector.map Record.bytes).flatten.length ≤ 2048

theorem dropVersions_of_not_prefix (l : Text) (h : ¬[ '1', ';'] <+: l) : dropVersions l = l := by
  fun_cases dropVersions l with
  | case1 rest => exact absurd ⟨rest,rfl⟩ h
  | case2 l _ => rfl

theorem versions_succ (k : ℕ) : versions (k+1) = versions k++[ ';', '1'] := by
  rw [versions,List.replicate_succ',List.flatten_concat]
  rfl

theorem trimEndVersions_append (base : Text) (k : ℕ) (h : ¬[ ';', '1'] <:+ base) :
    trimEndVersions (base++versions k) = base := by
  have hdrop : dropVersions (base++versions k).reverse = base.reverse := by
    induction k with
    | zero =>
      rw [versions,List.replicate_zero,List.flatten_nil,List.append_nil]
      exact dropVersions_of_not_prefix _ fun hp => h (List.reverse_prefix.mp hp)
    | succ k ih =>
      rw [versions_succ,← List.append_assoc,List.reverse_append]
      exact ih
  rw [trimEndVersions,hdrop,List.reverse_reverse]

theorem trimEndVersions_split (name : Text) :
    ∃ k, name = trimEndVersions name++versions k ∧ ¬[ ';', '1'] <:+ trimEndVersions name := by
  have hdrop : ∀ l : Text, ∃ k, l.reverse = (dropVersions l).reverse++versions k ∧
      ¬[ '1', ';'] <+: dropVersions l := by
    intro l
    fun_induction dropVersions l with
    | case1 rest ih =>
      have ⟨k,hsplit,hnot⟩ := ih
      refine ⟨k+1,?_,hnot⟩
      rw [versions_succ,← List.append_assoc,← hsplit]
      simp only [List.reverse_cons,List.append_assoc]
      rfl
    | case2 l hl =>
      refine ⟨0,(List.append_nil _).symm,?_⟩
      rintro ⟨rest,rfl⟩
      exact hl rest rfl
  have ⟨k,hsplit,hnot⟩ := hdrop name.reverse
  rw [List.reverse_reverse] at hsplit
  refine ⟨k,hsplit,fun hs => hnot ?_⟩
  exact List.reverse_suffix.mp (by rwa [trimEndVersions] at hs)

theorem answers_iff (r : Record) (name : Text) :
    r.Answers name ↔ ¬r.IsDot ∧ eqIgnoreAsciiCase (trimEndVersions r.name) name = true := by
  unfold Record.Answers eqIgnoreAsciiCase
  rw [beq_iff_eq]
  refine and_congr_right fun _ => ⟨?_,?_⟩
  · rintro ⟨base,k,hsplit,hnot,hsame⟩
    rw [hsplit,trimEndVersions_append base k hnot]
    exact hsame
  · intro hsame
    have ⟨k,hsplit,hnot⟩ := trimEndVersions_split r.name
    exact ⟨_,k,hsplit,hnot,hsame⟩

instance (r : Record) (name : Text) : Decidable (r.Answers name) :=
  decidable_of_iff _ (answers_iff r name).symm

def Directory.find (d : Directory) (name : Text) : Option Record :=
  d.flatten.find? fun r => decide (r.Answers name)

inductive Node where
  | root
  | record (r : Record)

def Volume.directories (v : Volume) : Directories Node Directory Text where
  inside
    | .root => v.directory v.root
    | .record r => if r.IsDirectory then v.directory r.extent else none
  answer d name := (Directory.find d name).map .record

def entryOf (extent : Extent) (name : Text) (fileType : FileType) : FileEntry where
  name := name
  size := extent.size.toUInt64
  fileType := fileType
  opaqueId := extent.lba.toUInt64

def Record.entry (r : Record) : FileEntry :=
  entryOf r.extent r.name (if r.IsDirectory then .directory else .file)

def Volume.entry (v : Volume) : Node → FileEntry
  | .root => entryOf v.root [ '/'] .directory
  | .record r => r.entry

def errorOf : Failure → Error
  | .missing => .fileNotFound
  | .notDirectory => .notADirectory

def components (path : Text) : List Text := (path.splitOn '/').filter (· ≠ [])

def Volume.reached (v : Volume) (node : Node) (names : List Text) : Except Error FileEntry :=
  ((resolve v.directories node names).map v.entry).mapError errorOf

def Volume.resolved (v : Volume) (path : Text) : Except Error FileEntry :=
  v.reached .root (components path)

theorem reached_file (v : Volume) (r : Record) (h : ¬r.IsDirectory) (name : Text)
    (names : List Text) : v.reached (.record r) (name::names) = .error .notADirectory := by
  rw [Volume.reached,resolve_blocked v.directories (.record r) name names (if_neg h)]
  rfl

theorem reached_cons (v : Volume) (node : Node) (d : Directory)
    (h : v.directories.inside node = some d) (name : Text) (names : List Text) :
    v.reached node (name::names) =
      match Directory.find d name with
      | none => .error .fileNotFound
      | some r => v.reached (.record r) names := by
  unfold Volume.reached
  cases hfind : Directory.find d name with
  | none =>
    have hanswer : v.directories.answer d name = none := congrArg (Option.map Node.record) hfind
    rw [resolve_missing v.directories node d name names h hanswer]
    rfl
  | some r =>
    have hanswer : v.directories.answer d name = some (.record r) :=
      congrArg (Option.map Node.record) hfind
    rw [resolve_next v.directories node (.record r) d name names h hanswer]

/-- A device gives these bytes at this place, in sectors of its own size. -/
def Reads (device : BlockDevice) (deviceSectorSize place : ℕ) (bytes : List UInt8) : Prop :=
  ∀ start count buf, start*deviceSectorSize = place → count*deviceSectorSize = bytes.length →
    buf.length = bytes.length → device.readSectors start count buf = .ok bytes

/-- A device holds a volume: each sector of its directories can be read. -/
def Holds (device : BlockDevice) (deviceSectorSize : ℕ) (v : Volume) : Prop :=
  ∀ extent d, v.directory extent = some d → ∀ i sector, d[i]? = some sector →
    Reads device deviceSectorSize (2048*(extent.lba.toNat+i)) (sectorBytes sector)

end Zamak.IsoVolume
