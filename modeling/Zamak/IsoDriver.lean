import Zamak.BootFlow
import Zamak.Segments
import Zamak.TagStreams

/-! # The ISO 9660 driver

Directories are scanned sector by sector and record by record; a path is followed one
component at a time from the root that the volume descriptor gave. -/

set_option autoImplicit false

namespace Zamak.IsoDriver
open Zamak.ConfigText Zamak.TagStreams Zamak.Segments
open Zamak.BootFlow (fromUtf8)

inductive Error where
  | ioError
  | fileNotFound
  | invalidFilesystem
  | notADirectory
  deriving DecidableEq

inductive FileType where
  | file
  | directory
  | unknown
  deriving DecidableEq

structure FileEntry where
  name : Text
  size : UInt64
  fileType : FileType
  opaqueId : UInt64
  deriving DecidableEq

/-- `BlockDevice`: the buffer as it was, and as a successful read leaves it. -/
structure BlockDevice where
  readSectors : ℕ → ℕ → List UInt8 → Except Error (List UInt8)

structure Disk extends BlockDevice where
  keeps_length : ∀ start count buffer filled,
    readSectors start count buffer = .ok filled → filled.length = buffer.length

/-- Every read of whole sectors succeeds, with the bytes the device holds there. -/
def BlockDevice.Holds (device : BlockDevice) (sectorBytes : ℕ) (content : ℕ → UInt8) : Prop :=
  ∀ start count buffer, buffer.length = count*sectorBytes →
    device.readSectors start count buffer =
      .ok (stretch content (start*sectorBytes) (count*sectorBytes))

def byteDisk (sectorBytes : ℕ) (content : ℕ → UInt8) : Disk where
  readSectors start count buffer :=
    if buffer.length = count*sectorBytes then
      .ok (stretch content (start*sectorBytes) (count*sectorBytes))
    else .error .ioError
  keeps_length := by
    intro start count buffer filled h
    split at h
    · next hlength =>
      cases h
      rw [stretch_length,hlength]
    · cases h

theorem byteDisk_holds (sectorBytes : ℕ) (content : ℕ → UInt8) :
    (byteDisk sectorBytes content).Holds sectorBytes content :=
  fun _ _ _ h => if_pos h

def sectorSize : ℕ := 2048

structure Iso9660 where
  device : BlockDevice
  rootLba : UInt32
  rootSize : UInt32
  deviceSectorSize : ℕ

def readLe32 (bytes : List UInt8) : UInt32 := UInt32.ofNat (bytesNat (bytes.take 4))

def nameBytes (record : List UInt8) : List UInt8 :=
  (record.drop 33).take (record.getD 32 0).toNat

def parseDirectoryRecord (record : List UInt8) : Option FileEntry :=
  let recordLen := (record.getD 0 0).toNat
  if recordLen < 34 then none
  else
    let extentLba := readLe32 (record.drop 2)
    let dataSize := readLe32 (record.drop 10)
    let flags := record.getD 25 0
    let nameLen := (record.getD 32 0).toNat
    if nameLen = 0 ∨ 33+nameLen > recordLen then none
    -- "." and ".."
    else if nameBytes record = [0] ∨ nameBytes record = [1] then none
    else some
      { name := (fromUtf8 (nameBytes record)).getD [ '?'],
        size := dataSize.toUInt64,
        fileType := if flags&&&0x02 ≠ 0 then .directory else .file,
        opaqueId := extentLba.toUInt64 }

def dropVersions : Text → Text
  | '1' :: ';' :: rest => dropVersions rest
  | rest => rest

def trimEndVersions (name : Text) : Text := (dropVersions name.reverse).reverse

/-- `eq_ignore_ascii_case`; `Char.toLower` changes only ASCII letters. -/
def eqIgnoreAsciiCase (a b : Text) : Bool := a.map Char.toLower == b.map Char.toLower

def scanSector (buf : List UInt8) (name : Text) (offset : ℕ) : Option FileEntry :=
  if offset < sectorSize then
    let recordLen := (buf.getD offset 0).toNat
    if recordLen = 0 then none
    else if offset+recordLen > sectorSize then none
    else
      let record := (buf.drop offset).take recordLen
      match (parseDirectoryRecord record).filter fun entry =>
          eqIgnoreAsciiCase (trimEndVersions entry.name) name with
      | some entry => some entry
      | none => scanSector buf name (offset+recordLen)
  else none
termination_by sectorSize-offset
decreasing_by exact Nat.sub_lt_sub_left ‹_› (Nat.lt_add_of_pos_right (Nat.pos_of_ne_zero ‹_›))

/-- The loop of `find_in_directory` with its last sectors still to read. -/
def findInSectors (fs : Iso9660) (dirLba : UInt32) (name : Text) :
    ℕ → ℕ → List UInt8 → Except Error FileEntry
  | _, 0, _ => .error .fileNotFound
  | i, left+1, buf =>
    let sectorsPerIso := sectorSize/fs.deviceSectorSize
    let isoSector := dirLba.toNat+i
    match fs.device.readSectors (isoSector*sectorsPerIso) sectorsPerIso buf with
    | .error error => .error error
    | .ok buf =>
      match scanSector buf name 0 with
      | some entry => .ok entry
      | none => findInSectors fs dirLba name (i+1) left buf

def findInDirectory (fs : Iso9660) (dirLba dirSize : UInt32) (name : Text) :
    Except Error FileEntry :=
  let totalSectors := (dirSize.toNat+(sectorSize-1))/sectorSize
  findInSectors fs dirLba name 0 totalSectors (List.replicate sectorSize 0)

def rootEntry (fs : Iso9660) : FileEntry where
  name := [ '/']
  size := fs.rootSize.toUInt64
  fileType := .directory
  opaqueId := fs.rootLba.toUInt64

def findParts (fs : Iso9660) : UInt32 → UInt32 → List Text → Except Error FileEntry
  | _, _, [] => .ok (rootEntry fs)
  | currentLba, currentSize, part::rest =>
    match findInDirectory fs currentLba currentSize part with
    | .error error => .error error
    | .ok entry =>
      if rest = [] then .ok entry
      else if entry.fileType ≠ .directory then .error .notADirectory
      else findParts fs entry.opaqueId.toUInt32 entry.size.toUInt32 rest

def findFile (fs : Iso9660) (path : Text) : Except Error FileEntry :=
  let path := path.dropWhile (· == '/')
  let parts := (path.splitOn '/').filter (· ≠ [])
  findParts fs fs.rootLba fs.rootSize parts

end Zamak.IsoDriver
