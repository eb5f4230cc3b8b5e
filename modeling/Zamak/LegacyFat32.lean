import Zamak.Fat32Paths
import Zamak.IsoDriver
import Zamak.PartialSteps

/-! # The FAT32 driver of the BIOS stage

The older driver reads a disk through the device trait. It takes the boot sector as it
is, goes from cluster to cluster by whatever the table holds and stops only at an end
mark. One computation of it can underflow, the place of a cluster below two; that is an
outcome of its own here. Sums and products of sector numbers wrap as in the release
profile. -/

set_option autoImplicit false

namespace Zamak.LegacyFat32
open Zamak.ConfigText Zamak.IsoDriver Zamak.WindowSearch Zamak.PartialSteps
open Zamak.Fat32Image (readU16Le readU32Le)
open Zamak.Fat32Directory (entriesOf)

structure BiosParameterBlock where
  sectorsPerCluster : BitVec 8
  reservedSectors : BitVec 16
  fatCount : BitVec 8
  sectorsPerFat32 : BitVec 32
  rootCluster : BitVec 32
  deriving DecidableEq

structure DirectoryEntry where
  name : List UInt8
  attributes : UInt8
  firstClusterHigh : BitVec 16
  firstClusterLow : BitVec 16
  fileSize : BitVec 32
  deriving DecidableEq

structure Fat32 (usizeBits : ℕ) where
  disk : Disk
  bpb : BiosParameterBlock
  lbaStart : BitVec 64

def biosParameterBlock (buffer : List UInt8) : BiosParameterBlock where
  sectorsPerCluster := (buffer.getD 0x0D 0).toBitVec
  reservedSectors := readU16Le buffer 0x0E
  fatCount := (buffer.getD 0x10 0).toBitVec
  sectorsPerFat32 := readU32Le buffer 0x24
  rootCluster := readU32Le buffer 0x2C

def directoryEntry (raw : List UInt8) : DirectoryEntry where
  name := raw.take 11
  attributes := raw.getD 0x0B 0
  firstClusterHigh := readU16Le raw 0x14
  firstClusterLow := readU16Le raw 0x1A
  fileSize := readU32Le raw 0x1C

def parse (usizeBits : ℕ) (disk : Disk) (lbaStart : BitVec 64) : Except Error (Fat32 usizeBits) :=
  match disk.readSectors lbaStart.toNat 1 (List.replicate 512 0) with
  | .error error => .error error
  | .ok buffer => .ok ⟨disk,biosParameterBlock buffer,lbaStart⟩

def entryNameFrom : List Char → ℕ → List UInt8 → List UInt8
  | [], _, out => out
  | c::rest, j, out =>
    if c = '.' then entryNameFrom rest 8 out
    else if j ≥ 11 then out
    else entryNameFrom rest (j+1) (out.set j (UInt8.ofNat c.toUpper.toNat))

def compareName (entry : DirectoryEntry) (search : List Char) : Bool :=
  entry.name == entryNameFrom search 0 (List.replicate 11 0x20)

/-- The entries of a cluster in turn; `none` when the search goes on behind them. -/
def scanCluster (search : List Char) : List (List UInt8) → Option (Except Error DirectoryEntry)
  | [] => none
  | raw::rest =>
    if raw.getD 0 0 = 0x00 then some (.error .fileNotFound)
    else if raw.getD 0 0 = 0xE5 then scanCluster search rest
    else if compareName (directoryEntry raw) search then some (.ok (directoryEntry raw))
    else scanCluster search rest

inductive Outcome (α : Type) where
  | underflow
  | returned (result : Except Error α)
  deriving DecidableEq

section Driver
variable {usizeBits : ℕ} (fs : Fat32 usizeBits)

def firstDataSector : ℕ :=
  (fs.lbaStart.toNat+fs.bpb.reservedSectors.toNat+
    fs.bpb.fatCount.toNat*fs.bpb.sectorsPerFat32.toNat)%2^64

/-- `cluster_to_lba`; `none` where `cluster as u64 - 2` underflows. -/
def clusterToLba (cluster : BitVec 32) : Option ℕ :=
  if 2 ≤ cluster.toNat then
    some ((firstDataSector fs+(cluster.toNat-2)*fs.bpb.sectorsPerCluster.toNat)%2^64)
  else none

def nextCluster (cluster : BitVec 32) : Except Error (BitVec 32) :=
  let fatSector :=
    (fs.lbaStart.toNat+fs.bpb.reservedSectors.toNat+cluster.toNat*4/512)%2^64
  let fatOffset := cluster.toNat*4%2^usizeBits%512
  match fs.disk.readSectors fatSector 1 (List.replicate 512 0) with
  | .error error => .error error
  | .ok buffer => .ok (readU32Le buffer fatOffset&&&0x0FFFFFFF#32)

def clusterSize : ℕ := fs.bpb.sectorsPerCluster.toNat*512

def readCluster (lba : ℕ) : Except Error (List UInt8) :=
  fs.disk.readSectors lba fs.bpb.sectorsPerCluster.toNat (List.replicate (clusterSize fs) 0)

def searchTurn (search : List Char) (cluster : BitVec 32) :
    Turn (BitVec 32) (Outcome DirectoryEntry) :=
  match clusterToLba fs cluster with
  | none => .stop .underflow
  | some lba =>
    match readCluster fs lba with
    | .error error => .stop (.returned (.error error))
    | .ok buffer =>
      match scanCluster search (entriesOf buffer) with
      | some result => .stop (.returned result)
      | none =>
        match nextCluster fs cluster with
        | .error error => .stop (.returned (.error error))
        | .ok next =>
          if next.toNat ≥ 0x0FFFFFF8 then .stop (.returned (.error .fileNotFound))
          else .go next

def findInCluster (fuel : ℕ) (search : List Char) (startCluster : BitVec 32) :
    Option (Outcome DirectoryEntry) :=
  run (searchTurn fs search) fuel startCluster

def startOf (entry : DirectoryEntry) : BitVec 32 :=
  (entry.firstClusterHigh.setWidth 32<<<16)|||entry.firstClusterLow.setWidth 32

def isDirectory (entry : DirectoryEntry) : Bool := entry.attributes&&&0x10 ≠ 0

def findParts (fuel : ℕ) :
    List (List Char) → BitVec 32 → Option DirectoryEntry → Option (Outcome (Option DirectoryEntry))
  | [], _, last => some (.returned (.ok last))
  | part::parts, current, last =>
    if part = [] then findParts fuel parts current last
    else
      match findInCluster fs fuel part current with
      | none => none
      | some .underflow => some .underflow
      | some (.returned (.error error)) => some (.returned (.error error))
      | some (.returned (.ok entry)) =>
        findParts fuel parts (if isDirectory entry then startOf entry else current) (some entry)

def fileEntry (path : Text) (entry : DirectoryEntry) : FileEntry where
  name := path
  size := UInt64.ofNat entry.fileSize.toNat
  fileType := if isDirectory entry then .directory else .file
  opaqueId := UInt64.ofNat (startOf entry).toNat

def findFile (fuel : ℕ) (path : Text) : Option (Outcome FileEntry) :=
  match findParts fs fuel (path.splitOn '/') fs.bpb.rootCluster none with
  | none => none
  | some .underflow => some .underflow
  | some (.returned (.error error)) => some (.returned (.error error))
  | some (.returned (.ok none)) => some (.returned (.error .fileNotFound))
  | some (.returned (.ok (some entry))) => some (.returned (.ok (fileEntry path entry)))

structure Reading where
  cluster : BitVec 32
  bytesLeft : ℕ
  offset : ℕ
  buffer : List UInt8

/-- One turn of the loop of `read_file`, with the buffer as it is left. Both slices of the
copy are in range, as `offset + bytes_left` never passes the end of the buffer. -/
def readTurn (s : Reading) : Turn Reading (Outcome ℕ × List UInt8) :=
  if 0 < s.bytesLeft ∧ s.cluster.toNat < 0x0FFFFFF8 then
    match clusterToLba fs s.cluster with
    | none => .stop (.underflow,s.buffer)
    | some lba =>
      match readCluster fs lba with
      | .error error => .stop (.returned (.error error),s.buffer)
      | .ok clusterBuf =>
        let toCopy := min s.bytesLeft (clusterSize fs)
        let buffer := splice s.buffer s.offset (clusterBuf.take toCopy)
        match nextCluster fs s.cluster with
        | .error error => .stop (.returned (.error error),buffer)
        | .ok next => .go
            { cluster := next, bytesLeft := s.bytesLeft-toCopy, offset := s.offset+toCopy,
              buffer := buffer }
  else .stop (.returned (.ok s.offset),s.buffer)

def readFile (fuel : ℕ) (entry : FileEntry) (buffer : List UInt8) :
    Option (Outcome ℕ × List UInt8) :=
  run (readTurn fs) fuel
    { cluster := BitVec.ofNat 32 entry.opaqueId.toNat,
      bytesLeft := min (entry.size.toNat%2^usizeBits) buffer.length,
      offset := 0, buffer := buffer }

end Driver

def imageDisk (image : List UInt8) : Disk where
  readSectors start count buffer :=
    if (start+count)*512 ≤ image.length ∧ count*512 ≤ buffer.length then
      .ok (splice buffer 0 ((image.drop (start*512)).take (count*512)))
    else .error .ioError
  keeps_length := by
    intro start count buffer filled h
    split at h
    · next hroom =>
      cases h
      apply splice_length
      rw [List.length_take,List.length_drop]
      omega
    · cases h

theorem imageDisk_read (image buffer : List UInt8) (start count : ℕ)
    (himage : (start+count)*512 ≤ image.length) (hbuffer : count*512 ≤ buffer.length) :
    (imageDisk image).readSectors start count buffer =
      .ok (splice buffer 0 ((image.drop (start*512)).take (count*512))) :=
  if_pos ⟨himage,hbuffer⟩

end Zamak.LegacyFat32
