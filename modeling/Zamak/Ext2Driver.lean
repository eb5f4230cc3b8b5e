import Zamak.Fat32Image
import Zamak.IsoDriver
import Zamak.PartialSteps
import Zamak.WindowSearch

/-! # The ext2 driver

The superblock, the group descriptors and the inodes are taken from the disk as they are.
The driver divides by what it finds there, shifts by it, and walks the entries of a
directory block by a raw pointer. A division by zero, a shift that is too wide, a read
behind the end of a block and a loop that never ends are outcomes of their own here.
Other sums and products wrap as in the release profile. -/

set_option autoImplicit false

namespace Zamak.Ext2Driver
open Zamak.ConfigText Zamak.PartialSteps Zamak.WindowSearch
open Zamak.IsoDriver (Error FileType FileEntry Disk)
open Zamak.BootFlow (fromUtf8)
open Zamak.Fat32Image (readU16Le readU32Le)

/-- A disk of sectors of 512 bytes: a read of whole sectors leaves nothing of what the
buffer held. -/
structure SectorDisk extends Disk where
  overwrites : ∀ start count buffer buffer', buffer.length = count*512 →
    buffer'.length = count*512 → readSectors start count buffer = readSectors start count buffer'

structure Superblock where
  logBlockSize : BitVec 32
  inodesPerGroup : BitVec 32
  magic : BitVec 16
  revLevel : BitVec 32
  deriving DecidableEq

structure BlockGroupDescriptor where
  inodeTable : BitVec 32
  deriving DecidableEq

structure Inode where
  mode : BitVec 16
  size : BitVec 32
  block : List (BitVec 32)
  block_length : block.length = 15
  deriving DecidableEq

structure DirectoryEntryHeader where
  inode : BitVec 32
  recLen : BitVec 16
  nameLen : UInt8
  deriving DecidableEq

/-- A mounted volume. Its block size is the shift of the superblock, which gives zero from
the twenty-second power on. -/
structure Ext2 where
  device : SectorDisk
  superblock : Superblock
  blockSize : BitVec 32
  lbaStart : BitVec 64
  blockSize_eq : blockSize = 1024#32<<<superblock.logBlockSize.toNat

def superblockOf (buf : List UInt8) : Superblock where
  logBlockSize := readU32Le buf 24
  inodesPerGroup := readU32Le buf 40
  magic := readU16Le buf 56
  revLevel := readU32Le buf 76

def descriptorAt (buf : List UInt8) (pos : ℕ) : BlockGroupDescriptor where
  inodeTable := readU32Le buf (pos+8)

def inodeAt (buf : List UInt8) (pos : ℕ) : Inode where
  mode := readU16Le buf pos
  size := readU32Le buf (pos+4)
  block := (List.range 15).map fun i => readU32Le buf (pos+40+4*i)
  block_length := by rw [List.length_map,List.length_range]

def headerAt (buf : List UInt8) (pos : ℕ) : DirectoryEntryHeader where
  inode := readU32Le buf pos
  recLen := readU16Le buf (pos+4)
  nameLen := buf.getD (pos+6) 0

def nameAt (buf : List UInt8) (pos : ℕ) : List UInt8 :=
  (buf.drop (pos+8)).take (headerAt buf pos).nameLen.toNat

inductive Fault where
  | shift
  | division
  | outside
  deriving DecidableEq

inductive Outcome (α : Type) where
  | fault (kind : Fault)
  | endless
  | returned (result : Except Error α)
  deriving DecidableEq

def Outcome.bind {α β : Type} : Outcome α → (α → Outcome β) → Outcome β
  | .fault kind, _ => .fault kind
  | .endless, _ => .endless
  | .returned (.error error), _ => .returned (.error error)
  | .returned (.ok a), f => f a

/-- A call that comes back without a fault. -/
def Outcome.Sound {α : Type} (outcome : Outcome α) : Prop := ∃ result, outcome = .returned result

theorem Outcome.bind_sound_iff {α β : Type} (outcome : Outcome α) (f : α → Outcome β) :
    (outcome.bind f).Sound ↔
      outcome.Sound ∧ ∀ a, outcome = .returned (.ok a) → (f a).Sound := by
  cases outcome with
  | fault kind => simp [Outcome.bind,Outcome.Sound]
  | endless => simp [Outcome.bind,Outcome.Sound]
  | returned result =>
    cases result with
    | error error => simp [Outcome.bind,Outcome.Sound]
    | ok a => simp [Outcome.bind,Outcome.Sound]

theorem Outcome.bind_ok {α β : Type} (outcome : Outcome α) (f : α → Outcome β) (b : β)
    (h : outcome.bind f = .returned (.ok b)) :
    ∃ a, outcome = .returned (.ok a) ∧ f a = .returned (.ok b) := by
  cases outcome with
  | fault kind => cases h
  | endless => cases h
  | returned result =>
    cases result with
    | error error => cases h
    | ok a => exact ⟨a,rfl,h⟩

theorem Outcome.returned_sound {α : Type} (result : Except Error α) :
    (Outcome.returned result).Sound := ⟨result,rfl⟩

def mounted (device : SectorDisk) (lbaStart : BitVec 64) (superblock : Superblock) : Ext2 where
  device := device
  superblock := superblock
  blockSize := 1024#32<<<superblock.logBlockSize.toNat
  lbaStart := lbaStart
  blockSize_eq := rfl

def mount (device : SectorDisk) (lbaStart : BitVec 64) : Outcome Ext2 :=
  match device.readSectors (lbaStart+2).toNat 2 (List.replicate 1024 0) with
  | .error error => .returned (.error error)
  | .ok buf =>
    if (superblockOf buf).magic ≠ 0xEF53#16 then .returned (.error .invalidFilesystem)
    else if 32 ≤ (superblockOf buf).logBlockSize.toNat then .fault .shift
    else .returned (.ok (mounted device lbaStart (superblockOf buf)))

inductive Scan where
  | found (inode : BitVec 32)
  | passed
  | outside
  deriving DecidableEq

/-- One turn of that loop, from the place of its pointer. The block ends where its buffer
does. -/
def entryTurn (buf : List UInt8) (name : Text) (pos : ℕ) : Turn ℕ Scan :=
  if pos < buf.length then
    if buf.length < pos+8 then .stop .outside
    else if (headerAt buf pos).inode = 0 then .stop .passed
    else if buf.length < pos+8+(headerAt buf pos).nameLen.toNat then .stop .outside
    else if fromUtf8 (nameAt buf pos) = some name then .stop (.found (headerAt buf pos).inode)
    else .go (pos+(headerAt buf pos).recLen.toNat)
  else .stop .passed

/-- The loop over the entries of a block. If it has not stopped after one turn for each
byte and one more, it never does. -/
def scanBlock (buf : List UInt8) (name : Text) : Option Scan :=
  run (entryTurn buf name) (buf.length+1) 0

section Driver
variable (fs : Ext2)

def readBlock (blockId : BitVec 32) (buffer : List UInt8) : Except Error (List UInt8) :=
  let sectorsPerBlock := fs.blockSize.toNat/512
  let lba := (fs.lbaStart.toNat+blockId.toNat*sectorsPerBlock)%2^64
  fs.device.readSectors lba sectorsPerBlock buffer

theorem blockSize_toNat (h : fs.superblock.logBlockSize.toNat < 22) :
    fs.blockSize.toNat = 2^(10+fs.superblock.logBlockSize.toNat) := by
  have hpow : 2^(10+fs.superblock.logBlockSize.toNat) < 2^32 :=
    Nat.pow_lt_pow_right (by decide) (by omega)
  rw [fs.blockSize_eq,BitVec.toNat_shiftLeft,Nat.shiftLeft_eq,Nat.pow_add]
  rw [Nat.pow_add] at hpow
  exact Nat.mod_eq_of_lt hpow

theorem blockSize_eq_zero (h : 22 ≤ fs.superblock.logBlockSize.toNat) : fs.blockSize = 0 := by
  have hdvd : 2^32 ∣ 2^(10+fs.superblock.logBlockSize.toNat) := Nat.pow_dvd_pow 2 (by omega)
  apply BitVec.eq_of_toNat_eq
  rw [fs.blockSize_eq,BitVec.toNat_shiftLeft,Nat.shiftLeft_eq]
  rw [Nat.pow_add] at hdvd
  exact Nat.mod_eq_zero_of_dvd hdvd

theorem blockSize_pos_iff : 0 < fs.blockSize.toNat ↔ fs.superblock.logBlockSize.toNat < 22 := by
  constructor
  · intro hpos
    by_contra hlarge
    rw [blockSize_eq_zero fs (by omega)] at hpos
    exact absurd hpos (by decide)
  · intro h
    rw [blockSize_toNat fs h]
    exact Nat.two_pow_pos _

theorem sectors_whole : fs.blockSize.toNat/512*512 = fs.blockSize.toNat := by
  apply Nat.div_mul_cancel
  by_cases h : fs.superblock.logBlockSize.toNat < 22
  · rw [blockSize_toNat fs h]
    exact Nat.pow_dvd_pow 2 (show 9 ≤ _ by omega)
  · rw [blockSize_eq_zero fs (by omega)]
    exact Nat.dvd_zero 512

def zeroBlock : List UInt8 := List.replicate fs.blockSize.toNat 0

theorem readBlock_length (blockId : BitVec 32) (buf : List UInt8)
    (h : readBlock fs blockId (zeroBlock fs) = .ok buf) : buf.length = fs.blockSize.toNat := by
  have hlength := fs.device.keeps_length _ _ _ _ h
  rwa [zeroBlock,List.length_replicate] at hlength

def getBgd (group : BitVec 32) : Outcome BlockGroupDescriptor :=
  let bgdStartBlock : BitVec 32 := if fs.blockSize = 1024 then 2 else 1
  let descriptorsPerBlock := fs.blockSize/32
  if descriptorsPerBlock = 0 then .fault .division
  else
    let blockOffset := group/descriptorsPerBlock
    let indexInBlock := group%descriptorsPerBlock
    match readBlock fs (bgdStartBlock+blockOffset) (zeroBlock fs) with
    | .error error => .returned (.error error)
    | .ok buf => .returned (.ok (descriptorAt buf (indexInBlock.toNat*32)))

def actualInodeSize : BitVec 32 := if 0 < fs.superblock.revLevel then 128 else 128

def getInode (inodeNum : BitVec 32) : Outcome Inode :=
  if inodeNum = 0 then .returned (.error .fileNotFound)
  else if fs.superblock.inodesPerGroup = 0 then .fault .division
  else
    let group := (inodeNum-1)/fs.superblock.inodesPerGroup
    let index := (inodeNum-1)%fs.superblock.inodesPerGroup
    (getBgd fs group).bind fun bgd =>
      let inodesPerBlock := fs.blockSize/actualInodeSize fs
      if inodesPerBlock = 0 then .fault .division
      else
        let tableBlock := bgd.inodeTable+index/inodesPerBlock
        let indexInBlock := index%inodesPerBlock
        match readBlock fs tableBlock (zeroBlock fs) with
        | .error error => .returned (.error error)
        | .ok buf => .returned (.ok (inodeAt buf (indexInBlock*actualInodeSize fs).toNat))

/-- One turn of the loop of `find_in_dir` over the blocks. The source reads every block
into one buffer of a block's length; what that held before does not matter. -/
def blockTurn (dir : Inode) (name : Text) (offset : BitVec 32) :
    Turn (BitVec 32) (Outcome (BitVec 32)) :=
  if offset < dir.size then
    if fs.blockSize = 0 then .stop (.fault .division)
    else
      let blockIdx := offset/fs.blockSize
      if 12 ≤ blockIdx.toNat then .stop (.returned (.error .fileNotFound))
      else
        let block := dir.block.getD blockIdx.toNat 0
        if block = 0 then .go (offset+fs.blockSize)
        else
          match readBlock fs block (zeroBlock fs) with
          | .error error => .stop (.returned (.error error))
          | .ok buf =>
            match scanBlock buf name with
            | none => .stop .endless
            | some .outside => .stop (.fault .outside)
            | some (.found inode) => .stop (.returned (.ok inode))
            | some .passed => .go (offset+fs.blockSize)
  else .stop (.returned (.error .fileNotFound))

/-- The loop over the blocks. If it has not stopped after thirteen turns, it never does. -/
def findInDir (dir : Inode) (name : Text) : Outcome (BitVec 32) :=
  (run (blockTurn fs dir name) 13 0).getD .endless

def isDirectory (inode : Inode) : Bool := inode.mode&&&0xF000#16 == 0x4000#16

def findParts : List Text → BitVec 32 → Outcome (BitVec 32)
  | [], current => .returned (.ok current)
  | part::parts, current =>
    if part = [] then findParts parts current
    else
      (getInode fs current).bind fun inode =>
        if isDirectory inode then (findInDir fs inode part).bind (findParts parts)
        else .returned (.error .notADirectory)

def fileEntry (path : Text) (inodeNum : BitVec 32) (inode : Inode) : FileEntry where
  name := path
  size := UInt64.ofNat inode.size.toNat
  fileType := if isDirectory inode then .directory else .file
  opaqueId := UInt64.ofNat inodeNum.toNat

def findFile (path : Text) : Outcome FileEntry :=
  (findParts fs (path.splitOn '/') 2).bind fun current =>
    (getInode fs current).bind fun inode => .returned (.ok (fileEntry path current inode))

end Driver

def padded (bytes : List UInt8) : List UInt8 := (bytes++List.replicate 512 0).take 512

theorem padded_length (bytes : List UInt8) : (padded bytes).length = 512 := by
  rw [padded,List.length_take,List.length_append,List.length_replicate]
  omega

def sectorsFrom (content : ℕ → List UInt8) : ℕ → ℕ → List UInt8
  | _, 0 => []
  | start, count+1 => padded (content start)++sectorsFrom content (start+1) count

theorem sectorsFrom_length (content : ℕ → List UInt8) (start count : ℕ) :
    (sectorsFrom content start count).length = count*512 := by
  induction count generalizing start with
  | zero => rfl
  | succ count ih =>
    rw [sectorsFrom,List.length_append,padded_length,ih]
    omega

theorem splice_sectorsFrom (content : ℕ → List UInt8) (start count : ℕ) (buffer : List UInt8)
    (h : buffer.length = count*512) :
    splice buffer 0 (sectorsFrom content start count) = sectorsFrom content start count := by
  rw [splice,sectorsFrom_length,Nat.zero_add,← h,List.drop_length,List.take_zero,List.nil_append,
    List.append_nil]

def sectorVolume (content : ℕ → List UInt8) : SectorDisk where
  readSectors start count buffer :=
    if count*512 ≤ buffer.length then .ok (splice buffer 0 (sectorsFrom content start count))
    else .error .ioError
  keeps_length := by
    intro start count buffer filled h
    split at h
    · next hroom =>
      cases h
      apply splice_length
      rw [sectorsFrom_length]
      omega
    · cases h
  overwrites := by
    intro start count buffer buffer' h h'
    rw [h,h',splice_sectorsFrom content start count buffer h,
      splice_sectorsFrom content start count buffer' h']

theorem sectorVolume_read (content : ℕ → List UInt8) (start count : ℕ) (buffer : List UInt8)
    (h : buffer.length = count*512) :
    (sectorVolume content).readSectors start count buffer =
      .ok (sectorsFrom content start count) := by
  change (if _ then _ else _) = _
  rw [if_pos (Nat.le_of_eq h.symm),splice_sectorsFrom content start count buffer h]

theorem sectorVolume_mount (content : ℕ → List UInt8)
    (hmagic : (superblockOf (sectorsFrom content 2 2)).magic = 0xEF53#16)
    (hshift : (superblockOf (sectorsFrom content 2 2)).logBlockSize.toNat < 32) :
    mount (sectorVolume content) 0 = .returned (.ok
      (mounted (sectorVolume content) 0 (superblockOf (sectorsFrom content 2 2)))) := by
  have hstart : (0+2 : BitVec 64).toNat = 2 := rfl
  unfold mount
  rw [hstart,sectorVolume_read content 2 2 _ List.length_replicate]
  simp only [hmagic,ne_eq,not_true_eq_false,if_false,if_neg (Nat.not_le.mpr hshift)]

theorem sectorVolume_block (content : ℕ → List UInt8) (superblock : Superblock)
    (blockId : BitVec 32) :
    readBlock (mounted (sectorVolume content) 0 superblock) blockId
        (zeroBlock (mounted (sectorVolume content) 0 superblock)) =
      .ok (sectorsFrom content
        (blockId.toNat*((1024#32<<<superblock.logBlockSize.toNat).toNat/512)%2^64)
        ((1024#32<<<superblock.logBlockSize.toNat).toNat/512)) := by
  have hstart : (0 : BitVec 64).toNat = 0 := rfl
  have hread := sectorVolume_read content
    (blockId.toNat*((1024#32<<<superblock.logBlockSize.toNat).toNat/512)%2^64)
    ((1024#32<<<superblock.logBlockSize.toNat).toNat/512)
    (zeroBlock (mounted (sectorVolume content) 0 superblock))
    (by
      rw [zeroBlock,List.length_replicate]
      exact (sectors_whole (mounted (sectorVolume content) 0 superblock)).symm)
  unfold readBlock
  simp only [mounted,hstart,Nat.zero_add]
  exact hread

end Zamak.Ext2Driver
