import Zamak.Ext2Read
import Zamak.IsoRead
import Zamak.LegacyFat32

/-! # How much the three drivers read

A file entry comes with its size and a read with a buffer. The ISO 9660 driver and the
older FAT32 driver stop at the shorter of the two; the ext2 driver fills the buffer. -/

set_option autoImplicit false

namespace Zamak.ReadLengths
open Zamak.ConfigText Zamak.PartialSteps Zamak.WindowSearch Zamak.Segments
open Zamak.IsoDriver (Error FileEntry Iso9660)
open Zamak.Ext2Driver (Ext2)
open Zamak.Ext2Read (asked byteVolume)
open Zamak.LegacyFat32 (Fat32)

section Fat32
variable {usizeBits : ℕ} (fs : Fat32 usizeBits)

/-- The loop of the older FAT32 driver has written what it counts, and what is left stays
within the limit. -/
structure Limited (limit : ℕ) (buffer : List UInt8) (s : LegacyFat32.Reading) : Prop where
  limited : s.offset+s.bytesLeft ≤ limit
  written : WrittenTo s.offset buffer s.buffer

/-- A turn that goes on has copied from a cluster as much as is left, or the whole of it. -/
theorem fat32_go (s s' : LegacyFat32.Reading) (h : LegacyFat32.readTurn fs s = .go s') :
    ∃ lba clusterBuf cluster, LegacyFat32.readCluster fs lba = .ok clusterBuf ∧
      s' = {
        cluster := cluster
        bytesLeft := s.bytesLeft-min s.bytesLeft (LegacyFat32.clusterSize fs)
        offset := s.offset+min s.bytesLeft (LegacyFat32.clusterSize fs)
        buffer := splice s.buffer s.offset
          (clusterBuf.take (min s.bytesLeft (LegacyFat32.clusterSize fs))) } := by
  unfold LegacyFat32.readTurn at h
  split at h
  · split at h
    · cases h
    · next lba _ =>
      split at h
      · cases h
      · next clusterBuf hcluster =>
        simp only at h
        split at h
        · cases h
        · next cluster _ =>
          cases h
          exact ⟨lba,clusterBuf,cluster,hcluster,rfl⟩
  · cases h

theorem fat32_stop (s : LegacyFat32.Reading) (count : ℕ) (buffer : List UInt8)
    (h : LegacyFat32.readTurn fs s = .stop (.returned (.ok count),buffer)) :
    s.offset = count ∧ s.buffer = buffer := by
  unfold LegacyFat32.readTurn at h
  split at h
  · split at h
    · cases h
    · split at h
      · cases h
      · simp only at h
        split at h
        · cases h
        · cases h
  · cases h
    exact ⟨rfl,rfl⟩

theorem limited_turn (limit : ℕ) (buffer : List UInt8) (hlimit : limit ≤ buffer.length)
    (s s' : LegacyFat32.Reading) (h : Limited limit buffer s)
    (hgo : LegacyFat32.readTurn fs s = .go s') : Limited limit buffer s' := by
  obtain ⟨lba,clusterBuf,cluster,hcluster,rfl⟩ := fat32_go fs s s' hgo
  have hlimited := h.limited
  have hlength : clusterBuf.length = LegacyFat32.clusterSize fs := by
    have hkeeps := fs.disk.keeps_length _ _ _ _ hcluster
    rwa [List.length_replicate] at hkeeps
  have htake : (clusterBuf.take (min s.bytesLeft (LegacyFat32.clusterSize fs))).length =
      min s.bytesLeft (LegacyFat32.clusterSize fs) := by
    rw [List.length_take,hlength]
    omega
  have hwritten := writtenTo_splice _ _ _
    (clusterBuf.take (min s.bytesLeft (LegacyFat32.clusterSize fs))) h.written (by omega)
  rw [htake] at hwritten
  refine ⟨?_,hwritten⟩
  change s.offset+min s.bytesLeft _+(s.bytesLeft-min s.bytesLeft _) ≤ limit
  omega

theorem fat32_written (fuel : ℕ) (entry : FileEntry) (buffer buffer' : List UInt8) (count : ℕ)
    (h : LegacyFat32.readFile fs fuel entry buffer = some (.returned (.ok count),buffer')) :
    count ≤ min entry.size.toNat buffer.length ∧ WrittenTo count buffer buffer' := by
  have hmod := Nat.mod_le entry.size.toNat (2^usizeBits)
  have hstart : Limited (min entry.size.toNat buffer.length) buffer
      { cluster := BitVec.ofNat 32 entry.opaqueId.toNat,
        bytesLeft := min (entry.size.toNat%2^usizeBits) buffer.length,
        offset := 0, buffer := buffer } := by
    refine ⟨?_,writtenTo_none buffer⟩
    change 0+min _ _ ≤ _
    omega
  apply run_partial (LegacyFat32.readTurn fs) (Limited (min entry.size.toNat buffer.length) buffer)
    (fun result => result = (.returned (.ok count),buffer') → _) _ _ fuel _ _ hstart h rfl
  · intro s s' hs hgo
    exact limited_turn fs _ buffer (Nat.min_le_right _ _) s s' hs hgo
  · intro s result hs hstop hresult
    rw [hresult] at hstop
    obtain ⟨rfl,rfl⟩ := fat32_stop fs s count buffer' hstop
    exact ⟨(Nat.le_add_right _ _).trans hs.limited,hs.written⟩

end Fat32

section Ext2
variable (fs : Ext2)

theorem blockSize_pos (inodeNum : BitVec 32) (inode : Ext2Driver.Inode)
    (h : Ext2Driver.getInode fs inodeNum = .returned (.ok inode)) : 0 < fs.blockSize.toNat := by
  by_contra hzero
  have hblock : fs.blockSize = 0 := BitVec.eq_of_toNat_eq (Nat.eq_zero_of_not_pos hzero)
  have hdescriptors : fs.blockSize/32 = 0 := by
    rw [hblock]
    rfl
  unfold Ext2Driver.getInode Ext2Driver.getBgd at h
  simp only [hdescriptors,if_true,Ext2Driver.Outcome.bind] at h
  split at h
  · cases h
  · split at h <;> cases h

theorem findFile_size (path : Text) (entry : FileEntry)
    (h : Ext2Driver.findFile fs path = .returned (.ok entry)) : entry.size.toNat < 2^32 := by
  obtain ⟨current,-,hcurrent⟩ := Ext2Driver.Outcome.bind_ok _ _ entry h
  obtain ⟨inode,-,hentry⟩ := Ext2Driver.Outcome.bind_ok _ _ entry hcurrent
  cases hentry
  have hsize := inode.size.isLt
  change (UInt64.ofNat inode.size.toNat).toNat < 2^32
  rw [UInt64.toNat_ofNat']
  omega

theorem ext2_written (entry : FileEntry) (hsize : entry.size.toNat < 2^32)
    (buffer buffer' : List UInt8) (count : ℕ)
    (h : Ext2Read.readFile fs entry buffer = (.returned (.ok count),buffer')) :
    count ≤ buffer.length ∧ WrittenTo count buffer buffer' ∧
      (count ≤ entry.size.toNat ↔ asked fs buffer.length ≤ entry.size.toNat) := by
  unfold Ext2Read.readFile at h
  split at h
  · cases h
  · cases h
  · cases h
  · next inode hinode =>
    exact Ext2Read.readInodeData_count fs inode buffer buffer' count _ hsize
      (blockSize_pos fs _ inode hinode) h

end Ext2

/-- The three implementations of `FileSystem`; the device of an ISO 9660 volume reads into
a slice, which keeps its length. -/
inductive Driver where
  | ext2 (fs : Ext2)
  | iso9660 (fs : Iso9660) (keeps_length : ∀ start count buffer filled,
      fs.device.readSectors start count buffer = .ok filled → filled.length = buffer.length)
  | fat32 (usizeBits : ℕ) (fs : Fat32 usizeBits)

def Driver.Finds : Driver → Text → FileEntry → Prop
  | .ext2 fs, path, entry => Ext2Driver.findFile fs path = .returned (.ok entry)
  | .iso9660 fs _, path, entry => IsoDriver.findFile fs path = .ok entry
  | .fat32 _ fs, path, entry =>
    ∃ fuel, LegacyFat32.findFile fs fuel path = some (.returned (.ok entry))

def Driver.Reads : Driver → FileEntry → List UInt8 → ℕ → List UInt8 → Prop
  | .ext2 fs, entry, buffer, count, buffer' =>
    Ext2Read.readFile fs entry buffer = (.returned (.ok count),buffer')
  | .iso9660 fs _, entry, buffer, count, buffer' =>
    IsoRead.readFile fs entry buffer = (.ok count,buffer')
  | .fat32 _ fs, entry, buffer, count, buffer' =>
    ∃ fuel, LegacyFat32.readFile fs fuel entry buffer = some (.returned (.ok count),buffer')

/-- At most the file and at most the buffer is read, and nothing behind that is touched. -/
structure WithinFile (entry : FileEntry) (buffer : List UInt8) (count : ℕ)
    (buffer' : List UInt8) : Prop where
  count_le : count ≤ min entry.size.toNat buffer.length
  untouched : buffer'.length = buffer.length ∧ buffer'.drop count = buffer.drop count

def Driver.AsksWithin : Driver → FileEntry → List UInt8 → Prop
  | .ext2 fs, entry, buffer => asked fs buffer.length ≤ entry.size.toNat
  | _, _, _ => True

/-- A read that succeeds stays within the file and the buffer in the ISO 9660 driver and in
the older FAT32 driver, and in the ext2 driver exactly when the buffer asks for no more than
the file has. -/
theorem withinFile_iff (driver : Driver) (path : Text) (entry : FileEntry)
    (buffer : List UInt8) (count : ℕ) (buffer' : List UInt8) (hfind : driver.Finds path entry)
    (hread : driver.Reads entry buffer count buffer') :
    WithinFile entry buffer count buffer' ↔ driver.AsksWithin entry buffer := by
  cases driver with
  | ext2 fs =>
    obtain ⟨hbuffer,hwritten,hcount⟩ := ext2_written fs entry (findFile_size fs path entry hfind)
      buffer buffer' count hread
    constructor
    · intro hwithin
      exact hcount.mp (hwithin.count_le.trans (Nat.min_le_left _ _))
    · intro hasks
      exact ⟨Nat.le_min.mpr ⟨hcount.mpr hasks,hbuffer⟩,hwritten.length_eq,hwritten.behind⟩
  | iso9660 fs keeps_length =>
    obtain ⟨hcount,hwritten⟩ :=
      IsoRead.readExtent_written fs keeps_length _ _ buffer buffer' count hread
    have hmod : entry.size.toUInt32.toNat ≤ entry.size.toNat := by
      rw [UInt64.toNat_toUInt32]
      exact Nat.mod_le _ _
    have hle : count ≤ min entry.size.toNat buffer.length := by omega
    exact ⟨fun _ => trivial,fun _ => ⟨hle,hwritten.length_eq,hwritten.behind⟩⟩
  | fat32 usizeBits fs =>
    obtain ⟨fuel,hfuel⟩ := hread
    obtain ⟨hle,hwritten⟩ := fat32_written fs fuel entry buffer buffer' count hfuel
    exact ⟨fun _ => trivial,fun _ => ⟨hle,hwritten.length_eq,hwritten.behind⟩⟩

/-- The bytes other than zero of an image: the superblock, the group descriptor, the inode
of the root, that of `A`, the root directory and the two bytes of the file. -/
def noteBytes : List (ℕ × UInt8) :=
  [(1064,16),(1080,0x53),(1081,0xEF),(2056,3),
   (3200,0xED),(3201,0x41),(3205,4),(3240,5),
   (4480,0xA4),(4481,0x81),(4484,2),(4520,6),
   (5120,12),(5125,4),(5126,1),(5128,0x41),(6144,0x68),(6145,0x69)]

def noteVolume : Ext2 :=
  Ext2Driver.mounted (byteVolume fun pos => (noteBytes.lookup pos).getD 0) 0 ⟨0,16,0xEF53,0⟩

def noteEntry : FileEntry :=
  { name := [ 'A'], size := 2, fileType := .file, opaqueId := 12 }

/-- The file is found with its two bytes, and a read returns as many as the buffer holds. -/
theorem noteVolume_reads :
    Ext2Driver.superblockOf (stretch (fun pos => (noteBytes.lookup pos).getD 0) 1024 1024) =
      ⟨0,16,0xEF53,0⟩ ∧
    Ext2Driver.findFile noteVolume [ 'A'] = .returned (.ok noteEntry) ∧
    Ext2Read.readFile noteVolume noteEntry [9,9] = (.returned (.ok 2),[0x68,0x69]) ∧
    Ext2Read.readFile noteVolume noteEntry [9,9,9,9] = (.returned (.ok 4),[0x68,0x69,0,0]) := by
  decide +kernel

theorem withinFile_note :
    WithinFile noteEntry [9,9] 2 [0x68,0x69] := by
  have hasks : (Driver.ext2 noteVolume).AsksWithin noteEntry [9,9] := Nat.le_refl 2
  exact (withinFile_iff (.ext2 noteVolume) [ 'A'] noteEntry [9,9] 2 [0x68,0x69]
    noteVolume_reads.2.1 noteVolume_reads.2.2.1).mpr hasks

/-- A buffer of four bytes comes back with four from a file of two. -/
theorem note_overread :
    Ext2Driver.mount (byteVolume fun pos => (noteBytes.lookup pos).getD 0) 0 =
      .returned (.ok noteVolume) ∧
    (Driver.ext2 noteVolume).Finds [ 'A'] noteEntry ∧
    (Driver.ext2 noteVolume).Reads noteEntry [9,9,9,9] 4 [0x68,0x69,0,0] ∧
    ¬WithinFile noteEntry [9,9,9,9] 4 [0x68,0x69,0,0] := by
  refine ⟨Ext2Read.byteVolume_mount _ _ noteVolume_reads.1 rfl (by decide),
    noteVolume_reads.2.1,noteVolume_reads.2.2.2,?_⟩
  intro hwithin
  exact absurd hwithin.count_le (by decide)

end Zamak.ReadLengths
