import Zamak.Ext2Listing
import Zamak.Ext2Read
import Zamak.IsoVolume

/-! # An ext2 volume from its superblock to the bytes of a file

A volume is a set of inodes, some of them directories whose entries lead to others. On a
disk that holds one with its unused entries last, mounting it, following a path and
reading what was found gives the bytes of the blocks of the inode the path has. -/

set_option autoImplicit false

namespace Zamak.Ext2Disc
open Zamak.ConfigText Zamak.PartialSteps Zamak.Segments Zamak.PathResolution
open Zamak.Ext2Driver Zamak.Ext2Loops Zamak.Ext2Listing Zamak.Ext2Read
open Zamak.IsoDriver (Error FileEntry byteDisk_holds)
open Zamak.IsoVolume (components errorOf)

section Inodes
variable (fs : Ext2) (content : ℕ → UInt8)

def descriptorsPerBlock : BitVec 32 := fs.blockSize/32

def inodesPerBlock : BitVec 32 := fs.blockSize/128

def groupOf (n : BitVec 32) : BitVec 32 := (n-1)/fs.superblock.inodesPerGroup

def indexOf (n : BitVec 32) : BitVec 32 := (n-1)%fs.superblock.inodesPerGroup

def diskDescriptor (group : BitVec 32) : BlockGroupDescriptor :=
  descriptorAt
    (blockBytes fs content
      ((if fs.blockSize = 1024 then 2 else 1)+group/descriptorsPerBlock fs))
    ((group%descriptorsPerBlock fs).toNat*32)

def diskInode (n : BitVec 32) : Inode :=
  inodeAt
    (blockBytes fs content
      ((diskDescriptor fs content (groupOf fs n)).inodeTable+indexOf fs n/inodesPerBlock fs))
    (indexOf fs n%inodesPerBlock fs*128).toNat

variable {fs content} (hfields : FieldsSound fs.superblock)
  (hdevice : fs.device.Holds 512 content)
include hfields

theorem blockSize_large : 1024 ≤ fs.blockSize.toNat := by
  rw [blockSize_toNat fs hfields.1]
  calc 1024 = 2^10 := rfl
    _ ≤ 2^(10+fs.superblock.logBlockSize.toNat) :=
      Nat.pow_le_pow_right (by decide) (by omega)

theorem parts_ne_zero : descriptorsPerBlock fs ≠ 0 ∧ inodesPerBlock fs ≠ 0 := by
  have hlarge := blockSize_large hfields
  refine ⟨(div_ne_zero_iff fs 32).mpr ⟨by decide,?_⟩,(div_ne_zero_iff fs 128).mpr ⟨by decide,?_⟩⟩
  · change 32 ≤ _
    omega
  · change 128 ≤ _
    omega

include hdevice

theorem getInode_holds (n : BitVec 32) (hn : n ≠ 0) :
    getInode fs n = .returned (.ok (diskInode fs content n)) := by
  obtain ⟨hdescriptors,hinodes⟩ := parts_ne_zero hfields
  have hsize : actualInodeSize fs = 128 := ite_self 128
  have hbgd : getBgd fs (groupOf fs n) =
      .returned (.ok (diskDescriptor fs content (groupOf fs n))) := by
    unfold getBgd
    rw [descriptorsPerBlock] at hdescriptors
    simp only [if_neg hdescriptors,readBlock_holds fs content hdevice]
    rfl
  rw [groupOf] at hbgd
  unfold getInode
  rw [inodesPerBlock] at hinodes
  simp only [if_neg hn,if_neg hfields.2,hbgd,Outcome.bind,hsize,if_neg hinodes,
    readBlock_holds fs content hdevice]
  rfl

end Inodes

/-! ## What a volume holds -/

structure Volume where
  inode : BitVec 32 → Option Inode
  listing : BitVec 32 → List (List DirectoryEntry)
  root_present : ∃ dir, inode 2 = some dir
  closed : ∀ n dir, inode n = some dir → isDirectory dir = true → ∀ entries ∈ listing n,
    ∀ entry ∈ entries, used entry = true → ∃ inner, inode entry.inode = some inner

/-- An entry answers its name where it is the first one in use to have it. -/
def Volume.directories (v : Volume) : Directories (BitVec 32) (List (List DirectoryEntry)) Text where
  inside n := (v.inode n).bind fun inode =>
    if isDirectory inode = true then some (v.listing n) else none
  answer blocks name := (firstLive name blocks).map DirectoryEntry.inode

/-- A volume on a disk: its inodes at their places, its directories tiled by their entries,
the unused ones last in each block. -/
structure Holds (fs : Ext2) (content : ℕ → UInt8) (v : Volume) : Prop where
  inodes : ∀ n inode, v.inode n = some inode → n ≠ 0 ∧ diskInode fs content n = inode
  layout : ∀ n dir, v.inode n = some dir → isDirectory dir = true → Layout fs dir (v.listing n)
  unused_last : ∀ n dir, v.inode n = some dir → isDirectory dir = true →
    ∀ entries ∈ v.listing n, entries.takeWhile used = entries.filter used

theorem firstReachable_eq (name : Text) (blocks : List (List DirectoryEntry))
    (h : ∀ entries ∈ blocks, entries.takeWhile used = entries.filter used) :
    firstReachable name blocks = firstLive name blocks := by
  have hsame : (blocks.flatMap fun entries => entries.takeWhile used) =
      blocks.flatMap fun entries => entries.filter used := List.flatMap_congr h
  rw [firstReachable,firstLive,hsame]

theorem firstLive_mem {name : Text} {blocks : List (List DirectoryEntry)} {entry : DirectoryEntry}
    (h : firstLive name blocks = some entry) :
    ∃ entries ∈ blocks, entry ∈ entries ∧ used entry = true := by
  obtain ⟨entries,hentries,hmem⟩ := List.mem_flatMap.mp (List.mem_of_find?_eq_some h)
  exact ⟨entries,hentries,List.mem_of_mem_filter hmem,(List.mem_filter.mp hmem).2⟩

section Walk
variable {fs : Ext2} {content : ℕ → UInt8} {v : Volume}
variable (hfields : FieldsSound fs.superblock) (hdevice : fs.device.Holds 512 content)
variable (hholds : Holds fs content v)

def reached (v : Volume) (current : BitVec 32) (names : List Text) : Outcome (BitVec 32) :=
  .returned ((resolve v.directories current names).mapError errorOf)

theorem findParts_filter (parts : List Text) (current : BitVec 32) :
    findParts fs parts current = findParts fs (parts.filter (· ≠ [])) current := by
  induction parts generalizing current with
  | nil => rfl
  | cons part parts ih =>
    rw [findParts]
    by_cases hnil : part = []
    · rw [if_pos hnil,ih,List.filter_cons_of_neg (by simp [hnil])]
    · rw [if_neg hnil,List.filter_cons_of_pos (by simp [hnil]),findParts,if_neg hnil]
      have hrest : findParts fs parts = findParts fs (parts.filter (· ≠ [])) := funext ih
      rw [hrest]

include hfields hdevice hholds

theorem getInode_volume (n : BitVec 32) (inode : Inode) (h : v.inode n = some inode) :
    getInode fs n = .returned (.ok inode) := by
  obtain ⟨hn,hdisk⟩ := hholds.inodes n inode h
  rw [getInode_holds hfields hdevice n hn,hdisk]

theorem findParts_resolves (names : List Text) (hnames : ∀ name ∈ names, name ≠ [])
    (current : BitVec 32) (inode : Inode) (hcurrent : v.inode current = some inode) :
    findParts fs names current = reached v current names ∧
      ∀ n, resolve v.directories current names = .ok n → ∃ inner, v.inode n = some inner := by
  induction names generalizing current inode with
  | nil =>
    refine ⟨rfl,?_⟩
    intro n hn
    cases hn
    exact ⟨inode,hcurrent⟩
  | cons name names ih =>
    have hinside : v.directories.inside current =
        if isDirectory inode = true then some (v.listing current) else none := by
      change (v.inode current).bind _ = _
      rw [hcurrent]
      rfl
    rw [findParts,if_neg (hnames name List.mem_cons_self),
      getInode_volume hfields hdevice hholds current inode hcurrent]
    simp only [Outcome.bind]
    by_cases hdir : isDirectory inode = true
    · rw [if_pos hdir] at hinside ⊢
      have hfind : findInDir fs inode name = answer (firstLive name (v.listing current)) := by
        rw [findInDir_layout fs inode name _ (hholds.layout current inode hcurrent hdir),
          firstReachable_eq name _ (hholds.unused_last current inode hcurrent hdir)]
      rw [hfind,reached]
      cases hlive : firstLive name (v.listing current) with
      | none =>
        have hanswer : v.directories.answer (v.listing current) name = none :=
          congrArg (Option.map DirectoryEntry.inode) hlive
        rw [resolve_missing v.directories current _ name names hinside hanswer]
        refine ⟨rfl,fun n hn => ?_⟩
        cases hn
      | some entry =>
        have hanswer : v.directories.answer (v.listing current) name = some entry.inode :=
          congrArg (Option.map DirectoryEntry.inode) hlive
        obtain ⟨entries,hentries,hmem,hused⟩ := firstLive_mem hlive
        obtain ⟨inner,hinner⟩ := v.closed current inode hcurrent hdir entries hentries entry hmem
          hused
        rw [resolve_next v.directories current entry.inode _ name names hinside hanswer]
        exact ih (fun other ho => hnames other (List.mem_cons_of_mem name ho)) entry.inode inner
          hinner
    · rw [if_neg hdir] at hinside ⊢
      rw [reached,resolve_blocked v.directories current name names hinside]
      refine ⟨rfl,fun n hn => ?_⟩
      cases hn

end Walk

section Read
variable {fs : Ext2} {content : ℕ → UInt8} {inode : Inode}

/-- A read from the start fills the buffer, up to the end of the single indirect block. -/
theorem readInodeData_start (hfields : FieldsSound fs.superblock)
    (hdevice : fs.device.Holds 512 content) (buffer : List UInt8)
    (hreach : buffer.length ≤ (12+fs.blockSize.toNat/4)*fs.blockSize.toNat)
    (hfits : buffer.length < 2^32) :
    readInodeData fs inode 0 buffer =
      (.returned (.ok buffer.length),stretch (fileByte fs content inode) 0 buffer.length) := by
  have hpos : 0 < fs.blockSize.toNat := Nat.lt_of_lt_of_le (by decide) (blockSize_large hfields)
  have hzero : (0 : BitVec 32).toNat = 0 := rfl
  have hreach' : (0 : BitVec 32).toNat+buffer.length ≤
      (12+fs.blockSize.toNat/4)*fs.blockSize.toNat := by omega
  have hfits' : (0 : BitVec 32).toNat+buffer.length < 2^32 := by omega
  have hturn := copied_turn fs content inode hdevice hpos 0 buffer hreach' hfits'
  have hend := endOffset_fits 0 buffer.length hfits'
  refine run_partial (readTurn fs inode (0+BitVec.ofNat 32 buffer.length))
    (Copied fs content inode 0 buffer) (fun result => result = _) ?_ ?_ _ _ _
    ⟨Nat.zero_le _,rfl,(fill_zero _ _ _).symm⟩ (readInodeData_run fs inode 0 buffer)
  · intro s s' hs hgo
    have hlength := copied_length fs content inode 0 buffer s hs
    have hadv := readTurn_go fs inode _ s s' hgo
    rw [hturn s hs (hlength ▸ hadv.room)] at hgo
    cases hgo
    apply copied_advance fs content inode 0 buffer s _ hs hfits'
    rw [← hlength]
    exact bytesToRead_room fs s hadv.room
  · intro s result hs hstop
    -- short of the end of the buffer, a turn goes on
    have hfull : s.bytesRead = buffer.length := by
      refine Nat.le_antisymm hs.within (Nat.le_of_not_lt fun hless => ?_)
      rw [hturn s hs hless] at hstop
      cases hstop
    have hguard : ¬(s.currentOffset.toNat < (0+BitVec.ofNat 32 buffer.length).toNat ∧
        s.bytesRead < s.buffer.length) := by
      have hplace := hs.place
      omega
    rw [readTurn,if_neg hguard] at hstop
    cases hstop
    rw [hs.bytes,hfull,fill_eq,List.drop_length,List.append_nil,hzero]

end Read

/-! ## From the disk to a file -/

section Disk
variable {device : SectorDisk} {lbaStart : BitVec 64} {content : ℕ → UInt8}
variable {superblock : Superblock} {v : Volume}

theorem mount_superblock (hdevice : device.Holds 512 content)
    (hsuper : superblockOf (stretch content ((lbaStart+2).toNat*512) 1024) = superblock)
    (hmagic : superblock.magic = 0xEF53#16) (hfields : FieldsSound superblock) :
    mount device lbaStart = .returned (.ok (mounted device lbaStart superblock)) := by
  have hshift := hfields.1
  have hread := hdevice (lbaStart+2).toNat 2 (List.replicate 1024 0) List.length_replicate
  unfold mount
  rw [hread]
  simp only [hsuper,hmagic,ne_eq,not_true_eq_false,if_false]
  rw [if_neg (by omega)]

end Disk

/-! ## A small disk -/

section Example

def blockOf (bytes : List UInt8) : List UInt8 := (bytes++List.replicate 1024 0).take 1024

theorem blockOf_length (bytes : List UInt8) : (blockOf bytes).length = 1024 := by
  rw [blockOf,List.length_take,List.length_append,List.length_replicate]
  omega

/-- The superblock, a group descriptor, two blocks of inodes, the root directory and a file
of two bytes. -/
def smallBlocks : List (List UInt8) :=
  [[],List.replicate 40 0++[16]++List.replicate 15 0++[0x53,0xEF],List.replicate 8 0++[3],
    List.replicate 128 0++[0xED,0x41,0,0,0,4,0,0]++List.replicate 32 0++[5],
    List.replicate 384 0++[0xA4,0x81,0,0,2,0,0,0]++List.replicate 32 0++[6],
    [12,0,0,0,0,4,1,1,0x41],[0xAB,0xCD]].map blockOf

def smallContent : ℕ → UInt8 := stored 0 smallBlocks.flatten

theorem smallContent_block (i : ℕ) (block : List UInt8) (hi : smallBlocks[i]? = some block) :
    stretch smallContent (i*1024) 1024 = block := by
  apply stretch_block 0 smallBlocks 1024 i block _ hi
  intro b hb
  obtain ⟨bytes,-,rfl⟩ := List.mem_map.mp hb
  exact blockOf_length bytes

def smallSuperblock : Superblock := ⟨0,16,0xEF53,0⟩

def smallFs : Ext2 := mounted (byteVolume smallContent) 0 smallSuperblock

def smallRoot : Inode := ⟨0x41ED,1024,5::List.replicate 14 0,rfl⟩

def smallFile : Inode := ⟨0x81A4,2,6::List.replicate 14 0,rfl⟩

def smallVolume : Volume where
  inode n := if n = 2 then some smallRoot else if n = 12 then some smallFile else none
  listing _ := [[⟨12,[0x41]⟩]]
  root_present := ⟨smallRoot,rfl⟩
  closed := by
    intro n dir _ _ entries hentries entry hentry _
    cases List.mem_singleton.mp hentries
    cases List.mem_singleton.mp hentry
    exact ⟨smallFile,rfl⟩

theorem smallFs_block (i : ℕ) (hi : i < 7) (block : List UInt8)
    (hblock : smallBlocks[i]? = some block) :
    blockBytes smallFs smallContent (BitVec.ofNat 32 i) = block := by
  have haddress : blockAddress smallFs (BitVec.ofNat 32 i) = i*1024 := by
    have hnumber : (BitVec.ofNat 32 i).toNat = i := Nat.mod_eq_of_lt (by omega)
    have hsectors : smallFs.blockSize.toNat/512 = 2 := rfl
    have hstart : smallFs.lbaStart.toNat = 0 := rfl
    rw [blockAddress,hnumber,hsectors,hstart]
    omega
  rw [blockBytes,haddress]
  exact smallContent_block i block hblock

theorem smallEntry_tiled :
    Tiled (blockOf [12,0,0,0,0,4,1,1,0x41]) 0 [⟨12,[0x41]⟩] := by
  have hentry : entryAt (blockOf [12,0,0,0,0,4,1,1,0x41]) 0 = ⟨12,[0x41]⟩ := by decide +kernel
  have hheader : headerAt (blockOf [12,0,0,0,0,4,1,1,0x41]) 0 = ⟨12,1024,1⟩ := by decide +kernel
  have hend : 0+(headerAt (blockOf [12,0,0,0,0,4,1,1,0x41]) 0).recLen.toNat =
      (blockOf [12,0,0,0,0,4,1,1,0x41]).length := by
    rw [hheader,blockOf_length]
    rfl
  rw [← hentry]
  apply Tiled.entry
  · rw [hheader]
    decide
  · rw [hheader]
    decide
  · rw [hend]
    exact Tiled.full

theorem small_holds : Holds smallFs smallContent smallVolume where
  inodes := by
    intro n inode h
    have hdescriptor := smallFs_block 2 (by decide) _ rfl
    have hfirst := smallFs_block 3 (by decide) _ rfl
    have hsecond := smallFs_block 4 (by decide) _ rfl
    have hgroup : ∀ group, group/descriptorsPerBlock smallFs = 0 →
        group%descriptorsPerBlock smallFs = 0 →
        (diskDescriptor smallFs smallContent group).inodeTable = 3 := by
      intro group hdiv hmod
      rw [diskDescriptor,hdiv,hmod]
      have hplace : (if smallFs.blockSize = 1024 then (2 : BitVec 32) else 1)+0 = 2#32 := rfl
      rw [hplace,hdescriptor]
      decide +kernel
    change (if n = 2 then _ else _) = _ at h
    split at h
    · next hn =>
      subst hn
      cases h
      refine ⟨by decide,?_⟩
      have htable := hgroup (groupOf smallFs 2) (by decide) (by decide)
      have hblock : 3+indexOf smallFs 2/inodesPerBlock smallFs = BitVec.ofNat 32 3 := by decide
      rw [diskInode,htable,hblock,hfirst]
      decide +kernel
    · split at h
      · next hn =>
        subst hn
        cases h
        refine ⟨by decide,?_⟩
        have htable := hgroup (groupOf smallFs 12) (by decide) (by decide)
        have hblock : 3+indexOf smallFs 12/inodesPerBlock smallFs = BitVec.ofNat 32 4 := by decide
        rw [diskInode,htable,hblock,hsecond]
        decide +kernel
      · cases h
  layout := by
    intro n dir h hdir
    have hroot : dir = smallRoot := by
      change (if n = 2 then _ else if n = 12 then _ else _) = _ at h
      split_ifs at h
      · exact (Option.some.inj h).symm
      · cases h
        cases hdir
    rw [hroot]
    have hread := readBlock_holds smallFs smallContent (byteDisk_holds 512 smallContent) 5
    have hblock := smallFs_block 5 (by decide) _ rfl
    have hcount : (smallVolume.listing n).length = 1 := rfl
    have htotal : smallRoot.size.toNat = 1024 := rfl
    have hbytes : smallFs.blockSize.toNat = 1024 := rfl
    refine ⟨by omega,by rw [hcount,htotal,hbytes],?_⟩
    intro i entries hi
    cases i with
    | zero =>
      cases hi
      exact Or.inr ⟨by decide,_,hread,hblock ▸ smallEntry_tiled⟩
    | succ i => cases hi
  unused_last := by
    intro n dir _ _ entries hentries
    cases List.mem_singleton.mp hentries
    rfl

end Example

end Zamak.Ext2Disc
