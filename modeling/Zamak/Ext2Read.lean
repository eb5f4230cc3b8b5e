import Zamak.Ext2Loops

/-! # Reading a file of an ext2 volume

`read_inode_data` goes block by block from an offset to the end of the buffer: the twelve
blocks an inode names itself, then those its indirect block names. A pointer of zero is a
hole. The driver does not look at the size of the file. -/

set_option autoImplicit false

namespace Zamak.Ext2Read
open Zamak.PartialSteps Zamak.WindowSearch Zamak.Segments Zamak.Ext2Driver
open Zamak.IsoDriver (Error FileEntry BlockDevice byteDisk byteDisk_holds)
open Zamak.Fat32Image (readU32Le)

structure Reading where
  currentOffset : BitVec 32
  bytesRead : ℕ
  buffer : List UInt8

def Reading.advance (s : Reading) (bytesToRead : ℕ) (bytes : List UInt8) : Reading where
  currentOffset := s.currentOffset+BitVec.ofNat 32 bytesToRead
  bytesRead := s.bytesRead+bytesToRead
  buffer := splice s.buffer s.bytesRead bytes

section Driver
variable (fs : Ext2) (inode : Inode)

def realBlock (blockIdx : ℕ) : Except Error (BitVec 32) :=
  let ptrsPerBlock := fs.blockSize.toNat/4
  if blockIdx < 12 then .ok (inode.block.getD blockIdx 0)
  else if blockIdx < 12+ptrsPerBlock then
    let indirectIdx := blockIdx-12
    if inode.block.getD 12 0 = 0 then .ok 0
    else
      match readBlock fs (inode.block.getD 12 0) (zeroBlock fs) with
      | .error error => .error error
      | .ok indBuf => .ok (readU32Le indBuf (4*indirectIdx))
  -- Blocks behind a double indirect one.
  else .error .ioError

def readTurn (endOffset : BitVec 32) (s : Reading) : Turn Reading (Outcome ℕ × List UInt8) :=
  if s.currentOffset.toNat < endOffset.toNat ∧ s.bytesRead < s.buffer.length then
    if fs.blockSize.toNat = 0 then .stop (.fault .division,s.buffer)
    else
      let blockIdx := s.currentOffset.toNat/fs.blockSize.toNat
      let blockOffset := s.currentOffset.toNat%fs.blockSize.toNat
      match realBlock fs inode blockIdx with
      | .error error => .stop (.returned (.error error),s.buffer)
      | .ok block =>
        let bytesToRead := min (fs.blockSize.toNat-blockOffset) (s.buffer.length-s.bytesRead)
        if block = 0 then .go (s.advance bytesToRead (List.replicate bytesToRead 0))
        else
          match readBlock fs block (zeroBlock fs) with
          | .error error => .stop (.returned (.error error),s.buffer)
          | .ok blockBuf =>
            .go (s.advance bytesToRead ((blockBuf.drop blockOffset).take bytesToRead))
  else .stop (.returned (.ok s.bytesRead),s.buffer)

/-- The length of the buffer is cut to a `u32` and the end wraps. Every turn reads a byte
at least. -/
def readInodeData (offset : BitVec 32) (buffer : List UInt8) : Outcome ℕ × List UInt8 :=
  let endOffset := offset+BitVec.ofNat 32 buffer.length
  (run (readTurn fs inode endOffset) (buffer.length+1)
    { currentOffset := offset, bytesRead := 0, buffer := buffer }).getD (.endless,buffer)

def readFile (entry : FileEntry) (buffer : List UInt8) : Outcome ℕ × List UInt8 :=
  match getInode fs (BitVec.ofNat 32 entry.opaqueId.toNat) with
  | .fault kind => (.fault kind,buffer)
  | .endless => (.endless,buffer)
  | .returned (.error error) => (.returned (.error error),buffer)
  | .returned (.ok inode) => readInodeData fs inode 0 buffer

def bytesToRead (s : Reading) : ℕ :=
  min (fs.blockSize.toNat-s.currentOffset.toNat%fs.blockSize.toNat) (s.buffer.length-s.bytesRead)

/-- A turn that goes on reads the rest of a block, or what is left of the buffer. -/
structure Advances (endOffset : BitVec 32) (s s' : Reading) : Prop where
  before : s.currentOffset.toNat < endOffset.toNat
  room : s.bytesRead < s.buffer.length
  blocks : 0 < fs.blockSize.toNat
  next : ∃ bytes, bytes.length = bytesToRead fs s ∧ s' = s.advance (bytesToRead fs s) bytes

theorem readTurn_go (endOffset : BitVec 32) (s s' : Reading)
    (h : readTurn fs inode endOffset s = .go s') : Advances fs endOffset s s' := by
  unfold readTurn at h
  split at h
  · next hguard =>
    split at h
    · cases h
    · next hzero =>
      have hpos : 0 < fs.blockSize.toNat := Nat.pos_of_ne_zero hzero
      simp only at h
      split at h
      · cases h
      · next block hblock =>
        split at h
        · cases h
          exact ⟨hguard.1,hguard.2,hpos,_,List.length_replicate,rfl⟩
        · split at h
          · cases h
          · next blockBuf hread =>
            cases h
            refine ⟨hguard.1,hguard.2,hpos,_,?_,rfl⟩
            rw [List.length_take,List.length_drop,readBlock_length fs block blockBuf hread]
            exact Nat.min_eq_left (Nat.min_le_left _ _)
  · cases h

/-- A loop that returns a count has come to the end, and the count is what it has read. -/
theorem readTurn_stop (endOffset : BitVec 32) (s : Reading) (count : ℕ) (buffer : List UInt8)
    (h : readTurn fs inode endOffset s = .stop (.returned (.ok count),buffer)) :
    ¬(s.currentOffset.toNat < endOffset.toNat ∧ s.bytesRead < s.buffer.length) ∧
      count = s.bytesRead ∧ buffer = s.buffer := by
  unfold readTurn at h
  split at h
  · split at h
    · cases h
    · simp only at h
      split at h
      · cases h
      · split at h
        · cases h
        · split at h
          · cases h
          · cases h
  · next hguard =>
    cases h
    exact ⟨hguard,rfl,rfl⟩

theorem bytesToRead_pos (s : Reading) (hpos : 0 < fs.blockSize.toNat)
    (hroom : s.bytesRead < s.buffer.length) : 0 < bytesToRead fs s := by
  have hmod := Nat.mod_lt s.currentOffset.toNat hpos
  rw [bytesToRead,Nat.lt_min]
  omega

theorem bytesToRead_room (s : Reading) (hroom : s.bytesRead < s.buffer.length) :
    s.bytesRead+bytesToRead fs s ≤ s.buffer.length := by
  have hle : bytesToRead fs s ≤ s.buffer.length-s.bytesRead := Nat.min_le_right _ _
  omega

theorem readTurn_progress (endOffset : BitVec 32) (s s' : Reading)
    (h : Advances fs endOffset s s') :
    s'.buffer.length = s.buffer.length ∧
      s'.buffer.length-s'.bytesRead < s.buffer.length-s.bytesRead := by
  obtain ⟨bytes,hbytes,rfl⟩ := h.next
  have hpos := bytesToRead_pos fs s h.blocks h.room
  have hroom := bytesToRead_room fs s h.room
  have hlength : (splice s.buffer s.bytesRead bytes).length = s.buffer.length :=
    splice_length _ _ _ (by rw [hbytes]; exact hroom)
  have hless := h.room
  refine ⟨hlength,?_⟩
  change (splice s.buffer s.bytesRead bytes).length-(s.bytesRead+bytesToRead fs s) < _
  omega

theorem readInodeData_run (offset : BitVec 32) (buffer : List UInt8) :
    run (readTurn fs inode (offset+BitVec.ofNat 32 buffer.length)) (buffer.length+1)
      { currentOffset := offset, bytesRead := 0, buffer := buffer } =
        some (readInodeData fs inode offset buffer) := by
  obtain ⟨result,hrun⟩ := run_total (readTurn fs inode (offset+BitVec.ofNat 32 buffer.length))
    (fun _ => True) (fun s => s.buffer.length-s.bytesRead)
    (fun s s' _ hgo => ⟨trivial,(readTurn_progress fs _ s s' (readTurn_go fs inode _ s s' hgo)).2⟩)
    (buffer.length+1) { currentOffset := offset, bytesRead := 0, buffer := buffer } trivial
    (Nat.lt_succ_self _)
  rw [readInodeData,hrun,Option.getD_some]

end Driver

section Logical
variable (fs : Ext2) (content : ℕ → UInt8) (inode : Inode)

def blockAddress (block : BitVec 32) : ℕ :=
  (fs.lbaStart.toNat+block.toNat*(fs.blockSize.toNat/512))%2^64*512

def blockBytes (block : BitVec 32) : List UInt8 :=
  stretch content (blockAddress fs block) fs.blockSize.toNat

/-- The block that holds a part of a file, or zero where the file has a hole. -/
def blockPointer (blockIdx : ℕ) : BitVec 32 :=
  if blockIdx < 12 then inode.block.getD blockIdx 0
  else if inode.block.getD 12 0 = 0 then 0
  else readU32Le (blockBytes fs content (inode.block.getD 12 0)) (4*(blockIdx-12))

def fileByte (pos : ℕ) : UInt8 :=
  let block := blockPointer fs content inode (pos/fs.blockSize.toNat)
  if block = 0 then 0 else content (blockAddress fs block+pos%fs.blockSize.toNat)

theorem readBlock_holds (hdevice : fs.device.Holds 512 content) (block : BitVec 32) :
    readBlock fs block (zeroBlock fs) = .ok (blockBytes fs content block) := by
  have hlength : (zeroBlock fs).length = fs.blockSize.toNat/512*512 := by
    rw [zeroBlock,List.length_replicate,sectors_whole]
  have hread := hdevice ((fs.lbaStart.toNat+block.toNat*(fs.blockSize.toNat/512))%2^64)
    (fs.blockSize.toNat/512) (zeroBlock fs) hlength
  rw [sectors_whole] at hread
  exact hread

theorem realBlock_holds (hdevice : fs.device.Holds 512 content) (blockIdx : ℕ)
    (h : blockIdx < 12+fs.blockSize.toNat/4) :
    realBlock fs inode blockIdx = .ok (blockPointer fs content inode blockIdx) := by
  unfold realBlock blockPointer
  simp only [readBlock_holds fs content hdevice]
  split
  · rfl
  · split <;> rfl

theorem place_in_block (pos size k : ℕ) (hk : k < size-pos%size) :
    (pos+k)/size = pos/size ∧ (pos+k)%size = pos%size+k := by
  have hpos : 0 < size := by omega
  have hsplit := Nat.div_add_mod pos size
  have hplace : pos+k = pos%size+k+size*(pos/size) := by omega
  constructor
  · rw [hplace,Nat.add_mul_div_left _ _ hpos,Nat.div_eq_of_lt (by omega),Nat.zero_add]
  · rw [hplace,Nat.add_mul_mod_self_left,Nat.mod_eq_of_lt (by omega)]

theorem readTurn_holds (hdevice : fs.device.Holds 512 content) (endOffset : BitVec 32)
    (s : Reading) (hbefore : s.currentOffset.toNat < endOffset.toNat)
    (hroom : s.bytesRead < s.buffer.length) (hpos : 0 < fs.blockSize.toNat)
    (hreach : s.currentOffset.toNat < (12+fs.blockSize.toNat/4)*fs.blockSize.toNat) :
    readTurn fs inode endOffset s = .go (s.advance (bytesToRead fs s)
      (stretch (fileByte fs content inode) s.currentOffset.toNat (bytesToRead fs s))) := by
  have hidx : s.currentOffset.toNat/fs.blockSize.toNat < 12+fs.blockSize.toNat/4 :=
    (Nat.div_lt_iff_lt_mul hpos).mpr hreach
  have hcount : bytesToRead fs s ≤
      fs.blockSize.toNat-s.currentOffset.toNat%fs.blockSize.toNat := Nat.min_le_left _ _
  have hmod := Nat.mod_lt s.currentOffset.toNat hpos
  have hbytes : ∀ k < bytesToRead fs s, fileByte fs content inode (s.currentOffset.toNat+k) =
      if blockPointer fs content inode (s.currentOffset.toNat/fs.blockSize.toNat) = 0 then 0
      else content (blockAddress fs
        (blockPointer fs content inode (s.currentOffset.toNat/fs.blockSize.toNat))+
          s.currentOffset.toNat%fs.blockSize.toNat+k) := by
    intro k hk
    have hplace := place_in_block s.currentOffset.toNat fs.blockSize.toNat k (by omega)
    rw [fileByte,hplace.1,hplace.2,Nat.add_assoc]
  unfold readTurn
  simp only [hbefore,hroom,and_self,if_true,if_neg hpos.ne',
    realBlock_holds fs content inode hdevice _ hidx,readBlock_holds fs content hdevice]
  split
  · next hzero =>
    simp only [hzero,if_true] at hbytes
    rw [← bytesToRead,stretch,List.map_congr_left (fun k hk => hbytes k (List.mem_range.mp hk)),
      List.map_const',List.length_range]
  · next hblock =>
    simp only [hblock,if_false] at hbytes
    rw [← bytesToRead,blockBytes,stretch_window _ _ _ _ _ (by omega),
      stretch_congr _ _ _ _ _ (fun k hk => (hbytes k hk).symm)]

/-- Behind every turn the buffer starts with the bytes of the file from the offset on. -/
structure Copied (offset : BitVec 32) (buffer : List UInt8) (s : Reading) : Prop where
  within : s.bytesRead ≤ buffer.length
  place : s.currentOffset.toNat = offset.toNat+s.bytesRead
  bytes : s.buffer = fill (fileByte fs content inode) offset.toNat s.bytesRead buffer

theorem copied_length (offset : BitVec 32) (buffer : List UInt8) (s : Reading)
    (h : Copied fs content inode offset buffer s) : s.buffer.length = buffer.length := by
  rw [h.bytes,fill_length _ _ _ _ h.within]

theorem copied_advance (offset : BitVec 32) (buffer : List UInt8) (s : Reading) (count : ℕ)
    (h : Copied fs content inode offset buffer s) (hfits : offset.toNat+buffer.length < 2^32)
    (hcount : s.bytesRead+count ≤ buffer.length) :
    Copied fs content inode offset buffer (s.advance count
      (stretch (fileByte fs content inode) s.currentOffset.toNat count)) where
  within := hcount
  place := by
    have hplace := h.place
    simp only [Reading.advance,BitVec.toNat_add,BitVec.toNat_ofNat]
    rw [Nat.mod_eq_of_lt (show count < 2^32 by omega),Nat.mod_eq_of_lt (by omega)]
    omega
  bytes := by
    simp only [Reading.advance]
    rw [h.bytes,h.place,splice_fill _ _ _ _ _ h.within]

theorem endOffset_fits (offset : BitVec 32) (length : ℕ) (hfits : offset.toNat+length < 2^32) :
    (offset+BitVec.ofNat 32 length).toNat = offset.toNat+length := by
  rw [BitVec.toNat_add,BitVec.toNat_ofNat,Nat.mod_eq_of_lt (show length < 2^32 by omega),
    Nat.mod_eq_of_lt hfits]

/-- While there is room in the buffer, a turn copies the next bytes of the file. -/
theorem copied_turn (hdevice : fs.device.Holds 512 content) (hpos : 0 < fs.blockSize.toNat)
    (offset : BitVec 32) (buffer : List UInt8)
    (hreach : offset.toNat+buffer.length ≤ (12+fs.blockSize.toNat/4)*fs.blockSize.toNat)
    (hfits : offset.toNat+buffer.length < 2^32) (s : Reading)
    (hs : Copied fs content inode offset buffer s) (hless : s.bytesRead < buffer.length) :
    readTurn fs inode (offset+BitVec.ofNat 32 buffer.length) s =
      .go (s.advance (bytesToRead fs s)
        (stretch (fileByte fs content inode) s.currentOffset.toNat (bytesToRead fs s))) := by
  have hend := endOffset_fits offset buffer.length hfits
  have hplace := hs.place
  apply readTurn_holds fs content inode hdevice _ s (by omega) _ hpos (by omega)
  rw [copied_length fs content inode offset buffer s hs]
  exact hless

/-- Up to the end of the single indirect block, a read fills the buffer with the bytes of
the logical file. -/
theorem readInodeData_logical (hdevice : fs.device.Holds 512 content)
    (hsize : ∃ k, fs.blockSize.toNat = 1024*2^k) (offset : BitVec 32) (buffer : List UInt8)
    (hreach : offset.toNat+buffer.length ≤ (12+fs.blockSize.toNat/4)*fs.blockSize.toNat)
    (hfits : offset.toNat+buffer.length < 2^32) :
    readInodeData fs inode offset buffer =
      (.returned (.ok buffer.length),
        (List.range buffer.length).map fun k => fileByte fs content inode (offset.toNat+k)) := by
  have hpos : 0 < fs.blockSize.toNat := by
    obtain ⟨k,hk⟩ := hsize
    have := Nat.two_pow_pos k
    omega
  have hend := endOffset_fits offset buffer.length hfits
  have hturn := copied_turn fs content inode hdevice hpos offset buffer hreach hfits
  have hstart : Copied fs content inode offset buffer
      { currentOffset := offset, bytesRead := 0, buffer := buffer } :=
    ⟨Nat.zero_le _,rfl,(fill_zero _ _ _).symm⟩
  have hrun := readInodeData_run fs inode offset buffer
  apply run_partial (readTurn fs inode (offset+BitVec.ofNat 32 buffer.length))
    (Copied fs content inode offset buffer) (fun result => result = _) _ _ _ _ _ hstart hrun
  · intro s s' hs hgo
    have hadv := readTurn_go fs inode _ s s' hgo
    have hlength := copied_length fs content inode offset buffer s hs
    have hless : s.bytesRead < buffer.length := hlength ▸ hadv.room
    rw [hturn s hs hless] at hgo
    cases hgo
    apply copied_advance fs content inode offset buffer s _ hs hfits
    rw [← hlength]
    exact bytesToRead_room fs s hadv.room
  · intro s result hs hstop
    -- A copied state stops only at the end of the buffer.
    have hfull : s.bytesRead = buffer.length := by
      by_contra hne
      have hwithin := hs.within
      rw [hturn s hs (by omega)] at hstop
      cases hstop
    have hlength := copied_length fs content inode offset buffer s hs
    have hguard : ¬(s.currentOffset.toNat < (offset+BitVec.ofNat 32 buffer.length).toNat ∧
        s.bytesRead < s.buffer.length) := by
      omega
    rw [readTurn,if_neg hguard] at hstop
    cases hstop
    rw [hs.bytes,hfull,fill_eq,List.drop_length,List.append_nil,stretch]

end Logical

section Counts
variable (fs : Ext2) (inode : Inode)

/-- The bytes a read asks for: those of the buffer, or from 2^32 bytes on as many whole
blocks as cover what a `u32` keeps of its length. -/
def asked (length : ℕ) : ℕ :=
  if length < 2^32 then length
  else (length%2^32+(fs.blockSize.toNat-1))/fs.blockSize.toNat*fs.blockSize.toNat

theorem blockSize_dvd (hpos : 0 < fs.blockSize.toNat) : fs.blockSize.toNat ∣ 2^32 := by
  have hlog := (blockSize_pos_iff fs).mp hpos
  rw [blockSize_toNat fs hlog]
  exact Nat.pow_dvd_pow 2 (by omega)

theorem asked_short (length : ℕ) (h : length < 2^32) : asked fs length = length := if_pos h

/-- From 2^32 bytes on, whole blocks that cover the end of the read are asked for. -/
theorem asked_covers (length : ℕ) (hlong : 2^32 ≤ length) (hpos : 0 < fs.blockSize.toNat) :
    length%2^32 ≤ asked fs length ∧ fs.blockSize.toNat ∣ asked fs length := by
  rw [asked,if_neg (Nat.not_lt.mpr hlong)]
  refine ⟨?_,Nat.dvd_mul_left _ _⟩
  have hdiv := Nat.div_add_mod (length%2^32+(fs.blockSize.toNat-1)) fs.blockSize.toNat
  have hmod := Nat.mod_lt (length%2^32+(fs.blockSize.toNat-1)) hpos
  rw [Nat.mul_comm] at hdiv
  omega

theorem asked_le (length n : ℕ) (hlong : 2^32 ≤ length) (hpos : 0 < fs.blockSize.toNat)
    (hdvd : fs.blockSize.toNat ∣ n) (hcovers : length%2^32 ≤ n) : asked fs length ≤ n := by
  rw [asked,if_neg (Nat.not_lt.mpr hlong)]
  obtain ⟨blocks,rfl⟩ := hdvd
  rw [Nat.mul_comm _ blocks] at hcovers ⊢
  apply Nat.mul_le_mul_right
  apply Nat.le_of_lt_succ
  rw [Nat.div_lt_iff_lt_mul hpos,Nat.succ_mul]
  omega

theorem endOffset_toNat (length : ℕ) :
    (0+BitVec.ofNat 32 length : BitVec 32).toNat = length%2^32 := by
  have hzero : (0 : BitVec 32).toNat = 0 := rfl
  rw [BitVec.toNat_add,BitVec.toNat_ofNat,hzero,Nat.zero_add,Nat.mod_mod]

/-- What the loop from offset zero has read: whole blocks, or all there is room for. -/
structure Counted (buffer : List UInt8) (s : Reading) : Prop where
  written : WrittenTo s.bytesRead buffer s.buffer
  within : s.bytesRead ≤ buffer.length
  place : s.currentOffset.toNat = s.bytesRead%2^32
  whole : fs.blockSize.toNat ∣ s.bytesRead ∨ s.bytesRead = buffer.length
  short : 2^32 ≤ buffer.length → asked fs buffer.length < 2^32 →
    s.bytesRead ≤ asked fs buffer.length

theorem Counted.blocks (buffer : List UInt8) (s : Reading) (h : Counted fs buffer s)
    (hroom : s.bytesRead < buffer.length) : fs.blockSize.toNat ∣ s.bytesRead := by
  rcases h.whole with hdvd | hall
  · exact hdvd
  · exact absurd hall hroom.ne

theorem bytesToRead_whole (buffer : List UInt8) (s : Reading) (h : Counted fs buffer s)
    (hpos : 0 < fs.blockSize.toNat) (hdvd : fs.blockSize.toNat ∣ s.bytesRead) :
    bytesToRead fs s = min fs.blockSize.toNat (buffer.length-s.bytesRead) := by
  have hmod : s.currentOffset.toNat%fs.blockSize.toNat = 0 := by
    rw [h.place,Nat.mod_mod_of_dvd _ (blockSize_dvd fs hpos)]
    exact Nat.mod_eq_zero_of_dvd hdvd
  rw [bytesToRead,hmod,Nat.sub_zero,h.written.length_eq]

theorem next_block_le (size m n : ℕ) (hm : size ∣ m) (hn : size ∣ n) (h : m < n) : m+size ≤ n := by
  obtain ⟨a,rfl⟩ := hm
  obtain ⟨b,rfl⟩ := hn
  have hlt : a < b := Nat.lt_of_mul_lt_mul_left h
  rw [← Nat.mul_succ]
  exact Nat.mul_le_mul_left size hlt

theorem counted_advance (buffer : List UInt8) (s s' : Reading) (h : Counted fs buffer s)
    (hadv : Advances fs (0+BitVec.ofNat 32 buffer.length) s s') : Counted fs buffer s' := by
  obtain ⟨bytes,hbytes,rfl⟩ := hadv.next
  have hroom := hadv.room
  have hbefore := hadv.before
  rw [h.written.length_eq] at hroom
  rw [h.place,endOffset_toNat] at hbefore
  have hpos := hadv.blocks
  have hdvd := h.blocks fs buffer s hroom
  have hcount := bytesToRead_whole fs buffer s h hpos hdvd
  have hle : s.bytesRead+bytesToRead fs s ≤ buffer.length := by omega
  constructor
  · have hwritten := writtenTo_splice _ _ _ bytes h.written (by rw [hbytes]; exact hle)
    rw [hbytes] at hwritten
    exact hwritten
  · exact hle
  · change (s.currentOffset+BitVec.ofNat 32 (bytesToRead fs s)).toNat = _
    rw [BitVec.toNat_add,h.place,BitVec.toNat_ofNat,← Nat.add_mod]
    rfl
  · change fs.blockSize.toNat ∣ s.bytesRead+bytesToRead fs s ∨ _
    by_cases hblock : fs.blockSize.toNat ≤ buffer.length-s.bytesRead
    · rw [hcount,Nat.min_eq_left hblock]
      exact .inl (Nat.dvd_add hdvd (Nat.dvd_refl _))
    · refine .inr ?_
      change s.bytesRead+bytesToRead fs s = _
      omega
  · intro hlong hshort
    change s.bytesRead+bytesToRead fs s ≤ _
    have hread := h.short hlong hshort
    obtain ⟨hend,hasked⟩ := asked_covers fs buffer.length hlong hpos
    rw [Nat.mod_eq_of_lt (by omega)] at hbefore
    have hnext := next_block_le _ _ _ hdvd hasked (by omega)
    omega

/-- A read of a whole file that succeeds: the buffer behind the count is as it was, and the
count is within a size exactly when what was asked for is. -/
theorem readInodeData_count (buffer buffer' : List UInt8) (count size : ℕ) (hsize : size < 2^32)
    (hpos : 0 < fs.blockSize.toNat)
    (h : readInodeData fs inode 0 buffer = (.returned (.ok count),buffer')) :
    count ≤ buffer.length ∧ WrittenTo count buffer buffer' ∧
      (count ≤ size ↔ asked fs buffer.length ≤ size) := by
  have hrun := readInodeData_run fs inode 0 buffer
  rw [h] at hrun
  have hstart : Counted fs buffer { currentOffset := 0, bytesRead := 0, buffer := buffer } :=
    ⟨writtenTo_none buffer,Nat.zero_le _,rfl,.inl (Nat.dvd_zero _),fun _ _ => Nat.zero_le _⟩
  apply run_partial (readTurn fs inode (0+BitVec.ofNat 32 buffer.length)) (Counted fs buffer)
    (fun result => result = (.returned (.ok count),buffer') → _) _ _ _ _ _ hstart hrun rfl
  · intro s s' hs hgo
    exact counted_advance fs buffer s s' hs (readTurn_go fs inode _ s s' hgo)
  · intro s result hs hstop hresult
    rw [hresult] at hstop
    obtain ⟨hguard,rfl,rfl⟩ := readTurn_stop fs inode _ s count buffer' hstop
    have hplace := hs.place
    have hwithin := hs.within
    rw [endOffset_toNat,hs.written.length_eq] at hguard
    refine ⟨hwithin,hs.written,?_⟩
    by_cases hlong : buffer.length < 2^32
    · rw [asked_short fs _ hlong]
      rw [Nat.mod_eq_of_lt hlong,hplace,Nat.mod_eq_of_lt (by omega)] at hguard
      omega
    · constructor
      · intro hcount
        have hend : buffer.length%2^32 ≤ s.bytesRead := by
          rw [hplace,Nat.mod_eq_of_lt (by omega)] at hguard
          omega
        have hdvd := hs.blocks fs buffer s (by omega)
        exact (asked_le fs _ _ (by omega) hpos hdvd hend).trans hcount
      · intro hasked
        have hread := hs.short (by omega) (by omega)
        omega

end Counts

def byteVolume (content : ℕ → UInt8) : SectorDisk where
  toDisk := byteDisk 512 content
  overwrites := by
    intro start count buffer buffer' h h'
    rw [byteDisk_holds 512 content start count buffer h,
      byteDisk_holds 512 content start count buffer' h']

theorem byteVolume_mount (content : ℕ → UInt8) (superblock : Superblock)
    (h : superblockOf (stretch content 1024 1024) = superblock)
    (hmagic : superblock.magic = 0xEF53#16) (hshift : superblock.logBlockSize.toNat < 32) :
    mount (byteVolume content) 0 = .returned (.ok (mounted (byteVolume content) 0 superblock)) := by
  have hstart : (0+2 : BitVec 64).toNat = 2 := rfl
  have hread := byteDisk_holds 512 content 2 2 (List.replicate 1024 0) List.length_replicate
  change (byteVolume content).readSectors 2 2 _ = .ok (stretch content 1024 1024) at hread
  unfold mount
  rw [hstart,hread]
  simp only [h,hmagic,ne_eq,not_true_eq_false,if_false,if_neg (Nat.not_le.mpr hshift)]

def numberedVolume : Ext2 :=
  mounted (byteVolume fun pos => UInt8.ofNat (pos/1024)) 0
    { logBlockSize := 0, inodesPerGroup := 0, magic := 0, revLevel := 0 }

/-- A file whose first blocks are holes, with an indirect block behind them. -/
def sparseInode : Inode where
  mode := 0
  size := 0
  block := List.replicate 12 0++[7,0,0]
  block_length := rfl

/-- The end of a hole and the start of a block that the indirect block names. -/
theorem readInodeData_sparse :
    readInodeData numberedVolume sparseInode 12284 (List.replicate 8 0xFF) =
      (.returned (.ok 8),[0,0,0,0,7,7,7,7]) := by
  have hholds : numberedVolume.device.Holds 512 (fun pos => UInt8.ofNat (pos/1024)) :=
    byteDisk_holds 512 _
  rw [readInodeData_logical numberedVolume _ sparseInode hholds ⟨0,rfl⟩ 12284 _ (by decide)
    (by decide)]
  decide +kernel

end Zamak.Ext2Read
