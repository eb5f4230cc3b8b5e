import Zamak.IsoDriver

/-! # Reading an extent of an ISO 9660 volume

`read_extent` copies sector after sector. The last one is cut by the size of the extent,
or the buffer ends first and the read returns early; either way the shorter of the two is
read. -/

set_option autoImplicit false

namespace Zamak.IsoRead
open Zamak.WindowSearch Zamak.Segments Zamak.IsoDriver

/-- The loop of `read_extent` with its last sectors still to read, and the buffer as it is
left. All slices are in range, as `bytes_read` never passes the end of the buffer. -/
def readExtentFrom (fs : Iso9660) (lba : UInt32) (totalBytes : ℕ) :
    ℕ → ℕ → List UInt8 → ℕ → List UInt8 → Except Error ℕ × List UInt8
  | _, 0, _, bytesRead, buffer => (.ok bytesRead,buffer)
  | i, left+1, sectorBuf, bytesRead, buffer =>
    let sectorsPerIso := sectorSize/fs.deviceSectorSize
    let isoSector := lba.toNat+i
    match fs.device.readSectors (isoSector*sectorsPerIso) sectorsPerIso sectorBuf with
    | .error error => (.error error,buffer)
    | .ok sectorBuf =>
      let remaining := totalBytes-bytesRead
      let copyLen := min remaining sectorSize
      let destEnd := bytesRead+copyLen
      if destEnd > buffer.length then
        let actualCopy := buffer.length-bytesRead
        (.ok buffer.length,splice buffer bytesRead (sectorBuf.take actualCopy))
      else
        readExtentFrom fs lba totalBytes (i+1) left sectorBuf destEnd
          (splice buffer bytesRead (sectorBuf.take copyLen))

def readExtent (fs : Iso9660) (lba size : UInt32) (buffer : List UInt8) :
    Except Error ℕ × List UInt8 :=
  let totalBytes := size.toNat
  let totalIsoSectors := (totalBytes+(sectorSize-1))/sectorSize
  readExtentFrom fs lba totalBytes 0 totalIsoSectors (List.replicate sectorSize 0) 0 buffer

def readFile (fs : Iso9660) (entry : FileEntry) (buffer : List UInt8) :
    Except Error ℕ × List UInt8 :=
  readExtent fs entry.opaqueId.toUInt32 entry.size.toUInt32 buffer

/-- The sectors of an extent cover it, and all but the last are full. -/
structure Remaining (totalBytes i left bytesRead : ℕ) : Prop where
  counted : bytesRead = min (i*sectorSize) totalBytes
  covered : totalBytes ≤ (i+left)*sectorSize
  needed : left ≠ 0 → (i+left-1)*sectorSize < totalBytes

theorem remaining_start (totalBytes : ℕ) :
    Remaining totalBytes 0 ((totalBytes+(sectorSize-1))/sectorSize) 0 := by
  have hdiv := Nat.div_add_mod (totalBytes+(sectorSize-1)) sectorSize
  have hmod := Nat.mod_lt (totalBytes+(sectorSize-1)) (show 0 < sectorSize by decide)
  simp only [sectorSize] at hdiv hmod ⊢
  constructor
  · omega
  · simp only [sectorSize]
    omega
  · simp only [sectorSize]
    omega

theorem remaining_full (totalBytes i left bytesRead : ℕ)
    (h : Remaining totalBytes i (left+1) bytesRead) :
    bytesRead = i*sectorSize ∧ bytesRead < totalBytes := by
  have hneeded := h.needed (Nat.succ_ne_zero left)
  have hle : i*sectorSize ≤ (i+(left+1)-1)*sectorSize := Nat.mul_le_mul_right _ (by omega)
  have hcounted := h.counted
  omega

theorem remaining_next (totalBytes i left bytesRead : ℕ)
    (h : Remaining totalBytes i (left+1) bytesRead) :
    Remaining totalBytes (i+1) left (bytesRead+min (totalBytes-bytesRead) sectorSize) where
  counted := by
    have hfull := remaining_full totalBytes i left bytesRead h
    have hmul : (i+1)*sectorSize = i*sectorSize+sectorSize := Nat.succ_mul i sectorSize
    omega
  covered := by
    have hcovered := h.covered
    rwa [show i+(left+1) = i+1+left by omega] at hcovered
  needed := by
    intro hleft
    have hneeded := h.needed (Nat.succ_ne_zero left)
    rwa [show i+(left+1)-1 = i+1+left-1 by omega] at hneeded

theorem remaining_done (totalBytes i bytesRead : ℕ) (h : Remaining totalBytes i 0 bytesRead) :
    bytesRead = totalBytes := by
  have hcounted := h.counted
  have hcovered := h.covered
  rw [Nat.add_zero] at hcovered
  omega

section Holds
variable (fs : Iso9660) (content : ℕ → UInt8)

theorem sectors_of_dvd (hdvd : fs.deviceSectorSize ∣ 2048) :
    sectorSize/fs.deviceSectorSize*fs.deviceSectorSize = sectorSize :=
  Nat.div_mul_cancel hdvd

theorem sector_holds (hdvd : fs.deviceSectorSize ∣ 2048)
    (hdevice : fs.device.Holds fs.deviceSectorSize content) (isoSector : ℕ) (buf : List UInt8)
    (hbuf : buf.length = sectorSize) :
    fs.device.readSectors (isoSector*(sectorSize/fs.deviceSectorSize))
        (sectorSize/fs.deviceSectorSize) buf =
      .ok (stretch content (isoSector*sectorSize) sectorSize) := by
  have hsectors := sectors_of_dvd fs hdvd
  rw [hdevice _ _ buf (by rw [hsectors,hbuf]),Nat.mul_assoc,hsectors]

theorem readExtentFrom_holds (hdvd : fs.deviceSectorSize ∣ 2048)
    (hdevice : fs.device.Holds fs.deviceSectorSize content) (lba : UInt32) (totalBytes : ℕ)
    (buffer : List UInt8) (left i : ℕ) (sectorBuf : List UInt8) (bytesRead : ℕ)
    (hbuf : sectorBuf.length = sectorSize) (hleft : Remaining totalBytes i left bytesRead)
    (hroom : bytesRead ≤ buffer.length) :
    readExtentFrom fs lba totalBytes i left sectorBuf bytesRead
        (fill content (lba.toNat*sectorSize) bytesRead buffer) =
      (.ok (min totalBytes buffer.length),
        fill content (lba.toNat*sectorSize) (min totalBytes buffer.length) buffer) := by
  induction left generalizing i sectorBuf bytesRead with
  | zero =>
    have hdone := remaining_done totalBytes i bytesRead hleft
    rw [readExtentFrom,hdone,Nat.min_eq_left (by omega)]
  | succ left ih =>
    have hfull := remaining_full totalBytes i left bytesRead hleft
    have hplace : (lba.toNat+i)*sectorSize = lba.toNat*sectorSize+bytesRead := by
      rw [Nat.add_mul,hfull.1]
    have hlength := fill_length content (lba.toNat*sectorSize) bytesRead buffer hroom
    rw [readExtentFrom]
    simp only [sector_holds fs content hdvd hdevice _ _ hbuf,hlength,hplace]
    split
    · next hshort =>
      have hcut : buffer.length-bytesRead ≤ sectorSize := by omega
      rw [stretch_take _ _ _ _ hcut,splice_fill _ _ _ _ _ hroom,Nat.min_eq_right (by omega),
        Nat.add_sub_cancel' hroom]
    · next hfits =>
      rw [stretch_take _ _ _ _ (Nat.min_le_right _ _),splice_fill _ _ _ _ _ hroom]
      exact ih (i+1) _ _ (stretch_length _ _ _) (remaining_next totalBytes i left bytesRead hleft)
        (Nat.le_of_not_lt hfits)

/-- A read of an extent fills the buffer up to the shorter of the two with the sectors from
`lba` on, and leaves the rest of it. -/
theorem readExtent_holds (hdvd : fs.deviceSectorSize ∣ 2048)
    (hdevice : fs.device.Holds fs.deviceSectorSize content) (lba size : UInt32)
    (buffer : List UInt8) :
    ∃ buffer', readExtent fs lba size buffer = (.ok (min size.toNat buffer.length),buffer') ∧
      buffer'.length = buffer.length ∧
      buffer'.take (min size.toNat buffer.length) =
        (List.range (min size.toNat buffer.length)).map (fun k => content (lba.toNat*2048+k)) ∧
      buffer'.drop (min size.toNat buffer.length) =
        buffer.drop (min size.toNat buffer.length) := by
  have hread := readExtentFrom_holds fs content hdvd hdevice lba size.toNat buffer _ 0
    (List.replicate sectorSize 0) 0 List.length_replicate (remaining_start size.toNat)
    (Nat.zero_le _)
  rw [fill_zero] at hread
  refine ⟨_,hread,fill_length _ _ _ _ (Nat.min_le_right _ _),?_,?_⟩
  · rw [fill_eq,List.take_left' (stretch_length _ _ _)]
    rfl
  · rw [fill_eq,List.drop_left' (stretch_length _ _ _)]

end Holds

/-- An extent of three bytes, read into a buffer of five from sectors of 512 bytes. -/
theorem readExtent_short :
    ∃ buffer', readExtent ⟨(byteDisk 512 fun pos => UInt8.ofNat pos).toBlockDevice,0,0,512⟩ 1 3
        [9,9,9,9,9] = (.ok 3,buffer') ∧
      buffer' = [0,1,2,9,9] := by
  obtain ⟨buffer',hread,-,htake,hdrop⟩ := readExtent_holds
    ⟨(byteDisk 512 fun pos => UInt8.ofNat pos).toBlockDevice,0,0,512⟩ _ (by decide)
    (byteDisk_holds 512 _) 1 3 [9,9,9,9,9]
  refine ⟨buffer',hread,?_⟩
  rw [← List.take_append_drop (min (3 : UInt32).toNat [(9 : UInt8),9,9,9,9].length) buffer',
    htake,hdrop]
  decide

section Written
variable (fs : Iso9660)

/-- On a device that may fail, a read that succeeds has copied that much and no more. -/
theorem readExtentFrom_written
    (hkeeps : ∀ start count buf filled, fs.device.readSectors start count buf = .ok filled →
      filled.length = buf.length) (lba : UInt32) (totalBytes : ℕ) (buffer buffer' : List UInt8)
    (count left i : ℕ) (sectorBuf : List UInt8) (bytesRead : ℕ) (current : List UInt8)
    (hbuf : sectorBuf.length = sectorSize) (hleft : Remaining totalBytes i left bytesRead)
    (hroom : bytesRead ≤ buffer.length) (hwritten : WrittenTo bytesRead buffer current)
    (h : readExtentFrom fs lba totalBytes i left sectorBuf bytesRead current =
      (.ok count,buffer')) :
    count = min totalBytes buffer.length ∧ WrittenTo count buffer buffer' := by
  induction left generalizing i sectorBuf bytesRead current with
  | zero =>
    have hdone := remaining_done totalBytes i bytesRead hleft
    rw [readExtentFrom] at h
    cases h
    exact ⟨by omega,hwritten⟩
  | succ left ih =>
    rw [readExtentFrom] at h
    simp only [hwritten.length_eq] at h
    split at h
    · cases h
    · next sector hsector =>
      have hlength : sector.length = sectorSize := (hkeeps _ _ _ _ hsector).trans hbuf
      split at h
      · next hshort =>
        cases h
        have htake : (sector.take (buffer.length-bytesRead)).length = buffer.length-bytesRead := by
          rw [List.length_take]
          omega
        have hsplice := writtenTo_splice _ _ _ (sector.take (buffer.length-bytesRead)) hwritten
          (by omega)
        rw [htake,Nat.add_sub_cancel' hroom] at hsplice
        exact ⟨by omega,hsplice⟩
      · next hfits =>
        have htake : (sector.take (min (totalBytes-bytesRead) sectorSize)).length =
            min (totalBytes-bytesRead) sectorSize := by
          rw [List.length_take]
          omega
        have hsplice := writtenTo_splice _ _ _ (sector.take (min (totalBytes-bytesRead) sectorSize))
          hwritten (by omega)
        rw [htake] at hsplice
        exact ih (i+1) sector _ _ hlength (remaining_next totalBytes i left bytesRead hleft)
          (by omega) hsplice h

theorem readExtent_written
    (hkeeps : ∀ start count buf filled, fs.device.readSectors start count buf = .ok filled →
      filled.length = buf.length) (lba size : UInt32) (buffer buffer' : List UInt8) (count : ℕ)
    (h : readExtent fs lba size buffer = (.ok count,buffer')) :
    count = min size.toNat buffer.length ∧ WrittenTo count buffer buffer' :=
  readExtentFrom_written fs hkeeps lba size.toNat buffer buffer' count _ 0 _ 0 buffer
    List.length_replicate (remaining_start size.toNat) (Nat.zero_le _) (writtenTo_none buffer) h

end Written

end Zamak.IsoRead
