import Zamak.IsoLookup
import Zamak.IsoRead

/-! # A disc from its descriptors to the bytes of a file

`mount` goes through the volume descriptors from sector 16 on, up to the primary one and no
further than sector 32. On a disc that holds a volume, mounting it, finding a path and
reading what was found gives the bytes of the extent that the path has in the volume. -/

set_option autoImplicit false

namespace Zamak.IsoDisc
open Zamak.ConfigText Zamak.WindowSearch Zamak.Segments Zamak.PathResolution
open Zamak.IsoDriver Zamak.IsoVolume Zamak.IsoLookup Zamak.IsoRead

def pvdSector : ℕ := 16

def standardId : List UInt8 := [0x43,0x44,0x30,0x30,0x31]

theorem descriptor_left (vdSector : ℕ) (h : ¬vdSector+1 > 32) : 32-(vdSector+1) < 32-vdSector := by
  omega

def scanDescriptors (device : BlockDevice) (deviceSectorSize vdSector : ℕ) (buf : List UInt8) :
    Except Error Iso9660 :=
  let sectorsPerIso := sectorSize/deviceSectorSize
  match device.readSectors (vdSector*sectorsPerIso) sectorsPerIso buf with
  | .error error => .error error
  | .ok buf =>
    let vdType := buf.getD 0 0
    if (buf.drop 1).take 5 ≠ standardId then .error .invalidFilesystem
    else if vdType = 255 then .error .invalidFilesystem
    else if vdType = 1 then
      let rootRecord := (buf.drop 156).take 34
      .ok ⟨device,readLe32 (rootRecord.drop 2),readLe32 (rootRecord.drop 10),deviceSectorSize⟩
    else if vdSector+1 > 32 then .error .invalidFilesystem
    else scanDescriptors device deviceSectorSize (vdSector+1) buf
termination_by 32-vdSector
decreasing_by exact descriptor_left vdSector ‹_›

def mount (device : BlockDevice) (deviceSectorSize : ℕ) : Except Error Iso9660 :=
  scanDescriptors device deviceSectorSize pvdSector (List.replicate sectorSize 0)

/-! ## Descriptors -/

def descriptor (content : ℕ → UInt8) (vdSector : ℕ) : List UInt8 :=
  stretch content (vdSector*sectorSize) sectorSize

/-- A descriptor of the standard that is neither the primary one nor the last. -/
structure Passed (bytes : List UInt8) : Prop where
  standard : (bytes.drop 1).take 5 = standardId
  not_last : bytes.getD 0 0 ≠ 255
  not_primary : bytes.getD 0 0 ≠ 1

structure Primary (bytes : List UInt8) (root : Extent) : Prop where
  standard : (bytes.drop 1).take 5 = standardId
  primary : bytes.getD 0 0 = 1
  root_lba : readLe32 (((bytes.drop 156).take 34).drop 2) = root.lba
  root_size : readLe32 (((bytes.drop 156).take 34).drop 10) = root.size

/-- From a sector on, the first descriptor that is not passed over is a primary one, and it
is not behind sector 32. -/
def DescribedFrom (content : ℕ → UInt8) (vdSector : ℕ) (root : Extent) : Prop :=
  ∃ k, vdSector+k ≤ 32 ∧ (∀ j < k, Passed (descriptor content (vdSector+j))) ∧
    Primary (descriptor content (vdSector+k)) root

def Described (content : ℕ → UInt8) (root : Extent) : Prop :=
  DescribedFrom content pvdSector root

theorem describedFrom_primary (content : ℕ → UInt8) (vdSector : ℕ) (root : Extent)
    (hle : vdSector ≤ 32) (h : Primary (descriptor content vdSector) root) :
    DescribedFrom content vdSector root :=
  ⟨0,hle,fun j hj => absurd hj (Nat.not_lt_zero j),h⟩

theorem describedFrom_passed (content : ℕ → UInt8) (vdSector : ℕ) (root : Extent)
    (h : Passed (descriptor content vdSector)) :
    DescribedFrom content vdSector root ↔ DescribedFrom content (vdSector+1) root := by
  constructor
  · rintro ⟨k,hle,hpassed,hprimary⟩
    cases k with
    | zero => exact absurd hprimary.primary h.not_primary
    | succ k =>
      refine ⟨k,by omega,fun j hj => ?_,?_⟩
      · rw [show vdSector+1+j = vdSector+(j+1) by omega]
        exact hpassed (j+1) (by omega)
      · rwa [show vdSector+1+k = vdSector+(k+1) by omega]
  · rintro ⟨k,hle,hpassed,hprimary⟩
    refine ⟨k+1,by omega,fun j hj => ?_,?_⟩
    · cases j with
      | zero => exact h
      | succ j =>
        rw [show vdSector+(j+1) = vdSector+1+j by omega]
        exact hpassed j (by omega)
    · rwa [show vdSector+(k+1) = vdSector+1+k by omega]

theorem describedFrom_stuck (content : ℕ → UInt8) (vdSector : ℕ)
    (hpassed : ¬Passed (descriptor content vdSector))
    (hprimary : ∀ root, ¬Primary (descriptor content vdSector) root) (root : Extent) :
    ¬DescribedFrom content vdSector root := by
  rintro ⟨k,-,hall,hlast⟩
  cases k with
  | zero => exact hprimary root hlast
  | succ k => exact hpassed (hall 0 (Nat.succ_pos k))

section Mount
variable (device : BlockDevice) (deviceSectorSize : ℕ) (content : ℕ → UInt8)

theorem descriptor_read (hdvd : deviceSectorSize ∣ 2048)
    (hdevice : device.Holds deviceSectorSize content) (vdSector : ℕ) (buf : List UInt8)
    (hbuf : buf.length = sectorSize) :
    device.readSectors (vdSector*(sectorSize/deviceSectorSize)) (sectorSize/deviceSectorSize) buf =
      .ok (descriptor content vdSector) :=
  sector_holds ⟨device,0,0,deviceSectorSize⟩ content hdvd hdevice vdSector buf hbuf

def Decided (vdSector : ℕ) (result : Except Error Iso9660) : Prop :=
  (∃ root, DescribedFrom content vdSector root ∧
    result = .ok ⟨device,root.lba,root.size,deviceSectorSize⟩) ∨
  ((∀ root, ¬DescribedFrom content vdSector root) ∧ result = .error .invalidFilesystem)

variable (hdvd : deviceSectorSize ∣ 2048) (hdevice : device.Holds deviceSectorSize content)
include hdvd hdevice

theorem scan_stopped (vdSector : ℕ) (hle : vdSector ≤ 32) (buf : List UInt8)
    (hbuf : buf.length = sectorSize) (h : ¬Passed (descriptor content vdSector)) :
    Decided device deviceSectorSize content vdSector
      (scanDescriptors device deviceSectorSize vdSector buf) := by
  rw [scanDescriptors]
  simp only [descriptor_read device deviceSectorSize content hdvd hdevice vdSector buf hbuf]
  split_ifs with hid hlast hprimary hend
  · exact Or.inr ⟨describedFrom_stuck content vdSector h fun root hp => hid hp.standard,rfl⟩
  · refine Or.inr ⟨describedFrom_stuck content vdSector h fun root hp => ?_,rfl⟩
    exact absurd (hlast.symm.trans hp.primary) (by decide)
  · exact Or.inl ⟨⟨_,_⟩,describedFrom_primary content vdSector _ hle
      ⟨of_not_not hid,hprimary,rfl,rfl⟩,rfl⟩
  · exact absurd ⟨of_not_not hid,hlast,hprimary⟩ h
  · exact absurd ⟨of_not_not hid,hlast,hprimary⟩ h

theorem scan_passed (vdSector : ℕ) (buf : List UInt8) (hbuf : buf.length = sectorSize)
    (h : Passed (descriptor content vdSector)) :
    scanDescriptors device deviceSectorSize vdSector buf =
      if vdSector+1 > 32 then .error .invalidFilesystem
      else scanDescriptors device deviceSectorSize (vdSector+1) (descriptor content vdSector) := by
  rw [scanDescriptors]
  simp only [descriptor_read device deviceSectorSize content hdvd hdevice vdSector buf hbuf]
  rw [if_neg (not_not_intro h.standard),if_neg h.not_last,if_neg h.not_primary]

theorem scan_decided (n vdSector : ℕ) (hn : vdSector+n = 32) (buf : List UInt8)
    (hbuf : buf.length = sectorSize) :
    Decided device deviceSectorSize content vdSector
      (scanDescriptors device deviceSectorSize vdSector buf) := by
  induction n generalizing vdSector buf with
  | zero =>
    by_cases hpassed : Passed (descriptor content vdSector)
    · rw [scan_passed device deviceSectorSize content hdvd hdevice vdSector buf hbuf hpassed,
        if_pos (by omega)]
      refine Or.inr ⟨fun root hroot => ?_,rfl⟩
      obtain ⟨k,hk,-⟩ := (describedFrom_passed content vdSector root hpassed).mp hroot
      omega
    · exact scan_stopped device deviceSectorSize content hdvd hdevice vdSector (by omega) buf hbuf
        hpassed
  | succ n ih =>
    by_cases hpassed : Passed (descriptor content vdSector)
    · rw [scan_passed device deviceSectorSize content hdvd hdevice vdSector buf hbuf hpassed,
        if_neg (by omega)]
      simp only [Decided,describedFrom_passed content vdSector _ hpassed]
      exact ih (vdSector+1) (by omega) _ (stretch_length _ _ _)
    · exact scan_stopped device deviceSectorSize content hdvd hdevice vdSector (by omega) buf hbuf
        hpassed

theorem mount_decided :
    Decided device deviceSectorSize content pvdSector (mount device deviceSectorSize) :=
  scan_decided device deviceSectorSize content hdvd hdevice 16 pvdSector rfl _
    List.length_replicate

end Mount

theorem describedFrom_unique (content : ℕ → UInt8) (vdSector : ℕ) (root root' : Extent)
    (h : DescribedFrom content vdSector root) (h' : DescribedFrom content vdSector root') :
    root = root' := by
  obtain ⟨k,-,hpassed,hprimary⟩ := h
  obtain ⟨k',-,hpassed',hprimary'⟩ := h'
  rcases Nat.lt_trichotomy k k' with hlt | rfl | hlt
  · exact absurd hprimary.primary (hpassed' k hlt).not_primary
  · have hlba := hprimary.root_lba.symm.trans hprimary'.root_lba
    have hsize := hprimary.root_size.symm.trans hprimary'.root_size
    cases root
    cases root'
    cases hlba
    cases hsize
    rfl
  · exact absurd hprimary'.primary (hpassed k' hlt).not_primary

/-! ## A disc with a volume -/

/-- A disc whose descriptors lead to a volume and whose sectors hold its directories. -/
structure Disc (content : ℕ → UInt8) (v : Volume) : Prop where
  described : Described content v.root
  directories : ∀ extent d, v.directory extent = some d → ∀ i sector, d[i]? = some sector →
    stretch content (2048*(extent.lba.toNat+i)) 2048 = sectorBytes sector

def contents (content : ℕ → UInt8) (extent : Extent) : List UInt8 :=
  stretch content (extent.lba.toNat*2048) extent.size.toNat

def extentOf (v : Volume) : Node → Extent
  | .root => v.root
  | .record r => r.extent

theorem cut_stretch (content : ℕ → UInt8) (place size : ℕ) (buffer : List UInt8) :
    stretch content place (min size buffer.length)++buffer.drop (min size buffer.length) =
      (stretch content place size).take buffer.length++buffer.drop size := by
  by_cases hfits : size ≤ buffer.length
  · rw [Nat.min_eq_left hfits,List.take_of_length_le]
    rwa [stretch_length]
  · have hshort : buffer.length ≤ size := by omega
    rw [Nat.min_eq_right hshort,stretch_take content place size _ hshort,List.drop_length,
      List.drop_of_length_le hshort]

section Disc
variable {device : BlockDevice} {deviceSectorSize : ℕ} {content : ℕ → UInt8} {v : Volume}
variable (hdvd : deviceSectorSize ∣ 2048) (hdevice : device.Holds deviceSectorSize content)
variable (hdisc : Disc content v)

def mounted (device : BlockDevice) (deviceSectorSize : ℕ) (v : Volume) : Iso9660 :=
  ⟨device,v.root.lba,v.root.size,deviceSectorSize⟩

include hdvd hdevice hdisc

theorem mount_disc : mount device deviceSectorSize = .ok (mounted device deviceSectorSize v) := by
  rcases mount_decided device deviceSectorSize content hdvd hdevice with ⟨root,hroot,hok⟩ | ⟨hno,-⟩
  · rw [hok,describedFrom_unique content pvdSector root v.root hroot hdisc.described]
    rfl
  · exact absurd hdisc.described (hno v.root)

omit hdvd in
theorem disc_holds : Holds device deviceSectorSize v := by
  intro extent d hd i sector hi start count buf hstart hcount hbuf
  have hlength := sectorBytes_length sector (v.fits extent d hd sector (List.mem_of_getElem? hi))
  rw [hlength] at hcount hbuf
  rw [hdevice start count buf (hbuf.trans hcount.symm),hstart,hcount,
    hdisc.directories extent d hd i sector hi]

theorem findFile_disc (path : Text) :
    findFile (mounted device deviceSectorSize v) path = v.resolved path := by
  have hparts : findFile (mounted device deviceSectorSize v) path =
      findParts (mounted device deviceSectorSize v) v.root.lba v.root.size (components path) := by
    rw [← components_trim]
    rfl
  have hnames : ∀ name ∈ components path, name ≠ [] := by
    intro name hn
    simpa using (List.mem_filter.mp hn).2
  obtain ⟨d,hd⟩ := v.root_present
  rw [hparts,Volume.resolved]
  cases hcomponents : components path with
  | nil => rfl
  | cons part names =>
    rw [hcomponents] at hnames
    exact findParts_eq (mounted device deviceSectorSize v) v hdvd (disc_holds hdevice hdisc) names
      (fun name hn => hnames name (List.mem_cons_of_mem _ hn)) part
      (hnames part List.mem_cons_self) .root v.root d hd hd

omit hdisc in
theorem readFile_disc (node : Node) (buffer : List UInt8) :
    readFile (mounted device deviceSectorSize v) (v.entry node) buffer =
      (.ok (min (extentOf v node).size.toNat buffer.length),
        (contents content (extentOf v node)).take buffer.length++
          buffer.drop (extentOf v node).size.toNat) := by
  have hentry : ∀ node, (v.entry node).opaqueId.toUInt32 = (extentOf v node).lba ∧
      (v.entry node).size.toUInt32 = (extentOf v node).size := by
    intro node
    cases node <;> exact ⟨UInt32.toUInt32_toUInt64 _,UInt32.toUInt32_toUInt64 _⟩
  have hread := readExtentFrom_holds (mounted device deviceSectorSize v) content hdvd hdevice
    (extentOf v node).lba (extentOf v node).size.toNat buffer _ 0 (List.replicate sectorSize 0) 0
    List.length_replicate (remaining_start _) (Nat.zero_le _)
  rw [fill_zero,fill_eq] at hread
  rw [readFile,(hentry node).1,(hentry node).2]
  refine hread.trans (Prod.ext rfl ?_)
  exact cut_stretch content _ _ buffer

/-- On a disc with a volume, mounting succeeds; then every path that leads nowhere in the
volume is refused for its reason, and for every other one a read of what is found copies
the bytes of its extent, as far as the buffer goes. -/
theorem disc_to_file (path : Text) : ∃ fs, mount device deviceSectorSize = .ok fs ∧
    (∀ failure, resolve v.directories .root (components path) = .error failure →
      findFile fs path = .error (errorOf failure)) ∧
    ∀ node, resolve v.directories .root (components path) = .ok node →
      findFile fs path = .ok (v.entry node) ∧
      ∀ buffer, readFile fs (v.entry node) buffer =
        (.ok (min (extentOf v node).size.toNat buffer.length),
          (contents content (extentOf v node)).take buffer.length++
            buffer.drop (extentOf v node).size.toNat) := by
  refine ⟨_,mount_disc hdvd hdevice hdisc,fun failure h => ?_,fun node h => ⟨?_,?_⟩⟩
  · rw [findFile_disc hdvd hdevice hdisc,Volume.resolved,Volume.reached,h]
    rfl
  · rw [findFile_disc hdvd hdevice hdisc,Volume.resolved,Volume.reached,h]
    rfl
  · exact readFile_disc hdvd hdevice node

end Disc

/-! ## A small disc -/

/-- The descriptor of a root directory of one sector at the start of the disc. -/
def smallDescriptor : List UInt8 :=
  1::standardId++List.replicate 160 0++[0,8,0,0]++List.replicate 1878 0

/-- What follows the directories: a file in the ninth sector and the descriptor in the
sixteenth. -/
def smallRest : List UInt8 :=
  List.replicate 14336 0++(List.replicate 2048 0xab++(List.replicate 12288 0++
    (smallDescriptor++[])))

def smallImage : List UInt8 := sectorBytes [docs]++(sectorBytes [notes]++smallRest)

theorem docs_length : (sectorBytes [docs]).length = 2048 := sectorBytes_length [docs] (by decide)

theorem notes_length : (sectorBytes [notes]).length = 2048 := sectorBytes_length [notes] (by decide)

theorem smallImage_docs : stretch (stored 0 smallImage) 0 2048 = sectorBytes [docs] := by
  have h := stretch_stored 0 [] (sectorBytes [docs]) (sectorBytes [notes]++smallRest)
  rwa [docs_length] at h

theorem smallImage_notes : stretch (stored 0 smallImage) 2048 2048 = sectorBytes [notes] := by
  have h := stretch_stored 0 (sectorBytes [docs]) (sectorBytes [notes]) smallRest
  rwa [docs_length,notes_length] at h

theorem smallImage_file :
    stretch (stored 0 smallImage) 18432 2048 = List.replicate 2048 0xab := by
  have h := stretch_stored 0 (sectorBytes [docs]++(sectorBytes [notes]++List.replicate 14336 0))
    (List.replicate 2048 0xab) (List.replicate 12288 0++(smallDescriptor++[]))
  simp only [List.length_append,List.length_replicate,docs_length,notes_length,
    List.append_assoc] at h
  exact h

theorem smallImage_descriptor :
    stretch (stored 0 smallImage) 32768 2048 = smallDescriptor := by
  have h := stretch_stored 0 (sectorBytes [docs]++(sectorBytes [notes]++
    (List.replicate 14336 0++(List.replicate 2048 0xab++List.replicate 12288 0))))
    smallDescriptor []
  have hlength : smallDescriptor.length = 2048 := by decide +kernel
  simp only [List.length_append,List.length_replicate,docs_length,notes_length,
    List.append_assoc,hlength] at h
  exact h

theorem smallImage_disc : Disc (stored 0 smallImage) smallVolume where
  described := by
    have hdescriptor : descriptor (stored 0 smallImage) pvdSector = smallDescriptor :=
      smallImage_descriptor
    refine describedFrom_primary _ pvdSector _ (by decide) ?_
    rw [hdescriptor]
    constructor
    · decide +kernel
    · rfl
    · decide +kernel
    · decide +kernel
  directories := by
    intro extent d h i sector hi
    rcases smallDirectory_cases extent d h with ⟨rfl,rfl⟩ | ⟨rfl,rfl⟩
    · cases i with
      | zero => cases hi; exact smallImage_docs
      | succ i => cases hi
    · cases i with
      | zero => cases hi; exact smallImage_notes
      | succ i => cases hi

/-- A file of one sector, found through its directory and read into a short buffer. -/
theorem disc_to_file_small :
    ∃ fs, mount (byteDisk 512 (stored 0 smallImage)).toBlockDevice 512 = .ok fs ∧
      findFile fs "/doc/a".toList = .ok notes.entry ∧
      readFile fs notes.entry [7,7] = (.ok 2,[0xab,0xab]) := by
  obtain ⟨fs,hmount,-,hfound⟩ := disc_to_file (v := smallVolume) (by decide)
    (byteDisk_holds 512 (stored 0 smallImage)) smallImage_disc "/doc/a".toList
  obtain ⟨hfind,hread⟩ := hfound (.record notes) rfl
  have hcontents : contents (stored 0 smallImage) (extentOf smallVolume (.record notes)) =
      List.replicate 2048 0xab := smallImage_file
  have hread := hread [7,7]
  rw [hcontents] at hread
  exact ⟨fs,hmount,hfind,hread⟩

end Zamak.IsoDisc
