import Zamak.BzImageHeader

/-! # What the zero page keeps of the image

Outside the fields the loader fills in, and outside the table entries it adds, every byte of
the page is the image's, as far as the image is copied, and zero behind that. The entries
are written into the page itself whatever count it starts with. -/

set_option autoImplicit false

namespace Zamak.ZeroPageFrame
open Zamak.WindowSearch Zamak.TagStreams Zamak.ZeroPage Zamak.BzImageHeader

/-- A slice of the page is overwritten; `none` when it runs out of the page. -/
def writeChecked (page : BootParams) (offset : ℕ) (new : List UInt8) : Option BootParams :=
  if h : offset+new.length ≤ 4096 then some (page.write offset new h) else none

def addE820EntryChecked (page : BootParams) (region : MemoryRegion) :
    Option (BootParams × Bool) :=
  if page.e820Count ≥ e820Max then some (page,false)
  else do
    let based ← writeChecked page (entryOffset page.e820Count) (natBytes 8 region.base.toNat)
    let sized ← writeChecked based (entryOffset page.e820Count+8)
      (natBytes 8 region.length.toNat)
    let typed ← writeChecked sized (entryOffset page.e820Count+16) (natBytes 4 region.typ.toNat)
    let counted ← writeChecked typed e820Entries [UInt8.ofNat (page.e820Count+1)]
    some (counted,true)

def addRegionsChecked : BootParams → List MemoryRegion → Option BootParams
  | page, [] => some page
  | page, region::memoryMap =>
    match addE820EntryChecked page region with
    | none => none
    | some (page',true) => addRegionsChecked page' memoryMap
    | some (page',false) => some page'

/-- The bytes the loader writes: its fields, and the entries behind the count's first
ones. -/
def Patched (count regions i : ℕ) : Prop :=
  i = typeOfLoader ∨ i = loadFlags ∨ (codeStart ≤ i ∧ i < codeStart+4) ∨
    (ramdiskImage ≤ i ∧ i < ramdiskSize+4) ∨ (cmdLinePtr ≤ i ∧ i < cmdLinePtr+4) ∨
    i = e820Entries ∨ (entryOffset count ≤ i ∧ i < entryOffset (min (count+regions) e820Max))

section Checked
variable (page : BootParams)

theorem writeChecked_within (offset : ℕ) (new : List UInt8) (h : offset+new.length ≤ 4096) :
    writeChecked page offset new = some (page.write offset new h) := dif_pos h

theorem addE820EntryChecked_eq (region : MemoryRegion) :
    addE820EntryChecked page region = some (page.addE820Entry region) := by
  rw [addE820EntryChecked,BootParams.addE820Entry]
  by_cases hfull : page.e820Count ≥ e820Max
  · rw [if_pos hfull,dif_pos hfull]
  · have hfits := entry_fits (Nat.lt_of_not_le hfull)
    rw [if_neg hfull,dif_neg hfull,Option.bind_eq_bind,
      writeChecked_within _ _ _ (by rw [natBytes_length]; omega),Option.bind_some,
      writeChecked_within _ _ _ (by rw [natBytes_length]; omega),Option.bind_some,
      writeChecked_within _ _ _ (by rw [natBytes_length]; omega),Option.bind_some,
      writeChecked_within _ e820Entries _ (by rw [List.length_singleton]; decide)]
    rfl

theorem addRegionsChecked_eq (memoryMap : List MemoryRegion) :
    addRegionsChecked page memoryMap = some (page.addRegions memoryMap) := by
  induction memoryMap generalizing page with
  | nil => rfl
  | cons region memoryMap ih =>
    rw [addRegionsChecked,BootParams.addRegions,addE820EntryChecked_eq]
    obtain ⟨page',room⟩ := page.addE820Entry region
    cases room with
    | true => exact ih page'
    | false => rfl

end Checked

section Frame
variable (page : BootParams)

theorem write_byte_apart (offset : ℕ) (new : List UInt8) (h : offset+new.length ≤ 4096) (i : ℕ)
    (hi : i < offset ∨ offset+new.length ≤ i) :
    (page.write offset new h).data.getD i 0 = page.data.getD i 0 := by
  have hpos : offset ≤ page.data.length := by
    rw [page.size]
    omega
  rw [List.getD_eq_getElem?_getD,List.getD_eq_getElem?_getD]
  cases hi with
  | inl hbefore => exact congrArg (·.getD 0) (splice_before page.data new offset hpos i hbefore)
  | inr hbehind => exact congrArg (·.getD 0) (splice_after page.data new offset hpos i hbehind)

theorem writeU32_byte_apart (offset : ℕ) (value : UInt32) (h : offset+4 ≤ 4096) (i : ℕ)
    (hi : i < offset ∨ offset+4 ≤ i) :
    (page.writeU32 offset value h).data.getD i 0 = page.data.getD i 0 :=
  write_byte_apart page offset _ _ i (by rwa [natBytes_length])

theorem writeU64_byte_apart (offset : ℕ) (value : UInt64) (h : offset+8 ≤ 4096) (i : ℕ)
    (hi : i < offset ∨ offset+8 ≤ i) :
    (page.writeU64 offset value h).data.getD i 0 = page.data.getD i 0 :=
  write_byte_apart page offset _ _ i (by rwa [natBytes_length])

theorem writeByte_byte_apart (offset : ℕ) (value : UInt8) (h : offset < 4096) (i : ℕ)
    (hi : i ≠ offset) : (page.writeByte offset value h).data.getD i 0 = page.data.getD i 0 :=
  write_byte_apart page offset [value] h i (by rw [List.length_singleton]; omega)

theorem putEntry_byte_apart (count : ℕ) (region : MemoryRegion) (h : count < e820Max) (i : ℕ)
    (hcount : i ≠ e820Entries) (hi : i < entryOffset count ∨ entryOffset (count+1) ≤ i) :
    (page.putEntry count region h).data.getD i 0 = page.data.getD i 0 := by
  have hnext : entryOffset (count+1) = entryOffset count+20 := by
    simp only [entryOffset]
    omega
  rw [BootParams.putEntry,writeByte_byte_apart _ _ _ _ i hcount,
    writeU32_byte_apart _ _ _ _ i (by omega),writeU64_byte_apart _ _ _ _ i (by omega),
    writeU64_byte_apart _ _ _ _ i (by omega)]

end Frame

theorem addRegions_byte_apart (memoryMap : List MemoryRegion) (page : BootParams) (i : ℕ)
    (hcount : i ≠ e820Entries)
    (hi : ¬(entryOffset page.e820Count ≤ i ∧
      i < entryOffset (min (page.e820Count+memoryMap.length) e820Max))) :
    (page.addRegions memoryMap).data.getD i 0 = page.data.getD i 0 := by
  induction memoryMap generalizing page with
  | nil => rfl
  | cons region memoryMap ih =>
    by_cases hfull : page.e820Count ≥ e820Max
    · rw [addRegions_full page _ hfull]
    · have hroom : page.e820Count < e820Max := Nat.lt_of_not_le hfull
      have hnew := putEntry_count page page.e820Count region hroom
      have hstep : page.addRegions (region::memoryMap) =
          (page.putEntry page.e820Count region hroom).addRegions memoryMap := by
        rw [BootParams.addRegions,BootParams.addE820Entry,dif_neg hfull]
      simp only [List.length_cons,entryOffset,e820Max] at hi hroom
      rw [hstep,ih (page.putEntry page.e820Count region hroom)]
      · apply putEntry_byte_apart page _ _ _ i hcount
        simp only [entryOffset]
        omega
      · rw [hnew]
        simp only [entryOffset,e820Max]
        omega

section Image
variable (bzimage : List UInt8) (header : SetupHeader)

def copiedByte (i : ℕ) : UInt8 :=
  if i < min header.setupSize 4096 then bzimage.getD i 0 else 0

theorem blank_byte (copied : List UInt8) (i : ℕ) :
    (splice (List.replicate 4096 0) 0 copied).getD i 0 = copied.getD i 0 := by
  rw [List.getD_eq_getElem?_getD,List.getD_eq_getElem?_getD]
  by_cases hin : i < copied.length
  · have hread := splice_within (List.replicate 4096 (0 : UInt8)) copied 0 (Nat.zero_le _) i hin
    rw [Nat.zero_add] at hread
    rw [hread]
  · have hbehind : copied[i]? = none := List.getElem?_eq_none (Nat.le_of_not_lt hin)
    rw [splice_after _ copied 0 (Nat.zero_le _) i (by omega),hbehind,List.getElem?_replicate]
    split <;> rfl

theorem populated_byte (i : ℕ) (htype : i ≠ typeOfLoader) (hflags : i ≠ loadFlags) :
    (BootParams.zeroed.populateFromBzimage bzimage header).data.getD i 0 =
      copiedByte bzimage header i := by
  have htake : (bzimage.take (copyLen header)).getD i 0 = copiedByte bzimage header i := by
    rw [copiedByte,List.getD_eq_getElem?_getD,List.getD_eq_getElem?_getD,List.getElem?_take]
    by_cases hin : i < copyLen header
    · rw [if_pos hin]
      exact (if_pos hin).symm
    · rw [if_neg hin]
      exact (if_neg hin).symm
  rw [BootParams.populateFromBzimage,writeByte_byte_apart _ _ _ _ i hflags,
    writeByte_byte_apart _ _ _ _ i htype]
  exact (blank_byte _ i).trans htake

theorem commanded_byte (loadPhys cmdline : UInt32) (i : ℕ) (htype : i ≠ typeOfLoader)
    (hflags : i ≠ loadFlags) (hcode : ¬(codeStart ≤ i ∧ i < codeStart+4))
    (hline : ¬(cmdLinePtr ≤ i ∧ i < cmdLinePtr+4)) :
    (commanded bzimage header loadPhys cmdline).data.getD i 0 = copiedByte bzimage header i := by
  rw [commanded,BootParams.setCmdline,writeU32_byte_apart _ _ _ _ i (by omega),
    BootParams.setCode32Start,writeU32_byte_apart _ _ _ _ i (by omega),
    populated_byte bzimage header i htype hflags]

theorem setInitrd_byte (page : BootParams) (phys size : UInt32) (i : ℕ)
    (hi : ¬(ramdiskImage ≤ i ∧ i < ramdiskSize+4)) :
    (page.setInitrd phys size).data.getD i 0 = page.data.getD i 0 := by
  simp only [ramdiskImage,ramdiskSize] at hi
  rw [BootParams.setInitrd,writeU32_byte_apart _ _ _ _ i (by simp only [ramdiskSize]; omega),
    writeU32_byte_apart _ _ _ _ i (by simp only [ramdiskImage]; omega)]

theorem placeInitrd_byte (page loaded : BootParams) (initrd : Option (UInt64 × UInt32))
    (h : page.placeInitrd initrd = .ok loaded) (i : ℕ)
    (hi : ¬(ramdiskImage ≤ i ∧ i < ramdiskSize+4)) :
    loaded.data.getD i 0 = page.data.getD i 0 := by
  cases initrd with
  | none =>
    cases h
    rfl
  | some ramdisk =>
    obtain ⟨phys,size⟩ := ramdisk
    rw [BootParams.placeInitrd,tryIntoU32] at h
    by_cases hphys : phys.toNat < 2^32
    · rw [if_pos hphys] at h
      cases h
      exact setInitrd_byte page phys.toUInt32 size i hi
    · rw [if_neg hphys] at h
      cases h

end Image

theorem prepareLinuxBoot_ok (bzimage : List UInt8) (header : SetupHeader)
    (hparse : parseSetupHeader bzimage = .ok header) (kernelLoadPhys cmdlinePhys : UInt64)
    (initrd : Option (UInt64 × UInt32)) (memoryMap : List MemoryRegion) (image : LinuxBootImage)
    (h : prepareLinuxBoot bzimage kernelLoadPhys cmdlinePhys initrd memoryMap = .ok image) :
    ∃ loaded, (commanded bzimage header kernelLoadPhys.toUInt32
      cmdlinePhys.toUInt32).placeInitrd initrd = .ok loaded ∧
      image.bootParams = loaded.addRegions memoryMap ∧
      image.entryPoint = kernelLoadPhys.toNat+0x200 := by
  have hkernel : kernelLoadPhys.toNat < 2^32 := by
    by_contra hlarge
    rw [prepareLinuxBoot,hparse,tryIntoU32,if_neg hlarge] at h
    cases h
  have hcmdline : cmdlinePhys.toNat < 2^32 := by
    by_contra hlarge
    rw [prepareLinuxBoot,hparse,tryIntoU32_ok _ hkernel,tryIntoU32,if_neg hlarge] at h
    cases h
  rw [prepareLinuxBoot_eq bzimage header hparse kernelLoadPhys cmdlinePhys hkernel hcmdline] at h
  cases hloaded : (commanded bzimage header kernelLoadPhys.toUInt32
      cmdlinePhys.toUInt32).placeInitrd initrd with
  | error error =>
    rw [hloaded] at h
    cases h
  | ok loaded =>
    rw [hloaded] at h
    cases h
    exact ⟨loaded,rfl,rfl,rfl⟩

/-- The page of an accepted image keeps every byte that is not patched, the table is
written inside the page, and the entry point lies 0x200 behind the kernel's base. -/
theorem prepareLinuxBoot_frame (bzimage : List UInt8) (header : SetupHeader)
    (hparse : parseSetupHeader bzimage = .ok header) (kernelLoadPhys cmdlinePhys : UInt64)
    (initrd : Option (UInt64 × UInt32)) (memoryMap : List MemoryRegion) (image : LinuxBootImage)
    (hok : prepareLinuxBoot bzimage kernelLoadPhys cmdlinePhys initrd memoryMap = .ok image) :
    (∀ i < 4096, ¬Patched (bzimage.getD e820Entries 0).toNat memoryMap.length i →
      image.bootParams.data.getD i 0 = copiedByte bzimage header i) ∧
    (∀ page regions, addRegionsChecked page regions = some (page.addRegions regions)) ∧
    image.entryPoint = kernelLoadPhys.toNat+0x200 := by
  obtain ⟨loaded,hloaded,hpage,hentry⟩ := prepareLinuxBoot_ok bzimage header hparse kernelLoadPhys
    cmdlinePhys initrd memoryMap image hok
  refine ⟨?_,addRegionsChecked_eq,hentry⟩
  intro i _ hi
  have ⟨_,_,_,_,hsize,_⟩ := parseSetupHeader_ok bzimage header hparse
  have hbyte : ∀ j, j ≠ typeOfLoader → j ≠ loadFlags → ¬(codeStart ≤ j ∧ j < codeStart+4) →
      ¬(ramdiskImage ≤ j ∧ j < ramdiskSize+4) → ¬(cmdLinePtr ≤ j ∧ j < cmdLinePtr+4) →
      loaded.data.getD j 0 = copiedByte bzimage header j := by
    intro j htype hflags hcode hramdisk hline
    rw [placeInitrd_byte _ loaded initrd hloaded j hramdisk,
      commanded_byte bzimage header _ _ j htype hflags hcode hline]
  have hcount : loaded.e820Count = (bzimage.getD e820Entries 0).toNat := by
    have hfirst := hbyte e820Entries (by decide) (by decide) (by decide) (by decide) (by decide)
    have hcopied : e820Entries < min header.setupSize 4096 := by
      simp only [e820Entries]
      omega
    rw [BootParams.e820Count,BootParams.read,
      field_byte loaded.data (by rw [loaded.size]; decide) e820Entries (by decide),hfirst,
      copiedByte,if_pos hcopied]
  simp only [Patched,not_or] at hi
  obtain ⟨htype,hflags,hcode,hramdisk,hline,hentries,htable⟩ := hi
  rw [hpage,addRegions_byte_apart memoryMap loaded i hentries (by rw [hcount]; exact htable)]
  exact hbyte i htype hflags hcode hramdisk hline

theorem prepareLinuxBoot_frame_small : ∃ image,
    parseSetupHeader (smallImage 1) = .ok smallHeader ∧
    prepareLinuxBoot (smallImage 1) 0x2000000 0x100000 none lowMemory = .ok image ∧
    (∀ i < 4096, ¬Patched ((smallImage 1).getD e820Entries 0).toNat lowMemory.length i →
      image.bootParams.data.getD i 0 = copiedByte (smallImage 1) smallHeader i) ∧
    (∀ page regions, addRegionsChecked page regions = some (page.addRegions regions)) ∧
    image.entryPoint = UInt64.toNat 0x2000000+0x200 := by
  have hparse : parseSetupHeader (smallImage 1) = .ok smallHeader := by decide +kernel
  have hok := prepareLinuxBoot_eq (smallImage 1) smallHeader hparse 0x2000000 0x100000 (by decide)
    (by decide) none lowMemory
  exact ⟨_,hparse,hok,prepareLinuxBoot_frame (smallImage 1) smallHeader hparse 0x2000000 0x100000
    none lowMemory _ hok⟩

end Zamak.ZeroPageFrame
