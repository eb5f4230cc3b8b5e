import Zamak.WindowSearch
import Zamak.TagStreams
import Mathlib.Data.List.GetD

/-! # The Linux zero page

The page starts as a copy of the image's first bytes; then the loader's own fields are
written one by one. The count of the memory map and the ramdisk fields are never cleared
between the two, so what the image holds there is taken for the loader's. -/

set_option autoImplicit false

namespace Zamak.ZeroPage
open Zamak.WindowSearch Zamak.TagStreams

def minBootProtocolVersion : ℕ := 0x0206
def hdrsMagic : ℕ := 0x53726448
def defaultKernelLoadAddr : ℕ := 0x00100000
def bootloaderType : UInt8 := 0xFF
def bootloaderVersion : UInt8 := 0
def loadedHigh : UInt8 := 0x01

def codeStart : ℕ := 0x214
def ramdiskImage : ℕ := 0x218
def ramdiskSize : ℕ := 0x21C
def cmdLinePtr : ℕ := 0x228
def typeOfLoader : ℕ := 0x210
def loadFlags : ℕ := 0x211
def e820Entries : ℕ := 0x1E8
def e820Table : ℕ := 0x2D0
def e820Max : ℕ := 128

inductive LinuxBootError where
  | imageTooSmall
  | invalidMagic
  | unsupportedVersion (version : ℕ)
  | emptyKernel
  | kernelLoadAddrOverflow
  | cmdlineAddrOverflow
  | initrdAddrOverflow
  deriving DecidableEq

structure SetupHeader where
  version : ℕ
  setupSects : ℕ
  loadflags : UInt8
  syssize : ℕ
  prefAddress : ℕ
  relocatable : Bool
  kernelAlignment : ℕ
  minAlignment : ℕ
  cmdlineSize : ℕ
  setupSize : ℕ
  initrdAddrMax : ℕ
  deriving DecidableEq

def field (bytes : List UInt8) (offset n : ℕ) : ℕ := bytesNat ((bytes.drop offset).take n)

/-- A shift of a `u32` takes its count modulo 32. -/
def parseSetupHeader (bzimage : List UInt8) : Except LinuxBootError SetupHeader :=
  if bzimage.length < 0x260 then .error .imageTooSmall
  else if field bzimage 0x202 4 ≠ hdrsMagic then .error .invalidMagic
  else
    let version := field bzimage 0x206 2
    if version < minBootProtocolVersion then .error (.unsupportedVersion version)
    else
      let setupSects := if field bzimage 0x1F1 1 = 0 then 4 else field bzimage 0x1F1 1
      let kernelAlignment := field bzimage 0x230 4
      let setupSize := (1+setupSects)*512
      if bzimage.length ≤ setupSize then .error .emptyKernel
      else .ok
        { version := version
          setupSects := setupSects
          loadflags := bzimage.getD 0x211 0
          syssize := field bzimage 0x1F4 4
          prefAddress :=
            if version ≥ 0x020A then field bzimage 0x258 8 else defaultKernelLoadAddr
          relocatable := bzimage.getD 0x234 0 != 0
          kernelAlignment := kernelAlignment
          minAlignment :=
            if version ≥ 0x020A then 2^(field bzimage 0x235 1%32) else kernelAlignment
          cmdlineSize := field bzimage 0x238 4
          setupSize := setupSize
          initrdAddrMax := field bzimage 0x22C 4 }

structure BootParams where
  data : List UInt8
  size : data.length = 4096

def BootParams.zeroed : BootParams := ⟨List.replicate 4096 0,List.length_replicate⟩

def BootParams.write (page : BootParams) (offset : ℕ) (new : List UInt8)
    (h : offset+new.length ≤ 4096) : BootParams :=
  ⟨splice page.data offset new,by
    rw [splice_length _ _ _ (by rw [page.size]; exact h),page.size]⟩

def BootParams.writeByte (page : BootParams) (offset : ℕ) (value : UInt8)
    (h : offset < 4096) : BootParams := page.write offset [value] h

def BootParams.read (page : BootParams) (offset n : ℕ) : ℕ := field page.data offset n

def BootParams.writeU32 (page : BootParams) (offset : ℕ) (value : UInt32)
    (h : offset+4 ≤ 4096) : BootParams :=
  page.write offset (natBytes 4 value.toNat) (by rwa [natBytes_length])

def BootParams.writeU64 (page : BootParams) (offset : ℕ) (value : UInt64)
    (h : offset+8 ≤ 4096) : BootParams :=
  page.write offset (natBytes 8 value.toNat) (by rwa [natBytes_length])

def copyLen (header : SetupHeader) : ℕ := min header.setupSize 4096

def BootParams.populateFromBzimage (page : BootParams) (bzimage : List UInt8)
    (header : SetupHeader) : BootParams :=
  let copied := page.write 0 (bzimage.take (copyLen header)) (by
    rw [Nat.zero_add,List.length_take]
    exact Nat.le_trans (Nat.min_le_left _ _) (Nat.min_le_right _ _))
  let named := copied.writeByte typeOfLoader (bootloaderType ||| (bootloaderVersion <<< 4))
    (by decide)
  named.writeByte loadFlags (named.data.getD loadFlags 0 ||| (loadedHigh ||| 0x80)) (by decide)

def BootParams.setCmdline (page : BootParams) (physAddr : UInt32) : BootParams :=
  page.writeU32 cmdLinePtr physAddr (by decide)

def BootParams.setInitrd (page : BootParams) (physAddr size : UInt32) : BootParams :=
  (page.writeU32 ramdiskImage physAddr (by decide)).writeU32 ramdiskSize size (by decide)

def BootParams.setCode32Start (page : BootParams) (addr : UInt32) : BootParams :=
  page.writeU32 codeStart addr (by decide)

structure MemoryRegion where
  base : UInt64
  length : UInt64
  typ : UInt32
  deriving DecidableEq

def BootParams.e820Count (page : BootParams) : ℕ := page.read e820Entries 1

def entryOffset (count : ℕ) : ℕ := e820Table+count*20

theorem entry_fits {count : ℕ} (h : count < e820Max) : entryOffset count+20 ≤ 4096 := by
  simp only [e820Max,e820Table,entryOffset] at *
  omega

/-- A region in the place of number `count`, which is then the last one. -/
def BootParams.putEntry (page : BootParams) (count : ℕ) (region : MemoryRegion)
    (h : count < e820Max) : BootParams :=
  let based := page.writeU64 (entryOffset count) region.base
    (by have := entry_fits h; omega)
  let sized := based.writeU64 (entryOffset count+8) region.length
    (by have := entry_fits h; omega)
  let typed := sized.writeU32 (entryOffset count+16) region.typ
    (by have := entry_fits h; omega)
  typed.writeByte e820Entries (UInt8.ofNat (count+1)) (by decide)

def BootParams.addE820Entry (page : BootParams) (region : MemoryRegion) : BootParams × Bool :=
  if h : page.e820Count ≥ e820Max then (page,false)
  else (page.putEntry page.e820Count region (Nat.lt_of_not_le h),true)

/-- The loop over the memory map stops at the first region without room. -/
def BootParams.addRegions : BootParams → List MemoryRegion → BootParams
  | page, [] => page
  | page, region::memoryMap =>
    match page.addE820Entry region with
    | (page',true) => page'.addRegions memoryMap
    | (page',false) => page'

structure LinuxBootImage where
  bootParams : BootParams
  entryPoint : ℕ

def tryIntoU32 (value : UInt64) (error : LinuxBootError) : Except LinuxBootError UInt32 :=
  if value.toNat < 2^32 then .ok value.toUInt32 else .error error

def BootParams.placeInitrd (page : BootParams) :
    Option (UInt64 × UInt32) → Except LinuxBootError BootParams
  | none => .ok page
  | some (initrdPhys,initrdSize) => do
    let phys ← tryIntoU32 initrdPhys .initrdAddrOverflow
    .ok (page.setInitrd phys initrdSize)

def prepareLinuxBoot (bzimage : List UInt8) (kernelLoadPhys cmdlinePhys : UInt64)
    (initrd : Option (UInt64 × UInt32)) (memoryMap : List MemoryRegion) :
    Except LinuxBootError LinuxBootImage := do
  let header ← parseSetupHeader bzimage
  let populated := BootParams.zeroed.populateFromBzimage bzimage header
  let loadPhys ← tryIntoU32 kernelLoadPhys .kernelLoadAddrOverflow
  let started := populated.setCode32Start loadPhys
  let cmdline ← tryIntoU32 cmdlinePhys .cmdlineAddrOverflow
  let commanded := started.setCmdline cmdline
  let loaded ← commanded.placeInitrd initrd
  let mapped := loaded.addRegions memoryMap
  if kernelLoadPhys.toNat+0x200 < 2^64 then
    .ok { bootParams := mapped, entryPoint := kernelLoadPhys.toNat+0x200 }
  else .error .kernelLoadAddrOverflow

def BootParams.entryAt (page : BootParams) (i : ℕ) : MemoryRegion :=
  { base := UInt64.ofNat (page.read (entryOffset i) 8)
    length := UInt64.ofNat (page.read (entryOffset i+8) 8)
    typ := UInt32.ofNat (page.read (entryOffset i+16) 4) }

section Writes
variable (page : BootParams)

theorem read_write (offset n : ℕ) (new : List UInt8) (h : offset+new.length ≤ 4096)
    (hn : new.length = n) : (page.write offset new h).read offset n = bytesNat new := by
  subst hn
  exact congrArg bytesNat (splice_read page.data new offset (by rw [page.size]; omega))

theorem read_write_apart (offset : ℕ) (new : List UInt8) (h : offset+new.length ≤ 4096)
    (o n : ℕ) (hapart : o+n ≤ offset ∨ offset+new.length ≤ o) :
    (page.write offset new h).read o n = page.read o n := by
  have hpos : offset ≤ page.data.length := by
    rw [page.size]
    omega
  cases hapart with
  | inl hbefore => exact congrArg bytesNat (splice_window page.data new offset hpos o n hbefore)
  | inr hbehind =>
    exact congrArg bytesNat (splice_window_behind page.data new offset hpos o n hbehind)

theorem read_writeU32 (offset : ℕ) (value : UInt32) (h : offset+4 ≤ 4096) :
    (page.writeU32 offset value h).read offset 4 = value.toNat := by
  rw [BootParams.writeU32,read_write page offset 4 _ _ (natBytes_length 4 _)]
  exact bytesNat_natBytes 4 _ value.toNat_lt

theorem read_writeU64 (offset : ℕ) (value : UInt64) (h : offset+8 ≤ 4096) :
    (page.writeU64 offset value h).read offset 8 = value.toNat := by
  rw [BootParams.writeU64,read_write page offset 8 _ _ (natBytes_length 8 _)]
  exact bytesNat_natBytes 8 _ value.toNat_lt

theorem read_writeByte (offset : ℕ) (value : UInt8) (h : offset < 4096) :
    (page.writeByte offset value h).read offset 1 = value.toNat :=
  read_write page offset 1 [value] h rfl

theorem read_writeU32_apart (offset : ℕ) (value : UInt32) (h : offset+4 ≤ 4096) (o n : ℕ)
    (hapart : o+n ≤ offset ∨ offset+4 ≤ o) :
    (page.writeU32 offset value h).read o n = page.read o n :=
  read_write_apart page offset _ _ o n (by rwa [natBytes_length])

theorem read_writeU64_apart (offset : ℕ) (value : UInt64) (h : offset+8 ≤ 4096) (o n : ℕ)
    (hapart : o+n ≤ offset ∨ offset+8 ≤ o) :
    (page.writeU64 offset value h).read o n = page.read o n :=
  read_write_apart page offset _ _ o n (by rwa [natBytes_length])

theorem read_writeByte_apart (offset : ℕ) (value : UInt8) (h : offset < 4096) (o n : ℕ)
    (hapart : o+n ≤ offset ∨ offset+1 ≤ o) :
    (page.writeByte offset value h).read o n = page.read o n :=
  read_write_apart page offset [value] h o n hapart

end Writes

/-- The fields between the count and the table, the loader's own ones. -/
def FieldsKept (page page' : BootParams) : Prop :=
  ∀ o n, e820Entries < o → o+n ≤ e820Table → page'.read o n = page.read o n

section Table
variable (page : BootParams)

theorem putEntry_count (count : ℕ) (region : MemoryRegion) (h : count < e820Max) :
    (page.putEntry count region h).e820Count = count+1 := by
  have hbyte : (UInt8.ofNat (count+1)).toNat = count+1 := by
    rw [UInt8.toNat_ofNat']
    simp only [e820Max] at h
    omega
  rw [BootParams.e820Count,BootParams.putEntry,read_writeByte,hbyte]

theorem putEntry_apart (count : ℕ) (region : MemoryRegion) (h : count < e820Max) (o n : ℕ)
    (hcount : e820Entries+1 ≤ o)
    (hentry : o+n ≤ entryOffset count ∨ entryOffset count+20 ≤ o) :
    (page.putEntry count region h).read o n = page.read o n := by
  rw [BootParams.putEntry,read_writeByte_apart _ _ _ _ _ _ (Or.inr hcount),
    read_writeU32_apart _ _ _ _ _ _ (by omega),read_writeU64_apart _ _ _ _ _ _ (by omega),
    read_writeU64_apart _ _ _ _ _ _ (by omega)]

theorem putEntry_entry (count : ℕ) (region : MemoryRegion) (h : count < e820Max) :
    (page.putEntry count region h).entryAt count = region := by
  have htable : e820Entries+1 ≤ entryOffset count := by
    simp only [e820Entries,entryOffset,e820Table]
    omega
  rw [BootParams.entryAt,BootParams.putEntry,
    read_writeByte_apart _ _ _ _ _ _ (Or.inr htable),
    read_writeByte_apart _ _ _ _ _ _ (Or.inr (by omega)),
    read_writeByte_apart _ _ _ _ _ _ (Or.inr (by omega)),
    read_writeU32_apart _ _ _ _ _ _ (by omega),
    read_writeU32_apart _ _ _ _ _ _ (by omega),read_writeU32,
    read_writeU64_apart _ _ _ _ _ _ (by omega),read_writeU64,read_writeU64]
  simp

theorem putEntry_others (count : ℕ) (region : MemoryRegion) (h : count < e820Max) (i : ℕ)
    (hi : i ≠ count) : (page.putEntry count region h).entryAt i = page.entryAt i := by
  have htable : e820Entries+1 ≤ entryOffset i := by
    simp only [e820Entries,entryOffset,e820Table]
    omega
  have hsides : entryOffset i+20 ≤ entryOffset count ∨ entryOffset count+20 ≤ entryOffset i := by
    simp only [entryOffset]
    omega
  rw [BootParams.entryAt,putEntry_apart _ _ _ _ _ _ (by omega) (by omega),
    putEntry_apart _ _ _ _ _ _ (by omega) (by omega),
    putEntry_apart _ _ _ _ _ _ (by omega) (by omega)]
  rfl

theorem putEntry_fields (count : ℕ) (region : MemoryRegion) (h : count < e820Max) :
    FieldsKept page (page.putEntry count region h) := by
  intro o n hlo hhi
  apply putEntry_apart _ _ _ _ _ _ hlo
  exact Or.inl (by simp only [entryOffset]; omega)

theorem addRegions_full (memoryMap : List MemoryRegion) (h : page.e820Count ≥ e820Max) :
    page.addRegions memoryMap = page := by
  cases memoryMap with
  | nil => rfl
  | cons region memoryMap => rw [BootParams.addRegions,BootParams.addE820Entry,dif_pos h]

end Table

theorem addRegions_spec (memoryMap : List MemoryRegion) (page : BootParams)
    (h : page.e820Count ≤ e820Max) :
    (page.addRegions memoryMap).e820Count = min (page.e820Count+memoryMap.length) e820Max ∧
    (∀ i < e820Max, (page.addRegions memoryMap).entryAt i =
      if i < page.e820Count then page.entryAt i
      else (memoryMap[i-page.e820Count]?).getD (page.entryAt i)) ∧
    FieldsKept page (page.addRegions memoryMap) := by
  induction memoryMap generalizing page with
  | nil =>
    refine ⟨(Nat.min_eq_left h).symm,fun i _ => ?_,fun _ _ _ _ => rfl⟩
    simp [BootParams.addRegions]
  | cons region memoryMap ih =>
    by_cases hfull : page.e820Count ≥ e820Max
    · rw [addRegions_full page _ hfull]
      refine ⟨?_,fun i hi => ?_,fun _ _ _ _ => rfl⟩
      · exact (Nat.min_eq_right (Nat.le_trans hfull (Nat.le_add_right _ _))).symm ▸
          Nat.le_antisymm h hfull
      · rw [if_pos (Nat.lt_of_lt_of_le hi hfull)]
    · have hroom : page.e820Count < e820Max := Nat.lt_of_not_le hfull
      have hcount := putEntry_count page page.e820Count region hroom
      have hstep : page.addRegions (region::memoryMap) =
          (page.putEntry page.e820Count region hroom).addRegions memoryMap := by
        rw [BootParams.addRegions,BootParams.addE820Entry,dif_neg hfull]
      obtain ⟨hlen,hentries,hfields⟩ :=
        ih (page.putEntry page.e820Count region hroom) (by rw [hcount]; exact hroom)
      rw [hcount] at hlen hentries
      rw [hstep]
      refine ⟨?_,fun i hi => ?_,fun o n hlo hhi => ?_⟩
      · rw [hlen,List.length_cons,Nat.add_right_comm,Nat.add_assoc]
      · rw [hentries i hi]
        rcases Nat.lt_trichotomy i page.e820Count with hlt | heq | hgt
        · rw [if_pos (by omega),if_pos hlt,putEntry_others _ _ _ _ _ (by omega)]
        · rw [if_pos (by omega),if_neg (by omega),heq,putEntry_entry,Nat.sub_self]
          rfl
        · rw [if_neg (by omega),if_neg (by omega),putEntry_others _ _ _ _ _ (by omega)]
          have hnext : i-page.e820Count = i-(page.e820Count+1)+1 := by omega
          rw [hnext,List.getElem?_cons_succ]
      · rw [hfields o n hlo hhi,putEntry_fields page _ region hroom o n hlo hhi]

/-- A number in the image as far as the image is copied, and zero behind that. -/
def imageField (bzimage : List UInt8) (header : SetupHeader) (offset n : ℕ) : ℕ :=
  let copied := bzimage.take (copyLen header)
  field (copied++List.replicate (4096-copied.length) 0) offset n

def imageEntry (bzimage : List UInt8) (header : SetupHeader) (i : ℕ) : MemoryRegion :=
  { base := UInt64.ofNat (imageField bzimage header (entryOffset i) 8)
    length := UInt64.ofNat (imageField bzimage header (entryOffset i+8) 8)
    typ := UInt32.ofNat (imageField bzimage header (entryOffset i+16) 4) }

/-- What the kernel reads from the page is what the loader was given. -/
structure Carries (page : BootParams) (kernelLoadPhys cmdlinePhys : UInt64)
    (initrd : Option (UInt64 × UInt32)) (memoryMap : List MemoryRegion) : Prop where
  count : page.e820Count = min 128 memoryMap.length
  table : ∀ i < 128, ∀ region, memoryMap[i]? = some region → page.entryAt i = region
  code32Start : page.read 0x214 4 = kernelLoadPhys.toNat
  cmdLine : page.read 0x228 4 = cmdlinePhys.toNat
  ramdisk : match initrd with
    | some (phys,size) => page.read 0x218 4 = phys.toNat ∧ page.read 0x21C 4 = size.toNat
    | none => page.read 0x218 4 = 0 ∧ page.read 0x21C 4 = 0

/-- The image's own entry count `c` is zero, or it is at most 128, there are 128 regions,
and the image's `c` entries followed by the regions begin with the 128 regions. -/
def CleanTable (bzimage : List UInt8) (header : SetupHeader) (memoryMap : List MemoryRegion) :
    Prop :=
  let c := imageField bzimage header 0x1E8 1
  c = 0 ∨ c ≤ 128 ∧ 128 ≤ memoryMap.length ∧ ∀ i < 128,
    memoryMap[i]? = if i < c then some (imageEntry bzimage header i) else memoryMap[i-c]?

def Clean (bzimage : List UInt8) (header : SetupHeader) (initrd : Option (UInt64 × UInt32))
    (memoryMap : List MemoryRegion) : Prop :=
  CleanTable bzimage header memoryMap ∧
  (initrd = none →
    imageField bzimage header 0x218 4 = 0 ∧ imageField bzimage header 0x21C 4 = 0)

section Populated
variable (bzimage : List UInt8) (header : SetupHeader)

theorem populated_read (o n : ℕ) (h : o+n ≤ typeOfLoader ∨ loadFlags+1 ≤ o) :
    (BootParams.zeroed.populateFromBzimage bzimage header).read o n =
      imageField bzimage header o n := by
  have hzero : ∀ k, (List.replicate 4096 (0:UInt8)).drop k = List.replicate (4096-k) 0 :=
    fun k => List.drop_replicate
  rw [BootParams.populateFromBzimage,
    read_writeByte_apart _ _ _ _ _ _ (by simp only [typeOfLoader,loadFlags] at *; omega),
    read_writeByte_apart _ _ _ _ _ _ (by simp only [typeOfLoader,loadFlags] at *; omega)]
  simp only [BootParams.read,BootParams.write,BootParams.zeroed,splice,List.take_zero,
    List.nil_append,Nat.zero_add,hzero,imageField]

theorem entryAt_image (page : BootParams)
    (h : ∀ o n, 0x22C ≤ o → page.read o n = imageField bzimage header o n) (i : ℕ) :
    page.entryAt i = imageEntry bzimage header i := by
  have htable : 0x22C ≤ entryOffset i := by
    simp only [entryOffset,e820Table]
    omega
  rw [BootParams.entryAt,h _ _ htable,h _ _ (by omega),h _ _ (by omega)]
  rfl

end Populated

/-- The entry behind `c` old ones is a region exactly when the regions, put behind the old
entries, have it there too. -/
theorem entry_same_iff (c i : ℕ) (old : MemoryRegion) (memoryMap : List MemoryRegion)
    (hi : i < memoryMap.length) :
    (if i < c then old else memoryMap[i-c]?.getD old) = memoryMap[i] ↔
      memoryMap[i]? = if i < c then some old else memoryMap[i-c]? := by
  rw [List.getElem?_eq_getElem hi]
  by_cases hold : i < c
  · rw [if_pos hold,if_pos hold]
    exact ⟨fun h => by rw [h],fun h => (Option.some.inj h).symm⟩
  · have hbehind : i-c < memoryMap.length := by omega
    rw [if_neg hold,if_neg hold,List.getElem?_eq_getElem hbehind,Option.getD_some]
    exact ⟨fun h => by rw [h],fun h => (Option.some.inj h).symm⟩

/-- The regions appended to the image's own entries are the first 128 regions exactly
when the image's table is clean. -/
theorem addRegions_table_iff (page : BootParams) (bzimage : List UInt8) (header : SetupHeader)
    (memoryMap : List MemoryRegion)
    (hcount : page.e820Count = imageField bzimage header 0x1E8 1)
    (hentry : ∀ i, page.entryAt i = imageEntry bzimage header i) :
    (page.addRegions memoryMap).e820Count = min 128 memoryMap.length ∧
      (∀ i < 128, ∀ region, memoryMap[i]? = some region →
        (page.addRegions memoryMap).entryAt i = region) ↔
    CleanTable bzimage header memoryMap := by
  have hmax : e820Max = 128 := rfl
  rw [CleanTable,← hcount]
  by_cases hover : 128 < page.e820Count
  · rw [addRegions_full page memoryMap (Nat.le_of_lt hover)]
    constructor
    · intro hread
      have := hread.1
      omega
    · rintro (hzero | ⟨hle,-⟩) <;> omega
  have hle : page.e820Count ≤ 128 := by omega
  obtain ⟨hnew,hentries,-⟩ := addRegions_spec memoryMap page hle
  simp only [hmax,hentry] at hnew hentries
  rw [hnew]
  constructor
  · rintro ⟨hlen,htable⟩
    by_cases hzero : page.e820Count = 0
    · exact Or.inl hzero
    · have hmany : 128 ≤ memoryMap.length := by omega
      refine Or.inr ⟨hle,hmany,fun i hi => ?_⟩
      have hin : i < memoryMap.length := by omega
      have hread := htable i hi _ (List.getElem?_eq_getElem hin)
      rw [hentries i hi] at hread
      exact (entry_same_iff _ i _ memoryMap hin).mp hread
  · intro hclean
    constructor
    · rcases hclean with hzero | ⟨-,hmany,-⟩ <;> omega
    · intro i hi region hregion
      have ⟨hin,hget⟩ := List.getElem?_eq_some_iff.mp hregion
      rw [hentries i hi]
      rcases hclean with hzero | ⟨-,-,hsame⟩
      · rw [if_neg (by omega),hzero,Nat.sub_zero,hregion,Option.getD_some]
      · rw [(entry_same_iff _ i _ memoryMap hin).mpr (hsame i hi),hget]

theorem addRegions_fields (page : BootParams) (memoryMap : List MemoryRegion) :
    FieldsKept page (page.addRegions memoryMap) := by
  by_cases h : page.e820Count ≤ e820Max
  · exact (addRegions_spec memoryMap page h).2.2
  · intro o n _ _
    rw [addRegions_full page memoryMap (Nat.le_of_not_le h)]

section Handoff
variable (bzimage : List UInt8) (header : SetupHeader)

def commanded (loadPhys cmdline : UInt32) : BootParams :=
  ((BootParams.zeroed.populateFromBzimage bzimage header).setCode32Start loadPhys).setCmdline
    cmdline

theorem commanded_read (loadPhys cmdline : UInt32) (o n : ℕ)
    (h : o+n ≤ 0x210 ∨ 0x218 ≤ o ∧ o+n ≤ 0x228 ∨ 0x22C ≤ o) :
    (commanded bzimage header loadPhys cmdline).read o n = imageField bzimage header o n := by
  rw [commanded,BootParams.setCmdline,read_writeU32_apart,BootParams.setCode32Start,
    read_writeU32_apart,populated_read]
  · simp only [typeOfLoader,loadFlags]
    omega
  · simp only [codeStart]
    omega
  · simp only [cmdLinePtr]
    omega

theorem commanded_addresses (loadPhys cmdline : UInt32) :
    (commanded bzimage header loadPhys cmdline).read codeStart 4 = loadPhys.toNat ∧
    (commanded bzimage header loadPhys cmdline).read cmdLinePtr 4 = cmdline.toNat := by
  constructor
  · rw [commanded,BootParams.setCmdline,read_writeU32_apart _ _ _ _ _ _ (Or.inl (by decide)),
      BootParams.setCode32Start,read_writeU32]
  · rw [commanded,BootParams.setCmdline,read_writeU32]

/-- A page that holds the image's table, the addresses, and the given initrd or the
image's own one, carries what it was given exactly when the image is clean. -/
theorem carries_iff (page : BootParams) (kernelLoadPhys cmdlinePhys : UInt64)
    (initrd : Option (UInt64 × UInt32)) (memoryMap : List MemoryRegion)
    (hcount : page.e820Count = imageField bzimage header 0x1E8 1)
    (hentry : ∀ i, page.entryAt i = imageEntry bzimage header i)
    (hcode : page.read 0x214 4 = kernelLoadPhys.toNat)
    (hline : page.read 0x228 4 = cmdlinePhys.toNat)
    (hramdisk : match initrd with
      | some (phys,size) => page.read 0x218 4 = phys.toNat ∧ page.read 0x21C 4 = size.toNat
      | none => ∀ o, 0x218 ≤ o → o+4 ≤ 0x220 → page.read o 4 = imageField bzimage header o 4) :
    Carries (page.addRegions memoryMap) kernelLoadPhys cmdlinePhys initrd memoryMap ↔
      Clean bzimage header initrd memoryMap := by
  have htable := addRegions_table_iff page bzimage header memoryMap hcount hentry
  have hkept : ∀ o, 0x214 ≤ o → o+4 ≤ 0x22C →
      (page.addRegions memoryMap).read o 4 = page.read o 4 := by
    intro o hlo hhi
    apply addRegions_fields page memoryMap o 4
    · exact Nat.lt_of_lt_of_le (by decide) hlo
    · exact Nat.le_trans hhi (by decide)
  have h1 := hkept 0x214 (by decide) (by decide)
  have h2 := hkept 0x218 (by decide) (by decide)
  have h3 := hkept 0x21C (by decide) (by decide)
  have h4 := hkept 0x228 (by decide) (by decide)
  constructor
  · intro hread
    refine ⟨htable.mp ⟨hread.count,hread.table⟩,?_⟩
    intro hnone
    subst hnone
    have hzero := hread.ramdisk
    rw [h2,h3,hramdisk 0x218 (by decide) (by decide),hramdisk 0x21C (by decide) (by decide)]
      at hzero
    exact hzero
  · intro hclean
    have ⟨hlen,hentries⟩ := htable.mpr hclean.1
    refine ⟨hlen,hentries,h1.trans hcode,h4.trans hline,?_⟩
    rw [h2,h3]
    cases initrd with
    | some ramdisk => exact hramdisk
    | none =>
      have ⟨hz1,hz2⟩ := hclean.2 rfl
      exact ⟨(hramdisk 0x218 (by decide) (by decide)).trans hz1,
        (hramdisk 0x21C (by decide) (by decide)).trans hz2⟩

end Handoff

theorem tryIntoU32_ok {value : UInt64} (error : LinuxBootError) (h : value.toNat < 2^32) :
    tryIntoU32 value error = .ok value.toUInt32 := if_pos h

theorem toUInt32_toNat {value : UInt64} (h : value.toNat < 2^32) :
    value.toUInt32.toNat = value.toNat := by
  rw [UInt64.toNat_toUInt32,Nat.mod_eq_of_lt h]

theorem setInitrd_apart (page : BootParams) (phys size : UInt32) (o n : ℕ)
    (h : o+n ≤ 0x218 ∨ 0x220 ≤ o) : (page.setInitrd phys size).read o n = page.read o n := by
  rw [BootParams.setInitrd,read_writeU32_apart,read_writeU32_apart]
  · simp only [ramdiskImage]
    omega
  · simp only [ramdiskSize]
    omega

theorem setInitrd_given (page : BootParams) (phys size : UInt32) :
    (page.setInitrd phys size).read 0x218 4 = phys.toNat ∧
    (page.setInitrd phys size).read 0x21C 4 = size.toNat := by
  constructor
  · rw [BootParams.setInitrd,read_writeU32_apart _ _ _ _ _ _ (Or.inl (by decide))]
    exact read_writeU32 _ _ _ _
  · exact read_writeU32 _ _ _ _

theorem prepareLinuxBoot_eq (bzimage : List UInt8) (header : SetupHeader)
    (hparse : parseSetupHeader bzimage = .ok header) (kernelLoadPhys cmdlinePhys : UInt64)
    (hkernel : kernelLoadPhys.toNat < 2^32) (hcmdline : cmdlinePhys.toNat < 2^32)
    (initrd : Option (UInt64 × UInt32)) (memoryMap : List MemoryRegion) :
    prepareLinuxBoot bzimage kernelLoadPhys cmdlinePhys initrd memoryMap =
      ((commanded bzimage header kernelLoadPhys.toUInt32 cmdlinePhys.toUInt32).placeInitrd
        initrd >>= fun loaded => .ok
          { bootParams := loaded.addRegions memoryMap
            entryPoint := kernelLoadPhys.toNat+0x200 }) := by
  have hentryPoint : kernelLoadPhys.toNat+0x200 < 2^64 := by omega
  rw [prepareLinuxBoot,hparse,tryIntoU32_ok _ hkernel,tryIntoU32_ok _ hcmdline]
  simp only [if_pos hentryPoint]
  rfl

theorem prepareLinuxBoot_outcome (bzimage : List UInt8) (header : SetupHeader)
    (hparse : parseSetupHeader bzimage = .ok header) (kernelLoadPhys cmdlinePhys : UInt64)
    (hkernel : kernelLoadPhys.toNat < 2^32) (hcmdline : cmdlinePhys.toNat < 2^32)
    (initrd : Option (UInt64 × UInt32)) (memoryMap : List MemoryRegion) :
    match prepareLinuxBoot bzimage kernelLoadPhys cmdlinePhys initrd memoryMap with
    | .ok image => Carries image.bootParams kernelLoadPhys cmdlinePhys initrd memoryMap ↔
        Clean bzimage header initrd memoryMap
    | .error error => error = .initrdAddrOverflow ∧
        ∃ phys size, initrd = some (phys,size) ∧ 2^32 ≤ phys.toNat := by
  have haddresses := commanded_addresses bzimage header kernelLoadPhys.toUInt32 cmdlinePhys.toUInt32
  rw [toUInt32_toNat hkernel,toUInt32_toNat hcmdline] at haddresses
  have himage := commanded_read bzimage header kernelLoadPhys.toUInt32 cmdlinePhys.toUInt32
  rw [prepareLinuxBoot_eq bzimage header hparse kernelLoadPhys cmdlinePhys hkernel hcmdline]
  generalize commanded bzimage header kernelLoadPhys.toUInt32 cmdlinePhys.toUInt32 = page at *
  cases initrd with
  | none =>
    exact carries_iff bzimage header page kernelLoadPhys cmdlinePhys none memoryMap
      (himage _ _ (Or.inl (by decide)))
      (entryAt_image bzimage header page fun o n ho => himage o n (Or.inr (Or.inr ho)))
      haddresses.1 haddresses.2
      (fun o hlo hhi => himage o 4 (Or.inr (Or.inl ⟨hlo,by omega⟩)))
  | some ramdisk =>
    obtain ⟨phys,size⟩ := ramdisk
    by_cases hphys : phys.toNat < 2^32
    · have hset := setInitrd_apart page phys.toUInt32 size
      have hgiven := setInitrd_given page phys.toUInt32 size
      rw [toUInt32_toNat hphys] at hgiven
      rw [BootParams.placeInitrd,tryIntoU32_ok _ hphys]
      exact carries_iff bzimage header _ kernelLoadPhys cmdlinePhys (some (phys,size)) memoryMap
        ((hset _ _ (Or.inl (by decide))).trans (himage _ _ (Or.inl (by decide))))
        (entryAt_image bzimage header _ fun o n ho =>
          (hset o n (Or.inr (by omega))).trans (himage o n (Or.inr (Or.inr ho))))
        ((hset _ _ (Or.inl (by decide))).trans haddresses.1)
        ((hset _ _ (Or.inr (by decide))).trans haddresses.2) hgiven
    · have herror : tryIntoU32 phys .initrdAddrOverflow = .error .initrdAddrOverflow :=
        if_neg hphys
      rw [BootParams.placeInitrd,herror]
      exact ⟨rfl,phys,size,rfl,Nat.le_of_not_lt hphys⟩

/-- The page of an accepted image carries exactly what the loader was given, if and only
if the image's own bytes are clean; no page is returned for an initrd past 4 GiB only. -/
theorem prepareLinuxBoot_carries_iff (bzimage : List UInt8) (header : SetupHeader)
    (hparse : parseSetupHeader bzimage = .ok header) (kernelLoadPhys cmdlinePhys : UInt64)
    (hkernel : kernelLoadPhys.toNat < 2^32) (hcmdline : cmdlinePhys.toNat < 2^32)
    (initrd : Option (UInt64 × UInt32)) (memoryMap : List MemoryRegion) :
    (∀ image, prepareLinuxBoot bzimage kernelLoadPhys cmdlinePhys initrd memoryMap = .ok image →
      (Carries image.bootParams kernelLoadPhys cmdlinePhys initrd memoryMap ↔
        Clean bzimage header initrd memoryMap)) ∧
    ∀ error, prepareLinuxBoot bzimage kernelLoadPhys cmdlinePhys initrd memoryMap = .error error →
      error = .initrdAddrOverflow ∧ ∃ phys size, initrd = some (phys,size) ∧ 2^32 ≤ phys.toNat := by
  have houtcome := prepareLinuxBoot_outcome bzimage header hparse kernelLoadPhys cmdlinePhys
    hkernel hcmdline initrd memoryMap
  constructor
  · intro image hok
    rwa [hok] at houtcome
  · intro error herror
    rwa [herror] at houtcome

/-- A smallest image with one setup sector; the byte stands where the count belongs. -/
def smallImage (byte : UInt8) : List UInt8 :=
  let blank := List.replicate 1025 0
  let sectored := splice (splice blank e820Entries [byte]) 0x1F1 [1]
  splice (splice sectored 0x202 (natBytes 4 hdrsMagic)) 0x206 [0x0F,0x02]

def smallHeader : SetupHeader :=
  { version := 0x020F, setupSects := 1, loadflags := 0, syssize := 0, prefAddress := 0
    relocatable := false, kernelAlignment := 0, minAlignment := 1, cmdlineSize := 0
    setupSize := 1024, initrdAddrMax := 0 }

def lowMemory : List MemoryRegion := [⟨0,0x9F000,1⟩,⟨0x100000,0x10000000,1⟩]

theorem prepareLinuxBoot_carries_small :
    ∃ image, prepareLinuxBoot (smallImage 0) 0x2000000 0x100000 none lowMemory = .ok image ∧
      Carries image.bootParams 0x2000000 0x100000 none lowMemory := by
  have ⟨hpage,herror⟩ := prepareLinuxBoot_carries_iff (smallImage 0) smallHeader
    (by decide +kernel) 0x2000000 0x100000 (by decide) (by decide) none lowMemory
  have hclean : Clean (smallImage 0) smallHeader none lowMemory :=
    ⟨Or.inl (by decide +kernel),fun _ => by decide +kernel⟩
  cases hprepare : prepareLinuxBoot (smallImage 0) 0x2000000 0x100000 none lowMemory with
  | ok image => exact ⟨image,rfl,(hpage image hprepare).mpr hclean⟩
  | error error =>
    have ⟨_,_,_,hnone,_⟩ := herror error hprepare
    cases hnone

/-- An image with a one at the place of the count: two regions become three entries. -/
theorem stale_count :
    parseSetupHeader (smallImage 1) = .ok smallHeader ∧
    ∃ image, prepareLinuxBoot (smallImage 1) 0x2000000 0x100000 none lowMemory = .ok image ∧
      image.bootParams.e820Count = 3 ∧
      ¬Carries image.bootParams 0x2000000 0x100000 none lowMemory := by
  refine ⟨by decide +kernel,?_⟩
  have hcount : (prepareLinuxBoot (smallImage 1) 0x2000000 0x100000 none lowMemory).map
      (fun image => image.bootParams.e820Count) = .ok 3 := by decide +kernel
  generalize prepareLinuxBoot (smallImage 1) 0x2000000 0x100000 none lowMemory = result at hcount
  cases result with
  | ok image =>
    have hthree : image.bootParams.e820Count = 3 := Except.ok.inj hcount
    refine ⟨image,rfl,hthree,fun hread => ?_⟩
    have hlen := hread.count
    rw [hthree] at hlen
    exact absurd hlen (by decide)
  | error error => cases hcount

end Zamak.ZeroPage
