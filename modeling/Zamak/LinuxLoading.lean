import Zamak.PlacedBlocks
import Zamak.ZeroPage

/-! # What a Linux kernel finds

`load_linux_kernel` of the UEFI loader puts the body of the kernel, the command line and
the initrd into pages of their own and describes them, and the memory of the machine, in
the zero page. The kernel is entered with the address of that page only; what it reads
there leads it to the same bytes. A panic is an outcome `none`. -/

set_option autoImplicit false

namespace Zamak.LinuxLoading
open Zamak.PlacedBlocks Zamak.Segments Zamak.ZeroPage

inductive MemoryType where
  | reserved
  | loaderCode
  | loaderData
  | bootServicesCode
  | bootServicesData
  | runtimeServicesCode
  | runtimeServicesData
  | conventional
  | unusable
  | acpiReclaim
  | acpiNonVolatile
  | mmio
  | mmioPortSpace
  | palCode
  | persistentMemory
  | other (ty : UInt32)
  deriving DecidableEq

def uefiMemTyToE820 : MemoryType → UInt32
  | .conventional => 1
  | .loaderCode => 1
  | .loaderData => 1
  | .bootServicesCode => 1
  | .bootServicesData => 1
  | .runtimeServicesCode => 2
  | .runtimeServicesData => 2
  | .acpiReclaim => 3
  | .acpiNonVolatile => 4
  | .unusable => 5
  | _ => 2

structure MemoryDescriptor where
  ty : MemoryType
  physStart : UInt64
  pageCount : UInt64
  deriving DecidableEq

def MemoryDescriptor.toRegion (d : MemoryDescriptor) : MemoryRegion :=
  { base := d.physStart, length := d.pageCount*4096, typ := uefiMemTyToE820 d.ty }

structure KernelHandoff where
  bootParamsPhys : ℕ
  entry : ℕ

def kernelBody (header : SetupHeader) (bzimage : List UInt8) : List UInt8 :=
  bzimage.drop header.setupSize

/-- The bytes of the page of the command line, with the zero behind them. -/
def cmdlineBytes (cmdline : List UInt8) : List UInt8 := cmdline.take 0xFFF++[0]

def pagesFor (size : ℕ) : ℕ := (size+0xFFF)/0x1000

section Load
variable (allocate : List Block → ℕ → Option ℕ)

def loadInitrd : Option (List UInt8) → Owner UInt8 → Option (Option (UInt64 × UInt32) × Owner UInt8)
  | none, o => some (none,o)
  | some blob, o => do
    let (phys,o) ← place allocate (pagesFor blob.length) blob o
    if blob.length < 2^32 then some (some (UInt64.ofNat phys,UInt32.ofNat blob.length),o) else none

/-- `load_linux_kernel`; the firmware's memory map is read once, behind the initrd. -/
def loadLinuxKernel (firmwareMap : Option (List MemoryDescriptor)) (bzimage cmdline : List UInt8)
    (initrd : Option (List UInt8)) (o : Owner UInt8) : Option (KernelHandoff × Owner UInt8) := do
  let header ← (parseSetupHeader bzimage).toOption
  let body := kernelBody header bzimage
  let (kernelLoadPhys,o) ← place allocate (pagesFor body.length) body o
  let (cmdlinePhys,o) ← place allocate 1 (cmdlineBytes cmdline) o
  let (initrdInfo,o) ← loadInitrd allocate initrd o
  let mmap ← firmwareMap
  let image ← (prepareLinuxBoot bzimage (UInt64.ofNat kernelLoadPhys) (UInt64.ofNat cmdlinePhys)
    initrdInfo (mmap.map MemoryDescriptor.toRegion)).toOption
  let (bpPhys,o) ← place allocate 1 image.bootParams.data o
  some ({ bootParamsPhys := bpPhys, entry := image.entryPoint },o)

end Load

def pageAt (memory : ℕ → UInt8) (a : ℕ) : BootParams :=
  ⟨stretch memory a 4096,stretch_length _ _ _⟩

structure Sees (memory : ℕ → UInt8) (handoff : KernelHandoff) (body cmdline : List UInt8)
    (initrd : Option (List UInt8)) (mmap : List MemoryDescriptor) : Prop where
  entry : handoff.entry = (pageAt memory handoff.bootParamsPhys).read codeStart 4+0x200
  kernel : stretch memory ((pageAt memory handoff.bootParamsPhys).read codeStart 4) body.length =
    body
  cmdline : stretch memory ((pageAt memory handoff.bootParamsPhys).read cmdLinePtr 4)
    (cmdlineBytes cmdline).length = cmdlineBytes cmdline
  initrd : initrd.elim ((pageAt memory handoff.bootParamsPhys).read ramdiskSize 4 = 0) fun blob =>
    (pageAt memory handoff.bootParamsPhys).read ramdiskSize 4 = blob.length ∧
      stretch memory ((pageAt memory handoff.bootParamsPhys).read ramdiskImage 4) blob.length = blob
  count : (pageAt memory handoff.bootParamsPhys).e820Count = min 128 mmap.length
  table : ∀ i < 128, ∀ d, mmap[i]? = some d →
    (pageAt memory handoff.bootParamsPhys).entryAt i = d.toRegion

theorem except_bind_ok {ε α β : Type} {x : Except ε α} {f : α → Except ε β} {b : β}
    (h : x >>= f = .ok b) : ∃ a, x = .ok a ∧ f a = .ok b := by
  cases x with
  | error e => cases h
  | ok a => exact ⟨a,rfl,h⟩

theorem toOption_some {ε α : Type} {x : Except ε α} {a : α} (h : x.toOption = some a) :
    x = .ok a := by
  cases x with
  | error e => cases h
  | ok b =>
    cases h
    rfl

theorem ofNat_toNat {n : ℕ} (h : n < 2^64) : (UInt64.ofNat n).toNat = n := by
  rw [UInt64.toNat_ofNat',Nat.mod_eq_of_lt h]

theorem pagesFor_room (size : ℕ) : size ≤ pagesFor size*4096 := by
  unfold pagesFor
  omega

section Prepare
variable {bzimage : List UInt8} {header : SetupHeader} {kernelLoadPhys cmdlinePhys : UInt64}
variable {initrd : Option (UInt64 × UInt32)} {memoryMap : List MemoryRegion}
variable {image : LinuxBootImage}

theorem tryIntoU32_lt {value : UInt64} {error : LinuxBootError} {word : UInt32}
    (h : tryIntoU32 value error = .ok word) : value.toNat < 2^32 := by
  by_contra hhigh
  rw [tryIntoU32,if_neg hhigh] at h
  cases h

theorem prepareLinuxBoot_low
    (h : prepareLinuxBoot bzimage kernelLoadPhys cmdlinePhys initrd memoryMap = .ok image) :
    kernelLoadPhys.toNat < 2^32 ∧ cmdlinePhys.toNat < 2^32 ∧
      image.entryPoint = kernelLoadPhys.toNat+0x200 := by
  obtain ⟨parsed,-,h⟩ := except_bind_ok h
  obtain ⟨loadPhys,hkernel,h⟩ := except_bind_ok h
  obtain ⟨cmdline,hcmdline,h⟩ := except_bind_ok h
  obtain ⟨loaded,-,h⟩ := except_bind_ok h
  refine ⟨tryIntoU32_lt hkernel,tryIntoU32_lt hcmdline,?_⟩
  split at h
  · cases h
    rfl
  · cases h

/-- A page that is prepared from a clean image carries what it was prepared for. -/
theorem prepareLinuxBoot_carries (hheader : parseSetupHeader bzimage = .ok header)
    (h : prepareLinuxBoot bzimage kernelLoadPhys cmdlinePhys initrd memoryMap = .ok image)
    (hclean : Clean bzimage header initrd memoryMap) :
    Carries image.bootParams kernelLoadPhys cmdlinePhys initrd memoryMap := by
  obtain ⟨hkernel,hcmdline,-⟩ := prepareLinuxBoot_low h
  have houtcome := prepareLinuxBoot_outcome bzimage header hheader kernelLoadPhys cmdlinePhys
    hkernel hcmdline initrd memoryMap
  rw [h] at houtcome
  exact houtcome.mpr hclean

end Prepare

theorem pageAt_placed {o : Owner UInt8} {a : ℕ} {page : BootParams}
    (h : Placed o a page.data) : pageAt o.memory a = page := by
  obtain ⟨pages,-,-,hdata⟩ := h
  rw [page.size] at hdata
  rw [pageAt,BootParams.mk.injEq]
  exact hdata

section Load
variable {allocate : List Block → ℕ → Option ℕ} (hfresh : Fresh allocate (2^64))
include hfresh

/-- The initrd is placed, and its address and length are the ones that go into the page. -/
theorem loadInitrd_placed {initrd : Option (List UInt8)} {o o' : Owner UInt8}
    {info : Option (UInt64 × UInt32)} (h : loadInitrd allocate initrd o = some (info,o')) :
    Kept o o' ∧ (info = none ↔ initrd = none) ∧ ∀ blob, initrd = some blob →
      ∃ phys size, info = some (phys,size) ∧ size.toNat = blob.length ∧
        Placed o' phys.toNat blob := by
  cases initrd with
  | none =>
    cases h
    refine ⟨Kept.refl o,by simp,fun blob hb => ?_⟩
    cases hb
  | some blob =>
    obtain ⟨⟨phys,placed⟩,hplace,h⟩ := Option.bind_eq_some_iff.mp h
    obtain ⟨hsize,hpair⟩ := Option.ite_none_right_eq_some.mp h
    cases hpair
    obtain ⟨hkept,hplaced,hphys⟩ := place_placed hfresh (pagesFor_room _) hplace
    refine ⟨hkept,by simp,fun other hother => ?_⟩
    cases hother
    refine ⟨_,_,rfl,?_,?_⟩
    · rw [UInt32.toNat_ofNat',Nat.mod_eq_of_lt hsize]
    · rw [ofNat_toNat hphys]
      exact hplaced

/-- What is handed over leads the kernel to its body, its command line and its initrd and
tells it the memory the firmware told; all of it is in fresh blocks. The image must leave
the fields clear that the loader counts on to be zero. -/
theorem linux_sees_handoff {bzimage cmdline : List UInt8} {initrd : Option (List UInt8)}
    {mmap : List MemoryDescriptor} {header : SetupHeader} {o o' : Owner UInt8}
    {handoff : KernelHandoff} (hheader : parseSetupHeader bzimage = .ok header)
    (htable : CleanTable bzimage header (mmap.map MemoryDescriptor.toRegion))
    (hfields : initrd = none →
      imageField bzimage header ramdiskImage 4 = 0 ∧ imageField bzimage header ramdiskSize 4 = 0)
    (h : loadLinuxKernel allocate (some mmap) bzimage cmdline initrd o = some (handoff,o')) :
    Kept o o' ∧ Sees o'.memory handoff (kernelBody header bzimage) cmdline initrd mmap := by
  unfold loadLinuxKernel at h
  rw [hheader] at h
  obtain ⟨parsed,hparsed,h⟩ := Option.bind_eq_some_iff.mp h
  cases hparsed
  obtain ⟨⟨kernelLoadPhys,o₁⟩,hkernel,h⟩ := Option.bind_eq_some_iff.mp h
  obtain ⟨⟨cmdlinePhys,o₂⟩,hcmdline,h⟩ := Option.bind_eq_some_iff.mp h
  obtain ⟨⟨info,o₃⟩,hinitrd,h⟩ := Option.bind_eq_some_iff.mp h
  obtain ⟨told,hmmap,h⟩ := Option.bind_eq_some_iff.mp h
  cases hmmap
  obtain ⟨image,himage,h⟩ := Option.bind_eq_some_iff.mp h
  obtain ⟨⟨bpPhys,o₄⟩,hbp,h⟩ := Option.bind_eq_some_iff.mp h
  cases h
  have hcmdlineRoom : (cmdlineBytes cmdline).length ≤ 1*4096 := by
    rw [cmdlineBytes,List.length_append,List.length_take,List.length_singleton]
    omega
  have hpageRoom : image.bootParams.data.length ≤ 1*4096 := Nat.le_of_eq image.bootParams.size
  obtain ⟨hkept₁,hbody,hbodyLt⟩ := place_placed hfresh (pagesFor_room _) hkernel
  obtain ⟨hkept₂,hline,hlineLt⟩ := place_placed hfresh hcmdlineRoom hcmdline
  obtain ⟨hkept₃,hinfo,hblob⟩ := loadInitrd_placed hfresh hinitrd
  obtain ⟨hkept₄,hpage,-⟩ := place_placed hfresh hpageRoom hbp
  have himage := toOption_some himage
  obtain ⟨-,-,hentry⟩ := prepareLinuxBoot_low himage
  have hcarries := prepareLinuxBoot_carries hheader himage
    ⟨htable,fun hnone => hfields (hinfo.mp hnone)⟩
  have hread : pageAt o'.memory bpPhys = image.bootParams := pageAt_placed hpage
  -- every block is still as it was filled
  have hrest := hkept₃.trans hkept₄
  refine ⟨hkept₁.trans (hkept₂.trans hrest),?_⟩
  obtain ⟨-,-,-,hbodyAt⟩ := hbody.kept (hkept₂.trans hrest)
  obtain ⟨-,-,-,hlineAt⟩ := hline.kept hrest
  have hcode := hcarries.code32Start
  have hcmd := hcarries.cmdLine
  rw [ofNat_toNat hbodyLt] at hcode hentry
  rw [ofNat_toNat hlineLt] at hcmd
  refine ⟨?_,?_,?_,?_,?_,?_⟩
  · rw [hread,hentry]
    exact congrArg (·+0x200) hcode.symm
  · rw [hread]
    exact hcode.symm ▸ hbodyAt
  · rw [hread]
    exact hcmd.symm ▸ hlineAt
  · rw [hread]
    cases initrd with
    | none =>
      have hnone := hcarries.ramdisk
      rw [hinfo.mpr rfl] at hnone
      exact hnone.2
    | some blob =>
      obtain ⟨phys,size,rfl,hsize,hplaced⟩ := hblob blob rfl
      obtain ⟨himageAt,hsizeAt⟩ := hcarries.ramdisk
      obtain ⟨-,-,-,hblobAt⟩ := hplaced.kept hkept₄
      exact ⟨hsizeAt.trans hsize,himageAt.symm ▸ hblobAt⟩
  · rw [hread,hcarries.count,List.length_map]
  · intro i hi d hd
    rw [hread]
    exact hcarries.table i hi _ (by rw [List.getElem?_map,hd]; rfl)

end Load

/-! ## A kernel above what was handed out -/

def allocateAbove (blocks : List Block) (_ : ℕ) : Option ℕ :=
  let top := blocks.foldr (fun b top => max (b.base+b.pages*4096) top) 0x200000
  if top < 2^32 then some top else none

theorem le_top (blocks : List Block) (b : Block) (hb : b ∈ blocks) :
    b.base+b.pages*4096 ≤ blocks.foldr (fun b top => max (b.base+b.pages*4096) top) 0x200000 := by
  induction blocks with
  | nil => cases hb
  | cons first rest ih =>
    rw [List.foldr_cons]
    rcases List.mem_cons.mp hb with rfl|hrest
    · exact Nat.le_max_left _ _
    · exact Nat.le_trans (ih hrest) (Nat.le_max_right _ _)

theorem allocateAbove_fresh : Fresh allocateAbove (2^64) where
  apart := by
    intro blocks pages base h b hb x hx hin
    obtain ⟨-,hbase⟩ := Option.ite_none_right_eq_some.mp h
    have htop := le_top blocks b hb
    rw [Option.some.inj hbase] at htop
    have hlow : base ≤ x := hin.1
    have hhigh := hx.2
    omega
  fits := by
    intro blocks pages base h
    obtain ⟨hlt,hbase⟩ := Option.ite_none_right_eq_some.mp h
    rw [Option.some.inj hbase] at hlt
    exact Nat.lt_trans hlt (by decide)

def lowPages : List MemoryDescriptor := [⟨.conventional,0,0x9F⟩,⟨.acpiReclaim,0x9F000,1⟩]

/-- A kernel of one byte, `root`, and an initrd of two bytes. -/
theorem linux_sees_handoff_small :
    ∃ handoff o', loadLinuxKernel allocateAbove (some lowPages) (smallImage 0)
        [0x72,0x6F,0x6F,0x74] (some [0xAB,0xCD]) ⟨fun _ => 0,[]⟩ = some (handoff,o') ∧
      stretch o'.memory ((pageAt o'.memory handoff.bootParamsPhys).read cmdLinePtr 4) 5 =
        [0x72,0x6F,0x6F,0x74,0] ∧
      (pageAt o'.memory handoff.bootParamsPhys).entryAt 1 = ⟨0x9F000,0x1000,3⟩ := by
  have hheader : parseSetupHeader (smallImage 0) = .ok smallHeader := by decide +kernel
  have hcount : imageField (smallImage 0) smallHeader 0x1E8 1 = 0 := by decide +kernel
  have hloads : (loadLinuxKernel allocateAbove (some lowPages) (smallImage 0)
      [0x72,0x6F,0x6F,0x74] (some [0xAB,0xCD]) ⟨fun _ => 0,[]⟩).isSome = true := by decide +kernel
  obtain ⟨⟨handoff,o'⟩,h⟩ := Option.isSome_iff_exists.mp hloads
  obtain ⟨-,hsees⟩ := linux_sees_handoff allocateAbove_fresh hheader (Or.inl hcount)
    (fun hnone => by cases hnone) h
  have hentry : (⟨.acpiReclaim,0x9F000,1⟩ : MemoryDescriptor).toRegion = ⟨0x9F000,0x1000,3⟩ := by
    decide
  exact ⟨handoff,o',h,hsees.cmdline,(hsees.table 1 (by decide) _ rfl).trans hentry⟩

end Zamak.LinuxLoading
