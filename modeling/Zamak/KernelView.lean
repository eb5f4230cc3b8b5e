import Zamak.SegmentLoading
import Zamak.VmmCoverage

/-! # What the kernel sees

The loader copies the kernel to a window of physical memory, rebases it, and builds tables
that map the window at its virtual base and all of memory at the direct map. Through these
tables the kernel finds its image at the addresses it is linked or slid to, with every
relocated word in place, and the same memory a second time in the direct map. -/

set_option autoImplicit false

namespace Zamak.KernelView
open Zamak.VmmPlan Zamak.RadixStore Zamak.PageFormats Zamak.PageCodecs Zamak.PageTables
  Zamak.VmmApply Zamak.VmmCoverage Zamak.PieLoading Zamak.SegmentLoading

def kernelLoadArea : Permissions :=
  { readable := true, writable := true, executable := true, user := false }

structure MemoryDescriptor where
  physStart : Address
  pageCount : BitVec 64

/-- The end of the memory of a descriptor, as far as a word can tell. -/
def MemoryDescriptor.physEnd (d : MemoryDescriptor) : ℕ :=
  if d.physStart.toNat+min (d.pageCount.toNat*4096) (2^64-1) < 2^64 then
    d.physStart.toNat+min (d.pageCount.toNat*4096) (2^64-1)
  else 2^64-1

def maxPhysFromMmap (entries : List MemoryDescriptor) : ℕ :=
  ((entries.map MemoryDescriptor.physEnd).max?).getD (4*1024*1024*1024)

def kernelMapping (kernel : LoadedKernel) : Mapping :=
  { virtBase := kernel.vaddrStart, physBase := kernel.physBase,
    length := BitVec.ofNat 64 kernel.size, perms := kernelLoadArea, cache := .writeBack }

def hhdmMapping (entries : List MemoryDescriptor) : Mapping :=
  { virtBase := hhdmVirtBase, physBase := 0, length := BitVec.ofNat 64 (maxPhysFromMmap entries),
    perms := kernelData, cache := .writeBack }

def buildPlan (kernel : LoadedKernel) (entries : List MemoryDescriptor) : List Mapping :=
  [kernelMapping kernel,hhdmMapping entries]

section Build
variable {A : Type} [FrameAllocator A]

/-- `paging::build` of the three ports on the core builder; `none` is one of its panics. -/
def build (arch : Arch) (allocator : A) (physToTable : Word → Fin 512 → Word)
    (kernel : LoadedKernel) (entries : List MemoryDescriptor) : Option (PageTableBuilder A) := do
  let builder ← new allocator physToTable
  match apply arch.format (buildPlan kernel entries) builder with
  | (some _,builder) => some builder
  | (none,_) => none

end Build

/-- Where a window and the memory have to be for tables of 48 bits: the window on whole
pages and apart from the direct map. -/
structure Mappable (kernel : LoadedKernel) (maxPhys : ℕ) : Prop where
  physAligned : kernel.physBase.toNat%4096 = 0
  physEnd : kernel.physBase.toNat+kernel.size ≤ 2^48
  memory : maxPhys ≤ 2^47
  apart : kernel.vaddrStart.toNat+kernel.size ≤ 2^47 ∨
    2^64-2^47+(maxPhys+4095)/4096*4096 ≤ kernel.vaddrStart.toNat ∧
      kernel.vaddrStart.toNat+kernel.size ≤ 2^64

section Translation
variable (kernel : LoadedKernel) (entries : List MemoryDescriptor)

theorem hhdm_toNat : hhdmVirtBase.toNat = 2^64-2^47 := rfl

theorem kernelMapping_length (h : kernel.size < 2^64) :
    (kernelMapping kernel).length.toNat = kernel.size := by
  rw [kernelMapping,BitVec.toNat_ofNat,Nat.mod_eq_of_lt h]

theorem hhdmMapping_length (h : maxPhysFromMmap entries < 2^64) :
    (hhdmMapping entries).length.toNat = maxPhysFromMmap entries := by
  rw [hhdmMapping,BitVec.toNat_ofNat,Nat.mod_eq_of_lt h]

theorem buildPlan_separate (hvirt : kernel.vaddrStart.toNat%4096 = 0)
    (h : Mappable kernel (maxPhysFromMmap entries)) : Separate (buildPlan kernel entries) := by
  have hphys := h.physEnd
  have hmemory := h.memory
  have hapart := h.apart
  have haligned := h.physAligned
  have hlength := kernelMapping_length kernel (by omega)
  have hlength' := hhdmMapping_length entries (by omega)
  have hbase : (hhdmMapping entries).virtBase.toNat = 2^64-2^47 := rfl
  have hkernel : (kernelMapping kernel).virtBase.toNat = kernel.vaddrStart.toNat := rfl
  refine ⟨?_,?_,?_,?_⟩
  · rintro m hm o ho
    rcases List.mem_cons.mp hm with rfl | hm
    · rw [hlength] at ho
      rw [hkernel]
      unfold IsCanonical
      omega
    · rw [List.mem_singleton.mp hm] at ho ⊢
      rw [hlength'] at ho
      rw [hbase]
      unfold IsCanonical
      omega
  · rintro m hm
    rcases List.mem_cons.mp hm with rfl | hm
    · exact hvirt.trans haligned.symm
    · rw [List.mem_singleton.mp hm,hbase]
      show _ = 0%4096
      omega
  · rintro m hm
    rcases List.mem_cons.mp hm with rfl | hm
    · rw [hlength]
      exact hphys
    · rw [List.mem_singleton.mp hm,hlength']
      show 0+_ ≤ _
      omega
  · refine List.pairwise_cons.mpr ⟨?_,List.pairwise_singleton _ _⟩
    rintro m hm page ⟨⟨o,ho,hpage⟩,o',ho',hpage'⟩
    rw [List.mem_singleton.mp hm] at ho' hpage'
    rw [hlength] at ho
    rw [hlength'] at ho'
    rw [hkernel] at hpage
    rw [hbase] at hpage'
    omega

variable {A : Type} [FrameAllocator A]

/-- Tables that are built map every byte of the window and every byte of memory. -/
theorem build_translates (arch : Arch) (allocator : A) (physToTable : Word → Fin 512 → Word)
    (builder : PageTableBuilder A) (hallocator : Honest allocFrame IsFrame allocator)
    (hbuild : build arch allocator physToTable kernel entries = some builder)
    (hvirt : kernel.vaddrStart.toNat%4096 = 0)
    (h : Mappable kernel (maxPhysFromMmap entries)) :
    (∀ o < kernel.size, translateAddress arch.format builder
        (kernel.vaddrStart+BitVec.ofNat 64 o) =
      some (kernel.physBase+BitVec.ofNat 64 o,arch.format.leafAttrs kernelLoadArea .writeBack)) ∧
    ∀ p < maxPhysFromMmap entries, translateAddress arch.format builder
        (hhdmVirtBase+BitVec.ofNat 64 p) =
      some (BitVec.ofNat 64 p,arch.format.leafAttrs kernelData .writeBack) := by
  have hphys := h.physEnd
  have hmemory := h.memory
  have hlength := kernelMapping_length kernel (by omega)
  have hlength' := hhdmMapping_length entries (by omega)
  have hseparate := buildPlan_separate kernel entries hvirt h
  obtain ⟨b,hnew,happlied⟩ := Option.bind_eq_some_iff.mp hbuild
  obtain ⟨result,next,hrun⟩ : ∃ result next,
      apply arch.format (buildPlan kernel entries) b = (result,next) := ⟨_,_,rfl⟩
  rw [hrun] at happlied
  cases result with
  | none => cases happlied
  | some u =>
    cases happlied
    have hoffset := translate_offset arch.format (faithful arch) allocator physToTable b builder
      hallocator hnew (buildPlan kernel entries) hseparate hrun
    constructor
    · intro o ho
      have hbounds := pageCount_bounds (kernelMapping kernel)
      have hone := hoffset (kernelMapping kernel) (List.mem_cons_self ..) o (by omega)
      rw [if_pos] at hone
      · exact hone
      · show kernel.vaddrStart.toNat%4096+o < _
        omega
    · intro p hp
      have hbounds := pageCount_bounds (hhdmMapping entries)
      have hone := hoffset (hhdmMapping entries)
        (List.mem_cons_of_mem _ (List.mem_singleton.mpr rfl)) p (by omega)
      rw [if_pos] at hone
      · rw [show virtOffset (hhdmMapping entries) p = hhdmVirtBase+BitVec.ofNat 64 p from rfl,
          planned,show physOffset (hhdmMapping entries) p = 0#64+BitVec.ofNat 64 p from rfl,
          BitVec.zero_add] at hone
        exact hone
      · show (2^64-2^47)%4096+p < _
        omega

end Translation

section Image
variable (info : ElfInfo) (data : List UInt8)

def applied : List Relocation := if info.isPie then info.relocations else []

/-- What belongs at the place `place` of a window at `virt`: a byte of the rebased word that
a relocation puts there, or the byte of the file. -/
def Shows (virt : Address) (place : Address) (byte : UInt8) : Prop :=
  (∃ r ∈ applied info, (place-r.offset).toNat < 8 ∧
    byte = wordByte (virt+r.addend) (place-r.offset).toNat) ∨
  (∀ r ∈ applied info, 8 ≤ (place-r.offset).toNat) ∧
    byte = imageByte info.segments data (BitVec.ofNat 64 (lowestPage info.segments)+place)

theorem virtualBase_aligned (random : ℕ) : (virtualBase random).toNat%4096 = 0 := by
  rw [virtualBase,BitVec.toNat_add,BitVec.toNat_ofNat,BitVec.toNat_ofNat]
  omega

/-- A kernel that is loaded starts on a page, and its window holds what belongs there. -/
theorem loadKernel_shows (allocatePages : ℕ → Option Address) (random : ℕ) (mem mem' : Memory)
    (loaded : LoadedKernel) (entry : Address)
    (hload : loadKernel allocatePages random info data mem = some (loaded,entry,mem')) :
    loaded.vaddrStart.toNat%4096 = 0 ∧
      ∀ o < loaded.size, Shows info data loaded.vaddrStart (BitVec.ofNat 64 o)
        (mem' (loaded.physBase+BitVec.ofNat 64 o)) := by
  simp only [loadKernel,Option.bind_eq_bind,Option.bind_eq_some_iff] at hload
  obtain ⟨⟨before,copied⟩,hsegments,hrebased⟩ := hload
  obtain ⟨most,hwindow⟩ := loadKernelSegments_window allocatePages info data mem copied before
    hsegments
  have hstart := hwindow.start
  have hfits := hwindow.fits
  have hsize := hwindow.size
  have himage : ∀ o < before.size, copied (before.physBase+BitVec.ofNat 64 o) =
      imageByte info.segments data
        (BitVec.ofNat 64 (lowestPage info.segments)+BitVec.ofNat 64 o) := by
    intro o ho
    have hbyte := loadKernelSegments_image data allocatePages info mem copied before hsegments
      (BitVec.ofNat 64 (lowestPage info.segments)+BitVec.ofNat 64 o)
    rw [add_sub_cancel_left] at hbyte
    exact hbyte (by rw [BitVec.toNat_ofNat]; omega)
  by_cases hpie : info.isPie = true
  · rw [if_pos hpie] at hrebased
    cases hrebased
    refine ⟨virtualBase_aligned random,fun o ho => ?_⟩
    unfold Shows applied
    rw [if_pos hpie]
    rcases applyRelocations_byte before.physBase (virtualBase random) info.relocations copied
      (BitVec.ofNat 64 o) with hover | ⟨hapart,hbyte⟩
    · exact .inl hover
    · exact .inr ⟨hapart,hbyte.trans (himage o ho)⟩
  · rw [if_neg hpie] at hrebased
    cases hrebased
    refine ⟨?_,fun o ho => .inr ⟨?_,himage o ho⟩⟩
    · rw [hstart,lowestPage,pageDown]
      omega
    · rw [applied,if_neg hpie]
      exact fun r hr => absurd hr List.not_mem_nil

end Image

/-- Through the tables the kernel finds, at every address of its window, what belongs there:
the file's byte or a rebased word's. All of memory is there a second time, in the direct map. -/
theorem kernel_sees_image {A : Type} [FrameAllocator A] (arch : Arch) (allocator : A)
    (physToTable : Word → Fin 512 → Word) (builder : PageTableBuilder A)
    (hallocator : Honest allocFrame IsFrame allocator) (allocatePages : ℕ → Option Address)
    (random : ℕ) (info : ElfInfo) (data : List UInt8) (mem mem' : Memory)
    (loaded : LoadedKernel) (entry : Address) (entries : List MemoryDescriptor)
    (hload : loadKernel allocatePages random info data mem = some (loaded,entry,mem'))
    (hbuild : build arch allocator physToTable loaded entries = some builder)
    (h : Mappable loaded (maxPhysFromMmap entries)) :
    (∀ o < loaded.size, ∃ pa, translateAddress arch.format builder
        (loaded.vaddrStart+BitVec.ofNat 64 o) =
          some (pa,arch.format.leafAttrs kernelLoadArea .writeBack) ∧
      Shows info data loaded.vaddrStart (BitVec.ofNat 64 o) (mem' pa)) ∧
    ∀ p < maxPhysFromMmap entries, translateAddress arch.format builder
        (hhdmVirtBase+BitVec.ofNat 64 p) =
      some (BitVec.ofNat 64 p,arch.format.leafAttrs kernelData .writeBack) := by
  obtain ⟨hvirt,hshows⟩ := loadKernel_shows info data allocatePages random mem mem' loaded entry
    hload
  obtain ⟨hkernel,hdirect⟩ := build_translates loaded entries arch allocator physToTable builder
    hallocator hbuild hvirt h
  exact ⟨fun o ho => ⟨_,hkernel o ho,hshows o ho⟩,hdirect⟩

/-- A window right behind the first two pages of a memory of three. -/
def allocateThird (_ : ℕ) : Option Address := some 0x2000

def threePages : List MemoryDescriptor := [⟨0,3⟩]

def eightFrames : List Word :=
  [0x10000#64,0x11000#64,0x12000#64,0x13000#64,0x14000#64,0x15000#64,0x16000#64,0x17000#64]

theorem eightFrames_honest : Honest allocFrame IsFrame (FramePool.mk eightFrames) :=
  framePool_honest eightFrames (by decide) (by simp [eightFrames,IsFrame])

theorem kernel_sees_image_small :
    ∃ loaded entry mem builder,
      loadKernel allocateThird 0 (smallKernel 0) [1,2,3,4] (fun _ => 0xFF) =
        some (loaded,entry,mem) ∧
      build .riscv64 (FramePool.mk eightFrames) (fun _ _ => 0xFF#64) loaded threePages =
        some builder ∧
      ∃ pa, translateAddress Riscv64.format builder (loaded.vaddrStart+8#64) =
          some (pa,Riscv64.format.leafAttrs kernelLoadArea .writeBack) ∧
        Shows (smallKernel 0) [1,2,3,4] loaded.vaddrStart 8#64 (mem pa) := by
  obtain ⟨⟨loaded,entry,mem⟩,hload⟩ := Option.isSome_iff_exists.mp (show
    (loadKernel allocateThird 0 (smallKernel 0) [1,2,3,4] (fun _ => 0xFF)).isSome = true by
      decide +kernel)
  have hloaded : loaded = ⟨0x2000#64,virtualBase 0,4096⟩ := by
    cases hload
    rfl
  obtain ⟨builder,hbuild⟩ := Option.isSome_iff_exists.mp (show
    (build .riscv64 (FramePool.mk eightFrames) (fun _ _ => 0xFF#64) ⟨0x2000#64,virtualBase 0,4096⟩
      threePages).isSome = true by decide +kernel)
  rw [← hloaded] at hbuild
  refine ⟨loaded,entry,mem,builder,hload,hbuild,?_⟩
  have hmappable : Mappable loaded (maxPhysFromMmap threePages) := by
    rw [hloaded]
    exact ⟨by decide,by decide,by decide +kernel,.inr (by decide +kernel)⟩
  refine (kernel_sees_image .riscv64 _ _ builder eightFrames_honest allocateThird 0 (smallKernel 0)
    [1,2,3,4] _ mem loaded entry threePages hload hbuild hmappable).1 8 ?_
  rw [hloaded]
  decide

end Zamak.KernelView
