import Zamak.BiosLoading
import Zamak.BiosPaging
import Zamak.BiosReplies
import Zamak.BootBundle
import Zamak.Fat32Disc

/-! # From the bundle to the kernel

`kmain` of Path B: it mounts the image that the bundle gives, reads the configuration and
the kernel, puts the segments in their window, answers the requests it finds in them and
builds the page tables. The read buffers and the page tables are apart from the memory
here; what `kmain` does with the segments it does in place, and its boxes are in memory as
its own target of 32 bits lays them out. -/

set_option autoImplicit false

namespace Zamak.PathB
open Zamak.ByteMemory Zamak.PlacedBlocks Zamak.Segments Zamak.TagStreams
open Zamak.Fat32Image Zamak.Fat32Detours Zamak.Fat32Paths Zamak.Fat32Directory Zamak.Fat32Read
open Zamak.Fat32Disc Zamak.PathResolution Zamak.BiosElf Zamak.BiosLoading Zamak.LeakedHeap
open Zamak.BootAnswers Zamak.BootBundle Zamak.ReplyLayout Zamak.BiosReplies
open Zamak.BootRequests hiding Memory

def configPath : List Char := [ 'z', 'a', 'm', 'a', 'k', '.', 'c', 'o', 'n', 'f']

def kernelPath : List Char := [ '/', 'k', 'e', 'r', 'n', 'e', 'l', '.', 'e', 'l', 'f']

/-! ## `kmain` -/

/-- `RamFat32::parse`; a slice has fewer bytes than there are addresses. -/
def mount (image : List UInt8) : Option (RamFat32 32) :=
  if h : image.length < 2^32 then parse 32 image h else none

/-- A file is looked up and read into a buffer of its length; `none` is a panic. -/
def readWhole (fs : RamFat32 32) (fuel : ℕ) (path : List Char) : Option (ℕ × List UInt8) := do
  let facts ← ← findPath fs fuel path
  match ← readFile fs fuel facts (List.replicate facts.len.toNat 0) with
  | .outOfBounds => none
  | .wrote n buffer => some (n,buffer)

def writeAll (m : Memory) (writes : List Write) : Memory :=
  writes.foldl (fun m w => PlacedBlocks.store m w.dest w.bytes) m

/-- What `kmain` has when it comes to the requests. -/
structure Loaded where
  taken : Taken
  kernelBuf : List UInt8
  info : ElfInfo
  memory : Memory

def loadFromBundle (fuel : ℕ) (m : Memory) (bundlePhys : ℕ) : Option Loaded := do
  let taken ← takeBundle m bundlePhys
  let fs ← mount taken.image
  let _ ← readWhole fs fuel configPath
  let (kn,kernelBuf) ← readWhole fs fuel kernelPath
  if kn ≠ kernelBuf.length then none
  else
    match parseElfMinimal kernelBuf with
    | .ok (some info) =>
      let loaded ← loadSegments kernelBuf info.segments
      some ⟨taken,kernelBuf,info,writeAll m (loaded.flatMap Prod.snd)⟩
    | _ => none

/-- Where the texts of the loader and the buffers of the kernel file are. -/
structure Places where
  name : UInt32
  version : UInt32
  data : UInt32
  path : UInt32
  cmdline : UInt32

structure Entered (σ : Type) where
  entry : ℕ
  pml4 : ℕ
  world : World Object
  tables : BiosPaging.Tables σ

section Enter
variable {σ : Type} (place : Heap Object → Object → Option ℕ) (alloc : σ → Option ℕ × σ)
  (places : Places)

def kernelFile (l : Loaded) : File :=
  ⟨0,places.data.toNat,l.kernelBuf.length,places.path.toNat,places.cmdline.toNat⟩

def bootOf (l : Loaded) (kf : ℕ) : BiosBoot where
  name := places.name.toNat
  version := places.version.toNat
  mmap := l.taken.mmap
  fb := none
  kernelFile := some kf
  modules := []
  rsdp := l.taken.rsdp
  smp := none

def allRequests (l : Loaded) : List ℕ :=
  l.info.segments.flatMap fun seg => requestsIn l.memory (asPointer seg.paddr) seg.memSize

def pagingEntry (e : MemmapEntry) : BiosPaging.MemmapEntry := ⟨e.base,e.length,e.typ⟩

/-- Where `init_64` reads the entry point from. -/
def entryCell : ℕ := 0x5FF0

def enterKernel (l : Loaded) (heap : Heap Object) (tables : BiosPaging.Tables σ) :
    Option (Entered σ) := do
  let (kf,heap) ← leak place (.file (kernelFile places l)) heap
  let w ← fulfillRequests (biosAnswer place (bootOf places l kf)) (allRequests l) ⟨l.memory,heap⟩
  let (pml4,tables) ← BiosPaging.setupPaging alloc kernelLoadPhys (l.taken.mmap.map pagingEntry)
    tables
  let entry := addU64 BiosPaging.kernelVirtBase l.info.entry
  some ⟨entry,pml4,⟨put 8 w.memory entryCell entry,w.heap⟩,tables⟩

end Enter

/-! ## A kernel on a volume -/

def SegmentHas (seg : ElfSegment) (x : ℕ) : Prop :=
  seg.vaddr%2^32 ≤ x ∧ x < seg.vaddr%2^32+seg.memSize

/-- A boot volume with its configuration and a kernel whose segments have memory of their
own in the window. -/
structure BootVolume (image : List UInt8) where
  fits : image.length < 2^32
  fields : BootFields
  boots : Boots image fields
  volume : Volume
  holds : HoldsVolume (mounted fields image fits) volume
  config : DirEntryFacts
  config_found : resolve volume.directories (rootEntry (mounted fields image fits))
    (names configPath) = .ok config
  config_file : config.isDir = false
  kernel : DirEntryFacts
  kernel_found : resolve volume.directories (rootEntry (mounted fields image fits))
    (names kernelPath) = .ok kernel
  kernel_file : kernel.isDir = false
  info : ElfInfo
  parses : parseElfMinimal (volume.bytes kernel.firstCluster.toNat) = .ok (some info)
  inFile : ∀ seg ∈ info.segments,
    seg.offset+seg.fileSize ≤ (volume.bytes kernel.firstCluster.toNat).length
  placed : ∀ seg ∈ info.segments, Placed seg
  apart : info.segments.Pairwise fun seg seg' => ∀ x, ¬(SegmentHas seg x ∧ SegmentHas seg' x)

def BootVolume.elf {image : List UInt8} (v : BootVolume image) : List UInt8 :=
  v.volume.bytes v.kernel.firstCluster.toNat

/-- The memory of a segment: bytes of the file, and zeroes behind them. -/
def segmentByte (elf : List UInt8) (seg : ElfSegment) (i : ℕ) : UInt8 :=
  if i < seg.fileSize then elf.getD (seg.offset+i) 0 else 0

def segmentAt (seg : ElfSegment) : ℕ := kernelLoadPhys+seg.vaddr%2^32

/-! ## The writes -/

section Writes
variable {m : Memory} {elf : List UInt8}

theorem writeAll_append (writes more : List Write) :
    writeAll m (writes++more) = writeAll (writeAll m writes) more := List.foldl_append

theorem writeAll_outside (writes : List Write) (x : ℕ) (h : ∀ w ∈ writes, ¬w.Covers x) :
    writeAll m writes x = m x := by
  induction writes generalizing m with
  | nil => rfl
  | cons w writes ih =>
    have hfirst : PlacedBlocks.store m w.dest w.bytes x = m x := by
      apply store_outside
      have hw := h w List.mem_cons_self
      unfold Write.Covers at hw
      omega
    exact (ih fun w' hw' => h w' (List.mem_cons_of_mem _ hw')).trans hfirst

theorem store_at (m : Memory) (a : ℕ) (items : List UInt8) {i : ℕ} (h : i < items.length) :
    PlacedBlocks.store m a items (a+i) = items.getD i 0 := by
  rw [PlacedBlocks.store,if_pos (Nat.le_add_right _ _),Nat.add_sub_cancel_left,
    List.getD_eq_getElem _ _ h,List.getD_eq_getElem _ _ h]

theorem covers_has {seg : ElfSegment} {writes : List Write} (hplaced : Placed seg)
    (h : loadSegment elf seg = some writes) {w : Write} (hw : w ∈ writes) {x : ℕ}
    (hx : w.Covers x) : kernelLoadPhys ≤ x ∧ x < kernelWindowEnd ∧
      SegmentHas seg (x-kernelLoadPhys) := by
  have hwritten := (loadSegment_written elf seg writes h x).mp ⟨w,hw,hx⟩
  obtain ⟨hwindow,hscan⟩ := (written_iff_placed seg).mpr hplaced
  obtain ⟨hlow,hhigh⟩ := hwindow x hwritten
  have hscanned := (hscan x).mpr hwritten
  refine ⟨hlow,hhigh,?_⟩
  unfold Scanned asPointer at hscanned
  unfold SegmentHas
  rcases hplaced with hnone|⟨-,-,hpaddr⟩
  · omega
  · rw [hpaddr] at hscanned
    omega

theorem loadSegment_bytes {seg : ElfSegment} {writes : List Write} (hplaced : Placed seg)
    (h : loadSegment elf seg = some writes) {i : ℕ} (hi : i < seg.memSize) :
    writeAll m writes (segmentAt seg+i) = segmentByte elf seg i := by
  rcases hplaced with hnone|⟨hroom,hle,-⟩
  · omega
  · have hlow : seg.vaddr%2^32 < 2^32 := Nat.mod_lt _ (by decide)
    obtain ⟨hin,rfl⟩ := loadSegment_some elf seg writes h
    have hdest : asPointer (addU64 kernelLoadPhys seg.vaddr) = segmentAt seg := by
      rw [dest_eq]
      unfold segmentAt kernelLoadPhys
      omega
    have hzeroes : asPointer (addU64 (addU64 kernelLoadPhys seg.vaddr) seg.fileSize) =
        segmentAt seg+seg.fileSize := by
      rw [zeroes_eq,hdest]
      unfold segmentAt kernelLoadPhys
      omega
    have hlen : ((elf.drop seg.offset).take seg.fileSize).length = seg.fileSize := by
      rw [List.length_take,List.length_drop]
      omega
    have hcopy : ∀ m' : Memory, i < seg.fileSize →
        PlacedBlocks.store m' (segmentAt seg) ((elf.drop seg.offset).take seg.fileSize)
          (segmentAt seg+i) = segmentByte elf seg i := by
      intro m' hfile
      rw [store_at _ _ _ (by omega),segmentByte,if_pos hfile,List.getD_eq_getElem _ _ (by omega),
        List.getElem_take,List.getElem_drop,List.getD_eq_getElem _ _ (by omega)]
    rw [hdest,hzeroes]
    by_cases hmore : seg.memSize > seg.fileSize
    · rw [if_pos hmore]
      show PlacedBlocks.store (PlacedBlocks.store m (segmentAt seg) _) (segmentAt seg+seg.fileSize)
        _ _ = _
      by_cases hfile : i < seg.fileSize
      · rw [store_outside _ _ _ _ (Or.inl (by omega)),hcopy m hfile]
      · obtain ⟨j,rfl⟩ := Nat.exists_eq_add_of_le (Nat.le_of_not_lt hfile)
        rw [← Nat.add_assoc,store_at _ _ _ (by rw [List.length_replicate]; omega),segmentByte,
          if_neg hfile,List.getD_eq_getElem _ _ (by rw [List.length_replicate]; omega),
          List.getElem_replicate]
    · rw [if_neg hmore]
      exact hcopy m (by omega)

/-- Segments with memory of their own have their bytes, whatever is loaded behind them; the
rest of the memory is left alone. -/
theorem loadSegments_bytes (segments : List ElfSegment) (loaded : List (ElfSegment × List Write))
    (h : loadSegments elf segments = some loaded) (hplaced : ∀ seg ∈ segments, Placed seg)
    (hapart : segments.Pairwise fun seg seg' => ∀ x, ¬(SegmentHas seg x ∧ SegmentHas seg' x)) :
    (∀ seg ∈ segments, ∀ i < seg.memSize,
      writeAll m (loaded.flatMap Prod.snd) (segmentAt seg+i) = segmentByte elf seg i) ∧
    Keeps (Within kernelLoadPhys 0x200000) m (writeAll m (loaded.flatMap Prod.snd)) := by
  induction segments generalizing m loaded with
  | nil =>
    cases h
    exact ⟨fun seg hseg => absurd hseg List.not_mem_nil,Keeps.refl m⟩
  | cons seg segments ih =>
    obtain ⟨writes,hwrites⟩ : ∃ writes, loadSegment elf seg = some writes := by
      cases hseg : loadSegment elf seg with
      | none =>
        rw [loadSegments,hseg] at h
        cases h
      | some writes => exact ⟨writes,rfl⟩
    obtain ⟨rest,hrest⟩ : ∃ rest, loadSegments elf segments = some rest := by
      cases hseg : loadSegments elf segments with
      | none =>
        rw [loadSegments,hwrites,hseg] at h
        cases h
      | some rest => exact ⟨rest,rfl⟩
    rw [loadSegments,hwrites,hrest] at h
    cases h
    rw [List.pairwise_cons] at hapart
    obtain ⟨hbytes,hkeeps⟩ := ih rest hrest (m := writeAll m writes)
      (fun s hs => hplaced s (List.mem_cons_of_mem _ hs)) hapart.2
    obtain ⟨hsegs,hloads⟩ := loadSegments_mem elf segments rest hrest
    have hfirst := hplaced seg List.mem_cons_self
    rw [List.flatMap_cons,writeAll_append]
    constructor
    · intro s hs i hi
      rcases List.mem_cons.mp hs with rfl|hs
      · refine Eq.trans (writeAll_outside _ _ ?_) (loadSegment_bytes hfirst hwrites hi)
        intro w hw hcovers
        obtain ⟨p,hp,hwp⟩ := List.mem_flatMap.mp hw
        have hp1 : p.1 ∈ segments := by
          rw [← hsegs]
          exact List.mem_map_of_mem hp
        have hother := covers_has (hplaced _ (List.mem_cons_of_mem _ hp1)) (hloads p hp) hwp hcovers
        refine hapart.1 p.1 hp1 (segmentAt s+i-kernelLoadPhys) ⟨?_,hother.2.2⟩
        unfold SegmentHas segmentAt
        omega
      · exact hbytes s hs i hi
    · refine Keeps.trans ?_ hkeeps
      intro x hx
      apply writeAll_outside
      intro w hw hcovers
      obtain ⟨hlow,hhigh,-⟩ := covers_has hfirst hwrites hw hcovers
      exact hx ⟨hlow,hhigh⟩

theorem loadSegments_some (segments : List ElfSegment) (hlen : elf.length < 2^32)
    (h : ∀ seg ∈ segments, seg.offset+seg.fileSize ≤ elf.length) :
    ∃ loaded, loadSegments elf segments = some loaded := by
  induction segments with
  | nil => exact ⟨[],rfl⟩
  | cons seg segments ih =>
    obtain ⟨rest,hrest⟩ := ih fun s hs => h s (List.mem_cons_of_mem _ hs)
    have hroom := h seg List.mem_cons_self
    obtain ⟨writes,hwrites⟩ : ∃ writes, loadSegment elf seg = some writes := by
      have hsum : seg.offset+seg.fileSize < 2^32 := by omega
      unfold loadSegment checkedAdd
      simp only [if_pos hsum,if_pos hroom]
      by_cases hmore : seg.memSize > seg.fileSize
      · rw [if_pos hmore]
        exact ⟨_,rfl⟩
      · rw [if_neg hmore]
        exact ⟨_,rfl⟩
    exact ⟨(seg,writes)::rest,by rw [loadSegments,hwrites,hrest]⟩

end Writes

/-! ## The files -/

section Files
variable {image : List UInt8} (v : BootVolume image)

def BootVolume.fs : RamFat32 32 := mounted v.fields image v.fits

theorem mount_volume : mount image = some v.fs := by
  rw [mount,dif_pos v.fits]
  exact (parse_iff image v.fits _).mpr ⟨v.fields,v.boots,rfl⟩

theorem readWhole_file {path : List Char} {found : DirEntryFacts} (hpath : names path ≠ [])
    (hfound : resolve v.volume.directories (rootEntry v.fs) (names path) = .ok found)
    (hfile : found.isDir = false) :
    (v.volume.bytes found.firstCluster.toNat).length = found.len.toNat ∧
    ∃ enough, ∀ fuel, enough ≤ fuel → readWhole v.fs fuel path =
      some (found.len.toNat,v.volume.bytes found.firstCluster.toNat) := by
  rcases resolve_entry v.volume _ _ found hfound with rfl|⟨dir,items,e,hitems,hmem,rfl⟩
  · cases hfile
  · obtain ⟨hlength,hstores⟩ := v.holds.file dir items hitems e hmem hfile
    obtain ⟨enough,hfind⟩ := find_resolves v.holds path
    refine ⟨hlength,max enough (e.facts.len.toNat+1),fun fuel hfuel => ?_⟩
    have hlook := (hfind fuel (Nat.le_trans (Nat.le_max_left _ _) hfuel)).1 _ hpath hfound
    have hread := readFile_stores _ (Nat.le_refl 32) e.facts _ hlength hstores
      (List.replicate e.facts.len.toNat 0) fuel (Nat.le_trans (Nat.le_max_right _ _) hfuel)
    rw [List.length_replicate,hlength,Nat.min_self,
      List.drop_of_length_le (by rw [List.length_replicate]),List.append_nil,
      List.take_of_length_le (Nat.le_of_eq hlength)] at hread
    exact Option.bind_eq_some_iff.mpr ⟨_,hlook,Option.bind_eq_some_iff.mpr
      ⟨_,rfl,Option.bind_eq_some_iff.mpr ⟨_,hread,rfl⟩⟩⟩

theorem elf_length : v.elf.length < 2^32 := by
  obtain ⟨hlength,-⟩ := readWhole_file v (by decide) v.kernel_found v.kernel_file
  rw [BootVolume.elf,hlength]
  exact v.kernel.len.isLt

theorem loadFromBundle_volume : ∃ enough, ∀ fuel, enough ≤ fuel → ∀ m phys mmap rsdp,
    takeBundle m phys = some ⟨mmap,image,rsdp⟩ → ∃ memory,
      loadFromBundle fuel m phys = some ⟨⟨mmap,image,rsdp⟩,v.elf,v.info,memory⟩ ∧
      (∀ seg ∈ v.info.segments, ∀ i < seg.memSize,
        memory (segmentAt seg+i) = segmentByte v.elf seg i) ∧
      Keeps (Within kernelLoadPhys 0x200000) m memory := by
  obtain ⟨-,first,hconfig⟩ := readWhole_file v (by decide) v.config_found v.config_file
  obtain ⟨hlength,second,hkernel⟩ := readWhole_file v (by decide) v.kernel_found v.kernel_file
  obtain ⟨loaded,hload⟩ := loadSegments_some v.info.segments (elf_length v) v.inFile
  refine ⟨max first second,fun fuel hfuel m phys mmap rsdp htake => ?_⟩
  obtain ⟨hbytes,hkeeps⟩ := loadSegments_bytes (m := m) v.info.segments loaded hload v.placed
    v.apart
  refine ⟨_,?_,hbytes,hkeeps⟩
  refine Option.bind_eq_some_iff.mpr ⟨_,htake,Option.bind_eq_some_iff.mpr
    ⟨v.fs,mount_volume v,Option.bind_eq_some_iff.mpr
      ⟨_,hconfig fuel (Nat.le_trans (Nat.le_max_left _ _) hfuel),Option.bind_eq_some_iff.mpr
        ⟨_,hkernel fuel (Nat.le_trans (Nat.le_max_right _ _) hfuel),?_⟩⟩⟩⟩
  dsimp only
  rw [if_neg (not_not_intro hlength.symm),v.parses]
  exact Option.bind_eq_some_iff.mpr ⟨loaded,hload,rfl⟩

end Files

/-! ## The requests and the tables -/

/-- The windows that are scanned, but for the empty ones. -/
def windows (segments : List ElfSegment) : List (ℕ × ℕ) :=
  (segments.filter fun seg => 0 < seg.memSize).map fun seg => (asPointer seg.paddr,seg.memSize)

theorem windows_cons (seg : ElfSegment) (segments : List ElfSegment) :
    windows (seg::segments) = if 0 < seg.memSize then
      (asPointer seg.paddr,seg.memSize)::windows segments else windows segments := by
  rw [windows,List.filter_cons]
  by_cases hpos : 0 < seg.memSize
  · rw [if_pos (decide_eq_true hpos),if_pos hpos]
    rfl
  · rw [if_neg (Bool.not_eq_true _ ▸ decide_eq_false hpos),if_neg hpos]
    rfl

theorem windows_requests (m : Memory) (segments : List ElfSegment) :
    (segments.flatMap fun seg => requestsIn m (asPointer seg.paddr) seg.memSize) =
      (windows segments).flatMap fun w => requestsIn m w.1 w.2 := by
  induction segments with
  | nil => rfl
  | cons seg segments ih =>
    rw [List.flatMap_cons,ih,windows_cons]
    by_cases hpos : 0 < seg.memSize
    · rw [if_pos hpos,List.flatMap_cons]
    · have hnone : requestsIn m (asPointer seg.paddr) seg.memSize = [] := by
        apply List.eq_nil_iff_forall_not_mem.mpr
        intro r hr
        have hfound := requestsIn_found hr
        have := hfound.behind
        have := hfound.within
        omega
      rw [hnone,if_neg hpos,List.nil_append]

theorem windows_apart (segments : List ElfSegment) (hplaced : ∀ seg ∈ segments, Placed seg)
    (hapart : segments.Pairwise fun seg seg' => ∀ x, ¬(SegmentHas seg x ∧ SegmentHas seg' x)) :
    BootRequests.Apart (windows segments) := by
  refine List.pairwise_map.mpr ((hapart.filter _).imp_of_mem ?_)
  intro seg seg' hseg hseg' hno
  obtain ⟨hmem,hpos⟩ := List.mem_filter.mp hseg
  obtain ⟨hmem',hpos'⟩ := List.mem_filter.mp hseg'
  have hpos := of_decide_eq_true hpos
  have hpos' := of_decide_eq_true hpos'
  have hfirst := hno (seg.vaddr%2^32)
  have hsecond := hno (seg'.vaddr%2^32)
  unfold SegmentHas at hfirst hsecond
  unfold asPointer
  rcases hplaced seg hmem with hnone|⟨-,-,hpaddr⟩
  · omega
  · rcases hplaced seg' hmem' with hnone'|⟨-,-,hpaddr'⟩
    · omega
    · dsimp only
      rw [hpaddr,hpaddr']
      omega

theorem mapped_segment (top : ℕ) (hle : top ≤ BiosPaging.hhdmMaxBytes) (n : ℕ) (hn : n < 0x200000) :
    BiosPaging.mapped kernelLoadPhys top (BiosPaging.kernelVirtBase+n) =
      some (kernelLoadPhys+n) := by
  rw [BiosPaging.mapped_kernel,Nat.add_sub_cancel_left]
  · simp only [BiosPaging.hhdmVirtBase,BiosPaging.roundedUp,BiosPaging.hugePageSize,
      BiosPaging.kernelVirtBase,BiosPaging.hhdmMaxBytes,BiosPaging.gib] at *
    omega
  · unfold BiosPaging.kernelMapPages BiosPaging.hugePageSize
    omega

/-- What the boxes of `kmain` keep off: the window of the kernel, with the last answer behind
it, and the cell of the entry point. -/
def InUse (x : ℕ) : Prop := Within kernelLoadPhys 0x200008 x ∨ Within entryCell 8 x

theorem requests_placed {l : Loaded} (hplaced : ∀ seg ∈ l.info.segments, Placed seg) {r : ℕ}
    (hr : r ∈ allRequests l) {x : ℕ} (hx : Within r 40 x) : Within kernelLoadPhys 0x200008 x := by
  rw [allRequests,windows_requests] at hr
  obtain ⟨window,hwindow,hlow,hhigh⟩ := windows_used hr hx
  obtain ⟨seg,hseg,rfl⟩ := List.mem_map.mp hwindow
  obtain ⟨hmem,hpos⟩ := List.mem_filter.mp hseg
  have hpos := of_decide_eq_true hpos
  unfold asPointer at hlow hhigh
  rcases hplaced seg hmem with hnone|⟨hroom,-,hpaddr⟩
  · omega
  · dsimp only at hlow hhigh
    rw [hpaddr] at hlow hhigh
    exact ⟨by omega,by omega⟩

theorem limineTyp_lt (typ : ℕ) : limineTyp typ < 256^4 := by
  unfold limineTyp
  split_ifs <;> decide

theorem takeBundle_fits {m : Memory} {phys : ℕ} {taken : Taken}
    (h : takeBundle m phys = some taken) :
    (∀ e ∈ taken.mmap, entryRecord.Fits e) ∧ ∀ a, taken.rsdp = some a → a < 256^8 := by
  obtain ⟨-,h⟩ := Option.ite_none_left_eq_some.mp h
  obtain ⟨-,h⟩ := Option.ite_none_left_eq_some.mp h
  cases h
  constructor
  · intro e he
    obtain ⟨i,-,rfl⟩ := List.mem_map.mp he
    exact .cons (number_lt m 8 _) (.cons (number_lt m 8 _) (.cons (limineTyp_lt _) .nil))
  · intro a ha
    dsimp only at ha
    split_ifs at ha
    rw [← Option.some.inj ha]
    exact number_lt m 8 _

section Enter
variable {σ : Type} {place : Heap Object → Object → Option ℕ} {alloc : σ → Option ℕ × σ}
  (places : Places)

/-- What the kernel finds when it starts: its image behind the page tables but for the
answers, the replies to its requests, and its own file. -/
structure Started (l : Loaded) (elf : List UInt8) (kf : ℕ) (e : Entered σ) : Prop where
  entry : e.entry = (BiosPaging.kernelVirtBase+l.info.entry)%2^64
  cell : number 8 (memoryOf i686 e.world) entryCell = e.entry
  replied : Replied (bootOf places l kf) (allRequests l) l.memory e.world
  declined : ∀ r ∈ allRequests l, ¬Offered (biosOffer (bootOf places l kf)) (idAt l.memory r) →
    responseAt (memoryOf i686 e.world) r = responseAt l.memory r
  file : fileRecord.readAt x86_64 (memoryOf i686 e.world) kf = kernelFile places l
  shows : ∀ seg ∈ l.info.segments, ∀ i < seg.memSize,
    BiosPaging.walk e.tables.tables e.pml4 (BiosPaging.kernelVirtBase+(seg.vaddr%2^32+i)) =
      some (segmentAt seg+i) ∧
    ((∀ r ∈ allRequests l,
        ¬Written (biosOffer (bootOf places l kf)) l.memory r (segmentAt seg+i)) →
      memoryOf i686 e.world (segmentAt seg+i) = segmentByte elf seg i)
  identity : ∀ x < BiosPaging.gib, BiosPaging.walk e.tables.tables e.pml4 x = some x

theorem enterKernel_eq {l : Loaded} {heap heap' : Heap Object} {kf pml4 : ℕ} {w : World Object}
    {tables tables' : BiosPaging.Tables σ}
    (hleak : leak place (.file (kernelFile places l)) heap = some (kf,heap'))
    (hrun : fulfillRequests (biosAnswer place (bootOf places l kf)) (allRequests l)
      ⟨l.memory,heap'⟩ = some w)
    (hpaging : BiosPaging.setupPaging alloc kernelLoadPhys (l.taken.mmap.map pagingEntry) tables =
      some (pml4,tables')) :
    enterKernel place alloc places l heap tables = some
      ⟨addU64 BiosPaging.kernelVirtBase l.info.entry,pml4,
        ⟨put 8 w.memory entryCell (addU64 BiosPaging.kernelVirtBase l.info.entry),w.heap⟩,
        tables'⟩ := by
  rw [enterKernel,hleak,Option.bind_eq_bind,Option.bind_some]
  dsimp only
  rw [hrun,Option.bind_eq_bind,Option.bind_some,hpaging,Option.bind_eq_bind,Option.bind_some]

theorem bootOf_fits {l : Loaded} (hmmap : ∀ e ∈ l.taken.mmap, entryRecord.Fits e)
    (hrsdp : ∀ a, l.taken.rsdp = some a → a < 256^8) {kf : ℕ} (hkf : kf < 256^8) :
    BootFits (bootOf places l kf) where
  name := Nat.lt_of_lt_of_le places.name.toNat_lt (by decide)
  version := Nat.lt_of_lt_of_le places.version.toNat_lt (by decide)
  mmap := hmmap
  fb := fun fb h => by cases h
  kernelFile := fun kf' h => by
    cases h
    exact hkf
  modules := fun f hf => absurd hf List.not_mem_nil
  rsdp := hrsdp
  smp := fun s h => by cases h

theorem kernelFile_fits {l : Loaded} (hlen : l.kernelBuf.length < 2^32) :
    fileRecord.Fits (kernelFile places l) := by
  have hword : ∀ a : UInt32, a.toNat < 256^8 := fun a => Nat.lt_of_lt_of_le a.toNat_lt (by decide)
  refine .cons (by decide : 0 < 256^8) (.cons (hword _) (.cons ?_ (.cons (hword _)
    (.cons (hword _) ?_))))
  · exact Nat.lt_of_lt_of_le hlen (by decide)
  · exact (by decide : List.Forall₂ (fun width v => v < 256^width) [4,4,4,4,4,4,8,8,8,8,8,8]
      [0,0,0,0,0,0,0,0,0,0,0,0])

section Cell
variable {l : Loaded} {m : Memory} {heap : Heap Object} {entry : ℕ}

/-- The cell of the entry point is below the window, so no request meets it. -/
theorem entry_response (hplaced : ∀ seg ∈ l.info.segments, Placed seg) {r : ℕ}
    (hr : r ∈ allRequests l) : responseAt (put 8 m entryCell entry) r = responseAt m r := by
  refine readWord_congr fun x hx hx' => put_apart m _ ?_
  have hin := requests_placed hplaced hr (x := x) ⟨by omega,by omega⟩
  unfold Within kernelLoadPhys entryCell at *
  omega

theorem entry_cell (hlaid : Laid i686 (2^32) InUse heap) (hlt : entry < 2^64) :
    number 8 (memoryOf i686 ⟨put 8 m entryCell entry,heap⟩) entryCell = entry := by
  refine Eq.trans (congrArg bytesNat (stretch_congr _ _ _ _ 8 fun k hk => ?_))
    (number_put_of_lt m entryCell (v := entry) hlt)
  exact memoryOf_used (w := ⟨put 8 m entryCell entry,heap⟩) hlaid
    (Or.inr ⟨Nat.le_add_right _ _,Nat.add_lt_add_left hk _⟩)

theorem entry_segment (hlaid : Laid i686 (2^32) InUse heap) {seg : ElfSegment}
    (hroom : seg.vaddr%2^32+seg.memSize ≤ 0x200000) {i : ℕ} (hi : i < seg.memSize) :
    memoryOf i686 ⟨put 8 m entryCell entry,heap⟩ (segmentAt seg+i) = m (segmentAt seg+i) := by
  have hin : Within kernelLoadPhys 0x200008 (segmentAt seg+i) := by
    unfold segmentAt
    exact ⟨by omega,by omega⟩
  refine (memoryOf_used (w := ⟨put 8 m entryCell entry,heap⟩) hlaid (Or.inl hin)).trans
    (put_apart m _ ?_)
  unfold Within segmentAt kernelLoadPhys entryCell
  omega

end Cell

theorem enterKernel_started (hplace : Apportions i686 place (2^32) InUse) (l : Loaded)
    (elf : List UInt8) (hplaced : ∀ seg ∈ l.info.segments, Placed seg)
    (hapart : l.info.segments.Pairwise fun seg seg' =>
      ∀ x, ¬(SegmentHas seg x ∧ SegmentHas seg' x))
    (hbytes : ∀ seg ∈ l.info.segments, ∀ i < seg.memSize,
      l.memory (segmentAt seg+i) = segmentByte elf seg i)
    (hmmap : ∀ e ∈ l.taken.mmap, entryRecord.Fits e)
    (hrsdp : ∀ a, l.taken.rsdp = some a → a < 256^8) (hlen : l.kernelBuf.length < 2^32)
    (heap heap' : Heap Object) (hlaid : Laid i686 (2^32) InUse heap) (kf : ℕ)
    (hleak : leak place (.file (kernelFile places l)) heap = some (kf,heap'))
    (w : World Object) (hrun : fulfillRequests (biosAnswer place (bootOf places l kf))
      (allRequests l) ⟨l.memory,heap'⟩ = some w)
    (tables : BiosPaging.Tables σ) (hhonest : RadixStore.Honest alloc BiosPaging.IsTable
      tables.allocator) (hsupplies : BiosPaging.Supplies alloc tables.allocator 22) :
    ∃ e, enterKernel place alloc places l heap tables = some e ∧ Started places l elf kf e := by
  have hplace64 := hplace.toAllocates.mono (by decide : 2^32 ≤ 2^64)
  have hclear : Clear (biosOffer (bootOf places l kf)) l.memory (allRequests l) := by
    rw [allRequests,windows_requests]
    exact windows_clear (bios_magic _) (windows_apart _ hplaced hapart)
  have hanswered : Answered (biosOffer (bootOf places l kf)) readReply (allRequests l)
      ⟨l.memory,heap'⟩ w :=
    fulfillRequests_answered (bios_sound hplace64 _) _ hclear hrun
  have hdeclined := answered_declined (w := ⟨l.memory,heap'⟩) hclear hanswered
  obtain ⟨-,hfile,hkf⟩ := leak_placed hplace.toAllocates hleak
  have hlaid' : Laid i686 (2^32) InUse heap' :=
    (leak_grown hplace heap heap _ kf heap' ⟨hlaid,[],rfl⟩ hleak).1
  have hlast : Laid i686 (2^32) InUse w.heap := (fulfillRequests_grown hplace hlaid' hrun).1
  obtain ⟨mmap,hmap⟩ : ∃ mmap, mmap = l.taken.mmap.map pagingEntry := ⟨_,rfl⟩
  have hle := BiosPaging.maxPhysicalAddress_le mmap
  have hgib : BiosPaging.gibibytes (BiosPaging.maxPhysicalAddress mmap) ≤ 16 := by
    simp only [BiosPaging.gibibytes,BiosPaging.gib,BiosPaging.hhdmMaxBytes] at *
    omega
  obtain ⟨pml4,tables',hpaging,hwalk⟩ := BiosPaging.setupPaging_walk kernelLoadPhys mmap tables
    (by decide) (by decide) hhonest fun n hn => hsupplies n (by omega)
  rw [hmap] at hpaging
  refine ⟨_,enterKernel_eq places hleak hrun hpaging,?_⟩
  obtain ⟨entry,hentry⟩ : ∃ entry, entry = addU64 BiosPaging.kernelVirtBase l.info.entry := ⟨_,rfl⟩
  rw [← hentry]
  have hresponse : ∀ r ∈ allRequests l,
      responseAt (put 8 w.memory entryCell entry) r = responseAt w.memory r := fun r hr =>
    entry_response hplaced hr
  have hused : ∀ r ∈ allRequests l, ∀ x, Within r 40 x → InUse x := fun r hr x hx =>
    Or.inl (requests_placed hplaced hr hx)
  constructor
  · exact hentry
  · refine entry_cell hlast ?_
    rw [hentry]
    exact Nat.mod_lt _ (by decide)
  · refine replied_of_boxes (w := ⟨put 8 w.memory entryCell entry,w.heap⟩)
      (bootOf_fits places hmmap hrsdp (Nat.lt_of_lt_of_le hkf (by decide))) hlast hused
      fun r hr hoffered => ?_
    obtain ⟨_,reply,_,_,hwanted,hread⟩ := hanswered.replies r hr hoffered
    refine ⟨reply,hwanted,?_⟩
    rw [hresponse r hr]
    exact hread
  · intro r hr hnot
    refine (responseAt_used (w := ⟨put 8 w.memory entryCell entry,w.heap⟩) hlast
      (hused r hr)).trans ((hresponse r hr).trans ?_)
    exact hdeclined r hr hnot
  · refine (CLayout.Record.readAt_target _ kf (by decide)).trans
      (record_reads (w := ⟨put 8 w.memory entryCell entry,w.heap⟩) hlast
        (hanswered.kept _ _ hfile) rfl (kernelFile_fits places hlen))
  · intro seg hseg i hi
    rcases hplaced seg hseg with hnone|⟨hroom,-,-⟩
    · omega
    · refine ⟨?_,fun hclean => ?_⟩
      · rw [hwalk,segmentAt,Nat.add_assoc]
        exact mapped_segment _ hle _ (by omega)
      · exact (entry_segment hlast hroom hi).trans
          ((hanswered.frame _ hclean).trans (hbytes seg hseg i hi))
  · intro x hx
    rw [hwalk,BiosPaging.mapped,if_pos hx]

end Enter

/-! ## From the disk -/

section Disk
open Zamak.BiosServices Zamak.RealMode Zamak.BundleFilling Zamak.PartialSteps
variable {σ τ : Type} {int : Interrupts σ} {own : ℕ → Prop} {drive : UInt8} {disk : Disk}
  {rows : List Row} {next : ℕ → BitVec 32} {place : Heap Object → Object → Option ℕ}
  {alloc : τ → Option ℕ × τ}

end Disk

/-! ## A disk with a small kernel -/

section Example
open Zamak.VfatLayout Zamak.VfatWrite Zamak.BiosServices Zamak.RealMode Zamak.BundleFilling
  Zamak.Fat32Lookup

def smallElf : List UInt8 := oneHeaderFile 64 0 0 0x600000 120 128

def smallSegment : ElfSegment := ⟨0,0,0x600000,120,128⟩

def smallInfo : ElfInfo := ⟨0,[smallSegment],false⟩

theorem smallElf_bytes : parseElfMinimal smallElf = .ok (some smallInfo) ∧
    smallElf.length = 120 ∧ RequestScan.scanRequests
      ((List.range 128).map (segmentByte smallElf smallSegment)) = [] := by
  decide +kernel

def configName : List UInt8 := asciiBytes "zamak.conf"

theorem configName_fits : ∀ name, some configName = some name →
    1 ≤ name.length ∧ name.length ≤ 255 ∧ ∀ c ∈ name, c ≠ 0 ∧ c < 0x80 := by
  intro name h
  obtain rfl := Option.some.inj h
  decide +kernel

theorem configShort_fits : (asciiBytes "ZAMAK~1 CON").length = 11 ∧
    (asciiBytes "ZAMAK~1 CON").getD 0 0 ≠ 0x00 ∧ (asciiBytes "ZAMAK~1 CON").getD 0 0 ≠ 0xE5 := by
  decide

def configEntry : VfatEntry where
  longName := some configName
  shortName := asciiBytes "ZAMAK~1 CON"
  attrs := 0x20
  firstCluster := 3
  len := 2
  long_nonempty name h := (configName_fits name h).1
  long_le name h := (configName_fits name h).2.1
  long_ascii name h := (configName_fits name h).2.2
  short_length := configShort_fits.1
  short_live := configShort_fits.2
  attrs_short := twoBytes_plain

theorem noName_nonempty : ∀ name : List UInt8, none = some name → 1 ≤ name.length := by
  intro name h
  cases h

theorem noName_le : ∀ name : List UInt8, none = some name → name.length ≤ 255 := by
  intro name h
  cases h

theorem noName_ascii : ∀ name : List UInt8, none = some name →
    ∀ c ∈ name, c ≠ 0 ∧ c < 0x80 := by
  intro name h
  cases h

theorem kernelShort_fits : (asciiBytes "KERNEL  ELF").length = 11 ∧
    (asciiBytes "KERNEL  ELF").getD 0 0 ≠ 0x00 ∧ (asciiBytes "KERNEL  ELF").getD 0 0 ≠ 0xE5 := by
  decide

def kernelEntry : VfatEntry where
  longName := none
  shortName := asciiBytes "KERNEL  ELF"
  attrs := 0x20
  firstCluster := 4
  len := 120
  long_nonempty := noName_nonempty
  long_le := noName_le
  long_ascii := noName_ascii
  short_length := kernelShort_fits.1
  short_live := kernelShort_fits.2
  attrs_short := twoBytes_plain

def rootItems : List Item := [.entry configEntry,.entry kernelEntry]

/-- A table of three single clusters: the root, the configuration and the kernel. -/
def bootFront : List UInt8 :=
  bootSector++([0,0,0,0,0,0,0,0]++
      (List.replicate 3 [0xFF,0xFF,0xFF,0x0F]).flatten++List.replicate 492 0)++
    ((rootItems.flatMap itemBytes).flatten++List.replicate 416 0++
      ([0x23,0x0A]++List.replicate 510 0)++(smallElf++List.replicate 392 0))

theorem bootFront_length : bootFront.length = 2560 := by decide +kernel

theorem bootFront_lt : bootFront.length < 2^32 := by
  rw [bootFront_length]
  decide

def frontFs : RamFat32 32 := mounted folderFields bootFront bootFront_lt

def frontVolume : Volume where
  listing n := if n = 2 then some rootItems else none
  bytes n := if n = 4 then smallElf else [0x23,0x0A]
  closed := by
    intro dir items h e he hdir
    obtain ⟨-,hitems⟩ := Option.ite_none_right_eq_some.mp h
    cases hitems
    rcases List.mem_pair.mp he with h|h <;>
    · cases h
      cases hdir

theorem front_boots : Boots bootFront folderFields := by
  constructor <;> decide +kernel

theorem front_bytes : (∀ c ∈ [2,3,4], fatEntry frontFs c = 0x0FFFFFFF) ∧
    clusterData frontFs 2 = (rootItems.flatMap itemBytes).flatten++List.replicate 416 0 ∧
    clusterData frontFs 3 = [0x23,0x0A]++List.replicate 510 0 ∧
    clusterData frontFs 4 = smallElf++List.replicate 392 0 := by
  decide +kernel

theorem front_chain (c : ℕ) (hc : 2 ≤ c ∧ c ≤ 4) : Chain frontFs [c] := by
  have hlen : frontFs.image.length = 2560 := bootFront_length
  have hmem : c ∈ [2,3,4] := by
    obtain rfl|rfl|rfl : c = 2 ∨ c = 3 ∨ c = 4 := by omega
    all_goals decide
  have hends := front_bytes.1 c hmem
  have hsector : frontFs.firstDataSector+(c-2)*frontFs.sectorsPerCluster = c := by
    change 2+(c-2)*1 = c
    omega
  have hone : frontFs.sectorsPerCluster = 1 := rfl
  refine ⟨⟨hc.1,by omega,by omega,by omega⟩,?_⟩
  rintro ⟨-,-,hlt⟩
  rw [hends] at hlt
  exact absurd hlt (by decide)

theorem front_holds : HoldsVolume frontFs frontVolume where
  root := ⟨_,rfl⟩
  directory := by
    intro dir items h
    obtain ⟨rfl,hitems⟩ := Option.ite_none_right_eq_some.mp h
    cases hitems
    refine ⟨[2],front_chain 2 (by decide),rfl,rootItems.flatMap itemBytes,List.replicate 416 0,?_,
      laysOut_write rootItems,Or.inr rfl⟩
    exact (List.flatMap_singleton _ _).trans front_bytes.2.1
  file := by
    intro dir items h e he hfile
    obtain ⟨-,hitems⟩ := Option.ite_none_right_eq_some.mp h
    cases hitems
    rcases List.mem_pair.mp he with h|h
    · cases h
      refine ⟨rfl,Or.inr ⟨by decide,[3],List.replicate 510 0,front_chain 3 (by decide),rfl,?_⟩⟩
      exact (List.flatMap_singleton _ _).trans front_bytes.2.2.1
    · cases h
      refine ⟨rfl,Or.inr ⟨by decide,[4],List.replicate 392 0,front_chain 4 (by decide),rfl,?_⟩⟩
      exact (List.flatMap_singleton _ _).trans front_bytes.2.2.2

theorem table_sector {c : ℕ} (h : (2+(c-2)*1+1)*512 ≤ 2560) : (1+c*4/512+1)*512 ≤ 2560 := by
  have hc : 2+(c-2)*1+1 ≤ 5 := Nat.le_of_mul_le_mul_right h (by decide)
  have hsmall : c*4/512 = 0 := Nat.div_eq_of_lt (by omega)
  rw [hsmall]
  decide

theorem front_table (c : ℕ) (h : InImage frontFs c) : FatInImage frontFs c := by
  have hlen : frontFs.image.length = 2560 := bootFront_length
  have hdata := h.data
  rw [hlen] at hdata
  exact Nat.le_trans (table_sector hdata) (Nat.le_of_eq hlen.symm)

theorem front_volume (rest : List UInt8) (h : (bootFront++rest).length < 2^32) :
    ∃ v : BootVolume (bootFront++rest), v.elf = smallElf ∧ v.info = smallInfo := by
  refine ⟨{
    fits := h
    fields := folderFields
    boots := boots_append folderFields bootFront rest front_boots
    volume := frontVolume
    holds := holdsVolume_append folderFields bootFront rest bootFront_lt h front_table frontVolume
      front_holds
    config := configEntry.facts
    config_found := ?_
    config_file := ?_
    kernel := kernelEntry.facts
    kernel_found := ?_
    kernel_file := ?_
    info := smallInfo
    parses := smallElf_bytes.1
    inFile := ?_
    placed := ?_
    apart := List.pairwise_singleton _ _ },rfl,rfl⟩
  · show resolve frontVolume.directories ⟨2,0,true⟩ (names configPath) = .ok configEntry.facts
    decide
  · decide
  · show resolve frontVolume.directories ⟨2,0,true⟩ (names kernelPath) = .ok kernelEntry.facts
    decide
  · decide
  · intro seg hseg
    cases List.mem_singleton.mp hseg
    exact Nat.le_of_eq smallElf_bytes.2.1.symm
  · intro seg hseg
    cases List.mem_singleton.mp hseg
    decide

def kernelDisk : Disk where
  sectors := 0x5000
  bytes := PlacedBlocks.store oneDisk.bytes 0x100000 bootFront

theorem kernelDisk_boots : BootsFrom kernelDisk ⟨0x0C,0x800⟩ :=
  ⟨0,by decide,rfl,Or.inr (Or.inl rfl),fun j hj => absurd hj (Nat.not_lt_zero j)⟩

theorem kernelDisk_front : ∃ rest, kernelDisk.read 0x800 imageSectors = bootFront++rest := by
  have hfront : stretch kernelDisk.bytes 0x100000 2560 = bootFront := by
    have h := stretch_store oneDisk.bytes 0x100000 bootFront
    rw [bootFront_length] at h
    exact h
  refine ⟨stretch kernelDisk.bytes (0x100000+2560) (0x800000-2560),?_⟩
  rw [← hfront,stretch_append]
  rfl

theorem kernelDisk_volume : ∃ v : BootVolume (kernelDisk.read 0x800 imageSectors),
    v.elf = smallElf ∧ v.info = smallInfo := by
  obtain ⟨rest,hrest⟩ := kernelDisk_front
  have hlen := read_length kernelDisk 0x800 imageSectors
  rw [hrest] at hlen ⊢
  exact front_volume rest (by
    rw [hlen]
    decide)

theorem smallElf_requests {memory : Memory}
    (h : ∀ i < 128, memory (0x600000+i) = segmentByte smallElf smallSegment i) :
    requestsIn memory 0x600000 128 = [] := by
  have hbytes : bytesFrom memory 0x600000 128 =
      (List.range 128).map (segmentByte smallElf smallSegment) :=
    List.map_congr_left fun i hi => h i (List.mem_range.mp hi)
  rw [requestsIn,hbytes,smallElf_bytes.2.2]
  rfl

theorem loaderPlace_file (f : File) : loaderPlace [] (.file f) = some 0x100000 := by
  have hsize : (objectTable i686 (.file f)).extent =
      (objectTable i686 (.file ⟨0,0,0,0,0⟩)).extent := rfl
  rw [loaderPlace_extent [] hsize]
  decide +kernel

theorem inUse_apart (x : ℕ) (h : InUse x) : x < 0x100000 ∨ 0x500000 ≤ x := by
  unfold InUse Within kernelLoadPhys entryCell at h
  omega

end Example

end Zamak.PathB
