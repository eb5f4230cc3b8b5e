import Zamak.PieLoading

/-! # The window a kernel is loaded to

`parse_elf` takes the segments from the program headers as `goblin` reports them. The window
is sized by the memory sizes of the segments, the copies by their file sizes. The two agree
as long as the bytes of the file end in the last page of the window and, where they fall on
the memory of another segment, are what that segment has there. -/

set_option autoImplicit false

namespace Zamak.SegmentLoading
open Zamak.PieLoading

def ptLoad : ℕ := 1
def etDyn : ℕ := 3
def relativeRelocation : ℕ := 8

structure ProgramHeader where
  pType : ℕ
  pVaddr : Address
  pMemsz : BitVec 64
  pFilesz : BitVec 64
  pOffset : BitVec 64

structure DynRela where
  rType : ℕ
  rOffset : Address
  rAddend : Option (BitVec 64)

structure Elf where
  is64 : Bool
  eType : ℕ
  entry : Address
  programHeaders : List ProgramHeader
  dynrelas : List DynRela

def ProgramHeader.segment (ph : ProgramHeader) : ElfSegment where
  vaddr := ph.pVaddr
  memSize := ph.pMemsz.toNat
  fileSize := ph.pFilesz.toNat
  offset := ph.pOffset.toNat

def parseElf (parsed : Option Elf) : Except String ElfInfo :=
  match parsed with
  | none => .error "Failed to parse ELF"
  | some elf =>
    if ¬elf.is64 then .error "Only 64-bit ELF kernels are supported"
    else
      .ok {
        entry := elf.entry
        segments := (elf.programHeaders.filter fun ph => ph.pType = ptLoad).map
          ProgramHeader.segment
        relocations := (elf.dynrelas.filter fun r => r.rType = relativeRelocation).map
          fun r => { offset := r.rOffset, addend := r.rAddend.getD 0 }
        isPie := elf.eType = etDyn }

/-- No address is in the memory of both. -/
def DisjointMemory (s s' : ElfSegment) : Prop :=
  ∀ x, ¬((s.vaddr.toNat ≤ x ∧ x < s.vaddr.toNat+s.memSize) ∧
    s'.vaddr.toNat ≤ x ∧ x < s'.vaddr.toNat+s'.memSize)

def placeOf (loaded : LoadedKernel) (s : ElfSegment) (k : ℕ) : ℕ :=
  s.vaddr.toNat-loaded.vaddrStart.toNat+k

/-- Every write is in the window and every read in the file, and segments with memory of
their own have the bytes of the file there and zeroes behind them. -/
structure Faithful (segments : List ElfSegment) (data : List UInt8) (loaded : LoadedKernel)
    (mem : Memory) : Prop where
  inWindow : ∀ s ∈ segments, ∀ k < s.fileSize, placeOf loaded s k < loaded.size
  inFile : ∀ s ∈ segments, s.offset+s.fileSize ≤ data.length
  fileBytes : segments.Pairwise DisjointMemory → ∀ s ∈ segments, ∀ k < s.fileSize,
    mem (loaded.physBase+BitVec.ofNat 64 (placeOf loaded s k)) = data.getD (s.offset+k) 0
  zeroes : segments.Pairwise DisjointMemory →
    ∀ s ∈ segments, ∀ k, s.fileSize ≤ k → k < s.memSize →
      mem (loaded.physBase+BitVec.ofNat 64 (placeOf loaded s k)) = 0

/-- The bytes of the file end in the last page of the memory of some segment. -/
def EndsInside (segments : List ElfSegment) (s : ElfSegment) : Prop :=
  ∃ s' ∈ segments, s.vaddr.toNat+s.fileSize ≤ pageDown (s'.vaddr.toNat+s'.memSize+0xfff)

/-- Where bytes of one segment fall on another, they are what that one has there. -/
def Agree (data : List UInt8) (s s' : ElfSegment) : Prop :=
  ∀ k < s.fileSize, ∀ k', s.vaddr.toNat+k = s'.vaddr.toNat+k' →
    (k' < s'.fileSize → data.getD (s.offset+k) 0 = data.getD (s'.offset+k') 0) ∧
    (s'.fileSize ≤ k' → k' < s'.memSize → data.getD (s.offset+k) 0 = 0)

theorem le_pageDown (n : ℕ) : n ≤ pageDown (n+0xfff) := by
  unfold pageDown
  omega

theorem pageDown_mono (m n : ℕ) (h : m ≤ n) : pageDown m ≤ pageDown n := by
  unfold pageDown
  omega

def raise (most : ℕ) (s : ElfSegment) : Option ℕ :=
  if s.vaddr.toNat+s.memSize < 2^64 then
    some (if s.vaddr.toNat+s.memSize > most then s.vaddr.toNat+s.memSize else most)
  else none

theorem raise_spec (most next : ℕ) (s : ElfSegment) (h : raise most s = some next) :
    s.vaddr.toNat+s.memSize ≤ next ∧ most ≤ next ∧
      (next = most ∨ next = s.vaddr.toNat+s.memSize) := by
  unfold raise at h
  split_ifs at h with hfits hmore
  · have hmax := Option.some.inj h
    omega
  · have hmax := Option.some.inj h
    omega

theorem foldlM_raise (segments : List ElfSegment) (start most : ℕ)
    (h : segments.foldlM raise start = some most) :
    start ≤ most ∧ (∀ s ∈ segments, s.vaddr.toNat+s.memSize ≤ most) ∧
      (most = start ∨ ∃ s ∈ segments, most = s.vaddr.toNat+s.memSize) := by
  induction segments generalizing start with
  | nil =>
    cases h
    exact ⟨Nat.le_refl _,by simp,Or.inl rfl⟩
  | cons s segments ih =>
    obtain ⟨next,hnext,hrest⟩ := Option.bind_eq_some_iff.mp h
    obtain ⟨hend,hstart,hnew⟩ := raise_spec start next s hnext
    obtain ⟨hle,hall,hwhich⟩ := ih next hrest
    refine ⟨by omega,?_,?_⟩
    · intro s' hs'
      rcases List.mem_cons.mp hs' with rfl | hs'
      · omega
      · exact hall s' hs'
    · rcases hwhich with rfl | ⟨s',hs',heq⟩
      · exact hnew.imp_right fun heq => ⟨s,List.mem_cons_self,heq⟩
      · exact Or.inr ⟨s',List.mem_cons_of_mem s hs',heq⟩

/-- The largest end is an upper bound, and the end of some segment if there is one. -/
theorem maxVaddr_spec (segments : List ElfSegment) (most : ℕ)
    (h : maxVaddr segments = some most) :
    (∀ s ∈ segments, s.vaddr.toNat+s.memSize ≤ most) ∧
      (segments ≠ [] → ∃ s ∈ segments, most = s.vaddr.toNat+s.memSize) := by
  obtain ⟨-,hall,hwhich⟩ := foldlM_raise segments 0 most h
  refine ⟨hall,fun hne => ?_⟩
  rcases hwhich with rfl | hsome
  · obtain ⟨s,rest,rfl⟩ := List.exists_cons_of_ne_nil hne
    have := hall s List.mem_cons_self
    exact ⟨s,List.mem_cons_self,by omega⟩
  · exact hsome

theorem foldlM_checked (data : List UInt8) (start : ℕ) (physBase : Address)
    (segments : List ElfSegment) (mem mem' : Memory)
    (h : segments.foldlM (loadSegment data start physBase) mem = some mem') :
    ∀ s ∈ segments, start ≤ s.vaddr.toNat ∧ s.offset+s.fileSize ≤ data.length := by
  induction segments generalizing mem with
  | nil => simp
  | cons s segments ih =>
    obtain ⟨next,hnext,hrest⟩ := Option.bind_eq_some_iff.mp h
    intro s' hs'
    rcases List.mem_cons.mp hs' with rfl | hs'
    · unfold loadSegment at hnext
      split_ifs at hnext with hchecked
      exact ⟨hchecked.1,hchecked.2.2⟩
    · exact ih next hrest s' hs'

/-- The facts of a load that comes back: the end of its window, and its checks. -/
structure Window (segments : List ElfSegment) (data : List UInt8) (loaded : LoadedKernel)
    (most : ℕ) : Prop where
  start : loaded.vaddrStart.toNat = lowestPage segments
  largest : maxVaddr segments = some most
  fits : pageDown (most+0xfff) < 2^64
  size : lowestPage segments+loaded.size = pageDown (most+0xfff)
  checked : ∀ s ∈ segments, lowestPage segments ≤ s.vaddr.toNat ∧
    s.offset+s.fileSize ≤ data.length

theorem loadKernelSegments_window (allocatePages : ℕ → Option Address) (info : ElfInfo)
    (data : List UInt8) (mem mem' : Memory) (loaded : LoadedKernel)
    (h : loadKernelSegments allocatePages info data mem = some (loaded,mem')) :
    ∃ most, Window info.segments data loaded most := by
  simp only [loadKernelSegments,Option.bind_eq_bind,Option.bind_eq_some_iff] at h
  obtain ⟨most,hmost,vaddrEnd,hend,size,hsize,physBase,-,copied,hcopied,hloaded⟩ := h
  cases hloaded
  have hlow := lowestPage_lt info.segments
  unfold pageUp at hend
  unfold checkedSub at hsize
  split_ifs at hend with hfits
  split_ifs at hsize with hle
  cases hend
  cases hsize
  refine ⟨most,?_,hmost,?_,?_,foldlM_checked data _ _ _ _ _ hcopied⟩
  · rw [BitVec.toNat_ofNat,Nat.mod_eq_of_lt hlow]
  · unfold pageDown
    omega
  · exact Nat.add_sub_of_le hle

theorem imageByte_cases (segments : List ElfSegment) (data : List UInt8) (x : Address) :
    (∃ s ∈ segments, s.Covers x ∧
      imageByte segments data x = data.getD (s.offset+(x-s.vaddr).toNat) 0) ∨
    ((∀ s ∈ segments, ¬s.Covers x) ∧ imageByte segments data x = 0) := by
  unfold imageByte
  cases hlast : (segments.filter fun s => s.Covers x).getLast? with
  | some s =>
    have hmem := List.mem_of_getLast? hlast
    rw [List.mem_filter,decide_eq_true_iff] at hmem
    exact Or.inl ⟨s,hmem.1,hmem.2,rfl⟩
  | none =>
    have hempty := List.getLast?_eq_none_iff.mp hlast
    refine Or.inr ⟨fun s hs hcovers => ?_,rfl⟩
    have hmem : s ∈ segments.filter fun s => s.Covers x :=
      List.mem_filter.mpr ⟨hs,decide_eq_true hcovers⟩
    rw [hempty] at hmem
    cases hmem

theorem covers_self (s : ElfSegment) (k : ℕ) (hk : k < s.fileSize) :
    s.Covers (s.vaddr+BitVec.ofNat 64 k) := by
  have hcancel : s.vaddr+BitVec.ofNat 64 k-s.vaddr = BitVec.ofNat 64 k := by ring
  rw [ElfSegment.Covers,hcancel,BitVec.toNat_ofNat]
  omega

section Load
variable (allocatePages : ℕ → Option Address) (info : ElfInfo) (data : List UInt8)
  (mem mem' : Memory) (loaded : LoadedKernel)
  (hload : loadKernelSegments allocatePages info data mem = some (loaded,mem')) (most : ℕ)
  (hwindow : Window info.segments data loaded most)

include hwindow in
/-- A byte is in the window exactly when its link address is below the end of the last page. -/
theorem placeOf_lt_iff (s : ElfSegment) (hs : s ∈ info.segments) (k : ℕ) :
    placeOf loaded s k < loaded.size ↔ s.vaddr.toNat+k < pageDown (most+0xfff) := by
  have hstart := hwindow.start
  have hsize := hwindow.size
  have hlow := (hwindow.checked s hs).1
  unfold placeOf
  omega

include hwindow in
theorem memory_inWindow (s : ElfSegment) (hs : s ∈ info.segments) (k : ℕ) (hk : k < s.memSize) :
    placeOf loaded s k < loaded.size := by
  have hend := (maxVaddr_spec info.segments most hwindow.largest).1 s hs
  have hpage := le_pageDown most
  rw [placeOf_lt_iff info data loaded most hwindow s hs]
  omega

include hwindow in
/-- The bytes of a segment are in the window exactly when they end in its last page. -/
theorem inWindow_iff (s : ElfSegment) (hs : s ∈ info.segments) :
    (∀ k < s.fileSize, placeOf loaded s k < loaded.size) ↔ EndsInside info.segments s := by
  obtain ⟨hall,hattained⟩ := maxVaddr_spec info.segments most hwindow.largest
  simp only [placeOf_lt_iff info data loaded most hwindow s hs]
  constructor
  · intro hin
    by_cases hzero : s.fileSize = 0
    · refine ⟨s,hs,?_⟩
      have := le_pageDown (s.vaddr.toNat+s.memSize)
      omega
    · obtain ⟨s',hs',rfl⟩ := hattained (List.ne_nil_of_mem hs)
      have hlast := hin (s.fileSize-1) (by omega)
      exact ⟨s',hs',by omega⟩
  · rintro ⟨s',hs',hend⟩ k hk
    have hpage := pageDown_mono _ _ (Nat.add_le_add_right (hall s' hs') 0xfff)
    omega

include hload hwindow in
theorem placed_byte (s : ElfSegment) (hs : s ∈ info.segments) (k : ℕ)
    (hk : placeOf loaded s k < loaded.size) :
    mem' (loaded.physBase+BitVec.ofNat 64 (placeOf loaded s k)) =
      imageByte info.segments data (s.vaddr+BitVec.ofNat 64 k) := by
  have hstart := hwindow.start
  have hfits := hwindow.fits
  have hsize := hwindow.size
  have hlow := (hwindow.checked s hs).1
  unfold placeOf at hk ⊢
  have hplace : BitVec.ofNat 64 (s.vaddr.toNat-loaded.vaddrStart.toNat+k) =
      s.vaddr+BitVec.ofNat 64 k-BitVec.ofNat 64 (lowestPage info.segments) := by
    apply BitVec.eq_of_toNat_eq
    have := s.vaddr.isLt
    rw [BitVec.toNat_sub,BitVec.toNat_add,BitVec.toNat_ofNat,BitVec.toNat_ofNat,
      BitVec.toNat_ofNat]
    omega
  have hin : (s.vaddr+BitVec.ofNat 64 k-BitVec.ofNat 64 (lowestPage info.segments)).toNat <
      loaded.size := by
    rw [← hplace,BitVec.toNat_ofNat]
    omega
  rw [hplace]
  exact loadKernelSegments_image data allocatePages info mem mem' loaded hload _ hin

include hwindow in
theorem covers_iff (s s' : ElfSegment) (hs : s ∈ info.segments) (hs' : s' ∈ info.segments)
    (k : ℕ) (hk : placeOf loaded s k < loaded.size) (hend : EndsInside info.segments s') :
    s'.Covers (s.vaddr+BitVec.ofNat 64 k) ↔
      ∃ k' < s'.fileSize, s'.vaddr.toNat+k' = s.vaddr.toNat+k ∧
        (s.vaddr+BitVec.ofNat 64 k-s'.vaddr).toNat = k' := by
  have hfits := hwindow.fits
  have hlast := (inWindow_iff info data loaded most hwindow s' hs').mpr hend
  simp only [placeOf_lt_iff info data loaded most hwindow s' hs'] at hlast
  rw [placeOf_lt_iff info data loaded most hwindow s hs] at hk
  have haddress : (s.vaddr+BitVec.ofNat 64 k-s'.vaddr).toNat =
      (s.vaddr.toNat+k+2^64-s'.vaddr.toNat)%2^64 := by
    have := s'.vaddr.isLt
    rw [BitVec.toNat_sub,BitVec.toNat_add,BitVec.toNat_ofNat]
    omega
  unfold ElfSegment.Covers
  constructor
  · intro hcovers
    refine ⟨_,hcovers,?_,rfl⟩
    have := hlast _ hcovers
    omega
  · rintro ⟨k',hk',-,heq⟩
    omega

include hwindow in
theorem agree_of_faithful (h : Faithful info.segments data loaded mem')
    (hdisjoint : info.segments.Pairwise DisjointMemory) (s s' : ElfSegment)
    (hs : s ∈ info.segments) (hs' : s' ∈ info.segments) : Agree data s s' := by
  intro k hk k' hsame
  have hlow := (hwindow.checked s hs).1
  have hlow' := (hwindow.checked s' hs').1
  have hstart := hwindow.start
  have hplaces : placeOf loaded s k = placeOf loaded s' k' := by
    unfold placeOf
    omega
  have hbyte := h.fileBytes hdisjoint s hs k hk
  rw [hplaces] at hbyte
  refine ⟨fun hk' => ?_,fun hfile hmem => ?_⟩
  · rw [← hbyte,h.fileBytes hdisjoint s' hs' k' hk']
  · rw [← hbyte,h.zeroes hdisjoint s' hs' k' hfile hmem]

include hload hwindow in
/-- A place of the window holds a byte of a segment over it, or zero where there is none. -/
theorem placed_cases (hends : ∀ s ∈ info.segments, EndsInside info.segments s) (s : ElfSegment)
    (hs : s ∈ info.segments) (k : ℕ) (hk : placeOf loaded s k < loaded.size) :
    (∃ s' ∈ info.segments, ∃ k' < s'.fileSize, s'.vaddr.toNat+k' = s.vaddr.toNat+k ∧
      mem' (loaded.physBase+BitVec.ofNat 64 (placeOf loaded s k)) =
        data.getD (s'.offset+k') 0) ∨
    ((∀ s' ∈ info.segments, ¬s'.Covers (s.vaddr+BitVec.ofNat 64 k)) ∧
      mem' (loaded.physBase+BitVec.ofNat 64 (placeOf loaded s k)) = 0) := by
  rw [placed_byte allocatePages info data mem mem' loaded hload most hwindow s hs k hk]
  rcases imageByte_cases info.segments data (s.vaddr+BitVec.ofNat 64 k) with
    ⟨s',hs',hcovers,hbyte⟩ | hnone
  · obtain ⟨k',hfile,hsame,heq⟩ :=
      (covers_iff info data loaded most hwindow s s' hs hs' k hk (hends s' hs')).mp hcovers
    exact Or.inl ⟨s',hs',k',hfile,hsame,by rw [hbyte,heq]⟩
  · exact Or.inr hnone

include hload hwindow in
theorem faithful_of_agree (hends : ∀ s ∈ info.segments, EndsInside info.segments s)
    (hagree : info.segments.Pairwise DisjointMemory →
      ∀ s ∈ info.segments, ∀ s' ∈ info.segments, Agree data s s') :
    Faithful info.segments data loaded mem' := by
  have hin := fun s hs => (inWindow_iff info data loaded most hwindow s hs).mpr (hends s hs)
  have hplaced := placed_cases allocatePages info data mem mem' loaded hload most hwindow hends
  refine ⟨hin,fun s hs => (hwindow.checked s hs).2,?_,?_⟩
  · intro hdisjoint s hs k hk
    rcases hplaced s hs k (hin s hs k hk) with ⟨s',hs',k',hfile,hsame,hbyte⟩ | ⟨hnone,-⟩
    · rw [hbyte]
      exact (hagree hdisjoint s' hs' s hs k' hfile k hsame).1 hk
    · exact absurd (covers_self s k hk) (hnone s hs)
  · intro hdisjoint s hs k hfile hk
    have hk' := memory_inWindow info data loaded most hwindow s hs k hk
    rcases hplaced s hs k hk' with ⟨s',hs',k',hfile',hsame,hbyte⟩ | ⟨-,hbyte⟩
    · rw [hbyte]
      exact (hagree hdisjoint s' hs' s hs k' hfile' k hsame).2 hfile hk
    · exact hbyte

end Load

/-- A load that comes back is faithful exactly when the bytes of every segment end in the
last page of the window and, where segments have memory of their own, agree with what they
fall on. -/
theorem loadKernelSegments_faithful_iff (allocatePages : ℕ → Option Address) (info : ElfInfo)
    (data : List UInt8) (mem mem' : Memory) (loaded : LoadedKernel)
    (hload : loadKernelSegments allocatePages info data mem = some (loaded,mem')) :
    Faithful info.segments data loaded mem' ↔
      (∀ s ∈ info.segments, EndsInside info.segments s) ∧
        (info.segments.Pairwise DisjointMemory →
          ∀ s ∈ info.segments, ∀ s' ∈ info.segments, Agree data s s') := by
  obtain ⟨most,hwindow⟩ := loadKernelSegments_window allocatePages info data mem mem' loaded hload
  constructor
  · intro h
    constructor
    · intro s hs
      exact (inWindow_iff info data loaded most hwindow s hs).mp (h.inWindow s hs)
    · intro hdisjoint s hs s' hs'
      exact agree_of_faithful info data mem' loaded most hwindow h hdisjoint s s' hs hs'
  · rintro ⟨hends,hagree⟩
    exact faithful_of_agree allocatePages info data mem mem' loaded hload most hwindow hends hagree

def oneHeader (pMemsz pFilesz : BitVec 64) : Elf where
  is64 := true
  eType := 2
  entry := 0
  programHeaders := [⟨ptLoad,0,pMemsz,pFilesz,0⟩]
  dynrelas := []

def oneSegment (pMemsz pFilesz : BitVec 64) : ElfInfo where
  entry := 0
  segments := [{ vaddr := 0, memSize := pMemsz.toNat, fileSize := pFilesz.toNat, offset := 0 }]
  relocations := []
  isPie := false

theorem parseElf_oneHeader (pMemsz pFilesz : BitVec 64) :
    parseElf (some (oneHeader pMemsz pFilesz)) = .ok (oneSegment pMemsz pFilesz) := rfl

def loadOne (pMemsz pFilesz : BitVec 64) (data : List UInt8) : Option (LoadedKernel × Memory) :=
  loadKernelSegments allocateMebibyte (oneSegment pMemsz pFilesz) data fun _ => 0xFF

/-- Four bytes of code and zeroes behind them. -/
theorem loadOne_faithful :
    ∃ loaded mem, loadOne 32 4 [1,2,3,4] = some (loaded,mem) ∧
      Faithful (oneSegment 32 4).segments [1,2,3,4] loaded mem := by
  have hsome : (loadOne 32 4 [1,2,3,4]).isSome = true := by decide +kernel
  obtain ⟨⟨loaded,mem⟩,hload⟩ := Option.isSome_iff_exists.mp hsome
  refine ⟨loaded,mem,hload,?_⟩
  apply (loadKernelSegments_faithful_iff allocateMebibyte (oneSegment 32 4) [1,2,3,4] _ mem loaded
    hload).mpr
  constructor
  · intro s hs
    exact ⟨s,hs,by rw [List.mem_singleton.mp hs]; decide⟩
  · intro _ s hs s' hs' k hk k' hsame
    rw [List.mem_singleton.mp hs] at hk hsame ⊢
    rw [List.mem_singleton.mp hs'] at hsame ⊢
    have hequal : k = k' := Nat.add_left_cancel hsame
    subst hequal
    exact ⟨fun _ => rfl,fun hfile => absurd hk (Nat.not_lt.mpr hfile)⟩

/-- A header with one byte of memory and a page and a byte of the file: the window is one
page, and the copy goes a byte past it. -/
theorem file_past_window :
    ∃ loaded mem, parseElf (some (oneHeader 1 4097)) = .ok (oneSegment 1 4097) ∧
      loadOne 1 4097 (List.replicate 4097 0xCC) = some (loaded,mem) ∧
      ¬Faithful (oneSegment 1 4097).segments (List.replicate 4097 0xCC) loaded mem := by
  have hsome : (loadOne 1 4097 (List.replicate 4097 0xCC)).isSome = true := by decide +kernel
  obtain ⟨⟨loaded,mem⟩,hload⟩ := Option.isSome_iff_exists.mp hsome
  refine ⟨loaded,mem,parseElf_oneHeader 1 4097,hload,fun h => ?_⟩
  obtain ⟨most,hwindow⟩ := loadKernelSegments_window allocateMebibyte (oneSegment 1 4097) _ _ mem
    loaded hload
  obtain ⟨s',hs',hend⟩ := (inWindow_iff (oneSegment 1 4097) _ loaded most hwindow _
    List.mem_cons_self).mp (h.inWindow _ List.mem_cons_self)
  rw [List.mem_singleton.mp hs'] at hend
  exact absurd hend (by decide)

end Zamak.SegmentLoading
