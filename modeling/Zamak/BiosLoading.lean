import Zamak.BiosElf

/-! # Loading a kernel from the BIOS

The segment loop of `kmain` and the ranges it scans for requests afterwards. A segment goes
to its virtual address above the start of the kernel window; the scan goes by its physical
address. Both addresses have 64 bits in the file and 32 as pointers, and the image is built
without overflow checks. -/

set_option autoImplicit false

namespace Zamak.BiosLoading
open Zamak.Fat32Image Zamak.BiosElf

def kernelLoadPhys : ℕ := 0x600000

def kernelWindowEnd : ℕ := 0x800000

structure Write where
  dest : ℕ
  bytes : List UInt8

def Write.Covers (w : Write) (x : ℕ) : Prop := w.dest ≤ x ∧ x < w.dest+w.bytes.length

def addU64 (a b : ℕ) : ℕ := (a+b)%2^64

def asPointer (n : ℕ) : ℕ := n%2^32

/-- The writes of one segment; `none` when one of the bounds assertions fails. -/
def loadSegment (kernelBuf : List UInt8) (seg : ElfSegment) : Option (List Write) :=
  let destPhys := addU64 kernelLoadPhys seg.vaddr
  match checkedAdd 32 seg.offset seg.fileSize with
  | none => none
  | some srcEnd =>
    if srcEnd ≤ kernelBuf.length then
      let copy : Write := ⟨asPointer destPhys,(kernelBuf.drop seg.offset).take seg.fileSize⟩
      if seg.memSize > seg.fileSize then
        some [copy,⟨asPointer (addU64 destPhys seg.fileSize),
          List.replicate (seg.memSize-seg.fileSize) 0⟩]
      else some [copy]
    else none

def loadSegments (kernelBuf : List UInt8) :
    List ElfSegment → Option (List (ElfSegment × List Write))
  | [] => some []
  | seg::segments =>
    match loadSegment kernelBuf seg, loadSegments kernelBuf segments with
    | some writes, some loaded => some ((seg,writes)::loaded)
    | _, _ => none

/-- From the file to the writes; `none` when the parser or an assertion stops it. -/
def loadKernel (kernelBuf : List UInt8) : Option (List (ElfSegment × List Write)) :=
  match parseElfMinimal kernelBuf with
  | .ok (some info) => loadSegments kernelBuf info.segments
  | _ => none

def Scanned (seg : ElfSegment) (x : ℕ) : Prop :=
  asPointer seg.paddr ≤ x ∧ x < asPointer seg.paddr+seg.memSize

/-- Every write is in the kernel window, and what is scanned for a segment is what it was
loaded to. -/
structure Contained (loaded : List (ElfSegment × List Write)) : Prop where
  inWindow : ∀ p ∈ loaded, ∀ w ∈ p.2, ∀ x, w.Covers x → kernelLoadPhys ≤ x ∧ x < kernelWindowEnd
  scanned : ∀ p ∈ loaded, ∀ x, Scanned p.1 x ↔ ∃ w ∈ p.2, w.Covers x

/-- The segment is empty, or its memory fits the window at its virtual address, its physical
address is that place of the window and the bytes of the file are inside its memory. -/
def Placed (seg : ElfSegment) : Prop :=
  (seg.fileSize = 0 ∧ seg.memSize = 0) ∨
    (seg.vaddr%2^32+seg.memSize ≤ 0x200000 ∧ seg.fileSize ≤ seg.memSize ∧
      seg.paddr%2^32 = kernelLoadPhys+seg.vaddr%2^32)

instance (seg : ElfSegment) : Decidable (Placed seg) := inferInstanceAs (Decidable (_ ∨ _))

section Segment
variable (kernelBuf : List UInt8) (seg : ElfSegment)

def Written (x : ℕ) : Prop :=
  (asPointer (addU64 kernelLoadPhys seg.vaddr) ≤ x ∧
    x < asPointer (addU64 kernelLoadPhys seg.vaddr)+seg.fileSize) ∨
  (asPointer (addU64 (addU64 kernelLoadPhys seg.vaddr) seg.fileSize) ≤ x ∧
    x < asPointer (addU64 (addU64 kernelLoadPhys seg.vaddr) seg.fileSize)+
      (seg.memSize-seg.fileSize))

theorem loadSegment_some (writes : List Write) (h : loadSegment kernelBuf seg = some writes) :
    seg.offset+seg.fileSize ≤ kernelBuf.length ∧
      writes = ⟨asPointer (addU64 kernelLoadPhys seg.vaddr),
        (kernelBuf.drop seg.offset).take seg.fileSize⟩::
        if seg.memSize > seg.fileSize then
          [⟨asPointer (addU64 (addU64 kernelLoadPhys seg.vaddr) seg.fileSize),
            List.replicate (seg.memSize-seg.fileSize) 0⟩]
        else [] := by
  unfold loadSegment checkedAdd at h
  by_cases hsum : seg.offset+seg.fileSize < 2^32
  · by_cases hroom : seg.offset+seg.fileSize ≤ kernelBuf.length
    · simp only [if_pos hsum,if_pos hroom] at h
      refine ⟨hroom,?_⟩
      by_cases hzero : seg.memSize > seg.fileSize
      · rw [if_pos hzero] at h ⊢
        exact (Option.some.inj h).symm
      · rw [if_neg hzero] at h ⊢
        exact (Option.some.inj h).symm
    · simp only [if_pos hsum,if_neg hroom] at h
      cases h
  · simp only [if_neg hsum] at h
    cases h

theorem loadSegment_written (writes : List Write) (h : loadSegment kernelBuf seg = some writes)
    (x : ℕ) : (∃ w ∈ writes, w.Covers x) ↔ Written seg x := by
  obtain ⟨hroom,rfl⟩ := loadSegment_some kernelBuf seg writes h
  have hcopy : ((kernelBuf.drop seg.offset).take seg.fileSize).length = seg.fileSize := by
    rw [List.length_take,List.length_drop]
    omega
  by_cases hzero : seg.memSize > seg.fileSize
  · simp only [if_pos hzero,List.mem_cons,List.not_mem_nil,or_false,exists_eq_or_imp,
      exists_eq_left,Write.Covers,hcopy,List.length_replicate,Written]
  · have hnone : seg.memSize-seg.fileSize = 0 := by omega
    simp only [if_neg hzero,List.mem_cons,List.not_mem_nil,or_false,exists_eq_left,Write.Covers,
      hcopy,Written,hnone]
    omega

theorem dest_eq : asPointer (addU64 kernelLoadPhys seg.vaddr) =
    (0x600000+seg.vaddr%2^32)%2^32 := by
  unfold asPointer addU64 kernelLoadPhys
  omega

theorem zeroes_eq : asPointer (addU64 (addU64 kernelLoadPhys seg.vaddr) seg.fileSize) =
    (asPointer (addU64 kernelLoadPhys seg.vaddr)+seg.fileSize)%2^32 := by
  unfold asPointer addU64
  omega

/-- The bytes of a segment with some are the range of its size from its destination on,
when they are all in the window. -/
theorem written_range (hsome : ¬(seg.fileSize = 0 ∧ seg.memSize = 0))
    (hwindow : ∀ x, Written seg x → kernelLoadPhys ≤ x ∧ x < kernelWindowEnd) (x : ℕ) :
    Written seg x ↔ kernelLoadPhys+seg.vaddr%2^32 ≤ x ∧
      x < kernelLoadPhys+seg.vaddr%2^32+max seg.fileSize seg.memSize := by
  have hlow : seg.vaddr%2^32 < 2^32 := Nat.mod_lt _ (by decide)
  unfold Written at hwindow ⊢
  rw [zeroes_eq,dest_eq] at hwindow ⊢
  unfold kernelLoadPhys kernelWindowEnd at *
  generalize seg.vaddr%2^32 = v at *
  by_cases hfile : seg.fileSize = 0
  · have hfirst := hwindow ((0x600000+v)%2^32) (Or.inr (by omega))
    omega
  · have hfirst := hwindow ((0x600000+v)%2^32) (Or.inl (by omega))
    have hlast := hwindow ((0x600000+v)%2^32+seg.fileSize-1) (Or.inl (by omega))
    omega

/-- A segment is written inside the window and scanned where it is written exactly when it
is placed. -/
theorem written_iff_placed :
    ((∀ x, Written seg x → kernelLoadPhys ≤ x ∧ x < kernelWindowEnd) ∧
      ∀ x, Scanned seg x ↔ Written seg x) ↔ Placed seg := by
  constructor
  · rintro ⟨hwindow,hscan⟩
    by_cases hnone : seg.fileSize = 0 ∧ seg.memSize = 0
    · exact Or.inl hnone
    · have hrange := written_range seg hnone hwindow
      simp only [hrange,Scanned,asPointer] at hwindow hscan
      have hlast := hwindow (kernelLoadPhys+seg.vaddr%2^32+max seg.fileSize seg.memSize-1)
        (by omega)
      have hstart := (hscan (kernelLoadPhys+seg.vaddr%2^32)).mpr (by omega)
      have hback := (hscan (seg.paddr%2^32)).mp (by omega)
      have hend := (hscan (kernelLoadPhys+seg.vaddr%2^32+max seg.fileSize seg.memSize-1)).mpr
        (by omega)
      unfold Placed
      unfold kernelLoadPhys kernelWindowEnd at *
      right
      omega
  · unfold Placed Written Scanned
    rw [zeroes_eq,dest_eq]
    unfold asPointer kernelLoadPhys kernelWindowEnd
    intro hplaced
    constructor
    · intro x hx
      omega
    · intro x
      omega

end Segment

theorem loadSegments_mem (kernelBuf : List UInt8) (segments : List ElfSegment)
    (loaded : List (ElfSegment × List Write))
    (h : loadSegments kernelBuf segments = some loaded) :
    loaded.map Prod.fst = segments ∧
      ∀ p ∈ loaded, loadSegment kernelBuf p.1 = some p.2 := by
  induction segments generalizing loaded with
  | nil =>
    cases h
    exact ⟨rfl,by simp⟩
  | cons seg segments ih =>
    rw [loadSegments] at h
    cases hseg : loadSegment kernelBuf seg with
    | none =>
      rw [hseg] at h
      cases h
    | some writes =>
      cases hrest : loadSegments kernelBuf segments with
      | none =>
        rw [hseg,hrest] at h
        cases h
      | some rest =>
        rw [hseg,hrest] at h
        cases h
        obtain ⟨hfst,hall⟩ := ih rest hrest
        refine ⟨by rw [List.map_cons,hfst],?_⟩
        intro p hp
        rcases List.mem_cons.mp hp with rfl | hp
        · exact hseg
        · exact hall p hp

theorem loadSegments_contained_iff (kernelBuf : List UInt8) (segments : List ElfSegment)
    (loaded : List (ElfSegment × List Write))
    (hload : loadSegments kernelBuf segments = some loaded) :
    Contained loaded ↔ ∀ seg ∈ segments, Placed seg := by
  obtain ⟨hfst,hall⟩ := loadSegments_mem kernelBuf segments loaded hload
  rw [← hfst,List.forall_mem_map]
  constructor
  · intro h p hp
    have hwritten := loadSegment_written kernelBuf p.1 p.2 (hall p hp)
    apply (written_iff_placed p.1).mp
    refine ⟨fun x hx => ?_,fun x => (h.scanned p hp x).trans (hwritten x)⟩
    obtain ⟨w,hw,hcovers⟩ := (hwritten x).mpr hx
    exact h.inWindow p hp w hw x hcovers
  · intro h
    constructor
    · intro p hp w hw x hcovers
      have hwritten := loadSegment_written kernelBuf p.1 p.2 (hall p hp)
      exact ((written_iff_placed p.1).mpr (h p hp)).1 x ((hwritten x).mp ⟨w,hw,hcovers⟩)
    · intro p hp x
      have hwritten := loadSegment_written kernelBuf p.1 p.2 (hall p hp)
      rw [hwritten x]
      exact ((written_iff_placed p.1).mpr (h p hp)).2 x

/-- For every kernel file the parser and the assertions accept, the writes stay in the window
and the scan covers what was loaded exactly when every segment is placed. -/
theorem loadKernel_contained_iff (kernelBuf : List UInt8)
    (loaded : List (ElfSegment × List Write)) (hload : loadKernel kernelBuf = some loaded) :
    Contained loaded ↔ ∀ info, parseElfMinimal kernelBuf = .ok (some info) →
      ∀ seg ∈ info.segments, Placed seg := by
  unfold loadKernel at hload
  split at hload
  · next info hparse =>
    rw [loadSegments_contained_iff kernelBuf info.segments loaded hload]
    constructor
    · intro h info' hinfo'
      rw [hparse] at hinfo'
      cases hinfo'
      exact h
    · intro h
      exact h info hparse
  · cases hload

/-- Linked at zero, with the start of the window as its physical address. -/
theorem loadKernel_contained_small :
    ∃ loaded, loadKernel (oneHeaderFile 64 0 0 0x600000 120 4096) = some loaded ∧
      Contained loaded := by
  have hparse : parseElfMinimal (oneHeaderFile 64 0 0 0x600000 120 4096) =
      .ok (some ⟨0,[⟨0,0,0x600000,120,4096⟩],false⟩) := by decide +kernel
  have hsome : (loadKernel (oneHeaderFile 64 0 0 0x600000 120 4096)).isSome = true := by
    decide +kernel
  obtain ⟨loaded,hload⟩ := Option.isSome_iff_exists.mp hsome
  refine ⟨loaded,hload,(loadKernel_contained_iff _ loaded hload).mpr ?_⟩
  intro info hinfo
  rw [hparse] at hinfo
  cases hinfo
  decide

/-- A segment linked two mebibytes up is zeroed past the end of the window, and its physical
address, which no one has loaded, is scanned. -/
theorem second_window_written :
    ∃ loaded, loadKernel (oneHeaderFile 64 0 0x200000 0 0 4096) = some loaded ∧
      ¬Contained loaded := by
  have hparse : parseElfMinimal (oneHeaderFile 64 0 0x200000 0 0 4096) =
      .ok (some ⟨0,[⟨0,0x200000,0,0,4096⟩],false⟩) := by decide +kernel
  have hsome : (loadKernel (oneHeaderFile 64 0 0x200000 0 0 4096)).isSome = true := by
    decide +kernel
  obtain ⟨loaded,hload⟩ := Option.isSome_iff_exists.mp hsome
  refine ⟨loaded,hload,fun h => ?_⟩
  have hsegments : loadSegments (oneHeaderFile 64 0 0x200000 0 0 4096)
      [⟨0,0x200000,0,0,4096⟩] = some loaded := by
    rw [loadKernel,hparse] at hload
    exact hload
  have hplaced := (loadSegments_contained_iff _ _ loaded hsegments).mp h _ List.mem_cons_self
  exact absurd hplaced (by decide)

end Zamak.BiosLoading
