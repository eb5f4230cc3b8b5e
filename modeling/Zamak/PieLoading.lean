import Mathlib.Data.BitVec
import Mathlib.Data.List.Basic
import Mathlib.Tactic.Ring

/-! # Loading a position-independent kernel

Three address spaces meet here: the link addresses of the file, the physical addresses of
the copy and the virtual addresses it is mapped to. The segments are copied relative to
the lowest page of the file; the relocations and the entry point are rebased relative to
link address zero. Pointers and addresses are words of 64 bits and wrap around. -/

set_option autoImplicit false

namespace Zamak.PieLoading

abbrev Address := BitVec 64

abbrev Memory := Address → UInt8

structure ElfSegment where
  vaddr : Address
  memSize : ℕ
  fileSize : ℕ
  offset : ℕ

/-- The addend is an `i64`, taken as the word it is added as. -/
structure Relocation where
  offset : Address
  addend : BitVec 64

structure ElfInfo where
  entry : Address
  segments : List ElfSegment
  relocations : List Relocation
  isPie : Bool

structure LoadedKernel where
  physBase : Address
  vaddrStart : Address
  size : ℕ

def zeroBytes (mem : Memory) (base : Address) (size : ℕ) : Memory :=
  fun y => if (y-base).toNat < size then 0 else mem y

def copyBytes (mem : Memory) (dest : Address) (data : List UInt8) (offset size : ℕ) : Memory :=
  fun y => if (y-dest).toNat < size then data.getD (offset+(y-dest).toNat) 0 else mem y

def wordByte (word : BitVec 64) (k : ℕ) : UInt8 := UInt8.ofBitVec (word.extractLsb' (8*k) 8)

def writeWord (mem : Memory) (target : Address) (word : BitVec 64) : Memory :=
  fun y => if (y-target).toNat < 8 then wordByte word (y-target).toNat else mem y

def minVaddr (segments : List ElfSegment) : ℕ :=
  segments.foldl (fun least s => if s.vaddr.toNat < least then s.vaddr.toNat else least) (2^64-1)

/-- The largest end of a segment; `none` when an end does not fit a word. -/
def maxVaddr (segments : List ElfSegment) : Option ℕ :=
  segments.foldlM (fun most s =>
    if s.vaddr.toNat+s.memSize < 2^64 then
      some (if s.vaddr.toNat+s.memSize > most then s.vaddr.toNat+s.memSize else most)
    else none) 0

def pageDown (n : ℕ) : ℕ := n/4096*4096

def lowestPage (segments : List ElfSegment) : ℕ := pageDown (minVaddr segments)

def pageUp (n : ℕ) : Option ℕ := if n+0xfff < 2^64 then some (pageDown (n+0xfff)) else none

def checkedSub (a b : ℕ) : Option ℕ := if b ≤ a then some (a-b) else none

def loadSegment (data : List UInt8) (vaddrStart : ℕ) (physBase : Address) (mem : Memory)
    (s : ElfSegment) : Option Memory :=
  if vaddrStart ≤ s.vaddr.toNat ∧ physBase.toNat+(s.vaddr.toNat-vaddrStart) < 2^64 ∧
      s.offset+s.fileSize ≤ data.length then
    some (copyBytes mem (physBase+BitVec.ofNat 64 (s.vaddr.toNat-vaddrStart)) data s.offset
      s.fileSize)
  else none

/-- `load_kernel_segments`; `none` is one of its panics. -/
def loadKernelSegments (allocatePages : ℕ → Option Address) (info : ElfInfo)
    (data : List UInt8) (mem : Memory) : Option (LoadedKernel × Memory) := do
  let most ← maxVaddr info.segments
  let vaddrStart := lowestPage info.segments
  let vaddrEnd ← pageUp most
  let size ← checkedSub vaddrEnd vaddrStart
  let physBase ← allocatePages (size/4096)
  let mem ← info.segments.foldlM (loadSegment data vaddrStart physBase)
    (zeroBytes mem physBase size)
  some ({ physBase := physBase, vaddrStart := BitVec.ofNat 64 vaddrStart, size := size },mem)

def applyRelocation (physBase virtBase : Address) (mem : Memory) (r : Relocation) : Memory :=
  writeWord mem (physBase+r.offset) (virtBase+r.addend)

def applyRelocations (physBase virtBase : Address) (relocations : List Relocation)
    (mem : Memory) : Memory := relocations.foldl (applyRelocation physBase virtBase) mem

def virtualBase (random : ℕ) : Address := 0xffffffff80000000#64+BitVec.ofNat 64 (random%512*0x200000)

/-- Loading and rebasing in `main`: the kernel, its entry point and the memory. -/
def loadKernel (allocatePages : ℕ → Option Address) (random : ℕ) (info : ElfInfo)
    (data : List UInt8) (mem : Memory) : Option (LoadedKernel × Address × Memory) := do
  let (loaded,mem) ← loadKernelSegments allocatePages info data mem
  if info.isPie then
    let virt := virtualBase random
    some ({ loaded with vaddrStart := virt },virt+info.entry,
      applyRelocations loaded.physBase virt info.relocations mem)
  else some (loaded,info.entry,mem)

def ElfSegment.Covers (s : ElfSegment) (x : Address) : Prop := (x-s.vaddr).toNat < s.fileSize

instance (s : ElfSegment) (x : Address) : Decidable (s.Covers x) :=
  inferInstanceAs (Decidable (_ < _))

/-- The byte of the file at a link address, zero where no segment has one. Of segments
that overlap the last one counts. -/
def imageByte (segments : List ElfSegment) (data : List UInt8) (x : Address) : UInt8 :=
  match (segments.filter fun s => s.Covers x).getLast? with
  | some s => data.getD (s.offset+(x-s.vaddr).toNat) 0
  | none => 0

def HoldsWord (mem : Memory) (a : Address) (word : BitVec 64) : Prop :=
  ∀ k < 8, mem (a+BitVec.ofNat 64 k) = wordByte word k

/-- The image is slid as a whole from the lowest page to the virtual base. -/
structure Slid (info : ElfInfo) (data : List UInt8) (virt : Address)
    (loaded : LoadedKernel) (entry : Address) (mem : Memory) (low : Address) : Prop where
  words : ∀ r ∈ info.relocations,
    HoldsWord mem (loaded.physBase+(r.offset-low)) (virt-low+r.addend)
  entry : entry = virt-low+info.entry
  others : ∀ x, (x-low).toNat < loaded.size →
    (∀ r ∈ info.relocations, 8 ≤ (x-r.offset).toNat) →
    mem (loaded.physBase+(x-low)) = imageByte info.segments data x

def Consistent (virt : Address) (relocations : List Relocation) : Prop :=
  ∀ r ∈ relocations, ∀ r' ∈ relocations, ∀ k < 8, ∀ l < 8,
    r.offset+BitVec.ofNat 64 k = r'.offset+BitVec.ofNat 64 l →
      wordByte (virt+r.addend) k = wordByte (virt+r'.addend) l

section Loading
variable (data : List UInt8)

theorem minVaddr_lt (segments : List ElfSegment) : minVaddr segments < 2^64 := by
  have hfold : ∀ (segments : List ElfSegment) (least : ℕ), least < 2^64 →
      segments.foldl (fun least s => if s.vaddr.toNat < least then s.vaddr.toNat else least) least
        < 2^64 := by
    intro segments
    induction segments with
    | nil => exact fun _ h => h
    | cons s segments ih =>
      intro least h
      rw [List.foldl_cons]
      apply ih
      split
      · exact s.vaddr.isLt
      · exact h
  exact hfold segments _ (by decide)

theorem lowestPage_lt (segments : List ElfSegment) : lowestPage segments < 2^64 := by
  have := minVaddr_lt segments
  unfold lowestPage pageDown
  omega

theorem sub_ofNat (v : Address) (start : ℕ) (h : start ≤ v.toNat) :
    BitVec.ofNat 64 (v.toNat-start) = v-BitVec.ofNat 64 start := by
  apply BitVec.eq_of_toNat_eq
  have := v.isLt
  rw [BitVec.toNat_sub,BitVec.toNat_ofNat,BitVec.toNat_ofNat]
  omega

theorem loadSegment_byte (start : ℕ) (physBase : Address) (s : ElfSegment) (mem mem' : Memory)
    (h : loadSegment data start physBase mem s = some mem') (x : Address) :
    mem' (physBase+(x-BitVec.ofNat 64 start)) =
      if s.Covers x then data.getD (s.offset+(x-s.vaddr).toNat) 0
      else mem (physBase+(x-BitVec.ofNat 64 start)) := by
  unfold loadSegment at h
  split at h
  · rename_i hfits
    cases h
    have hplace : physBase+(x-BitVec.ofNat 64 start)-
        (physBase+BitVec.ofNat 64 (s.vaddr.toNat-start)) = x-s.vaddr := by
      rw [sub_ofNat s.vaddr start hfits.1]
      ring
    show copyBytes _ _ _ _ _ _ = _
    rw [copyBytes,hplace]
    rfl
  · cases h

theorem foldlM_loadSegment (start : ℕ) (physBase : Address) (segments : List ElfSegment)
    (mem mem' : Memory)
    (h : segments.foldlM (loadSegment data start physBase) mem = some mem') (x : Address) :
    mem' (physBase+(x-BitVec.ofNat 64 start)) =
      match (segments.filter fun s => s.Covers x).getLast? with
      | some s => data.getD (s.offset+(x-s.vaddr).toNat) 0
      | none => mem (physBase+(x-BitVec.ofNat 64 start)) := by
  induction segments generalizing mem with
  | nil =>
    cases h
    rfl
  | cons s segments ih =>
    obtain ⟨next,hnext,hrest⟩ := Option.bind_eq_some_iff.mp h
    have hbyte := loadSegment_byte data start physBase s mem next hnext x
    rw [ih _ hrest,List.filter_cons]
    by_cases hcovers : s.Covers x
    · rw [if_pos hcovers] at hbyte
      rw [if_pos (decide_eq_true hcovers),List.getLast?_cons]
      cases (segments.filter fun s => s.Covers x).getLast? with
      | some last => rfl
      | none => exact hbyte
    · rw [if_neg hcovers] at hbyte
      rw [if_neg (by simpa using hcovers)]
      cases (segments.filter fun s => s.Covers x).getLast? with
      | some last => rfl
      | none => exact hbyte

theorem loadKernelSegments_image (allocatePages : ℕ → Option Address) (info : ElfInfo)
    (mem mem' : Memory) (loaded : LoadedKernel)
    (h : loadKernelSegments allocatePages info data mem = some (loaded,mem')) (x : Address)
    (hx : (x-BitVec.ofNat 64 (lowestPage info.segments)).toNat < loaded.size) :
    mem' (loaded.physBase+(x-BitVec.ofNat 64 (lowestPage info.segments))) =
      imageByte info.segments data x := by
  simp only [loadKernelSegments,Option.bind_eq_bind,Option.bind_eq_some_iff] at h
  obtain ⟨most,-,vaddrEnd,-,size,-,physBase,-,copied,hcopied,hloaded⟩ := h
  cases hloaded
  rw [foldlM_loadSegment data _ _ _ _ _ hcopied x,imageByte]
  cases (info.segments.filter fun s => s.Covers x).getLast? with
  | some s => rfl
  | none =>
    show zeroBytes _ _ _ _ = _
    rw [zeroBytes,if_pos]
    rw [add_sub_cancel_left]
    exact hx

end Loading

section Relocating
variable (physBase virtBase : Address)

theorem applyRelocations_byte (relocations : List Relocation) (mem : Memory) (x : Address) :
    (∃ r ∈ relocations, (x-r.offset).toNat < 8 ∧
      applyRelocations physBase virtBase relocations mem (physBase+x) =
        wordByte (virtBase+r.addend) (x-r.offset).toNat) ∨
    ((∀ r ∈ relocations, 8 ≤ (x-r.offset).toNat) ∧
      applyRelocations physBase virtBase relocations mem (physBase+x) = mem (physBase+x)) := by
  induction relocations generalizing mem with
  | nil => exact Or.inr ⟨by simp,rfl⟩
  | cons r relocations ih =>
    have hplace : physBase+x-(physBase+r.offset) = x-r.offset := by ring
    rcases ih (applyRelocation physBase virtBase mem r) with ⟨r',hr',hover,hbyte⟩ | ⟨hapart,hbyte⟩
    · exact Or.inl ⟨r',List.mem_cons_of_mem r hr',hover,hbyte⟩
    · rw [applyRelocation,writeWord,hplace] at hbyte
      by_cases hover : (x-r.offset).toNat < 8
      · rw [if_pos hover] at hbyte
        exact Or.inl ⟨r,List.mem_cons_self,hover,hbyte⟩
      · rw [if_neg hover] at hbyte
        refine Or.inr ⟨?_,hbyte⟩
        intro r' hr'
        rcases List.mem_cons.mp hr' with rfl | hr'
        · omega
        · exact hapart r' hr'

theorem offset_toNat (offset : Address) (k : ℕ) (hk : k < 8) :
    (offset+BitVec.ofNat 64 k-offset).toNat = k := by
  rw [add_sub_cancel_left,BitVec.toNat_ofNat]
  omega

theorem applyRelocations_words (relocations : List Relocation) (mem : Memory)
    (h : Consistent virtBase relocations) (r : Relocation) (hr : r ∈ relocations) :
    HoldsWord (applyRelocations physBase virtBase relocations mem) (physBase+r.offset)
      (virtBase+r.addend) := by
  intro k hk
  rw [BitVec.add_assoc]
  rcases applyRelocations_byte physBase virtBase relocations mem
    (r.offset+BitVec.ofNat 64 k) with ⟨r',hr',hover,hbyte⟩ | ⟨hapart,-⟩
  · rw [hbyte]
    apply h r' hr' r hr _ hover k hk
    rw [BitVec.ofNat_toNat,BitVec.setWidth_eq]
    ring
  · have := hapart r hr
    rw [offset_toNat r.offset k hk] at this
    omega

end Relocating

/-- A kernel that is loaded and rebased is slid as a whole exactly when its lowest page is
page zero and its relocations do not contradict each other. -/
theorem loadKernel_slid_iff (allocatePages : ℕ → Option Address) (random : ℕ)
    (info : ElfInfo) (data : List UInt8) (mem mem' : Memory) (loaded : LoadedKernel)
    (entry : Address) (hpie : info.isPie = true)
    (hload : loadKernel allocatePages random info data mem = some (loaded,entry,mem')) :
    Slid info data (virtualBase random) loaded entry mem'
        (BitVec.ofNat 64 (lowestPage info.segments)) ↔
      lowestPage info.segments = 0 ∧ Consistent (virtualBase random) info.relocations := by
  simp only [loadKernel,Option.bind_eq_bind,Option.bind_eq_some_iff,hpie,if_true] at hload
  obtain ⟨⟨before,copied⟩,hsegments,hrebased⟩ := hload
  have himage := loadKernelSegments_image data allocatePages info mem copied before hsegments
  cases hrebased
  have hzero : BitVec.ofNat 64 (lowestPage info.segments) = 0#64 ↔
      lowestPage info.segments = 0 := by
    have hlt := lowestPage_lt info.segments
    rw [← BitVec.toNat_inj,BitVec.toNat_ofNat,Nat.mod_eq_of_lt hlt]
    rfl
  constructor
  · intro h
    have hlow : BitVec.ofNat 64 (lowestPage info.segments) = 0#64 := by
      have hentry := add_right_cancel h.entry
      exact sub_eq_self.mp hentry.symm
    refine ⟨hzero.mp hlow,?_⟩
    intro r hr r' hr' k hk l hl hsame
    have hword := h.words r hr k hk
    have hword' := h.words r' hr' l hl
    rw [hlow,BitVec.sub_zero,BitVec.sub_zero,BitVec.add_assoc] at hword hword'
    rw [← hword,← hword',hsame]
  · rintro ⟨hpage,hconsistent⟩
    have hlow := hzero.mpr hpage
    rw [hlow] at himage ⊢
    refine ⟨fun r hr => ?_,by rw [BitVec.sub_zero],fun x hx hapart => ?_⟩
    · rw [BitVec.sub_zero,BitVec.sub_zero]
      exact applyRelocations_words _ _ _ _ hconsistent r hr
    · rw [← himage x hx,BitVec.sub_zero]
      rcases applyRelocations_byte before.physBase (virtualBase random) info.relocations copied x
        with ⟨r,hr,hover,-⟩ | ⟨-,hbyte⟩
      · have := hapart r hr
        omega
      · exact hbyte

def smallKernel (base : Address) : ElfInfo where
  entry := base
  segments := [{ vaddr := base, memSize := 32, fileSize := 4, offset := 0 }]
  relocations := [{ offset := base+8, addend := base+16 }]
  isPie := true

def allocateMebibyte (_ : ℕ) : Option Address := some 0x100000

def loadSmall (base : Address) : Option (LoadedKernel × Address × Memory) :=
  loadKernel allocateMebibyte 0 (smallKernel base) [1,2,3,4] fun _ => 0xFF

/-- Linked at zero, the kernel is slid as a whole. -/
theorem loadKernel_slid_small :
    ∃ loaded entry mem, loadSmall 0 = some (loaded,entry,mem) ∧
      Slid (smallKernel 0) [1,2,3,4] (virtualBase 0) loaded entry mem
        (BitVec.ofNat 64 (lowestPage (smallKernel 0).segments)) := by
  have hsome : (loadSmall 0).isSome = true := by decide +kernel
  obtain ⟨⟨loaded,entry,mem⟩,hload⟩ := Option.isSome_iff_exists.mp hsome
  refine ⟨loaded,entry,mem,hload,?_⟩
  apply (loadKernel_slid_iff allocateMebibyte 0 (smallKernel 0) [1,2,3,4] _ mem loaded entry rfl
    hload).mpr
  refine ⟨by decide +kernel,?_⟩
  intro r hr r' hr' k hk l hl hsame
  rw [List.mem_singleton.mp hr] at hsame ⊢
  rw [List.mem_singleton.mp hr'] at hsame ⊢
  have hkl : BitVec.ofNat 64 k = BitVec.ofNat 64 l := add_left_cancel hsame
  have hnat := congrArg BitVec.toNat hkl
  rw [BitVec.toNat_ofNat,BitVec.toNat_ofNat] at hnat
  obtain rfl : k = l := by omega
  rfl

/-- Linked at the second page, the kernel's pointer is not rebased, and its entry point
lies a page too high. -/
theorem second_page_not_slid :
    ∃ loaded entry mem, loadSmall 0x1000 = some (loaded,entry,mem) ∧
      lowestPage (smallKernel 0x1000).segments = 0x1000 ∧
      entry = virtualBase 0+0x1000 ∧ mem (loaded.physBase+8) = 0 ∧
      ¬Slid (smallKernel 0x1000) [1,2,3,4] (virtualBase 0) loaded entry mem 0x1000 := by
  have hresult : (loadSmall 0x1000).map (fun result => (result.2.1,result.2.2 (result.1.physBase+8)))
      = some (virtualBase 0+0x1000,0) := by decide +kernel
  obtain ⟨⟨loaded,entry,mem⟩,hload,hread⟩ := Option.map_eq_some_iff.mp hresult
  simp only [Prod.mk.injEq] at hread
  obtain ⟨hentry,hbyte⟩ := hread
  refine ⟨loaded,entry,mem,hload,by decide +kernel,hentry,hbyte,fun h => ?_⟩
  have hslid := h.entry
  rw [hentry] at hslid
  exact absurd hslid (by decide +kernel)

end Zamak.PieLoading
