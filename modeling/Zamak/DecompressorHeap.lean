import Zamak.HeapBlocks
import Zamak.RetryLoops

/-! # The decompressor's heap

The allocator of stage 2 rounds the offset into its buffer, not the address. The buffer
itself is aligned to 16 bytes, so a block has a greater alignment exactly when the
buffer's address happens to have it. Blocks are inside the buffer and apart from each
other in any case. -/

set_option autoImplicit false

namespace Zamak.DecompressorHeap
open Zamak.MaskRounding Zamak.HeapBlocks Zamak.RetryLoops

def heapSize : UInt32 := 256*1024

def maxAlign : UInt32 := 16

def raised (align : UInt32) : UInt32 := if align < maxAlign then maxAlign else align

structure HeapBuffer where
  address : UInt32
  aligned : 16 ∣ address.toNat
  fits : address.toNat+heapSize.toNat < 2^32

def checkedAdd (a b : UInt32) : Option UInt32 :=
  if a.toNat+b.toNat < 2^32 then some (a+b) else none

/-- One pass of the loop in `alloc` from a value of the offset: the next offset and the
pointer, or null. -/
def attempt (buffer : HeapBuffer) (layout : Layout) (current : UInt32) :
    Option (UInt32 × UInt32) :=
  let align := raised layout.align
  let aligned := (current+align-1) &&& ~~~(align-1)
  match checkedAdd aligned layout.size with
  | none => none
  | some newOffset =>
    if newOffset > heapSize then none else some (newOffset,buffer.address+aligned)

/-- The weak exchange may fail a number of times by itself; the loop then starts over from
the same offset. -/
def alloc (buffer : HeapBuffer) (layout : Layout) (current : UInt32) :
    ℕ → Option (UInt32 × UInt32)
  | 0 => attempt buffer layout current
  | refusals+1 =>
    match attempt buffer layout current with
    | none => none
    | some _ => alloc buffer layout current refusals

/-- The blocks that a sequence of requests gets, with how often the exchange fails by
itself in each. -/
def allocAll (buffer : HeapBuffer) : UInt32 → List (Layout × ℕ) → List Block
  | _, [] => []
  | current, (layout,refusals)::requests =>
    match alloc buffer layout current refusals with
    | none => allocAll buffer current requests
    | some (next,pointer) => (layout,pointer)::allocAll buffer next requests

structure Sound (buffer : HeapBuffer) (blocks : List Block) : Prop where
  aligned : ∀ b ∈ blocks, Aligned b
  inside : ∀ b ∈ blocks,
    Inside buffer.address.toNat (buffer.address.toNat+heapSize.toNat) b
  apart : blocks.Pairwise Apart

def placeFor (layout : Layout) (offset : ℕ) : ℕ := roundUp (2^max layout.alignLog 4) offset

/-- The buffer's address has the alignment, or the request does not fit. -/
def WellPlaced (buffer : HeapBuffer) (layout : Layout) (offset : ℕ) : Prop :=
  layout.align.toNat ∣ buffer.address.toNat ∨
    heapSize.toNat < placeFor layout offset+layout.size.toNat

/-- Every request of a sequence is well placed at the offset it comes at. -/
def AllPlaced (buffer : HeapBuffer) : ℕ → List Layout → Prop
  | _, [] => True
  | offset, layout::layouts => WellPlaced buffer layout offset ∧
      if heapSize.toNat < placeFor layout offset+layout.size.toNat then
        AllPlaced buffer offset layouts
      else AllPlaced buffer (placeFor layout offset+layout.size.toNat) layouts

section Passes
variable (buffer : HeapBuffer)

theorem alloc_eq (layout : Layout) (current : UInt32) (refusals : ℕ) :
    alloc buffer layout current refusals = attempt buffer layout current := by
  induction refusals with
  | zero => rfl
  | succ refusals ih =>
    rw [alloc,ih]
    cases attempt buffer layout current <;> rfl

theorem allocAll_eq (current : UInt32) (requests : List (Layout × ℕ)) :
    allocAll buffer current requests =
      (serveAll (attempt buffer) current (requests.map Prod.fst)).2 := by
  induction requests generalizing current with
  | nil => rfl
  | cons request requests ih =>
    obtain ⟨layout,refusals⟩ := request
    rw [allocAll,alloc_eq,List.map_cons,serveAll]
    cases attempt buffer layout current with
    | none => exact ih current
    | some outcome => exact congrArg _ (ih outcome.1)

theorem heapSize_toNat : heapSize.toNat = 262144 := rfl

theorem raised_toNat (layout : Layout) :
    (raised layout.align).toNat = 2^max layout.alignLog 4 := by
  have hbound : maxAlign.toNat = 2^4 := rfl
  rw [raised]
  by_cases hlt : layout.alignLog < 4
  · rw [if_pos,Nat.max_eq_right (Nat.le_of_lt hlt),hbound]
    rw [UInt32.lt_iff_toNat_lt,layout.align_toNat,hbound]
    exact Nat.pow_lt_pow_right (by decide) hlt
  · have hle : 4 ≤ layout.alignLog := Nat.le_of_not_lt hlt
    rw [if_neg,Nat.max_eq_left hle,layout.align_toNat]
    rw [UInt32.lt_iff_toNat_lt,layout.align_toNat,hbound]
    exact Nat.not_lt.mpr (Nat.pow_le_pow_right (by decide) hle)

theorem align_dvd_placeFor (layout : Layout) (offset : ℕ) :
    layout.align.toNat ∣ placeFor layout offset := by
  rw [layout.align_toNat]
  exact Nat.dvd_trans (Nat.pow_dvd_pow 2 (Nat.le_max_left _ _)) (dvd_roundUp _ _)

theorem attempt_eq (layout : Layout) (current : UInt32)
    (hcurrent : current.toNat ≤ heapSize.toNat) :
    if heapSize.toNat < placeFor layout current.toNat+layout.size.toNat then
      attempt buffer layout current = none
    else ∃ next pointer, attempt buffer layout current = some (next,pointer) ∧
      next.toNat = placeFor layout current.toNat+layout.size.toNat ∧
      pointer.toNat = buffer.address.toNat+placeFor layout current.toNat := by
  have hfits := layout.fits
  have hbuffer := buffer.fits
  rw [heapSize_toNat] at hcurrent hbuffer ⊢
  have hlog : 2^max layout.alignLog 4 ≤ 2^31 := by
    rcases Nat.le_total layout.alignLog 4 with hle | hle
    · rw [Nat.max_eq_right hle]
      decide
    · rw [Nat.max_eq_left hle]
      omega
  have hround := alignUp_toNat current (raised layout.align) _ (raised_toNat layout)
    (by omega)
  have hupto := roundUp_lt (2^max layout.alignLog 4) current.toNat (Nat.two_pow_pos _)
  rw [attempt,placeFor]
  generalize (current+raised layout.align-1) &&& ~~~(raised layout.align-1) = aligned
    at hround ⊢
  rw [← hround] at hupto ⊢
  by_cases hword : aligned.toNat+layout.size.toNat < 2^32
  · have hadd : checkedAdd aligned layout.size = some (aligned+layout.size) := if_pos hword
    have hsum : (aligned+layout.size).toNat = aligned.toNat+layout.size.toNat := by
      rw [UInt32.toNat_add,Nat.mod_eq_of_lt hword]
    simp only [hadd]
    by_cases hover : 262144 < aligned.toNat+layout.size.toNat
    · rw [if_pos hover,if_pos]
      rw [gt_iff_lt,UInt32.lt_iff_toNat_lt,hsum]
      exact hover
    · rw [if_neg hover,if_neg]
      · refine ⟨_,_,rfl,hsum,?_⟩
        rw [UInt32.toNat_add]
        omega
      · rw [gt_iff_lt,UInt32.lt_iff_toNat_lt,hsum]
        exact hover
  · have hadd : checkedAdd aligned layout.size = none := if_neg hword
    rw [if_pos (by omega),hadd]

theorem aligned_iff (layout : Layout) (offset : ℕ) (pointer : UInt32)
    (hpointer : pointer.toNat = buffer.address.toNat+placeFor layout offset) :
    Aligned (layout,pointer) ↔ layout.align.toNat ∣ buffer.address.toNat := by
  rw [Aligned,hpointer]
  exact (Nat.dvd_add_iff_left (align_dvd_placeFor layout offset)).symm

/-- Along a sequence, every block is aligned exactly when every request is well placed. -/
theorem all_aligned_iff (layouts : List Layout) (current : UInt32)
    (hcurrent : current.toNat ≤ heapSize.toNat) :
    (∀ b ∈ (serveAll (attempt buffer) current layouts).2, Aligned b) ↔
      AllPlaced buffer current.toNat layouts := by
  induction layouts generalizing current with
  | nil =>
    refine iff_of_true ?_ trivial
    intro b hb
    cases hb
  | cons layout layouts ih =>
    have hone := attempt_eq buffer layout current hcurrent
    rw [serveAll,AllPlaced,WellPlaced]
    by_cases hover : heapSize.toNat < placeFor layout current.toNat+layout.size.toNat
    · rw [if_pos hover] at hone
      rw [hone,if_pos hover]
      exact (ih current hcurrent).trans ⟨fun h => ⟨Or.inr hover,h⟩,fun h => h.2⟩
    · rw [if_neg hover] at hone
      obtain ⟨next,pointer,hsome,hnext,hpointer⟩ := hone
      have hrest := ih next (by omega)
      have hfirst := aligned_iff buffer layout current.toNat pointer hpointer
      rw [hnext] at hrest
      rw [hsome,if_neg hover,← hrest,← hfirst]
      simp only [List.forall_mem_cons,hover,or_false]

structure HeapInv (next : UInt32) (served : List Block) : Prop where
  next_le : next.toNat ≤ heapSize.toNat
  inside : ∀ b ∈ served, Inside buffer.address.toNat (buffer.address.toNat+next.toNat) b
  ascending : Ascending served

theorem attempt_keeps (next : UInt32) (served : List Block) (layout : Layout)
    (next' pointer : UInt32) (hinv : HeapInv buffer next served)
    (h : attempt buffer layout next = some (next',pointer)) :
    HeapInv buffer next' (served++[(layout,pointer)]) := by
  have hone := attempt_eq buffer layout next hinv.next_le
  by_cases hover : heapSize.toNat < placeFor layout next.toNat+layout.size.toNat
  · rw [if_pos hover,h] at hone
    cases hone
  · rw [if_neg hover,h] at hone
    obtain ⟨_,_,hsame,hnext,hpointer⟩ := hone
    cases hsame
    have hfrom : next.toNat ≤ placeFor layout next.toNat := le_roundUp _ _ (Nat.two_pow_pos _)
    have hbehind : ∀ b ∈ served, b.2.toNat+b.1.size.toNat ≤ pointer.toNat := by
      intro b hb
      have := (hinv.inside b hb).2
      omega
    refine ⟨by omega,?_,Ascending.snoc hinv.ascending _ hbehind⟩
    intro b hb
    rcases List.mem_append.mp hb with hold | hnew
    · have hlo := (hinv.inside b hold).1
      have hbefore := hbehind b hold
      exact ⟨hlo,by omega⟩
    · have hlo : buffer.address.toNat ≤ pointer.toNat := by omega
      have hhi : pointer.toNat+layout.size.toNat ≤ buffer.address.toNat+next'.toNat := by omega
      rw [List.mem_singleton.mp hnew]
      exact ⟨hlo,hhi⟩

theorem serveAll_inv (layouts : List Layout) :
    HeapInv buffer (serveAll (attempt buffer) 0 layouts).1
      (serveAll (attempt buffer) 0 layouts).2 := by
  have hempty : HeapInv buffer 0 [] := by
    refine ⟨Nat.zero_le _,?_,List.Pairwise.nil⟩
    intro b hb
    cases hb
  have hinv := serves_keeps (attempt buffer) (HeapInv buffer) (attempt_keeps buffer) 0 _ [] _
    hempty (serveAll_serves (attempt buffer) 0 layouts)
  rwa [List.nil_append] at hinv

/-- The blocks of a sequence of requests are sound exactly when each request has an
alignment of the buffer's address, or does not fit. -/
theorem allocAll_sound_iff (requests : List (Layout × ℕ)) :
    Sound buffer (allocAll buffer 0 requests) ↔
      AllPlaced buffer 0 (requests.map Prod.fst) := by
  have haligned := all_aligned_iff buffer (requests.map Prod.fst) 0 (Nat.zero_le _)
  have hinv := serveAll_inv buffer (requests.map Prod.fst)
  rw [allocAll_eq]
  constructor
  · intro hsound
    exact haligned.mp hsound.aligned
  · intro hplaced
    refine ⟨haligned.mpr hplaced,?_,Ascending.apart hinv.ascending⟩
    intro b hb
    have ⟨hlo,hhi⟩ := hinv.inside b hb
    have hle := hinv.next_le
    exact ⟨hlo,by omega⟩

end Passes

/-- A buffer with the alignment its type guarantees and no more. -/
def oddBuffer : HeapBuffer := ⟨0x70010,by decide,by decide⟩

def pageLayout : Layout := ⟨4096,12,by decide⟩

theorem oddBuffer_misaligned :
    allocAll oddBuffer 0 [(pageLayout,0)] = [(pageLayout,0x70010)] ∧
    ¬Sound oddBuffer (allocAll oddBuffer 0 [(pageLayout,0)]) := by
  have hall : allocAll oddBuffer 0 [(pageLayout,0)] = [(pageLayout,0x70010)] := rfl
  refine ⟨hall,?_⟩
  intro hsound
  rw [hall] at hsound
  have haligned := hsound.aligned _ (List.mem_singleton_self _)
  rw [Aligned,Layout.align_toNat] at haligned
  exact absurd haligned (by decide)

end Zamak.DecompressorHeap
