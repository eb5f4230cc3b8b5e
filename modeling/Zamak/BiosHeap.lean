import Zamak.HeapBlocks
import Zamak.RetryLoops

/-! # The BIOS loader's heap

`BumpAllocator::alloc` loads the counter, computes a block behind it and stores the end of
the block with a compare and exchange. Sums and differences wrap at 32 bits. Over a heap
in the lower half of the address space no sum wraps, and every block handed out by any
interleaving of callers is aligned, inside the heap and apart from the others. Over any
other heap a request can be made whose end wraps below the end of the heap. -/

set_option autoImplicit false

namespace Zamak.BiosHeap
open Zamak.MaskRounding Zamak.HeapBlocks Zamak.RetryLoops

structure BumpAllocator where
  heapStart : UInt32
  heapSize : UInt32

/-- One pass of `alloc` from a value of the counter: the counter's next value and the
pointer, or null. -/
def attempt (heap : BumpAllocator) (layout : Layout) (current : UInt32) :
    Option (UInt32 × UInt32) :=
  let start := (heap.heapStart+current+layout.align-1) &&& ~~~(layout.align-1)
  let stop := start+layout.size
  if stop > heap.heapStart+heap.heapSize then none else some (stop-heap.heapStart,start)

def returned (served : List Block) : List Block :=
  served.filter fun b => b.2 != 0 && b.1.size != 0

structure Sound (heap : BumpAllocator) (blocks : List Block) : Prop where
  aligned : ∀ b ∈ blocks, Aligned b
  inside : ∀ b ∈ blocks,
    Inside heap.heapStart.toNat (heap.heapStart.toNat+heap.heapSize.toNat) b
  apart : blocks.Pairwise Apart

/-- Whatever callers there are and however their loads and exchanges interleave, the
blocks returned from an empty heap on are sound. -/
def AllocSound (heap : BumpAllocator) : Prop :=
  ∀ (C : Type) [DecidableEq C] (acts : List (Act C Layout)),
    Sound heap (returned (run (attempt heap) (start 0 : System C Layout UInt32 UInt32) acts).served)

structure HeapInv (heap : BumpAllocator) (next : UInt32) (served : List Block) : Prop where
  next_le : next.toNat ≤ heap.heapSize.toNat
  aligned : ∀ b ∈ served, Aligned b
  inside : ∀ b ∈ served, Inside heap.heapStart.toNat (heap.heapStart.toNat+next.toNat) b
  ascending : Ascending served

section Low
variable (heap : BumpAllocator)
  (hlow : heap.heapStart.toNat+heap.heapSize.toNat ≤ 2^31)
include hlow

/-- In the lower half of the addresses nothing wraps: the block starts at the counter
rounded up, ends inside the heap, and the counter moves to its end. -/
theorem attempt_some (layout : Layout) (current next start : UInt32)
    (hcurrent : current.toNat ≤ heap.heapSize.toNat)
    (h : attempt heap layout current = some (next,start)) :
    start.toNat = roundUp (2^layout.alignLog) (heap.heapStart.toNat+current.toNat) ∧
    heap.heapStart.toNat+next.toNat = start.toNat+layout.size.toNat ∧
    start.toNat+layout.size.toNat ≤ heap.heapStart.toNat+heap.heapSize.toNat := by
  have hfits := layout.fits
  have hpos : 0 < 2^layout.alignLog := Nat.two_pow_pos _
  have hbase : (heap.heapStart+current).toNat = heap.heapStart.toNat+current.toNat := by
    rw [UInt32.toNat_add]
    omega
  have hend : (heap.heapStart+heap.heapSize).toNat =
      heap.heapStart.toNat+heap.heapSize.toNat := by
    rw [UInt32.toNat_add]
    omega
  have hround := alignUp_toNat (heap.heapStart+current) layout.align layout.alignLog
    layout.align_toNat (by omega)
  rw [hbase] at hround
  have hfrom := le_roundUp (2^layout.alignLog) (heap.heapStart.toNat+current.toNat) hpos
  have hupto := roundUp_lt (2^layout.alignLog) (heap.heapStart.toNat+current.toNat) hpos
  rw [attempt] at h
  generalize (heap.heapStart+current+layout.align-1) &&& ~~~(layout.align-1) = rounded at h hround
  have hstop : (rounded+layout.size).toNat = rounded.toNat+layout.size.toNat := by
    rw [UInt32.toNat_add]
    omega
  by_cases hover : rounded+layout.size > heap.heapStart+heap.heapSize
  · rw [if_pos hover] at h
    cases h
  · rw [if_neg hover] at h
    cases h
    have hle : start.toNat+layout.size.toNat ≤ heap.heapStart.toNat+heap.heapSize.toNat := by
      rw [← hstop,← hend]
      exact Nat.le_of_not_lt hover
    have hnext : (start+layout.size-heap.heapStart).toNat =
        start.toNat+layout.size.toNat-heap.heapStart.toNat := by
      rw [UInt32.toNat_sub,hstop]
      omega
    exact ⟨hround,by omega,hle⟩

theorem attempt_keeps (next : UInt32) (served : List Block) (layout : Layout)
    (next' start : UInt32) (hinv : HeapInv heap next served)
    (h : attempt heap layout next = some (next',start)) :
    HeapInv heap next' (served++[(layout,start)]) := by
  have ⟨hstart,hend,hle⟩ := attempt_some heap hlow layout next next' start hinv.next_le h
  have hfrom := le_roundUp (2^layout.alignLog) (heap.heapStart.toNat+next.toNat)
    (Nat.two_pow_pos _)
  have hbehind : ∀ b ∈ served, b.2.toNat+b.1.size.toNat ≤ start.toNat := by
    intro b hb
    have := (hinv.inside b hb).2
    omega
  refine ⟨by omega,?_,?_,Ascending.snoc hinv.ascending _ hbehind⟩
  · intro b hb
    rcases List.mem_append.mp hb with hold | hnew
    · exact hinv.aligned b hold
    · rw [List.mem_singleton.mp hnew,Aligned,layout.align_toNat,hstart]
      exact dvd_roundUp _ _
  · intro b hb
    rcases List.mem_append.mp hb with hold | hnew
    · have hin := hinv.inside b hold
      have hbefore := hbehind b hold
      exact ⟨hin.1,by omega⟩
    · have hlo : heap.heapStart.toNat ≤ start.toNat := by omega
      rw [List.mem_singleton.mp hnew]
      exact ⟨hlo,Nat.le_of_eq hend.symm⟩

theorem allocSound_low : AllocSound heap := by
  intro C _ acts
  have hempty : HeapInv heap 0 [] := by
    refine ⟨Nat.zero_le _,?_,?_,List.Pairwise.nil⟩ <;>
    · intro b hb
      cases hb
  have hinv := serves_keeps (attempt heap) (HeapInv heap)
    (fun next served layout next' start => attempt_keeps heap hlow next served layout next' start)
    0 _ [] _ hempty (run_serves (C := C) (attempt heap) 0 acts)
  rw [List.nil_append] at hinv
  have hsub := List.filter_sublist (l :=
    (run (attempt heap) (start 0 : System C Layout UInt32 UInt32) acts).served)
    (p := fun b : Block => b.2 != 0 && b.1.size != 0)
  refine ⟨fun b hb => hinv.aligned b (hsub.subset hb),fun b hb => ?_,
    List.Pairwise.sublist hsub (Ascending.apart hinv.ascending)⟩
  have ⟨hlo,hhi⟩ := hinv.inside b (hsub.subset hb)
  have hle := hinv.next_le
  exact ⟨hlo,by omega⟩

end Low

def oneByte : Layout := ⟨1,0,by decide⟩

def upToTheEnd (address : UInt32) (h : 2^31 < address.toNat) : Layout :=
  ⟨0-address,0,by
    rw [UInt32.toNat_sub]
    change (2^32-address.toNat+0)%2^32+2^0 ≤ 2^31
    omega⟩

section High
variable (heap : BumpAllocator)
  (hwrap : heap.heapStart.toNat+heap.heapSize.toNat < 2^32)
include hwrap

theorem attempt_unaligned (layout : Layout) (hlog : layout.alignLog = 0) (current : UInt32)
    (hcurrent : current.toNat ≤ heap.heapSize.toNat) : attempt heap layout current =
      if heap.heapStart+current+layout.size > heap.heapStart+heap.heapSize then none
      else some (heap.heapStart+current+layout.size-heap.heapStart,heap.heapStart+current) := by
  have hbase : (heap.heapStart+current).toNat = heap.heapStart.toNat+current.toNat := by
    rw [UInt32.toNat_add]
    omega
  have hone : layout.align.toNat = 2^0 := by rw [layout.align_toNat,hlog]
  have hround : (heap.heapStart+current+layout.align-1) &&& ~~~(layout.align-1) =
      heap.heapStart+current := by
    apply UInt32.toNat_inj.mp
    rw [alignUp_toNat _ layout.align 0 hone (by rw [hbase]; omega)]
    exact roundUp_of_dvd _ (Nat.one_dvd _) (by decide)
  rw [attempt,hround]

theorem reaches (n : ℕ) (hn : n ≤ heap.heapSize.toNat) :
    ∃ served next, Serves (attempt heap) 0 served next ∧ next.toNat = n := by
  induction n with
  | zero => exact ⟨[],0,rfl,rfl⟩
  | succ n ih =>
    obtain ⟨served,current,hserves,hcurrent⟩ := ih (by omega)
    have hunaligned := attempt_unaligned heap hwrap oneByte rfl current (by omega)
    have hstop : (heap.heapStart+current+oneByte.size).toNat = heap.heapStart.toNat+n+1 := by
      rw [UInt32.toNat_add,UInt32.toNat_add,hcurrent]
      change ((heap.heapStart.toNat+n)%2^32+1)%2^32 = heap.heapStart.toNat+n+1
      omega
    have hend : (heap.heapStart+heap.heapSize).toNat =
        heap.heapStart.toNat+heap.heapSize.toNat := by
      rw [UInt32.toNat_add]
      omega
    have hfits : ¬heap.heapStart+current+oneByte.size > heap.heapStart+heap.heapSize := by
      rw [gt_iff_lt,UInt32.lt_iff_toNat_lt,hstop,hend]
      omega
    rw [if_neg hfits] at hunaligned
    refine ⟨_,_,Serves.snoc (attempt heap) hserves _ _ hunaligned,?_⟩
    rw [UInt32.toNat_sub,hstop]
    omega

theorem attempt_past (current : UInt32) (hcurrent : current.toNat ≤ heap.heapSize.toNat)
    (hhigh : 2^31 < (heap.heapStart+current).toNat) : ∃ next,
    attempt heap (upToTheEnd (heap.heapStart+current) hhigh) current =
      some (next,heap.heapStart+current) := by
  have hunaligned := attempt_unaligned heap hwrap (upToTheEnd _ hhigh) rfl current hcurrent
  have hzero : heap.heapStart+current+(upToTheEnd (heap.heapStart+current) hhigh).size = 0 := by
    rw [upToTheEnd,UInt32.add_comm,UInt32.sub_add_cancel]
  have hfits : ¬0 > heap.heapStart+heap.heapSize := by
    rw [gt_iff_lt,UInt32.lt_iff_toNat_lt]
    exact Nat.not_lt_zero _
  rw [hzero,if_neg hfits] at hunaligned
  exact ⟨_,hunaligned⟩

theorem not_allocSound_high (hhigh : 2^31 < heap.heapStart.toNat+heap.heapSize.toNat) :
    ¬AllocSound heap := by
  intro hsound
  have hreach := reaches heap hwrap (2^31+1-heap.heapStart.toNat) (by omega)
  obtain ⟨served,current,hserves,hcurrent⟩ := hreach
  have hbase : (heap.heapStart+current).toNat = heap.heapStart.toNat+current.toNat := by
    rw [UInt32.toNat_add]
    omega
  have hpast : 2^31 < (heap.heapStart+current).toNat := by omega
  obtain ⟨next,hnext⟩ := attempt_past heap hwrap current (by omega) hpast
  obtain ⟨acts,hacts⟩ := exists_run (C := Unit) (attempt heap) () 0 next _
    (Serves.snoc (attempt heap) hserves _ _ hnext)
  have hsize : (upToTheEnd (heap.heapStart+current) hpast).size.toNat =
      2^32-(heap.heapStart+current).toNat := by
    rw [upToTheEnd,UInt32.toNat_sub]
    change (2^32-(heap.heapStart+current).toNat+0)%2^32 = 2^32-(heap.heapStart+current).toNat
    omega
  have hnull : heap.heapStart+current ≠ 0 := by
    intro hzero
    rw [hzero] at hpast
    exact absurd hpast (by decide)
  have hsome : (upToTheEnd (heap.heapStart+current) hpast).size ≠ 0 := by
    intro hzero
    rw [hzero] at hsize
    have hbound := (heap.heapStart+current).toNat_lt
    change 0 = _ at hsize
    omega
  have hreturned : (upToTheEnd (heap.heapStart+current) hpast,heap.heapStart+current) ∈
      returned (run (attempt heap) (start 0 : System Unit Layout UInt32 UInt32) acts).served := by
    rw [hacts,returned,List.mem_filter]
    refine ⟨List.mem_append_right _ (List.mem_singleton_self _),?_⟩
    simp [hnull,hsome]
  have hin := ((hsound Unit acts).inside _ hreturned).2
  change (heap.heapStart+current).toNat+
    (upToTheEnd (heap.heapStart+current) hpast).size.toNat ≤ _ at hin
  rw [hsize] at hin
  omega

end High

/-- Over a heap that does not wrap, the blocks are sound in every interleaving exactly
when the heap ends in the lower half of the address space. -/
theorem allocSound_iff (heap : BumpAllocator)
    (hwrap : heap.heapStart.toNat+heap.heapSize.toNat < 2^32) :
    AllocSound heap ↔ heap.heapStart.toNat+heap.heapSize.toNat ≤ 2^31 := by
  constructor
  · intro hsound
    by_contra hhigh
    exact not_allocSound_high heap hwrap (Nat.lt_of_not_le hhigh) hsound
  · intro hlow
    exact allocSound_low heap hlow

def allocator : BumpAllocator := ⟨0x100000,0x400000⟩

theorem allocSound_allocator : 0x100000+0x400000 < 2^32 ∧ AllocSound allocator :=
  ⟨by decide,(allocSound_iff allocator (by decide)).mpr (by decide)⟩

def highPage : BumpAllocator := ⟨0x90000000,0x1000⟩

theorem highPage_overrun : 0x90000000+0x1000 < 2^32 ∧
    attempt highPage ⟨0x70000000,0,by decide⟩ 0 = some (0x70000000,0x90000000) ∧
    ¬AllocSound highPage :=
  ⟨by decide,rfl,not_allocSound_high highPage (by decide) (by decide)⟩

end Zamak.BiosHeap
