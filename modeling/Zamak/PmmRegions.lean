import Mathlib.Data.List.Sort
import Mathlib.Data.Nat.Bitwise
import Mathlib.Tactic

/-!
# Physical memory regions and their normalization

The firmware hands over a list of regions in any order, with any overlaps.
Addresses and lengths are `u64` values: a region carries the proof that both
of its words fit, ends saturate, and the one sum that can leave the word,
the rounding up of a base, wraps as it does in the release profile.
-/

set_option autoImplicit false

namespace Zamak.PmmRegions

abbrev wordSize : ℕ := 2^64

theorem wordSize_pos : 0 < wordSize := by norm_num

def pageSize : ℕ := 4096

inductive MemoryType where
  | usable
  | reserved
  | acpiReclaimable
  | acpiNvs
  | badMemory
  | bootloaderReclaimable
  | kernelAndModules
  | framebuffer
  deriving DecidableEq, Repr

def MemoryType.priority : MemoryType → ℕ
  | .usable => 0
  | .bootloaderReclaimable => 1
  | .acpiReclaimable => 2
  | .acpiNvs => 3
  | .reserved => 4
  | .framebuffer => 5
  | .kernelAndModules => 6
  | .badMemory => 7

theorem priority_injective : Function.Injective MemoryType.priority := by
  intro s t h
  cases s <;> cases t <;> first | rfl | cases h

structure MemoryRegion where
  base : ℕ
  length : ℕ
  regionType : MemoryType
  base_lt : base < wordSize
  length_lt : length < wordSize
  deriving DecidableEq, Repr

namespace MemoryRegion

def endAddr (r : MemoryRegion) : ℕ := min (r.base+r.length) (wordSize-1)

theorem endAddr_lt (r : MemoryRegion) : r.endAddr < wordSize := by
  unfold endAddr wordSize
  omega

def priority (r : MemoryRegion) : ℕ := r.regionType.priority

def span (lo hi : ℕ) (t : MemoryType) (hl : lo < wordSize) (hh : hi < wordSize) :
    MemoryRegion :=
  ⟨lo,hi-lo,t,hl,by omega⟩

def before (r s : MemoryRegion) : List MemoryRegion :=
  if r.base < s.base then [span r.base s.base r.regionType r.base_lt s.base_lt] else []

def after (r s : MemoryRegion) : List MemoryRegion :=
  if s.endAddr < r.endAddr then
    [span s.endAddr r.endAddr r.regionType s.endAddr_lt r.endAddr_lt]
  else []

def Apart (r s : MemoryRegion) : Prop := r.endAddr ≤ s.base ∨ s.endAddr ≤ r.base

instance (r s : MemoryRegion) : Decidable (Apart r s) :=
  inferInstanceAs (Decidable (_ ∨ _))

def Covers (r : MemoryRegion) (a : ℕ) : Prop := r.base ≤ a ∧ a < r.endAddr

instance (r : MemoryRegion) (a : ℕ) : Decidable (Covers r a) :=
  inferInstanceAs (Decidable (_ ∧ _))

end MemoryRegion

open MemoryRegion

def alignUp (value align : ℕ) : ℕ :=
  ((value+align)%wordSize+wordSize-1)%wordSize &&& (wordSize-align)

def alignDown (value align : ℕ) : ℕ := value &&& (wordSize-align)

theorem alignDown_lt (value align : ℕ) (h : value < wordSize) :
    alignDown value align < wordSize :=
  lt_of_le_of_lt Nat.and_le_left h

theorem alignUp_lt (value align : ℕ) : alignUp value align < wordSize :=
  lt_of_le_of_lt Nat.and_le_left (Nat.mod_lt _ wordSize_pos)

def pageAlign (e : MemoryRegion) : MemoryRegion :=
  if alignDown e.endAddr pageSize ≤ alignUp e.base pageSize then
    ⟨e.base,0,e.regionType,e.base_lt,wordSize_pos⟩
  else
    span (alignUp e.base pageSize) (alignDown e.endAddr pageSize) e.regionType
      (alignUp_lt _ _) (alignDown_lt _ _ e.endAddr_lt)

def insertSorted (regions : List MemoryRegion) (region : MemoryRegion) : List MemoryRegion :=
  regions.insertIdx (regions.findIdx (fun r => region.base < r.base)) region

/-- The scan of `insert_with_overlap`, with the regions already passed kept
in `visited`. A part after `new` starts at `new_end`, so the scan steps over
it at once. The pieces of `new` are collected only on the early return. -/
def insertScan (new : MemoryRegion) : List MemoryRegion → List MemoryRegion → List MemoryRegion
  | visited, [] => insertSorted visited new
  | visited, existing::rest =>
    if Apart new existing then insertScan new (visited++[existing]) rest
    else if existing.priority ≤ new.priority then
      insertScan new (visited++(before existing new++after existing new)) rest
    else
      ((before new existing++after new existing).filter (fun piece => 0 < piece.length)).foldl
        insertSorted (visited++existing::rest)

def insertWithOverlap (regions : List MemoryRegion) (new : MemoryRegion) : List MemoryRegion :=
  insertScan new [] regions

theorem joined_lt (r s : MemoryRegion) : (r.length+s.length)%wordSize < wordSize :=
  Nat.mod_lt _ wordSize_pos

def mergeFrom (r : MemoryRegion) : List MemoryRegion → List MemoryRegion
  | [] => [r]
  | s::rest =>
    if r.regionType = s.regionType ∧ r.endAddr = s.base then
      mergeFrom ⟨r.base,(r.length+s.length)%wordSize,r.regionType,r.base_lt,joined_lt r s⟩ rest
    else r::mergeFrom s rest

def mergeAdjacent : List MemoryRegion → List MemoryRegion
  | [] => []
  | r::rest => mergeFrom r rest

def sortByBase (raw : List MemoryRegion) : List MemoryRegion :=
  raw.insertionSort (fun r s => r.base ≤ s.base)

def alignedEntries (sorted : List MemoryRegion) : List MemoryRegion :=
  (sorted.map pageAlign).filter (fun e => 0 < e.length)

def resolve (entries : List MemoryRegion) : List MemoryRegion :=
  entries.foldl insertWithOverlap []

def normalize (raw : List MemoryRegion) : List MemoryRegion :=
  if raw = [] then [] else mergeAdjacent (resolve (alignedEntries (sortByBase raw)))

end Zamak.PmmRegions
