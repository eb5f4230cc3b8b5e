import Zamak.PmmRuns

/-!
# When the page allocator gives up

A search that finds nothing has looked at every usable region below the
watermark, and the watermark is the base of the last block handed out. So an
allocation fails exactly when no usable region holds a block that ends below
that base. Memory above it is out of reach for good, however much of it is
free.
-/

set_option autoImplicit false

namespace Zamak.PmmComplete
open Zamak.PmmRegions Zamak.PmmRegions.MemoryRegion Zamak.PmmCoverage Zamak.PmmTidy
open Zamak.PmmAllocator Zamak.PmmRuns

def handedOut (pmm : Pmm) : List ℕ → List ℕ
  | [] => []
  | count::counts =>
    (allocatePages pmm count).1.toList++handedOut (allocatePages pmm count).2 counts

def Holds (r : MemoryRegion) (b count : ℕ) : Prop :=
  pageSize ∣ b ∧ r.base ≤ b ∧ b+count*pageSize ≤ r.endAddr

theorem candidate_none {allocTop count : ℕ} {region : MemoryRegion}
    (hu : region.regionType = .usable)
    (h : candidate allocTop (count*pageSize) region = none) {b : ℕ}
    (hb : Holds region b count) : allocTop < b+count*pageSize := by
  obtain ⟨⟨k,hk⟩,hlo,hhi⟩ := hb
  by_contra hle
  have hw := region.endAddr_lt
  have hlt : min region.endAddr allocTop-count*pageSize < wordSize := by omega
  -- the block lies below the unrounded start, so it lies below the rounded one too
  have hge : b ≤ alignDown (min region.endAddr allocTop-count*pageSize) pageSize := by
    rw [alignDown_page _ hlt, hk, mul_comm]
    refine Nat.mul_le_mul_right _ ((Nat.le_div_iff_mul_le (by norm_num [pageSize])).mpr ?_)
    rw [mul_comm, ← hk]
    omega
  unfold candidate at h
  simp only [hu, ne_eq, not_true_eq_false, if_false] at h
  split_ifs at h with h1 h2
  · omega
  · omega

theorem search_none_iff (allocTop size i : ℕ) (regions : List MemoryRegion) :
    search allocTop size i none regions = none ↔
      ∀ r ∈ regions, candidate allocTop size r = none := by
  have hkeep : ∀ (rest : List MemoryRegion) (i : ℕ) (p : ℕ × ℕ),
      search allocTop size i (some p) rest ≠ none := by
    intro rest
    induction rest with
    | nil => simp [search]
    | cons r rest ih =>
      intro i p
      rw [search]
      cases candidate allocTop size r with
      | none => exact ih _ _
      | some b =>
        simp only [better]
        split_ifs <;> exact ih _ _
  induction regions generalizing i with
  | nil => simp [search]
  | cons r rest ih =>
    rw [search]
    cases hc : candidate allocTop size r with
    | none => simpa [hc] using ih (i+1)
    | some b => simpa [hc, better] using hkeep rest (i+1) (b,i)

theorem allocate_none_candidates (pmm : Pmm) (count : ℕ) (hn : 0 < count)
    (hs : count*pageSize < wordSize) :
    (allocatePages pmm count).1 = none ↔
      ∀ r ∈ pmm.regions, candidate pmm.allocTop (count*pageSize) r = none := by
  have hpos : 0 < count*pageSize := Nat.mul_pos hn (by norm_num [pageSize])
  rw [← search_none_iff _ _ 0]
  unfold allocatePages
  simp only [if_neg (not_le.mpr hs), if_neg hpos.ne']
  cases hf : search pmm.allocTop (count*pageSize) 0 none pmm.regions with
  | none => simp
  | some p =>
    rcases search_some hf with hb | ⟨k,region,hj,hr,-⟩
    · simp at hb
    · rw [zero_add] at hj
      simp [hj, hr]

theorem allocate_none_watermark (pmm : Pmm) (count : ℕ) (hn : 0 < count) :
    (allocatePages pmm count).1 = none ↔
      ∀ r ∈ pmm.regions, r.regionType = .usable → ∀ b, Holds r b count →
        pmm.allocTop < b+count*pageSize := by
  by_cases hs : count*pageSize < wordSize
  · rw [allocate_none_candidates pmm count hn hs]
    constructor
    · intro h r hr hu b hb
      exact candidate_none hu (h r hr) hb
    · intro h r hr
      cases hc : candidate pmm.allocTop (count*pageSize) r with
      | none => rfl
      | some b =>
        obtain ⟨hu,hd,hlo,hhi,htop⟩ := candidate_some hc
        have := h r hr hu b ⟨hd,hlo,hhi⟩
        omega
  · constructor
    · intro _ r _ _ b hb
      have := hb.2.2
      have := r.endAddr_lt
      omega
    · intro _
      unfold allocatePages
      simp only [if_pos (not_lt.mp hs)]

theorem run_allocTop (pmm : Pmm) (counts : List ℕ) :
    (run pmm (counts.map Call.allocatePages)).allocTop =
      (handedOut pmm counts).getLast?.getD pmm.allocTop := by
  induction counts generalizing pmm with
  | nil => rfl
  | cons count counts ih =>
    change (run (allocatePages pmm count).2 (counts.map Call.allocatePages)).allocTop = _
    rw [ih, handedOut]
    cases h : (allocatePages pmm count).1 with
    | none => simp [allocate_none h]
    | some a =>
      rw [allocate_allocTop h]
      cases hl : handedOut (allocatePages pmm count).2 counts with
      | nil => simp
      | cons b l => simp [List.getLast?_cons]

theorem run_unserved (pmm : Pmm) (counts : List ℕ) (h : handedOut pmm counts = []) :
    run pmm (counts.map Call.allocatePages) = pmm := by
  induction counts generalizing pmm with
  | nil => rfl
  | cons count counts ih =>
    rw [handedOut, List.append_eq_nil_iff, Option.toList_eq_nil_iff] at h
    have hsame := allocate_none h.1
    change run (allocatePages pmm count).2 (counts.map Call.allocatePages) = pmm
    rw [hsame] at h ⊢
    exact ih pmm h.2

theorem new_allocTop (raw : List MemoryRegion) (r : MemoryRegion) (hr : r ∈ (Pmm.new raw).regions)
    (hu : r.regionType = .usable) : r.endAddr ≤ (Pmm.new raw).allocTop := by
  have hm : r.endAddr ∈ (((Pmm.new raw).regions.filter
      (fun r => r.regionType = .usable)).map endAddr) := by
    refine List.mem_map.mpr ⟨r,List.mem_filter.mpr ⟨hr,?_⟩,rfl⟩
    simpa using hu
  cases hx : ((((Pmm.new raw).regions.filter
      (fun r => r.regionType = .usable)).map endAddr).max?) with
  | none =>
    rw [List.max?_eq_none_iff.mp hx] at hm
    simp at hm
  | some top =>
    have heq : (Pmm.new raw).allocTop = top := by
      change (Option.getD _ _) = top
      exact congrArg (fun o => Option.getD o 0) hx
    rw [heq]
    exact (List.max?_eq_some_iff.mp hx).2 _ hm

/-- After any run of allocations, a further one fails exactly when no usable
region of the current list holds so many whole pages ending at or below the
last block handed out; before the first block there is no such limit. -/
theorem allocate_fails_iff (raw : List MemoryRegion) (counts : List ℕ) (count : ℕ)
    (hn : 0 < count) :
    (allocatePages (run (Pmm.new raw) (counts.map Call.allocatePages)) count).1 = none ↔
      ∀ r ∈ (run (Pmm.new raw) (counts.map Call.allocatePages)).regions,
        r.regionType = .usable → ∀ b, Holds r b count →
          ∃ last ∈ (handedOut (Pmm.new raw) counts).getLast?, last < b+count*pageSize := by
  rw [allocate_none_watermark _ _ hn, run_allocTop]
  cases hl : (handedOut (Pmm.new raw) counts).getLast? with
  | some last => simp
  | none =>
    rw [run_unserved _ _ (List.getLast?_eq_none_iff.mp hl)]
    simp only [Option.getD_none, Option.mem_def, reduceCtorEq, false_and, exists_false]
    constructor
    · intro h r hr hu b hb
      have := h r hr hu b hb
      have := new_allocTop raw r hr hu
      have := hb.2.2
      omega
    · intro h r hr hu b hb
      exact (h r hr hu b hb).elim

def gapMap : List MemoryRegion :=
  [⟨0,0x4000,.usable,wordSize_pos,by norm_num⟩,⟨0x8000,0x1000,.usable,by norm_num,by norm_num⟩]

theorem allocate_fails_iff_gap :
    (allocatePages (run (Pmm.new gapMap) ([2].map Call.allocatePages)) 3).1 = none := by
  refine (allocate_fails_iff gapMap [2] 3 (by decide)).mpr ?_
  have hl : (handedOut (Pmm.new gapMap) [2]).getLast? = some 0x2000 := by decide
  intro r _ _ b _
  have hlt : 0x2000 < b+3*pageSize := by
    unfold pageSize
    omega
  exact ⟨0x2000,Option.mem_def.mpr hl,hlt⟩

/-- The page above the larger region is still usable when the lower pages
are used up, and is not handed out. -/
theorem gap_page_lost :
    0 < 1 ∧
    (allocatePages (run (Pmm.new gapMap) ([2,1,1].map Call.allocatePages)) 1).1 = none ∧
    ∃ r ∈ (run (Pmm.new gapMap) ([2,1,1].map Call.allocatePages)).regions,
      r.regionType = .usable ∧ ∃ b, Holds r b 1 := by
  refine ⟨by decide,by decide,⟨0x8000,0x1000,.usable,by norm_num,by norm_num⟩,by decide,rfl,
    0x8000,?_,?_,?_⟩
  · norm_num [pageSize]
  · exact le_refl _
  · norm_num [pageSize, endAddr, wordSize]

end Zamak.PmmComplete
