import Zamak.PmmAllocator

/-!
# Runs of the page allocator

Over any interleaving of allocations and repaints the watermark only falls,
so every block lies below all earlier ones. When no range is repainted, usable
regions only shrink, and what a block may contain is settled by the normalized
map: with the map untangled and no reserved byte left on a usable page, no
block meets a range the firmware keeps.
-/

set_option autoImplicit false

namespace Zamak.PmmRuns
open Zamak.PmmRegions Zamak.PmmRegions.MemoryRegion Zamak.PmmCoverage Zamak.PmmTidy
open Zamak.HeaviestCover Zamak.PmmOrder Zamak.PmmNormalize Zamak.PmmAllocator

def Block (base count x : ℕ) : Prop := base ≤ x ∧ x < base+count*pageSize

theorem allocate_block {pmm : Pmm} {count a : ℕ} (h : (allocatePages pmm count).1 = some a) :
    pageSize ∣ a ∧ a+count*pageSize ≤ pmm.allocTop ∧
      ∃ r ∈ pmm.regions, r.regionType = .usable ∧ r.base ≤ a ∧ a+count*pageSize ≤ r.endAddr := by
  obtain ⟨i,region,hr,-,-,hc,-⟩ := allocate_some h
  obtain ⟨hu,hd,hb,he,ht⟩ := candidate_some hc
  exact ⟨hd,ht,region,List.mem_of_getElem? hr,hu,hb,he⟩

theorem allocate_allocTop {pmm : Pmm} {count a : ℕ} (h : (allocatePages pmm count).1 = some a) :
    (allocatePages pmm count).2.allocTop = a := by
  obtain ⟨i,region,-,-,-,-,heq⟩ := allocate_some h
  rw [heq]

theorem step_allocTop_le (pmm : Pmm) (call : Call) : (step pmm call).allocTop ≤ pmm.allocTop := by
  cases call with
  | markRegion mark => exact le_refl _
  | allocatePages count =>
    change (allocatePages pmm count).2.allocTop ≤ _
    cases h : (allocatePages pmm count).1 with
    | none => rw [allocate_none h]
    | some a =>
      rw [allocate_allocTop h]
      have := (allocate_block h).2.1
      omega

theorem run_allocTop_le (calls : List Call) (pmm : Pmm) :
    (run pmm calls).allocTop ≤ pmm.allocTop := by
  induction calls generalizing pmm with
  | nil => exact le_refl _
  | cons call calls ih => exact (ih (step pmm call)).trans (step_allocTop_le pmm call)

theorem run_append (pmm : Pmm) (calls rest : List Call) :
    run pmm (calls++rest) = run (run pmm calls) rest := by
  simp [run, List.foldl_append]

/-- Every block of every interleaving is page-aligned, lies in one region
that was usable just before the call, and shares no byte with an earlier
block, whatever was repainted in between. -/
theorem allocations_sound (raw : List MemoryRegion) (calls : List Call) (count a : ℕ)
    (h : (allocatePages (run (Pmm.new raw) calls) count).1 = some a) :
    pageSize ∣ a ∧
    (∃ r ∈ (run (Pmm.new raw) calls).regions,
      r.regionType = .usable ∧ ∀ x, Block a count x → r.Covers x) ∧
    ∀ earlier n later b, calls = earlier++Call.allocatePages n::later →
      (allocatePages (run (Pmm.new raw) earlier) n).1 = some b →
      ∀ x, ¬(Block a count x ∧ Block b n x) := by
  obtain ⟨hd,ht,r,hr,hu,hb,he⟩ := allocate_block h
  refine ⟨hd,⟨r,hr,hu,fun x hx => ⟨hb.trans hx.1,lt_of_lt_of_le hx.2 he⟩⟩,?_⟩
  intro earlier n later b heq hn x
  have hw : (run (Pmm.new raw) calls).allocTop ≤ b := by
    rw [heq, run_append]
    have hl := run_allocTop_le later (step (run (Pmm.new raw) earlier) (.allocatePages n))
    rwa [show (step (run (Pmm.new raw) earlier) (.allocatePages n)).allocTop = b from
      allocate_allocTop hn] at hl
  simp only [Block]
  omega

theorem allocations_sound_remarked :
    pageSize ∣ 0x3000 ∧ ∀ x, ¬(Block 0x3000 2 x ∧ Block 0x5000 3 x) := by
  have h := allocations_sound [⟨0,0x8000,.usable,by norm_num,by norm_num⟩]
    [.allocatePages 3,.markRegion ⟨0,0x8000,.usable,by norm_num,by norm_num⟩] 2 0x3000 (by decide)
  exact ⟨h.1,h.2.2 [] 3 _ 0x5000 rfl (by decide)⟩

/-- Every usable region lies in a usable region of the original map. -/
def Within (original regions : List MemoryRegion) : Prop :=
  ∀ r ∈ regions, r.regionType = .usable →
    ∃ s ∈ original, s.regionType = .usable ∧ s.base ≤ r.base ∧ r.endAddr ≤ s.endAddr

theorem literal_endAddr (base length : ℕ) (t : MemoryType) (h : base+length < wordSize) :
    (literal base length t).base = base ∧ (literal base length t).endAddr = base+length := by
  have hb : base%wordSize = base := Nat.mod_eq_of_lt (by omega)
  have hl : length%wordSize = length := Nat.mod_eq_of_lt (by omega)
  refine ⟨hb,?_⟩
  simp only [endAddr, literal, hb, hl]
  omega

theorem splitRegion_within {region x : MemoryRegion} {a size : ℕ} (hb : region.base ≤ a)
    (he : a+size ≤ region.endAddr) (hx : x ∈ splitRegion region a size)
    (hu : x.regionType = .usable) : region.base ≤ x.base ∧ x.endAddr ≤ region.endAddr := by
  have hw := region.endAddr_lt
  have hend : (a+size)%wordSize = a+size := Nat.mod_eq_of_lt (by omega)
  simp only [splitRegion, hend, List.mem_append, List.mem_singleton] at hx
  rcases hx with (hx | rfl) | hx
  · split_ifs at hx with hlt
    · obtain rfl := List.mem_singleton.mp hx
      have := literal_endAddr region.base (a-region.base) .usable (by omega)
      omega
    · simp at hx
  · simp [literal] at hu
  · split_ifs at hx with hlt
    · obtain rfl := List.mem_singleton.mp hx
      have := literal_endAddr (a+size) (region.endAddr-(a+size)) .usable (by omega)
      omega
    · simp at hx

theorem allocate_within {original : List MemoryRegion} {pmm : Pmm} (count : ℕ)
    (h : Within original pmm.regions) : Within original (allocatePages pmm count).2.regions := by
  cases hr : (allocatePages pmm count).1 with
  | none => rwa [allocate_none hr]
  | some a =>
    obtain ⟨i,region,hget,-,-,hc,heq⟩ := allocate_some hr
    obtain ⟨hu,-,hb,he,-⟩ := candidate_some hc
    rw [heq]
    intro x hx hxu
    simp only [List.mem_append] at hx
    rcases hx with (hx | hx) | hx
    · exact h x (List.mem_of_mem_take hx) hxu
    · obtain ⟨s,hs,hsu,h1,h2⟩ := h region (List.mem_of_getElem? hget) hu
      have := splitRegion_within hb he hx hxu
      exact ⟨s,hs,hsu,by omega,by omega⟩
    · exact h x (List.mem_of_mem_drop hx) hxu

theorem run_within {original : List MemoryRegion} (counts : List ℕ) (pmm : Pmm)
    (h : Within original pmm.regions) :
    Within original (run pmm (counts.map Call.allocatePages)).regions := by
  induction counts generalizing pmm with
  | nil => exact h
  | cons count counts ih => exact ih _ (allocate_within count h)

/-- Bytes of a kept entry that shrinking leaves on a usable page are covered
by some other kept entry. -/
def KeptPages (raw : List MemoryRegion) : Prop :=
  ∀ e ∈ raw, e.regionType ≠ .usable → ∀ a, e.Covers a →
    (∃ u ∈ raw, u.regionType = .usable ∧ ShrunkCovers u a) →
    ∃ k ∈ raw, k.regionType ≠ .usable ∧ ShrunkCovers k a

theorem priority_eq_zero {r : MemoryRegion} : r.priority = 0 ↔ r.regionType = .usable := by
  constructor
  · exact fun h => priority_injective h
  · intro h
    simp [MemoryRegion.priority, h, MemoryType.priority]

/-- On an untangled map, an address of a usable region is covered by shrunk
usable entries only. -/
theorem usable_pointwise (raw : List MemoryRegion) (hb : ∀ e ∈ raw, e.base ≤ wordSize-pageSize)
    (hu : Untangled (alignedEntries (sortByBase raw))) {r : MemoryRegion}
    (hr : r ∈ PmmRegions.normalize raw) (ht : r.regionType = .usable) {a : ℕ}
    (hc : r.Covers a) :
    (∃ u ∈ raw, u.regionType = .usable ∧ ShrunkCovers u a) ∧
      ∀ e ∈ raw, ShrunkCovers e a → e.regionType = .usable := by
  have hone := (untangled_wellFormed raw hb hu).count_le_one a
  have honly : ∀ s ∈ PmmRegions.normalize raw, s.Covers a → s = r := by
    obtain ⟨l,m,heq⟩ := List.append_of_mem hr
    rw [heq] at hone ⊢
    rw [List.countP_append, List.countP_cons_of_pos (by simpa using hc)] at hone
    intro s hs hsc
    have hl : l.countP (fun r => r.Covers a) = 0 := by omega
    have hm : m.countP (fun r => r.Covers a) = 0 := by omega
    rcases List.mem_append.mp hs with hs | hs
    · exact absurd hsc (by simpa using List.countP_eq_zero.mp hl s hs)
    · rcases List.mem_cons.mp hs with rfl | hs
      · rfl
      · exact absurd hsc (by simpa using List.countP_eq_zero.mp hm s hs)
  have hle : peak (PmmRegions.normalize raw) a ≤ (0:ℕ) := by
    apply heaviest_le
    intro s hs hsc
    rw [honly s hs hsc, priority_eq_zero.mpr ht]
  rw [peak_normalize raw hb a] at hle
  have hall : ∀ e ∈ raw, ShrunkCovers e a → e.regionType = .usable := by
    intro e he hec
    have := (le_heaviest MemoryRegion.priority (fun e => ShrunkCovers e a) he hec).trans hle
    exact priority_eq_zero.mp (Nat.le_zero.mp (by exact_mod_cast this))
  obtain ⟨u,hum,huc⟩ := ((normalize_pointwise raw hb a).1).mp ⟨r,hr,hc⟩
  exact ⟨⟨u,hum,hall u hum huc,huc⟩,hall⟩

/-- On an untangled map whose kept bytes are on kept pages, no run of
allocations ever hands out a byte of an entry that is not usable. -/
theorem allocations_avoid_kept (raw : List MemoryRegion)
    (hb : ∀ e ∈ raw, e.base ≤ wordSize-pageSize)
    (hu : Untangled (alignedEntries (sortByBase raw))) (hk : KeptPages raw)
    (counts : List ℕ) (count a : ℕ)
    (h : (allocatePages (run (Pmm.new raw) (counts.map Call.allocatePages)) count).1 = some a)
    (x : ℕ) (hx : Block a count x) (e : MemoryRegion) (he : e ∈ raw)
    (ht : e.regionType ≠ .usable) : ¬e.Covers x := by
  intro hc
  obtain ⟨-,-,r,hr,hru,hrb,hre⟩ := allocate_block h
  have hstart : Within (PmmRegions.normalize raw) (Pmm.new raw).regions :=
    fun s hs hsu => ⟨s,hs,hsu,le_refl _,le_refl _⟩
  obtain ⟨s,hs,hsu,hsb,hse⟩ := run_within counts _ hstart r hr hru
  have hsc : s.Covers x := by
    simp only [Covers, Block] at *
    omega
  obtain ⟨hsome,hall⟩ := usable_pointwise raw hb hu hs hsu hsc
  obtain ⟨k,hkm,hkt,hkc⟩ := hk e he ht x hc hsome
  exact hkt (hall k hkm hkc)

theorem keptPages_aligned (raw : List MemoryRegion)
    (h : ∀ e ∈ raw, pageSize ∣ e.base ∧ pageSize ∣ e.endAddr) : KeptPages raw := by
  intro e he hne a hc _
  obtain ⟨⟨b,hb⟩,⟨t,ht⟩⟩ := h e he
  refine ⟨e,he,hne,?_⟩
  simp only [Covers, ShrunkCovers, hb, ht, pageSize] at *
  omega

theorem allocations_avoid_kept_holed :
    ¬(⟨0x5000,0x3000,.reserved,by decide,by decide⟩ : MemoryRegion).Covers 0x4fff :=
  allocations_avoid_kept holedMap (by decide) (by decide) (keptPages_aligned holedMap (by decide))
    [8] 1 0x4000 (by decide) 0x4fff ⟨by decide,by decide⟩ _ (by simp [holedMap]) (by decide)

/-- The remainder of the ACPI range lies over usable memory, and the first
page the allocator hands out belongs to both. -/
theorem tangled_allocation_kept :
    (∀ e ∈ tangledMap, e.base ≤ wordSize-pageSize) ∧
    (allocatePages (run (Pmm.new tangledMap) []) 1).1 = some 0xf000 ∧ Block 0xf000 1 0xf000 ∧
    ∃ e ∈ tangledMap, e.regionType ≠ .usable ∧ e.Covers 0xf000 := by
  refine ⟨by decide,by decide,by simp [Block, pageSize],
    ⟨0x2000,0xe000,.acpiNvs,by norm_num,by norm_num⟩,by simp [tangledMap],by decide,by decide⟩

end Zamak.PmmRuns
