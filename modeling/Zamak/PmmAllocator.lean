import Zamak.PmmNormalize

/-!
# The top-down page allocator

The allocator scans the usable regions for the highest block that ends below
a watermark, splits the region it came from and lowers the watermark to the
block. Callers may also repaint any range with any type. The watermark is never
raised, which is what keeps blocks apart even when a caller repaints an earlier
block as usable again.
-/

set_option autoImplicit false

namespace Zamak.PmmAllocator
open Zamak.PmmRegions Zamak.PmmRegions.MemoryRegion Zamak.PmmCoverage Zamak.PmmTidy

structure Pmm where
  regions : List MemoryRegion
  allocTop : ℕ

def Pmm.new (raw : List MemoryRegion) : Pmm :=
  let regions := PmmRegions.normalize raw
  ⟨regions,(((regions.filter (fun r => r.regionType = .usable)).map endAddr).max?).getD 0⟩

/-- A region literal whose fields are `u64` results. -/
def literal (base length : ℕ) (t : MemoryType) : MemoryRegion :=
  ⟨base%wordSize,length%wordSize,t,Nat.mod_lt _ (by norm_num),Nat.mod_lt _ (by norm_num)⟩

/-- One iteration of the search: the block this region offers, if any. -/
def candidate (allocTop size : ℕ) (region : MemoryRegion) : Option ℕ :=
  if region.regionType ≠ .usable then none
  else
    let regionEnd := min region.endAddr allocTop
    if regionEnd < size ∨ regionEnd-size < region.base then none
    else
      let allocBase := alignDown (regionEnd-size) pageSize
      if allocBase < region.base then none else some allocBase

def better : Option (ℕ × ℕ) → ℕ → ℕ → Option (ℕ × ℕ)
  | some (prevBase,j), allocBase, i =>
    if allocBase ≤ prevBase then some (prevBase,j) else some (allocBase,i)
  | none, allocBase, i => some (allocBase,i)

def search (allocTop size : ℕ) : ℕ → Option (ℕ × ℕ) → List MemoryRegion → Option (ℕ × ℕ)
  | _, best, [] => best
  | i, best, region::rest =>
    match candidate allocTop size region with
    | none => search allocTop size (i+1) best rest
    | some allocBase => search allocTop size (i+1) (better best allocBase i) rest

def splitRegion (region : MemoryRegion) (allocBase size : ℕ) : List MemoryRegion :=
  let allocEnd := (allocBase+size)%wordSize
  (if region.base < allocBase then
    [literal region.base (allocBase-region.base) .usable] else []) ++
  [literal allocBase size .bootloaderReclaimable] ++
  (if allocEnd < region.endAddr then
    [literal allocEnd (region.endAddr-allocEnd) .usable] else [])

def allocatePages (pmm : Pmm) (count : ℕ) : Option ℕ × Pmm :=
  let size := count*pageSize
  if wordSize ≤ size then (none,pmm)
  else if size = 0 then (none,pmm)
  else match search pmm.allocTop size 0 none pmm.regions with
    | none => (none,pmm)
    | some (allocBase,i) =>
      -- the index comes from the scan, so the region is there
      match pmm.regions[i]? with
      | none => (none,pmm)
      | some region =>
        (some allocBase,
          ⟨pmm.regions.take i++splitRegion region allocBase size++pmm.regions.drop (i+1),
            allocBase⟩)

/-- One region of `mark_region`; the marked base, length and type are the
fields of `mark`. -/
def markOne (mark region : MemoryRegion) : List MemoryRegion :=
  if mark.endAddr ≤ region.base ∨ region.endAddr ≤ mark.base then [region]
  else
    before region mark ++
    [literal (max mark.base region.base)
      (min mark.endAddr region.endAddr-max mark.base region.base) mark.regionType] ++
    after region mark

def markRegion (pmm : Pmm) (mark : MemoryRegion) : Pmm :=
  { pmm with regions := pmm.regions.flatMap (markOne mark) }

inductive Call where
  | allocatePages (count : ℕ)
  | markRegion (mark : MemoryRegion)

def step (pmm : Pmm) : Call → Pmm
  | .allocatePages count => (allocatePages pmm count).2
  | .markRegion mark => markRegion pmm mark

def run (pmm : Pmm) (calls : List Call) : Pmm := calls.foldl step pmm

theorem candidate_some {allocTop size b : ℕ} {region : MemoryRegion}
    (h : candidate allocTop size region = some b) :
    region.regionType = .usable ∧ pageSize ∣ b ∧ region.base ≤ b ∧
      b+size ≤ region.endAddr ∧ b+size ≤ allocTop := by
  unfold candidate at h
  by_cases hu : region.regionType = .usable
  · simp only [hu, ne_eq, not_true_eq_false, if_false] at h
    split_ifs at h with h1 h2
    obtain rfl := Option.some.inj h
    have hw := region.endAddr_lt
    have hlt : min region.endAddr allocTop-size < wordSize := by omega
    have hdvd := alignDown_dvd _ hlt
    have hle : alignDown (min region.endAddr allocTop-size) pageSize ≤
        min region.endAddr allocTop-size := Nat.and_le_left
    exact ⟨hu,hdvd,by omega,by omega,by omega⟩
  · simp [hu] at h

theorem better_some {best : Option (ℕ × ℕ)} {allocBase i b j : ℕ}
    (h : better best allocBase i = some (b,j)) : best = some (b,j) ∨ (b = allocBase ∧ j = i) := by
  cases best with
  | none =>
    simp only [better, Option.some.injEq, Prod.mk.injEq] at h
    exact Or.inr ⟨h.1.symm,h.2.symm⟩
  | some p =>
    simp only [better] at h
    split_ifs at h
    · exact Or.inl h
    · simp only [Option.some.injEq, Prod.mk.injEq] at h
      exact Or.inr ⟨h.1.symm,h.2.symm⟩

theorem search_some {allocTop size i b j : ℕ} {best : Option (ℕ × ℕ)}
    {regions : List MemoryRegion} (h : search allocTop size i best regions = some (b,j)) :
    best = some (b,j) ∨
      ∃ k region, j = i+k ∧ regions[k]? = some region ∧
        candidate allocTop size region = some b := by
  induction regions generalizing i best with
  | nil => exact Or.inl h
  | cons region rest ih =>
    rw [search] at h
    have hlift : (∃ k r, j = i+1+k ∧ rest[k]? = some r ∧ candidate allocTop size r = some b) →
        ∃ k r, j = i+k ∧ (region::rest)[k]? = some r ∧ candidate allocTop size r = some b := by
      rintro ⟨k,r,hj,hr,hc⟩
      exact ⟨k+1,r,by omega,by simpa using hr,hc⟩
    cases hc : candidate allocTop size region with
    | none =>
      rw [hc] at h
      exact (ih h).imp id hlift
    | some allocBase =>
      rw [hc] at h
      rcases ih h with hb | hk
      · rcases better_some hb with hb | ⟨rfl,rfl⟩
        · exact Or.inl hb
        · exact Or.inr ⟨0,region,by simp,by simp,hc⟩
      · exact Or.inr (hlift hk)

theorem allocate_some {pmm : Pmm} {count a : ℕ} (h : (allocatePages pmm count).1 = some a) :
    ∃ i region, pmm.regions[i]? = some region ∧ 0 < count*pageSize ∧
      count*pageSize < wordSize ∧
      candidate pmm.allocTop (count*pageSize) region = some a ∧
      (allocatePages pmm count).2 =
        ⟨pmm.regions.take i++splitRegion region a (count*pageSize)++pmm.regions.drop (i+1),a⟩ := by
  unfold allocatePages at *
  simp only at *
  split_ifs at h ⊢ with h1 h2
  cases hs : search pmm.allocTop (count*pageSize) 0 none pmm.regions with
  | none => simp [hs] at h
  | some p =>
    obtain ⟨b,i⟩ := p
    rcases search_some hs with hb | ⟨k,region,rfl,hr,hc⟩
    · simp at hb
    · have hr' : pmm.regions[0+k]? = some region := by simpa using hr
      simp only [hs, hr', Option.some.injEq] at h ⊢
      subst h
      exact ⟨0+k,region,hr',by omega,by omega,hc,rfl⟩

theorem allocate_none {pmm : Pmm} {count : ℕ} (h : (allocatePages pmm count).1 = none) :
    (allocatePages pmm count).2 = pmm := by
  unfold allocatePages at *
  simp only at *
  split_ifs at h ⊢
  · rfl
  · rfl
  · cases hs : search pmm.allocTop (count*pageSize) 0 none pmm.regions with
    | none => rfl
    | some p =>
      cases hr : pmm.regions[p.2]? with
      | none => simp [hr]
      | some region => simp [hs, hr] at h

end Zamak.PmmAllocator
