import Zamak.PmmResolve

/-!
# The normalized memory map

Normalization promises a sorted, disjoint list of whole pages without touching
regions of one type. The early return in overlap resolution breaks the promise
on tangled maps. On untangled ones it holds, and a map that is not untangled
has a beginning, in base order, whose normalization overlaps itself.
-/

set_option autoImplicit false

namespace Zamak.PmmNormalize
open Zamak.PmmRegions Zamak.PmmRegions.MemoryRegion Zamak.PmmCoverage Zamak.PmmTidy
open Zamak.OrderedSpans Zamak.PmmOrder Zamak.PmmResolve

theorem mergeFrom_bases (r : MemoryRegion) (rest : List MemoryRegion) :
    ∀ x ∈ mergeFrom r rest, ∃ y ∈ r::rest, x.base = y.base := by
  induction rest generalizing r with
  | nil =>
    intro x hx
    exact ⟨r,by simp,by rw [List.mem_singleton.mp hx]⟩
  | cons s rest ih =>
    intro x hx
    rw [mergeFrom] at hx
    split_ifs at hx
    · obtain ⟨y,hy,hb⟩ := ih _ x hx
      rcases List.mem_cons.mp hy with rfl | hy
      · exact ⟨r,by simp,hb⟩
      · exact ⟨y,by simp [hy],hb⟩
    · rcases List.mem_cons.mp hx with rfl | hx
      · exact ⟨x,by simp,rfl⟩
      · obtain ⟨y,hy,hb⟩ := ih s x hx
        exact ⟨y,by simp [List.mem_cons.mp hy],hb⟩

theorem mergeFrom_ordered (r : MemoryRegion) (rest : List MemoryRegion) (hr : Tidy r)
    (ht : ∀ s ∈ rest, Tidy s) (ho : InOrder (r::rest)) : InOrder (mergeFrom r rest) := by
  induction rest generalizing r with
  | nil => exact ho
  | cons s rest ih =>
    have hs := ht s (by simp)
    have hrest : ∀ x ∈ rest, Tidy x := fun x hx => ht x (by simp [hx])
    obtain ⟨hrs,ho'⟩ := Ordered.cons_iff.mp ho
    rw [mergeFrom]
    split_ifs with h
    · obtain ⟨hj,hend⟩ := tidy_joined hr hs h.2
      apply ih _ hj hrest
      refine Ordered.cons_iff.mpr ⟨fun x hx => ?_,(Ordered.cons_iff.mp ho').2⟩
      rw [hend]
      exact (Ordered.cons_iff.mp ho').1 x hx
    · refine Ordered.cons_iff.mpr ⟨fun x hx => ?_,ih s hs hrest ho'⟩
      obtain ⟨y,hy,hb⟩ := mergeFrom_bases s rest x hx
      rw [hb]
      exact hrs y hy

def Touch (r s : MemoryRegion) : Prop := r.regionType = s.regionType ∧ r.endAddr = s.base

theorem mergeFrom_head (r : MemoryRegion) (rest : List MemoryRegion) :
    ∃ x tail, mergeFrom r rest = x::tail ∧ x.base = r.base ∧ x.regionType = r.regionType := by
  induction rest generalizing r with
  | nil => exact ⟨r,[],rfl,rfl,rfl⟩
  | cons s rest ih =>
    rw [mergeFrom]
    split_ifs
    · obtain ⟨x,tail,h,hb,ht⟩ := ih (joined r s)
      exact ⟨x,tail,h,hb,ht⟩
    · exact ⟨r,_,rfl,rfl,rfl⟩

theorem mergeFrom_separate (r : MemoryRegion) (rest : List MemoryRegion) :
    (mergeFrom r rest).IsChain (fun r s => ¬Touch r s) := by
  induction rest generalizing r with
  | nil => exact List.IsChain.singleton r
  | cons s rest ih =>
    rw [mergeFrom]
    split_ifs with h
    · exact ih _
    · obtain ⟨x,tail,heq,hb,ht⟩ := mergeFrom_head s rest
      have hs := ih s
      rw [heq] at hs ⊢
      refine List.isChain_cons_cons.mpr ⟨?_,hs⟩
      rintro ⟨h1,h2⟩
      exact h ⟨h1.trans ht,h2.trans hb⟩

theorem count_mergeFrom (r : MemoryRegion) (rest : List MemoryRegion) (hr : Tidy r)
    (ht : ∀ s ∈ rest, Tidy s) (a : ℕ) :
    (mergeFrom r rest).countP (fun r => r.Covers a) =
      (r::rest).countP (fun r => r.Covers a) := by
  induction rest generalizing r with
  | nil => rfl
  | cons s rest ih =>
    have hs := ht s (by simp)
    have hrest : ∀ x ∈ rest, Tidy x := fun x hx => ht x (by simp [hx])
    rw [mergeFrom]
    split_ifs with h
    · have hcov := joined_covers hr hs h.2 a
      rw [← joined, ih _ (tidy_joined hr hs h.2).1 hrest]
      by_cases hc : r.Covers a
      · have hd : ¬s.Covers a := touching_misses h.2 hc
        simp [hcov, hc, hd]
      · by_cases hd : s.Covers a <;> simp [hcov, hc, hd]
    · rw [List.countP_cons, ih s hs hrest]
      exact List.countP_cons.symm

structure WellFormed (l : List MemoryRegion) : Prop where
  sorted : l.Pairwise (fun r s => r.base ≤ s.base)
  disjoint : l.Pairwise (fun r s => ∀ a, ¬(r.Covers a ∧ s.Covers a))
  whole : ∀ r ∈ l, 0 < r.length ∧ pageSize ∣ r.base ∧ pageSize ∣ r.endAddr
  merged : l.IsChain (fun r s => ¬Touch r s)

theorem mergeAdjacent_wellFormed (l : List MemoryRegion) (ht : ∀ r ∈ l, Tidy r)
    (ho : InOrder l) : WellFormed (mergeAdjacent l) := by
  have htidy := tidy_mergeAdjacent l ht
  have hmo : InOrder (mergeAdjacent l) := by
    cases l with
    | nil => exact List.Pairwise.nil
    | cons r l =>
      exact mergeFrom_ordered r l (ht r (by simp)) (fun s hs => ht s (by simp [hs])) ho
  refine ⟨hmo.imp_of_mem ?_,hmo.imp ?_,?_,?_⟩
  · intro r s hr _ h
    exact ((htidy r hr).base_lt_end.le).trans h
  · intro r s h a
    simp only [Covers]
    omega
  · intro r hr
    exact ⟨(htidy r hr).nonempty,(htidy r hr).base_aligned,(htidy r hr).end_aligned⟩
  · cases l with
    | nil => exact List.IsChain.nil
    | cons r l => exact mergeFrom_separate r l

theorem WellFormed.count_le_one {l : List MemoryRegion} (hw : WellFormed l) (a : ℕ) :
    l.countP (fun r => r.Covers a) ≤ 1 :=
  OrderedSpans.count_le_one (hw.disjoint.imp (fun h => by simpa using h a))

theorem overlap_not_wellFormed (l : List MemoryRegion) (ht : ∀ r ∈ l, Tidy r) (a : ℕ)
    (h : 2 ≤ l.countP (fun r => r.Covers a)) : ¬WellFormed (mergeAdjacent l) := by
  intro hw
  have h1 := hw.count_le_one a
  have hc : (mergeAdjacent l).countP (fun r => r.Covers a) = l.countP (fun r => r.Covers a) := by
    cases l with
    | nil => rfl
    | cons r l => exact count_mergeFrom r l (ht r (by simp)) (fun s hs => ht s (by simp [hs])) a
  omega

theorem sortByBase_sorted (raw : List MemoryRegion) :
    (sortByBase raw).Pairwise (fun r s => r.base ≤ s.base) := by
  have : Std.Total (fun r s : MemoryRegion => r.base ≤ s.base) := ⟨fun r s => le_total _ _⟩
  have : IsTrans MemoryRegion (fun r s => r.base ≤ s.base) := ⟨fun _ _ _ => le_trans⟩
  exact List.pairwise_insertionSort _ raw

theorem sortByBase_of_sorted (l : List MemoryRegion)
    (h : l.Pairwise (fun r s => r.base ≤ s.base)) : sortByBase l = l :=
  List.Pairwise.insertionSort_eq h

theorem alignedEntries_sorted (l : List MemoryRegion)
    (hb : ∀ e ∈ l, e.base ≤ wordSize-pageSize) (h : l.Pairwise (fun r s => r.base ≤ s.base)) :
    ((alignedEntries l).map MemoryRegion.base).Pairwise (· ≤ ·) := by
  induction l with
  | nil => exact List.Pairwise.nil
  | cons e l ih =>
    obtain ⟨he,hl⟩ := List.pairwise_cons.mp h
    have ht := ih (fun x hx => hb x (by simp [hx])) hl
    by_cases hlen : 0 < (pageAlign e).length
    · have hcons : alignedEntries (e::l) = pageAlign e::alignedEntries l := by
        simp [alignedEntries, hlen]
      rw [hcons, List.map_cons]
      refine List.pairwise_cons.mpr ⟨?_,ht⟩
      intro y hy
      obtain ⟨x,hx,rfl⟩ := List.mem_map.mp hy
      obtain ⟨hm,hxl⟩ := List.mem_filter.mp hx
      obtain ⟨z,hz,rfl⟩ := List.mem_map.mp hm
      rw [pageAlign_base e hlen, pageAlign_base z (by simpa using hxl),
        alignUp_page _ (hb e (by simp)), alignUp_page _ (hb z (by simp [hz]))]
      have := he z hz
      exact Nat.mul_le_mul_right _ (Nat.div_le_div_right (by omega))
    · have hskip : alignedEntries (e::l) = alignedEntries l := by
        simp [alignedEntries, hlen]
      rw [hskip]
      exact ht

theorem entries_sorted (raw : List MemoryRegion) (hb : ∀ e ∈ raw, e.base ≤ wordSize-pageSize) :
    (0::(alignedEntries (sortByBase raw)).map MemoryRegion.base).Pairwise (· ≤ ·) := by
  refine List.pairwise_cons.mpr ⟨fun _ _ => Nat.zero_le _,?_⟩
  apply alignedEntries_sorted _ _ (sortByBase_sorted raw)
  intro e he
  exact hb e ((sortByBase_perm raw).mem_iff.mp he)

theorem untangled_wellFormed (raw : List MemoryRegion)
    (hb : ∀ e ∈ raw, e.base ≤ wordSize-pageSize)
    (hu : Untangled (alignedEntries (sortByBase raw))) :
    WellFormed (PmmRegions.normalize raw) := by
  have ht := tidy_alignedEntries (sortByBase raw)
  rw [normalize_eq]
  apply mergeAdjacent_wellFormed _ (tidy_resolve _ ht)
  exact staged_run _ (staged_nil 0) ht (entries_sorted raw hb) hu

theorem tangled_beginning (raw : List MemoryRegion)
    (hb : ∀ e ∈ raw, e.base ≤ wordSize-pageSize)
    (hu : ¬Untangled (alignedEntries (sortByBase raw))) :
    ∃ n, ¬WellFormed (PmmRegions.normalize ((sortByBase raw).take n)) := by
  obtain ⟨done,e,later,heq,a,ha⟩ := tangled_run _ (staged_nil 0)
    (tidy_alignedEntries (sortByBase raw)) (entries_sorted raw hb) hu
  rw [List.append_cons] at heq
  obtain ⟨l₁,l₂,hl,h₁,-⟩ := List.filter_eq_append_iff.mp heq
  obtain ⟨s₁,s₂,hs,rfl,-⟩ := List.map_eq_append_iff.mp hl
  refine ⟨s₁.length,?_⟩
  have hsorted := sortByBase_sorted raw
  rw [hs] at hsorted ⊢
  rw [List.take_left, normalize_eq,
    sortByBase_of_sorted s₁ (List.pairwise_append.mp hsorted).1]
  apply overlap_not_wellFormed _ (tidy_resolve _ (tidy_alignedEntries s₁)) a
  change 2 ≤ (resolve ((s₁.map pageAlign).filter _)).countP _
  rw [h₁]
  exact ha

/-- Normalization keeps its promise on every untangled map. On any other map
it has, after some entry in base order, already overlapped itself; a heavier
entry that comes later can only bury the overlap. -/
theorem normalize_wellFormed (raw : List MemoryRegion)
    (hb : ∀ e ∈ raw, e.base ≤ wordSize-pageSize) :
    (Untangled (alignedEntries (sortByBase raw)) → WellFormed (PmmRegions.normalize raw)) ∧
    (¬Untangled (alignedEntries (sortByBase raw)) →
      ∃ n, ¬WellFormed (PmmRegions.normalize ((sortByBase raw).take n))) :=
  ⟨untangled_wellFormed raw hb,tangled_beginning raw hb⟩

def holedMap : List MemoryRegion :=
  [⟨0x5000,0x3000,.reserved,by norm_num,by norm_num⟩,
    ⟨0,0x10000,.usable,wordSize_pos,by norm_num⟩]

theorem normalize_wellFormed_holed : WellFormed (PmmRegions.normalize holedMap) :=
  (normalize_wellFormed holedMap (by decide)).1 (by decide)

/-- Three overlapping entries: the ACPI range starts with the reserved one,
which outweighs it, and runs on over usable memory. -/
def tangledMap : List MemoryRegion :=
  [⟨0,0x10000,.usable,wordSize_pos,by norm_num⟩,
    ⟨0x2000,0x2000,.reserved,by norm_num,by norm_num⟩,
    ⟨0x2000,0xe000,.acpiNvs,by norm_num,by norm_num⟩]

theorem normalize_tangled_overlaps :
    (∀ e ∈ tangledMap, e.base ≤ wordSize-pageSize) ∧
      ¬WellFormed (PmmRegions.normalize tangledMap) := by
  refine ⟨by decide,fun hw => ?_⟩
  have h1 := hw.count_le_one 0x4000
  have h2 : (PmmRegions.normalize tangledMap).countP (fun r => r.Covers 0x4000) = 2 := by decide
  omega

end Zamak.PmmNormalize
