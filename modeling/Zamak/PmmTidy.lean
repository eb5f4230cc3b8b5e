import Zamak.PmmCoverage

/-!
# Whole pages through normalization

The alignment pass leaves whole, non-empty pages whose ends do not saturate.
Insertion and merging keep that form. With it the merge pass joins exactly the
addresses of the two regions it joins, and normalization as a whole can be
read off the raw entries one address at a time.
-/

set_option autoImplicit false

namespace Zamak.PmmTidy
open Zamak.PmmRegions Zamak.PmmRegions.MemoryRegion Zamak.HeaviestCover Zamak.PmmCoverage

/-- A region as the alignment pass leaves it: whole pages, at least one of
them, and an end that did not saturate. -/
structure Tidy (r : MemoryRegion) : Prop where
  nonempty : 0 < r.length
  fits : r.base+r.length < wordSize
  base_aligned : pageSize ∣ r.base
  length_aligned : pageSize ∣ r.length

theorem Tidy.endAddr_eq {r : MemoryRegion} (h : Tidy r) : r.endAddr = r.base+r.length := by
  have := h.fits
  unfold endAddr
  omega

theorem Tidy.end_aligned {r : MemoryRegion} (h : Tidy r) : pageSize ∣ r.endAddr := by
  rw [h.endAddr_eq]
  exact dvd_add h.base_aligned h.length_aligned

theorem Tidy.base_lt_end {r : MemoryRegion} (h : Tidy r) : r.base < r.endAddr := by
  have := h.nonempty
  rw [h.endAddr_eq]
  omega

theorem tidy_around {r s p : MemoryRegion} (hr : Tidy r) (hs : Tidy s) (h : p ∈ around r s) :
    Tidy p := by
  rcases List.mem_append.mp h with h | h
  · obtain ⟨hlt,hb,-,hl,-⟩ := before_mem h
    have hw := s.base_lt
    refine ⟨by omega,by omega,?_,?_⟩
    · rw [hb]
      exact hr.base_aligned
    · rw [hl]
      exact Nat.dvd_sub hs.base_aligned hr.base_aligned
  · obtain ⟨hlt,hb,-,hl,-⟩ := after_mem h
    have hw := r.endAddr_lt
    refine ⟨by omega,by omega,?_,?_⟩
    · rw [hb]
      exact hs.end_aligned
    · rw [hl]
      exact Nat.dvd_sub hr.end_aligned hs.end_aligned

theorem mem_insertSorted {l : List MemoryRegion} {r x : MemoryRegion} :
    x ∈ insertSorted l r ↔ x = r ∨ x ∈ l := by
  rw [(insertSorted_perm l r).mem_iff, List.mem_cons]

/-- Insertion invents no region beyond the pieces around an overlap, so a
property that cutting preserves holds throughout. -/
theorem insertScan_forall (P : MemoryRegion → Prop)
    (hcut : ∀ r s p, P r → P s → p ∈ around r s → P p) (new : MemoryRegion)
    (visited rest : List MemoryRegion) (hn : P new) (hv : ∀ r ∈ visited, P r)
    (hr : ∀ r ∈ rest, P r) : ∀ r ∈ insertScan new visited rest, P r := by
  induction rest generalizing visited with
  | nil =>
    intro r hm
    rcases mem_insertSorted.mp hm with rfl | hm
    · exact hn
    · exact hv r hm
  | cons existing rest ih =>
    have he := hr existing (by simp)
    have ht : ∀ r ∈ rest, P r := fun r hm => hr r (by simp [hm])
    unfold insertScan
    split_ifs
    · refine ih _ (fun r hm => ?_) ht
      rcases List.mem_append.mp hm with hm | hm
      · exact hv r hm
      · obtain rfl := List.mem_singleton.mp hm
        exact he
    · refine ih _ (fun r hm => ?_) ht
      rcases List.mem_append.mp hm with hm | hm
      · exact hv r hm
      · exact hcut existing new r he hn hm
    · intro r hm
      rw [← around, around_filter, (foldl_insertSorted_perm _ _).mem_iff] at hm
      rcases List.mem_append.mp hm with hm | hm
      · exact hcut new existing r hn he hm
      · rcases List.mem_append.mp hm with hm | hm
        · exact hv r hm
        · exact hr r hm

theorem tidy_foldl (entries regions : List MemoryRegion) (he : ∀ e ∈ entries, Tidy e)
    (hr : ∀ r ∈ regions, Tidy r) : ∀ r ∈ entries.foldl insertWithOverlap regions, Tidy r := by
  induction entries generalizing regions with
  | nil => exact hr
  | cons e entries ih =>
    exact ih _ (fun x hx => he x (by simp [hx]))
      (insertScan_forall Tidy (fun _ _ _ => tidy_around) e [] regions (he e (by simp))
        (by simp) hr)

theorem tidy_resolve (entries : List MemoryRegion) (he : ∀ e ∈ entries, Tidy e) :
    ∀ r ∈ resolve entries, Tidy r :=
  tidy_foldl entries [] he (by simp)

/-- Two touching regions of one type as the merge pass joins them. -/
def joined (r s : MemoryRegion) : MemoryRegion :=
  ⟨r.base,(r.length+s.length)%wordSize,r.regionType,r.base_lt,joined_lt r s⟩

theorem tidy_joined {r s : MemoryRegion} (hr : Tidy r) (hs : Tidy s)
    (h : r.endAddr = s.base) : Tidy (joined r s) ∧ (joined r s).endAddr = s.endAddr := by
  rw [hr.endAddr_eq] at h
  have hp := hr.nonempty
  have hf := hs.fits
  have hl : (joined r s).length = r.length+s.length := Nat.mod_eq_of_lt (by omega)
  have hb : (joined r s).base = r.base := rfl
  have ht : Tidy (joined r s) := by
    refine ⟨by omega,by omega,hr.base_aligned,?_⟩
    rw [hl]
    exact dvd_add hr.length_aligned hs.length_aligned
  refine ⟨ht,?_⟩
  rw [ht.endAddr_eq, hs.endAddr_eq]
  omega

theorem tidy_mergeFrom (r : MemoryRegion) (rest : List MemoryRegion) (hr : Tidy r)
    (ht : ∀ s ∈ rest, Tidy s) : ∀ s ∈ mergeFrom r rest, Tidy s := by
  induction rest generalizing r with
  | nil => simpa [mergeFrom] using hr
  | cons s rest ih =>
    have hs := ht s (by simp)
    have hrest : ∀ x ∈ rest, Tidy x := fun x hx => ht x (by simp [hx])
    unfold mergeFrom
    split_ifs with h
    · exact ih _ (tidy_joined hr hs h.2).1 hrest
    · intro x hx
      rcases List.mem_cons.mp hx with rfl | hx
      · exact hr
      · exact ih s hs hrest x hx

theorem joined_covers {r s : MemoryRegion} (hr : Tidy r) (hs : Tidy s)
    (h : r.endAddr = s.base) (a : ℕ) : (joined r s).Covers a ↔ r.Covers a ∨ s.Covers a := by
  have hj := (tidy_joined hr hs h).2
  have hb : (joined r s).base = r.base := rfl
  have h1 := hr.base_lt_end
  have h2 := hs.base_lt_end
  simp only [Covers, hj, hb]
  omega

theorem touching_misses {r s : MemoryRegion} (h : r.endAddr = s.base) {a : ℕ}
    (hc : r.Covers a) : ¬s.Covers a := by
  simp only [Covers] at *
  omega

theorem weightAt_joined {r s : MemoryRegion} (hr : Tidy r) (hs : Tidy s)
    (ht : r.regionType = s.regionType) (h : r.endAddr = s.base) (a : ℕ) :
    weightAt (joined r s) a = weightAt r a ⊔ weightAt s a := by
  have hcov := joined_covers hr hs h a
  have hp : (joined r s).priority = r.priority := rfl
  have hq : s.priority = r.priority := by simp [MemoryRegion.priority, ht]
  by_cases hc : r.Covers a
  · rw [weightAt_covers (hcov.mpr (Or.inl hc)), weightAt_covers hc,
      weightAt_misses (touching_misses h hc), hp, sup_bot_eq]
  · rw [weightAt_misses hc, bot_sup_eq]
    by_cases hd : s.Covers a
    · rw [weightAt_covers (hcov.mpr (Or.inr hd)), weightAt_covers hd, hp, hq]
    · rw [weightAt_misses hd, weightAt_misses (by simp [hcov, hc, hd])]

theorem peak_mergeFrom (r : MemoryRegion) (rest : List MemoryRegion) (hr : Tidy r)
    (ht : ∀ s ∈ rest, Tidy s) (a : ℕ) : peak (mergeFrom r rest) a = peak (r::rest) a := by
  induction rest generalizing r with
  | nil => rfl
  | cons s rest ih =>
    have hs := ht s (by simp)
    have hrest : ∀ x ∈ rest, Tidy x := fun x hx => ht x (by simp [hx])
    unfold mergeFrom
    split_ifs with h
    · rw [← joined, ih _ (tidy_joined hr hs h.2).1 hrest, peak_cons,
        weightAt_joined hr hs h.1 h.2, peak_cons, peak_cons, sup_assoc]
    · rw [peak_cons, ih s hs hrest, peak_cons r]

theorem tidy_mergeAdjacent (l : List MemoryRegion) (h : ∀ r ∈ l, Tidy r) :
    ∀ r ∈ mergeAdjacent l, Tidy r := by
  cases l with
  | nil => simp [mergeAdjacent]
  | cons r l => exact tidy_mergeFrom r l (h r (by simp)) (fun s hs => h s (by simp [hs]))

theorem peak_mergeAdjacent (l : List MemoryRegion) (h : ∀ r ∈ l, Tidy r) (a : ℕ) :
    peak (mergeAdjacent l) a = peak l a := by
  cases l with
  | nil => rfl
  | cons r l => exact peak_mergeFrom r l (h r (by simp)) (fun s hs => h s (by simp [hs])) a

theorem alignDown_dvd (x : ℕ) (h : x < wordSize) : pageSize ∣ alignDown x pageSize := by
  rw [alignDown_page x h]
  exact Dvd.intro_left _ rfl

theorem alignUp_dvd (x : ℕ) : pageSize ∣ alignUp x pageSize :=
  alignDown_dvd _ (Nat.mod_lt _ (by norm_num))

theorem tidy_pageAlign (e : MemoryRegion) (h : 0 < (pageAlign e).length) : Tidy (pageAlign e) := by
  unfold pageAlign at *
  split_ifs at * with hle
  · simp at h
  · have hu := alignUp_dvd e.base
    have hd := alignDown_dvd e.endAddr e.endAddr_lt
    have hw := alignDown_lt e.endAddr pageSize e.endAddr_lt
    simp only [span] at *
    exact ⟨h,by simp only; omega,hu,Nat.dvd_sub hd hu⟩

theorem tidy_alignedEntries (sorted : List MemoryRegion) : ∀ e ∈ alignedEntries sorted, Tidy e := by
  intro e he
  obtain ⟨hm,hl⟩ := List.mem_filter.mp he
  obtain ⟨x,-,rfl⟩ := List.mem_map.mp hm
  exact tidy_pageAlign x (by simpa using hl)

theorem normalize_eq (raw : List MemoryRegion) :
    PmmRegions.normalize raw = mergeAdjacent (resolve (alignedEntries (sortByBase raw))) := by
  unfold PmmRegions.normalize
  split_ifs with h
  · rw [h]
    rfl
  · rfl

theorem tidy_normalize (raw : List MemoryRegion) : ∀ r ∈ PmmRegions.normalize raw, Tidy r := by
  rw [normalize_eq]
  exact tidy_mergeAdjacent _ (tidy_resolve _ (tidy_alignedEntries _))

def ShrunkCovers (e : MemoryRegion) (a : ℕ) : Prop :=
  (e.base+pageSize-1)/pageSize*pageSize ≤ a ∧ a < e.endAddr/pageSize*pageSize

instance (e : MemoryRegion) (a : ℕ) : Decidable (ShrunkCovers e a) :=
  inferInstanceAs (Decidable (_ ∧ _))

theorem covers_nonempty {r : MemoryRegion} {a : ℕ} (h : r.Covers a) : 0 < r.length := by
  simp only [Covers, endAddr] at h
  omega

theorem pageAlign_covers (e : MemoryRegion) (h : e.base ≤ wordSize-pageSize) (a : ℕ) :
    (pageAlign e).Covers a ↔ ShrunkCovers e a := by
  rw [ShrunkCovers, ← alignUp_page e.base h, ← alignDown_page e.endAddr e.endAddr_lt]
  unfold pageAlign
  split_ifs with hle
  · constructor
    · intro hc
      simpa using covers_nonempty hc
    · omega
  · simp only [Covers, span_endAddr _ _ _ _ _ (not_le.mp hle).le]
    rfl

theorem pageAlign_type (e : MemoryRegion) : (pageAlign e).regionType = e.regionType := by
  unfold pageAlign
  by_cases h : alignDown e.endAddr pageSize ≤ alignUp e.base pageSize
  · simp only [h, if_true]
  · simp only [h, if_false, span]

theorem pageAlign_base (e : MemoryRegion) (h : 0 < (pageAlign e).length) :
    (pageAlign e).base = alignUp e.base pageSize := by
  unfold pageAlign at *
  by_cases hle : alignDown e.endAddr pageSize ≤ alignUp e.base pageSize
  · simp [hle] at h
  · simp only [hle, if_false, span]

theorem sortByBase_perm (raw : List MemoryRegion) : (sortByBase raw).Perm raw :=
  List.perm_insertionSort _ raw

theorem peak_normalize (raw : List MemoryRegion) (hb : ∀ e ∈ raw, e.base ≤ wordSize-pageSize)
    (a : ℕ) :
    peak (PmmRegions.normalize raw) a = heaviest MemoryRegion.priority (fun e => ShrunkCovers e a) raw := by
  rw [normalize_eq, peak_mergeAdjacent _ (tidy_resolve _ (tidy_alignedEntries _)), peak_resolve]
  have hf : peak (alignedEntries (sortByBase raw)) a = peak ((sortByBase raw).map pageAlign) a :=
    heaviest_filter _ _ _ _ (fun e _ hq hc => by simp [covers_nonempty hc] at hq)
  rw [hf, peak_perm ((sortByBase_perm raw).map pageAlign)]
  exact heaviest_map _ _ _ _ pageAlign raw (fun e he => pageAlign_covers e (hb e he) a)
    (fun e _ => by simp [MemoryRegion.priority, pageAlign_type])

/-- No page is lost, invented or weakened: at every address the normalized
map covers what the inward-shrunk raw entries cover, with the same maximal
priority. Overlapping output regions are not excluded here. -/
theorem normalize_pointwise (raw : List MemoryRegion)
    (hb : ∀ e ∈ raw, e.base ≤ wordSize-pageSize) (a : ℕ) :
    ((∃ r ∈ PmmRegions.normalize raw, r.Covers a) ↔ ∃ e ∈ raw, ShrunkCovers e a) ∧
    heaviest MemoryRegion.priority (fun r => r.Covers a) (PmmRegions.normalize raw) =
      heaviest MemoryRegion.priority (fun e => ShrunkCovers e a) raw := by
  have hp := peak_normalize raw hb a
  refine ⟨?_,hp⟩
  have h1 := peak_eq_bot (PmmRegions.normalize raw) a
  have h2 := heaviest_eq_bot MemoryRegion.priority (fun e => ShrunkCovers e a) raw
  rw [hp, h2] at h1
  have h3 := not_congr h1
  push Not at h3
  exact h3.symm

theorem normalize_pointwise_reserved :
    heaviest MemoryRegion.priority (fun r => r.Covers 0x5000)
      (PmmRegions.normalize [⟨0,0x10000,.usable,by decide,by decide⟩,
        ⟨0x5000,0x3000,.reserved,by decide,by decide⟩]) = (4:ℕ) :=
  ((normalize_pointwise [⟨0,0x10000,.usable,by decide,by decide⟩,
    ⟨0x5000,0x3000,.reserved,by decide,by decide⟩] (by decide) 0x5000).2).trans (by decide)

end Zamak.PmmTidy
