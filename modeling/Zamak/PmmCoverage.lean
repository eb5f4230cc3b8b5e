import Zamak.PmmRegions
import Zamak.HeaviestCover
import Zamak.MaskRounding

/-!
# What normalization covers

Every step of normalization is compared with the raw entries at one address:
how heavy is the heaviest region covering it. The comparison does not assume
that the list under construction is sorted or disjoint, so it also describes
the lists that an early return leaves overlapping.
-/

set_option autoImplicit false

namespace Zamak.PmmCoverage
open Zamak.PmmRegions Zamak.PmmRegions.MemoryRegion Zamak.HeaviestCover
open Zamak.MaskRounding (and_mask roundDown)

theorem alignDown_page (x : ℕ) (h : x < wordSize) :
    alignDown x pageSize = x/pageSize*pageSize := by
  simpa [alignDown, pageSize, wordSize, roundDown] using and_mask 64 12 x (by norm_num) h

theorem alignUp_page (x : ℕ) (h : x ≤ wordSize-pageSize) :
    alignUp x pageSize = (x+pageSize-1)/pageSize*pageSize := by
  have hv : ((x+pageSize)%wordSize+wordSize-1)%wordSize = x+pageSize-1 := by
    unfold wordSize pageSize at *
    omega
  have hd := alignDown_page (x+pageSize-1) (by unfold wordSize pageSize at *; omega)
  unfold alignUp
  rw [hv]
  exact hd

theorem span_endAddr (lo hi : ℕ) (t : MemoryType) (hl : lo < wordSize) (hh : hi < wordSize)
    (h : lo ≤ hi) : (span lo hi t hl hh).endAddr = hi := by
  simp only [span, endAddr]
  omega

theorem before_mem {r s p : MemoryRegion} (h : p ∈ before r s) :
    r.base < s.base ∧ p.base = r.base ∧ p.endAddr = s.base ∧ p.length = s.base-r.base ∧
      p.regionType = r.regionType := by
  unfold before at h
  split at h
  · next hlt =>
    obtain rfl := List.mem_singleton.mp h
    exact ⟨hlt,rfl,span_endAddr _ _ _ _ _ hlt.le,rfl,rfl⟩
  · simp at h

theorem after_mem {r s p : MemoryRegion} (h : p ∈ after r s) :
    s.endAddr < r.endAddr ∧ p.base = s.endAddr ∧ p.endAddr = r.endAddr ∧
      p.length = r.endAddr-s.endAddr ∧ p.regionType = r.regionType := by
  unfold after at h
  split at h
  · next hlt =>
    obtain rfl := List.mem_singleton.mp h
    exact ⟨hlt,rfl,span_endAddr _ _ _ _ _ hlt.le,rfl,rfl⟩
  · simp at h

def around (r s : MemoryRegion) : List MemoryRegion := before r s++after r s

theorem around_type {r s p : MemoryRegion} (h : p ∈ around r s) :
    p.regionType = r.regionType := by
  rcases List.mem_append.mp h with h | h
  · exact (before_mem h).2.2.2.2
  · exact (after_mem h).2.2.2.2

theorem around_covers (r s : MemoryRegion) (h : ¬Apart r s) (a : ℕ) :
    (∃ p ∈ around r s, p.Covers a) ↔ r.Covers a ∧ ¬s.Covers a := by
  simp only [Apart, not_or, not_le] at h
  constructor
  · rintro ⟨p,hp,hc⟩
    rcases List.mem_append.mp hp with hp | hp
    · have hb := before_mem hp
      simp only [Covers] at *
      omega
    · have ha := after_mem hp
      simp only [Covers] at *
      omega
  · rintro ⟨hr,hs⟩
    by_cases hlt : a < s.base
    · have hm : r.base < s.base := lt_of_le_of_lt hr.1 hlt
      refine ⟨span r.base s.base r.regionType r.base_lt s.base_lt,?_,hr.1,?_⟩
      · simp [around, before, hm]
      · rwa [span_endAddr _ _ _ _ _ hm.le]
    · have hge : s.endAddr ≤ a := by
        simp only [Covers] at hs
        omega
      have hm : s.endAddr < r.endAddr := lt_of_le_of_lt hge hr.2
      refine ⟨span s.endAddr r.endAddr r.regionType s.endAddr_lt r.endAddr_lt,?_,hge,?_⟩
      · simp [around, after, hm]
      · rw [span_endAddr _ _ _ _ _ hm.le]
        exact hr.2

def peak (regions : List MemoryRegion) (a : ℕ) : WithBot ℕ :=
  heaviest MemoryRegion.priority (fun r => r.Covers a) regions

def weightAt (r : MemoryRegion) (a : ℕ) : WithBot ℕ :=
  weight MemoryRegion.priority (fun r => r.Covers a) r

theorem peak_nil (a : ℕ) : peak [] a = ⊥ := rfl

theorem peak_cons (r : MemoryRegion) (l : List MemoryRegion) (a : ℕ) :
    peak (r::l) a = weightAt r a ⊔ peak l a := rfl

theorem peak_append (l m : List MemoryRegion) (a : ℕ) :
    peak (l++m) a = peak l a ⊔ peak m a :=
  heaviest_append _ _ l m

theorem peak_perm {l m : List MemoryRegion} (h : l.Perm m) (a : ℕ) : peak l a = peak m a :=
  heaviest_perm _ _ h

theorem peak_eq_bot (l : List MemoryRegion) (a : ℕ) :
    peak l a = ⊥ ↔ ∀ r ∈ l, ¬r.Covers a :=
  heaviest_eq_bot _ _ l

theorem weightAt_covers {r : MemoryRegion} {a : ℕ} (h : r.Covers a) :
    weightAt r a = r.priority :=
  weight_selected _ (fun r => Covers r a) h

theorem weightAt_misses {r : MemoryRegion} {a : ℕ} (h : ¬r.Covers a) : weightAt r a = ⊥ :=
  weight_skipped _ (fun r => Covers r a) h

theorem peak_around (r s : MemoryRegion) (h : ¬Apart r s) (a : ℕ) :
    peak (around r s) a = if s.Covers a then ⊥ else weightAt r a := by
  have hc := around_covers r s h a
  by_cases he : ∃ p ∈ around r s, p.Covers a
  · have hk : peak (around r s) a = r.priority :=
      heaviest_const _ _ r.priority _ (fun p hp => by
        simp [MemoryRegion.priority, around_type hp]) he
    obtain ⟨hr,hs⟩ := hc.mp he
    rw [hk, if_neg hs, weightAt_covers hr]
  · have hb : peak (around r s) a = ⊥ :=
      (peak_eq_bot _ a).mpr (fun p hp hp' => he ⟨p,hp,hp'⟩)
    rw [hb]
    split_ifs with hs
    · rfl
    · exact (weightAt_misses (fun hr => he (hc.mpr ⟨hr,hs⟩))).symm

theorem insertSorted_perm (l : List MemoryRegion) (r : MemoryRegion) :
    (insertSorted l r).Perm (r::l) :=
  List.perm_insertIdx r l List.findIdx_le_length

theorem peak_insertSorted (l : List MemoryRegion) (r : MemoryRegion) (a : ℕ) :
    peak (insertSorted l r) a = weightAt r a ⊔ peak l a :=
  peak_perm (insertSorted_perm l r) a

theorem foldl_insertSorted_perm (pieces l : List MemoryRegion) :
    (pieces.foldl insertSorted l).Perm (pieces++l) := by
  induction pieces generalizing l with
  | nil => exact List.Perm.refl _
  | cons p pieces ih =>
    exact (ih _).trans ((List.Perm.append_left _ (insertSorted_perm l p)).trans
      List.perm_middle)

theorem around_filter (r s : MemoryRegion) :
    (around r s).filter (fun piece => 0 < piece.length) = around r s := by
  apply List.filter_eq_self.mpr
  intro p hp
  rcases List.mem_append.mp hp with h | h
  · have hb := before_mem h
    simp only [decide_eq_true_eq]
    omega
  · have ha := after_mem h
    simp only [decide_eq_true_eq]
    omega

theorem apart_comm (r s : MemoryRegion) : Apart r s ↔ Apart s r := or_comm

/-- Where `new` wins, cutting it out of the existing region is hidden under `new`. -/
theorem peak_win (existing new : MemoryRegion) (h : ¬Apart existing new)
    (hp : existing.priority ≤ new.priority) (a : ℕ) :
    weightAt new a ⊔ peak (around existing new) a = weightAt new a ⊔ weightAt existing a := by
  rw [peak_around existing new h]
  split_ifs with hn
  · have hle : weightAt existing a ≤ weightAt new a := by
      rw [weightAt_covers hn]
      by_cases he : existing.Covers a
      · rw [weightAt_covers he]
        exact_mod_cast hp
      · rw [weightAt_misses he]
        exact bot_le
    rw [sup_bot_eq, sup_eq_left.mpr hle]
  · rfl

/-- One insertion raises every address it covers to at least the new weight
and changes no other address, whatever the list looked like before. -/
theorem peak_insertScan (new : MemoryRegion) (visited rest : List MemoryRegion) (a : ℕ) :
    peak (insertScan new visited rest) a = weightAt new a ⊔ peak (visited++rest) a := by
  induction rest generalizing visited with
  | nil => simpa [insertScan] using peak_insertSorted visited new a
  | cons existing rest ih =>
    unfold insertScan
    split_ifs with hap hpr
    · rw [ih, List.append_assoc, List.singleton_append]
    · have hw := peak_win existing new (fun h => hap ((apart_comm _ _).mp h)) hpr a
      rw [ih, ← around, peak_append, peak_append, peak_append, peak_cons]
      calc
        _ = (weightAt new a ⊔ peak (around existing new) a) ⊔ (peak visited a ⊔ peak rest a) := by
          ac_rfl
        _ = _ := by rw [hw]; ac_rfl
    · -- the existing region outweighs every part of `new` that is dropped
      have hl := peak_win new existing hap (by omega) a
      rw [← around, around_filter, peak_perm (foldl_insertSorted_perm _ _), peak_append,
        peak_append, peak_cons]
      calc
        _ = (weightAt existing a ⊔ peak (around new existing) a) ⊔
            (peak visited a ⊔ peak rest a) := by ac_rfl
        _ = _ := by rw [hl]; ac_rfl

theorem peak_insertWithOverlap (regions : List MemoryRegion) (new : MemoryRegion) (a : ℕ) :
    peak (insertWithOverlap regions new) a = weightAt new a ⊔ peak regions a :=
  peak_insertScan new [] regions a

theorem peak_foldl (entries regions : List MemoryRegion) (a : ℕ) :
    peak (entries.foldl insertWithOverlap regions) a = peak entries a ⊔ peak regions a := by
  induction entries generalizing regions with
  | nil => simp [peak_nil]
  | cons e entries ih =>
    rw [List.foldl_cons, ih, peak_insertWithOverlap, peak_cons]
    ac_rfl

theorem peak_resolve (entries : List MemoryRegion) (a : ℕ) :
    peak (resolve entries) a = peak entries a := by
  rw [resolve, peak_foldl, peak_nil, sup_bot_eq]

end Zamak.PmmCoverage
