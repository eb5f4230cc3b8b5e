import Mathlib
import Zamak.OrderedSpans

/-! # Lengths of disjoint spans

Where no two half-open spans of a list meet, the sum of their lengths is the number of
points they hold. -/

set_option autoImplicit false

namespace Zamak.SpanMeasure

variable {α : Type*} (lo hi : α → ℕ)

def held (l : List α) : Set ℕ := {a | ∃ x ∈ l, lo x ≤ a ∧ a < hi x}

def Separate (l : List α) : Prop := l.Pairwise fun x y => hi x ≤ lo y ∨ hi y ≤ lo x

variable {lo hi}

theorem held_nil : held lo hi [] = ∅ := by
  ext a
  simp [held]

theorem held_cons (x : α) (l : List α) :
    held lo hi (x::l) = Set.Ico (lo x) (hi x) ∪ held lo hi l := by
  ext a
  simp [held]

theorem held_bounded {l : List α} {top : ℕ} (h : ∀ x ∈ l, hi x ≤ top) :
    held lo hi l ⊆ Set.Iio top := by
  rintro a ⟨x,hx,-,ha⟩
  exact lt_of_lt_of_le ha (h x hx)

theorem held_finite (l : List α) : (held lo hi l).Finite := by
  induction l with
  | nil =>
    rw [held_nil]
    exact Set.finite_empty
  | cons x l ih =>
    rw [held_cons]
    exact (Set.finite_Ico _ _).union ih

theorem interval_ncard (a b : ℕ) : (Set.Ico a b).ncard = b-a := by
  rw [← Finset.coe_Ico,Set.ncard_coe_finset,Nat.card_Ico]

theorem separate_head {x : α} {l : List α} (h : Separate lo hi (x::l)) :
    Disjoint (Set.Ico (lo x) (hi x)) (held lo hi l) := by
  rw [Set.disjoint_left]
  rintro a ⟨h1,h2⟩ ⟨y,hy,h3,h4⟩
  have := (List.pairwise_cons.mp h).1 y hy
  omega

theorem held_ncard {l : List α} (h : Separate lo hi l) :
    (held lo hi l).ncard = (l.map fun x => hi x-lo x).sum := by
  induction l with
  | nil => rw [held_nil,Set.ncard_empty,List.map_nil,List.sum_nil]
  | cons x l ih =>
    rw [held_cons,Set.ncard_union_eq (separate_head h) (Set.finite_Ico _ _) (held_finite l),
      interval_ncard,ih (List.pairwise_cons.mp h).2,List.map_cons,List.sum_cons]

theorem lengths_le {l : List α} {top : ℕ} (h : Separate lo hi l) (hb : ∀ x ∈ l, hi x ≤ top) :
    (l.map fun x => hi x-lo x).sum ≤ top := by
  rw [← held_ncard h]
  refine (Set.ncard_le_ncard (held_bounded hb) (Set.finite_Iio top)).trans_eq ?_
  rw [← Finset.coe_Iio,Set.ncard_coe_finset,Nat.card_Iio]

end Zamak.SpanMeasure
