import Mathlib.Order.WithBot
import Mathlib.Data.List.Perm.Basic
import Mathlib.Tactic

/-!
# Heaviest selected element of a list

A list of weighted items and a selection predicate determine one value: the
largest weight among the selected items, or bottom when nothing is selected.
The value does not depend on the order of the list, so rearranging, splitting
and joining items can be compared through it.
-/

set_option autoImplicit false

namespace Zamak.HeaviestCover

variable {α β : Type*} (w : α → ℕ) (p : α → Prop) [DecidablePred p]

def weight (x : α) : WithBot ℕ := if p x then (w x : WithBot ℕ) else ⊥

def heaviest : List α → WithBot ℕ
  | [] => ⊥
  | x::xs => weight w p x ⊔ heaviest xs

theorem weight_selected {x : α} (h : p x) : weight w p x = w x := if_pos h

theorem weight_skipped {x : α} (h : ¬p x) : weight w p x = ⊥ := if_neg h

theorem heaviest_append (xs ys : List α) :
    heaviest w p (xs++ys) = heaviest w p xs ⊔ heaviest w p ys := by
  induction xs with
  | nil => simp [heaviest]
  | cons x xs ih => simp [heaviest, ih, sup_assoc]

theorem heaviest_perm {xs ys : List α} (h : xs.Perm ys) :
    heaviest w p xs = heaviest w p ys := by
  induction h with
  | nil => rfl
  | cons x _ ih => simp [heaviest, ih]
  | swap x y l => simp [heaviest, sup_left_comm]
  | trans _ _ ih₁ ih₂ => exact ih₁.trans ih₂

theorem heaviest_eq_bot (xs : List α) : heaviest w p xs = ⊥ ↔ ∀ x ∈ xs, ¬p x := by
  induction xs with
  | nil => simp [heaviest]
  | cons x xs ih =>
    by_cases hx : p x <;> simp [heaviest, weight, hx, ih]

theorem le_heaviest {xs : List α} {x : α} (hx : x ∈ xs) (h : p x) :
    (w x : WithBot ℕ) ≤ heaviest w p xs := by
  induction xs with
  | nil => simp at hx
  | cons y xs ih =>
    rcases List.mem_cons.mp hx with rfl | hx
    · exact (weight_selected w p h).ge.trans le_sup_left
    · exact (ih hx).trans le_sup_right

theorem heaviest_le {xs : List α} {k : ℕ} (h : ∀ x ∈ xs, p x → w x ≤ k) :
    heaviest w p xs ≤ k := by
  induction xs with
  | nil => exact bot_le
  | cons x xs ih =>
    refine sup_le ?_ (ih (fun y hy => h y (by simp [hy])))
    by_cases hx : p x
    · rw [weight_selected w p hx]
      exact_mod_cast h x (by simp) hx
    · rw [weight_skipped w p hx]
      exact bot_le

theorem heaviest_const (k : ℕ)
    (xs : List α) (hw : ∀ x ∈ xs, w x = k) (h : ∃ x ∈ xs, p x) :
    heaviest w p xs = k := by
  induction xs with
  | nil => simp at h
  | cons x xs ih =>
    have hk := hw x (by simp)
    by_cases ht : ∃ y ∈ xs, p y
    · rw [heaviest, ih (fun y hy => hw y (by simp [hy])) ht]
      by_cases hx : p x <;> simp [weight, hx, hk]
    · have hx : p x := by
        obtain ⟨y,hy,hp⟩ := h
        rcases List.mem_cons.mp hy with rfl | hy
        · exact hp
        · exact absurd ⟨y,hy,hp⟩ ht
      have hb : heaviest w p xs = ⊥ :=
        (heaviest_eq_bot w p xs).mpr (fun y hy hp => ht ⟨y,hy,hp⟩)
      simp [heaviest, weight, hx, hk, hb]

theorem heaviest_filter (q : α → Bool) (xs : List α)
    (h : ∀ x ∈ xs, q x = false → ¬p x) :
    heaviest w p (xs.filter q) = heaviest w p xs := by
  induction xs with
  | nil => rfl
  | cons x xs ih =>
    have ht := ih (fun y hy => h y (by simp [hy]))
    cases hq : q x with
    | true => simp [hq, heaviest, ht]
    | false => simp [hq, heaviest, ht, weight_skipped w p (h x (by simp) hq)]

theorem heaviest_map (v : β → ℕ) (q : β → Prop) [DecidablePred q] (f : α → β) (xs : List α)
    (hs : ∀ x ∈ xs, q (f x) ↔ p x) (hw : ∀ x ∈ xs, v (f x) = w x) :
    heaviest v q (xs.map f) = heaviest w p xs := by
  induction xs with
  | nil => rfl
  | cons x xs ih =>
    simp only [List.map_cons, heaviest]
    rw [ih (fun y hy => hs y (by simp [hy])) (fun y hy => hw y (by simp [hy]))]
    simp only [weight, hs x (by simp), hw x (by simp)]

end Zamak.HeaviestCover
