import Mathlib.Data.List.Pairwise
import Mathlib.Data.List.Perm.Basic
import Mathlib.Tactic

/-!
# Ordered lists of spans

Items occupy half-open spans `[lo x, hi x)`. A list is ordered when each span
ends before every later one starts. Cutting items in place, placing an item
that misses all others, and counting selected items are described once for any
type of item.
-/

set_option autoImplicit false

namespace Zamak.OrderedSpans

variable {α : Type*} (lo hi : α → ℕ)

def Ordered (l : List α) : Prop := l.Pairwise (fun x y => hi x ≤ lo y)

variable {lo hi}

theorem Ordered.cons_iff {x : α} {l : List α} :
    Ordered lo hi (x::l) ↔ (∀ y ∈ l, hi x ≤ lo y) ∧ Ordered lo hi l :=
  List.pairwise_cons

theorem Ordered.flatMap {l : List α} (h : Ordered lo hi l) (f : α → List α)
    (hf : ∀ x ∈ l, Ordered lo hi (f x))
    (hin : ∀ x ∈ l, ∀ y ∈ f x, lo x ≤ lo y ∧ hi y ≤ hi x) : Ordered lo hi (l.flatMap f) := by
  induction l with
  | nil => exact List.Pairwise.nil
  | cons x l ih =>
    obtain ⟨hx,hl⟩ := Ordered.cons_iff.mp h
    rw [List.flatMap_cons]
    refine List.pairwise_append.mpr ⟨hf x (by simp),?_,?_⟩
    · exact ih hl (fun y hy => hf y (by simp [hy])) (fun y hy => hin y (by simp [hy]))
    · intro y hy z hz
      obtain ⟨v,hv,hzv⟩ := List.mem_flatMap.mp hz
      have h1 := (hin x (by simp) y hy).2
      have h2 := hx v hv
      have h3 := (hin v (by simp [hv]) z hzv).1
      omega

theorem Ordered.place {l : List α} (h : Ordered lo hi l) (r : α) (hr : lo r < hi r)
    (hne : ∀ x ∈ l, lo x < hi x) (hap : ∀ x ∈ l, hi r ≤ lo x ∨ hi x ≤ lo r) :
    Ordered lo hi (l.insertIdx (l.findIdx (fun x => lo r < lo x)) r) := by
  induction l with
  | nil => exact List.pairwise_singleton _ _
  | cons x l ih =>
    obtain ⟨hx,hl⟩ := Ordered.cons_iff.mp h
    have hxn := hne x (by simp)
    have hxa := hap x (by simp)
    by_cases hlt : lo r < lo x
    · simp only [List.findIdx_cons, hlt, decide_true, cond_true, List.insertIdx_zero]
      refine Ordered.cons_iff.mpr ⟨?_,h⟩
      intro y hy
      rcases List.mem_cons.mp hy with rfl | hy
      · omega
      · have := hx y hy
        omega
    · simp only [List.findIdx_cons, hlt, decide_false, cond_false, List.insertIdx_succ_cons]
      refine Ordered.cons_iff.mpr ⟨?_,?_⟩
      · intro y hy
        have hm := (List.perm_insertIdx r l List.findIdx_le_length).mem_iff.mp hy
        rcases List.mem_cons.mp hm with rfl | hm
        · omega
        · exact hx y hm
      · exact ih hl (fun y hy => hne y (by simp [hy])) (fun y hy => hap y (by simp [hy]))

theorem count_le_one {p : α → Bool} {l : List α}
    (h : l.Pairwise (fun x y => ¬(p x = true ∧ p y = true))) : l.countP p ≤ 1 := by
  induction l with
  | nil => simp
  | cons x l ih =>
    obtain ⟨hx,hl⟩ := List.pairwise_cons.mp h
    rw [List.countP_cons]
    split_ifs with hc
    · have hz : l.countP p = 0 :=
        List.countP_eq_zero.mpr (fun y hy hp => hx y hy ⟨hc,hp⟩)
      omega
    · exact ih hl

end Zamak.OrderedSpans
