import Mathlib.Data.ENat.Lattice
import Mathlib.Order.CompletePartialOrder
import Zamak.PartialSteps

/-! # Blocks linked into chains

Nodes with a block of data and a link to the next node, both of which may be missing. A
chain is followed for as long as there are blocks and links. Its extent is a number
only if it ends; a chain that comes back to a node has no bound. -/

set_option autoImplicit false

namespace Zamak.LinkedBlocks
open Zamak.PartialSteps

structure Links (α β : Type*) where
  block : α → Option (List β)
  next : α → Option α

variable {α β : Type*} (s : Links α β)

def contents : ℕ → α → List β
  | 0, _ => []
  | n+1, a =>
    match s.block a with
    | none => []
    | some b => b++(s.next a).elim [] (contents n)

def follow (a : α) : Option α := (s.block a).bind fun _ => s.next a

noncomputable def extent (a : α) : ℕ∞ := ⨆ n, ((contents s n a).length : ℕ∞)

/-- No block is empty, so every node adds to the data. -/
def Filled : Prop := ∀ a b, s.block a = some b → 0 < b.length

theorem contents_missing (n : ℕ) (a : α) (h : s.block a = none) : contents s n a = [] := by
  cases n with
  | zero => rfl
  | succ n => rw [contents,h]

theorem contents_last (n : ℕ) (a : α) (b : List β) (h : s.block a = some b)
    (hnext : s.next a = none) : contents s (n+1) a = b := by
  rw [contents,h,hnext]
  exact List.append_nil b

theorem contents_linked (n : ℕ) (a a' : α) (b : List β) (h : s.block a = some b)
    (hnext : s.next a = some a') : contents s (n+1) a = b++contents s n a' := by
  rw [contents,h,hnext]
  rfl

section Filled
variable (hs : Filled s)
include hs

theorem take_contents (n m t : ℕ) (a : α) (hn : t ≤ n) (hm : t ≤ m) :
    (contents s n a).take t = (contents s m a).take t := by
  induction n generalizing m t a with
  | zero =>
    obtain rfl : t = 0 := by omega
    simp
  | succ n ih =>
    cases t with
    | zero => simp
    | succ t =>
      obtain ⟨m,rfl⟩ : ∃ k, m = k+1 := ⟨m-1,by omega⟩
      cases hb : s.block a with
      | none => rw [contents_missing s _ a hb,contents_missing s _ a hb]
      | some b =>
        have hpos := hs a b hb
        cases hnext : s.next a with
        | none => rw [contents_last s n a b hb hnext,contents_last s m a b hb hnext]
        | some a' =>
          rw [contents_linked s n a a' b hb hnext,contents_linked s m a a' b hb hnext,
            List.take_append,List.take_append,ih m (t+1-b.length) a' (by omega) (by omega)]

theorem length_contents_le (n t : ℕ) (a : α) (hn : t ≤ n)
    (h : (contents s t a).length < t) : (contents s n a).length ≤ (contents s t a).length := by
  have hlen := congrArg List.length (take_contents s hs n t t a hn (Nat.le_refl t))
  rw [List.length_take,List.length_take] at hlen
  omega

end Filled

theorem length_contents_mono (n m : ℕ) (a : α) (h : n ≤ m) :
    (contents s n a).length ≤ (contents s m a).length := by
  induction n generalizing m a with
  | zero => exact Nat.zero_le _
  | succ n ih =>
    obtain ⟨m,rfl⟩ : ∃ k, m = k+1 := ⟨m-1,by omega⟩
    cases hb : s.block a with
    | none =>
      rw [contents_missing s _ a hb]
      exact Nat.zero_le _
    | some b =>
      cases hnext : s.next a with
      | none => rw [contents_last s n a b hb hnext,contents_last s m a b hb hnext]
      | some a' =>
        rw [contents_linked s n a a' b hb hnext,contents_linked s m a a' b hb hnext,
          List.length_append,List.length_append]
        exact Nat.add_le_add_left (ih m a' (by omega)) _

theorem length_take_contents (hs : Filled s) (t : ℕ) (a : α) :
    (((contents s t a).take t).length : ℕ∞) = min (t : ℕ∞) (extent s a) := by
  apply le_antisymm
  · refine le_min (by exact_mod_cast List.length_take_le _ _) ?_
    refine le_trans ?_ (le_iSup (fun n => ((contents s n a).length : ℕ∞)) t)
    exact_mod_cast List.length_take_le' _ _
  · rw [List.length_take]
    by_cases h : t ≤ (contents s t a).length
    · rw [Nat.min_eq_left h]
      exact min_le_left _ _
    · rw [Nat.min_eq_right (by omega)]
      refine (min_le_right _ _).trans (iSup_le fun n => ?_)
      by_cases hn : t ≤ n
      · exact_mod_cast length_contents_le s hs n t a hn (by omega)
      · exact_mod_cast length_contents_mono s n t a (by omega)

theorem length_contents_visit (hs : Filled s) (n : ℕ) (a x : α)
    (h : visit (follow s) n a = some x) : n ≤ (contents s n a).length := by
  induction n generalizing a with
  | zero => exact Nat.zero_le _
  | succ n ih =>
    obtain ⟨a',hfollow,h⟩ := Option.bind_eq_some_iff.mp h
    obtain ⟨b,hb,hnext⟩ := Option.bind_eq_some_iff.mp hfollow
    rw [contents_linked s n a a' b hb hnext,List.length_append]
    have := hs a b hb
    have := ih a' h
    omega

theorem extent_returns (hs : Filled s) (a : α) (h : Returns (follow s) a) : extent s a = ⊤ := by
  rw [extent,iSup_eq_top]
  intro c hc
  lift c to ℕ using hc.ne
  obtain ⟨x,hx⟩ := visit_of_returns (follow s) a h (c+1)
  refine ⟨c+1,?_⟩
  have := length_contents_visit s hs (c+1) a x hx
  exact_mod_cast (by omega : c < (contents s (c+1) a).length)

end Zamak.LinkedBlocks
