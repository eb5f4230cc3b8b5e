import Mathlib.Data.List.Basic
import Mathlib.Data.List.Forall2

/-! # A heap of boxes that are never freed

Boxes of any kind are placed one after the other by an allocator that never reuses the
address of a live box. What was read at an address once is read there ever after. -/

set_option autoImplicit false

namespace Zamak.LeakedHeap

abbrev Heap (Object : Type) := List (ℕ × Object)

section Leak
variable {Object : Type} (place : Heap Object → Object → Option ℕ)

/-- `Box::leak(Box::new(x))`; without an address for the box the program aborts. -/
def leak (x : Object) (heap : Heap Object) : Option (ℕ × Heap Object) :=
  (place heap x).map fun p => (p,(p,x)::heap)

def leakEach : List Object → Heap Object → Option (List ℕ × Heap Object)
  | [], heap => some ([],heap)
  | x::rest, heap => do
    let (p,heap) ← leak place x heap
    let (pointers,heap) ← leakEach rest heap
    some (p::pointers,heap)

/-- What an allocator promises: no address of a live box, and addresses that fit. -/
structure Allocates (limit : ℕ) : Prop where
  fresh : ∀ heap x p, place heap x = some p → heap.lookup p = none
  fits : ∀ heap x p, place heap x = some p → p < limit

theorem Allocates.mono {place : Heap Object → Object → Option ℕ} {limit limit' : ℕ}
    (h : Allocates place limit) (hle : limit ≤ limit') : Allocates place limit' :=
  ⟨h.fresh,fun heap x p hp => Nat.lt_of_lt_of_le (h.fits heap x p hp) hle⟩

end Leak

section Extends
variable {Object : Type} {place : Heap Object → Object → Option ℕ} {limit : ℕ}

def Extends (heap heap' : Heap Object) : Prop :=
  ∀ p x, heap.lookup p = some x → heap'.lookup p = some x

theorem Extends.refl (heap : Heap Object) : Extends heap heap := fun _ _ h => h

theorem Extends.trans {first second third : Heap Object} (h : Extends first second)
    (h' : Extends second third) : Extends first third :=
  fun p x hx => h' p x (h p x hx)

theorem extends_cons {heap : Heap Object} {p : ℕ} (x : Object) (h : heap.lookup p = none) :
    Extends heap ((p,x)::heap) := by
  intro q y hy
  have hne : (q == p) = false := by
    rw [beq_eq_false_iff_ne]
    rintro rfl
    rw [h] at hy
    cases hy
  rw [List.lookup_cons,hne]
  exact hy

theorem leak_placed (hplace : Allocates place limit) {x : Object} {heap heap' : Heap Object}
    {p : ℕ} (h : leak place x heap = some (p,heap')) :
    Extends heap heap' ∧ heap'.lookup p = some x ∧ p < limit := by
  obtain ⟨q,hq,hpair⟩ := Option.map_eq_some_iff.mp h
  cases hpair
  refine ⟨extends_cons x (hplace.fresh heap x p hq),?_,hplace.fits heap x p hq⟩
  rw [List.lookup_cons,beq_self_eq_true]

theorem leakEach_placed (hplace : Allocates place limit) {xs : List Object}
    {heap heap' : Heap Object} {pointers : List ℕ}
    (h : leakEach place xs heap = some (pointers,heap')) :
    Extends heap heap' ∧ List.Forall₂ (fun p x => heap'.lookup p = some x) pointers xs := by
  induction xs generalizing heap pointers with
  | nil =>
    cases h
    exact ⟨Extends.refl _,List.Forall₂.nil⟩
  | cons x rest ih =>
    obtain ⟨⟨p,middle⟩,hleak,h⟩ := Option.bind_eq_some_iff.mp h
    obtain ⟨⟨others,last⟩,heach,h⟩ := Option.bind_eq_some_iff.mp h
    cases h
    obtain ⟨hfirst,hp,-⟩ := leak_placed hplace hleak
    obtain ⟨hsecond,hrest⟩ := ih heach
    exact ⟨hfirst.trans hsecond,List.Forall₂.cons (hsecond p x hp) hrest⟩

end Extends

section Invariant
variable {Object : Type} {place : Heap Object → Object → Option ℕ} {inv : Heap Object → Prop}

theorem leakEach_invariant
    (hinv : ∀ heap x p heap', inv heap → leak place x heap = some (p,heap') → inv heap')
    {xs : List Object} {heap heap' : Heap Object} {pointers : List ℕ} (h : inv heap)
    (hleak : leakEach place xs heap = some (pointers,heap')) : inv heap' := by
  induction xs generalizing heap pointers with
  | nil =>
    cases hleak
    exact h
  | cons x rest ih =>
    obtain ⟨⟨p,middle⟩,hfirst,hleak⟩ := Option.bind_eq_some_iff.mp hleak
    obtain ⟨⟨others,last⟩,heach,hleak⟩ := Option.bind_eq_some_iff.mp hleak
    cases hleak
    exact ih (hinv _ _ _ _ h hfirst) heach

end Invariant

end Zamak.LeakedHeap
