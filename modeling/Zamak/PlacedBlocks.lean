import Zamak.Segments

/-! # Bytes placed in blocks of pages

A memory and the blocks of pages that were handed out in it. Bytes that go into a fresh
block stay there for as long as only fresh blocks are written, and nothing outside of the
blocks changes. -/

set_option autoImplicit false

namespace Zamak.PlacedBlocks
open Zamak.Segments

structure Block where
  base : ℕ
  pages : ℕ
  deriving DecidableEq

def Block.Contains (b : Block) (x : ℕ) : Prop := b.base ≤ x ∧ x < b.base+b.pages*4096

instance (b : Block) (x : ℕ) : Decidable (b.Contains x) := inferInstanceAs (Decidable (_ ∧ _))

structure Owner (α : Type*) where
  memory : ℕ → α
  blocks : List Block

variable {α : Type*}

def store (memory : ℕ → α) (base : ℕ) (items : List α) (x : ℕ) : α :=
  if base ≤ x then items.getD (x-base) (memory x) else memory x

theorem store_outside (memory : ℕ → α) (base : ℕ) (items : List α) (x : ℕ)
    (h : x < base ∨ base+items.length ≤ x) : store memory base items x = memory x := by
  rcases h with hbelow|habove
  · exact if_neg (Nat.not_le.mpr hbelow)
  · rw [store,if_pos (by omega),List.getD_eq_default _ _ (by omega)]

theorem stretch_store (memory : ℕ → α) (base : ℕ) (items : List α) :
    stretch (store memory base items) base items.length = items := by
  apply List.ext_getElem
  · rw [stretch_length]
  · intro i _ hi
    simp only [stretch,List.getElem_map,List.getElem_range]
    rw [store,if_pos (Nat.le_add_right _ _),Nat.add_sub_cancel_left,List.getD_eq_getElem _ _ hi]

section Place
variable (allocate : List Block → ℕ → Option ℕ)

def place (pages : ℕ) (items : List α) (o : Owner α) : Option (ℕ × Owner α) :=
  (allocate o.blocks pages).map fun base =>
    (base,⟨store o.memory base items,⟨base,pages⟩::o.blocks⟩)

/-- What an allocator promises: addresses of a word, away from every block handed out. -/
structure Fresh (limit : ℕ) : Prop where
  apart : ∀ blocks pages base, allocate blocks pages = some base →
    ∀ b ∈ blocks, ∀ x, b.Contains x → ¬Block.Contains ⟨base,pages⟩ x
  fits : ∀ blocks pages base, allocate blocks pages = some base → base < limit

end Place

/-- Everything that an owner had is there for a later one, and outside of the blocks the
memory is the same. -/
structure Kept (o o' : Owner α) : Prop where
  blocks : ∀ b ∈ o.blocks, b ∈ o'.blocks
  inside : ∀ b ∈ o.blocks, ∀ x, b.Contains x → o'.memory x = o.memory x
  outside : ∀ x, (∀ b ∈ o'.blocks, ¬b.Contains x) → o'.memory x = o.memory x

theorem Kept.refl (o : Owner α) : Kept o o := ⟨fun _ h => h,fun _ _ _ _ => rfl,fun _ _ => rfl⟩

theorem Kept.trans {o o' o'' : Owner α} (h : Kept o o') (h' : Kept o' o'') : Kept o o'' where
  blocks b hb := h'.blocks b (h.blocks b hb)
  inside b hb x hx := (h'.inside b (h.blocks b hb) x hx).trans (h.inside b hb x hx)
  outside x hx := (h'.outside x hx).trans (h.outside x fun b hb => hx b (h'.blocks b hb))

def Placed (o : Owner α) (base : ℕ) (items : List α) : Prop :=
  ∃ pages, ⟨base,pages⟩ ∈ o.blocks ∧ items.length ≤ pages*4096 ∧
    stretch o.memory base items.length = items

theorem Placed.kept {o o' : Owner α} {base : ℕ} {items : List α} (h : Placed o base items)
    (hkept : Kept o o') : Placed o' base items := by
  obtain ⟨pages,hblock,hroom,hitems⟩ := h
  refine ⟨pages,hkept.blocks _ hblock,hroom,Eq.trans ?_ hitems⟩
  apply stretch_congr
  intro k hk
  exact hkept.inside _ hblock _ ⟨Nat.le_add_right _ _,by change base+k < base+pages*4096; omega⟩

variable {allocate : List Block → ℕ → Option ℕ} {limit : ℕ}

theorem place_placed (hfresh : Fresh allocate limit) {pages : ℕ} {items : List α}
    (hroom : items.length ≤ pages*4096) {o o' : Owner α} {base : ℕ}
    (h : place allocate pages items o = some (base,o')) :
    Kept o o' ∧ Placed o' base items ∧ base < limit := by
  obtain ⟨base',hbase,hpair⟩ := Option.map_eq_some_iff.mp h
  cases hpair
  refine ⟨⟨fun b hb => List.mem_cons_of_mem _ hb,?_,?_⟩,
    ⟨pages,List.mem_cons_self,hroom,stretch_store _ _ _⟩,hfresh.fits _ _ _ hbase⟩
  · intro b hb x hx
    have hout := hfresh.apart _ _ _ hbase b hb x hx
    apply store_outside
    by_contra hin
    exact hout ⟨by change base ≤ x; omega,by change x < base+pages*4096; omega⟩
  · intro x hx
    have hout := hx _ List.mem_cons_self
    apply store_outside
    by_contra hin
    exact hout ⟨by change base ≤ x; omega,by change x < base+pages*4096; omega⟩

end Zamak.PlacedBlocks
