import Mathlib.Data.List.Basic
import Mathlib.Algebra.Group.Nat.Defs
import Mathlib.Tactic.Linarith

/-! # Rows one after another

Entry `x` of row `y` stands at `y*width+x` when the rows are all `width` long. Two nested
loops that push what they read leave the entries in this order. -/

set_option autoImplicit false

namespace Zamak.RowMajor
variable {α : Type*}

section Rows
variable (width : ℕ) (rows : List (List α)) (h : ∀ row ∈ rows, row.length = width)
include h

theorem flatten_length : rows.flatten.length = rows.length*width := by
  induction rows with
  | nil => rw [List.flatten_nil,List.length_nil,List.length_nil,Nat.zero_mul]
  | cons row rows ih =>
    rw [List.flatten_cons,List.length_append,h row List.mem_cons_self,
      ih (fun r hr => h r (List.mem_cons_of_mem row hr)),List.length_cons,Nat.succ_mul,
      Nat.add_comm]

theorem flatten_getElem? (y x : ℕ) (hx : x < width) :
    rows.flatten[y*width+x]? = (rows[y]?).bind fun row => row[x]? := by
  induction rows generalizing y with
  | nil => rfl
  | cons row rows ih =>
    have hrow := h row List.mem_cons_self
    rw [List.flatten_cons]
    cases y with
    | zero =>
      rw [Nat.zero_mul,Nat.zero_add,List.getElem?_append_left (by omega)]
      rfl
    | succ y =>
      have hbehind : (y+1)*width+x = row.length+(y*width+x) := by
        rw [hrow,Nat.succ_mul]
        omega
      rw [hbehind,List.getElem?_append_right (Nat.le_add_right _ _),Nat.add_sub_cancel_left,
        ih (fun r hr => h r (List.mem_cons_of_mem row hr)) y]
      rfl

end Rows

section Grid
variable (width height : ℕ)

/-- What nested loops over `height` rows and `width` columns push; none at a fault. -/
def readGrid (cell : ℕ → ℕ → Option α) : Option (List α) :=
  ((List.range height).mapM fun y => (List.range width).mapM fun x => cell x y).map List.flatten

def gridRows (entry : ℕ → ℕ → α) : List (List α) :=
  (List.range height).map fun y => (List.range width).map fun x => entry x y

theorem gridRows_width (entry : ℕ → ℕ → α) (row : List α)
    (h : row ∈ gridRows width height entry) : row.length = width := by
  obtain ⟨y,_,rfl⟩ := List.mem_map.mp h
  rw [List.length_map,List.length_range]

theorem gridRows_getElem? (entry : ℕ → ℕ → α) (x y : ℕ) (hx : x < width) (hy : y < height) :
    (gridRows width height entry).flatten[y*width+x]? = some (entry x y) := by
  rw [flatten_getElem? width _ (gridRows_width width height entry) y x hx,gridRows,
    List.getElem?_map,List.getElem?_range hy,Option.map_some,Option.bind_some,
    List.getElem?_map,List.getElem?_range hx,Option.map_some]

theorem mapM_some {β : Type*} (l : List α) (f : α → Option β) (g : α → β)
    (h : ∀ a ∈ l, f a = some (g a)) : l.mapM f = some (l.map g) := by
  induction l with
  | nil => rfl
  | cons a l ih =>
    rw [List.mapM_cons,h a List.mem_cons_self,ih fun b hb => h b (List.mem_cons_of_mem a hb)]
    rfl

theorem mapM_length {β : Type*} (l : List α) (f : α → Option β) (pushed : List β)
    (h : l.mapM f = some pushed) : pushed.length = l.length := by
  induction l generalizing pushed with
  | nil =>
    cases h
    rfl
  | cons a l ih =>
    rw [List.mapM_cons] at h
    obtain ⟨b,_,h⟩ := Option.bind_eq_some_iff.mp h
    obtain ⟨rest,hrest,h⟩ := Option.bind_eq_some_iff.mp h
    cases h
    rw [List.length_cons,List.length_cons,ih rest hrest]

theorem mapM_mem {β : Type*} (l : List α) (f : α → Option β) (pushed : List β)
    (h : l.mapM f = some pushed) (b : β) (hb : b ∈ pushed) : ∃ a ∈ l, f a = some b := by
  induction l generalizing pushed with
  | nil =>
    cases h
    cases hb
  | cons a l ih =>
    rw [List.mapM_cons] at h
    obtain ⟨first,hfirst,h⟩ := Option.bind_eq_some_iff.mp h
    obtain ⟨rest,hrest,h⟩ := Option.bind_eq_some_iff.mp h
    cases h
    rcases List.mem_cons.mp hb with rfl | hb
    · exact ⟨a,List.mem_cons_self,hfirst⟩
    · obtain ⟨c,hc,hfound⟩ := ih rest hrest hb
      exact ⟨c,List.mem_cons_of_mem a hc,hfound⟩

theorem readGrid_some (cell : ℕ → ℕ → Option α) (entry : ℕ → ℕ → α)
    (h : ∀ x < width, ∀ y < height, cell x y = some (entry x y)) :
    readGrid width height cell = some (gridRows width height entry).flatten := by
  have hrows : ∀ y ∈ List.range height, (List.range width).mapM (fun x => cell x y) =
      some ((List.range width).map fun x => entry x y) := by
    intro y hy
    apply mapM_some
    exact fun x hx => h x (List.mem_range.mp hx) y (List.mem_range.mp hy)
  rw [readGrid,mapM_some _ _ _ hrows]
  rfl

theorem readGrid_length (cell : ℕ → ℕ → Option α) (pushed : List α)
    (h : readGrid width height cell = some pushed) : pushed.length = height*width := by
  obtain ⟨rows,hrows,rfl⟩ := Option.map_eq_some_iff.mp h
  have hwidth : ∀ row ∈ rows, row.length = width := by
    intro row hrow
    obtain ⟨y,_,hy⟩ := mapM_mem _ _ rows hrows row hrow
    rw [mapM_length _ _ row hy,List.length_range]
  rw [flatten_length width rows hwidth,mapM_length _ _ rows hrows,List.length_range]

end Grid

end Zamak.RowMajor
