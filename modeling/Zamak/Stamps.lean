import Mathlib.Data.List.Basic

/-! # Pictures made of stamps

A picture gives some places a colour. A stamp puts colours on a rectangle of places and
leaves the ones it has no colour for. Stamps side by side, below each other and on top of
each other are stamps again; nested loops over columns and rows put down one stamp. -/

set_option autoImplicit false

namespace Zamak.Stamps

abbrev Picture (C : Type*) := ℕ → ℕ → Option C

variable {C : Type*}

structure Stamp (C : Type*) where
  x : ℕ
  y : ℕ
  width : ℕ
  height : ℕ
  color : ℕ → ℕ → Option C

def Stamp.on (s : Stamp C) (p : Picture C) : Picture C := fun i j =>
  if s.x ≤ i ∧ i < s.x+s.width ∧ s.y ≤ j ∧ j < s.y+s.height then
    (s.color (i-s.x) (j-s.y)).or (p i j)
  else p i j

def cell (x y : ℕ) (color : Option C) : Stamp C :=
  { x := x, y := y, width := 1, height := 1, color := fun _ _ => color }

def stampAll (stamps : List (Stamp C)) (p : Picture C) : Picture C :=
  stamps.foldl (fun p s => s.on p) p

theorem on_inside (s : Stamp C) (p : Picture C) (i j : ℕ) (hx : s.x ≤ i ∧ i < s.x+s.width)
    (hy : s.y ≤ j ∧ j < s.y+s.height) : s.on p i j = (s.color (i-s.x) (j-s.y)).or (p i j) :=
  if_pos ⟨hx.1,hx.2,hy.1,hy.2⟩

theorem on_outside (s : Stamp C) (p : Picture C) (i j : ℕ)
    (h : ¬(s.x ≤ i ∧ i < s.x+s.width ∧ s.y ≤ j ∧ j < s.y+s.height)) : s.on p i j = p i j :=
  if_neg h

theorem cell_here (x y : ℕ) (color : Option C) (p : Picture C) :
    (cell x y color).on p x y = color.or (p x y) :=
  on_inside (cell x y color) p x y ⟨Nat.le_refl x,Nat.lt_succ_self x⟩
    ⟨Nat.le_refl y,Nat.lt_succ_self y⟩

theorem cell_elsewhere (x y : ℕ) (color : Option C) (p : Picture C) (i j : ℕ)
    (h : ¬(i = x ∧ j = y)) : (cell x y color).on p i j = p i j := by
  apply on_outside
  simp only [cell]
  omega

theorem cell_none (x y : ℕ) (p : Picture C) : (cell x y none).on p = p := by
  funext i j
  by_cases h : i = x ∧ j = y
  · obtain ⟨rfl,rfl⟩ := h
    rw [cell_here]
    rfl
  · exact cell_elsewhere x y none p i j h

theorem on_empty (s : Stamp C) (p : Picture C) (h : s.width = 0 ∨ s.height = 0) : s.on p = p := by
  funext i j
  apply on_outside
  omega

theorem on_congr (x y w h : ℕ) (color color' : ℕ → ℕ → Option C) (p : Picture C)
    (hsame : ∀ dx < w, ∀ dy < h, color dx dy = color' dx dy) :
    Stamp.on ⟨x,y,w,h,color⟩ p = Stamp.on ⟨x,y,w,h,color'⟩ p := by
  funext i j
  simp only [Stamp.on]
  by_cases hin : x ≤ i ∧ i < x+w ∧ y ≤ j ∧ j < y+h
  · rw [if_pos hin,if_pos hin,hsame (i-x) (by omega) (j-y) (by omega)]
  · rw [if_neg hin,if_neg hin]

section Split
variable (x y w h : ℕ) (color : ℕ → ℕ → Option C) (p : Picture C)

theorem on_beside (n : ℕ) :
    Stamp.on ⟨x,y,w+n,h,color⟩ p =
      Stamp.on ⟨x+w,y,n,h,fun dx dy => color (dx+w) dy⟩ (Stamp.on ⟨x,y,w,h,color⟩ p) := by
  funext i j
  simp only [Stamp.on]
  by_cases hleft : x ≤ i ∧ i < x+w ∧ y ≤ j ∧ j < y+h
  · rw [if_pos (by omega),if_neg (by omega),if_pos hleft]
  · by_cases hright : x+w ≤ i ∧ i < x+w+n ∧ y ≤ j ∧ j < y+h
    · have hcolumn : i-(x+w)+w = i-x := by omega
      rw [if_pos (by omega),if_pos hright,if_neg hleft,hcolumn]
    · rw [if_neg (by omega),if_neg hright,if_neg hleft]

theorem on_below (n : ℕ) :
    Stamp.on ⟨x,y,w,h+n,color⟩ p =
      Stamp.on ⟨x,y+h,w,n,fun dx dy => color dx (dy+h)⟩ (Stamp.on ⟨x,y,w,h,color⟩ p) := by
  funext i j
  simp only [Stamp.on]
  by_cases htop : x ≤ i ∧ i < x+w ∧ y ≤ j ∧ j < y+h
  · rw [if_pos (by omega),if_neg (by omega),if_pos htop]
  · by_cases hbottom : x ≤ i ∧ i < x+w ∧ y+h ≤ j ∧ j < y+h+n
    · have hrow : j-(y+h)+h = j-y := by omega
      rw [if_pos (by omega),if_pos hbottom,if_neg htop,hrow]
    · rw [if_neg (by omega),if_neg hbottom,if_neg htop]

theorem on_over (upper : ℕ → ℕ → Option C) :
    Stamp.on ⟨x,y,w,h,upper⟩ (Stamp.on ⟨x,y,w,h,color⟩ p) =
      Stamp.on ⟨x,y,w,h,fun dx dy => (upper dx dy).or (color dx dy)⟩ p := by
  funext i j
  simp only [Stamp.on]
  by_cases hin : x ≤ i ∧ i < x+w ∧ y ≤ j ∧ j < y+h
  · rw [if_pos hin,if_pos hin,if_pos hin,Option.or_assoc]
  · rw [if_neg hin,if_neg hin,if_neg hin]

end Split

/-! ## Loops -/

section Loops
variable {M : Type*} (Shows : M → Picture C → Prop)

def Puts (step : M → Option M) (x y : ℕ) (color : Option C) : Prop :=
  ∀ m p, Shows m p → ∃ m', step m = some m' ∧ Shows m' ((cell x y color).on p)

variable {Shows}

theorem row_shows (step : ℕ → M → Option M) (x y w : ℕ) (color : ℕ → Option C)
    (hstep : ∀ dx < w, Puts Shows (step dx) (x+dx) y (color dx)) (m : M) (p : Picture C)
    (hm : Shows m p) :
    ∃ m', (List.range w).foldlM (fun m dx => step dx m) m = some m' ∧
      Shows m' (Stamp.on ⟨x,y,w,1,fun dx _ => color dx⟩ p) := by
  induction w with
  | zero =>
    refine ⟨m,rfl,?_⟩
    rw [on_empty _ _ (Or.inl rfl)]
    exact hm
  | succ w ih =>
    obtain ⟨m',hrun,hshows⟩ := ih fun dx hdx => hstep dx (Nat.lt_succ_of_lt hdx)
    obtain ⟨m'',hlast,hshows'⟩ := hstep w (Nat.lt_succ_self w) m' _ hshows
    refine ⟨m'',?_,?_⟩
    · rw [List.range_succ,List.foldlM_append,hrun,Option.bind_eq_bind,Option.bind_some,
        List.foldlM_cons,hlast]
      rfl
    · rw [on_beside]
      have hcolumn : ∀ dx < 1, ∀ dy < 1, color (dx+w) = color w := by
        intro dx hdx _ _
        rw [show dx+w = w by omega]
      rw [on_congr (x+w) y 1 1 _ (fun _ _ => color w) _ hcolumn]
      exact hshows'

theorem grid_shows (step : ℕ → ℕ → M → Option M) (x y w h : ℕ) (color : ℕ → ℕ → Option C)
    (hstep : ∀ dy < h, ∀ dx < w, Puts Shows (step dx dy) (x+dx) (y+dy) (color dx dy)) (m : M)
    (p : Picture C) (hm : Shows m p) :
    ∃ m', (List.range h).foldlM
        (fun m dy => (List.range w).foldlM (fun m dx => step dx dy m) m) m = some m' ∧
      Shows m' (Stamp.on ⟨x,y,w,h,color⟩ p) := by
  induction h with
  | zero =>
    refine ⟨m,rfl,?_⟩
    rw [on_empty _ _ (Or.inr rfl)]
    exact hm
  | succ h ih =>
    obtain ⟨m',hrun,hshows⟩ := ih fun dy hdy => hstep dy (Nat.lt_succ_of_lt hdy)
    obtain ⟨m'',hlast,hshows'⟩ := row_shows (fun dx => step dx h) x (y+h) w
      (fun dx => color dx h) (hstep h (Nat.lt_succ_self h)) m' _ hshows
    refine ⟨m'',?_,?_⟩
    · rw [List.range_succ,List.foldlM_append,hrun,Option.bind_eq_bind,Option.bind_some,
        List.foldlM_cons,hlast]
      rfl
    · rw [on_below]
      have hline : ∀ dx < w, ∀ dy < 1, color dx (dy+h) = color dx h := by
        intro dx _ dy hdy
        rw [show dy+h = h by omega]
      rw [on_congr x (y+h) w 1 _ (fun dx _ => color dx h) _ hline]
      exact hshows'

end Loops

end Zamak.Stamps
