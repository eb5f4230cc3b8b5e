import Zamak.Trimming

/-! # Forests written by indentation

A forest is written line by line, a node in front of its children and the children one
level deeper. The levels of the lines tell the forest. On a page the level is that many
units of padding in front of the label; labels that begin with something else and stay on
one line are read back with their levels, so the page tells the forest too. -/

set_option autoImplicit false

namespace Zamak.IndentedForests
open Zamak.Trimming

inductive Forest (α : Type) where
  | nil
  | cons (label : α) (children rest : Forest α)

namespace Forest
variable {α : Type}

def lines : ℕ → Forest α → List (ℕ × α)
  | _, .nil => []
  | d, .cons a c r => (d,a)::(lines (d+1) c++lines d r)

def All (p : α → Prop) : Forest α → Prop
  | .nil => True
  | .cons a c r => p a ∧ All p c ∧ All p r

theorem lines_deep (f : Forest α) (d : ℕ) : ∀ l ∈ f.lines d, d ≤ l.1 := by
  induction f generalizing d with
  | nil => simp [lines]
  | cons a c r ihc ihr =>
    intro l hl
    rcases List.mem_cons.mp hl with rfl | hl
    · exact Nat.le_refl d
    · rcases List.mem_append.mp hl with hl | hl
      · exact Nat.le_of_succ_le (ihc (d+1) l hl)
      · exact ihr d l hl

theorem lines_all (p : α → Prop) (f : Forest α) (hf : f.All p) (d : ℕ) :
    ∀ l ∈ f.lines d, p l.2 := by
  induction f generalizing d with
  | nil => simp [lines]
  | cons a c r ihc ihr =>
    intro l hl
    rcases List.mem_cons.mp hl with rfl | hl
    · exact hf.1
    · rcases List.mem_append.mp hl with hl | hl
      · exact ihc hf.2.1 (d+1) l hl
      · exact ihr hf.2.2 d l hl

/-- The children of a node are the lines up to the next one that is not deeper. -/
theorem takeWhile_children (c r : Forest α) (d : ℕ) :
    (c.lines (d+1)++r.lines d).takeWhile (fun l => decide (d < l.1)) = c.lines (d+1) := by
  have hdeep : ∀ l ∈ c.lines (d+1), decide (d < l.1) = true :=
    fun l hl => decide_eq_true (lines_deep c (d+1) l hl)
  cases r with
  | nil =>
    rw [lines,List.append_nil]
    exact List.takeWhile_eq_self_iff.mpr hdeep
  | cons a c' r' => exact takeWhile_cut _ _ _ (d,a) hdeep (decide_eq_false (Nat.lt_irrefl d))

theorem lines_inj (f g : Forest α) (d : ℕ) (h : f.lines d = g.lines d) : f = g := by
  induction f generalizing g d with
  | nil =>
    cases g with
    | nil => rfl
    | cons a c r => cases h
  | cons a c r ihc ihr =>
    cases g with
    | nil => cases h
    | cons a' c' r' =>
      obtain ⟨hlabel,htail⟩ := List.cons.inj h
      have hchildren : c.lines (d+1) = c'.lines (d+1) := by
        rw [← takeWhile_children c r d,htail,takeWhile_children c' r' d]
      have hrest : r.lines d = r'.lines d := by
        rw [hchildren] at htail
        exact List.append_cancel_left htail
      rw [(Prod.mk.inj hlabel).2,ihc c' (d+1) hchildren,ihr r' d hrest]

end Forest

section Page
variable {α : Type} (pad newline : α) (unit : ℕ)

def Visible (label : List α) : Prop :=
  (∃ c t, label = c::t ∧ c ≠ pad) ∧ ∀ c ∈ label, c ≠ newline

def pageLine (l : ℕ × List α) : List α := List.replicate (unit*l.1) pad++l.2++[newline]

def page (ls : List (ℕ × List α)) : List α := ls.flatMap (pageLine pad newline unit)

theorem page_cons (l : ℕ × List α) (ls : List (ℕ × List α)) :
    page pad newline unit (l::ls) = pageLine pad newline unit l++page pad newline unit ls :=
  List.flatMap_cons

theorem page_append (ls ms : List (ℕ × List α)) :
    page pad newline unit (ls++ms) = page pad newline unit ls++page pad newline unit ms :=
  List.flatMap_append

variable {pad newline unit}

theorem padding_inj {n m : ℕ} {a b : List α} (ha : Visible pad newline a)
    (hb : Visible pad newline b)
    (h : List.replicate n pad++a = List.replicate m pad++b) : n = m ∧ a = b := by
  obtain ⟨⟨c,t,rfl,hc⟩,-⟩ := ha
  obtain ⟨⟨c',t',rfl,hc'⟩,-⟩ := hb
  classical
  have hcut := cut_inj (fun x => decide (x = pad))
    (fun x hx => decide_eq_true (List.eq_of_mem_replicate hx))
    (fun x hx => decide_eq_true (List.eq_of_mem_replicate hx)) (decide_eq_false hc)
    (decide_eq_false hc') h
  have hlength := congrArg List.length hcut.1
  rw [List.length_replicate,List.length_replicate] at hlength
  rw [hlength,hcut.2.1,hcut.2.2]
  exact ⟨rfl,rfl⟩

theorem pageLine_inj {l m : ℕ × List α} {rest rest' : List α} (hpad : pad ≠ newline)
    (hunit : 0 < unit) (hl : Visible pad newline l.2) (hm : Visible pad newline m.2)
    (h : pageLine pad newline unit l++rest = pageLine pad newline unit m++rest') :
    l = m ∧ rest = rest' := by
  classical
  have hline : ∀ k : ℕ × List α, Visible pad newline k.2 →
      ∀ x ∈ List.replicate (unit*k.1) pad++k.2, decide (x ≠ newline) = true := by
    intro k hk x hx
    rcases List.mem_append.mp hx with hx | hx
    · rw [List.eq_of_mem_replicate hx]
      exact decide_eq_true hpad
    · exact decide_eq_true (hk.2 x hx)
  have hnewline : decide (newline ≠ newline) = false := decide_eq_false fun hne => hne rfl
  simp only [pageLine,List.append_assoc,List.cons_append,List.nil_append] at h
  rw [← List.append_assoc,← List.append_assoc] at h
  have hcut := cut_inj _ (hline l hl) (hline m hm) hnewline hnewline h
  have hpadding := padding_inj hl hm hcut.1
  exact ⟨Prod.ext (Nat.eq_of_mul_eq_mul_left hunit hpadding.1) hpadding.2,hcut.2.2⟩

theorem page_inj (hpad : pad ≠ newline) (hunit : 0 < unit) (ls ms : List (ℕ × List α))
    (hls : ∀ l ∈ ls, Visible pad newline l.2) (hms : ∀ l ∈ ms, Visible pad newline l.2)
    (h : page pad newline unit ls = page pad newline unit ms) : ls = ms := by
  have hempty : ∀ (l : ℕ × List α) ks, page pad newline unit (l::ks) ≠ [] := by
    intro l ks hnil
    rw [page_cons,pageLine] at hnil
    simp at hnil
  induction ls generalizing ms with
  | nil =>
    cases ms with
    | nil => rfl
    | cons m ms => exact (hempty m ms h.symm).elim
  | cons l ls ih =>
    cases ms with
    | nil => exact (hempty l ls h).elim
    | cons m ms =>
      rw [page_cons,page_cons] at h
      obtain ⟨hl,hrest⟩ := pageLine_inj hpad hunit (hls l (List.mem_cons_self ..))
        (hms m (List.mem_cons_self ..)) h
      rw [hl,ih ms (fun k hk => hls k (List.mem_cons_of_mem l hk))
        (fun k hk => hms k (List.mem_cons_of_mem m hk)) hrest]

theorem page_lines_inj (hpad : pad ≠ newline) (hunit : 0 < unit) (f g : Forest (List α))
    (hf : f.All (Visible pad newline)) (hg : g.All (Visible pad newline)) (d : ℕ)
    (h : page pad newline unit (f.lines d) = page pad newline unit (g.lines d)) : f = g :=
  Forest.lines_inj f g d (page_inj hpad hunit _ _ (Forest.lines_all _ f hf d)
    (Forest.lines_all _ g hg d) h)

end Page

end Zamak.IndentedForests
