import Mathlib.Data.List.GetD
import Zamak.WindowSearch

/-! # Segments of a stored sequence

A store holds an item at every place. A stretch is a run of them, and a buffer that takes
one stretch after the other from its front holds one long stretch and what it held behind
it. -/

set_option autoImplicit false

namespace Zamak.Segments
open Zamak.WindowSearch

variable {α : Type*} (store : ℕ → α)

def stretch (start count : ℕ) : List α := (List.range count).map fun k => store (start+k)

theorem stretch_length (start count : ℕ) : (stretch store start count).length = count := by
  rw [stretch,List.length_map,List.length_range]

theorem stretch_zero (start : ℕ) : stretch store start 0 = [] := rfl

theorem stretch_append (start m n : ℕ) :
    stretch store start m++stretch store (start+m) n = stretch store start (m+n) := by
  rw [stretch,stretch,stretch,List.range_add,List.map_append,List.map_map]
  congr 1
  apply List.map_congr_left
  intro k _
  rw [Function.comp_apply,Nat.add_assoc]

theorem stretch_take (start count n : ℕ) (h : n ≤ count) :
    (stretch store start count).take n = stretch store start n := by
  rw [stretch,← List.map_take,List.take_range,Nat.min_eq_left h,stretch]

theorem stretch_drop (start count n : ℕ) :
    (stretch store start count).drop n = stretch store (start+n) (count-n) := by
  by_cases h : n ≤ count
  · have hsplit := stretch_append store start n (count-n)
    rw [show n+(count-n) = count by omega] at hsplit
    rw [← hsplit,List.drop_left' (stretch_length store start n)]
  · have hnone : count-n = 0 := by omega
    rw [List.drop_of_length_le (by rw [stretch_length]; omega),hnone,stretch_zero]

theorem stretch_window (start count pos n : ℕ) (h : pos+n ≤ count) :
    ((stretch store start count).drop pos).take n = stretch store (start+pos) n := by
  rw [stretch_drop,stretch_take store _ _ n (by omega)]

theorem stretch_congr (other : ℕ → α) (start start' count : ℕ)
    (h : ∀ k < count, store (start+k) = other (start'+k)) :
    stretch store start count = stretch other start' count := by
  apply List.map_congr_left
  intro k hk
  exact h k (List.mem_range.mp hk)

def fill (start count : ℕ) (l : List α) : List α := splice l 0 (stretch store start count)

theorem fill_zero (start : ℕ) (l : List α) : fill store start 0 l = l := splice_nil l 0

theorem fill_eq (start count : ℕ) (l : List α) :
    fill store start count l = stretch store start count++l.drop count := by
  rw [fill,splice,List.take_zero,List.nil_append,Nat.zero_add,stretch_length]

theorem fill_length (start count : ℕ) (l : List α) (h : count ≤ l.length) :
    (fill store start count l).length = l.length :=
  splice_length l _ 0 (by rw [stretch_length]; omega)

theorem splice_fill (start m n : ℕ) (l : List α) (h : m ≤ l.length) :
    splice (fill store start m l) m (stretch store (start+m) n) = fill store start (m+n) l := by
  have happend := splice_append l (stretch store start m) 0 (stretch store (start+m) n)
    (by rw [stretch_length]; omega)
  rw [stretch_length,Nat.zero_add,stretch_append] at happend
  exact happend

/-- A list that differs from another one in its first places only. -/
structure WrittenTo (n : ℕ) (l l' : List α) : Prop where
  length_eq : l'.length = l.length
  behind : l'.drop n = l.drop n

theorem writtenTo_none (l : List α) : WrittenTo 0 l l := ⟨rfl,rfl⟩

theorem writtenTo_splice (n : ℕ) (l l' new : List α) (h : WrittenTo n l l')
    (hroom : n+new.length ≤ l.length) : WrittenTo (n+new.length) l (splice l' n new) where
  length_eq := by
    rw [splice_length _ _ _ (by rw [h.length_eq]; exact hroom),h.length_eq]
  behind := by
    have hle : n ≤ l'.length := by rw [h.length_eq]; omega
    rw [splice_drop l' new n hle,← List.drop_drop,h.behind,List.drop_drop]

def stored (rest : α) (l : List α) (place : ℕ) : α := l.getD place rest

theorem stretch_stored (rest : α) (before l after : List α) :
    stretch (stored rest (before++(l++after))) before.length l.length = l := by
  apply List.ext_getElem
  · rw [stretch_length]
  · intro i hi hi'
    simp only [stretch,stored,List.getElem_map,List.getElem_range]
    rw [List.getD_append_right _ _ _ _ (Nat.le_add_right _ i),Nat.add_sub_cancel_left,
      List.getD_append _ _ _ _ hi',List.getD_eq_getElem _ _ hi']

theorem flatten_length (blocks : List (List α)) (size : ℕ)
    (hsize : ∀ b ∈ blocks, b.length = size) : blocks.flatten.length = blocks.length*size := by
  induction blocks with
  | nil => simp
  | cons b blocks ih =>
    have hrest := ih fun c hc => hsize c (List.mem_cons_of_mem b hc)
    rw [List.flatten_cons,List.length_append,hsize b List.mem_cons_self,hrest,List.length_cons,
      Nat.succ_mul,Nat.add_comm]

theorem stretch_block (rest : α) (blocks : List (List α)) (size i : ℕ) (block : List α)
    (hsize : ∀ b ∈ blocks, b.length = size) (hi : blocks[i]? = some block) :
    stretch (stored rest blocks.flatten) (i*size) size = block := by
  obtain ⟨hlt,hget⟩ := List.getElem?_eq_some_iff.mp hi
  have hbefore : (blocks.take i).flatten.length = i*size := by
    rw [flatten_length _ size fun b hb => hsize b (List.mem_of_mem_take hb),List.length_take,
      Nat.min_eq_left (Nat.le_of_lt hlt)]
  have hsplit : blocks.flatten = (blocks.take i).flatten++(block++(blocks.drop (i+1)).flatten) := by
    rw [← hget,← List.flatten_cons,← List.drop_eq_getElem_cons hlt,← List.flatten_append,
      List.take_append_drop]
  have hblock := hsize block (List.mem_of_getElem? hi)
  have hstretch := stretch_stored rest (blocks.take i).flatten block (blocks.drop (i+1)).flatten
  rwa [hbefore,hblock,← hsplit] at hstretch

end Zamak.Segments
