import Mathlib.Data.List.Basic

/-! # First windows and overwritten ranges

The first place a pattern occurs in a list, and a list with a range of it
overwritten. A write that starts past the end of the first occurrence leaves the
search where it was, whatever is written. -/

set_option autoImplicit false

namespace Zamak.WindowSearch

variable {α : Type*}

def windows (n : ℕ) (l : List α) : List (List α) :=
  (List.range (l.length+1-n)).map fun i => (l.drop i).take n

def position [DecidableEq α] (pattern l : List α) : Option ℕ :=
  (windows pattern.length l).findIdx? fun w => decide (w = pattern)

/-- The list with the range from `pos` on overwritten. -/
def splice (l : List α) (pos : ℕ) (new : List α) : List α :=
  l.take pos++new++l.drop (pos+new.length)

theorem position_eq_some_iff [DecidableEq α] (pattern l : List α) (k : ℕ) :
    position pattern l = some k ↔
      k+pattern.length ≤ l.length ∧ (l.drop k).take pattern.length = pattern ∧
        ∀ j < k, (l.drop j).take pattern.length ≠ pattern := by
  unfold position
  rw [List.findIdx?_eq_some_iff_getElem]
  constructor
  · rintro ⟨hk,hp,hfirst⟩
    simp only [windows,List.length_map,List.length_range] at hk
    refine ⟨by omega,by simpa [windows] using hp,?_⟩
    intro j hj
    simpa [windows] using hfirst j hj
  · rintro ⟨hk,hp,hfirst⟩
    have hlt : k < (windows pattern.length l).length := by
      simp only [windows,List.length_map,List.length_range]
      omega
    refine ⟨hlt,by simpa [windows] using hp,?_⟩
    intro j hj
    simpa [windows] using hfirst j hj

theorem position_exists [DecidableEq α] (pattern l : List α) (k : ℕ)
    (hk : k+pattern.length ≤ l.length) (hp : (l.drop k).take pattern.length = pattern) :
    ∃ first ≤ k, position pattern l = some first := by
  induction k using Nat.strongRecOn with
  | ind k ih =>
    by_cases he : ∃ j < k, (l.drop j).take pattern.length = pattern
    · obtain ⟨j,hj,hjp⟩ := he
      obtain ⟨first,hle,hf⟩ := ih j hj (by omega) hjp
      exact ⟨first,by omega,hf⟩
    · refine ⟨k,Nat.le_refl k,(position_eq_some_iff pattern l k).mpr ⟨hk,hp,?_⟩⟩
      intro j hj hjp
      exact he ⟨j,hj,hjp⟩

theorem getD_window (l : List α) (start n i : ℕ) (d : α) (hi : i < n) :
    ((l.drop start).take n).getD i d = l.getD (start+i) d := by
  rw [List.getD_eq_getElem?_getD,List.getD_eq_getElem?_getD,List.getElem?_take_of_lt hi,
    List.getElem?_drop]

theorem getD_padded (l : List α) (n i : ℕ) (d : α) :
    (l++List.replicate n d).getD i d = l.getD i d := by
  rw [List.getD_eq_getElem?_getD,List.getD_eq_getElem?_getD]
  by_cases hi : i < l.length
  · rw [List.getElem?_append_left hi]
  · rw [List.getElem?_append_right (by omega),List.getElem?_eq_none (show l.length ≤ i by omega),
      List.getElem?_replicate]
    split <;> rfl

section Splice
variable (l new : List α) (pos : ℕ)

theorem splice_length (h : pos+new.length ≤ l.length) : (splice l pos new).length = l.length := by
  simp only [splice,List.length_append,List.length_take,List.length_drop]
  omega

theorem splice_take (h : pos ≤ l.length) : (splice l pos new).take pos = l.take pos := by
  have hlen : (l.take pos).length = pos := by simp [h]
  rw [splice,List.append_assoc,List.take_append_of_le_length (by omega),List.take_of_length_le]
  omega

theorem splice_drop (h : pos ≤ l.length) :
    (splice l pos new).drop (pos+new.length) = l.drop (pos+new.length) := by
  have hlen : (l.take pos++new).length = pos+new.length := by simp [h]
  rw [splice,List.drop_left' hlen]

theorem splice_before (h : pos ≤ l.length) (i : ℕ) (hi : i < pos) :
    (splice l pos new)[i]? = l[i]? := by
  rw [← List.getElem?_take_of_lt hi,splice_take l new pos h,List.getElem?_take_of_lt hi]

theorem splice_after (h : pos ≤ l.length) (i : ℕ) (hi : pos+new.length ≤ i) :
    (splice l pos new)[i]? = l[i]? := by
  have hlen : (l.take pos++new).length = pos+new.length := by simp [h]
  rw [splice,List.getElem?_append_right (by omega),hlen,List.getElem?_drop]
  congr 1
  omega

theorem splice_within (h : pos ≤ l.length) (i : ℕ) (hi : i < new.length) :
    (splice l pos new)[pos+i]? = new[i]? := by
  have hlen : (l.take pos).length = pos := by simp [h]
  rw [splice,List.append_assoc,List.getElem?_append_right (by omega),hlen,
    List.getElem?_append_left (by omega)]
  congr 1
  omega

theorem splice_cons (x : α) (h : pos < l.length) :
    splice (l.set pos x) (pos+1) new = splice l pos (x::new) := by
  have htake : (l.set pos x).take (pos+1) = l.take pos++[x] := by
    rw [List.take_set,List.take_succ_eq_append_getElem h,
      List.set_append_right _ _ (List.length_take_le _ _)]
    simp [Nat.min_eq_left (Nat.le_of_lt h)]
  have hdrop : (l.set pos x).drop (pos+1+new.length) = l.drop (pos+(x::new).length) := by
    rw [List.drop_set_of_lt (by omega),List.length_cons]
    congr 1
    omega
  rw [splice,htake,hdrop,splice]
  simp

theorem splice_nil : splice l pos [] = l := by
  rw [splice,List.append_nil,List.length_nil,Nat.add_zero,List.take_append_drop]

theorem splice_upto (h : pos ≤ l.length) :
    (splice l pos new).take (pos+new.length) = l.take pos++new := by
  have hlen : (l.take pos++new).length = pos+new.length := by simp [h]
  rw [splice,List.take_append_of_le_length (by omega),List.take_of_length_le (by omega)]

theorem splice_append (more : List α) (h : pos+new.length ≤ l.length) :
    splice (splice l pos new) (pos+new.length) more = splice l pos (new++more) := by
  have hlen : (l.take pos++new).length = pos+new.length := by
    rw [List.length_append,List.length_take]
    omega
  have hdrop : (splice l pos new).drop (pos+new.length+more.length) =
      l.drop (pos+(new++more).length) := by
    rw [splice,List.drop_append,hlen,List.drop_of_length_le (by omega),List.nil_append,
      List.drop_drop,List.length_append]
    congr 1
    omega
  rw [splice,splice_upto l new pos (by omega),hdrop,splice,List.append_assoc (l.take pos) new more]

theorem splice_read (h : pos ≤ l.length) :
    ((splice l pos new).drop pos).take new.length = new := by
  have hlen : (l.take pos).length = pos := by simp [h]
  rw [splice,List.append_assoc,List.drop_append_of_le_length (by omega),
    List.drop_of_length_le (by omega),List.nil_append,List.take_append_of_le_length (Nat.le_refl _),
    List.take_length]

theorem splice_splice (other : List α) (h : pos ≤ l.length)
    (hlen : other.length = new.length) :
    splice (splice l pos other) pos new = splice l pos new := by
  have hl : (l.take pos++other).length = pos+new.length := by simp [h,hlen]
  have hdrop : (splice l pos other).drop (pos+new.length) = l.drop (pos+new.length) := by
    rw [splice,List.drop_append_of_le_length (by omega),List.drop_of_length_le (by omega),
      List.nil_append,hlen]
  rw [splice,splice_take l other pos h,hdrop]
  rfl

theorem splice_self (h : (l.drop pos).take new.length = new) : splice l pos new = l := by
  have htake : (l.drop pos).take new.length++(l.drop pos).drop new.length = l.drop pos :=
    List.take_append_drop _ _
  rw [h,List.drop_drop] at htake
  rw [splice,List.append_assoc,htake,List.take_append_drop]

theorem splice_window (h : pos ≤ l.length) (i n : ℕ) (hi : i+n ≤ pos) :
    ((splice l pos new).drop i).take n = (l.drop i).take n := by
  have hcut : ∀ m : List α, (m.drop i).take n = ((m.take pos).drop i).take n := by
    intro m
    rw [List.drop_take,List.take_take,Nat.min_eq_left (by omega)]
  rw [hcut,splice_take l new pos h,← hcut]

theorem splice_window_behind (h : pos ≤ l.length) (i n : ℕ) (hi : pos+new.length ≤ i) :
    ((splice l pos new).drop i).take n = (l.drop i).take n := by
  have hlen : (l.take pos++new).length = pos+new.length := by simp [h]
  rw [splice,List.drop_append,hlen,List.drop_of_length_le (by omega),List.nil_append,
    List.drop_drop]
  congr 2
  omega

theorem position_splice [DecidableEq α] (pattern : List α) (k : ℕ)
    (hk : position pattern l = some k) (hpos : k+pattern.length ≤ pos)
    (hend : pos+new.length ≤ l.length) :
    position pattern (splice l pos new) = some k := by
  rw [position_eq_some_iff] at hk ⊢
  obtain ⟨hlen,hp,hfirst⟩ := hk
  refine ⟨by rw [splice_length l new pos hend]; exact hlen,?_,?_⟩
  · rw [splice_window l new pos (by omega) k _ hpos]
    exact hp
  · intro j hj
    rw [splice_window l new pos (by omega) j _ (by omega)]
    exact hfirst j hj

end Splice

end Zamak.WindowSearch
