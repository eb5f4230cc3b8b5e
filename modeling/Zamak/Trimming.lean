import Mathlib.Data.List.DropRight
import Mathlib.Data.List.TakeWhile

/-! # Trimming a list at both ends

Dropping the elements of a class from both ends of a list, and cutting a list at the
first element of another class. What lies in the trimmed class may be added at either
end without changing the result, and a cut never falls inside it when the classes are
disjoint. -/

set_option autoImplicit false

namespace Zamak.Trimming

variable {α : Type} (p q : α → Bool)

def strip (s : List α) : List α := (s.dropWhile p).rdropWhile p

theorem rdropWhile_append (s w : List α) (h : ∀ c ∈ w, p c = true) :
    (s++w).rdropWhile p = s.rdropWhile p := by
  induction w using List.reverseRecOn with
  | nil => rw [List.append_nil]
  | append_singleton w c ih =>
    have hc : p c = true := h c (by simp)
    rw [← List.append_assoc,List.rdropWhile_concat_pos _ _ _ hc]
    exact ih fun x hx => h x (by simp [hx])

theorem dropWhile_all (w : List α) (h : ∀ c ∈ w, p c = true) : w.dropWhile p = [] := by
  rwa [List.dropWhile_eq_nil_iff]

theorem strip_append_right (s w : List α) (h : ∀ c ∈ w, p c = true) :
    strip p (s++w) = strip p s := by
  unfold strip
  rw [List.dropWhile_append]
  split
  · rename_i hnil
    rw [dropWhile_all p w h,List.isEmpty_iff.mp hnil]
  · exact rdropWhile_append p _ w h

theorem strip_append_left (w s : List α) (h : ∀ c ∈ w, p c = true) :
    strip p (w++s) = strip p s := by
  unfold strip
  rw [List.dropWhile_append_of_pos h]

theorem strip_split (s : List α) :
    ∃ before after, s = before++strip p s++after ∧ (∀ c ∈ before, p c = true) ∧
      ∀ c ∈ after, p c = true := by
  refine ⟨s.takeWhile p,(s.dropWhile p).rtakeWhile p,?_,?_,?_⟩
  · rw [List.append_assoc]
    unfold strip
    rw [List.rdropWhile_append_rtakeWhile,List.takeWhile_append_dropWhile]
  · exact fun c hc => List.mem_takeWhile_imp hc
  · exact fun c hc => List.mem_rtakeWhile_imp hc

theorem head?_of_append (s w : List α) (c : α) (h : s.head? = some c) :
    (s++w).head? = some c := by
  cases s with
  | nil => cases h
  | cons x s => exact h

theorem strip_head (s : List α) (c : α) (h : (strip p s).head? = some c) : p c = false := by
  obtain ⟨after,hafter⟩ := List.rdropWhile_prefix p (s.dropWhile p)
  have hhead := head?_of_append _ after c h
  unfold strip at hhead
  rw [hafter] at hhead
  have hnot := List.head?_dropWhile_not p s
  rw [hhead] at hnot
  exact hnot

theorem strip_last (s : List α) (c : α) (h : (strip p s).getLast? = some c) : p c = false := by
  have hne : (s.dropWhile p).rdropWhile p ≠ [] := by
    intro hnil
    rw [strip,hnil] at h
    cases h
  have hlast := List.rdropWhile_last_not p _ hne
  have hsome := List.getLast?_eq_some_getLast hne
  rw [strip,hsome] at h
  rw [Option.some.inj h] at hlast
  simpa using hlast

theorem strip_self (s : List α) (hfirst : ∀ c, s.head? = some c → p c = false)
    (hlast : ∀ c, s.getLast? = some c → p c = false) : strip p s = s := by
  have hfront : s.dropWhile p = s := by
    cases s with
    | nil => rfl
    | cons c s => exact List.dropWhile_cons_of_neg (by simp [hfirst c rfl])
  rw [strip,hfront,List.rdropWhile_eq_self_iff]
  intro hne hblank
  rw [hlast _ (List.getLast?_eq_some_getLast hne)] at hblank
  cases hblank

theorem rdropWhile_head (s : List α) (c : α) (h : s.head? = some c) (hc : p c = false) :
    (s.rdropWhile p).head? = some c := by
  have hsplit : s.rdropWhile p++s.rtakeWhile p = s := List.rdropWhile_append_rtakeWhile
  cases hdrop : s.rdropWhile p with
  | nil =>
    rw [hdrop,List.nil_append] at hsplit
    rw [← hsplit] at h
    have := List.mem_rtakeWhile_imp (List.mem_of_mem_head? h)
    simp [hc] at this
  | cons x rest =>
    rw [← hsplit,hdrop] at h
    exact h

theorem strip_of_head (s : List α) (c : α) (h : s.head? = some c) (hc : p c = false) :
    ∃ after, s = strip p s++after ∧ (∀ x ∈ after, p x = true) ∧ (strip p s).head? = some c := by
  have hfront : s.dropWhile p = s := by
    cases s with
    | nil => cases h
    | cons x s =>
      obtain rfl : x = c := by simpa using h
      exact List.dropWhile_cons_of_neg (by simp [hc])
  unfold strip
  rw [hfront]
  exact ⟨s.rtakeWhile p,List.rdropWhile_append_rtakeWhile.symm,
    fun x hx => List.mem_rtakeWhile_imp hx,rdropWhile_head p s c h hc⟩

theorem takeWhile_append_stop (s w : List α) (h : ∀ c ∈ w, q c = false) :
    (s++w).takeWhile q = s.takeWhile q := by
  rw [List.takeWhile_append]
  split
  · rename_i hall
    have hself : s.takeWhile q = s := (List.takeWhile_prefix q).eq_of_length hall
    cases w with
    | nil => rw [List.takeWhile_nil,List.append_nil,hself]
    | cons c w => rw [List.takeWhile_cons_of_neg (by simp [h c]),List.append_nil,hself]
  · rfl

/-- A cut and a trim: what is added in the trimmed class and does not stop the cut
makes no difference. -/
theorem strip_takeWhile (before s after : List α)
    (hbefore : ∀ c ∈ before, p c = true ∧ q c = true) (hafter : ∀ c ∈ after, p c = true) :
    strip p ((before++s++after).takeWhile q) = strip p (s.takeWhile q) := by
  rw [List.append_assoc,List.takeWhile_append_of_pos fun c hc => (hbefore c hc).2,
    strip_append_left p _ _ fun c hc => (hbefore c hc).1,List.takeWhile_append]
  split
  · rename_i hall
    have hself : s.takeWhile q = s := (List.takeWhile_prefix q).eq_of_length hall
    rw [hself]
    exact strip_append_right p s _ fun c hc => hafter c ((List.takeWhile_prefix q).subset hc)
  · rfl

theorem takeWhile_cut (s rest : List α) (c : α) (hs : ∀ x ∈ s, q x = true) (hc : q c = false) :
    (s++c::rest).takeWhile q = s := by
  rw [List.takeWhile_append_of_pos hs,List.takeWhile_cons_of_neg (by simp [hc]),List.append_nil]

theorem cut_inj {s s' rest rest' : List α} {c c' : α} (hs : ∀ x ∈ s, q x = true)
    (hs' : ∀ x ∈ s', q x = true) (hc : q c = false) (hc' : q c' = false)
    (h : s++c::rest = s'++c'::rest') : s = s' ∧ c = c' ∧ rest = rest' := by
  have hsame : s = s' := by
    rw [← takeWhile_cut q s rest c hs hc,h,takeWhile_cut q s' rest' c' hs' hc']
  subst hsame
  have htail := List.append_cancel_left h
  exact ⟨rfl,(List.cons.inj htail).1,(List.cons.inj htail).2⟩

end Zamak.Trimming
