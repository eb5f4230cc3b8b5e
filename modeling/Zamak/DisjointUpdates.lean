import Zamak.WindowSearch

/-! # Updates at places apart from each other

A site is a place of a list and a width. An update rewrites the window at a site from its
own contents, without changing its length. A sequence of updates at sites apart from each
other rewrites every one of these windows once and nothing else, and the updates with an
inverse undo it. -/

set_option autoImplicit false

namespace Zamak.DisjointUpdates
open Zamak.WindowSearch

variable {α : Type*}

def window (l : List α) (site : ℕ × ℕ) : List α := (l.drop site.1).take site.2

def Apart (s s' : ℕ × ℕ) : Prop := s.1+s.2 ≤ s'.1 ∨ s'.1+s'.2 ≤ s.1

instance (s s' : ℕ × ℕ) : Decidable (Apart s s') := inferInstanceAs (Decidable (_ ∨ _))

def Inside (site : ℕ × ℕ) (l : List α) : Prop := site.1+site.2 ≤ l.length

instance (site : ℕ × ℕ) (l : List α) : Decidable (Inside site l) :=
  inferInstanceAs (Decidable (_ ≤ _))

def update (f : List α → List α) (l : List α) (site : ℕ × ℕ) : List α :=
  splice l site.1 (f (window l site))

def updateAll (f : List α → List α) (sites : List (ℕ × ℕ)) (l : List α) : List α :=
  sites.foldl (update f) l

theorem window_length (l : List α) (site : ℕ × ℕ) (h : Inside site l) :
    (window l site).length = site.2 := by
  unfold Inside at h
  rw [window,List.length_take,List.length_drop]
  omega

theorem window_getElem (l : List α) (site : ℕ × ℕ) (i : ℕ) (hfrom : site.1 ≤ i)
    (hto : i < site.1+site.2) : (window l site)[i-site.1]? = l[i]? := by
  rw [window,List.getElem?_take_of_lt (by omega),List.getElem?_drop]
  congr 1
  omega

section Update
variable (f : List α → List α) (hf : ∀ w, (f w).length = w.length)

include hf in
theorem new_length (l : List α) (site : ℕ × ℕ) (h : Inside site l) :
    (f (window l site)).length = site.2 := by
  rw [hf,window_length l site h]

include hf in
theorem update_empty (l : List α) (place : ℕ) : update f l (place,0) = l := by
  have hnil : f (window l (place,0)) = [] := by
    apply List.eq_nil_of_length_eq_zero
    rw [hf,window,List.take_zero]
    rfl
  rw [update,hnil,splice_nil]

include hf in
theorem update_length (l : List α) (site : ℕ × ℕ) (h : Inside site l) :
    (update f l site).length = l.length := by
  apply splice_length
  rw [new_length f hf l site h]
  exact h

include hf in
theorem update_window (l : List α) (site : ℕ × ℕ) (h : Inside site l) :
    window (update f l site) site = f (window l site) := by
  have hlen := new_length f hf l site h
  have hread := splice_read l (f (window l site)) site.1 (Nat.le_of_add_right_le h)
  rw [hlen] at hread
  exact hread

include hf in
theorem update_apart (l : List α) (site other : ℕ × ℕ) (h : Inside site l)
    (hapart : Apart site other) : window (update f l site) other = window l other := by
  have hlen := new_length f hf l site h
  have hle : site.1 ≤ l.length := Nat.le_of_add_right_le h
  rcases hapart with hapart | hapart
  · apply splice_window_behind _ _ _ hle
    omega
  · exact splice_window _ _ _ hle _ _ hapart

include hf in
theorem updateAll_length (sites : List (ℕ × ℕ)) (l : List α) (h : ∀ s ∈ sites, Inside s l) :
    (updateAll f sites l).length = l.length := by
  induction sites generalizing l with
  | nil => rfl
  | cons s sites ih =>
    have hfirst := update_length f hf l s (h s List.mem_cons_self)
    rw [updateAll,List.foldl_cons,← updateAll,ih,hfirst]
    intro s' hs'
    rw [Inside,hfirst]
    exact h s' (List.mem_cons_of_mem s hs')

include hf in
theorem updateAll_apart (sites : List (ℕ × ℕ)) (l : List α) (other : ℕ × ℕ)
    (h : ∀ s ∈ sites, Inside s l) (hapart : ∀ s ∈ sites, Apart s other) :
    window (updateAll f sites l) other = window l other := by
  induction sites generalizing l with
  | nil => rfl
  | cons s sites ih =>
    have hs := h s List.mem_cons_self
    have hrest : ∀ s' ∈ sites, Inside s' (update f l s) := by
      intro s' hs'
      rw [Inside,update_length f hf l s hs]
      exact h s' (List.mem_cons_of_mem s hs')
    rw [updateAll,List.foldl_cons,← updateAll,
      ih _ hrest fun s' hs' => hapart s' (List.mem_cons_of_mem s hs'),
      update_apart f hf l s other hs (hapart s List.mem_cons_self)]

include hf in
theorem updateAll_site (sites : List (ℕ × ℕ)) (l : List α) (h : ∀ s ∈ sites, Inside s l)
    (hapart : sites.Pairwise Apart) (site : ℕ × ℕ) (hsite : site ∈ sites) :
    window (updateAll f sites l) site = f (window l site) := by
  induction sites generalizing l with
  | nil => cases hsite
  | cons s sites ih =>
    have hs := h s List.mem_cons_self
    obtain ⟨hfirst,hothers⟩ := List.pairwise_cons.mp hapart
    have hrest : ∀ s' ∈ sites, Inside s' (update f l s) := by
      intro s' hs'
      rw [Inside,update_length f hf l s hs]
      exact h s' (List.mem_cons_of_mem s hs')
    rw [updateAll,List.foldl_cons,← updateAll]
    rcases List.mem_cons.mp hsite with rfl | hlater
    · rw [updateAll_apart f hf sites _ site hrest fun s' hs' => (hfirst s' hs').symm,
        update_window f hf l site hs]
    · rw [ih _ hrest hothers hlater,update_apart f hf l s site hs (hfirst site hlater)]

include hf in
theorem updateAll_elsewhere (sites : List (ℕ × ℕ)) (l : List α) (i : ℕ)
    (h : ∀ s ∈ sites, Inside s l) (hout : ∀ s ∈ sites, i < s.1 ∨ s.1+s.2 ≤ i) :
    (updateAll f sites l)[i]? = l[i]? := by
  have hkeep := updateAll_apart f hf sites l (i,1) h fun s hs => (hout s hs).symm
  have hread := window_getElem (updateAll f sites l) (i,1) i (Nat.le_refl i) (Nat.lt_succ_self i)
  rw [hkeep,window_getElem l (i,1) i (Nat.le_refl i) (Nat.lt_succ_self i)] at hread
  exact hread.symm

end Update

theorem updateAll_inverse (f g : List α → List α) (hf : ∀ w, (f w).length = w.length)
    (hg : ∀ w, (g w).length = w.length) (sites : List (ℕ × ℕ)) (l : List α)
    (h : ∀ s ∈ sites, Inside s l) (hapart : sites.Pairwise Apart)
    (hback : ∀ s ∈ sites, g (f (window l s)) = window l s) :
    updateAll g sites (updateAll f sites l) = l := by
  have hlen := updateAll_length f hf sites l h
  have hinside : ∀ s ∈ sites, Inside s (updateAll f sites l) := by
    intro s hs
    rw [Inside,hlen]
    exact h s hs
  ext1 i
  by_cases hin : ∃ s ∈ sites, s.1 ≤ i ∧ i < s.1+s.2
  · obtain ⟨s,hs,hfrom,hto⟩ := hin
    rw [← window_getElem _ s i hfrom hto,updateAll_site g hg sites _ hinside hapart s hs,
      updateAll_site f hf sites l h hapart s hs,hback s hs,window_getElem l s i hfrom hto]
  · have hout : ∀ s ∈ sites, i < s.1 ∨ s.1+s.2 ≤ i := by
      intro s hs
      by_contra hnot
      exact hin ⟨s,hs,by omega,by omega⟩
    rw [updateAll_elsewhere g hg sites _ i hinside hout,
      updateAll_elsewhere f hf sites l i h hout]

end Zamak.DisjointUpdates
