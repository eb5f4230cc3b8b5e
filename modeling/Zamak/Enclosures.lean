import Mathlib.Data.List.Range
import Mathlib.Data.List.Induction
import Mathlib.Order.Basic

/-! # Enclosing positions of a sequence of depths

An outline gives each position a depth. A position is enclosed by the earlier ones
from which every later position up to it is deeper; the last of these is the nearest
earlier position of smaller depth. Placing positions by level instead keeps a spine,
cuts it to one less than the depth and takes its end as the parent. The two parents
are the same exactly when no position that is no deeper than the one before it skips
a level. -/

set_option autoImplicit false

namespace Zamak.Enclosures

variable (d : ℕ → ℕ)

def Encloses (m n : ℕ) : Prop := m < n ∧ ∀ j ≤ n, m < j → d m < d j

instance (m n : ℕ) : Decidable (Encloses d m n) := inferInstanceAs (Decidable (_ ∧ _))

def enclosers (n : ℕ) : List ℕ := (List.range n).filter fun m => Encloses d m n

def nearest (n : ℕ) : Option ℕ := ((List.range n).filter fun m => d m < d n).getLast?

def opens : ℕ → List ℕ
  | 0 => []
  | n+1 => enclosers d n++[n]

def levelSpine : ℕ → List ℕ
  | 0 => []
  | n+1 => (levelSpine n).take (d n-1)++[n]

def levelParent (n : ℕ) : Option ℕ := ((levelSpine d n).take (d n-1)).getLast?

/-- A position no deeper than the one before it has an encloser at every level. -/
def Filled (n : ℕ) : Prop := 0 < n → d n ≤ d (n-1) → (enclosers d n).length = d n-1

instance (n : ℕ) : Decidable (Filled d n) := inferInstanceAs (Decidable (_ → _))

theorem getLast?_filter_range (p : ℕ → Bool) (n m : ℕ) :
    ((List.range n).filter p).getLast? = some m ↔
      m < n ∧ p m = true ∧ ∀ j < n, m < j → p j = false := by
  induction n with
  | zero => simp
  | succ n ih =>
    rw [List.range_succ,List.filter_append]
    by_cases hp : p n = true
    · simp only [List.filter_cons,hp,if_true,List.filter_nil,List.getLast?_concat,
        Option.some.injEq]
      constructor
      · rintro rfl
        exact ⟨Nat.lt_succ_self _,hp,fun j hj hlt => by omega⟩
      · rintro ⟨hm,_,hlast⟩
        by_contra hne
        have := hlast n (Nat.lt_succ_self n) (by omega)
        simp [hp] at this
    · have hp' : p n = false := by simpa using hp
      simp only [List.filter_cons,hp',List.filter_nil,List.append_nil,ih,Bool.false_eq_true,
        if_false]
      constructor
      · rintro ⟨hm,hpm,hlast⟩
        refine ⟨by omega,hpm,fun j hj hlt => ?_⟩
        rcases Nat.lt_succ_iff_lt_or_eq.mp hj with h | h
        · exact hlast j h hlt
        · exact h ▸ hp'
      · rintro ⟨hm,hpm,hlast⟩
        have hne : m ≠ n := fun h => hp (h ▸ hpm)
        exact ⟨by omega,hpm,fun j hj hlt => hlast j (by omega) hlt⟩

theorem mem_enclosers (m n : ℕ) : m ∈ enclosers d n ↔ Encloses d m n := by
  simp only [enclosers,List.mem_filter,List.mem_range,decide_eq_true_eq,and_iff_right_iff_imp]
  exact fun h => h.1

theorem nearest_eq (n : ℕ) : nearest d n = (enclosers d n).getLast? := by
  cases h : nearest d n with
  | some m =>
    have ⟨hm,hlt,hlast⟩ := (getLast?_filter_range _ n m).mp h
    symm
    refine (getLast?_filter_range _ n m).mpr ⟨hm,?_,?_⟩
    · simp only [decide_eq_true_eq] at hlt ⊢
      refine ⟨hm,fun j hj hmj => ?_⟩
      rcases Nat.lt_or_eq_of_le hj with hj | rfl
      · have := hlast j hj hmj
        simp only [decide_eq_false_iff_not,Nat.not_lt] at this
        omega
      · exact hlt
    · intro j hj hmj
      have := hlast j hj hmj
      simp only [decide_eq_false_iff_not] at this ⊢
      exact fun henc => this (henc.2 n (Nat.le_refl n) hj)
  | none =>
    have hall : ∀ m < n, ¬d m < d n := by simpa [nearest] using h
    symm
    rw [List.getLast?_eq_none_iff,List.eq_nil_iff_forall_not_mem]
    intro m hm
    have henc := (mem_enclosers d m n).mp hm
    exact hall m henc.1 (henc.2 n (Nat.le_refl n) henc.1)

theorem enclosers_eq (n : ℕ) : enclosers d n = (opens d n).filter fun m => d m < d n := by
  cases n with
  | zero => rfl
  | succ n =>
    unfold opens enclosers
    rw [List.range_succ,List.filter_append,List.filter_append,List.filter_filter]
    congr 1
    · apply List.filter_congr
      intro m hm
      have hlt := List.mem_range.mp hm
      rw [← Bool.decide_and]
      apply decide_eq_decide.mpr
      constructor
      · intro h
        exact ⟨h.2 _ (Nat.le_refl _) h.1,hlt,fun j hj hmj => h.2 j (by omega) hmj⟩
      · rintro ⟨hd,h⟩
        refine ⟨h.1.trans (Nat.lt_succ_self n),fun j hj hmj => ?_⟩
        rcases Nat.lt_or_eq_of_le hj with hj | rfl
        · exact h.2 j (by omega) hmj
        · exact hd
    · apply List.filter_congr
      intro m hm
      obtain rfl := List.mem_singleton.mp hm
      apply decide_eq_decide.mpr
      constructor
      · intro h
        exact h.2 _ (Nat.le_refl _) h.1
      · intro h
        refine ⟨Nat.lt_succ_self m,fun j hj hmj => ?_⟩
        obtain rfl : j = m+1 := by omega
        exact h

theorem levelSpine_congr (d e : ℕ → ℕ) (n : ℕ) (h : ∀ m < n, d m = e m) :
    levelSpine d n = levelSpine e n := by
  induction n with
  | zero => rfl
  | succ n ih =>
    unfold levelSpine
    rw [ih fun m hm => h m (by omega),h n (Nat.lt_succ_self n)]

theorem nearest_lt (n m : ℕ) (h : nearest d n = some m) : d m < d n := by
  have := ((getLast?_filter_range _ n m).mp h).2.1
  simpa using this

theorem nearest_none (n : ℕ) : nearest d n = none ↔ ∀ m < n, d n ≤ d m := by
  simp [nearest]

def Deepens (l : List ℕ) : Prop := l.Pairwise fun a b => d a < d b

theorem opens_deepens (n : ℕ) : Deepens d (opens d n) := by
  cases n with
  | zero => exact List.Pairwise.nil
  | succ n =>
    have hrange : (enclosers d n).Pairwise (· < ·) := List.pairwise_lt_range.filter _
    refine List.pairwise_append.mpr ⟨?_,List.pairwise_singleton _ _,?_⟩
    · refine hrange.imp_of_mem ?_
      intro a b ha hb hab
      exact ((mem_enclosers d a n).mp ha).2 b ((mem_enclosers d b n).mp hb).1.le hab
    · intro a ha b hb
      obtain rfl := List.mem_singleton.mp hb
      have henc := (mem_enclosers d a b).mp ha
      exact henc.2 b (Nat.le_refl b) henc.1

theorem filter_eq_take (l : List ℕ) (h : Deepens d l) (x : ℕ) :
    l.filter (fun m => d m < x) = l.take (l.filter fun m => d m < x).length := by
  induction l with
  | nil => rfl
  | cons a l ih =>
    have ⟨hhead,htail⟩ := List.pairwise_cons.mp h
    by_cases ha : d a < x
    · simp only [List.filter_cons,decide_eq_true ha,if_true,List.length_cons,
        List.take_succ_cons,← ih htail]
    · have hnone : l.filter (fun m => d m < x) = [] := by
        rw [List.filter_eq_nil_iff]
        intro b hb
        have := hhead b hb
        simp only [decide_eq_true_eq]
        omega
      simp [ha,hnone]

theorem enclosers_eq_take (n : ℕ) :
    enclosers d n = (opens d n).take (enclosers d n).length := by
  conv_lhs => rw [enclosers_eq,filter_eq_take d _ (opens_deepens d n)]
  rw [← enclosers_eq]

theorem take_eq_of_getLast? (l : List ℕ) (h : l.Nodup) (a b : ℕ)
    (heq : (l.take a).getLast? = (l.take b).getLast?) : l.take a = l.take b := by
  induction l generalizing a b with
  | nil => simp
  | cons x l ih =>
    have ⟨hx,hl⟩ := List.nodup_cons.mp h
    cases a with
    | zero =>
      rw [List.take_zero,List.getLast?_nil] at heq
      rw [List.getLast?_eq_none_iff.mp heq.symm]
      rfl
    | succ a =>
      cases b with
      | zero => simp at heq
      | succ b =>
        rw [List.take_succ_cons,List.take_succ_cons,List.getLast?_cons,List.getLast?_cons] at heq
        have hlast : ∀ k y, (l.take k).getLast? = some y → y ≠ x := fun k y hy hyx =>
          hx (hyx ▸ List.mem_of_mem_take (List.mem_of_getLast? hy))
        have htails : (l.take a).getLast? = (l.take b).getLast? := by
          cases ha : (l.take a).getLast? with
          | none =>
            cases hb : (l.take b).getLast? with
            | none => rfl
            | some y => exact absurd (by simpa [ha,hb] using heq.symm) (hlast b y hb)
          | some y =>
            cases hb : (l.take b).getLast? with
            | none => exact absurd (by simpa [ha,hb] using heq) (hlast a y ha)
            | some z => simpa [ha,hb] using heq
        rw [List.take_succ_cons,List.take_succ_cons,ih hl a b htails]

theorem length_add_le (l : List ℕ) (h : Deepens d l) (low high : ℕ) (hlh : low ≤ high)
    (hbound : ∀ m ∈ l, low ≤ d m ∧ d m < high) : l.length+low ≤ high := by
  induction l generalizing low with
  | nil => simpa using hlh
  | cons a l ih =>
    have ⟨hhead,htail⟩ := List.pairwise_cons.mp h
    have ha := hbound a List.mem_cons_self
    have hrest := ih htail (low+1) (by omega) fun m hm =>
      ⟨by have := hhead m hm; omega,(hbound m (List.mem_cons_of_mem a hm)).2⟩
    rw [List.length_cons]
    omega

section Positive
variable (hpos : ∀ n, 1 ≤ d n)

include hpos in
theorem enclosers_length (n : ℕ) : (enclosers d n).length+1 ≤ d n := by
  have hdeep : Deepens d (enclosers d n) := by
    rw [enclosers_eq]
    exact (opens_deepens d n).filter _
  refine length_add_le d _ hdeep 1 (d n) (hpos n) fun m hm => ⟨hpos m,?_⟩
  have henc := (mem_enclosers d m n).mp hm
  exact henc.2 n (Nat.le_refl n) henc.1

include hpos in
/-- Cutting the open positions by level leaves the enclosers exactly when no level is
skipped. -/
theorem take_eq_iff (n : ℕ) : (opens d n).take (d n-1) = enclosers d n ↔ Filled d n := by
  cases n with
  | zero => simp [opens,Filled,enclosers]
  | succ n =>
    have hlen : (opens d (n+1)).length = (enclosers d n).length+1 := by simp [opens]
    have hroom := enclosers_length d hpos n
    by_cases hdeeper : d n < d (n+1)
    · -- Everything open encloses the new position, and none of it is cut.
      have hall : enclosers d (n+1) = opens d (n+1) := by
        rw [enclosers_eq,List.filter_eq_self]
        intro m hm
        rcases List.mem_append.mp hm with h | h
        · have henc := (mem_enclosers d m n).mp h
          have := henc.2 n (Nat.le_refl n) henc.1
          simp only [decide_eq_true_eq]
          omega
        · obtain rfl := List.mem_singleton.mp h
          simpa using hdeeper
      rw [hall,List.take_of_length_le (by omega)]
      simp only [true_iff]
      intro _ hle
      rw [Nat.add_sub_cancel] at hle
      omega
    · have hout : (enclosers d (n+1)).length < (opens d (n+1)).length := by
        rw [enclosers_eq]
        refine List.length_filter_lt_length_iff_exists.mpr ⟨n,by simp [opens],?_⟩
        simpa using hdeeper
      constructor
      · intro heq _ _
        have := congrArg List.length heq
        rw [List.length_take] at this
        omega
      · intro hfilled
        have := hfilled (Nat.succ_pos n) (by rw [Nat.add_sub_cancel]; omega)
        rw [← this]
        exact (enclosers_eq_take d (n+1)).symm

include hpos in
theorem levelSpine_eq (n : ℕ) (h : ∀ m < n, Filled d m) : levelSpine d n = opens d n := by
  induction n with
  | zero => rfl
  | succ n ih =>
    have hspine := ih fun m hm => h m (by omega)
    unfold levelSpine opens
    rw [hspine,(take_eq_iff d hpos n).mpr (h n (Nat.lt_succ_self n))]

include hpos in
/-- Where the spine holds the open positions, the two parents agree exactly at a
position that skips no level. -/
theorem levelParent_eq_iff (n : ℕ) (h : levelSpine d n = opens d n) :
    levelParent d n = nearest d n ↔ Filled d n := by
  rw [levelParent,nearest_eq,h,← take_eq_iff d hpos n]
  constructor
  · intro heq
    rw [enclosers_eq_take] at heq ⊢
    exact take_eq_of_getLast? _ ((opens_deepens d n).imp fun hlt heq => by
      rw [heq] at hlt
      exact absurd hlt (Nat.lt_irrefl _)) _ _ heq
  · intro heq
    rw [heq]

include hpos in
/-- Placing by level gives every position its nearest smaller one as parent exactly when
no position skips a level. -/
theorem levelParents_iff (n : ℕ) :
    (∀ m < n, levelParent d m = nearest d m) ↔ ∀ m < n, Filled d m := by
  induction n with
  | zero => simp
  | succ n ih =>
    rw [Nat.forall_lt_succ_right,Nat.forall_lt_succ_right,ih]
    refine and_congr_right fun hfilled => ?_
    exact levelParent_eq_iff d hpos n (levelSpine_eq d hpos n hfilled)

end Positive

end Zamak.Enclosures
