import Mathlib.Algebra.Group.Nat.Defs
import Mathlib.Algebra.Order.Ring.Nat
import Mathlib.Data.Nat.Bitwise

/-! # Rounding by masks

Rounding to multiples of `m`, down and up. For a power of two both are what a mask of the
high bits leaves of a number, or of the number with `m-1` added. -/

set_option autoImplicit false

namespace Zamak.MaskRounding

def roundDown (m x : ℕ) : ℕ := x/m*m

def roundUp (m x : ℕ) : ℕ := roundDown m (x+(m-1))

section Rounding
variable (m : ℕ)

theorem roundDown_le (x : ℕ) : roundDown m x ≤ x := Nat.div_mul_le_self x m

theorem dvd_roundDown (x : ℕ) : m ∣ roundDown m x := Nat.dvd_mul_left m _

theorem roundDown_of_dvd {x : ℕ} (h : m ∣ x) : roundDown m x = x := Nat.div_mul_cancel h

theorem le_roundDown {x y : ℕ} (hy : y ≤ x) (h : m ∣ y) : y ≤ roundDown m x := by
  rw [← roundDown_of_dvd m h]
  exact Nat.mul_le_mul_right m (Nat.div_le_div_right hy)

theorem lt_roundDown (x : ℕ) (hm : 0 < m) : x < roundDown m x+m := by
  have h := Nat.lt_mul_div_succ x hm
  rw [Nat.mul_succ,Nat.mul_comm] at h
  exact h

theorem dvd_roundUp (x : ℕ) : m ∣ roundUp m x := dvd_roundDown m _

theorem le_roundUp (x : ℕ) (hm : 0 < m) : x ≤ roundUp m x := by
  have h := lt_roundDown m (x+(m-1)) hm
  unfold roundUp
  omega

theorem roundUp_le {x y : ℕ} (hx : x ≤ y) (h : m ∣ y) (hm : 0 < m) : roundUp m x ≤ y := by
  obtain ⟨k,rfl⟩ := h
  have hlt : (x+(m-1))/m < k+1 := by
    rw [Nat.div_lt_iff_lt_mul hm,Nat.succ_mul,Nat.mul_comm k m]
    omega
  unfold roundUp roundDown
  rw [Nat.mul_comm m k]
  exact Nat.mul_le_mul_right m (Nat.le_of_lt_succ hlt)

theorem roundUp_lt (x : ℕ) (hm : 0 < m) : roundUp m x < x+m := by
  have h := roundDown_le m (x+(m-1))
  unfold roundUp
  omega

theorem roundUp_of_dvd {x : ℕ} (h : m ∣ x) (hm : 0 < m) : roundUp m x = x :=
  Nat.le_antisymm (roundUp_le m (Nat.le_refl x) h hm) (le_roundUp m x hm)

end Rounding

theorem and_mask (w k x : ℕ) (hk : k ≤ w) (h : x < 2^w) :
    x &&& (2^w-2^k) = roundDown (2^k) x := by
  have hmask : 2^w-2^k = (2^(w-k)-1)*2^k := by
    rw [Nat.sub_mul,← Nat.pow_add,Nat.sub_add_cancel hk,Nat.one_mul]
  apply Nat.eq_of_testBit_eq
  intro i
  rw [roundDown,hmask,Nat.testBit_and,Nat.testBit_mul_two_pow,Nat.testBit_mul_two_pow,
    Nat.testBit_two_pow_sub_one,Nat.testBit_div_two_pow]
  by_cases hi : k ≤ i
  · by_cases hj : i < w
    · simp [hi,show i-k < w-k by omega]
    · have hx : x.testBit i = false := Nat.testBit_lt_two_pow
        (Nat.lt_of_lt_of_le h (Nat.pow_le_pow_right (by decide) (by omega)))
      simp [hi,hx]
  · simp [hi]

end Zamak.MaskRounding
