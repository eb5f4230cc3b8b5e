import Zamak.PageFormats

/-! # The entry encodings are read back as written

Each of the three formats gives a lawful codec of table entries, and leaves whose
address and attribute bits are read back as they were written. Entries are
compared bit by bit. -/

set_option autoImplicit false

namespace Zamak.PageCodecs
open Zamak.VmmPlan Zamak.RadixStore Zamak.PageFormats

theorem bits_ext (x y : Word) (h : ∀ i, x.getLsbD i = y.getLsbD i) : x = y := by
  apply BitVec.eq_of_getLsbD_eq
  intro i _
  exact h i

theorem field_bit (field : Word) (lo hi : ℕ) (hh : hi ≤ 64)
    (h : ∀ i : Fin 64, field.getLsbD i = (decide (lo ≤ i.val) && decide (i.val < hi))) (i : ℕ) :
    field.getLsbD i = (decide (lo ≤ i) && decide (i < hi)) := by
  by_cases hi' : i < 64
  · exact h ⟨i,hi'⟩
  · rw [BitVec.getLsbD_of_ge field i (by omega)]
    simp [show ¬ i < hi by omega]

theorem addressMask_bit (i : ℕ) :
    addressMask.getLsbD i = (decide (12 ≤ i) && decide (i < 48)) :=
  field_bit addressMask 12 48 (by decide) (by decide) i

theorem pteValid_bit (i : ℕ) : pteValid.getLsbD i = (decide (0 ≤ i) && decide (i < 1)) :=
  field_bit pteValid 0 1 (by decide) (by decide) i

theorem pageNumber_bit (i : ℕ) :
    (0x0FFFFFFFFFFF#64).getLsbD i = (decide (0 ≤ i) && decide (i < 44)) :=
  field_bit 0x0FFFFFFFFFFF#64 0 44 (by decide) (by decide) i

theorem ppnField_bit (i : ℕ) :
    Riscv64.format.addressField.getLsbD i = (decide (10 ≤ i) && decide (i < 54)) :=
  field_bit Riscv64.format.addressField 10 54 (by decide) (by decide) i

theorem valid_eq (e : Word) : valid e = e.getLsbD 0 := by
  have hone : e&&&pteValid = 0#64 ↔ e.getLsbD 0 = false := by
    constructor
    · intro h
      have hb := congrArg (fun w : Word => w.getLsbD 0) h
      simpa [pteValid] using hb
    · intro h
      apply bits_ext
      intro i
      rw [BitVec.getLsbD_and,pteValid_bit i]
      by_cases hi : i = 0
      · rw [hi,h]
        rfl
      · simp [show ¬ i < 1 by omega]
  unfold valid
  cases hb : e.getLsbD 0 with
  | false => simp [hone.mpr hb]
  | true =>
    have hne : e&&&pteValid ≠ 0#64 := by
      intro h
      rw [hone.mp h] at hb
      exact Bool.noConfusion hb
    simpa using hne

theorem high_bit (pa : Word) (h : pa.toNat < 2^48) (i : ℕ) (hi : 48 ≤ i) :
    pa.getLsbD i = false := by
  have hp : 2^48 ≤ 2^i := Nat.pow_le_pow_right (by decide) hi
  exact Nat.testBit_lt_two_pow (by omega)

theorem low_bit (pa : Word) (h : pa.toNat%4096 = 0) (i : ℕ) (hi : i < 12) :
    pa.getLsbD i = false := by
  have hm := Nat.testBit_mod_two_pow pa.toNat 12 i
  have hz : pa.toNat%2^12 = 0 := h
  rw [hz] at hm
  simpa [hi,BitVec.getLsbD] using hm.symm

theorem clear_bit (x field : Word) (h : x&&&field = 0#64) (i : ℕ)
    (hi : field.getLsbD i = true) : x.getLsbD i = false := by
  have hb := congrArg (fun w : Word => w.getLsbD i) h
  simpa [hi] using hb

theorem pageBase_bit (pa : Word) (i : ℕ) :
    (pageBase pa).getLsbD i = (decide (12 ≤ i) && pa.getLsbD i) := by
  unfold pageBase
  rw [BitVec.getLsbD_shiftLeft,BitVec.getLsbD_ushiftRight]
  by_cases hi : 12 ≤ i
  · by_cases hw : i < 64
    · rw [show 12+(i-12) = i by omega]
      simp [hi,hw]
    · simp [hw,BitVec.getLsbD_of_ge pa i (by omega)]
  · simp [hi,show i < 12 by omega]

/-- An entry made of an address and attributes clear of its field splits again. -/
theorem split_entry (x attrs field : Word) (hx : x&&&field = x) (h : attrs&&&field = 0#64) :
    (x|||attrs)&&&field = x ∧ (x|||attrs)&&& ~~~field = attrs := by
  have hxc : x&&& ~~~field = 0#64 := by
    rw [← hx,BitVec.and_assoc]
    simp
  have hac : attrs&&& ~~~field = attrs := by
    have hsum : attrs&&&(field|||~~~field) = attrs := by
      rw [BitVec.or_not_self,BitVec.and_allOnes]
    rw [BitVec.and_or_distrib_left,h,BitVec.zero_or] at hsum
    exact hsum
  constructor
  · rw [BitVec.and_or_distrib_right,hx,h,BitVec.or_zero]
  · rw [BitVec.and_or_distrib_right,hxc,hac,BitVec.zero_or]

theorem frame_masked (f : Word) (h : IsFrame f) : f&&&addressMask = f := by
  apply bits_ext
  intro i
  rw [BitVec.getLsbD_and,addressMask_bit i]
  by_cases hl : 12 ≤ i
  · by_cases hh : i < 48
    · simp [hl,hh]
    · simp [high_bit f h.2 i (by omega)]
  · simp [low_bit f h.1 i (by omega)]

theorem masked_pageBase (pa : Word) (h : pa.toNat < 2^48) :
    pa&&&addressMask = pageBase pa := by
  apply bits_ext
  intro i
  rw [BitVec.getLsbD_and,addressMask_bit i,pageBase_bit]
  by_cases hh : i < 48
  · simp [hh,Bool.and_comm]
  · simp [high_bit pa h i (by omega)]

theorem pageBase_frame (f : Word) (h : IsFrame f) : pageBase f = f := by
  rw [← masked_pageBase f h.2]
  exact frame_masked f h

theorem masked_idem (pa : Word) : pa&&&addressMask&&&addressMask = pa&&&addressMask := by
  rw [BitVec.and_assoc,BitVec.and_self]

theorem paToPte_bit (pa : Word) (i : ℕ) :
    (Riscv64.paToPte pa).getLsbD i =
      (decide (10 ≤ i) && decide (i < 54) && pa.getLsbD (i+2)) := by
  unfold Riscv64.paToPte
  rw [BitVec.getLsbD_shiftLeft,BitVec.getLsbD_and,BitVec.getLsbD_ushiftRight,pageNumber_bit]
  by_cases hl : 10 ≤ i
  · by_cases hh : i < 54
    · rw [show 12+(i-10) = i+2 by omega]
      simp [hl,hh,show i < 64 by omega,show i-10 < 44 by omega,show ¬ i < 10 by omega]
    · simp [hh,show ¬ i-10 < 44 by omega]
  · simp [hl,show i < 10 by omega]

theorem pteToPa_bit (e : Word) (i : ℕ) :
    (Riscv64.pteToPa e).getLsbD i =
      (decide (12 ≤ i) && decide (i < 56) && e.getLsbD (i-2)) := by
  unfold Riscv64.pteToPa
  rw [BitVec.getLsbD_shiftLeft,BitVec.getLsbD_and,BitVec.getLsbD_ushiftRight,pageNumber_bit]
  by_cases hl : 12 ≤ i
  · by_cases hh : i < 56
    · rw [show 10+(i-12) = i-2 by omega]
      simp [hl,hh,show i < 64 by omega,show i-12 < 44 by omega,show ¬ i < 12 by omega]
    · simp [hh,show ¬ i-12 < 44 by omega]
  · simp [hl,show i < 12 by omega]

theorem paToPte_field (pa : Word) :
    Riscv64.paToPte pa&&&Riscv64.format.addressField = Riscv64.paToPte pa := by
  apply bits_ext
  intro i
  rw [BitVec.getLsbD_and,ppnField_bit,paToPte_bit]
  cases decide (10 ≤ i) <;> cases decide (i < 54) <;> simp

theorem pteToPa_or (pa attrs : Word) (hp : pa.toNat < 2^48)
    (h : attrs&&&Riscv64.format.addressField = 0#64) :
    Riscv64.pteToPa (Riscv64.paToPte pa|||attrs) = pageBase pa := by
  apply bits_ext
  intro i
  rw [pteToPa_bit,BitVec.getLsbD_or,paToPte_bit,pageBase_bit]
  by_cases hl : 12 ≤ i
  · by_cases hh : i < 56
    · have ha : attrs.getLsbD (i-2) = false := by
        apply clear_bit attrs _ h
        rw [ppnField_bit]
        simp [show 10 ≤ i-2 by omega,show i-2 < 54 by omega]
      rw [ha,show i-2+2 = i by omega]
      simp [hl,hh,show 10 ≤ i-2 by omega,show i-2 < 54 by omega]
    · simp [hh,high_bit pa hp i (by omega)]
  · simp [hl]

theorem valid_or (x attrs : Word) (h : valid attrs = true) : valid (x|||attrs) = true := by
  rw [valid_eq] at h ⊢
  rw [BitVec.getLsbD_or,h,Bool.or_true]

theorem valid_of_mask (e mask x : Word) (hx : valid x = true)
    (h : (e&&&mask == x) = true) : valid e = true := by
  have he : e&&&mask = x := by simpa using h
  rw [← he,valid_eq,BitVec.getLsbD_and] at hx
  rw [valid_eq]
  exact (Bool.and_eq_true_iff.mp hx).1

theorem tag_mask (x mask tag : Word) (hx : x&&&mask = 0#64) (ht : tag&&&mask = tag) :
    ((x|||tag)&&&mask == tag) = true := by
  rw [BitVec.and_or_distrib_right,hx,ht,BitVec.zero_or]
  simp

theorem frame_low (f low : Word) (h : IsFrame f) (hl : addressMask&&&low = 0#64) :
    f&&&low = 0#64 := by
  rw [← frame_masked f h,BitVec.and_assoc,hl]
  simp

theorem masked_leaf (pa attrs : Word) (h : attrs&&&addressMask = 0#64) :
    ((pa&&&addressMask)|||attrs)&&&addressMask = pa&&&addressMask ∧
      ((pa&&&addressMask)|||attrs)&&& ~~~addressMask = attrs :=
  split_entry (pa&&&addressMask) attrs addressMask (masked_idem pa) h

theorem aarch64_lawful : Lawful Aarch64.format.codec IsFrame where
  empty_absent := by decide
  table_present := fun e h => valid_of_mask e 3#64 3#64 (by decide) h
  link_table := by
    intro f hf
    show ((f|||pteValid|||Aarch64.pteTable)&&&3#64 == 3#64) = true
    rw [BitVec.or_assoc]
    exact tag_mask f 3#64 _ (frame_low f 3#64 hf (by decide)) (by decide)
  follow_link := by
    intro f hf
    show (f|||pteValid|||Aarch64.pteTable)&&&addressMask = f
    rw [BitVec.or_assoc]
    exact (split_entry f _ addressMask (frame_masked f hf) (by decide)).1

theorem loongarch64_lawful : Lawful Loongarch64.format.codec IsFrame where
  empty_absent := by decide
  table_present := fun e h => valid_of_mask e _ pteValid (by decide) h
  link_table := by
    intro f hf
    show (((f&&&addressMask)|||pteValid)&&&(pteValid|||Loongarch64.pteHuge) == pteValid) = true
    rw [frame_masked f hf]
    exact tag_mask f _ _ (frame_low f _ hf (by decide)) (by decide)
  follow_link := by
    intro f hf
    show ((f&&&addressMask)|||pteValid)&&&addressMask = f
    rw [(masked_leaf f pteValid (by decide)).1,frame_masked f hf]

theorem riscv64_lawful : Lawful Riscv64.format.codec IsFrame where
  empty_absent := by decide
  table_present := fun e h => valid_of_mask e _ pteValid (by decide) h
  link_table := by
    intro f _
    show ((pteValid|||Riscv64.paToPte f)&&&
      (pteValid|||Riscv64.pteR|||Riscv64.pteW|||Riscv64.pteX) == pteValid) = true
    rw [BitVec.or_comm]
    apply tag_mask
    · rw [← paToPte_field f,BitVec.and_assoc,
        show Riscv64.format.addressField&&&
          (pteValid|||Riscv64.pteR|||Riscv64.pteW|||Riscv64.pteX) = 0#64 by decide]
      simp
    · decide
  follow_link := by
    intro f hf
    show Riscv64.pteToPa (pteValid|||Riscv64.paToPte f) = f
    rw [BitVec.or_comm,pteToPa_or f pteValid hf.2 (by decide),pageBase_frame f hf]

theorem aarch64_faithful : Aarch64.format.Faithful where
  lawful := aarch64_lawful
  leaf_valid := fun pa attrs h => valid_or _ attrs h.1
  leaf_address := fun pa attrs hp h =>
    (masked_leaf pa attrs h.2).1.trans (masked_pageBase pa hp)
  leaf_attrs := fun pa attrs h => (masked_leaf pa attrs h.2).2
  admits_leafAttrs := by
    intro perms cache
    obtain ⟨r,w,x,u⟩ := perms
    cases r <;> cases w <;> cases x <;> cases u <;> cases cache <;> decide

theorem loongarch64_faithful : Loongarch64.format.Faithful where
  lawful := loongarch64_lawful
  leaf_valid := fun pa attrs h => valid_or _ attrs h.1
  leaf_address := fun pa attrs hp h =>
    (masked_leaf pa attrs h.2).1.trans (masked_pageBase pa hp)
  leaf_attrs := fun pa attrs h => (masked_leaf pa attrs h.2).2
  admits_leafAttrs := by
    intro perms cache
    obtain ⟨r,w,x,u⟩ := perms
    cases r <;> cases w <;> cases x <;> cases u <;> cases cache <;> decide

theorem riscv64_faithful : Riscv64.format.Faithful where
  lawful := riscv64_lawful
  leaf_valid := fun pa attrs h => valid_or _ attrs h.1
  leaf_address := fun pa attrs hp h => pteToPa_or pa attrs hp h.2
  leaf_attrs := fun pa attrs h => (split_entry _ attrs _ (paToPte_field pa) h.2).2
  admits_leafAttrs := by
    intro perms cache
    obtain ⟨r,w,x,u⟩ := perms
    cases r <;> cases w <;> cases x <;> cases u <;> cases cache <;> decide

theorem faithful (arch : Arch) : arch.format.Faithful := by
  cases arch with
  | aarch64 => exact aarch64_faithful
  | riscv64 => exact riscv64_faithful
  | loongarch64 => exact loongarch64_faithful

end Zamak.PageCodecs
