import Zamak.MaskRounding
import Zamak.Fat32Image
import Zamak.PieLoading

/-! # The randomized kernel base

`kaslr_base` rounds the range inwards to whole slots of 1 GiB and takes one of them by a
random number. Every operation is checked here; `none` is one that leaves the word. -/

set_option autoImplicit false

namespace Zamak.KaslrBase
open Zamak.MaskRounding Zamak.Fat32Image Zamak.PieLoading

def kaslrAlignment : ℕ := 1 <<< 30

class KaslrRng (R : Type) where
  getU64 : R → UInt64 × R

instance constantRng : KaslrRng UInt64 := ⟨fun r => (r,r)⟩

def alignUp (value align : ℕ) : Option ℕ := do
  let sum ← checkedAdd 64 value align
  let last ← checkedSub sum 1
  let mask ← checkedSub align 1
  some (last &&& (2^64-1-mask))

def alignDown (value align : ℕ) : Option ℕ := do
  let mask ← checkedSub align 1
  some (value &&& (2^64-1-mask))

def drawSlot {R : Type} [KaslrRng R] (rng : R) (alignedMin slotCount : ℕ) :
    Option (Option ℕ × R) := do
  let step ← checkedMul 64 ((KaslrRng.getU64 rng).1.toNat%slotCount) kaslrAlignment
  let base ← checkedAdd 64 alignedMin step
  some (some base,(KaslrRng.getU64 rng).2)

def kaslrBase {R : Type} [KaslrRng R] (rng : R) (minAddr maxAddr kernelSize : UInt64) :
    Option (Option ℕ × R) := do
  let alignedMin ← alignUp minAddr.toNat kaslrAlignment
  match checkedSub maxAddr.toNat kernelSize.toNat with
  | none => some (none,rng)
  | some maxBase =>
    let alignedMax ← alignDown maxBase kaslrAlignment
    if alignedMin > alignedMax then some (none,rng)
    else
      let span ← checkedSub alignedMax alignedMin
      let slotCount ← checkedAdd 64 (span/kaslrAlignment) 1
      if slotCount = 0 then some (none,rng)
      else drawSlot rng alignedMin slotCount

def IsSlot (minAddr maxAddr kernelSize b : ℕ) : Prop :=
  kaslrAlignment ∣ b ∧ minAddr ≤ b ∧ b+kernelSize ≤ maxAddr

/-- No operation leaves the word, a base is a slot, there is one whenever there is a slot,
and every slot is the base for some number drawn. -/
structure Randomizes (minAddr maxAddr kernelSize : UInt64) : Prop where
  returns : ∀ (R : Type) [KaslrRng R] (rng : R), ∃ result rng',
    kaslrBase rng minAddr maxAddr kernelSize = some (result,rng') ∧
    (∀ b ∈ result, IsSlot minAddr.toNat maxAddr.toNat kernelSize.toNat b) ∧
    (result = none ↔ ¬∃ b, IsSlot minAddr.toNat maxAddr.toNat kernelSize.toNat b)
  reaches : ∀ b, IsSlot minAddr.toNat maxAddr.toNat kernelSize.toNat b →
    ∃ r : UInt64, ∀ (R : Type) [KaslrRng R] (rng : R), (KaslrRng.getU64 rng).1 = r →
      ∃ rng', kaslrBase rng minAddr maxAddr kernelSize = some (some b,rng')

theorem kaslrAlignment_eq : kaslrAlignment = 2^30 := rfl

theorem alignment_mask : checkedSub (2^30) 1 = some (2^30-1) := if_pos (by decide)

theorem high_mask : 2^64-1-(2^30-1) = 2^64-2^30 := by decide

theorem alignUp_eq (value : ℕ) : alignUp value kaslrAlignment =
    if value+2^30 < 2^64 then some (roundUp (2^30) value) else none := by
  rw [alignUp,checkedAdd,kaslrAlignment_eq]
  by_cases h : value+2^30 < 2^64
  · have hlast : checkedSub (value+2^30) 1 = some (value+(2^30-1)) := by
      rw [checkedSub,if_pos (by omega),Nat.add_sub_assoc (by decide)]
    have hround := and_mask 64 30 (value+(2^30-1)) (by decide) (by omega)
    rw [if_pos h,if_pos h,Option.bind_eq_bind,Option.bind_some,hlast,Option.bind_some,
      alignment_mask,Option.bind_some,high_mask,hround,roundUp]
  · rw [if_neg h,if_neg h]
    rfl

theorem alignDown_eq (value : ℕ) (h : value < 2^64) :
    alignDown value kaslrAlignment = some (roundDown (2^30) value) := by
  rw [alignDown,kaslrAlignment_eq,alignment_mask,Option.bind_eq_bind,Option.bind_some,high_mask,
    and_mask 64 30 value (by decide) h]

theorem isSlot_iff (minAddr maxAddr kernelSize b : ℕ) : IsSlot minAddr maxAddr kernelSize b ↔
    2^30 ∣ b ∧ kernelSize ≤ maxAddr ∧ roundUp (2^30) minAddr ≤ b ∧
      b ≤ roundDown (2^30) (maxAddr-kernelSize) := by
  constructor
  · rintro ⟨hdvd,hmin,hmax⟩
    refine ⟨hdvd,by omega,?_,?_⟩
    · exact roundUp_le _ hmin hdvd (by decide)
    · exact le_roundDown _ (by omega) hdvd
  · rintro ⟨hdvd,hfits,hmin,hmax⟩
    have hlow := le_roundUp (2^30) minAddr (by decide)
    have hhigh := roundDown_le (2^30) (maxAddr-kernelSize)
    exact ⟨hdvd,by omega,by omega⟩

section Slots
variable (low high : ℕ)

theorem slot_within (hlow : 2^30 ∣ low) (hhigh : 2^30 ∣ high) (hle : low ≤ high) (i : ℕ)
    (hi : i < (high-low)/2^30+1) : 2^30 ∣ low+i*2^30 ∧ low+i*2^30 ≤ high := by
  have hspan : (high-low)/2^30*2^30 = high-low := Nat.div_mul_cancel (Nat.dvd_sub hhigh hlow)
  have hstep : i*2^30 ≤ (high-low)/2^30*2^30 := Nat.mul_le_mul_right _ (Nat.le_of_lt_succ hi)
  exact ⟨Nat.dvd_add hlow (Nat.dvd_mul_left _ _),by omega⟩

theorem slot_index (hlow : 2^30 ∣ low) (b : ℕ) (hdvd : 2^30 ∣ b) (hmin : low ≤ b)
    (hmax : b ≤ high) : (b-low)/2^30 < (high-low)/2^30+1 ∧ low+(b-low)/2^30*2^30 = b := by
  have hspan : (b-low)/2^30*2^30 = b-low := Nat.div_mul_cancel (Nat.dvd_sub hdvd hlow)
  constructor
  · exact Nat.lt_succ_of_le (Nat.div_le_div_right (Nat.sub_le_sub_right hmax low))
  · rw [hspan,Nat.add_sub_cancel' hmin]

end Slots

section Run
variable {R : Type} [KaslrRng R] (rng : R)

theorem drawSlot_eq (low count : ℕ) (hcount : 0 < count) (hend : low+count*2^30 ≤ 2^64) :
    drawSlot rng low count = some (some (low+(KaslrRng.getU64 rng).1.toNat%count*2^30),
      (KaslrRng.getU64 rng).2) := by
  have hslot := Nat.mod_lt (KaslrRng.getU64 rng).1.toNat hcount
  have hstep : (KaslrRng.getU64 rng).1.toNat%count*2^30+2^30 ≤ count*2^30 := by
    rw [← Nat.succ_mul]
    exact Nat.mul_le_mul_right _ hslot
  have hmul : checkedMul 64 ((KaslrRng.getU64 rng).1.toNat%count) kaslrAlignment =
      some ((KaslrRng.getU64 rng).1.toNat%count*2^30) := by
    rw [kaslrAlignment_eq]
    exact if_pos (by omega)
  have hadd : checkedAdd 64 low ((KaslrRng.getU64 rng).1.toNat%count*2^30) =
      some (low+(KaslrRng.getU64 rng).1.toNat%count*2^30) := if_pos (by omega)
  rw [drawSlot,hmul,Option.bind_eq_bind,Option.bind_some,hadd,Option.bind_some]

/-- The base is the slot whose index the drawn number has modulo the number of slots. -/
theorem kaslrBase_eq (minAddr maxAddr kernelSize : UInt64) (h : minAddr.toNat+2^30 < 2^64) :
    kaslrBase rng minAddr maxAddr kernelSize =
      if kernelSize.toNat ≤ maxAddr.toNat ∧
          roundUp (2^30) minAddr.toNat ≤ roundDown (2^30) (maxAddr.toNat-kernelSize.toNat) then
        some (some (roundUp (2^30) minAddr.toNat+(KaslrRng.getU64 rng).1.toNat%
          ((roundDown (2^30) (maxAddr.toNat-kernelSize.toNat)-roundUp (2^30) minAddr.toNat)/2^30+1)
            *2^30),(KaslrRng.getU64 rng).2)
      else some (none,rng) := by
  rw [kaslrBase,alignUp_eq,if_pos h,Option.bind_eq_bind,Option.bind_some]
  by_cases hfits : kernelSize.toNat ≤ maxAddr.toNat
  · have hword := maxAddr.toNat_lt
    have hmax : checkedSub maxAddr.toNat kernelSize.toNat = some (maxAddr.toNat-kernelSize.toNat) :=
      if_pos hfits
    have hbelow := roundDown_le (2^30) (maxAddr.toNat-kernelSize.toNat)
    rw [hmax]
    dsimp only
    rw [alignDown_eq (maxAddr.toNat-kernelSize.toNat) (by omega),Option.bind_some]
    generalize hhigh : roundDown (2^30) (maxAddr.toNat-kernelSize.toNat) = high at hbelow ⊢
    generalize hlow : roundUp (2^30) minAddr.toNat = low
    by_cases hle : low ≤ high
    · have hcut : (high-low)/2^30*2^30 ≤ high-low := Nat.div_mul_le_self _ _
      have hspan : checkedSub high low = some (high-low) := if_pos hle
      have hcount : checkedAdd 64 ((high-low)/kaslrAlignment) 1 = some ((high-low)/2^30+1) := by
        rw [kaslrAlignment_eq]
        exact if_pos (by omega)
      have hdvd : 2^30 ∣ high := hhigh ▸ dvd_roundDown _ _
      have hend : low+((high-low)/2^30+1)*2^30 ≤ 2^64 := by
        rw [Nat.succ_mul]
        omega
      rw [if_neg (Nat.not_lt.mpr hle),if_pos ⟨hfits,hle⟩,hspan,Option.bind_some,hcount,
        Option.bind_some,if_neg (Nat.succ_ne_zero _),drawSlot_eq rng _ _ (Nat.succ_pos _) hend]
    · rw [if_pos (Nat.lt_of_not_le hle),if_neg (fun hboth => hle hboth.2)]
  · have hnone : checkedSub maxAddr.toNat kernelSize.toNat = none := if_neg hfits
    rw [if_neg (fun hboth => hfits hboth.1),hnone]

end Run

theorem kaslrBase_overflows {R : Type} [KaslrRng R] (rng : R)
    (minAddr maxAddr kernelSize : UInt64) (h : ¬minAddr.toNat+2^30 < 2^64) :
    kaslrBase rng minAddr maxAddr kernelSize = none := by
  rw [kaslrBase,alignUp_eq,if_neg h]
  rfl

section Range
variable (minAddr maxAddr kernelSize : UInt64) (h : minAddr.toNat+2^30 < 2^64)
include h

theorem kaslrBase_returns (R : Type) [KaslrRng R] (rng : R) : ∃ result rng',
    kaslrBase rng minAddr maxAddr kernelSize = some (result,rng') ∧
    (∀ b ∈ result, IsSlot minAddr.toNat maxAddr.toNat kernelSize.toNat b) ∧
    (result = none ↔ ¬∃ b, IsSlot minAddr.toNat maxAddr.toNat kernelSize.toNat b) := by
  have hrun := kaslrBase_eq rng minAddr maxAddr kernelSize h
  by_cases hslots : kernelSize.toNat ≤ maxAddr.toNat ∧
      roundUp (2^30) minAddr.toNat ≤ roundDown (2^30) (maxAddr.toNat-kernelSize.toNat)
  · rw [if_pos hslots] at hrun
    have hslot : IsSlot minAddr.toNat maxAddr.toNat kernelSize.toNat
        (roundUp (2^30) minAddr.toNat+(KaslrRng.getU64 rng).1.toNat%
          ((roundDown (2^30) (maxAddr.toNat-kernelSize.toNat)-roundUp (2^30) minAddr.toNat)/2^30+1)
            *2^30) := by
      have hwithin := slot_within _ _ (dvd_roundUp (2^30) minAddr.toNat)
        (dvd_roundDown (2^30) (maxAddr.toNat-kernelSize.toNat)) hslots.2 _
        (Nat.mod_lt (KaslrRng.getU64 rng).1.toNat (Nat.succ_pos _))
      rw [isSlot_iff]
      exact ⟨hwithin.1,hslots.1,Nat.le_add_right _ _,hwithin.2⟩
    refine ⟨_,_,hrun,?_,?_⟩
    · intro b hb
      cases hb
      exact hslot
    · constructor
      · intro hnone
        cases hnone
      · intro hempty
        exact (hempty ⟨_,hslot⟩).elim
  · rw [if_neg hslots] at hrun
    have hempty : ¬∃ b, IsSlot minAddr.toNat maxAddr.toNat kernelSize.toNat b := by
      rintro ⟨b,hb⟩
      obtain ⟨-,hfits,hmin,hmax⟩ := (isSlot_iff _ _ _ _).mp hb
      exact hslots ⟨hfits,Nat.le_trans hmin hmax⟩
    refine ⟨none,rng,hrun,?_,iff_of_true rfl hempty⟩
    intro b hb
    cases hb

theorem kaslrBase_reaches (b : ℕ) (hb : IsSlot minAddr.toNat maxAddr.toNat kernelSize.toNat b) :
    ∃ r : UInt64, ∀ (R : Type) [KaslrRng R] (rng : R), (KaslrRng.getU64 rng).1 = r →
      ∃ rng', kaslrBase rng minAddr maxAddr kernelSize = some (some b,rng') := by
  obtain ⟨hdvd,hfits,hmin,hmax⟩ := (isSlot_iff _ _ _ _).mp hb
  have ⟨hindex,hback⟩ := slot_index _ _ (dvd_roundUp (2^30) minAddr.toNat) b hdvd hmin hmax
  have hword : (b-roundUp (2^30) minAddr.toNat)/2^30 < 2^64 := by
    have hdiv := Nat.div_le_self (b-roundUp (2^30) minAddr.toNat) (2^30)
    have hbelow := roundDown_le (2^30) (maxAddr.toNat-kernelSize.toNat)
    have := maxAddr.toNat_lt
    omega
  refine ⟨UInt64.ofNat ((b-roundUp (2^30) minAddr.toNat)/2^30),?_⟩
  intro R _ rng hdrawn
  have hnumber : (KaslrRng.getU64 rng).1.toNat = (b-roundUp (2^30) minAddr.toNat)/2^30 := by
    rw [hdrawn,UInt64.toNat_ofNat_of_lt' hword]
  refine ⟨(KaslrRng.getU64 rng).2,?_⟩
  rw [kaslrBase_eq rng minAddr maxAddr kernelSize h,if_pos ⟨hfits,Nat.le_trans hmin hmax⟩,hnumber,
    Nat.mod_eq_of_lt hindex,hback]

end Range

/-- The base is randomized over exactly the slots of the range, unless the range starts in
the last GiB of the address space. -/
theorem kaslrBase_randomizes_iff (minAddr maxAddr kernelSize : UInt64) :
    Randomizes minAddr maxAddr kernelSize ↔ minAddr.toNat+2^30 < 2^64 := by
  constructor
  · intro hall
    by_contra hlast
    obtain ⟨result,rng',hrun,-⟩ := hall.returns UInt64 0
    rw [kaslrBase_overflows _ _ _ _ hlast] at hrun
    cases hrun
  · intro h
    exact ⟨fun R _ rng => kaslrBase_returns minAddr maxAddr kernelSize h R rng,
      kaslrBase_reaches minAddr maxAddr kernelSize h⟩

/-- The last slot of the address space is not found. -/
theorem last_slot_overflows :
    IsSlot (UInt64.toNat 0xFFFFFFFFC0000000) (UInt64.toNat 0xFFFFFFFFFFFFFFFF) (UInt64.toNat 0)
      0xFFFFFFFFC0000000 ∧
    ¬Randomizes 0xFFFFFFFFC0000000 0xFFFFFFFFFFFFFFFF 0 := by
  constructor
  · exact ⟨by decide,by decide,by decide⟩
  · intro hall
    obtain ⟨result,rng',hrun,-⟩ := hall.returns UInt64 0
    rw [kaslrBase_overflows _ _ _ _ (by decide)] at hrun
    cases hrun

end Zamak.KaslrBase
