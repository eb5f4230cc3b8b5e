import Zamak.PageCodecs

/-! # The address-translation register of riscv64

`satp::encode` of `arch.rs` packs a mode, an address-space id and the page number
of a root table into one word, and `SatpValue` of `addr.rs` checks such a word and
reads its fields. The two are written in different files with masks of their own:
the encoder keeps 48 bits of the page number, four more than the field has, and
those four land on the lowest bits of the id. What the id is read back as is
computed for every page number, and from it when the fields stay apart. -/

set_option autoImplicit false

namespace Zamak.SatpEncoding
open Zamak.VmmPlan Zamak.PageFormats Zamak.PageCodecs

def modeBare : Word := 0#64
def modeSv39 : Word := 8#64
def modeSv48 : Word := 9#64
def modeSv57 : Word := 10#64

/-- The modes `SatpValue::new` lets through. -/
def Supported (mode : Word) : Prop :=
  mode = modeBare ∨ mode = modeSv39 ∨ mode = modeSv48 ∨ mode = modeSv57

instance (mode : Word) : Decidable (Supported mode) :=
  inferInstanceAs (Decidable (_ ∨ _))

def encode (mode asid ppn : Word) : Word :=
  ((mode&&&0xF#64)<<<60)|||((asid&&&0xFFFF#64)<<<44)|||(ppn&&&0xFFFFFFFFFFFF#64)

/-- The one error of `InvalidHwValue` that this register can raise. -/
inductive InvalidHwValue where
  | invalidSatp (value : Word)
  deriving DecidableEq, Repr

structure SatpValue where
  bits : Word
  supported : Supported (bits>>>60)

def SatpValue.new (value : Word) : Except InvalidHwValue SatpValue :=
  if h : Supported (value>>>60) then .ok ⟨value,h⟩ else .error (.invalidSatp value)

def SatpValue.asU64 (s : SatpValue) : Word := s.bits

def SatpValue.asid (s : SatpValue) : BitVec 16 := ((s.bits>>>44)&&&0xFFFF#64).setWidth 16

def SatpValue.ppn (s : SatpValue) : Word := s.bits&&&((1#64<<<44)-1#64)

/-- The register accepts the word, and every field is read back as it went in. -/
def ReadsBack (mode asid ppn : Word) : Prop :=
  ∃ s, SatpValue.new (encode mode asid ppn) = .ok s ∧
    s.asid.toNat = asid.toNat%2^16 ∧ s.ppn.toNat = ppn.toNat%2^44 ∧ s.asU64>>>60 = mode

/-- The four bits of a page number above its field that `encode` lets through. -/
def spill (ppn : Word) : Word := (ppn>>>44)&&&0xF#64

theorem new_error (value : Word) (h : ¬ Supported (value>>>60)) :
    SatpValue.new value = .error (.invalidSatp value) := by
  rw [SatpValue.new, dif_neg h]

theorem new_ok (value : Word) (h : Supported (value>>>60)) :
    SatpValue.new value = .ok ⟨value,h⟩ := by
  rw [SatpValue.new, dif_pos h]

theorem nibble_bit (i : ℕ) : (0xF#64).getLsbD i = (decide (0 ≤ i) && decide (i < 4)) :=
  field_bit 0xF#64 0 4 (by decide) (by decide) i

theorem asidMask_bit (i : ℕ) :
    (0xFFFF#64).getLsbD i = (decide (0 ≤ i) && decide (i < 16)) :=
  field_bit 0xFFFF#64 0 16 (by decide) (by decide) i

theorem encodeMask_bit (i : ℕ) :
    (0xFFFFFFFFFFFF#64).getLsbD i = (decide (0 ≤ i) && decide (i < 48)) :=
  field_bit 0xFFFFFFFFFFFF#64 0 48 (by decide) (by decide) i

theorem ppnMask_bit (i : ℕ) :
    ((1#64<<<44)-1#64).getLsbD i = (decide (0 ≤ i) && decide (i < 44)) :=
  field_bit ((1#64<<<44)-1#64) 0 44 (by decide) (by decide) i

theorem or_absorbs {w : ℕ} (x y : BitVec w) : x|||y = x ↔ y&&& ~~~x = 0#w := by
  constructor
  · intro h
    apply BitVec.eq_of_getLsbD_eq
    intro i hi
    have hbit := congrArg (fun z => z.getLsbD i) h
    simp only [BitVec.getLsbD_or] at hbit
    simp only [BitVec.getLsbD_and, BitVec.getLsbD_not, hi, decide_true, Bool.true_and,
      BitVec.getLsbD_zero]
    cases hx : x.getLsbD i <;> simp_all
  · intro h
    apply BitVec.eq_of_getLsbD_eq
    intro i hi
    have hbit := congrArg (fun z => z.getLsbD i) h
    simp only [BitVec.getLsbD_and, BitVec.getLsbD_not, hi, decide_true, Bool.true_and,
      BitVec.getLsbD_zero] at hbit
    simp only [BitVec.getLsbD_or]
    cases hx : x.getLsbD i <;> simp_all

theorem encode_mode (mode asid ppn : Word) : encode mode asid ppn>>>60 = mode&&&0xF#64 := by
  apply bits_ext
  intro i
  simp only [encode, BitVec.getLsbD_ushiftRight, BitVec.getLsbD_or, BitVec.getLsbD_shiftLeft,
    BitVec.getLsbD_and, nibble_bit, asidMask_bit, encodeMask_bit]
  by_cases hi : i < 4
  · simp [hi, show 60+i < 64 by omega, show ¬ 60+i < 60 by omega, show ¬ 60+i < 44 by omega,
      show ¬ 60+i-44 < 16 by omega, show ¬ 60+i < 48 by omega]
  · simp [hi, show ¬ 60+i-44 < 16 by omega, show ¬ 60+i < 48 by omega]

theorem encode_ppn (mode asid ppn : Word) :
    encode mode asid ppn&&&((1#64<<<44)-1#64) = ppn&&&((1#64<<<44)-1#64) := by
  apply bits_ext
  intro i
  simp only [encode, BitVec.getLsbD_or, BitVec.getLsbD_shiftLeft, BitVec.getLsbD_and,
    nibble_bit, asidMask_bit, encodeMask_bit, ppnMask_bit]
  by_cases hi : i < 44
  · simp [hi, show i < 48 by omega, show i < 60 by omega]
  · simp [hi]

/-- What the id is read back as: the id and the bits spilled by the page number. -/
theorem encode_asid (mode asid ppn : Word) :
    (encode mode asid ppn>>>44)&&&0xFFFF#64 = (asid&&&0xFFFF#64)|||spill ppn := by
  apply bits_ext
  intro i
  simp only [encode, spill, BitVec.getLsbD_ushiftRight, BitVec.getLsbD_or,
    BitVec.getLsbD_shiftLeft, BitVec.getLsbD_and, nibble_bit, asidMask_bit, encodeMask_bit]
  by_cases hi : i < 16
  · by_cases hn : i < 4
    · simp [hi, hn, show 44+i < 64 by omega, show ¬ 44+i < 44 by omega,
        show 44+i < 60 by omega, show 44+i < 48 by omega]
    · simp [hi, hn, show 44+i < 64 by omega, show 44+i < 60 by omega,
        show ¬ 44+i < 48 by omega]
  · simp [hi, show ¬ i < 4 by omega]

theorem spill_low (asid ppn : Word) :
    spill ppn&&& ~~~(asid&&&0xFFFF#64) = spill ppn&&& ~~~asid := by
  apply bits_ext
  intro i
  simp only [spill, BitVec.getLsbD_and, BitVec.getLsbD_not, nibble_bit, asidMask_bit]
  by_cases hn : i < 4
  · simp [hn, show i < 16 by omega]
  · simp [hn]

theorem and_mask_toNat (x : Word) (k : ℕ) (mask : Word) (hm : mask.toNat = 2^k-1) :
    (x&&&mask).toNat = x.toNat%2^k := by
  rw [BitVec.toNat_and, hm, Nat.and_two_pow_sub_one_eq_mod]

theorem supported_nibble (mode : Word) (h : Supported mode) : mode&&&0xF#64 = mode := by
  rcases h with h | h | h | h <;> rw [h] <;> decide

theorem encode_supported (mode asid ppn : Word) (h : Supported mode) :
    Supported (encode mode asid ppn>>>60) := by
  rw [encode_mode, supported_nibble mode h]
  exact h

/-- A mode whose low four bits are no mode is refused, and the error has the encoded word. -/
theorem encode_unsupported (mode asid ppn : Word) (h : ¬ Supported (mode&&&0xF#64)) :
    SatpValue.new (encode mode asid ppn) = .error (.invalidSatp (encode mode asid ppn)) := by
  apply new_error
  rwa [encode_mode]

theorem asid_toNat (s : SatpValue) : s.asid.toNat = ((s.bits>>>44)&&&0xFFFF#64).toNat := by
  have hlt : ((s.bits>>>44)&&&0xFFFF#64).toNat < 2^16 := by
    rw [and_mask_toNat _ 16 0xFFFF#64 (by decide)]
    exact Nat.mod_lt _ (by decide)
  rw [SatpValue.asid, BitVec.toNat_setWidth, Nat.mod_eq_of_lt hlt]

/-- The fields stay apart exactly when the id already has the bits the page number
spills into it. -/
theorem reads_back_iff (mode asid ppn : Word) (hmode : Supported mode) :
    ReadsBack mode asid ppn ↔ spill ppn&&& ~~~asid = 0#64 := by
  have hs := encode_supported mode asid ppn hmode
  have hnew := new_ok (encode mode asid ppn) hs
  have hppn : (SatpValue.mk (encode mode asid ppn) hs).ppn.toNat = ppn.toNat%2^44 := by
    rw [SatpValue.ppn, encode_ppn, and_mask_toNat ppn 44 _ (by decide)]
  have htop : (SatpValue.mk (encode mode asid ppn) hs).asU64>>>60 = mode := by
    rw [SatpValue.asU64, encode_mode, supported_nibble mode hmode]
  have hasid : (SatpValue.mk (encode mode asid ppn) hs).asid.toNat = asid.toNat%2^16 ↔
      spill ppn&&& ~~~asid = 0#64 := by
    rw [asid_toNat, encode_asid, ← and_mask_toNat asid 16 0xFFFF#64 (by decide),
      BitVec.toNat_inj, or_absorbs, spill_low]
  constructor
  · rintro ⟨s,hok,h,-,-⟩
    rw [hnew] at hok
    obtain rfl := Except.ok.inj hok
    exact hasid.mp h
  · intro h
    exact ⟨_,hnew,hasid.mpr h,hppn,htop⟩

theorem reads_back_sv48 : ReadsBack modeSv48 0x1F#64 0x8100000012345#64 :=
  (reads_back_iff modeSv48 0x1F#64 0x8100000012345#64 (by decide)).mpr (by decide)

/-- A root table just above the field, under id 0, is read back as id 1. -/
theorem ppn_leaks_into_asid :
    Supported modeSv39 ∧ ¬ ReadsBack modeSv39 0#64 (1#64<<<44) := by
  refine ⟨by decide,?_⟩
  rintro ⟨s,hok,h,-,-⟩
  rw [new_ok _ (by decide)] at hok
  obtain rfl := Except.ok.inj hok
  revert h
  decide

def rootValue (rootTable : Word) : Word := encode modeSv48 0#64 (rootTable>>>12)

theorem root_reads_back (rootTable : Word) (h : rootTable.toNat < 2^56) :
    ∃ s, SatpValue.new (rootValue rootTable) = .ok s ∧ s.asid = 0#16 ∧
      s.ppn = rootTable>>>12 ∧ s.asU64>>>60 = modeSv48 := by
  have hs := encode_supported modeSv48 0#64 (rootTable>>>12) (by decide)
  have hsmall : (rootTable>>>12).toNat < 2^44 := by
    rw [BitVec.toNat_ushiftRight, Nat.shiftRight_eq_div_pow]
    omega
  have hspill : spill (rootTable>>>12) = 0#64 := by
    apply BitVec.eq_of_toNat_eq
    rw [spill, BitVec.toNat_and, BitVec.toNat_ushiftRight, Nat.shiftRight_eq_div_pow,
      Nat.div_eq_of_lt hsmall]
    simp
  refine ⟨_,new_ok _ hs,?_,?_,?_⟩
  · rw [SatpValue.asid, encode_asid, hspill]
    decide
  · apply BitVec.eq_of_toNat_eq
    rw [SatpValue.ppn, encode_ppn, and_mask_toNat _ 44 _ (by decide),
      Nat.mod_eq_of_lt hsmall]
  · rw [SatpValue.asU64, encode_mode, supported_nibble _ (by decide)]

end Zamak.SatpEncoding
