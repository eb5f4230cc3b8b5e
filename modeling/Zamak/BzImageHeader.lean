import Zamak.ZeroPage
import Zamak.PieLoading
import Zamak.PartialSteps

/-! # Reading the setup header

`parse_setup_header` with every index and the shift checked; `none` is a fault. The only
one there can be is the shift of a 32-bit one by the alignment byte. -/

set_option autoImplicit false

namespace Zamak.BzImageHeader
open Zamak.ZeroPage Zamak.PieLoading
open Zamak.PartialSteps (ok_past_guard)

/-- The little-endian number in `n` bytes at an offset, when they are all there. -/
def readLe (bytes : List UInt8) (offset n : ℕ) : Option ℕ :=
  if offset+n ≤ bytes.length then some (field bytes offset n) else none

def byteAt (bytes : List UInt8) (i : ℕ) : Option UInt8 := bytes[i]?

def shiftOne (count : ℕ) : Option ℕ := if count < 32 then some (2^count) else none

def readMinAlignment (bzimage : List UInt8) (version kernelAlignment : ℕ) : Option ℕ :=
  if version ≥ 0x020A then (readLe bzimage 0x235 1).bind shiftOne else some kernelAlignment

def readPrefAddress (bzimage : List UInt8) (version : ℕ) : Option ℕ :=
  if version ≥ 0x020A ∧ bzimage.length ≥ 0x260 then readLe bzimage 0x258 8
  else some defaultKernelLoadAddr

def parseSetupHeaderChecked (bzimage : List UInt8) :
    Option (Except LinuxBootError SetupHeader) :=
  if bzimage.length < 0x260 then some (.error .imageTooSmall)
  else do
    let magic ← readLe bzimage 0x202 4
    if magic ≠ hdrsMagic then some (.error .invalidMagic)
    else
      let version ← readLe bzimage 0x206 2
      if version < minBootProtocolVersion then some (.error (.unsupportedVersion version))
      else
        let sects ← readLe bzimage 0x1F1 1
        let syssize ← readLe bzimage 0x1F4 4
        let loadflags ← byteAt bzimage 0x211
        let kernelAlignment ← readLe bzimage 0x230 4
        let relocatable ← byteAt bzimage 0x234
        let minAlignment ← readMinAlignment bzimage version kernelAlignment
        let cmdlineSize ← readLe bzimage 0x238 4
        let initrdAddrMax ← readLe bzimage 0x22C 4
        let prefAddress ← readPrefAddress bzimage version
        let setupSects := if sects = 0 then 4 else sects
        let setupSize := (1+setupSects)*512
        if bzimage.length ≤ setupSize then some (.error .emptyKernel)
        else some (.ok
          { version := version
            setupSects := setupSects
            loadflags := loadflags
            syssize := syssize
            prefAddress := prefAddress
            relocatable := relocatable != 0
            kernelAlignment := kernelAlignment
            minAlignment := minAlignment
            cmdlineSize := cmdlineSize
            setupSize := setupSize
            initrdAddrMax := initrdAddrMax })

def kernelOffset (header : SetupHeader) : ℕ := header.setupSize

def kernelSize (header : SetupHeader) (bzimageLen : ℕ) : Option ℕ :=
  checkedSub bzimageLen header.setupSize

/-- The sizes and the alignment of an accepted header are those the image gives. -/
structure Describes (bzimage : List UInt8) (header : SetupHeader) : Prop where
  minAlignment : header.version ≥ 0x020A → header.minAlignment = 2^(bzimage.getD 0x235 0).toNat
  setupSize : header.setupSize = (1+header.setupSects)*512
  kernel : ∃ size, kernelSize header bzimage.length = some size ∧ 0 < size ∧
    kernelOffset header ≤ bzimage.length ∧ (bzimage.drop (kernelOffset header)).length = size

/-- The parser comes back without a fault, with an error or with a header that describes
the image. -/
def ParsesRight (bzimage : List UInt8) : Prop :=
  ∃ result, parseSetupHeaderChecked bzimage = some result ∧
    ∀ header, result = .ok header → Describes bzimage header

/-- The image is refused before the alignment byte is looked at, is older than the byte,
or has a shift count below 32 in it. -/
def ShiftFits (bzimage : List UInt8) : Prop :=
  bzimage.length < 0x260 ∨ field bzimage 0x202 4 ≠ hdrsMagic ∨ field bzimage 0x206 2 < 0x020A ∨
    (bzimage.getD 0x235 0).toNat < 32

instance (bzimage : List UInt8) : Decidable (ShiftFits bzimage) :=
  inferInstanceAs (Decidable (_ ∨ _))

section Fields
variable (bzimage : List UInt8)

theorem readLe_within (hlong : ¬bzimage.length < 0x260) (offset n : ℕ) (h : offset+n ≤ 0x260) :
    readLe bzimage offset n = some (field bzimage offset n) := if_pos (by omega)

theorem byteAt_within (hlong : ¬bzimage.length < 0x260) (i : ℕ) (h : i < 0x260) :
    byteAt bzimage i = some (bzimage.getD i 0) := by
  have hin : i < bzimage.length := by omega
  rw [byteAt,List.getElem?_eq_getElem hin,List.getD_eq_getElem _ _ hin]

theorem field_byte (hlong : ¬bzimage.length < 0x260) (i : ℕ) (h : i < 0x260) :
    field bzimage i 1 = (bzimage.getD i 0).toNat := by
  have hin : i < bzimage.length := by omega
  rw [field,List.drop_eq_getElem_cons hin,List.take_succ_cons,List.take_zero,
    List.getD_eq_getElem _ _ hin]
  exact Nat.add_zero _

theorem readMinAlignment_eq (hlong : ¬bzimage.length < 0x260) (version kernelAlignment : ℕ)
    (hfits : version < 0x020A ∨ (bzimage.getD 0x235 0).toNat < 32) :
    readMinAlignment bzimage version kernelAlignment =
      some (if version ≥ 0x020A then 2^(field bzimage 0x235 1%32) else kernelAlignment) := by
  rw [readMinAlignment]
  by_cases hversion : version ≥ 0x020A
  · have hshift : (bzimage.getD 0x235 0).toNat < 32 := hfits.resolve_left (Nat.not_lt.mpr hversion)
    rw [if_pos hversion,if_pos hversion,readLe_within bzimage hlong _ _ (by decide),
      Option.bind_some,field_byte bzimage hlong _ (by decide),shiftOne,if_pos hshift,
      Nat.mod_eq_of_lt hshift]
  · rw [if_neg hversion,if_neg hversion]

theorem readPrefAddress_eq (hlong : ¬bzimage.length < 0x260) (version : ℕ) :
    readPrefAddress bzimage version =
      some (if version ≥ 0x020A then field bzimage 0x258 8 else defaultKernelLoadAddr) := by
  rw [readPrefAddress]
  by_cases hversion : version ≥ 0x020A
  · rw [if_pos ⟨hversion,Nat.le_of_not_lt hlong⟩,if_pos hversion]
    exact readLe_within bzimage hlong _ _ (by decide)
  · rw [if_neg (fun h => hversion h.1),if_neg hversion]

/-- Where the shift fits, the parser comes back with what it computes without checks. -/
theorem parseSetupHeaderChecked_eq (hfits : ShiftFits bzimage) :
    parseSetupHeaderChecked bzimage = some (parseSetupHeader bzimage) := by
  rw [parseSetupHeaderChecked,parseSetupHeader]
  by_cases hshort : bzimage.length < 0x260
  · rw [if_pos hshort,if_pos hshort]
  · rw [if_neg hshort,if_neg hshort,readLe_within bzimage hshort _ _ (by decide),
      Option.bind_eq_bind,Option.bind_some]
    by_cases hmagic : field bzimage 0x202 4 ≠ hdrsMagic
    · rw [if_pos hmagic,if_pos hmagic]
    · have hlast : field bzimage 0x206 2 < 0x020A ∨ (bzimage.getD 0x235 0).toNat < 32 :=
        (hfits.resolve_left hshort).resolve_left hmagic
      rw [if_neg hmagic,if_neg hmagic,readLe_within bzimage hshort _ _ (by decide),
        Option.bind_some]
      by_cases hold : field bzimage 0x206 2 < minBootProtocolVersion
      · rw [if_pos hold]
        exact congrArg some (if_pos hold).symm
      · rw [if_neg hold,readLe_within bzimage hshort 0x1F1 1 (by decide),
          readLe_within bzimage hshort 0x1F4 4 (by decide),
          byteAt_within bzimage hshort 0x211 (by decide),
          readLe_within bzimage hshort 0x230 4 (by decide),
          byteAt_within bzimage hshort 0x234 (by decide),
          readLe_within bzimage hshort 0x238 4 (by decide),
          readLe_within bzimage hshort 0x22C 4 (by decide),
          readPrefAddress_eq bzimage hshort]
        simp only [Option.bind_eq_bind,Option.bind_some,
          readMinAlignment_eq bzimage hshort _ _ hlast]
        by_cases hempty : bzimage.length ≤
            (1+if field bzimage 0x1F1 1 = 0 then 4 else field bzimage 0x1F1 1)*512
        · rw [if_neg hold,if_pos hempty,if_pos hempty]
        · rw [if_neg hold,if_neg hempty,if_neg hempty]

theorem parseSetupHeaderChecked_faults (hfits : ¬ShiftFits bzimage) :
    parseSetupHeaderChecked bzimage = none := by
  have hshort : ¬bzimage.length < 0x260 := fun h => hfits (Or.inl h)
  have hmagic : ¬field bzimage 0x202 4 ≠ hdrsMagic := fun h => hfits (Or.inr (Or.inl h))
  have hversion : field bzimage 0x206 2 ≥ 0x020A :=
    Nat.le_of_not_lt fun h => hfits (Or.inr (Or.inr (Or.inl h)))
  have hshift : ¬(bzimage.getD 0x235 0).toNat < 32 := fun h => hfits (Or.inr (Or.inr (Or.inr h)))
  have hold : ¬field bzimage 0x206 2 < minBootProtocolVersion :=
    Nat.not_lt.mpr (Nat.le_trans (by decide) hversion)
  have halignment : readMinAlignment bzimage (field bzimage 0x206 2) (field bzimage 0x230 4) =
      none := by
    rw [readMinAlignment,if_pos hversion,readLe_within bzimage hshort _ _ (by decide),
      Option.bind_some,field_byte bzimage hshort _ (by decide),shiftOne,if_neg hshift]
  rw [parseSetupHeaderChecked,if_neg hshort,readLe_within bzimage hshort _ _ (by decide),
    Option.bind_eq_bind,Option.bind_some,if_neg hmagic,readLe_within bzimage hshort _ _ (by decide),
    Option.bind_some,if_neg hold,readLe_within bzimage hshort 0x1F1 1 (by decide),
    readLe_within bzimage hshort 0x1F4 4 (by decide),
    byteAt_within bzimage hshort 0x211 (by decide),
    readLe_within bzimage hshort 0x230 4 (by decide),
    byteAt_within bzimage hshort 0x234 (by decide)]
  simp only [Option.bind_eq_bind,Option.bind_some,halignment,Option.bind_none]

theorem parseSetupHeader_ok (header : SetupHeader) (h : parseSetupHeader bzimage = .ok header) :
    ¬bzimage.length < 0x260 ∧ field bzimage 0x202 4 = hdrsMagic ∧
    header.version = field bzimage 0x206 2 ∧
    header.minAlignment = (if header.version ≥ 0x020A then 2^(field bzimage 0x235 1%32)
      else field bzimage 0x230 4) ∧
    header.setupSize = (1+header.setupSects)*512 ∧ header.setupSize < bzimage.length := by
  rw [parseSetupHeader] at h
  obtain ⟨hshort,h⟩ := ok_past_guard h
  obtain ⟨hmagic,h⟩ := ok_past_guard h
  dsimp only at h
  generalize (if field bzimage 0x1F1 1 = 0 then 4 else field bzimage 0x1F1 1) = setupSects at h
  obtain ⟨_,h⟩ := ok_past_guard h
  obtain ⟨hempty,h⟩ := ok_past_guard h
  cases h
  exact ⟨hshort,not_not.mp hmagic,rfl,rfl,rfl,Nat.lt_of_not_le hempty⟩

end Fields

theorem describes_header (bzimage : List UInt8) (hfits : ShiftFits bzimage) (header : SetupHeader)
    (h : parseSetupHeader bzimage = .ok header) : Describes bzimage header := by
  have ⟨hshort,hmagic,hversion,halignment,hsize,hkernel⟩ := parseSetupHeader_ok bzimage header h
  refine ⟨?_,hsize,bzimage.length-header.setupSize,?_,?_,?_,?_⟩
  · intro hnew
    have hshift : (bzimage.getD 0x235 0).toNat < 32 := by
      rcases hfits with hlen | hbad | hold | hlow
      · exact (hshort hlen).elim
      · exact (hbad hmagic).elim
      · omega
      · exact hlow
    rw [halignment,if_pos hnew,field_byte bzimage hshort _ (by decide),Nat.mod_eq_of_lt hshift]
  · exact if_pos (Nat.le_of_lt hkernel)
  · omega
  · exact Nat.le_of_lt hkernel
  · rw [List.length_drop]
    rfl

/-- The parser is right exactly on the images whose shift count fits, or is not reached. -/
theorem parseSetupHeader_right_iff (bzimage : List UInt8) :
    ParsesRight bzimage ↔ ShiftFits bzimage := by
  constructor
  · rintro ⟨result,hresult,-⟩
    by_contra hfits
    rw [parseSetupHeaderChecked_faults bzimage hfits] at hresult
    cases hresult
  · intro hfits
    refine ⟨parseSetupHeader bzimage,parseSetupHeaderChecked_eq bzimage hfits,?_⟩
    intro header hok
    exact describes_header bzimage hfits header hok

def overShifted : List UInt8 := WindowSearch.splice (smallImage 0) 0x235 [32]

theorem overShifted_faults :
    parseSetupHeaderChecked overShifted = none ∧ ¬ParsesRight overShifted := by
  have hnone := parseSetupHeaderChecked_faults overShifted (by decide +kernel)
  refine ⟨hnone,?_⟩
  rintro ⟨result,hresult,-⟩
  rw [hnone] at hresult
  cases hresult

end Zamak.BzImageHeader
