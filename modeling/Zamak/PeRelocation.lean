import Mathlib.Data.BitVec
import Zamak.DisjointUpdates
import Zamak.Fat32Image
import Zamak.TagStreams

/-! # PE base relocation

`apply_relocations` of `pe.rs`. Relocation data is a sequence of blocks, each a page and the
entries of it; the entries are read from the data alone and applied to the image one after
the other. `usize` is 64 bits wide: sums of data offsets and of targets are exact in it, so
what can overflow is the `u32` sum of page and offset and the `i32` sums of the two 16-bit
kinds. -/

set_option autoImplicit false

namespace Zamak.PeRelocation
open Zamak.DisjointUpdates Zamak.Fat32Image Zamak.TagStreams Zamak.WindowSearch

def imageRelBasedAbsolute : ℕ := 0
def imageRelBasedHigh : ℕ := 1
def imageRelBasedLow : ℕ := 2
def imageRelBasedHighlow : ℕ := 3
def imageRelBasedDir64 : ℕ := 10

/-- What ends a relocation early: `RelocationOutOfBounds`, with the image as it is by then,
or an overflow. -/
inductive Stop where
  | outOfBounds (image : List UInt8)
  | overflow
  deriving DecidableEq, Repr

/-- The new value of a field, from the old one; `none` when its sum overflows. -/
def dir64Value (delta : BitVec 64) (val : ℕ) : Option ℕ := some (BitVec.ofNat 64 val+delta).toNat

def highlowValue (delta : BitVec 64) (val : ℕ) : Option ℕ :=
  some ((BitVec.ofNat 64 val+delta).setWidth 32).toNat

/-- A sum of `i32`s, as a `u16`. -/
def addI32 (val : ℕ) (shift : BitVec 32) : Option ℕ :=
  let sum : ℤ := val+shift.toInt
  if -2^31 ≤ sum ∧ sum < 2^31 then some (sum%2^16).toNat else none

def highValue (delta : BitVec 64) (val : ℕ) : Option ℕ :=
  addI32 val ((delta.sshiftRight 16).setWidth 32)

def lowValue (delta : BitVec 64) (val : ℕ) : Option ℕ := addI32 val (delta.setWidth 32)

/-- The arm of one kind: its bounds check, the field read, and the field written. -/
def patch (image : List UInt8) (target width : ℕ) (newVal : ℕ → Option ℕ) :
    Except Stop (List UInt8) :=
  if target+width > image.length then .error (.outOfBounds image)
  else
    match newVal (numberAt width image target) with
    | none => .error .overflow
    | some new => .ok (splice image target (natBytes width new))

def applyKind (delta : BitVec 64) (relocType target : ℕ) (image : List UInt8) :
    Except Stop (List UInt8) :=
  if relocType = imageRelBasedAbsolute then .ok image
  else if relocType = imageRelBasedDir64 then patch image target 8 (dir64Value delta)
  else if relocType = imageRelBasedHighlow then patch image target 4 (highlowValue delta)
  else if relocType = imageRelBasedHigh then patch image target 2 (highValue delta)
  else if relocType = imageRelBasedLow then patch image target 2 (lowValue delta)
  else .ok image

/-- One entry: its type in the upper four bits, its offset in the lower twelve. -/
def applyEntry (delta : BitVec 64) (virtualAddress entry : ℕ) (image : List UInt8) :
    Except Stop (List UInt8) :=
  let relocType := entry/2^12
  let relocOffset := entry%2^12
  match checkedAdd 32 virtualAddress relocOffset with
  | none => .error .overflow
  | some target => applyKind delta relocType target image

section Loops
variable (relocData : List UInt8) (delta : BitVec 64)

/-- The loop over the entries of a block, from the `i`-th on, with some left. -/
def applyEntries (virtualAddress entriesStart : ℕ) :
    ℕ → ℕ → List UInt8 → Except Stop (List UInt8)
  | 0, _, image => .ok image
  | left+1, i, image =>
    let entryOffset := entriesStart+i*2
    if entryOffset+2 > relocData.length then .ok image
    else
      (applyEntry delta virtualAddress (numberAt 2 relocData entryOffset) image).bind
        (applyEntries virtualAddress entriesStart left (i+1))

theorem block_left (offset size : ℕ) (hroom : offset+8 ≤ relocData.length) (hsize : ¬size < 8) :
    relocData.length-(offset+size) < relocData.length-offset := by
  omega

/-- The loop over the blocks. The head of a block is in the data when it is read. -/
def applyFrom (offset : ℕ) (image : List UInt8) : Except Stop (List UInt8) :=
  if offset+8 ≤ relocData.length then
    if wordAt relocData (offset+4) < 8 then .ok image
    else
      (applyEntries relocData delta (wordAt relocData offset) (offset+8)
        ((wordAt relocData (offset+4)-8)/2) 0 image).bind
        (applyFrom (offset+wordAt relocData (offset+4)))
  else .ok image
termination_by relocData.length-offset
decreasing_by exact block_left relocData offset _ ‹_› ‹_›

end Loops

def applyRelocations (image relocData : List UInt8) (delta : BitVec 64) :
    Except Stop (List UInt8) :=
  if delta = 0 ∨ relocData = [] then .ok image else applyFrom relocData delta 0 image

/-! ## The entries of the data -/

section Decode
variable (relocData : List UInt8)

/-- The entries of a block the data has room for, each with its page. -/
def blockEntries (virtualAddress entriesStart : ℕ) : ℕ → ℕ → List (ℕ × ℕ)
  | 0, _ => []
  | left+1, i =>
    if entriesStart+i*2+2 > relocData.length then []
    else
      (virtualAddress,numberAt 2 relocData (entriesStart+i*2))::
        blockEntries virtualAddress entriesStart left (i+1)

def entriesFrom (offset : ℕ) : List (ℕ × ℕ) :=
  if offset+8 ≤ relocData.length then
    if wordAt relocData (offset+4) < 8 then []
    else
      blockEntries relocData (wordAt relocData offset) (offset+8)
        ((wordAt relocData (offset+4)-8)/2) 0++
        entriesFrom (offset+wordAt relocData (offset+4))
  else []
termination_by relocData.length-offset
decreasing_by exact block_left relocData offset _ ‹_› ‹_›

def applyAll (delta : BitVec 64) : List (ℕ × ℕ) → List UInt8 → Except Stop (List UInt8)
  | [], image => .ok image
  | e::entries, image => (applyEntry delta e.1 e.2 image).bind (applyAll delta entries)

theorem applyAll_append (delta : BitVec 64) (entries rest : List (ℕ × ℕ)) (image : List UInt8) :
    applyAll delta (entries++rest) image =
      (applyAll delta entries image).bind (applyAll delta rest) := by
  induction entries generalizing image with
  | nil => rfl
  | cons e entries ih =>
    rw [List.cons_append,applyAll,applyAll]
    cases applyEntry delta e.1 e.2 image with
    | error stop => rfl
    | ok image' => exact ih image'

theorem applyEntries_eq (delta : BitVec 64) (virtualAddress entriesStart left i : ℕ)
    (image : List UInt8) :
    applyEntries relocData delta virtualAddress entriesStart left i image =
      applyAll delta (blockEntries relocData virtualAddress entriesStart left i) image := by
  induction left generalizing i image with
  | zero => rfl
  | succ left ih =>
    rw [applyEntries,blockEntries]
    split_ifs with hroom
    · rfl
    · rw [applyAll]
      congr 1
      funext image'
      exact ih (i+1) image'

theorem applyFrom_eq (delta : BitVec 64) (offset : ℕ) (image : List UInt8) :
    applyFrom relocData delta offset image =
      applyAll delta (entriesFrom relocData offset) image := by
  induction offset using entriesFrom.induct relocData generalizing image with
  | case1 offset hroom hsize =>
    rw [applyFrom,entriesFrom,if_pos hroom,if_pos hsize,if_pos hroom,if_pos hsize]
    rfl
  | case2 offset hroom hsize ih =>
    rw [applyFrom,entriesFrom,if_pos hroom,if_neg hsize,if_pos hroom,if_neg hsize,
      applyAll_append,applyEntries_eq]
    congr 1
    funext image'
    exact ih image'
  | case3 offset hroom =>
    rw [applyFrom,entriesFrom,if_neg hroom,if_neg hroom]
    rfl

end Decode

/-! ## What one entry does -/

def relocType (e : ℕ × ℕ) : ℕ := e.2/2^12

def target (e : ℕ × ℕ) : ℕ := e.1+e.2%2^12

/-- The width of the field of a kind; none for padding and for kinds that are skipped. -/
def widthOf (relocType : ℕ) : ℕ :=
  if relocType = imageRelBasedDir64 then 8
  else if relocType = imageRelBasedHighlow then 4
  else if relocType = imageRelBasedHigh then 2
  else if relocType = imageRelBasedLow then 2
  else 0

def site (e : ℕ × ℕ) : ℕ × ℕ := (target e,widthOf (relocType e))

def shiftOf (delta : BitVec 64) (relocType : ℕ) : BitVec 64 :=
  if relocType = imageRelBasedHigh then delta.sshiftRight 16 else delta

/-- A little-endian field with a number added, modulo its range. -/
def addField (shift : ℕ) (field : List UInt8) : List UInt8 :=
  natBytes field.length (bytesNat field+shift)

theorem addField_length (shift : ℕ) (field : List UInt8) :
    (addField shift field).length = field.length := natBytes_length _ _

def relocate (delta : BitVec 64) (image : List UInt8) (e : ℕ × ℕ) : List UInt8 :=
  update (addField (shiftOf delta (relocType e)).toNat) image (site e)

/-- The entry has no field, or its field is in the image. -/
def Reaches (e : ℕ × ℕ) (image : List UInt8) : Prop := (site e).2 = 0 ∨ Inside (site e) image

instance (e : ℕ × ℕ) (image : List UInt8) : Decidable (Reaches e image) :=
  inferInstanceAs (Decidable (_ ∨ _))

/-- The `i32` sum of a 16-bit field does not overflow. -/
def Sums (delta : BitVec 64) (relocType val : ℕ) : Prop :=
  (relocType = imageRelBasedHigh →
    (val : ℤ)+((delta.sshiftRight 16).setWidth 32).toInt < 2^31) ∧
  (relocType = imageRelBasedLow → (val : ℤ)+(delta.setWidth 32).toInt < 2^31)

instance (delta : BitVec 64) (relocType val : ℕ) : Decidable (Sums delta relocType val) :=
  inferInstanceAs (Decidable (_ ∧ _))

theorem dir64Value_bytes (delta : BitVec 64) (val : ℕ) :
    ∃ new, dir64Value delta val = some new ∧
      natBytes 8 new = natBytes 8 (val+delta.toNat) := by
  refine ⟨_,rfl,?_⟩
  rw [← natBytes_mod 8 (val+delta.toNat),BitVec.toNat_add,BitVec.toNat_ofNat]
  congr 1
  omega

theorem highlowValue_bytes (delta : BitVec 64) (val : ℕ) :
    ∃ new, highlowValue delta val = some new ∧
      natBytes 4 new = natBytes 4 (val+delta.toNat) := by
  refine ⟨_,rfl,?_⟩
  rw [← natBytes_mod 4 (val+delta.toNat),BitVec.toNat_setWidth,BitVec.toNat_add,
    BitVec.toNat_ofNat]
  congr 1
  omega

theorem addI32_bytes (val : ℕ) (shift : BitVec 64)
    (h : (val : ℤ)+(shift.setWidth 32).toInt < 2^31) :
    ∃ new, addI32 val (shift.setWidth 32) = some new ∧
      natBytes 2 new = natBytes 2 (val+shift.toNat) := by
  have hlow : -2^31 ≤ (shift.setWidth 32).toInt := BitVec.le_toInt _
  refine ⟨_,if_pos ⟨by omega,h⟩,?_⟩
  rw [← natBytes_mod 2 (val+shift.toNat)]
  congr 1
  have hint := BitVec.toInt_eq_toNat_cond (shift.setWidth 32)
  rw [BitVec.toNat_setWidth] at hint
  split_ifs at hint <;> omega

theorem addI32_overflows (val : ℕ) (shift : BitVec 32) (h : ¬(val : ℤ)+shift.toInt < 2^31) :
    addI32 val shift = none :=
  if_neg fun hsum => h hsum.2

section Patch
variable (image : List UInt8) (target width : ℕ) (newVal : ℕ → Option ℕ)

theorem patch_outside (h : ¬Inside (target,width) image) :
    patch image target width newVal = .error (.outOfBounds image) :=
  if_pos (Nat.lt_of_not_le h)

theorem patch_overflows (h : Inside (target,width) image)
    (hval : newVal (numberAt width image target) = none) :
    patch image target width newVal = .error .overflow := by
  rw [patch,if_neg (Nat.not_lt.mpr h),hval]

theorem patch_inside (shift : ℕ) (h : Inside (target,width) image)
    (hval : ∃ new, newVal (numberAt width image target) = some new ∧
      natBytes width new = natBytes width (numberAt width image target+shift)) :
    patch image target width newVal = .ok (update (addField shift) image (target,width)) := by
  obtain ⟨new,hnew,hbytes⟩ := hval
  have hlen := window_length image (target,width) h
  rw [patch,if_neg (Nat.not_lt.mpr h),hnew,update,addField,hlen]
  simp only [hbytes]
  rfl

end Patch

section Kind
variable (delta : BitVec 64) (place : ℕ) (image : List UInt8)

theorem patch_eq (kind : ℕ) (newVal : ℕ → Option ℕ) (hwidth : 0 < widthOf kind)
    (hval : Sums delta kind (numberAt 2 image place) →
      ∃ new, newVal (numberAt (widthOf kind) image place) = some new ∧
        natBytes (widthOf kind) new = natBytes (widthOf kind)
          (numberAt (widthOf kind) image place+(shiftOf delta kind).toNat))
    (hover : ¬Sums delta kind (numberAt 2 image place) →
      newVal (numberAt (widthOf kind) image place) = none) :
    patch image place (widthOf kind) newVal =
      if widthOf kind = 0 ∨ Inside (place,widthOf kind) image then
        if Sums delta kind (numberAt 2 image place) then
          .ok (update (addField (shiftOf delta kind).toNat) image (place,widthOf kind))
        else .error .overflow
      else .error (.outOfBounds image) := by
  by_cases hin : Inside (place,widthOf kind) image
  · rw [if_pos (Or.inr hin)]
    by_cases hsums : Sums delta kind (numberAt 2 image place)
    · rw [if_pos hsums]
      exact patch_inside image place _ newVal _ hin (hval hsums)
    · rw [if_neg hsums]
      exact patch_overflows image place _ newVal hin (hover hsums)
  · have hnone : ¬(widthOf kind = 0 ∨ Inside (place,widthOf kind) image) := by
      rintro (hzero | hinside)
      · exact absurd hzero (Nat.ne_of_gt hwidth)
      · exact hin hinside
    rw [if_neg hnone,patch_outside image place _ newVal hin]

theorem sums_of_wide (kind val : ℕ) (hhigh : kind ≠ imageRelBasedHigh)
    (hlow : kind ≠ imageRelBasedLow) : Sums delta kind val :=
  ⟨fun h => absurd h hhigh,fun h => absurd h hlow⟩

theorem skipped_eq (kind : ℕ) (hwidth : widthOf kind = 0) :
    Except.ok image =
      if widthOf kind = 0 ∨ Inside (place,widthOf kind) image then
        if Sums delta kind (numberAt 2 image place) then
          Except.ok (update (addField (shiftOf delta kind).toNat) image (place,widthOf kind))
        else .error .overflow
      else .error (Stop.outOfBounds image) := by
  have hhigh : kind ≠ imageRelBasedHigh := by
    rintro rfl
    cases hwidth
  have hlow : kind ≠ imageRelBasedLow := by
    rintro rfl
    cases hwidth
  rw [if_pos (Or.inl hwidth),if_pos (sums_of_wide delta kind _ hhigh hlow),hwidth,
    update_empty _ (addField_length _)]

theorem applyKind_eq (kind : ℕ) :
    applyKind delta kind place image =
      if widthOf kind = 0 ∨ Inside (place,widthOf kind) image then
        if Sums delta kind (numberAt 2 image place) then
          .ok (update (addField (shiftOf delta kind).toNat) image (place,widthOf kind))
        else .error .overflow
      else .error (.outOfBounds image) := by
  by_cases habsolute : kind = imageRelBasedAbsolute
  · subst habsolute
    exact skipped_eq delta place image _ rfl
  by_cases hdir64 : kind = imageRelBasedDir64
  · subst hdir64
    exact patch_eq delta place image imageRelBasedDir64 (dir64Value delta) (by decide)
      (fun _ => dir64Value_bytes delta _)
      (fun h => absurd (sums_of_wide delta _ _ (by decide) (by decide)) h)
  by_cases hhighlow : kind = imageRelBasedHighlow
  · subst hhighlow
    exact patch_eq delta place image imageRelBasedHighlow (highlowValue delta) (by decide)
      (fun _ => highlowValue_bytes delta _)
      (fun h => absurd (sums_of_wide delta _ _ (by decide) (by decide)) h)
  by_cases hhigh : kind = imageRelBasedHigh
  · subst hhigh
    exact patch_eq delta place image imageRelBasedHigh (highValue delta) (by decide)
      (fun h => addI32_bytes _ _ (h.1 rfl))
      (fun h => addI32_overflows _ _ fun hsum =>
        h ⟨fun _ => hsum,fun hlow => absurd hlow (by decide)⟩)
  by_cases hlow : kind = imageRelBasedLow
  · subst hlow
    exact patch_eq delta place image imageRelBasedLow (lowValue delta) (by decide)
      (fun h => addI32_bytes _ _ (h.2 rfl))
      (fun h => addI32_overflows _ _ fun hsum =>
        h ⟨fun hhigh => absurd hhigh (by decide),fun _ => hsum⟩)
  have hwidth : widthOf kind = 0 := by
    rw [widthOf,if_neg hdir64,if_neg hhighlow,if_neg hhigh,if_neg hlow]
  rw [applyKind,if_neg habsolute,if_neg hdir64,if_neg hhighlow,if_neg hhigh,if_neg hlow]
  exact skipped_eq delta place image kind hwidth

end Kind

/-- One entry: the sum of page and offset, then the bounds of its field, then its value. -/
theorem applyEntry_eq (delta : BitVec 64) (e : ℕ × ℕ) (image : List UInt8) :
    applyEntry delta e.1 e.2 image =
      if target e < 2^32 then
        if Reaches e image then
          if Sums delta (relocType e) (numberAt 2 image (target e)) then
            .ok (relocate delta image e)
          else .error .overflow
        else .error (.outOfBounds image)
      else .error .overflow := by
  by_cases hsum : target e < 2^32
  · have hadd : checkedAdd 32 e.1 (e.2%2^12) = some (target e) := if_pos hsum
    rw [if_pos hsum,applyEntry]
    simp only [hadd]
    exact applyKind_eq delta (target e) image (relocType e)
  · have hadd : checkedAdd 32 e.1 (e.2%2^12) = none := if_neg hsum
    rw [if_neg hsum,applyEntry]
    simp only [hadd]

theorem relocate_length (delta : BitVec 64) (image : List UInt8) (e : ℕ × ℕ)
    (h : Reaches e image) : (relocate delta image e).length = image.length := by
  rcases h with hzero | hinside
  · have hempty := update_empty _ (addField_length (shiftOf delta (relocType e)).toNat) image
      (target e)
    have hsite : site e = (target e,0) := Prod.ext rfl hzero
    rw [relocate,hsite,hempty]
  · exact update_length _ (addField_length _) image _ hinside

/-! ## Runs without an overflow -/

/-- The sums of every entry that is come to fit: that of page and offset, and when the field
is in the image as the entries before have left it, that of its value. -/
def NoOverflow (delta : BitVec 64) : List (ℕ × ℕ) → List UInt8 → Prop
  | [], _ => True
  | e::entries, image =>
    target e < 2^32 ∧
      (Reaches e image → Sums delta (relocType e) (numberAt 2 image (target e)) ∧
        NoOverflow delta entries (relocate delta image e))

/-- The run comes to an end with `Ok` or `RelocationOutOfBounds`, and the image has kept
its length, which a write past its end would have changed. -/
def Ends (image : List UInt8) (result : Except Stop (List UInt8)) : Prop :=
  ∃ image', image'.length = image.length ∧
    (result = .ok image' ∨ result = .error (.outOfBounds image'))

theorem not_ends_overflow (image : List UInt8) : ¬Ends image (.error .overflow) := by
  rintro ⟨image',-,h | h⟩ <;> cases h

theorem applyAll_ends_iff (delta : BitVec 64) (entries : List (ℕ × ℕ)) (image : List UInt8) :
    Ends image (applyAll delta entries image) ↔ NoOverflow delta entries image := by
  induction entries generalizing image with
  | nil => exact ⟨fun _ => trivial,fun _ => ⟨image,rfl,Or.inl rfl⟩⟩
  | cons e entries ih =>
    rw [applyAll,applyEntry_eq,NoOverflow]
    by_cases hsum : target e < 2^32
    · by_cases hreach : Reaches e image
      · by_cases hval : Sums delta (relocType e) (numberAt 2 image (target e))
        · have hrest := ih (relocate delta image e)
          rw [Ends,relocate_length delta image e hreach,← Ends] at hrest
          rw [if_pos hsum,if_pos hreach,if_pos hval]
          simp only [hsum,hreach,hval,true_and,true_implies]
          exact hrest
        · rw [if_pos hsum,if_pos hreach,if_neg hval]
          exact iff_of_false (not_ends_overflow image) fun h => hval (h.2 hreach).1
      · rw [if_pos hsum,if_neg hreach]
        exact iff_of_true ⟨image,rfl,Or.inr rfl⟩ ⟨hsum,fun h => absurd h hreach⟩
    · rw [if_neg hsum]
      exact iff_of_false (not_ends_overflow image) fun h => hsum h.1

theorem entriesFrom_empty : entriesFrom [] 0 = [] := by
  rw [entriesFrom,if_neg (by decide)]

/-- For every image, relocation data and delta, the relocation ends with `Ok` or
`RelocationOutOfBounds` exactly when there is nothing to add or no sum it makes overflows. -/
theorem applyRelocations_ends_iff (image relocData : List UInt8) (delta : BitVec 64) :
    Ends image (applyRelocations image relocData delta) ↔
      delta = 0 ∨ NoOverflow delta (entriesFrom relocData 0) image := by
  unfold applyRelocations
  by_cases hdelta : delta = 0
  · rw [if_pos (Or.inl hdelta)]
    exact iff_of_true ⟨image,rfl,Or.inl rfl⟩ (Or.inl hdelta)
  · by_cases hempty : relocData = []
    · subst hempty
      rw [if_pos (Or.inr rfl),entriesFrom_empty]
      exact iff_of_true ⟨image,rfl,Or.inl rfl⟩ (Or.inr trivial)
    · rw [if_neg (not_or.mpr ⟨hdelta,hempty⟩),applyFrom_eq,applyAll_ends_iff]
      exact (or_iff_right hdelta).symm

/-- A block of page 0 with one 16-bit field at its start and a padding entry. -/
def lowBlock : List UInt8 :=
  natBytes 4 0++natBytes 4 12++natBytes 2 (imageRelBasedLow*2^12)++natBytes 2 0

theorem lowBlock_entries : entriesFrom lowBlock 0 = [(0,0x2000),(0,0)] := by
  rw [entriesFrom,if_pos (by decide),if_neg (by decide),entriesFrom,if_neg (by decide)]
  decide

/-- The field holds 1 and the delta is the largest `i32`. -/
theorem low_overflows :
    applyRelocations [1,0] lowBlock 0x7FFFFFFF = .error .overflow ∧
      ¬Ends [1,0] (applyRelocations [1,0] lowBlock 0x7FFFFFFF) := by
  have hrun : applyRelocations [1,0] lowBlock 0x7FFFFFFF = .error .overflow := by
    rw [applyRelocations,if_neg (by decide),applyFrom_eq,lowBlock_entries]
    decide
  rw [hrun]
  exact ⟨rfl,not_ends_overflow _⟩

/-! ## Well-formed blocks -/

inductive Entry where
  | absolute (offset : Fin 4096)
  | dir64 (offset : Fin 4096)
  | highlow (offset : Fin 4096)
  deriving DecidableEq

namespace Entry

def offset : Entry → ℕ
  | .absolute offset => offset.val
  | .dir64 offset => offset.val
  | .highlow offset => offset.val

def kind : Entry → ℕ
  | .absolute _ => imageRelBasedAbsolute
  | .dir64 _ => imageRelBasedDir64
  | .highlow _ => imageRelBasedHighlow

def code (e : Entry) : ℕ := e.kind*2^12+e.offset

def field (page : ℕ) : Entry → Option (ℕ × ℕ)
  | .absolute _ => none
  | .dir64 offset => some (page+offset.val,8)
  | .highlow offset => some (page+offset.val,4)

theorem offset_lt (e : Entry) : e.offset < 2^12 := by
  cases e with
  | absolute offset => exact offset.isLt
  | dir64 offset => exact offset.isLt
  | highlow offset => exact offset.isLt

theorem kind_le (e : Entry) : e.kind ≤ 10 := by
  cases e <;> exact of_decide_eq_true rfl

theorem code_lt (e : Entry) : e.code < 256^2 := by
  have := e.offset_lt
  have := e.kind_le
  unfold code
  omega

theorem code_offset (e : Entry) : e.code%2^12 = e.offset := by
  have := e.offset_lt
  unfold code
  omega

theorem code_kind (e : Entry) : e.code/2^12 = e.kind := by
  have := e.offset_lt
  unfold code
  omega

end Entry

/-- A block: its size is a `u32`, and so are the addresses of its entries. -/
structure Block where
  virtualAddress : UInt32
  entries : List Entry
  sized : 8+2*entries.length < 2^32
  addressed : ∀ e ∈ entries, virtualAddress.toNat+e.offset < 2^32

def codeBytes (entries : List Entry) : List UInt8 := entries.flatMap fun e => natBytes 2 e.code

def Block.bytes (b : Block) : List UInt8 :=
  natBytes 4 b.virtualAddress.toNat++(natBytes 4 (8+2*b.entries.length)++codeBytes b.entries)

def relocBytes (blocks : List Block) : List UInt8 := blocks.flatMap Block.bytes

def listed (blocks : List Block) : List (ℕ × Entry) :=
  blocks.flatMap fun b => b.entries.map fun e => (b.virtualAddress.toNat,e)

def fieldOf (p : ℕ × Entry) : Option (ℕ × ℕ) := p.2.field p.1

def fields (blocks : List Block) : List (ℕ × ℕ) := (listed blocks).filterMap fieldOf

theorem codeBytes_length (entries : List Entry) :
    (codeBytes entries).length = 2*entries.length := flatMap_natBytes_length 2 Entry.code entries

theorem block_length (b : Block) : b.bytes.length = 8+2*b.entries.length := by
  simp only [Block.bytes,List.length_append,natBytes_length,codeBytes_length]
  omega

theorem listed_cons (b : Block) (blocks : List Block) :
    listed (b::blocks) =
      (b.entries.map fun e => (b.virtualAddress.toNat,e))++listed blocks := rfl

theorem blockEntries_written (before rest : List UInt8) (page entriesStart : ℕ)
    (entries : List Entry) (i : ℕ) (hstart : entriesStart+i*2 = before.length) :
    blockEntries (before++(codeBytes entries++rest)) page entriesStart entries.length i =
      entries.map fun e => (page,e.code) := by
  induction entries generalizing before i with
  | nil => rfl
  | cons e entries ih =>
    have hfirst : codeBytes (e::entries)++rest = natBytes 2 e.code++(codeBytes entries++rest) := by
      rw [codeBytes,List.flatMap_cons,← codeBytes,List.append_assoc]
    have hroom : ¬entriesStart+i*2+2 >
        (before++(natBytes 2 e.code++(codeBytes entries++rest))).length := by
      simp only [List.length_append,natBytes_length]
      omega
    have hrest := ih (before++natBytes 2 e.code) (i+1) (by
      rw [List.length_append,natBytes_length]
      omega)
    rw [List.append_assoc] at hrest
    rw [hfirst,List.length_cons,blockEntries,if_neg hroom,hstart,
      numberAt_append 2 before _ _ e.code_lt,hrest,List.map_cons]

theorem entriesFrom_written (before : List UInt8) (blocks : List Block) :
    entriesFrom (before++relocBytes blocks) before.length =
      (listed blocks).map fun p => (p.1,p.2.code) := by
  induction blocks generalizing before with
  | nil =>
    rw [entriesFrom,if_neg (by simp [relocBytes])]
    rfl
  | cons b blocks ih =>
    have hcons : relocBytes (b::blocks) = b.bytes++relocBytes blocks := rfl
    have hlen := block_length b
    have hroom : before.length+8 ≤ (before++relocBytes (b::blocks)).length := by
      rw [hcons]
      simp only [List.length_append]
      omega
    have hpage : wordAt (before++relocBytes (b::blocks)) before.length =
        b.virtualAddress.toNat := by
      rw [hcons,Block.bytes,List.append_assoc]
      exact wordAt_append before _ _ b.virtualAddress.toNat_lt
    have hsize : wordAt (before++relocBytes (b::blocks)) (before.length+4) =
        8+2*b.entries.length := by
      rw [hcons,Block.bytes]
      simp only [List.append_assoc]
      exact numberAt_within 4 before (natBytes 4 b.virtualAddress.toNat) _ _ b.sized
    have hentries := blockEntries_written (before++(natBytes 4 b.virtualAddress.toNat++
      natBytes 4 (8+2*b.entries.length))) (relocBytes blocks) b.virtualAddress.toNat
      (before.length+8) b.entries 0 (by simp only [List.length_append,natBytes_length])
    have himage : before++(natBytes 4 b.virtualAddress.toNat++
        natBytes 4 (8+2*b.entries.length))++(codeBytes b.entries++relocBytes blocks) =
        before++relocBytes (b::blocks) := by
      rw [hcons,Block.bytes]
      simp only [List.append_assoc]
    have hrest := ih (before++b.bytes)
    rw [List.append_assoc,← hcons,List.length_append,hlen] at hrest
    rw [himage] at hentries
    rw [entriesFrom,if_pos hroom,hpage,hsize,if_neg (by omega),
      show (8+2*b.entries.length-8)/2 = b.entries.length by omega,hentries,hrest,listed_cons,
      List.map_append,List.map_map]
    rfl

theorem applyEntry_written (delta : BitVec 64) (page : ℕ) (e : Entry) (image : List UInt8)
    (haddressed : page+e.offset < 2^32)
    (hinside : ∀ s, e.field page = some s → Inside s image) :
    applyEntry delta page e.code image =
      .ok ((e.field page).elim image (update (addField delta.toNat) image)) := by
  have htarget : target (page,e.code) = page+e.offset := by
    rw [target,e.code_offset]
  have htype : relocType (page,e.code) = e.kind := e.code_kind
  have hhigh : e.kind ≠ imageRelBasedHigh := by
    cases e <;> exact of_decide_eq_true rfl
  have hlow : e.kind ≠ imageRelBasedLow := by
    cases e <;> exact of_decide_eq_true rfl
  have hshift : shiftOf delta e.kind = delta := if_neg hhigh
  have hsite : site (page,e.code) = (page+e.offset,widthOf e.kind) := by
    rw [site,htarget,htype]
  have heq : Reaches (page,e.code) image → applyEntry delta page e.code image =
      .ok (update (addField delta.toNat) image (page+e.offset,widthOf e.kind)) := by
    intro hreach
    have h := applyEntry_eq delta (page,e.code) image
    rw [if_pos hreach,relocate,hsite,htarget,htype,hshift,if_pos haddressed,
      if_pos (sums_of_wide delta _ _ hhigh hlow)] at h
    exact h
  cases e with
  | absolute offset =>
    rw [heq (Or.inl (by rw [hsite]; rfl))]
    exact congrArg Except.ok (update_empty _ (addField_length _) image _)
  | dir64 offset => exact heq (Or.inr (by rw [hsite]; exact hinside _ rfl))
  | highlow offset => exact heq (Or.inr (by rw [hsite]; exact hinside _ rfl))

theorem applyAll_written (delta : BitVec 64) (pairs : List (ℕ × Entry)) (image : List UInt8)
    (haddressed : ∀ p ∈ pairs, p.1+p.2.offset < 2^32)
    (hinside : ∀ s ∈ pairs.filterMap fieldOf, Inside s image) :
    applyAll delta (pairs.map fun p => (p.1,p.2.code)) image =
      .ok (updateAll (addField delta.toNat) (pairs.filterMap fieldOf) image) := by
  induction pairs generalizing image with
  | nil => rfl
  | cons p pairs ih =>
    have hrest : ∀ q ∈ pairs, q.1+q.2.offset < 2^32 := fun q hq =>
      haddressed q (List.mem_cons_of_mem p hq)
    have hfirst := applyEntry_written delta p.1 p.2 image (haddressed p List.mem_cons_self)
    rw [← fieldOf] at hfirst
    rw [List.map_cons,applyAll]
    cases hfield : fieldOf p with
    | none =>
      rw [List.filterMap_cons_none hfield] at hinside ⊢
      rw [hfield] at hfirst
      rw [hfirst fun s hs => by cases hs]
      exact ih image hrest hinside
    | some s =>
      rw [List.filterMap_cons_some hfield] at hinside ⊢
      have hs := hinside s List.mem_cons_self
      rw [hfield] at hfirst
      rw [hfirst fun s' hs' => Option.some.inj hs' ▸ hs]
      apply ih _ hrest
      intro s' hs'
      rw [Inside,Option.elim_some,update_length _ (addField_length _) image s hs]
      exact hinside s' (List.mem_cons_of_mem s hs')

theorem listed_addressed (blocks : List Block) (p : ℕ × Entry) (h : p ∈ listed blocks) :
    p.1+p.2.offset < 2^32 := by
  obtain ⟨b,-,hp⟩ := List.mem_flatMap.mp h
  obtain ⟨e,he,rfl⟩ := List.mem_map.mp hp
  exact b.addressed e he

theorem fields_width (blocks : List Block) (s : ℕ × ℕ) (h : s ∈ fields blocks) :
    s.2 = 8 ∨ s.2 = 4 := by
  obtain ⟨p,-,hp⟩ := List.mem_filterMap.mp h
  rw [fieldOf] at hp
  cases he : p.2 with
  | absolute offset =>
    rw [he] at hp
    cases hp
  | dir64 offset =>
    rw [he] at hp
    cases hp
    exact Or.inl rfl
  | highlow offset =>
    rw [he] at hp
    cases hp
    exact Or.inr rfl

theorem mem_fields (blocks : List Block) (b : Block) (hb : b ∈ blocks) (e : Entry)
    (he : e ∈ b.entries) (s : ℕ × ℕ) (hs : e.field b.virtualAddress.toNat = some s) :
    s ∈ fields blocks :=
  List.mem_filterMap.mpr ⟨(b.virtualAddress.toNat,e),
    List.mem_flatMap.mpr ⟨b,hb,List.mem_map.mpr ⟨e,he,rfl⟩⟩,hs⟩

theorem bytesNat_addField (shift : ℕ) (field : List UInt8) :
    bytesNat (addField shift field) = (bytesNat field+shift)%256^field.length :=
  bytesNat_natBytes_mod _ _

theorem addField_back (shift back : ℕ) (field : List UInt8)
    (h : 256^field.length∣shift+back) : addField back (addField shift field) = field := by
  have hsum : ((bytesNat field+shift)%256^field.length+back)%256^field.length =
      bytesNat field%256^field.length := by
    rw [Nat.mod_add_mod,Nat.add_assoc,Nat.add_mod,Nat.mod_eq_zero_of_dvd h,Nat.add_zero,
      Nat.mod_mod]
  rw [addField,bytesNat_addField,addField_length,← natBytes_mod,hsum,natBytes_mod,
    natBytes_bytesNat]

theorem delta_back (delta : BitVec 64) : 2^64∣delta.toNat+(-delta).toNat := by
  have hlt := delta.isLt
  rw [BitVec.toNat_neg]
  omega

theorem width_dvd (width : ℕ) (h : width = 8 ∨ width = 4) : 256^width∣2^64 := by
  rcases h with rfl | rfl <;> decide

theorem applyRelocations_written (image : List UInt8) (blocks : List Block) (delta : BitVec 64)
    (hdelta : delta ≠ 0) (hinside : ∀ s ∈ fields blocks, Inside s image) :
    applyRelocations image (relocBytes blocks) delta =
      .ok (updateAll (addField delta.toNat) (fields blocks) image) := by
  have hentries := entriesFrom_written [] blocks
  rw [List.nil_append,List.length_nil] at hentries
  have hall := applyAll_written delta (listed blocks) image (listed_addressed blocks) hinside
  rw [← hentries,← applyFrom_eq] at hall
  unfold applyRelocations
  by_cases hempty : relocBytes blocks = []
  · rw [hempty,applyFrom,if_neg (by decide)] at hall
    rw [if_pos (Or.inr hempty)]
    exact hall
  · rw [if_neg (not_or.mpr ⟨hdelta,hempty⟩)]
    exact hall

/-- Well-formed blocks with fields in the image and apart from each other: every field is
shifted by the delta modulo its range, nothing else changes, and the negated delta brings
the image back. -/
theorem applyRelocations_blocks (image : List UInt8) (blocks : List Block) (delta : BitVec 64)
    (hdelta : delta ≠ 0) (hinside : ∀ s ∈ fields blocks, Inside s image)
    (hapart : (fields blocks).Pairwise Apart) :
    ∃ image', applyRelocations image (relocBytes blocks) delta = .ok image' ∧
      image'.length = image.length ∧
      (∀ b ∈ blocks, ∀ offset, .dir64 offset ∈ b.entries →
        numberAt 8 image' (b.virtualAddress.toNat+offset.val) =
          (numberAt 8 image (b.virtualAddress.toNat+offset.val)+delta.toNat)%2^64) ∧
      (∀ b ∈ blocks, ∀ offset, .highlow offset ∈ b.entries →
        numberAt 4 image' (b.virtualAddress.toNat+offset.val) =
          (numberAt 4 image (b.virtualAddress.toNat+offset.val)+delta.toNat)%2^32) ∧
      (∀ i, (∀ s ∈ fields blocks, i < s.1 ∨ s.1+s.2 ≤ i) → image'[i]? = image[i]?) ∧
      applyRelocations image' (relocBytes blocks) (-delta) = .ok image := by
  have hlen := updateAll_length (addField delta.toNat) (addField_length _) (fields blocks) image
    hinside
  have hfield : ∀ s ∈ fields blocks,
      numberAt s.2 (updateAll (addField delta.toNat) (fields blocks) image) s.1 =
        (numberAt s.2 image s.1+delta.toNat)%256^s.2 := by
    intro s hs
    have hwindow := updateAll_site (addField delta.toNat) (addField_length _) (fields blocks)
      image hinside hapart s hs
    have hnumber := congrArg bytesNat hwindow
    rw [bytesNat_addField,window_length image s (hinside s hs)] at hnumber
    exact hnumber
  refine ⟨_,applyRelocations_written image blocks delta hdelta hinside,hlen,?_,?_,?_,?_⟩
  · intro b hb offset hmem
    exact hfield _ (mem_fields blocks b hb _ hmem _ rfl)
  · intro b hb offset hmem
    exact hfield _ (mem_fields blocks b hb _ hmem _ rfl)
  · intro i hout
    exact updateAll_elsewhere _ (addField_length _) _ image i hinside hout
  · have hneg : -delta ≠ 0 := by
      intro h
      exact hdelta (BitVec.neg_eq_zero_iff.mp h)
    have hinside' : ∀ s ∈ fields blocks,
        Inside s (updateAll (addField delta.toNat) (fields blocks) image) := by
      intro s hs
      rw [Inside,hlen]
      exact hinside s hs
    rw [applyRelocations_written _ blocks (-delta) hneg hinside']
    congr 1
    apply updateAll_inverse _ _ (addField_length _) (addField_length _) _ _ hinside hapart
    intro s hs
    apply addField_back
    rw [window_length image s (hinside s hs)]
    exact Nat.dvd_trans (width_dvd s.2 (fields_width blocks s hs)) (delta_back delta)

def sampleEntries : List Entry := [.dir64 0,.highlow 8,.absolute 0]

theorem sample_sized : 8+2*sampleEntries.length < 2^32 := by decide

theorem sample_addressed : ∀ e ∈ sampleEntries, (0 : UInt32).toNat+e.offset < 2^32 := by decide

def sampleBlock : Block := ⟨0,sampleEntries,sample_sized,sample_addressed⟩

/-- Both fields wrap round, and come back. -/
theorem applyRelocations_sample :
    ∃ image', applyRelocations (List.replicate 12 0xFF) (relocBytes [sampleBlock]) 1 = .ok image' ∧
      numberAt 8 image' 0 = 0 ∧ numberAt 4 image' 8 = 0 ∧
      applyRelocations image' (relocBytes [sampleBlock]) (-1) = .ok (List.replicate 12 0xFF) := by
  obtain ⟨image',hrun,-,hdir64,hhighlow,-,hback⟩ :=
    applyRelocations_blocks (List.replicate 12 0xFF) [sampleBlock] 1 (by decide) (by decide)
      (by decide)
  have h8 := hdir64 sampleBlock List.mem_cons_self 0 (by decide)
  have h4 := hhighlow sampleBlock List.mem_cons_self 8 (by decide)
  exact ⟨image',hrun,h8,h4,hback⟩

end Zamak.PeRelocation
