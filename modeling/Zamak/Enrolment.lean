import Zamak.EnrolledHash

/-! # Enrolling on the host, checking at boot

Writing a digest behind the signature the host finds moves neither search: both
read the first occurrence, and the write starts past its end. What is read back is
what was written, and the check made at boot accepts exactly the contents with the
enrolled digest. The host command does what `patch_hash` does, unless the file ends
inside the slot. -/

set_option autoImplicit false

namespace Zamak.Enrolment
open Zamak.WindowSearch Zamak.Blake2bHash Zamak.Blake2bAgree Zamak.ConfigParse
  Zamak.EnrolledHash

theorem diff_eq_zero_iff (xs ys : List UInt8) (indices : List ℕ) (diff : UInt8) :
    indices.foldl (fun diff i => diff|||(xs.getD i 0 ^^^ ys.getD i 0)) diff = 0 ↔
      diff = 0 ∧ ∀ i ∈ indices, xs.getD i 0 = ys.getD i 0 := by
  induction indices generalizing diff with
  | nil => simp
  | cons i indices ih =>
    rw [List.foldl_cons,ih,UInt8.or_eq_zero_iff,UInt8.xor_eq_zero_iff]
    simp [and_assoc]

theorem finalize_length (s : Core.Blake2b) : (Core.finalize s).length = 64 := by
  unfold Core.finalize
  simp [List.length_flatMap,toLeBytes_length]

theorem hash_take_length (data : List UInt8) :
    ((Core.hash data 32 (by decide)).take 32).length = 32 := by
  unfold Core.hash
  simp [finalize_length]

theorem verify_iff (config : Config) (hash : Hash) (content : List UInt8) :
    verifyConfigHash (enrollConfigHash config hash) content = true ↔
      (Core.hash content 32 (by decide)).take 32 = hash.toList := by
  have hlen := hash_take_length content
  show (_ == (0 : UInt8)) = true ↔ _
  rw [beq_iff_eq,diff_eq_zero_iff]
  constructor
  · rintro ⟨_,hsame⟩
    apply List.ext_getElem
    · simp [hlen]
    · intro i hi hj
      have hi' : i < 32 := by omega
      have h := hsame i (List.mem_range.mpr hi')
      have hfull : i < (Core.hash content 32 (by decide)).length := by
        rw [List.length_take] at hi
        omega
      rw [List.getD_eq_getElem?_getD,List.getD_eq_getElem?_getD,
        List.getElem?_eq_getElem hj,List.getElem?_eq_getElem hfull] at h
      rw [List.getElem_take]
      exact h.symm
  · intro h
    refine ⟨rfl,?_⟩
    intro i hi
    rw [← h,List.getD_eq_getElem?_getD,List.getD_eq_getElem?_getD,
      List.getElem?_take_of_lt (List.mem_range.mp hi)]

theorem blake2b256_toList (data : List UInt8) :
    (blake2b256 data).toList = (Core.hash data 32 (by decide)).take 32 := by
  rw [boot_digest,← host_digest]
  simp [blake2b256]

def writeHash (image : List UInt8) (offset : ℕ) (hash : Hash) : List UInt8 :=
  splice image (offset+16) hash.toList

section Write
variable (image : List UInt8) (offset : ℕ) (hash : Hash)
  (hfound : findHashSlot image = some offset) (hroom : offset+48 ≤ image.length)

include hroom in
theorem writeHash_only :
    (writeHash image offset hash).length = image.length ∧
      ∀ i, i < offset+16 ∨ offset+48 ≤ i → (writeHash image offset hash)[i]? = image[i]? := by
  have hlen : hash.toList.length = 32 := by simp
  constructor
  · apply splice_length
    omega
  · rintro i (hi | hi)
    · exact splice_before image _ _ (by omega) i hi
    · exact splice_after image _ _ (by omega) i (by omega)

include hfound hroom in
theorem writeHash_found : findHashSlot (writeHash image offset hash) = some offset := by
  have hlen : hash.toList.length = 32 := by simp
  have hsig : enrolledHashSignature.length = 16 := rfl
  exact position_splice image hash.toList (offset+16) enrolledHashSignature offset hfound
    (by omega) (by omega)

include hroom in
theorem writeHash_read (hz : allZero hash = false) :
    readHashAt (writeHash image offset hash) offset = some hash := by
  have hlen : hash.toList.length = 32 := by simp
  have hroom' : offset+16+enrolledHashLen ≤ (writeHash image offset hash).length := by
    rw [(writeHash_only image offset hash hroom).1]
    unfold enrolledHashLen
    omega
  have hback : hashAt (writeHash image offset hash) (offset+16) hroom' = hash := by
    have hread := splice_read image hash.toList (offset+16) (by omega)
    rw [hlen] at hread
    apply Vector.toArray_inj.mp
    show (((splice image (offset+16) hash.toList).drop (offset+16)).take 32).toArray = _
    rw [hread]
    rfl
  unfold readHashAt
  rw [dif_pos hroom']
  simp only [hback,hz]
  rfl

end Write

/-- A complete slot anywhere gives a complete first one, found by both searches. -/
theorem slot_found (image : List UInt8) (k : ℕ) (hk : k+48 ≤ image.length)
    (hsig : (image.drop k).take 16 = enrolledHashSignature) :
    ∃ offset, findHashSlot image = some offset ∧ findSlot image = some offset ∧
      offset+48 ≤ image.length := by
  have hlen : enrolledHashSignature.length = 16 := rfl
  obtain ⟨offset,hle,hfound⟩ :=
    position_exists enrolledHashSignature image k (by omega) hsig
  refine ⟨offset,hfound,?_,by omega⟩
  unfold findSlot enrolledHashRecordLen enrolledHashLen
  rw [if_neg (by omega)]
  exact hfound

theorem findSlot_eq (image : List UInt8) (h : 48 ≤ image.length) :
    findSlot image = findHashSlot image := by
  unfold findSlot enrolledHashRecordLen enrolledHashLen
  rw [if_neg (by omega)]
  rfl

section Complete
variable (configData efiData : List UInt8) (dryRun confirmed : Bool) (offset : ℕ)
  (hfound : findHashSlot efiData = some offset) (hroom : offset+48 ≤ efiData.length)

include hfound hroom in
theorem patchHash_complete (hash : Hash) :
    patchHash efiData hash = .ok (writeHash efiData offset hash) := by
  have hslot : findSlot efiData = some offset := by
    rw [findSlot_eq efiData (by omega)]
    exact hfound
  have hend : offset+16+enrolledHashLen ≤ efiData.length := hroom
  unfold patchHash
  simp only [hslot,hend,if_true]
  rfl

include hfound hroom in
theorem enrollConfig_complete :
    enrollConfig configData efiData dryRun confirmed =
      if dryRun then .dryRun
      else if (efiData.drop (offset+16)).take 32 = (blake2b256 configData).toList
        then .alreadyEnrolled
      else if confirmed then .patched (writeHash efiData offset (blake2b256 configData))
      else .declined := by
  have hroom' : offset+enrolledHashSignature.length+32 ≤ efiData.length := hroom
  unfold enrollConfig
  simp only [hfound,hroom',if_true]
  rfl

end Complete

/-- The host command leaves the image with the digest written, or finds it there. -/
theorem enrollConfig_eq (image content : List UInt8) (offset : ℕ)
    (hfound : findHashSlot image = some offset) (hroom : offset+48 ≤ image.length) :
    enrollConfig content image false true =
      if (image.drop (offset+16)).take 32 = (blake2b256 content).toList then .alreadyEnrolled
      else .patched (writeHash image offset (blake2b256 content)) :=
  enrollConfig_complete content image false true offset hfound hroom

/-- Host and boot side agree on enrolment, for every image with a complete slot and
every configuration content. -/
theorem enrolment_agrees (image content : List UInt8) (k : ℕ) (hk : k+48 ≤ image.length)
    (hsig : (image.drop k).take 16 = enrolledHashSignature) :
    ∃ offset, findHashSlot image = some offset ∧ findSlot image = some offset ∧
      (writeHash image offset (blake2b256 content)).length = image.length ∧
      (∀ i, i < offset+16 ∨ offset+48 ≤ i →
        (writeHash image offset (blake2b256 content))[i]? = image[i]?) ∧
      enrollConfig content image false true =
        (if (image.drop (offset+16)).take 32 = (blake2b256 content).toList
          then .alreadyEnrolled
          else .patched (writeHash image offset (blake2b256 content))) ∧
      findSlot (writeHash image offset (blake2b256 content)) = some offset ∧
      patchHash image (blake2b256 content) =
        .ok (writeHash image offset (blake2b256 content)) ∧
      (allZero (blake2b256 content) = false →
        readHashAt (writeHash image offset (blake2b256 content)) offset =
          some (blake2b256 content)) ∧
      (∀ (config : Config) (other : List UInt8),
        verifyConfigHash (enrollConfigHash config (blake2b256 content)) other = true ↔
          (Core.hash other 32 (by decide)).take 32 =
            (Core.hash content 32 (by decide)).take 32) ∧
      ∀ second : List UInt8,
        (findHashSlot (writeHash image offset (blake2b256 content))).map
            (fun at' => writeHash (writeHash image offset (blake2b256 content)) at'
              (blake2b256 second)) =
          some (writeHash image offset (blake2b256 second)) := by
  obtain ⟨offset,hfound,hslot,hroom⟩ := slot_found image k hk hsig
  obtain ⟨hlen,honly⟩ := writeHash_only image offset (blake2b256 content) hroom
  have hagain := writeHash_found image offset (blake2b256 content) hfound hroom
  refine ⟨offset,hfound,hslot,hlen,honly,enrollConfig_eq image content offset hfound hroom,
    ?_,?_,writeHash_read image offset (blake2b256 content) hroom,?_,?_⟩
  · rw [findSlot_eq _ (by omega)]
    exact hagain
  · exact patchHash_complete image offset hfound hroom (blake2b256 content)
  · intro config other
    rw [verify_iff,blake2b256_toList]
  · intro second
    have hsame : (blake2b256 content).toList.length = (blake2b256 second).toList.length := by
      simp
    rw [hagain]
    exact congrArg some
      (splice_splice image (blake2b256 second).toList (offset+16) _ (by omega) hsame)

def slotImage : List UInt8 := 0xEB::enrolledHashSignature++List.replicate 32 0++[0x90]

theorem enrolment_agrees_slot :
    (enrollConfig [] slotImage false true =
      .patched (writeHash slotImage 1 (blake2b256 [])) ∨
      enrollConfig [] slotImage false true = .alreadyEnrolled) ∧
    patchHash slotImage (blake2b256 []) = .ok (writeHash slotImage 1 (blake2b256 [])) ∧
    findSlot (writeHash slotImage 1 (blake2b256 [])) = some 1 := by
  obtain ⟨offset,hfound,_,_,_,hrun,hagain,hpatch,_⟩ :=
    enrolment_agrees slotImage [] 1 (by decide) (by decide)
  have hoff : offset = 1 := by
    have h : findHashSlot slotImage = some 1 := by decide
    exact Option.some.inj (hfound.symm.trans h)
  subst hoff
  refine ⟨?_,hpatch,hagain⟩
  rw [hrun]
  by_cases hsame : (slotImage.drop (1+16)).take 32 = (blake2b256 []).toList
  · rw [if_pos hsame]
    exact Or.inr rfl
  · rw [if_neg hsame]
    exact Or.inl rfl

def fileAfter (efiData : List UInt8) : EnrollOutcome → List UInt8
  | .patched image => image
  | _ => efiData

def Reported (outcome : EnrollOutcome) : Prop := outcome = .notFound ∨ outcome = .declined

/-- The host command does what `patch_hash` does with the digest of the configuration: it
writes the same file when asked to, it fails where that fails, and it leaves the file
alone otherwise. -/
structure AsPatchHash (configData efiData : List UInt8) (dryRun confirmed : Bool) : Prop where
  inBounds : enrollConfig configData efiData dryRun confirmed ≠ .panicked
  patches : ∀ image, patchHash efiData (blake2b256 configData) = .ok image →
    dryRun = false → confirmed = true →
      ¬Reported (enrollConfig configData efiData dryRun confirmed) ∧
        fileAfter efiData (enrollConfig configData efiData dryRun confirmed) = image
  fails : ∀ error, patchHash efiData (blake2b256 configData) = .error error →
    Reported (enrollConfig configData efiData dryRun confirmed) ∧
      fileAfter efiData (enrollConfig configData efiData dryRun confirmed) = efiData
  keeps : dryRun = true ∨ confirmed = false →
    fileAfter efiData (enrollConfig configData efiData dryRun confirmed) = efiData

section Slot
variable (configData efiData : List UInt8) (dryRun confirmed : Bool) (offset : ℕ)
  (hfound : findHashSlot efiData = some offset)

include hfound in
theorem enrollConfig_truncated (hroom : ¬offset+48 ≤ efiData.length) :
    enrollConfig configData efiData dryRun confirmed = .panicked := by
  have hroom' : ¬offset+enrolledHashSignature.length+32 ≤ efiData.length := hroom
  unfold enrollConfig
  simp only [hfound,hroom',if_false]

include hfound in
/-- The slot is read before it is known to be there, so the two agree on a complete one. -/
theorem asPatchHash_complete (hroom : offset+48 ≤ efiData.length) :
    AsPatchHash configData efiData dryRun confirmed := by
  have hrun := enrollConfig_complete configData efiData dryRun confirmed offset hfound hroom
  have hpatch := patchHash_complete efiData offset hfound hroom (blake2b256 configData)
  have hsame : (efiData.drop (offset+16)).take 32 = (blake2b256 configData).toList →
      writeHash efiData offset (blake2b256 configData) = efiData := by
    intro h
    apply splice_self
    rw [Vector.length_toList]
    exact h
  constructor
  · rw [hrun]
    split_ifs <;> simp
  · intro image himage hdry hconfirmed
    rw [hpatch] at himage
    cases himage
    rw [hrun,hdry,hconfirmed]
    simp only [Bool.false_eq_true,if_false,if_true]
    split_ifs with h
    · exact ⟨by simp [Reported],(hsame h).symm⟩
    · exact ⟨by simp [Reported],rfl⟩
  · intro error herror
    rw [hpatch] at herror
    cases herror
  · intro hkeep
    rw [hrun]
    rcases hkeep with rfl | rfl
    · rfl
    · simp only [Bool.false_eq_true,if_false]
      split_ifs <;> rfl

end Slot

theorem findSlot_absent (image : List UInt8) (h : findHashSlot image = none) :
    findSlot image = none := by
  unfold findSlot
  split_ifs
  · rfl
  · exact h

theorem asPatchHash_absent (configData efiData : List UInt8) (dryRun confirmed : Bool)
    (h : findHashSlot efiData = none) : AsPatchHash configData efiData dryRun confirmed := by
  have hrun : enrollConfig configData efiData dryRun confirmed = .notFound := by
    unfold enrollConfig
    simp only [h]
  have hpatch : patchHash efiData (blake2b256 configData) = .error .signatureMissing := by
    unfold patchHash
    simp only [findSlot_absent efiData h]
  constructor
  · rw [hrun]
    simp
  · intro image himage
    rw [hpatch] at himage
    cases himage
  · intro error _
    rw [hrun]
    exact ⟨Or.inl rfl,rfl⟩
  · intro _
    rw [hrun]
    rfl

/-- For every configuration, loader file and flags, the command does what `patch_hash` does
exactly when there are 32 bytes behind the first signature, if there is one. -/
theorem asPatchHash_iff (configData efiData : List UInt8) (dryRun confirmed : Bool) :
    AsPatchHash configData efiData dryRun confirmed ↔
      ∀ offset, position enrolledHashSignature efiData = some offset →
        offset+16+32 ≤ efiData.length := by
  constructor
  · intro h offset hfound
    by_contra hroom
    exact h.inBounds
      (enrollConfig_truncated configData efiData dryRun confirmed offset hfound hroom)
  · intro h
    cases hfound : findHashSlot efiData with
    | none => exact asPatchHash_absent configData efiData dryRun confirmed hfound
    | some offset =>
      exact asPatchHash_complete configData efiData dryRun confirmed offset hfound
        (h offset hfound)

/-- A file that ends with its signature: reported by `patch_hash`, sliced by the command. -/
theorem signature_only_panics :
    patchHash enrolledHashSignature (blake2b256 []) = .error .signatureMissing ∧
      enrollConfig [] enrolledHashSignature false true = .panicked ∧
      ¬AsPatchHash [] enrolledHashSignature false true := by
  have hfound : findHashSlot enrolledHashSignature = some 0 := by decide
  have hrun := enrollConfig_truncated [] enrolledHashSignature false true 0 hfound (by decide)
  exact ⟨rfl,hrun,fun h => h.inBounds hrun⟩

end Zamak.Enrolment
