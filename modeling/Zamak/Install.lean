import Zamak.ConfigText
import Zamak.WindowSearch
import Zamak.TagStreams
import Mathlib.Data.List.GetD

/-! # Installing stage 2 from the host

`zamak install` patches the boot record with the place and the size of stage 2 and
writes both to the target. A target that begins with the patched record is taken to be
installed already, whatever it holds where stage 2 belongs. -/

set_option autoImplicit false

namespace Zamak.Install
open Zamak.WindowSearch Zamak.TagStreams
open Zamak.ConfigText (trim)

def sectorSize : ℕ := 512
def mbrStage2LbaOffset : ℕ := 440
def mbrStage2SizeOffset : ℕ := 444
def mbrSignatureOffset : ℕ := 510

/-- What `run` reads besides the target: the contents of the two files and the options.
The answer is the line typed at the prompt. -/
structure Inputs where
  mbr : List UInt8
  stage2 : List UInt8
  stage2Lba : ℕ
  dryRun : Bool
  yes : Bool
  force : Bool
  stdinIsTty : Bool
  answer : List Char

inductive CliError where
  | lbaOutOfRange (lba : ℕ)
  | mbrSize (length : ℕ)
  | missingSignature
  | emptyStage2
  | stage2TooLarge (sectors : ℕ)
  | needsConfirmation
  | declined
  deriving DecidableEq

structure Report where
  stage2BytesWritten : ℕ
  stage2Sectors : ℕ
  stage2Lba : ℕ
  dryRun : Bool
  deriving DecidableEq

def stage2Sectors (inp : Inputs) : ℕ := (inp.stage2.length+(sectorSize-1))/sectorSize

def patchedMbr (inp : Inputs) : List UInt8 :=
  splice (splice inp.mbr mbrStage2LbaOffset (natBytes 4 inp.stage2Lba))
    mbrStage2SizeOffset (natBytes 2 (stage2Sectors inp))

def writeAt (content : List UInt8) (offset : ℕ) (data : List UInt8) : List UInt8 :=
  splice (content++List.replicate (offset-content.length) 0) offset data

def eqYes (answer : List Char) : Bool := (trim answer).map Char.toLower == [ 'y', 'e', 's']

def confirmDestructive (inp : Inputs) : Except CliError Unit :=
  if inp.yes || inp.force then .ok ()
  else if !inp.stdinIsTty then .error .needsConfirmation
  else if eqYes inp.answer then .ok ()
  else .error .declined

def matchesMbr (inp : Inputs) (target : Option (List UInt8)) : Bool :=
  match target with
  | none => false
  | some existing =>
    decide (sectorSize ≤ existing.length) && existing.take sectorSize == patchedMbr inp

/-- `run` from the validated paths on; `none` is a target that does not exist yet. -/
def run (inp : Inputs) (target : Option (List UInt8)) :
    Except CliError Report × Option (List UInt8) :=
  if inp.stage2Lba < 1 ∨ inp.stage2Lba > 0x7FFFFFFF then
    (.error (.lbaOutOfRange inp.stage2Lba),target)
  else if inp.mbr.length ≠ sectorSize then (.error (.mbrSize inp.mbr.length),target)
  else if inp.mbr.getD mbrSignatureOffset 0 ≠ 0x55 ∨
      inp.mbr.getD (mbrSignatureOffset+1) 0 ≠ 0xAA then (.error .missingSignature,target)
  else if inp.stage2 = [] then (.error .emptyStage2,target)
  else if stage2Sectors inp > 0xFFFF then (.error (.stage2TooLarge (stage2Sectors inp)),target)
  else
    let data : Report :=
      { stage2BytesWritten := inp.stage2.length, stage2Sectors := stage2Sectors inp,
        stage2Lba := inp.stage2Lba, dryRun := inp.dryRun }
    if inp.dryRun then (.ok data,target)
    else if matchesMbr inp target then (.ok data,target)
    else
      match confirmDestructive inp with
      | .error error => (.error error,target)
      | .ok () =>
        let content := writeAt (target.getD []) 0 (patchedMbr inp)
        (.ok data,some (writeAt content (inp.stage2Lba*sectorSize) inp.stage2))

structure ValidInputs (inp : Inputs) : Prop where
  lba : 1 ≤ inp.stage2Lba ∧ inp.stage2Lba ≤ 0x7FFFFFFF
  size : inp.mbr.length = sectorSize
  signature : inp.mbr.getD 510 0 = 0x55 ∧ inp.mbr.getD 511 0 = 0xAA
  nonempty : inp.stage2 ≠ []
  sectors : stage2Sectors inp ≤ 0xFFFF

def Stored (inp : Inputs) (content : List UInt8) : Prop :=
  (content.drop (inp.stage2Lba*sectorSize)).take inp.stage2.length = inp.stage2

instance (inp : Inputs) (content : List UInt8) : Decidable (Stored inp content) :=
  inferInstanceAs (Decidable (_ = _))

def Installed (inp : Inputs) (content : List UInt8) : Prop :=
  content.take sectorSize = patchedMbr inp ∧ Stored inp content

/-- If the run succeeds then everything is on the target, and a second run succeeds
without a change. -/
def Complete (inp : Inputs) (target : Option (List UInt8)) : Prop :=
  ∀ data after, run inp target = (.ok data,after) →
    ∃ content, after = some content ∧ Installed inp content ∧
      run inp (some content) = (.ok data,some content)

/-- What a valid run that is not dry reports. -/
def written (inp : Inputs) : Report :=
  { stage2BytesWritten := inp.stage2.length, stage2Sectors := stage2Sectors inp,
    stage2Lba := inp.stage2Lba, dryRun := false }

def image (inp : Inputs) (target : Option (List UInt8)) : List UInt8 :=
  writeAt (writeAt (target.getD []) 0 (patchedMbr inp)) (inp.stage2Lba*sectorSize) inp.stage2

section Valid
variable (inp : Inputs) (target : Option (List UInt8)) (h : ValidInputs inp)
include h

theorem run_valid (hdry : inp.dryRun = false) :
    run inp target =
      if matchesMbr inp target then (.ok (written inp),target)
      else match confirmDestructive inp with
        | .error error => (.error error,target)
        | .ok () => (.ok (written inp),some (image inp target)) := by
  have hlba : ¬(inp.stage2Lba < 1 ∨ inp.stage2Lba > 0x7FFFFFFF) := by
    have := h.lba
    omega
  have hsignature : ¬(inp.mbr.getD mbrSignatureOffset 0 ≠ 0x55 ∨
      inp.mbr.getD (mbrSignatureOffset+1) 0 ≠ 0xAA) := by
    rintro (hbad | hbad)
    · exact hbad h.signature.1
    · exact hbad h.signature.2
  have hsectors : ¬stage2Sectors inp > 0xFFFF := Nat.not_lt.mpr h.sectors
  rw [run,if_neg hlba,if_neg (not_not.mpr h.size),if_neg hsignature,if_neg h.nonempty,
    if_neg hsectors]
  simp only [hdry,Bool.false_eq_true,if_false]
  rfl

theorem patchedMbr_length : (patchedMbr inp).length = sectorSize := by
  have hsize := h.size
  have hfirst : (splice inp.mbr mbrStage2LbaOffset (natBytes 4 inp.stage2Lba)).length =
      inp.mbr.length := by
    apply splice_length
    rw [natBytes_length,hsize]
    decide
  rw [patchedMbr,splice_length,hfirst,hsize]
  rw [natBytes_length,hfirst,hsize]
  decide

theorem patchedMbr_fields :
    bytesNat (((patchedMbr inp).drop mbrStage2LbaOffset).take 4) = inp.stage2Lba ∧
    bytesNat (((patchedMbr inp).drop mbrStage2SizeOffset).take 2) = stage2Sectors inp := by
  have hsize : inp.mbr.length = 512 := h.size
  have hlba := h.lba
  have hsectors := h.sectors
  have hfirst : (splice inp.mbr 440 (natBytes 4 inp.stage2Lba)).length = 512 := by
    rw [splice_length,hsize]
    rw [natBytes_length,hsize]
    decide
  constructor
  · have hread := splice_read inp.mbr (natBytes 4 inp.stage2Lba) 440 (by omega)
    rw [natBytes_length] at hread
    rw [patchedMbr,splice_window _ _ _ (by rw [mbrStage2LbaOffset,hfirst]; decide) _ _ (by decide)]
    rw [mbrStage2LbaOffset,hread]
    exact bytesNat_natBytes 4 _ (by omega)
  · have hread := splice_read (splice inp.mbr 440 (natBytes 4 inp.stage2Lba))
      (natBytes 2 (stage2Sectors inp)) 444 (by omega)
    rw [natBytes_length] at hread
    rw [patchedMbr,mbrStage2LbaOffset,mbrStage2SizeOffset,hread]
    exact bytesNat_natBytes 2 _ (by omega)

theorem image_installed : Installed inp (image inp target) := by
  have hlen := patchedMbr_length inp h
  have hlba := h.lba
  have hbefore : ∀ (content data : List UInt8) (offset : ℕ),
      offset ≤ (content++List.replicate (offset-content.length) 0).length := by
    intro content data offset
    rw [List.length_append,List.length_replicate]
    omega
  have hrecord : (writeAt (target.getD []) 0 (patchedMbr inp)).take sectorSize = patchedMbr inp := by
    have hread := splice_read (target.getD []++List.replicate (0-(target.getD []).length) 0)
      (patchedMbr inp) 0 (Nat.zero_le _)
    rwa [List.drop_zero,hlen] at hread
  constructor
  · have hoffset : sectorSize ≤ inp.stage2Lba*sectorSize := Nat.le_mul_of_pos_left _ hlba.1
    have hfull : sectorSize ≤ (writeAt (target.getD []) 0 (patchedMbr inp)).length := by
      rw [← hlen,← congrArg List.length hrecord,List.length_take]
      exact Nat.min_le_right _ _
    have hwindow := splice_window
      (writeAt (target.getD []) 0 (patchedMbr inp)++
        List.replicate (inp.stage2Lba*sectorSize-
          (writeAt (target.getD []) 0 (patchedMbr inp)).length) 0)
      inp.stage2 (inp.stage2Lba*sectorSize) (hbefore _ inp.stage2 _) 0 sectorSize (by omega)
    rw [List.drop_zero,List.drop_zero,List.take_append_of_le_length hfull] at hwindow
    rw [image,writeAt,hwindow,hrecord]
  · exact splice_read _ inp.stage2 _ (hbefore _ inp.stage2 _)

theorem installed_matches {content : List UInt8} (hin : Installed inp content) :
    matchesMbr inp (some content) = true := by
  have hlen := congrArg List.length hin.1
  rw [patchedMbr_length inp h,List.length_take] at hlen
  simp only [matchesMbr,Bool.and_eq_true,decide_eq_true_eq,beq_iff_eq]
  exact ⟨by omega,hin.1⟩

/-- A run is complete unless the record matches and the data is not there. -/
theorem run_complete_iff (hdry : inp.dryRun = false) :
    Complete inp target ↔
      matchesMbr inp target = false ∨ ∃ existing, target = some existing ∧ Stored inp existing := by
  have hagain : ∀ content, Installed inp content →
      run inp (some content) = (.ok (written inp),some content) := by
    intro content hin
    rw [run_valid inp (some content) h hdry,if_pos (installed_matches inp h hin)]
  constructor
  · intro hcomplete
    cases hm : matchesMbr inp target with
    | false => exact Or.inl rfl
    | true =>
      have hrun := run_valid inp target h hdry
      rw [if_pos hm] at hrun
      have ⟨content,htarget,hin,_⟩ := hcomplete _ _ hrun
      exact Or.inr ⟨content,htarget,hin.2⟩
  · intro hcond data after hrun
    rw [run_valid inp target h hdry] at hrun
    cases hm : matchesMbr inp target with
    | true =>
      rw [if_pos hm,Prod.mk.injEq] at hrun
      have ⟨existing,htarget,hstored⟩ := hcond.resolve_left (by simp [hm])
      subst htarget
      have hin : Installed inp existing := by
        simp only [matchesMbr,Bool.and_eq_true,decide_eq_true_eq,beq_iff_eq] at hm
        exact ⟨hm.2,hstored⟩
      obtain ⟨hdata,rfl⟩ := hrun
      cases hdata
      exact ⟨existing,rfl,hin,hagain existing hin⟩
    | false =>
      rw [hm,if_neg Bool.false_ne_true] at hrun
      cases hc : confirmDestructive inp with
      | error error =>
        rw [hc] at hrun
        cases hrun
      | ok _ =>
        rw [hc] at hrun
        cases hrun
        exact ⟨_,rfl,image_installed inp target h,
          hagain _ (image_installed inp target h)⟩

end Valid

def blankRecord : List UInt8 := List.replicate 510 0

theorem blankRecord_length : blankRecord.length = 510 := List.length_replicate

def oneByte (byte : UInt8) : Inputs :=
  { mbr := blankRecord++[0x55,0xAA], stage2 := [byte], stage2Lba := 1, dryRun := false,
    yes := true, force := false, stdinIsTty := false, answer := [] }

theorem oneByte_valid (byte : UInt8) : ValidInputs (oneByte byte) where
  lba := by
    show 1 ≤ 1 ∧ 1 ≤ 0x7FFFFFFF
    decide
  size := by
    show (blankRecord++[0x55,0xAA]).length = 512
    rw [List.length_append,blankRecord_length]
    rfl
  signature := by
    constructor
    · show (blankRecord++[0x55,0xAA]).getD 510 0 = 0x55
      rw [List.getD_append_right _ _ _ _ (Nat.le_of_eq blankRecord_length),blankRecord_length]
      rfl
    · show (blankRecord++[0x55,0xAA]).getD 511 0 = 0xAA
      rw [List.getD_append_right _ _ _ _ (by rw [blankRecord_length]; omega),blankRecord_length]
      rfl
  nonempty := List.cons_ne_nil byte []
  sectors := by
    show (1+511)/512 ≤ 0xFFFF
    decide

theorem run_complete_fresh : Complete (oneByte 0xAA) none :=
  (run_complete_iff (oneByte 0xAA) none (oneByte_valid 0xAA) rfl).mpr (Or.inl rfl)

/-- Two stages of one sector each: the second run reports its byte as written, and
the first one's byte stays. -/
theorem second_stage_lost :
    ValidInputs (oneByte 0xBB) ∧
    ∃ content, run (oneByte 0xAA) none = (.ok (written (oneByte 0xAA)),some content) ∧
      run (oneByte 0xBB) (some content) = (.ok (written (oneByte 0xBB)),some content) ∧
      (content.drop 512).take 1 = [0xAA] ∧ ¬Complete (oneByte 0xBB) (some content) := by
  have hfirst : run (oneByte 0xAA) none =
      (.ok (written (oneByte 0xAA)),some (image (oneByte 0xAA) none)) := by
    rw [run_valid _ _ (oneByte_valid 0xAA) rfl]
    rfl
  have hbyte : ((image (oneByte 0xAA) none).drop 512).take 1 = [0xAA] :=
    (image_installed (oneByte 0xAA) none (oneByte_valid 0xAA)).2
  have hmatch : matchesMbr (oneByte 0xBB) (some (image (oneByte 0xAA) none)) = true :=
    installed_matches (oneByte 0xAA) (oneByte_valid 0xAA)
      (image_installed (oneByte 0xAA) none (oneByte_valid 0xAA))
  have hsecond : run (oneByte 0xBB) (some (image (oneByte 0xAA) none)) =
      (.ok (written (oneByte 0xBB)),some (image (oneByte 0xAA) none)) := by
    rw [run_valid _ _ (oneByte_valid 0xBB) rfl,if_pos hmatch]
  refine ⟨oneByte_valid 0xBB,image (oneByte 0xAA) none,hfirst,hsecond,hbyte,?_⟩
  intro hcomplete
  have ⟨content,hcontent,hin,_⟩ := hcomplete _ _ hsecond
  cases hcontent
  have hstored : ((image (oneByte 0xAA) none).drop 512).take 1 = [0xBB] := hin.2
  rw [hbyte] at hstored
  cases hstored

end Zamak.Install
