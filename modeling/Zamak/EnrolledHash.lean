import Zamak.Blake2bAgree
import Zamak.ConfigParse

/-! # The enrolled-hash slot

`enrolled_hash.rs`, the host command that fills the slot, and the two functions of
`config.rs` that enrol a hash and check a configuration against it. A loader image
is a list of bytes, a hash a vector of 32. -/

set_option autoImplicit false

namespace Zamak.EnrolledHash
open Zamak.WindowSearch Zamak.Blake2bHash Zamak.Blake2bAgree Zamak.ConfigParse

abbrev Hash := Vector UInt8 32

/-- `ENROLLED_HASH_SIGNATURE`: `ZAMAK_CFG_HASH` and the bytes `A5 5A`. -/
def enrolledHashSignature : List UInt8 :=
  [0x5A,0x41,0x4D,0x41,0x4B,0x5F,0x43,0x46,0x47,0x5F,0x48,0x41,0x53,0x48,0xA5,0x5A]

def enrolledHashLen : ℕ := 32

def enrolledHashRecordLen : ℕ := 16+enrolledHashLen

def allZero (hash : Hash) : Bool := hash.toList.all (· == 0)

/-- `EnrolledHashSlot`; its signature is fixed at build time. -/
structure EnrolledHashSlot where
  signature : List UInt8
  hash : Hash

def EnrolledHashSlot.read (slot : EnrolledHashSlot) : Option Hash :=
  if allZero slot.hash then none else some slot.hash

def findSlot (binary : List UInt8) : Option ℕ :=
  if binary.length < enrolledHashRecordLen then none
  else position enrolledHashSignature binary

def hashAt (binary : List UInt8) (start : ℕ) (h : start+enrolledHashLen ≤ binary.length) : Hash :=
  ⟨((binary.drop start).take enrolledHashLen).toArray,by
    simp only [List.size_toArray,List.length_take,List.length_drop]
    unfold enrolledHashLen at *
    omega⟩

def readHashAt (binary : List UInt8) (signatureOffset : ℕ) : Option Hash :=
  if h : signatureOffset+16+enrolledHashLen ≤ binary.length then
    let hash := hashAt binary (signatureOffset+16) h
    if allZero hash then none else some hash
  else none

inductive PatchError where
  | signatureMissing
  | slotTruncated
  deriving DecidableEq, Repr

def patchHash (binary : List UInt8) (hash : Hash) : Except PatchError (List UInt8) :=
  match findSlot binary with
  | none => .error .signatureMissing
  | some offset =>
    if offset+16+enrolledHashLen ≤ binary.length then
      .ok (splice binary (offset+16) hash.toList)
    else .error .slotTruncated

def findHashSlot (binary : List UInt8) : Option ℕ := position enrolledHashSignature binary

theorem blake2b256_length (data : List UInt8) : (Cli.blake2b256 data).length = 32 := by
  unfold Cli.blake2b256
  simp [List.length_flatMap,toLeBytes_length]

def blake2b256 (data : List UInt8) : Hash :=
  ⟨(Cli.blake2b256 data).toArray,by simp [blake2b256_length]⟩

/-- What `enroll-config` ends with; a slice past the end of the image panics. -/
inductive EnrollOutcome where
  | notFound
  | panicked
  | dryRun
  | alreadyEnrolled
  | declined
  | patched (image : List UInt8)
  deriving DecidableEq, Repr

def enrollConfig (configData efiData : List UInt8) (dryRun confirmed : Bool) : EnrollOutcome :=
  let hash := blake2b256 configData
  match findHashSlot efiData with
  | none => .notFound
  | some offset =>
    let hashStart := offset+enrolledHashSignature.length
    if hashStart+32 ≤ efiData.length then
      if dryRun then .dryRun
      else if (efiData.drop hashStart).take 32 = hash.toList then .alreadyEnrolled
      else if confirmed then .patched (splice efiData hashStart hash.toList)
      else .declined
    else .panicked

def enrollConfigHash (config : Config) (hash : Hash) : Config :=
  { config with configHash := some hash, editorEnabled := false }

/-- `verify_config_hash`: no hash enrolled, or no difference in 32 bytes. -/
def verifyConfigHash (config : Config) (content : List UInt8) : Bool :=
  match config.configHash with
  | none => true
  | some enrolled =>
    let full := Core.hash content 32 (by decide)
    (List.range 32).foldl
      (fun diff i => diff|||(enrolled.toList.getD i 0 ^^^ full.getD i 0)) 0 == 0

end Zamak.EnrolledHash
