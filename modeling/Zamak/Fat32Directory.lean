import Zamak.Fat32Image

/-! # Directory search

`find_in_dir`, the long-name accumulator and the short-name conversion of
`ram_fat32.rs`. The search follows the cluster chain for as many clusters as it is
given fuel for; whether a chain ends is a matter of the image. -/

set_option autoImplicit false

namespace Zamak.Fat32Directory
open Zamak.Fat32Image

def dirEntrySize : ℕ := 32

def attrLfn : UInt8 := 0x0F

def attrDirectory : UInt8 := 0x10

def maxLfnSegments : ℕ := 20

def maxLfnChars : ℕ := maxLfnSegments*13

structure DirEntryFacts where
  firstCluster : BitVec 32
  len : BitVec 32
  isDir : Bool
  deriving DecidableEq, Repr

/-- `LfnAccum`; `chars` holds `MAX_LFN_CHARS` bytes. -/
structure LfnAccum where
  chars : List UInt8
  charCount : ℕ
  valid : Bool
  haveLast : Bool

def LfnAccum.new : LfnAccum where
  chars := List.replicate maxLfnChars 0
  charCount := 0
  valid := false
  haveLast := false

def LfnAccum.reset (s : LfnAccum) : LfnAccum :=
  { s with charCount := 0, valid := false, haveLast := false }

def positions : List ℕ :=
  [0x01,0x03,0x05,0x07,0x09,0x0E,0x10,0x12,0x14,0x16,0x18,0x1C,0x1E]

def codeUnit (entry : List UInt8) (p : ℕ) : BitVec 16 :=
  ((entry.getD (p+1) 0).toBitVec.setWidth 16<<<8)|||(entry.getD p 0).toBitVec.setWidth 16

/-- The loop of `absorb` over the code units, from slot `dest` on. -/
def placeUnits : List (BitVec 16) → ℕ → LfnAccum → LfnAccum
  | [], _, s => s
  | unit::units, dest, s =>
    if dest ≥ maxLfnChars then { s with valid := false }
    else if unit = 0x0000#16 ∨ unit = 0xFFFF#16 then
      placeUnits units (dest+1)
        { s with charCount := if dest < s.charCount then dest else s.charCount,
                 chars := s.chars.set dest 0 }
    else if unit > 0x7F#16 then { s with valid := false }
    else placeUnits units (dest+1)
      { s with chars := s.chars.set dest (UInt8.ofBitVec (unit.setWidth 8)) }

def LfnAccum.absorb (s : LfnAccum) (entry : List UInt8) : LfnAccum :=
  let seqByte := entry.getD 0 0
  let isLast := seqByte&&&0x40 ≠ 0
  let seq := (seqByte&&&0x1F).toNat
  let units := positions.map (codeUnit entry)
  if seq = 0 ∨ seq > maxLfnSegments then s.reset
  else if isLast then
    placeUnits units ((seq-1)*13)
      { s.reset with haveLast := true, valid := true, charCount := seq*13 }
  else if s.haveLast then placeUnits units ((seq-1)*13) s
  else s

def asciiLower (b : UInt8) : UInt8 := if 0x41 ≤ b ∧ b ≤ 0x5A then b+32 else b

def asciiEqIgnoreCase (a b : List UInt8) : Bool :=
  a.length == b.length && a.map asciiLower == b.map asciiLower

def LfnAccum.matchesName (s : LfnAccum) (search : List UInt8) : Bool :=
  if s.valid = false ∨ s.charCount = 0 then false
  else if s.charCount ≠ search.length then false
  else asciiEqIgnoreCase (s.chars.take s.charCount) search

/-- The loop of `name_to_8_3`: a dot moves to the extension, a twelfth character
ends it. -/
def shortNameFrom : List UInt8 → ℕ → List UInt8 → List UInt8
  | [], _, out => out
  | ch::rest, idx, out =>
    if ch = 0x2E then shortNameFrom rest 8 out
    else if idx ≥ 11 then out
    else shortNameFrom rest (idx+1) (out.set idx (if 0x61 ≤ ch ∧ ch ≤ 0x7A then ch-32 else ch))

def nameTo83 (part : List UInt8) : List UInt8 := shortNameFrom part 0 (List.replicate 11 0x20)

def entryFacts (entry : List UInt8) : DirEntryFacts where
  firstCluster := ((readU16Le entry 0x14).setWidth 32<<<16)|||(readU16Le entry 0x1A).setWidth 32
  len := readU32Le entry 0x1C
  isDir := entry.getD 0x0B 0&&&attrDirectory ≠ 0

/-- The entries a cluster holds, in the order the inner loop visits them. -/
def entriesOf (bytes : List UInt8) : List (List UInt8) :=
  (List.range (bytes.length/dirEntrySize)).map fun i =>
    (bytes.drop (i*dirEntrySize)).take dirEntrySize

inductive Scan where
  | done (result : Option DirEntryFacts)
  | more (lfn : LfnAccum)

/-- The inner loop of `find_in_dir` over the entries of a cluster. -/
def scanEntries (search : List UInt8) : List (List UInt8) → LfnAccum → Scan
  | [], lfn => .more lfn
  | entry::rest, lfn =>
    if entry.getD 0 0 = 0x00 then .done none
    else if entry.getD 0 0 = 0xE5 then scanEntries search rest lfn.reset
    else if entry.getD 0x0B 0 = attrLfn then scanEntries search rest (lfn.absorb entry)
    else if lfn.matchesName search = true ∨ entry.take 11 = nameTo83 search then
      .done (some (entryFacts entry))
    else scanEntries search rest lfn.reset

section Search
variable {usizeBits : ℕ} (fs : RamFat32 usizeBits) (search : List UInt8)

/-- The outer loop of `find_in_dir`; `none` when the fuel runs out. -/
def searchClusters : ℕ → ℕ → LfnAccum → Option (Option DirEntryFacts)
  | 0, _, _ => none
  | fuel+1, cluster, lfn =>
    match clusterBytes fs cluster with
    | none => some none
    | some bytes =>
      match scanEntries search (entriesOf bytes) lfn with
      | .done result => some result
      | .more lfn =>
        match nextCluster fs cluster with
        | none => some none
        | some next =>
          if 2 ≤ next ∧ next < fat32EndOfChain then searchClusters fuel next lfn
          else some none

def findInDir (fuel dirCluster : ℕ) : Option (Option DirEntryFacts) :=
  searchClusters fs search fuel dirCluster LfnAccum.new

end Search

end Zamak.Fat32Directory
