import Zamak.Fat32Directory
import Mathlib.Data.List.Forall2

/-! # What a VFAT directory is

The on-disk format, stated without the search: entries with a long and a short
name, their segments on disk, deleted entries between sets, and the cluster chain
that holds the bytes. Bytes the format leaves open (checksums, times) are free. -/

set_option autoImplicit false

namespace Zamak.VfatLayout
open Zamak.Fat32Image Zamak.Fat32Directory

/-- A directory entry as it is meant, with an ASCII long name or none. -/
structure VfatEntry where
  longName : Option (List UInt8)
  shortName : List UInt8
  attrs : UInt8
  firstCluster : BitVec 32
  len : BitVec 32
  long_nonempty : ∀ name, longName = some name → 1 ≤ name.length
  long_le : ∀ name, longName = some name → name.length ≤ 255
  long_ascii : ∀ name, longName = some name → ∀ c ∈ name, c ≠ 0 ∧ c < 0x80
  short_length : shortName.length = 11
  short_live : shortName.getD 0 0 ≠ 0x00 ∧ shortName.getD 0 0 ≠ 0xE5
  attrs_short : attrs ≠ 0x0F

def segmentCount (name : List UInt8) : ℕ := (name.length+12)/13

def charUnit (c : UInt8) : BitVec 16 := c.toBitVec.setWidth 16

/-- Unless the characters fill the last segment, a zero and `0xFFFF` to its end. -/
def padding (name : List UInt8) : List (BitVec 16) :=
  if name.length%13 = 0 then [] else 0x0000#16::List.replicate (12-name.length%13) 0xFFFF#16

def codeUnits (name : List UInt8) : List (BitVec 16) := name.map charUnit++padding name

def segmentUnits (name : List UInt8) (k : ℕ) : List (BitVec 16) :=
  ((codeUnits name).drop ((k-1)*13)).take 13

/-- One long-name entry on disk: its number, flagged on the last segment, the long
name attribute and thirteen code units. -/
structure IsSegment (name : List UInt8) (k : ℕ) (raw : List UInt8) : Prop where
  length : raw.length = 32
  number : raw.getD 0 0 =
    if k = segmentCount name then UInt8.ofNat k|||0x40 else UInt8.ofNat k
  attr : raw.getD 0x0B 0 = 0x0F
  units : positions.map (fun p => (raw.drop p).take 2) = (segmentUnits name k).map (leBytes 2)

structure IsShort (e : VfatEntry) (raw : List UInt8) : Prop where
  length : raw.length = 32
  name : raw.take 11 = e.shortName
  attr : raw.getD 0x0B 0 = e.attrs
  clusterHigh : (raw.drop 0x14).take 2 = (leBytes 4 e.firstCluster).drop 2
  clusterLow : (raw.drop 0x1A).take 2 = (leBytes 4 e.firstCluster).take 2
  len : (raw.drop 0x1C).take 4 = leBytes 4 e.len

def descending : ℕ → List ℕ
  | 0 => []
  | n+1 => (n+1)::descending n

def IsLong (raws : List (List UInt8)) : Option (List UInt8) → Prop
  | none => raws = []
  | some name => List.Forall₂ (IsSegment name) (descending (segmentCount name)) raws

def Encodes (e : VfatEntry) (raws : List (List UInt8)) : Prop :=
  ∃ long short, raws = long++[short] ∧ IsLong long e.longName ∧ IsShort e short

inductive Item where
  | deleted
  | entry (e : VfatEntry)

def Item.entry? : Item → Option VfatEntry
  | .deleted => none
  | .entry e => some e

def LaysOut : List Item → List (List UInt8) → Prop
  | [], raws => raws = []
  | .deleted::items, raws =>
    ∃ raw rest, raws = raw::rest ∧ raw.length = 32 ∧ raw.getD 0 0 = 0xE5 ∧ LaysOut items rest
  | .entry e::items, raws => ∃ set rest, raws = set++rest ∧ Encodes e set ∧ LaysOut items rest

/-- An entry answers to a search by its long name, ignoring ASCII case, or by its
short one. -/
def Answers (search : List UInt8) (e : VfatEntry) : Prop :=
  e.longName.map (List.map asciiLower) = some (search.map asciiLower) ∨
    e.shortName = nameTo83 search

instance (search : List UInt8) (e : VfatEntry) : Decidable (Answers search e) :=
  inferInstanceAs (Decidable (_ ∨ _))

def VfatEntry.facts (e : VfatEntry) : DirEntryFacts :=
  { firstCluster := e.firstCluster, len := e.len, isDir := e.attrs&&&0x10 ≠ 0 }

section Chain
variable {usizeBits : ℕ} (fs : RamFat32 usizeBits)

/-- The sectors of a cluster lie in the image, at numbers a `u32` holds. -/
structure InImage (c : ℕ) : Prop where
  two_le : 2 ≤ c
  lt : c < 2^32
  sector_lt : fs.firstDataSector+(c-2)*fs.sectorsPerCluster < 2^32
  data : (fs.firstDataSector+(c-2)*fs.sectorsPerCluster+fs.sectorsPerCluster)*512 ≤
    fs.image.length

def clusterData (c : ℕ) : List UInt8 :=
  (fs.image.drop ((fs.firstDataSector+(c-2)*fs.sectorsPerCluster)*512)).take
    (fs.sectorsPerCluster*512)

/-- The sector of the table that holds a cluster's entry lies in the image. -/
def FatInImage (c : ℕ) : Prop := (fs.reservedSectors+c*4/512+1)*512 ≤ fs.image.length

def fatEntry (c : ℕ) : ℕ :=
  (readU32Le fs.image (fs.reservedSectors*512+c*4)&&&0x0FFFFFFF#32).toNat

def Continues (c : ℕ) : Prop :=
  FatInImage fs c ∧ 2 ≤ fatEntry fs c ∧ fatEntry fs c < fat32EndOfChain

/-- A cluster chain, all of it in the image. Being a list it ends, so it has no
cycle. -/
def Chain : List ℕ → Prop
  | [] => False
  | [c] => InImage fs c ∧ ¬ Continues fs c
  | c::next::rest =>
    InImage fs c ∧ Continues fs c ∧ fatEntry fs c = next ∧ Chain (next::rest)

/-- The bytes of a chain are the laid-out items and then, if anything is left, an
entry that starts with zero. -/
def Holds (clusters : List ℕ) (items : List Item) : Prop :=
  ∃ raws tail, clusters.flatMap (clusterData fs) = raws.flatten++tail ∧
    LaysOut items raws ∧ (tail = [] ∨ tail.head? = some 0)

end Chain

end Zamak.VfatLayout
