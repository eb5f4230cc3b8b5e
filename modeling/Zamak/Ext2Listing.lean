import Mathlib.Data.List.TakeWhile
import Zamak.Ext2Loops

/-! # Lookup in a well-formed ext2 directory

A well-formed directory takes up to twelve blocks, each a hole or exactly tiled by its
entries. Entries that are not in use have inode zero and may stand anywhere. The driver
takes the first of them for the end of its block, so it finds a name only in front of it. -/

set_option autoImplicit false

namespace Zamak.Ext2Listing
open Zamak.ConfigText Zamak.PartialSteps Zamak.Ext2Driver Zamak.Ext2Loops
open Zamak.BootFlow (fromUtf8)

structure DirectoryEntry where
  inode : BitVec 32
  name : List UInt8
  deriving DecidableEq

def entryAt (buf : List UInt8) (pos : ℕ) : DirectoryEntry :=
  ⟨(headerAt buf pos).inode,nameAt buf pos⟩

/-- The entries from a place on, each behind the one before, up to the end of the block. -/
inductive Tiled (buf : List UInt8) : ℕ → List DirectoryEntry → Prop
  | full : Tiled buf buf.length []
  | entry (pos : ℕ) (entries : List DirectoryEntry)
      (hname : 8+(headerAt buf pos).nameLen.toNat ≤ (headerAt buf pos).recLen.toNat)
      (haligned : 4 ∣ (headerAt buf pos).recLen.toNat)
      (hrest : Tiled buf (pos+(headerAt buf pos).recLen.toNat) entries) :
      Tiled buf pos (entryAt buf pos::entries)

/-- A well-formed directory with the entries of its blocks; a hole has none. -/
structure Layout (fs : Ext2) (dir : Inode) (blocks : List (List DirectoryEntry)) : Prop where
  few : blocks.length ≤ 12
  size : dir.size.toNat = blocks.length*fs.blockSize.toNat
  block : ∀ i entries, blocks[i]? = some entries →
    (pointer dir i = 0 ∧ entries = []) ∨ (pointer dir i ≠ 0 ∧
      ∃ buf, readBlock fs (pointer dir i) (zeroBlock fs) = .ok buf ∧ Tiled buf 0 entries)

def used (entry : DirectoryEntry) : Bool := entry.inode ≠ 0

def named (name : Text) (entry : DirectoryEntry) : Bool := fromUtf8 entry.name = some name

def firstLive (name : Text) (blocks : List (List DirectoryEntry)) : Option DirectoryEntry :=
  (blocks.flatMap fun entries => entries.filter used).find? (named name)

/-- The first one that no unused entry stands before in its block. -/
def firstReachable (name : Text) (blocks : List (List DirectoryEntry)) : Option DirectoryEntry :=
  (blocks.flatMap fun entries => entries.takeWhile used).find? (named name)

/-- The first live entry of a name, if there is one, has the inode number of the first
that no unused entry stands before in its block. -/
def Shown (name : Text) (blocks : List (List DirectoryEntry)) : Prop :=
  ∀ entry, firstLive name blocks = some entry →
    ∃ first, firstReachable name blocks = some first ∧ first.inode = entry.inode

def answer : Option DirectoryEntry → Outcome (BitVec 32)
  | none => .returned (.error .fileNotFound)
  | some entry => .returned (.ok entry.inode)

section Block
variable (buf : List UInt8)

theorem tiled_room (pos : ℕ) (entries : List DirectoryEntry) (h : Tiled buf pos entries) :
    pos+8*entries.length ≤ buf.length := by
  induction h with
  | full => exact Nat.le_refl _
  | entry pos entries hname haligned hrest ih =>
    rw [List.length_cons]
    omega

def scanAnswer : Option DirectoryEntry → Scan
  | none => .passed
  | some entry => .found entry.inode

theorem run_tiled (name : Text) (pos : ℕ) (entries : List DirectoryEntry)
    (h : Tiled buf pos entries) :
    run (entryTurn buf name) (entries.length+1) pos =
      some (scanAnswer ((entries.takeWhile used).find? (named name))) := by
  induction h with
  | full =>
    rw [List.length_nil,run,entryTurn,if_neg (Nat.lt_irrefl _)]
    rfl
  | entry pos entries hname haligned hrest ih =>
    have hroom := tiled_room buf _ entries hrest
    rw [List.length_cons,run,entryTurn,if_pos (by omega),if_neg (by omega)]
    by_cases hunused : (headerAt buf pos).inode = 0
    · have hcut : used (entryAt buf pos) = false := decide_eq_false (not_not_intro hunused)
      rw [if_pos hunused,List.takeWhile_cons_of_neg (by rw [hcut]; exact Bool.false_ne_true)]
      rfl
    · have hkept : used (entryAt buf pos) = true := decide_eq_true hunused
      rw [if_neg hunused,if_neg (by omega),List.takeWhile_cons_of_pos hkept]
      by_cases hfound : fromUtf8 (nameAt buf pos) = some name
      · have hname : named name (entryAt buf pos) = true := decide_eq_true hfound
        rw [if_pos hfound,List.find?_cons_of_pos hname]
        rfl
      · have hname : ¬named name (entryAt buf pos) = true := fun h => hfound (of_decide_eq_true h)
        rw [if_neg hfound,List.find?_cons_of_neg hname]
        exact ih

theorem scanBlock_tiled (name : Text) (entries : List DirectoryEntry) (h : Tiled buf 0 entries) :
    scanBlock buf name = some (scanAnswer ((entries.takeWhile used).find? (named name))) := by
  have hroom := tiled_room buf 0 entries h
  exact run_mono _ _ _ 0 _ (run_tiled buf name 0 entries h) (by omega)

end Block

section Directory
variable (fs : Ext2) (dir : Inode) (name : Text) (blocks : List (List DirectoryEntry))
  (hlayout : Layout fs dir blocks)
include hlayout

theorem layout_passed (i : ℕ) (entries : List DirectoryEntry) (hi : blocks[i]? = some entries)
    (hnone : (entries.takeWhile used).find? (named name) = none) : Passed fs dir name i := by
  rcases hlayout.block i entries hi with ⟨hhole,-⟩ | ⟨-,buf,hread,htiled⟩
  · exact Or.inl hhole
  · refine Or.inr ⟨buf,hread,?_⟩
    rw [scanBlock_tiled buf name entries htiled,hnone]
    rfl

theorem layout_empty (hzero : fs.blockSize.toNat = 0) (entries : List DirectoryEntry)
    (h : entries ∈ blocks) : entries = [] := by
  obtain ⟨i,hi⟩ := List.mem_iff_getElem?.mp h
  rcases hlayout.block i entries hi with ⟨-,hempty⟩ | ⟨-,buf,hread,htiled⟩
  · exact hempty
  · have hroom := tiled_room buf 0 entries htiled
    have hlength := readBlock_length fs _ buf hread
    exact List.eq_nil_of_length_eq_zero (by omega)

theorem layout_before (hsize : 0 < fs.blockSize.toNat) (n : ℕ) (hn : n ≤ blocks.length)
    (hnone : ∀ entries ∈ blocks.take n, (entries.takeWhile used).find? (named name) = none) (j : ℕ)
    (hj : j < n) :
    j < 12 ∧ j*fs.blockSize.toNat < dir.size.toNat ∧ Passed fs dir name j := by
  have hfew := hlayout.few
  have hj' : j < blocks.length := by omega
  have hmem : blocks[j] ∈ blocks.take n := by
    rw [List.mem_take_iff_getElem]
    exact ⟨j,by omega,rfl⟩
  refine ⟨by omega,?_,layout_passed fs dir name blocks hlayout j blocks[j]
    (List.getElem?_eq_getElem hj') (hnone _ hmem)⟩
  rw [hlayout.size]
  exact Nat.mul_lt_mul_of_pos_right hj' hsize

theorem findInDir_empty (hzero : fs.blockSize.toNat = 0) :
    findInDir fs dir name = answer (firstReachable name blocks) := by
  have hsize : dir.size = 0 := BitVec.eq_of_toNat_eq (by rw [hlayout.size,hzero]; rfl)
  have hnone : firstReachable name blocks = none := by
    rw [firstReachable,List.find?_flatMap,List.findSome?_eq_none_iff]
    intro entries hmem
    rw [layout_empty fs dir blocks hlayout hzero entries hmem]
    rfl
  have hturn : blockTurn fs dir name 0 = .stop (.returned (.error .fileNotFound)) := by
    rw [blockTurn,hsize]
    rfl
  rw [hnone,findInDir,run,hturn]
  rfl

theorem findInDir_layout : findInDir fs dir name = answer (firstReachable name blocks) := by
  by_cases hzero : fs.blockSize.toNat = 0
  · exact findInDir_empty fs dir name blocks hlayout hzero
  have hsize : 0 < fs.blockSize.toNat := Nat.pos_of_ne_zero hzero
  have hfew := hlayout.few
  have hless := dir.size.isLt
  rw [hlayout.size] at hless
  rw [firstReachable,List.find?_flatMap]
  cases hfirst : blocks.findSome? fun entries => (entries.takeWhile used).find? (named name) with
  | none =>
    have hpassed := layout_before fs dir name blocks hlayout hsize blocks.length (Nat.le_refl _)
      (fun entries hmem => List.findSome?_eq_none_iff.mp hfirst entries (List.mem_of_mem_take hmem))
    apply findInDir_of_stop fs dir name hsize blocks.length hfew hpassed
    rw [blockTurn_at fs dir name hsize blocks.length hless,
      if_neg (by rw [hlayout.size]; exact Nat.lt_irrefl _)]
    rfl
  | some entry =>
    obtain ⟨before,entries,after,hsplit,hfind,hnone⟩ := List.findSome?_eq_some_iff.mp hfirst
    have hshort : before.length < blocks.length := by simp [hsplit]
    have hat : blocks[before.length]? = some entries := by simp [hsplit]
    have htake : blocks.take before.length = before := by rw [hsplit,List.take_left]
    have hpassed := layout_before fs dir name blocks hlayout hsize before.length
      (Nat.le_of_lt hshort) (by rw [htake]; exact hnone)
    have hmul := Nat.mul_lt_mul_of_pos_right hshort hsize
    apply findInDir_of_stop fs dir name hsize before.length (by omega) hpassed
    rw [blockTurn_at fs dir name hsize before.length (by omega),
      if_pos (by rw [hlayout.size]; exact hmul),if_neg (by omega)]
    rcases hlayout.block before.length entries hat with ⟨-,hempty⟩ | ⟨hpointer,buf,hread,htiled⟩
    · rw [hempty] at hfind
      cases hfind
    · rw [if_neg hpointer,hread]
      simp only [scanBlock_tiled buf name entries htiled,hfind]
      rfl

end Directory

theorem firstReachable_of_live (name : Text) (blocks : List (List DirectoryEntry))
    (h : firstLive name blocks = none) : firstReachable name blocks = none := by
  rw [firstLive,List.find?_flatMap,List.findSome?_eq_none_iff] at h
  rw [firstReachable,List.find?_flatMap,List.findSome?_eq_none_iff]
  intro entries hmem
  rw [List.find?_eq_none]
  intro entry hentry
  have hlive : entry ∈ entries.filter used :=
    List.mem_filter.mpr ⟨(List.takeWhile_sublist used).subset hentry,List.mem_takeWhile_imp hentry⟩
  exact List.find?_eq_none.mp (h entries hmem) entry hlive

/-- In a well-formed directory the driver returns the inode of the first live entry of a
name, and `FileNotFound` if there is none, exactly if that entry is shown. -/
theorem findInDir_first_live_iff (fs : Ext2) (dir : Inode) (name : Text)
    (blocks : List (List DirectoryEntry)) (hlayout : Layout fs dir blocks) :
    findInDir fs dir name = answer (firstLive name blocks) ↔ Shown name blocks := by
  rw [findInDir_layout fs dir name blocks hlayout]
  constructor
  · intro h entry hlive
    rw [hlive] at h
    cases hreach : firstReachable name blocks with
    | none =>
      rw [hreach] at h
      cases h
    | some first =>
      rw [hreach] at h
      simp only [answer,Outcome.returned.injEq,Except.ok.injEq] at h
      exact ⟨first,rfl,h⟩
  · intro hshown
    cases hlive : firstLive name blocks with
    | none => rw [firstReachable_of_live name blocks hlive]
    | some entry =>
      obtain ⟨first,hreach,hsame⟩ := hshown entry hlive
      rw [hreach,answer,hsame]
      rfl

def twoEntries (unusedFirst : Bool) : ℕ → List UInt8
  | 8 => [if unusedFirst then 0 else 12,0,0,0,12,0,1,1,0x41,0,0,0]++
      [if unusedFirst then 12 else 0,0,0,0,0xF4,0x03,1,1,0x41]
  | _ => []

def twoEntriesVolume (unusedFirst : Bool) : Ext2 :=
  mounted (sectorVolume (twoEntries unusedFirst)) 0 ⟨0,16,0xEF53,0⟩

def twoEntriesDir : Inode := ⟨0x41ED,2048,0::4::List.replicate 13 0,rfl⟩

def twoEntriesListing (unusedFirst : Bool) : List (List DirectoryEntry) :=
  [[],[⟨if unusedFirst then 0 else 12,[0x41]⟩,⟨if unusedFirst then 12 else 0,[0x41]⟩]]

theorem twoEntries_tiled (unusedFirst : Bool) :
    Tiled (sectorsFrom (twoEntries unusedFirst) 8 2) 0
      [⟨if unusedFirst then 0 else 12,[0x41]⟩,⟨if unusedFirst then 12 else 0,[0x41]⟩] := by
  have hfirst : entryAt (sectorsFrom (twoEntries unusedFirst) 8 2) 0 =
      ⟨if unusedFirst then 0 else 12,[0x41]⟩ := by
    revert unusedFirst
    decide +kernel
  have hsecond : entryAt (sectorsFrom (twoEntries unusedFirst) 8 2) 12 =
      ⟨if unusedFirst then 12 else 0,[0x41]⟩ := by
    revert unusedFirst
    decide +kernel
  have hlen : (headerAt (sectorsFrom (twoEntries unusedFirst) 8 2) 0).recLen = 12 ∧
      (headerAt (sectorsFrom (twoEntries unusedFirst) 8 2) 0).nameLen = 1 := by
    revert unusedFirst
    decide +kernel
  have hlen' : (headerAt (sectorsFrom (twoEntries unusedFirst) 8 2) 12).recLen = 1012 ∧
      (headerAt (sectorsFrom (twoEntries unusedFirst) 8 2) 12).nameLen = 1 := by
    revert unusedFirst
    decide +kernel
  rw [← hfirst,← hsecond]
  apply Tiled.entry
  · rw [hlen.1,hlen.2]
    decide
  · rw [hlen.1]
    decide
  have hnext : 0+(12 : BitVec 16).toNat = 12 := rfl
  rw [hlen.1,hnext]
  apply Tiled.entry
  · rw [hlen'.1,hlen'.2]
    decide
  · rw [hlen'.1]
    decide
  have hend : 12+(1012 : BitVec 16).toNat = (sectorsFrom (twoEntries unusedFirst) 8 2).length := by
    rw [sectorsFrom_length]
    rfl
  rw [hlen'.1,hend]
  exact Tiled.full

theorem twoEntries_read (unusedFirst : Bool) :
    readBlock (twoEntriesVolume unusedFirst) (pointer twoEntriesDir 1)
        (zeroBlock (twoEntriesVolume unusedFirst)) =
      .ok (sectorsFrom (twoEntries unusedFirst) 8 2) := by
  have hread := sectorVolume_block (twoEntries unusedFirst) ⟨0,16,0xEF53,0⟩ 4
  have hcount : (1024#32<<<(0 : BitVec 32).toNat).toNat/512 = 2 := rfl
  have hplace : (4 : BitVec 32).toNat*2%2^64 = 8 := rfl
  simp only [hcount,hplace] at hread
  exact hread

theorem twoEntries_layout (unusedFirst : Bool) :
    Layout (twoEntriesVolume unusedFirst) twoEntriesDir (twoEntriesListing unusedFirst) where
  few := by
    change 2 ≤ 12
    decide
  size := by
    have hbytes : (twoEntriesVolume unusedFirst).blockSize.toNat = 1024 := rfl
    have htotal : twoEntriesDir.size.toNat = 2048 := rfl
    have hcount : (twoEntriesListing unusedFirst).length = 2 := rfl
    rw [hbytes,htotal,hcount]
  block := by
    intro i entries hi
    rcases i with _ | _ | i
    · cases hi
      exact Or.inl ⟨rfl,rfl⟩
    · cases hi
      refine Or.inr ⟨by decide,_,twoEntries_read unusedFirst,?_⟩
      exact twoEntries_tiled unusedFirst
    · cases hi

theorem findInDir_first_live_used :
    Layout (twoEntriesVolume false) twoEntriesDir (twoEntriesListing false) ∧
    Shown [ 'A'] (twoEntriesListing false) ∧
    findInDir (twoEntriesVolume false) twoEntriesDir [ 'A'] =
      answer (firstLive [ 'A'] (twoEntriesListing false)) := by
  have hshown : Shown [ 'A'] (twoEntriesListing false) := by
    intro entry h
    exact ⟨entry,h,rfl⟩
  exact ⟨twoEntries_layout false,hshown,
    (findInDir_first_live_iff _ _ _ _ (twoEntries_layout false)).mpr hshown⟩

/-- An entry behind an unused one is not found. -/
theorem twoEntries_overlooked :
    Layout (twoEntriesVolume true) twoEntriesDir (twoEntriesListing true) ∧
    firstLive [ 'A'] (twoEntriesListing true) = some ⟨12,[0x41]⟩ ∧
    findInDir (twoEntriesVolume true) twoEntriesDir [ 'A'] =
      .returned (.error .fileNotFound) := by
  refine ⟨twoEntries_layout true,by decide,?_⟩
  rw [findInDir_layout _ _ _ _ (twoEntries_layout true)]
  decide

end Zamak.Ext2Listing
