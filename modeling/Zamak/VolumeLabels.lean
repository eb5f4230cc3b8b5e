import Zamak.Fat32Detours
import Zamak.LegacyLoops

/-! # Volume labels in a directory search

Neither scanner looks at the volume-label bit. The first entry that answers a name is
returned, be it a label. So labels are kept out exactly when every label that answers a
name stands behind an entry that answers it and is no label. -/

set_option autoImplicit false

namespace Zamak.VolumeLabels
open Zamak.Fat32Image Zamak.Fat32Directory Zamak.Fat32Lookup Zamak.Fat32Paths
open Zamak.Fat32Detours (letterEntry)
open Zamak.PartialSteps

section First
variable {α : Type} (answers : α → Bool) (label : α → Prop)

def Shadowed (l : List α) : Prop :=
  ∀ before x after, l = before++x::after → answers x = true → label x →
    ∃ y ∈ before, answers y = true ∧ ¬label y

theorem first_clear_iff (l : List α) :
    (∀ x, l.find? answers = some x → ¬label x) ↔ Shadowed answers label l := by
  constructor
  · intro h before x after hl hx hlabel
    cases hfind : before.find? answers with
    | some y =>
      have hfirst : l.find? answers = some y := by rw [hl,List.find?_append,hfind]; rfl
      exact ⟨y,List.mem_of_find?_eq_some hfind,List.find?_some hfind,h y hfirst⟩
    | none =>
      have hfirst : l.find? answers = some x := by
        rw [hl,List.find?_append,hfind,List.find?_cons_of_pos hx]
        rfl
      exact (h x hfirst hlabel).elim
  · intro h x hfind hlabel
    obtain ⟨hx,before,after,hl,hbefore⟩ := List.find?_eq_some_iff_append.mp hfind
    obtain ⟨y,hy,hyes,-⟩ := h before x after hl hx hlabel
    have hno := hbefore y hy
    rw [hyes] at hno
    cases hno

end First

def live (entries : List (List UInt8)) : List (List UInt8) :=
  entries.takeWhile fun entry => entry.getD 0 0 ≠ 0x00

def IsLabel (entry : List UInt8) : Prop := entry.getD 0x0B 0&&&0x08 ≠ 0

/-- What an entry that is not returned does to the accumulator. -/
def passOver (lfn : LfnAccum) (entry : List UInt8) : LfnAccum :=
  if entry.getD 0 0 = 0xE5 then lfn.reset
  else if entry.getD 0x0B 0 = attrLfn then lfn.absorb entry
  else lfn.reset

def met : LfnAccum → List (List UInt8) → List (LfnAccum × List UInt8)
  | _, [] => []
  | lfn, entry::rest => (lfn,entry)::met (passOver lfn entry) rest

def answersName (search : List UInt8) (p : LfnAccum × List UInt8) : Bool :=
  p.2.getD 0 0 ≠ 0xE5 ∧ p.2.getD 0x0B 0 ≠ attrLfn ∧
    (p.1.matchesName search = true ∨ p.2.take 11 = nameTo83 search)

theorem scanEntries_first (search : List UInt8) (entries : List (List UInt8)) (lfn : LfnAccum)
    (facts : DirEntryFacts) :
    scanEntries search entries lfn = .done (some facts) ↔
      ∃ p, (met lfn (live entries)).find? (answersName search) = some p ∧
        entryFacts p.2 = facts := by
  induction entries generalizing lfn with
  | nil => simp [scanEntries,live,met]
  | cons entry rest ih =>
    rw [scanEntries,live]
    by_cases hzero : entry.getD 0 0 = 0x00
    · rw [if_pos hzero,List.takeWhile_cons_of_neg (by simpa using hzero)]
      simp [met]
    · rw [if_neg hzero,List.takeWhile_cons_of_pos (by simpa using hzero),met]
      by_cases hdeleted : entry.getD 0 0 = 0xE5
      · have hno : ¬answersName search (lfn,entry) = true := by
          simp [answersName,hdeleted,-List.getD_eq_getElem?_getD]
        rw [if_pos hdeleted,List.find?_cons_of_neg hno,passOver,if_pos hdeleted]
        exact ih lfn.reset
      · by_cases hattr : entry.getD 0x0B 0 = attrLfn
        · have hno : ¬answersName search (lfn,entry) = true := by
            simp [answersName,hattr,-List.getD_eq_getElem?_getD]
          rw [if_neg hdeleted,if_pos hattr,List.find?_cons_of_neg hno,passOver,if_neg hdeleted,
            if_pos hattr]
          exact ih (lfn.absorb entry)
        · rw [if_neg hdeleted,if_neg hattr,passOver,if_neg hdeleted,if_neg hattr]
          by_cases hans : lfn.matchesName search = true ∨ entry.take 11 = nameTo83 search
          · have hyes : answersName search (lfn,entry) = true := by
              simp only [answersName,decide_eq_true_eq]
              exact ⟨hdeleted,hattr,hans⟩
            rw [if_pos hans,List.find?_cons_of_pos hyes]
            simp
          · have hno : ¬answersName search (lfn,entry) = true := by
              simp only [answersName,decide_eq_true_eq]
              exact fun h => hans h.2.2
            rw [if_neg hans,List.find?_cons_of_neg hno]
            exact ih lfn.reset

section Image
variable {usizeBits : ℕ} (fs : RamFat32 usizeBits) (search : List UInt8) (dir : ℕ)

/-- The entry a search takes its answer from: the first that answers in the chain. -/
def Accepts (entry : List UInt8) : Prop :=
  ∃ n entries lfn, chainEntries fs n dir = some entries ∧
    (met LfnAccum.new (live entries)).find? (answersName search) = some (lfn,entry)

theorem accepts_found (entry : List UInt8) (h : Accepts fs search dir entry) :
    ∃ fuel, findInDir fs search fuel dir = some (some (entryFacts entry)) := by
  obtain ⟨n,entries,lfn,hchain,hfind⟩ := h
  exact (findInDir_found_iff fs search dir _).mpr
    ⟨n,entries,hchain,(scanEntries_first search entries _ _).mpr ⟨(lfn,entry),hfind,rfl⟩⟩

theorem found_accepts (fuel : ℕ) (facts : DirEntryFacts)
    (h : findInDir fs search fuel dir = some (some facts)) :
    ∃ entry, Accepts fs search dir entry ∧ entryFacts entry = facts := by
  obtain ⟨n,entries,hchain,hscan⟩ := (findInDir_found_iff fs search dir facts).mp ⟨fuel,h⟩
  obtain ⟨⟨lfn,entry⟩,hfind,hfacts⟩ := (scanEntries_first search entries _ facts).mp hscan
  exact ⟨entry,⟨n,entries,lfn,hchain,hfind⟩,hfacts⟩

/-- No label answers first in the chain of a directory. -/
def LabelsShadowed : Prop :=
  ∀ n entries, chainEntries fs n dir = some entries →
    Shadowed (answersName search) (fun p => IsLabel p.2) (met LfnAccum.new (live entries))

theorem accepts_clear_iff :
    (∀ entry, Accepts fs search dir entry → ¬IsLabel entry) ↔ LabelsShadowed fs search dir := by
  constructor
  · intro h n entries hchain
    apply (first_clear_iff _ _ _).mp
    rintro ⟨lfn,entry⟩ hfind
    exact h entry ⟨n,entries,lfn,hchain,hfind⟩
  · rintro h entry ⟨n,entries,lfn,hchain,hfind⟩
    exact (first_clear_iff _ _ _).mpr (h n entries hchain) (lfn,entry) hfind

end Image

section Disk
open Zamak.LegacyFat32 Zamak.LegacyLoops
variable {usizeBits : ℕ} (fs : Fat32 usizeBits) (search : List Char) (start : BitVec 32)

def answersShort (raw : List UInt8) : Bool :=
  raw.getD 0 0 ≠ 0xE5 ∧ compareName (directoryEntry raw) search = true

theorem scanCluster_first (entries : List (List UInt8)) (entry : DirectoryEntry) :
    scanCluster search entries = some (.ok entry) ↔
      ∃ raw, (live entries).find? (answersShort search) = some raw ∧
        directoryEntry raw = entry := by
  induction entries with
  | nil => simp [scanCluster,live]
  | cons raw rest ih =>
    rw [scanCluster,live]
    by_cases hzero : raw.getD 0 0 = 0x00
    · rw [if_pos hzero,List.takeWhile_cons_of_neg (by simpa using hzero)]
      simp
    · rw [if_neg hzero,List.takeWhile_cons_of_pos (by simpa using hzero),List.find?_cons]
      change _ ↔ ∃ r, (match answersShort search raw with
        | true => some raw
        | false => (live rest).find? (answersShort search)) = some r ∧ _
      by_cases hdeleted : raw.getD 0 0 = 0xE5
      · have hno : answersShort search raw = false := by
          simp [answersShort,hdeleted,-List.getD_eq_getElem?_getD]
        rw [if_pos hdeleted,hno]
        exact ih
      · rw [if_neg hdeleted]
        by_cases hname : compareName (directoryEntry raw) search = true
        · have hyes : answersShort search raw = true := by
            simp only [answersShort,decide_eq_true_eq]
            exact ⟨hdeleted,hname⟩
          rw [if_pos hname,hyes]
          simp
        · have hno : answersShort search raw = false := by
            simp only [answersShort,decide_eq_false_iff_not]
            exact fun h => hname h.2
          rw [if_neg hname,hno]
          exact ih

def Visited (buffer : List UInt8) : Prop :=
  ∃ n cluster lba, visit (next (searchTurn fs search)) n start = some cluster ∧
    clusterToLba fs cluster = some lba ∧ readCluster fs lba = .ok buffer

theorem searchTurn_found (cluster : BitVec 32) (entry : DirectoryEntry) :
    searchTurn fs search cluster = .stop (.returned (.ok entry)) ↔
      ∃ lba buffer, clusterToLba fs cluster = some lba ∧ readCluster fs lba = .ok buffer ∧
        scanCluster search (entriesOf buffer) = some (.ok entry) := by
  unfold searchTurn
  cases hlba : clusterToLba fs cluster with
  | none => simp
  | some lba =>
    cases hread : readCluster fs lba with
    | error error => simp [hread]
    | ok buffer =>
      cases hscan : scanCluster search (entriesOf buffer) with
      | some result => simp [hread,hscan]
      | none =>
        cases hnext : nextCluster fs cluster with
        | error error => simp [hread,hscan]
        | ok following =>
          by_cases hend : following.toNat ≥ 0x0FFFFFF8
          · simp [hread,hscan,hend]
          · simp [hread,hscan,hend]

/-- A search finds what the first answering entry of a cluster it visits gives. -/
theorem findInCluster_first (entry : DirectoryEntry) :
    (∃ fuel, findInCluster fs fuel search start = some (.returned (.ok entry))) ↔
      ∃ buffer raw, Visited fs search start buffer ∧
        (live (entriesOf buffer)).find? (answersShort search) = some raw ∧
        directoryEntry raw = entry := by
  rw [findInCluster_finds_iff]
  constructor
  · rintro ⟨n,cluster,hvisit,hstop⟩
    obtain ⟨lba,buffer,hlba,hread,hscan⟩ := (searchTurn_found fs search cluster entry).mp hstop
    obtain ⟨raw,hfind,hraw⟩ := (scanCluster_first search _ entry).mp hscan
    exact ⟨buffer,raw,⟨n,cluster,lba,hvisit,hlba,hread⟩,hfind,hraw⟩
  · rintro ⟨buffer,raw,⟨n,cluster,lba,hvisit,hlba,hread⟩,hfind,hraw⟩
    have hscan := (scanCluster_first search _ entry).mpr ⟨raw,hfind,hraw⟩
    exact ⟨n,cluster,hvisit,(searchTurn_found fs search cluster entry).mpr
      ⟨lba,buffer,hlba,hread,hscan⟩⟩

/-- No label answers first in a cluster the search visits. -/
def LegacyLabelsShadowed : Prop :=
  ∀ buffer, Visited fs search start buffer →
    Shadowed (answersShort search) IsLabel (live (entriesOf buffer))

theorem legacy_clear_iff :
    (∀ fuel entry, findInCluster fs fuel search start = some (.returned (.ok entry)) →
      entry.attributes&&&0x08 = 0) ↔ LegacyLabelsShadowed fs search start := by
  constructor
  · intro h buffer hvisited
    apply (first_clear_iff _ _ _).mp
    intro raw hfind hlabel
    obtain ⟨fuel,hfound⟩ := (findInCluster_first fs search start (directoryEntry raw)).mpr
      ⟨buffer,raw,hvisited,hfind,rfl⟩
    exact hlabel (h fuel _ hfound)
  · intro h fuel entry hfound
    obtain ⟨buffer,raw,hvisited,hfind,rfl⟩ :=
      (findInCluster_first fs search start entry).mp ⟨fuel,hfound⟩
    have hclear := (first_clear_iff _ _ _).mpr (h buffer hvisited) raw hfind
    exact not_not.mp hclear

end Disk

/-- Neither scanner returns an entry with the volume-label bit exactly when no such entry
answers the name first. -/
theorem labels_kept_out_iff {bits : ℕ} (image : RamFat32 bits) (search : List UInt8) (dir : ℕ)
    {usizeBits : ℕ} (disk : LegacyFat32.Fat32 usizeBits) (name : List Char) (start : BitVec 32) :
    ((∀ fuel facts, findInDir image search fuel dir = some (some facts) →
      (∃ entry, Accepts image search dir entry ∧ entryFacts entry = facts) ∧
        ∀ entry, Accepts image search dir entry → entry.getD 0x0B 0&&&0x08 = 0) ↔
      LabelsShadowed image search dir) ∧
    ((∀ fuel entry,
      LegacyFat32.findInCluster disk fuel name start = some (.returned (.ok entry)) →
        entry.attributes&&&0x08 = 0) ↔ LegacyLabelsShadowed disk name start) := by
  refine ⟨?_,legacy_clear_iff disk name start⟩
  rw [← accepts_clear_iff]
  constructor
  · intro h entry haccepts hlabel
    obtain ⟨fuel,hfound⟩ := accepts_found image search dir entry haccepts
    exact hlabel ((h fuel _ hfound).2 entry haccepts)
  · intro h fuel facts hfound
    exact ⟨found_accepts image search dir fuel facts hfound,
      fun entry haccepts => not_not.mp (h entry haccepts)⟩

def labelled : List UInt8 :=
  bootSector++([0,0,0,0,0,0,0,0,0xFF,0xFF,0xFF,0x0F]++List.replicate 500 0)++
    ((letterEntry 0x41 0).set 11 0x08++letterEntry 0x41 4++List.replicate 448 0)

theorem labelled_length : labelled.length = 1536 := by
  simp only [labelled,letterEntry,bootSector_length,List.length_append,List.length_replicate,
    List.length_cons,List.length_nil,List.length_set]

theorem labelled_lt : labelled.length < 2^64 := by
  rw [labelled_length]
  decide

def labelledFs : RamFat32 64 := booted labelled labelled_lt

def labelledDisk : LegacyFat32.Fat32 32 := ⟨LegacyFat32.imageDisk labelled,⟨1,1,1,1,2⟩,0⟩

/-- Both scanners take the label for the file. -/
theorem label_taken :
    parse 64 labelled labelled_lt = some labelledFs ∧
    findInDir labelledFs [0x41] 1 2 = some (some ⟨0#32,1#32,false⟩) ∧
    (∃ entry, Accepts labelledFs [0x41] 2 entry ∧ entry.getD 0x0B 0&&&0x08 ≠ 0) ∧
    LegacyFat32.findInCluster labelledDisk 1 [ 'A'] 2 =
      some (.returned (.ok ⟨asciiBytes "A          ",0x08,0,0,1⟩)) := by
  have hfound : findInDir labelledFs [0x41] 1 2 = some (some ⟨0#32,1#32,false⟩) := by
    decide +kernel
  have hfirst : (chainEntries labelledFs 0 2).map (fun entries =>
      ((met LfnAccum.new (live entries)).find? (answersName [0x41])).map Prod.snd) =
        some (some ((letterEntry 0x41 0).set 11 0x08)) := by decide +kernel
  refine ⟨parse_bootSector labelled labelled_lt (take_bootSector _ _),hfound,?_,by decide +kernel⟩
  obtain ⟨entries,hchain,hfind⟩ := Option.map_eq_some_iff.mp hfirst
  obtain ⟨⟨lfn,entry⟩,hfind,rfl⟩ := Option.map_eq_some_iff.mp hfind
  exact ⟨_,⟨0,entries,lfn,hchain,hfind⟩,by decide +kernel⟩

end Zamak.VolumeLabels
