import Zamak.LegacyFat32

/-! # When the older FAT32 driver comes back

A search visits the clusters of a directory one after another. It returns without an
underflow exactly when none of them is below two and none comes twice. A read stops by
itself when its bytes are used up, so there only the clusters up to that point count,
unless a cluster has no sectors and no byte is ever used up. -/

set_option autoImplicit false

namespace Zamak.LegacyLoops
open Zamak.ConfigText Zamak.WindowSearch Zamak.PartialSteps Zamak.LegacyFat32
open Zamak.IsoDriver (FileEntry)
open Zamak.Fat32Paths (loopImage loopImage_length)
open Zamak.Fat32Directory (entriesOf)

instance finiteWords (w : ℕ) : Finite (BitVec w) :=
  Finite.of_injective BitVec.toFin fun _ _ h => congrArg BitVec.ofFin h

section Driver
variable {usizeBits : ℕ} (fs : Fat32 usizeBits)

/-- The clusters a search for a name visits are all two or more, and all different. -/
def SearchSound (search : List Char) (start : BitVec 32) : Prop :=
  (∀ n cluster, visit (next (searchTurn fs search)) n start = some cluster →
    2 ≤ cluster.toNat) ∧ ¬Returns (next (searchTurn fs search)) start

/-- A search that stops in one of the clusters it visits with an entry of the name. -/
def Finds (search : List Char) (start : BitVec 32) (entry : DirectoryEntry) : Prop :=
  ∃ n cluster, visit (next (searchTurn fs search)) n start = some cluster ∧
    searchTurn fs search cluster = .stop (.returned (.ok entry))

def PathSound : List (List Char) → BitVec 32 → Prop
  | [], _ => True
  | part::parts, current =>
    if part = [] then PathSound parts current
    else SearchSound fs part current ∧
      ∀ entry, Finds fs part current entry →
        PathSound parts (if isDirectory entry then startOf entry else current)

theorem searchTurn_underflow (search : List Char) (cluster : BitVec 32) :
    searchTurn fs search cluster = .stop .underflow ↔ cluster.toNat < 2 := by
  constructor
  · intro h
    by_contra hge
    rw [searchTurn,clusterToLba,if_pos (by omega)] at h
    simp only at h
    split at h
    · cases h
    split at h
    · cases h
    split at h
    · cases h
    split at h
    · cases h
    · cases h
  · intro h
    rw [searchTurn,clusterToLba,if_neg (by omega)]

theorem findInCluster_sound_iff (search : List Char) (start : BitVec 32) :
    (∃ fuel result, findInCluster fs fuel search start = some (.returned result)) ↔
      SearchSound fs search start := by
  have havoids := run_avoids_iff (searchTurn fs search) (· = .underflow) start
  rw [ends_iff] at havoids
  constructor
  · rintro ⟨fuel,result,h⟩
    obtain ⟨hback,hgood⟩ := havoids.mp ⟨fuel,_,h,fun hbad => by cases hbad⟩
    refine ⟨fun n cluster hvisit => ?_,hback⟩
    by_contra hlow
    exact hgood n cluster _ hvisit ((searchTurn_underflow fs search cluster).mpr (by omega)) rfl
  · rintro ⟨hlow,hback⟩
    have hgood : ∀ n cluster outcome, visit (next (searchTurn fs search)) n start = some cluster →
        searchTurn fs search cluster = .stop outcome → outcome ≠ .underflow := by
      rintro n cluster outcome hvisit hstop rfl
      have := hlow n cluster hvisit
      have := (searchTurn_underflow fs search cluster).mp hstop
      omega
    obtain ⟨fuel,outcome,hrun,hsound⟩ := havoids.mpr ⟨hback,hgood⟩
    cases outcome with
    | returned result => exact ⟨fuel,result,hrun⟩
    | underflow => exact (hsound rfl).elim

theorem findInCluster_finds_iff (search : List Char) (start : BitVec 32)
    (entry : DirectoryEntry) :
    (∃ fuel, findInCluster fs fuel search start = some (.returned (.ok entry))) ↔
      Finds fs search start entry :=
  run_iff (searchTurn fs search) start (.returned (.ok entry))

theorem findInCluster_mono {search : List Char} {start : BitVec 32} {fuel fuel' : ℕ}
    {outcome : Outcome DirectoryEntry} (h : findInCluster fs fuel search start = some outcome)
    (hle : fuel ≤ fuel') : findInCluster fs fuel' search start = some outcome :=
  run_mono _ fuel fuel' start outcome h hle

theorem findParts_mono {fuel fuel' : ℕ} (parts : List (List Char)) {current : BitVec 32}
    {last : Option DirectoryEntry} {outcome : Outcome (Option DirectoryEntry)}
    (h : findParts fs fuel parts current last = some outcome) (hle : fuel ≤ fuel') :
    findParts fs fuel' parts current last = some outcome := by
  induction parts generalizing current last with
  | nil => exact h
  | cons part parts ih =>
    rw [findParts] at h ⊢
    by_cases hempty : part = []
    · rw [if_pos hempty] at h ⊢
      exact ih h
    · rw [if_neg hempty] at h ⊢
      cases hfind : findInCluster fs fuel part current with
      | none => simp [hfind] at h
      | some found =>
        rw [findInCluster_mono fs hfind hle]
        cases found with
        | underflow => simpa [hfind] using h
        | returned result =>
          cases result with
          | error error => simpa [hfind] using h
          | ok entry =>
            simp only [hfind] at h
            exact ih h

theorem findParts_sound_iff (parts : List (List Char)) (current : BitVec 32)
    (last : Option DirectoryEntry) :
    (∃ fuel result, findParts fs fuel parts current last = some (.returned result)) ↔
      PathSound fs parts current := by
  induction parts generalizing current last with
  | nil => exact ⟨fun _ => trivial,fun _ => ⟨0,.ok last,rfl⟩⟩
  | cons part parts ih =>
    by_cases hempty : part = []
    · simp only [findParts,PathSound,if_pos hempty]
      exact ih current last
    simp only [findParts,PathSound,if_neg hempty]
    rw [← findInCluster_sound_iff]
    constructor
    · rintro ⟨fuel,result,h⟩
      cases hfind : findInCluster fs fuel part current with
      | none => simp [hfind] at h
      | some found =>
        cases found with
        | underflow => simp [hfind] at h
        | returned answer =>
          refine ⟨⟨fuel,answer,hfind⟩,fun entry hentry => ?_⟩
          obtain ⟨fuel',hfind'⟩ := (findInCluster_finds_iff fs part current entry).mpr hentry
          cases run_unique _ fuel fuel' current _ _ hfind hfind'
          simp only [hfind] at h
          exact (ih _ (some entry)).mp ⟨fuel,result,h⟩
    · rintro ⟨⟨fuel,answer,hfind⟩,hrest⟩
      cases answer with
      | error error => exact ⟨fuel,.error error,by simp only [hfind]⟩
      | ok entry =>
        have hentry := (findInCluster_finds_iff fs part current entry).mp ⟨fuel,hfind⟩
        obtain ⟨fuel',result,h⟩ := (ih _ (some entry)).mpr (hrest entry hentry)
        refine ⟨max fuel fuel',result,?_⟩
        simp only [findInCluster_mono fs hfind (Nat.le_max_left fuel fuel')]
        exact findParts_mono fs parts h (Nat.le_max_right fuel fuel')

theorem findFile_sound_iff (path : Text) :
    (∃ fuel result, findFile fs fuel path = some (.returned result)) ↔
      PathSound fs (path.splitOn '/') fs.bpb.rootCluster := by
  rw [← findParts_sound_iff fs (path.splitOn '/') fs.bpb.rootCluster none]
  constructor
  · rintro ⟨fuel,result,h⟩
    rw [findFile] at h
    cases hparts : findParts fs fuel (path.splitOn '/') fs.bpb.rootCluster none with
    | none => simp [hparts] at h
    | some outcome =>
      cases outcome with
      | underflow => simp [hparts] at h
      | returned answer => exact ⟨fuel,answer,hparts⟩
  · rintro ⟨fuel,answer,hparts⟩
    simp only [findFile]
    cases answer with
    | error error => exact ⟨fuel,.error error,by simp only [hparts]⟩
    | ok last =>
      cases last with
      | none => exact ⟨fuel,.error .fileNotFound,by simp only [hparts]⟩
      | some entry => exact ⟨fuel,.ok (fileEntry path entry),by simp only [hparts]⟩

/-- The cluster a read goes to next, if the one it is at can be read. -/
def readNext (cluster : BitVec 32) : Option (BitVec 32) :=
  if cluster.toNat < 0x0FFFFFF8 then
    (clusterToLba fs cluster).bind fun lba =>
      match readCluster fs lba, nextCluster fs cluster with
      | .ok _, .ok next => some next
      | _, _ => none
  else none

/-- The clusters a read visits before its bytes are used up are all two or more, and they
are used up, or the clusters are all different. -/
def ReadSound (start : BitVec 32) (total : ℕ) : Prop :=
  (∀ n cluster, n*clusterSize fs < total → visit (readNext fs) n start = some cluster →
    2 ≤ cluster.toNat) ∧
  (0 < clusterSize fs ∨ total = 0 ∨ ¬Returns (readNext fs) start)

/-- What decides how a read goes on: where it is, and the bytes it has left. -/
def progress (s : Reading) : BitVec 32 × ℕ := (s.cluster,s.bytesLeft)

def progressNext (p : BitVec 32 × ℕ) : Option (BitVec 32 × ℕ) :=
  if 0 < p.2 then (readNext fs p.1).map fun cluster => (cluster,p.2-clusterSize fs) else none

theorem readTurn_progress (s : Reading) :
    (next (readTurn fs) s).map progress = progressNext fs (progress s) := by
  by_cases hleft : 0 < s.bytesLeft
  · by_cases hrange : s.cluster.toNat < 0x0FFFFFF8
    · cases hlba : clusterToLba fs s.cluster with
      | none => simp [next,readTurn,progressNext,progress,readNext,hleft,hrange,hlba]
      | some lba =>
        cases hread : readCluster fs lba with
        | error error => simp [next,readTurn,progressNext,progress,readNext,hleft,hrange,hlba,hread]
        | ok clusterBuf =>
          cases hnext : nextCluster fs s.cluster with
          | error error =>
            simp [next,readTurn,progressNext,progress,readNext,hleft,hrange,hlba,hread,hnext]
          | ok following =>
            have hsub : s.bytesLeft-min s.bytesLeft (clusterSize fs) =
                s.bytesLeft-clusterSize fs := by omega
            simp [next,readTurn,progressNext,progress,readNext,hleft,hrange,hlba,hread,hnext,hsub]
    · simp [next,readTurn,progressNext,progress,readNext,hrange]
  · simp [next,readTurn,progressNext,progress,hleft]

theorem readTurn_underflow (s : Reading) :
    (∃ buffer, readTurn fs s = .stop (.underflow,buffer)) ↔
      0 < s.bytesLeft ∧ s.cluster.toNat < 2 := by
  by_cases hmore : 0 < s.bytesLeft ∧ s.cluster.toNat < 0x0FFFFFF8
  · by_cases hlow : s.cluster.toNat < 2
    · have hlba : clusterToLba fs s.cluster = none := if_neg (by omega)
      simp [readTurn,hmore,hlba,hlow]
    · have hlba : ∃ lba, clusterToLba fs s.cluster = some lba := ⟨_,if_pos (by omega)⟩
      obtain ⟨lba,hlba⟩ := hlba
      simp only [readTurn,if_pos hmore,hlba,hlow,and_false,iff_false]
      rintro ⟨buffer,h⟩
      split at h
      · cases h
      split at h
      · cases h
      · cases h
  · simp only [readTurn,if_neg hmore]
    constructor
    · rintro ⟨buffer,h⟩
      cases h
    · omega

theorem progress_visit (n : ℕ) (start : BitVec 32) (total : ℕ) :
    visit (progressNext fs) n (start,total) =
      if n = 0 ∨ (n-1)*clusterSize fs < total then
        (visit (readNext fs) n start).map fun cluster => (cluster,total-n*clusterSize fs)
      else none := by
  induction n generalizing start total with
  | zero => simp [visit]
  | succ n ih =>
    rw [visit,visit,progressNext]
    by_cases hleft : 0 < total
    · rw [if_pos hleft]
      cases hnext : readNext fs start with
      | none => simp
      | some cluster =>
        simp only [Option.map_some,Option.bind_some,Nat.add_sub_cancel]
        rw [ih]
        have hsub : total-clusterSize fs-n*clusterSize fs = total-(n+1)*clusterSize fs := by
          rw [Nat.succ_mul]
          omega
        cases n with
        | zero => simp [hleft]
        | succ n =>
          have hiff : (n+1 = 0 ∨ (n+1-1)*clusterSize fs < total-clusterSize fs) ↔
              (n+1+1 = 0 ∨ (n+1)*clusterSize fs < total) := by
            rw [Nat.add_sub_cancel,Nat.succ_mul]
            omega
          rw [hsub,if_congr hiff rfl rfl]
    · have hnone : ¬(n+1 = 0 ∨ (n+1-1)*clusterSize fs < total) := by omega
      rw [if_neg hleft,if_neg hnone]
      rfl

section Read
variable (s : Reading)

theorem reading_visit (n : ℕ) :
    (visit (next (readTurn fs)) n s).map progress =
      if n = 0 ∨ (n-1)*clusterSize fs < s.bytesLeft then
        (visit (readNext fs) n s.cluster).map fun cluster =>
          (cluster,s.bytesLeft-n*clusterSize fs)
      else none := by
  rw [visit_map _ progress (progressNext fs) (readTurn_progress fs) n s]
  exact progress_visit fs n s.cluster s.bytesLeft

theorem reading_ends_iff :
    (∃ n, visit (next (readTurn fs)) n s = none) ↔
      (0 < clusterSize fs ∨ s.bytesLeft = 0 ∨ ¬Returns (readNext fs) s.cluster) := by
  have hseen : ∀ n, visit (next (readTurn fs)) n s = none ↔
      ¬(n = 0 ∨ (n-1)*clusterSize fs < s.bytesLeft) ∨ visit (readNext fs) n s.cluster = none := by
    intro n
    have hv := reading_visit fs s n
    rw [← Option.map_eq_none_iff,hv]
    split_ifs with h
    · simp [h]
    · simp [h]
  constructor
  · rintro ⟨n,hend⟩
    by_contra hno
    push Not at hno
    obtain ⟨hsize,hleft,hback⟩ := hno
    rcases (hseen n).mp hend with hstop | hstop
    · rw [show clusterSize fs = 0 by omega,Nat.mul_zero] at hstop
      omega
    · exact ((ends_iff (readNext fs) s.cluster).mp ⟨n,hstop⟩) hback
  · rintro (hsize | hleft | hback)
    · refine ⟨s.bytesLeft+1,(hseen _).mpr (Or.inl ?_)⟩
      have : s.bytesLeft*1 ≤ s.bytesLeft*clusterSize fs := Nat.mul_le_mul_left _ hsize
      rw [Nat.add_sub_cancel]
      omega
    · exact ⟨1,(hseen 1).mpr (Or.inl (by omega))⟩
    · obtain ⟨n,hend⟩ := (ends_iff (readNext fs) s.cluster).mpr hback
      exact ⟨n,(hseen n).mpr (Or.inr hend)⟩

theorem reading_underflow_iff :
    (∃ fuel buffer, run (readTurn fs) fuel s = some (.underflow,buffer)) ↔
      ∃ n cluster, n*clusterSize fs < s.bytesLeft ∧
        visit (readNext fs) n s.cluster = some cluster ∧ cluster.toNat < 2 := by
  constructor
  · rintro ⟨fuel,buffer,h⟩
    obtain ⟨n,t,hvisit,hstop⟩ := (run_iff _ s _).mp ⟨fuel,h⟩
    obtain ⟨hleft,hlow⟩ := (readTurn_underflow fs t).mp ⟨buffer,hstop⟩
    have hv := reading_visit fs s n
    rw [hvisit] at hv
    by_cases hn : n = 0 ∨ (n-1)*clusterSize fs < s.bytesLeft
    · rw [if_pos hn] at hv
      obtain ⟨cluster,hcluster,hsame⟩ := Option.map_eq_some_iff.mp hv.symm
      obtain ⟨hc,hl⟩ := Prod.mk.inj hsame
      have hl : s.bytesLeft-n*clusterSize fs = t.bytesLeft := hl
      have hc : cluster = t.cluster := hc
      exact ⟨n,cluster,by omega,hcluster,hc ▸ hlow⟩
    · rw [if_neg hn] at hv
      cases hv
  · rintro ⟨n,cluster,hmore,hvisit,hlow⟩
    have hn : n = 0 ∨ (n-1)*clusterSize fs < s.bytesLeft := by
      cases n with
      | zero => exact Or.inl rfl
      | succ n =>
        rw [Nat.succ_mul] at hmore
        exact Or.inr (by rw [Nat.add_sub_cancel]; omega)
    have hv := reading_visit fs s n
    rw [if_pos hn,hvisit] at hv
    obtain ⟨t,ht,hsame⟩ := Option.map_eq_some_iff.mp hv
    obtain ⟨hc,hl⟩ := Prod.mk.inj hsame
    have hl : t.bytesLeft = s.bytesLeft-n*clusterSize fs := hl
    have hc : t.cluster = cluster := hc
    obtain ⟨buffer,hstop⟩ := (readTurn_underflow fs t).mpr ⟨by omega,hc ▸ hlow⟩
    obtain ⟨fuel,h⟩ := (run_iff _ s _).mpr ⟨n,t,ht,hstop⟩
    exact ⟨fuel,buffer,h⟩

theorem reading_sound_iff :
    (∃ fuel result buffer, run (readTurn fs) fuel s = some (.returned result,buffer)) ↔
      ReadSound fs s.cluster s.bytesLeft := by
  constructor
  · rintro ⟨fuel,result,buffer,h⟩
    constructor
    · intro n cluster hmore hvisit
      by_contra hlow
      obtain ⟨fuel',buffer',h'⟩ :=
        (reading_underflow_iff fs s).mpr ⟨n,cluster,hmore,hvisit,by omega⟩
      cases run_unique _ fuel fuel' s _ _ h h'
    · exact (reading_ends_iff fs s).mp ((run_ends_iff _ s).mp ⟨fuel,_,h⟩)
  · rintro ⟨hlow,hends⟩
    obtain ⟨fuel,⟨outcome,buffer⟩,h⟩ := (run_ends_iff _ s).mpr ((reading_ends_iff fs s).mpr hends)
    cases outcome with
    | returned result => exact ⟨fuel,result,buffer,h⟩
    | underflow =>
      obtain ⟨n,cluster,hmore,hvisit,hless⟩ := (reading_underflow_iff fs s).mp ⟨fuel,buffer,h⟩
      have := hlow n cluster hmore hvisit
      omega

end Read

/-- `find_file` and `read_file` return, with no underflow, exactly on disks where the
clusters they visit are sound. -/
theorem driver_sound_iff (path : Text) (entry : FileEntry) (buffer : List UInt8) :
    ((∃ fuel result, findFile fs fuel path = some (.returned result)) ↔
      PathSound fs (path.splitOn '/') fs.bpb.rootCluster) ∧
    ((∃ fuel result left, readFile fs fuel entry buffer = some (.returned result,left)) ↔
      ReadSound fs (BitVec.ofNat 32 entry.opaqueId.toNat)
        (min (entry.size.toNat%2^usizeBits) buffer.length)) :=
  ⟨findFile_sound_iff fs path,reading_sound_iff fs _⟩

end Driver

def loopDisk : Fat32 32 := ⟨imageDisk loopImage,⟨1,1,1,1,2⟩,0⟩

theorem loopDisk_parse : parse 32 (imageDisk loopImage) 0 = .ok loopDisk := by
  have hread := imageDisk_read loopImage (List.replicate 512 0) 0 1
    (by rw [loopImage_length]; decide) (by rw [List.length_replicate])
  have hbpb : biosParameterBlock
      (splice (List.replicate 512 0) 0 ((loopImage.drop (0*512)).take (1*512))) =
      ⟨1,1,1,1,2⟩ := by decide +kernel
  have hstart : (0 : BitVec 64).toNat = 0 := rfl
  unfold parse
  rw [hstart,hread]
  simp only [hbpb]
  rfl

/-- A directory that is its own successor is searched for ever, and a file whose first
cluster is zero is read from below the data area. -/
theorem loopDisk_unsound :
    parse 32 (imageDisk loopImage) 0 = .ok loopDisk ∧
    (∀ fuel, findFile loopDisk fuel [ 'A'] = none) ∧
    readFile loopDisk 1 ⟨[ 'B'],1,.file,0⟩ [0] = some (.underflow,[0]) := by
  have hself : next (searchTurn loopDisk [ 'A']) 2 = some 2 := by decide +kernel
  have hback : Returns (next (searchTurn loopDisk [ 'A'])) 2 :=
    ⟨0,1,2,Nat.one_pos,rfl,by rw [visit,hself]; rfl⟩
  have hsearch : ∀ fuel, findInCluster loopDisk fuel [ 'A'] 2 = none := by
    intro fuel
    cases hrun : findInCluster loopDisk fuel [ 'A'] 2 with
    | none => rfl
    | some outcome => exact ((run_returns_iff _ 2).mp ⟨fuel,outcome,hrun⟩ hback).elim
  have hparts : ( [ 'A'] : Text).splitOn '/' = [[ 'A']] := by decide
  have hroot : loopDisk.bpb.rootCluster = 2 := rfl
  refine ⟨loopDisk_parse,fun fuel => ?_,rfl⟩
  rw [findFile,hparts,hroot,findParts,if_neg (List.cons_ne_nil _ _),hsearch fuel]

end Zamak.LegacyLoops
