import Zamak.Fat32Lookup

/-! # Paths on a FAT32 image

`find_path` looks up each part of a path in the directory found so far. A search goes on
along the cluster chain as long as the chain does, so it returns exactly when the chain
ends somewhere, or some of its clusters hold an end marker or an answer. -/

set_option autoImplicit false

namespace Zamak.Fat32Paths
open Zamak.Fat32Image Zamak.Fat32Directory Zamak.Fat32Chain Zamak.Fat32Lookup

def pathParts (path : List Char) : List (List UInt8) :=
  (path.splitOn '/').map fun part => part.flatMap String.utf8EncodeChar

section Paths
variable {usizeBits : ℕ} (fs : RamFat32 usizeBits)

def findParts (fuel : ℕ) :
    List (List UInt8) → ℕ → Option DirEntryFacts → Option (Option DirEntryFacts)
  | [], _, last => some last
  | part::parts, current, last =>
    if part = [] then findParts fuel parts current last
    else
      match findInDir fs part fuel current with
      | none => none
      | some none => some none
      | some (some facts) =>
        findParts fuel parts (if facts.isDir then facts.firstCluster.toNat else current)
          (some facts)

def findPath (fuel : ℕ) (path : List Char) : Option (Option DirEntryFacts) :=
  findParts fs fuel (pathParts path) fs.rootCluster none

def follow (cluster : ℕ) : Option ℕ :=
  (nextCluster fs cluster).filter fun next => 2 ≤ next ∧ next < fat32EndOfChain

/-- The entries in the first `n+1` clusters of a chain, if it has as many. -/
def chainEntries : ℕ → ℕ → Option (List (List UInt8))
  | 0, cluster => (clusterBytes fs cluster).map entriesOf
  | n+1, cluster => do
    let bytes ← clusterBytes fs cluster
    let next ← follow fs cluster
    let rest ← chainEntries n next
    some (entriesOf bytes++rest)

/-- The chain has some last cluster: the next one is outside of the image, or the link
is missing, or it is not the number of a cluster. -/
def FiniteChain (cluster : ℕ) : Prop := ∃ n, chainEntries fs n cluster = none

/-- In the entries of some first clusters of the chain an answer to the name, or an end
marker, is met first. -/
def Answers (search : List UInt8) (cluster : ℕ) (result : Option DirEntryFacts) : Prop :=
  ∃ n entries, chainEntries fs n cluster = some entries ∧
    scanEntries search entries LfnAccum.new = .done result

def DirectoryStops (search : List UInt8) (cluster : ℕ) : Prop :=
  FiniteChain fs cluster ∨ ∃ result, Answers fs search cluster result

def PathStops : List (List UInt8) → ℕ → Prop
  | [], _ => True
  | part::parts, current =>
    if part = [] then PathStops parts current
    else DirectoryStops fs part current ∧
      ∀ facts, Answers fs part current (some facts) →
        PathStops parts (if facts.isDir then facts.firstCluster.toNat else current)

section Search
variable (search : List UInt8)

theorem searchClusters_step (fuel cluster : ℕ) (lfn : LfnAccum) :
    searchClusters fs search (fuel+1) cluster lfn =
      match clusterBytes fs cluster with
      | none => some none
      | some bytes =>
        match scanEntries search (entriesOf bytes) lfn with
        | .done result => some result
        | .more lfn =>
          match follow fs cluster with
          | none => some none
          | some next => searchClusters fs search fuel next lfn := by
  have hgo : ∀ lfn, (match nextCluster fs cluster with
      | none => some none
      | some next =>
        if 2 ≤ next ∧ next < fat32EndOfChain then searchClusters fs search fuel next lfn
        else some none) =
      match follow fs cluster with
      | none => some none
      | some next => searchClusters fs search fuel next lfn := by
    intro lfn
    unfold follow
    cases nextCluster fs cluster with
    | none => rfl
    | some next =>
      by_cases hrange : 2 ≤ next ∧ next < fat32EndOfChain
      · simp only [Option.filter,hrange,and_self,decide_true,if_true]
      · simp only [Option.filter,hrange,decide_false,if_false,Bool.false_eq_true]
  rw [searchClusters]
  cases hbytes : clusterBytes fs cluster with
  | none => rfl
  | some bytes =>
    cases hscan : scanEntries search (entriesOf bytes) lfn with
    | done result => simp only [hscan]
    | more lfn =>
      simp only [hscan]
      exact hgo lfn

theorem chain_succ {n cluster : ℕ} {entries : List (List UInt8)}
    (h : chainEntries fs (n+1) cluster = some entries) :
    ∃ bytes next rest, clusterBytes fs cluster = some bytes ∧ follow fs cluster = some next ∧
      chainEntries fs n next = some rest ∧ entries = entriesOf bytes++rest := by
  simp only [chainEntries,Option.bind_eq_bind,Option.bind_eq_some_iff] at h
  obtain ⟨bytes,hbytes,next,hnext,rest,hrest,hentries⟩ := h
  exact ⟨bytes,next,rest,hbytes,hnext,hrest,(Option.some.inj hentries).symm⟩

theorem search_done_chain (n cluster : ℕ) (lfn : LfnAccum) (entries : List (List UInt8))
    (result : Option DirEntryFacts) (hchain : chainEntries fs n cluster = some entries)
    (hscan : scanEntries search entries lfn = .done result) :
    searchClusters fs search (n+1) cluster lfn = some result := by
  induction n generalizing cluster lfn entries with
  | zero =>
    obtain ⟨bytes,hbytes,rfl⟩ := Option.map_eq_some_iff.mp hchain
    rw [searchClusters_step,hbytes]
    simp only [hscan]
  | succ n ih =>
    obtain ⟨bytes,next,rest,hbytes,hnext,hrest,rfl⟩ := chain_succ fs hchain
    rw [scanEntries_append] at hscan
    rw [searchClusters_step,hbytes]
    cases hfirst : scanEntries search (entriesOf bytes) lfn with
    | done found =>
      rw [hfirst] at hscan
      cases hscan
      simp only [hfirst]
    | more lfn' =>
      rw [hfirst] at hscan
      simp only [hfirst,hnext]
      exact ih next lfn' rest hrest hscan

theorem search_more_chain (n cluster : ℕ) (lfn lfn' : LfnAccum) (entries : List (List UInt8))
    (hchain : chainEntries fs n cluster = some entries)
    (hscan : scanEntries search entries lfn = .more lfn') :
    searchClusters fs search n cluster lfn = none := by
  induction n generalizing cluster lfn entries with
  | zero => rfl
  | succ n ih =>
    obtain ⟨bytes,next,rest,hbytes,hnext,hrest,rfl⟩ := chain_succ fs hchain
    rw [scanEntries_append] at hscan
    rw [searchClusters_step,hbytes]
    cases hfirst : scanEntries search (entriesOf bytes) lfn with
    | done found =>
      rw [hfirst] at hscan
      cases hscan
    | more lfn'' =>
      rw [hfirst] at hscan
      simp only [hfirst,hnext]
      exact ih next lfn'' rest hrest hscan

theorem search_short_chain (n cluster : ℕ) (lfn : LfnAccum)
    (hchain : chainEntries fs n cluster = none) :
    ∃ result, searchClusters fs search (n+1) cluster lfn = some result := by
  induction n generalizing cluster lfn with
  | zero =>
    rw [searchClusters_step,Option.map_eq_none_iff.mp hchain]
    exact ⟨none,rfl⟩
  | succ n ih =>
    rw [searchClusters_step]
    cases hbytes : clusterBytes fs cluster with
    | none => exact ⟨none,rfl⟩
    | some bytes =>
      cases hfirst : scanEntries search (entriesOf bytes) lfn with
      | done found => exact ⟨found,by simp only [hfirst]⟩
      | more lfn' =>
        simp only [hfirst]
        cases hnext : follow fs cluster with
        | none => exact ⟨none,rfl⟩
        | some next =>
          apply ih next lfn'
          cases hrest : chainEntries fs n next with
          | none => rfl
          | some rest => simp [chainEntries,hbytes,hnext,hrest] at hchain

theorem search_mono (fuel cluster : ℕ) (lfn : LfnAccum) (result : Option DirEntryFacts)
    (h : searchClusters fs search fuel cluster lfn = some result) (k : ℕ) :
    searchClusters fs search (fuel+k) cluster lfn = some result := by
  induction fuel generalizing cluster lfn with
  | zero => cases h
  | succ fuel ih =>
    rw [Nat.add_right_comm,searchClusters_step]
    rw [searchClusters_step] at h
    cases hbytes : clusterBytes fs cluster with
    | none => simpa only [hbytes] using h
    | some bytes =>
      cases hfirst : scanEntries search (entriesOf bytes) lfn with
      | done found => simpa only [hbytes,hfirst] using h
      | more lfn' =>
        cases hnext : follow fs cluster with
        | none => simpa only [hbytes,hfirst,hnext] using h
        | some next =>
          simp only [hbytes,hfirst,hnext] at h ⊢
          exact ih next lfn' h

theorem findInDir_returns_iff (cluster : ℕ) :
    (∃ fuel result, findInDir fs search fuel cluster = some result) ↔
      DirectoryStops fs search cluster := by
  constructor
  · rintro ⟨fuel,result,hreturn⟩
    cases hchain : chainEntries fs fuel cluster with
    | none => exact Or.inl ⟨fuel,hchain⟩
    | some entries =>
      cases hscan : scanEntries search entries LfnAccum.new with
      | done found => exact Or.inr ⟨found,fuel,entries,hchain,hscan⟩
      | more lfn =>
        have hnone := search_more_chain fs search fuel cluster _ lfn entries hchain hscan
        rw [findInDir,hnone] at hreturn
        cases hreturn
  · rintro (⟨n,hshort⟩ | ⟨result,n,entries,hchain,hscan⟩)
    · exact ⟨n+1,search_short_chain fs search n cluster _ hshort⟩
    · exact ⟨n+1,result,search_done_chain fs search n cluster _ entries result hchain hscan⟩

theorem findInDir_mono {fuel cluster : ℕ} {result : Option DirEntryFacts}
    (h : findInDir fs search fuel cluster = some result) {fuel' : ℕ} (hle : fuel ≤ fuel') :
    findInDir fs search fuel' cluster = some result := by
  have hmore := search_mono fs search fuel cluster _ result h (fuel'-fuel)
  rwa [Nat.add_sub_cancel' hle] at hmore

theorem findInDir_unique {fuel fuel' cluster : ℕ} {result result' : Option DirEntryFacts}
    (h : findInDir fs search fuel cluster = some result)
    (h' : findInDir fs search fuel' cluster = some result') : result = result' := by
  have h1 := findInDir_mono fs search h (Nat.le_max_left fuel fuel')
  have h2 := findInDir_mono fs search h' (Nat.le_max_right fuel fuel')
  exact Option.some.inj (h1.symm.trans h2)

theorem search_found (fuel cluster : ℕ) (lfn : LfnAccum) (facts : DirEntryFacts)
    (h : searchClusters fs search fuel cluster lfn = some (some facts)) :
    ∃ n entries, chainEntries fs n cluster = some entries ∧
      scanEntries search entries lfn = .done (some facts) := by
  induction fuel generalizing cluster lfn with
  | zero => cases h
  | succ fuel ih =>
    rw [searchClusters_step] at h
    cases hbytes : clusterBytes fs cluster with
    | none => simp [hbytes] at h
    | some bytes =>
      cases hfirst : scanEntries search (entriesOf bytes) lfn with
      | done found =>
        simp only [hbytes,hfirst,Option.some.injEq] at h
        exact ⟨0,entriesOf bytes,by rw [chainEntries,hbytes]; rfl,by rw [hfirst,h]⟩
      | more lfn' =>
        cases hnext : follow fs cluster with
        | none => simp [hbytes,hfirst,hnext] at h
        | some next =>
          simp only [hbytes,hfirst,hnext] at h
          obtain ⟨n,entries,hchain,hscan⟩ := ih next lfn' h
          refine ⟨n+1,entriesOf bytes++entries,?_,?_⟩
          · simp [chainEntries,hbytes,hnext,hchain]
          · rw [scanEntries_append,hfirst]
            exact hscan

theorem findInDir_found_iff (cluster : ℕ) (facts : DirEntryFacts) :
    (∃ fuel, findInDir fs search fuel cluster = some (some facts)) ↔
      Answers fs search cluster (some facts) := by
  constructor
  · rintro ⟨fuel,hfound⟩
    exact search_found fs search fuel cluster _ facts hfound
  · rintro ⟨n,entries,hchain,hscan⟩
    exact ⟨n+1,search_done_chain fs search n cluster _ entries _ hchain hscan⟩

end Search

theorem findParts_mono {fuel : ℕ} (parts : List (List UInt8)) {current : ℕ}
    {last result : Option DirEntryFacts} (h : findParts fs fuel parts current last = some result)
    {fuel' : ℕ} (hle : fuel ≤ fuel') : findParts fs fuel' parts current last = some result := by
  induction parts generalizing current last with
  | nil => exact h
  | cons part parts ih =>
    rw [findParts] at h ⊢
    by_cases hempty : part = []
    · rw [if_pos hempty] at h ⊢
      exact ih h
    · rw [if_neg hempty] at h ⊢
      cases hfind : findInDir fs part fuel current with
      | none => simp [hfind] at h
      | some found =>
        rw [findInDir_mono fs part hfind hle]
        cases found with
        | none => simpa [hfind] using h
        | some facts =>
          simp only [hfind] at h
          exact ih h

theorem findParts_returns_iff (parts : List (List UInt8)) (current : ℕ)
    (last : Option DirEntryFacts) :
    (∃ fuel result, findParts fs fuel parts current last = some result) ↔
      PathStops fs parts current := by
  induction parts generalizing current last with
  | nil => exact ⟨fun _ => trivial,fun _ => ⟨0,last,rfl⟩⟩
  | cons part parts ih =>
    by_cases hempty : part = []
    · simp only [findParts,PathStops,if_pos hempty]
      exact ih current last
    simp only [findParts,PathStops,if_neg hempty]
    rw [← findInDir_returns_iff]
    constructor
    · rintro ⟨fuel,result,hreturn⟩
      cases hfind : findInDir fs part fuel current with
      | none => simp [hfind] at hreturn
      | some found =>
        refine ⟨⟨fuel,found,hfind⟩,fun facts hfacts => ?_⟩
        -- The answer in the chain is the one that was found.
        obtain ⟨fuel',hfind'⟩ := (findInDir_found_iff fs part current facts).mpr hfacts
        have hsame := findInDir_unique fs part hfind hfind'
        simp only [hfind,hsame] at hreturn
        exact (ih _ (some facts)).mp ⟨fuel,result,hreturn⟩
    · rintro ⟨⟨fuel,found,hfind⟩,hrest⟩
      cases found with
      | none => exact ⟨fuel,none,by simp only [hfind]⟩
      | some facts =>
        have hfacts := (findInDir_found_iff fs part current facts).mp ⟨fuel,hfind⟩
        obtain ⟨fuel',result,hreturn⟩ := (ih _ (some facts)).mpr (hrest facts hfacts)
        refine ⟨max fuel fuel',result,?_⟩
        simp only [findInDir_mono fs part hfind (Nat.le_max_left fuel fuel')]
        exact findParts_mono fs parts hreturn (Nat.le_max_right fuel fuel')

/-- A lookup returns exactly when every directory searched on its way has a chain that
ends, or an end marker or an answer in its chain. -/
theorem findPath_returns_iff (path : List Char) :
    (∃ fuel result, findPath fs fuel path = some result) ↔
      PathStops fs (pathParts path) fs.rootCluster :=
  findParts_returns_iff fs (pathParts path) fs.rootCluster none

end Paths

/-- One reserved sector, one of the table, and a root cluster of deleted entries that is
its own successor. -/
def loopImage : List UInt8 :=
  bootSector++([0,0,0,0,0,0,0,0,2,0,0,0]++List.replicate 500 0)++
    (List.replicate 16 (0xE5::List.replicate 31 0)).flatten

theorem loopImage_length : loopImage.length = 1536 := by
  simp only [loopImage,bootSector_length,List.length_append,List.length_replicate,List.length_cons,
    List.length_nil,List.length_flatten,List.map_replicate,List.sum_replicate_nat]

theorem loopImage_lt : loopImage.length < 2^64 := by
  rw [loopImage_length]
  decide

def loopFs : RamFat32 64 := booted loopImage loopImage_lt

theorem loop_parse : parse 64 loopImage loopImage_lt = some loopFs :=
  parse_bootSector loopImage loopImage_lt (take_bootSector _ _)

theorem scan_deleted (search : List UInt8) (entries : List (List UInt8))
    (h : ∀ entry ∈ entries, entry.getD 0 0 = 0xE5) (lfn : LfnAccum) :
    ∃ lfn', scanEntries search entries lfn = .more lfn' := by
  induction entries generalizing lfn with
  | nil => exact ⟨lfn,rfl⟩
  | cons entry entries ih =>
    have hfirst := h entry List.mem_cons_self
    rw [scanEntries,hfirst,if_neg (by decide),if_pos rfl]
    exact ih (fun e he => h e (List.mem_cons_of_mem entry he)) lfn.reset

/-- The root directory of the looping image is searched forever. -/
theorem findPath_loops :
    parse 64 loopImage loopImage_lt = some loopFs ∧ ∀ fuel, findPath loopFs fuel [ 'A'] = none := by
  refine ⟨loop_parse,fun fuel => ?_⟩
  have hbytes : (clusterBytes loopFs 2).map entriesOf =
      some (List.replicate 16 (0xE5::List.replicate 31 0)) := by decide +kernel
  have hnext : follow loopFs 2 = some 2 := by decide +kernel
  obtain ⟨bytes,hcluster,hentries⟩ := Option.map_eq_some_iff.mp hbytes
  have hsearch : ∀ lfn, searchClusters loopFs [0x41] fuel 2 lfn = none := by
    induction fuel with
    | zero => exact fun _ => rfl
    | succ fuel ih =>
      intro lfn
      have ⟨lfn',hscan⟩ := scan_deleted [0x41] (List.replicate 16 (0xE5::List.replicate 31 0))
        (fun entry he => by rw [List.eq_of_mem_replicate he]; rfl) lfn
      rw [searchClusters_step,hcluster]
      simp only [hentries,hscan,hnext]
      exact ih lfn'
  have hparts : pathParts [ 'A'] = [[0x41]] := by decide +kernel
  have hfind : findInDir loopFs [0x41] fuel 2 = none := hsearch LfnAccum.new
  rw [findPath,hparts]
  show findParts loopFs fuel [[0x41]] 2 none = none
  rw [findParts,if_neg (List.cons_ne_nil _ _),hfind]

end Zamak.Fat32Paths
