import Zamak.Fat32Paths
import Zamak.PathResolution

/-! # Paths that lead through a file

Where a part of a path is answered by a file, `find_path` goes on in the directory that
holds the file. Such a path has no meaning, but it is found when the parts behind the file
happen to be names in that directory. What the walk reaches is stated over the entries on
the image, and is compared with following the path from directory to directory. -/

set_option autoImplicit false

namespace Zamak.Fat32Detours
open Zamak.Fat32Image Zamak.Fat32Directory Zamak.Fat32Lookup Zamak.Fat32Paths
open Zamak.PathResolution

section Image
variable {usizeBits : ℕ} (fs : RamFat32 usizeBits)

theorem found_unique {part : List UInt8} {dir : ℕ} {facts facts' : DirEntryFacts}
    (h : Answers fs part dir (some facts)) (h' : Answers fs part dir (some facts')) :
    facts = facts' := by
  obtain ⟨fuel,hfind⟩ := (findInDir_found_iff fs part dir facts).mpr h
  obtain ⟨fuel',hfind'⟩ := (findInDir_found_iff fs part dir facts').mpr h'
  exact Option.some.inj (findInDir_unique fs part hfind hfind')

/-- The directories of an image: an entry with the directory attribute has one inside, and
it answers a name with the entry that is met first in its chain. -/
noncomputable def imageDirectories : Directories DirEntryFacts ℕ (List UInt8) where
  inside entry := if entry.isDir then some entry.firstCluster.toNat else none
  answer dir part :=
    haveI := Classical.dec (∃ facts, Answers fs part dir (some facts))
    if h : ∃ facts, Answers fs part dir (some facts) then some h.choose else none

theorem answer_found (dir : ℕ) (part : List UInt8) (facts : DirEntryFacts)
    (h : Answers fs part dir (some facts)) :
    (imageDirectories fs).answer dir part = some facts := by
  have hex : ∃ facts, Answers fs part dir (some facts) := ⟨facts,h⟩
  have hsame : hex.choose = facts := found_unique fs hex.choose_spec h
  rw [← hsame]
  exact dif_pos hex

def rootEntry : DirEntryFacts := ⟨BitVec.ofNat 32 fs.rootCluster,0,true⟩

/-- Where the walk goes on after an entry it found in `dir`. -/
def goesOn (dir : ℕ) (facts : DirEntryFacts) : ℕ :=
  if facts.isDir then facts.firstCluster.toNat else dir

def Reaches : List (List UInt8) → ℕ → DirEntryFacts → Prop
  | [], _, _ => False
  | [part], dir, found => Answers fs part dir (some found)
  | part::next::parts, dir, found =>
    ∃ facts, Answers fs part dir (some facts) ∧
      Reaches (next::parts) (goesOn dir facts) found

/-- On the way from a directory, a file that stands where a directory is needed ends the
walk: from the directory that holds it, the parts behind it are not all found. -/
def FilesBlock : List (List UInt8) → ℕ → Prop
  | [], _ => True
  | [_], _ => True
  | part::next::parts, dir =>
    ∀ facts, Answers fs part dir (some facts) →
      if facts.isDir then FilesBlock (next::parts) facts.firstCluster.toNat
      else ∀ found, ¬Reaches fs (next::parts) dir found

def names (path : List Char) : List (List UInt8) :=
  (pathParts path).filter fun part => part ≠ []

theorem reaches_cons (part : List UInt8) (parts : List (List UInt8)) (dir : ℕ)
    (found : DirEntryFacts) :
    Reaches fs (part::parts) dir found ↔
      ∃ facts, Answers fs part dir (some facts) ∧
        (parts = [] ∧ facts = found ∨ Reaches fs parts (goesOn dir facts) found) := by
  cases parts with
  | nil => simp [Reaches]
  | cons next parts => simp [Reaches]

theorem findParts_found_iff (parts : List (List UInt8)) (dir : ℕ) (last : Option DirEntryFacts)
    (found : DirEntryFacts) :
    (∃ fuel, findParts fs fuel parts dir last = some (some found)) ↔
      parts.filter (fun part => part ≠ []) = [] ∧ last = some found ∨
        Reaches fs (parts.filter fun part => part ≠ []) dir found := by
  induction parts generalizing dir last with
  | nil => simp [findParts,Reaches]
  | cons part parts ih =>
    by_cases hempty : part = []
    · simp only [findParts,if_pos hempty]
      rw [List.filter_cons_of_neg (by simp [hempty])]
      exact ih dir last
    · rw [List.filter_cons_of_pos (by simp [hempty]),reaches_cons]
      simp only [findParts,if_neg hempty,List.cons_ne_nil,false_and,false_or]
      constructor
      · rintro ⟨fuel,hreturn⟩
        cases hfind : findInDir fs part fuel dir with
        | none => simp [hfind] at hreturn
        | some result =>
          cases result with
          | none => simp [hfind] at hreturn
          | some facts =>
            simp only [hfind] at hreturn
            have hrest := (ih (goesOn dir facts) (some facts)).mp ⟨fuel,hreturn⟩
            refine ⟨facts,(findInDir_found_iff fs part dir facts).mp ⟨fuel,hfind⟩,?_⟩
            simpa using hrest
      · rintro ⟨facts,hanswer,hrest⟩
        obtain ⟨fuel,hfind⟩ := (findInDir_found_iff fs part dir facts).mpr hanswer
        obtain ⟨fuel',hreturn⟩ := (ih (goesOn dir facts) (some facts)).mpr (by simpa using hrest)
        refine ⟨max fuel fuel',?_⟩
        simp only [findInDir_mono fs part hfind (Nat.le_max_left fuel fuel')]
        exact findParts_mono fs parts hreturn (Nat.le_max_right fuel fuel')

theorem findPath_found_iff (path : List Char) (found : DirEntryFacts) :
    (∃ fuel, findPath fs fuel path = some (some found)) ↔
      Reaches fs (names path) fs.rootCluster found := by
  rw [names,← false_or (Reaches fs _ _ _)]
  refine (findParts_found_iff fs (pathParts path) fs.rootCluster none found).trans ?_
  simp

theorem resolve_cons (entry facts : DirEntryFacts) (part : List UInt8)
    (parts : List (List UInt8)) (hdir : entry.isDir = true)
    (h : Answers fs part entry.firstCluster.toNat (some facts)) :
    resolve (imageDirectories fs) entry (part::parts) =
      resolve (imageDirectories fs) facts parts :=
  resolve_next (imageDirectories fs) entry facts entry.firstCluster.toNat part parts
    (if_pos hdir) (answer_found fs _ _ _ h)

theorem reaches_strict_iff (parts : List (List UInt8)) (entry : DirEntryFacts)
    (hdir : entry.isDir = true) :
    (∀ found, Reaches fs parts entry.firstCluster.toNat found →
      resolve (imageDirectories fs) entry parts = .ok found) ↔
      FilesBlock fs parts entry.firstCluster.toNat := by
  induction parts generalizing entry with
  | nil => exact ⟨fun _ => trivial,fun _ found h => h.elim⟩
  | cons part parts ih =>
    cases parts with
    | nil =>
      refine ⟨fun _ => trivial,fun _ found h => ?_⟩
      rw [resolve_cons fs entry found part [] hdir h]
      rfl
    | cons next parts =>
      constructor
      · intro h facts hanswer
        by_cases hsub : facts.isDir = true
        · rw [if_pos hsub]
          refine (ih facts hsub).mp fun found hfound => ?_
          have hgo : goesOn entry.firstCluster.toNat facts = facts.firstCluster.toNat :=
            if_pos hsub
          rw [← resolve_cons fs entry facts part _ hdir hanswer]
          exact h found ⟨facts,hanswer,by rwa [hgo]⟩
        · rw [if_neg hsub]
          intro found hfound
          have hgo : goesOn entry.firstCluster.toNat facts = entry.firstCluster.toNat :=
            if_neg hsub
          have hok := h found ⟨facts,hanswer,by rwa [hgo]⟩
          rw [resolve_cons fs entry facts part _ hdir hanswer,
            resolve_blocked _ _ _ _ (if_neg hsub)] at hok
          cases hok
      · rintro h found ⟨facts,hanswer,hfound⟩
        have hblock := h facts hanswer
        rw [resolve_cons fs entry facts part _ hdir hanswer]
        by_cases hsub : facts.isDir = true
        · rw [goesOn,if_pos hsub] at hfound
          rw [if_pos hsub] at hblock
          exact (ih facts hsub).mpr hblock found hfound
        · rw [goesOn,if_neg hsub] at hfound
          rw [if_neg hsub] at hblock
          exact (hblock found hfound).elim

theorem rootEntry_cluster : (rootEntry fs).firstCluster.toNat = fs.rootCluster := by
  have := fs.rootCluster_lt
  show (BitVec.ofNat 32 fs.rootCluster).toNat = _
  rw [BitVec.toNat_ofNat,Nat.mod_eq_of_lt this]

/-- What `find_path` returns is what the path means, each name but the last being a
directory that holds the next, exactly when no file on the way lets the walk go on. -/
theorem findPath_strict_iff (path : List Char) :
    (∀ fuel found, findPath fs fuel path = some (some found) →
      resolve (imageDirectories fs) (rootEntry fs) (names path) = .ok found) ↔
      FilesBlock fs (names path) fs.rootCluster := by
  rw [← rootEntry_cluster fs,← reaches_strict_iff fs (names path) (rootEntry fs) rfl,
    rootEntry_cluster fs]
  constructor
  · intro h found hreach
    obtain ⟨fuel,hreturn⟩ := (findPath_found_iff fs path found).mpr hreach
    exact h fuel found hreturn
  · intro h fuel found hreturn
    exact h found ((findPath_found_iff fs path found).mp ⟨fuel,hreturn⟩)

end Image

def letterEntry (letter cluster : UInt8) : List UInt8 :=
  letter::List.replicate 10 0x20++[0x20]++List.replicate 14 0++[cluster,0,1,0,0,0]

def twoFiles : List UInt8 :=
  bootSector++([0,0,0,0,0,0,0,0,0xFF,0xFF,0xFF,0x0F]++List.replicate 500 0)++
    (letterEntry 0x41 3++letterEntry 0x42 4++List.replicate 448 0)

theorem twoFiles_length : twoFiles.length = 1536 := by
  simp only [twoFiles,letterEntry,bootSector_length,List.length_append,List.length_replicate,
    List.length_cons,List.length_nil]

theorem twoFiles_lt : twoFiles.length < 2^64 := by
  rw [twoFiles_length]
  decide

def twoFilesFs : RamFat32 64 := booted twoFiles twoFiles_lt

theorem twoFiles_parse : parse 64 twoFiles twoFiles_lt = some twoFilesFs :=
  parse_bootSector twoFiles twoFiles_lt (take_bootSector _ _)

/-- The file `B` is found below the file `A`. -/
theorem twoFiles_through_file :
    parse 64 twoFiles twoFiles_lt = some twoFilesFs ∧ FiniteChain twoFilesFs 2 ∧
    findPath twoFilesFs 1 [ 'A', '/', 'B'] = some (some ⟨4#32,1#32,false⟩) ∧
    resolve (imageDirectories twoFilesFs) (rootEntry twoFilesFs) (names [ 'A', '/', 'B']) =
      .error .notDirectory := by
  have hfind : findInDir twoFilesFs [0x41] 1 2 = some (some ⟨3#32,1#32,false⟩) := by
    decide +kernel
  have hanswer := (findInDir_found_iff twoFilesFs [0x41] 2 _).mp ⟨1,hfind⟩
  have hnames : names [ 'A', '/', 'B'] = [[0x41],[0x42]] := by decide +kernel
  have hroot : (rootEntry twoFilesFs).firstCluster.toNat = 2 := rootEntry_cluster twoFilesFs
  refine ⟨twoFiles_parse,⟨1,by decide +kernel⟩,by decide +kernel,?_⟩
  rw [hnames,resolve_cons twoFilesFs (rootEntry twoFilesFs) _ [0x41] [[0x42]] rfl
    (by rw [hroot]; exact hanswer)]
  rfl

end Zamak.Fat32Detours
