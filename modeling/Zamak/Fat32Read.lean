import Zamak.Fat32Paths
import Zamak.LinkedBlocks

/-! # Reading a file

`read_file` copies clusters into the caller's buffer until the file's length, the buffer
or the chain is used up. Each turn of the loop writes at least one byte, so it ends on a
cyclic chain too. Slices out of range would be a panic in the source; they are an outcome
of their own here, and never happen. -/

set_option autoImplicit false

namespace Zamak.Fat32Read
open Zamak.Fat32Image Zamak.Fat32Directory Zamak.VfatLayout Zamak.Fat32Chain Zamak.WindowSearch
open Zamak.LinkedBlocks Zamak.PartialSteps
open Zamak.Fat32Paths (loopFs)

inductive ReadEnd where
  | outOfBounds
  | wrote (written : ℕ) (dest : List UInt8)
  deriving DecidableEq

def copyFromSlice (dest : List UInt8) (written take : ℕ) (bytes : List UInt8) :
    Option (List UInt8) :=
  if written+take ≤ dest.length ∧ take ≤ bytes.length then
    some (splice dest written (bytes.take take))
  else none

section Read
variable {usizeBits : ℕ} (fs : RamFat32 usizeBits)

/-- The loop of `read_file`; `none` when the fuel runs out. -/
def readClusters (total clusterSize : ℕ) : ℕ → ℕ → ℕ → List UInt8 → Option ReadEnd
  | 0, _, _, _ => none
  | fuel+1, cluster, written, dest =>
    if written < total ∧ 2 ≤ cluster ∧ cluster < fat32EndOfChain then
      match clusterBytes fs cluster with
      | none => some (.wrote written dest)
      | some bytes =>
        let take := min (min (total-written) clusterSize) bytes.length
        match copyFromSlice dest written take bytes with
        | none => some .outOfBounds
        | some dest =>
          if written+take = total then some (.wrote (written+take) dest)
          else
            match nextCluster fs cluster with
            | none => some (.wrote (written+take) dest)
            | some next => readClusters total clusterSize fuel next (written+take) dest
    else some (.wrote written dest)

def readFile (fuel : ℕ) (facts : DirEntryFacts) (dest : List UInt8) : Option ReadEnd :=
  readClusters fs (min (facts.len.toNat%2^usizeBits) dest.length)
    (fs.sectorsPerCluster*sectorSize%2^usizeBits) fuel facts.firstCluster.toNat 0 dest

instance (c : ℕ) : Decidable (InImage fs c) :=
  decidable_of_iff (2 ≤ c ∧ c < 2^32 ∧
      fs.firstDataSector+(c-2)*fs.sectorsPerCluster < 2^32 ∧
      (fs.firstDataSector+(c-2)*fs.sectorsPerCluster+fs.sectorsPerCluster)*512 ≤
        fs.image.length)
    ⟨fun ⟨h1,h2,h3,h4⟩ => ⟨h1,h2,h3,h4⟩,fun ⟨h1,h2,h3,h4⟩ => ⟨h1,h2,h3,h4⟩⟩

instance (c : ℕ) : Decidable (FatInImage fs c) := inferInstanceAs (Decidable (_ ≤ _))

/-- The cluster chains of an image: a cluster number below the end mark with its data in
the image, linked by the table where that is in the image. -/
def clusterLinks : Links ℕ UInt8 where
  block c := if c < fat32EndOfChain ∧ InImage fs c then some (clusterData fs c) else none
  next c := if FatInImage fs c then some (fatEntry fs c) else none

theorem clusterFirstSector_some (c first : ℕ) (h : clusterFirstSector fs c = some first) :
    2 ≤ c ∧ first = fs.firstDataSector+(c-2)*fs.sectorsPerCluster ∧ first < 2^32 := by
  unfold clusterFirstSector at h
  by_cases htwo : 2 ≤ c
  · rw [if_pos htwo] at h
    change (checkedMul 32 (c-2) fs.sectorsPerCluster).bind _ = some first at h
    obtain ⟨off,hoff,hsum⟩ := Option.bind_eq_some_iff.mp h
    cases (Option.ite_none_right_eq_some.mp hoff).2
    obtain ⟨hlt,hfirst⟩ := Option.ite_none_right_eq_some.mp hsum
    cases hfirst
    exact ⟨htwo,rfl,hlt⟩
  · rw [if_neg htwo] at h
    cases h

theorem clusterBytes_none (c : ℕ) (hc : c < 2^32) (h : ¬InImage fs c) :
    clusterBytes fs c = none := by
  cases hbytes : clusterBytes fs c with
  | none => rfl
  | some bytes =>
    exfalso
    apply h
    obtain ⟨first,hfirst,hbytes⟩ := Option.bind_eq_some_iff.mp hbytes
    obtain ⟨htwo,rfl,hlt⟩ := clusterFirstSector_some fs c first hfirst
    obtain ⟨start,hstart,hbytes⟩ := Option.bind_eq_some_iff.mp hbytes
    obtain ⟨len,hlen,hbytes⟩ := Option.bind_eq_some_iff.mp hbytes
    obtain ⟨stop,hstop,hbytes⟩ := Option.bind_eq_some_iff.mp hbytes
    cases (Option.ite_none_right_eq_some.mp hstart).2
    cases (Option.ite_none_right_eq_some.mp hlen).2
    cases (Option.ite_none_right_eq_some.mp hstop).2
    have hin := (Option.ite_none_left_eq_some.mp hbytes).1
    refine ⟨htwo,hc,hlt,?_⟩
    unfold sectorSize at hin
    omega

theorem clusterLinks_block (c : ℕ) (hc : c < 2^32) (hrange : 2 ≤ c ∧ c < fat32EndOfChain) :
    (clusterLinks fs).block c = clusterBytes fs c := by
  by_cases hin : InImage fs c
  · rw [clusterBytes_eq fs c hin]
    exact if_pos ⟨hrange.2,hin⟩
  · rw [clusterBytes_none fs c hc hin]
    exact if_neg fun h => hin h.2

theorem clusterLinks_outside (c : ℕ) (hrange : ¬(2 ≤ c ∧ c < fat32EndOfChain)) :
    (clusterLinks fs).block c = none :=
  if_neg fun h => hrange ⟨h.2.two_le,h.1⟩

theorem clusterLinks_next (c : ℕ) (hc : c < 2^32) : (clusterLinks fs).next c = nextCluster fs c := by
  by_cases hfat : FatInImage fs c
  · rw [nextCluster_eq fs c hc hfat]
    exact if_pos hfat
  · rw [nextCluster_none fs c hc hfat]
    exact if_neg hfat

theorem clusterLinks_length (c : ℕ) (b : List UInt8) (h : (clusterLinks fs).block c = some b) :
    b.length = fs.sectorsPerCluster*512 := by
  obtain ⟨⟨-,hin⟩,hb⟩ := Option.ite_none_right_eq_some.mp h
  cases hb
  exact length_clusterData fs c hin

theorem clusterLinks_filled : Filled (clusterLinks fs) := by
  intro c b h
  have := clusterLinks_length fs c b h
  have := fs.sectorsPerCluster_pos
  omega

theorem fatEntry_lt (c : ℕ) : fatEntry fs c < 2^32 := BitVec.isLt _

theorem clusterLinks_next_lt (c next : ℕ) (h : (clusterLinks fs).next c = some next) :
    next < 2^32 := by
  obtain ⟨-,hnext⟩ := Option.ite_none_right_eq_some.mp h
  cases hnext
  exact fatEntry_lt fs c

theorem readClusters_eq (total fuel cluster written : ℕ) (dest : List UInt8)
    (hc : cluster < 2^32) (hw : written ≤ total) (hdest : total ≤ dest.length)
    (hfuel : total-written < fuel) :
    readClusters fs total (fs.sectorsPerCluster*512) fuel cluster written dest =
      some (.wrote
        (written+((contents (clusterLinks fs) (total-written) cluster).take
          (total-written)).length)
        (splice dest written
          ((contents (clusterLinks fs) (total-written) cluster).take (total-written)))) := by
  induction fuel generalizing cluster written dest with
  | zero => omega
  | succ fuel ih =>
    rw [readClusters]
    by_cases hmore : written < total
    · by_cases hrange : 2 ≤ cluster ∧ cluster < fat32EndOfChain
      · rw [if_pos ⟨hmore,hrange⟩,← clusterLinks_block fs cluster hc hrange]
        cases hb : (clusterLinks fs).block cluster with
        | none =>
          rw [contents_missing _ _ _ hb,List.take_nil,splice_nil]
          rfl
        | some bytes =>
          have hlen := clusterLinks_length fs cluster bytes hb
          have hpos := clusterLinks_filled fs cluster bytes hb
          obtain ⟨m,hm⟩ : ∃ m, total-written = m+1 := ⟨total-written-1,by omega⟩
          have hcopy : copyFromSlice dest written (min (m+1) bytes.length) bytes =
              some (splice dest written (bytes.take (min (m+1) bytes.length))) :=
            if_pos ⟨by omega,Nat.min_le_right _ _⟩
          rw [← hlen] at ih ⊢
          simp only [hm,Nat.min_assoc,Nat.min_self,hcopy]
          by_cases hlast : m+1 ≤ bytes.length
          · rw [Nat.min_eq_left hlast,if_pos (by omega),contents,hb]
            simp only [List.take_append_of_le_length hlast]
            rw [List.length_take,Nat.min_eq_left hlast]
          · rw [Nat.min_eq_right (by omega),if_neg (by omega),List.take_length,
              ← clusterLinks_next fs cluster hc]
            cases hnext : (clusterLinks fs).next cluster with
            | none =>
              rw [contents_last _ m cluster bytes hb hnext,List.take_of_length_le (by omega)]
            | some next =>
              have hlen' := splice_length dest bytes written (by omega)
              have hrest : m+1-bytes.length = total-(written+bytes.length) := by omega
              rw [contents_linked _ m cluster next bytes hb hnext,List.take_append,
                List.take_of_length_le (by omega),hrest,
                take_contents _ (clusterLinks_filled fs) m (total-(written+bytes.length)) _ next
                  (by omega) (Nat.le_refl _)]
              simp only
              rw [ih next (written+bytes.length) _ (clusterLinks_next_lt fs cluster next hnext)
                (by omega) (by omega) (by omega),splice_append _ _ _ _ (by omega),
                List.length_append,Nat.add_assoc]
      · rw [if_neg fun h => hrange h.2,
          contents_missing _ _ _ (clusterLinks_outside fs cluster hrange),List.take_nil,splice_nil]
        rfl
    · rw [if_neg fun h => hmore h.1,show total-written = 0 by omega,List.take_zero,splice_nil]
      rfl

/-- A read returns the least of the file's length, the buffer's and the extent of the
chain, with that much of the chain in front of what the buffer held. -/
theorem readFile_copies (hbits : 32 ≤ usizeBits) (facts : DirEntryFacts) (dest : List UInt8)
    (fuel : ℕ) (hfuel : facts.len.toNat < fuel) :
    ∃ w dest', readFile fs fuel facts dest = some (.wrote w dest') ∧
      (w : ℕ∞) = min (min (facts.len.toNat : ℕ∞) (dest.length : ℕ∞))
        (extent (clusterLinks fs) facts.firstCluster.toNat) ∧
      dest'.length = dest.length ∧
      dest'.take w = (contents (clusterLinks fs) w facts.firstCluster.toNat).take w ∧
      dest'.drop w = dest.drop w ∧
      (Returns (follow (clusterLinks fs)) facts.firstCluster.toNat →
        extent (clusterLinks fs) facts.firstCluster.toNat = ⊤) := by
  have hpow : 2^32 ≤ 2^usizeBits := Nat.pow_le_pow_right (by decide) hbits
  have hflen : facts.len.toNat%2^usizeBits = facts.len.toNat :=
    Nat.mod_eq_of_lt (lt_of_lt_of_le facts.len.isLt hpow)
  have hsize : fs.sectorsPerCluster*sectorSize%2^usizeBits = fs.sectorsPerCluster*512 := by
    have := fs.sectorsPerCluster_lt
    exact Nat.mod_eq_of_lt (lt_of_lt_of_le (by unfold sectorSize; omega) hpow)
  have hread := readClusters_eq fs (min facts.len.toNat dest.length) fuel
    facts.firstCluster.toNat 0 dest facts.firstCluster.isLt (Nat.zero_le _) (Nat.min_le_right _ _)
    (by omega)
  rw [Nat.sub_zero,Nat.zero_add] at hread
  have hw := length_take_contents (clusterLinks fs) (clusterLinks_filled fs)
    (min facts.len.toNat dest.length) facts.firstCluster.toNat
  have hle := List.length_take_le (min facts.len.toNat dest.length)
    (contents (clusterLinks fs) (min facts.len.toNat dest.length) facts.firstCluster.toNat)
  have hpiece := take_contents (clusterLinks fs) (clusterLinks_filled fs) _ _ _
    facts.firstCluster.toNat hle (Nat.le_refl _)
  rw [← Nat.min_eq_left hle,← List.take_take,List.take_length] at hpiece
  generalize (contents (clusterLinks fs) (min facts.len.toNat dest.length)
    facts.firstCluster.toNat).take (min facts.len.toNat dest.length) = piece at hread hw hle hpiece
  rw [Nat.min_eq_left hle] at hpiece
  have hfront : splice dest 0 piece = piece++dest.drop piece.length := by
    rw [splice,List.take_zero,List.nil_append,Nat.zero_add]
  refine ⟨piece.length,splice dest 0 piece,?_,?_,?_,?_,?_,?_⟩
  · rw [readFile,hflen,hsize,hread]
  · rw [hw]
    rfl
  · exact splice_length dest piece 0 (by omega)
  · rw [← hpiece,hfront,List.take_left]
  · rw [hfront,List.drop_left]
  · exact extent_returns (clusterLinks fs) (clusterLinks_filled fs) _

end Read

/-- On the looping image the buffer is filled, though the chain has one cluster only. -/
theorem readFile_copies_loop :
    Returns (follow (clusterLinks loopFs)) 2 ∧
    ∃ dest, readFile loopFs 521 ⟨2#32,520#32,false⟩ (List.replicate 513 0) =
      some (.wrote 513 dest) := by
  have hfollow : visit (follow (clusterLinks loopFs)) 1 2 = some 2 := by decide +kernel
  have hback : Returns (follow (clusterLinks loopFs)) 2 := ⟨0,1,2,Nat.one_pos,rfl,hfollow⟩
  obtain ⟨w,dest,hread,hw,-,-,-,htop⟩ := readFile_copies loopFs (by decide)
    ⟨2#32,520#32,false⟩ (List.replicate 513 0) 521 (by decide)
  have htop := htop hback
  rw [htop,min_top_right,List.length_replicate] at hw
  have hcount : w = 513 := by
    have hmin : (w : ℕ∞) = ((min 520 513 : ℕ) : ℕ∞) := hw
    exact Nat.cast_injective hmin
  rw [hcount] at hread
  exact ⟨hback,dest,hread⟩

end Zamak.Fat32Read
