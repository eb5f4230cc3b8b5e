import Zamak.VfatLayout
import Zamak.WindowSearch

/-! # A search over a chain is one scan over its entries

Cluster arithmetic inside the image does not overflow, so the search reads the
clusters of a chain one after another and the accumulator goes over from each to
the next. What it finds is what one scan over all their entries finds. -/

set_option autoImplicit false

namespace Zamak.Fat32Chain
open Zamak.Fat32Image Zamak.Fat32Directory Zamak.VfatLayout Zamak.WindowSearch

theorem readU16Le_window (l : List UInt8) (ofs : ℕ) :
    readU16Le l ofs = readU16Le ((l.drop ofs).take 2) 0 := by
  rw [readU16Le,readU16Le,getD_window l ofs 2 0 0 (by decide),getD_window l ofs 2 (0+1) 0 (by decide)]
  rfl

theorem readU32Le_window (l : List UInt8) (start n ofs : ℕ) (h : ofs+4 ≤ n) :
    readU32Le ((l.drop start).take n) ofs = readU32Le l (start+ofs) := by
  unfold readU32Le
  rw [getD_window l start n ofs 0 (by omega),getD_window l start n (ofs+1) 0 (by omega),
    getD_window l start n (ofs+2) 0 (by omega),getD_window l start n (ofs+3) 0 (by omega)]
  rfl

section Clusters
variable {usizeBits : ℕ} (fs : RamFat32 usizeBits)

theorem checkedMul_of_lt (bits a b : ℕ) (h : a*b < 2^bits) : checkedMul bits a b = some (a*b) := by
  rw [checkedMul,if_pos h]

theorem checkedAdd_of_lt (bits a b : ℕ) (h : a+b < 2^bits) : checkedAdd bits a b = some (a+b) := by
  rw [checkedAdd,if_pos h]

theorem clusterBytes_eq (c : ℕ) (h : InImage fs c) :
    clusterBytes fs c = some (clusterData fs c) := by
  obtain ⟨htwo,_,hsector,hdata⟩ := h
  have himage := fs.image_lt
  have hfirst : clusterFirstSector fs c =
      some (fs.firstDataSector+(c-2)*fs.sectorsPerCluster) := by
    unfold clusterFirstSector
    rw [if_pos htwo]
    show (checkedMul 32 (c-2) fs.sectorsPerCluster).bind _ = _
    rw [checkedMul_of_lt 32 (c-2) fs.sectorsPerCluster (by omega)]
    exact checkedAdd_of_lt 32 _ _ hsector
  unfold clusterBytes
  rw [hfirst]
  show (checkedMul usizeBits (fs.firstDataSector+(c-2)*fs.sectorsPerCluster) 512).bind _ = _
  rw [checkedMul_of_lt _ _ _ (by omega)]
  show (checkedMul usizeBits fs.sectorsPerCluster 512).bind _ = _
  rw [checkedMul_of_lt _ _ _ (by omega)]
  show (checkedAdd usizeBits _ _).bind _ = _
  rw [checkedAdd_of_lt _ _ _ (by omega)]
  show (if _ > fs.image.length then none else some _) = _
  rw [if_neg (by omega)]
  rfl

theorem sector_eq (lba : ℕ) :
    sector fs lba = if (lba+1)*512 ≤ fs.image.length then
      some ((fs.image.drop (lba*512)).take 512) else none := by
  have himage := fs.image_lt
  unfold sector
  by_cases hin : (lba+1)*512 ≤ fs.image.length
  · rw [if_pos hin]
    show (checkedMul usizeBits lba 512).bind _ = _
    rw [checkedMul_of_lt _ _ _ (by omega)]
    show (checkedAdd usizeBits (lba*512) 512).bind _ = _
    rw [checkedAdd_of_lt _ _ _ (by omega)]
    show (if lba*512+512 > fs.image.length then none else some _) = _
    rw [if_neg (by omega)]
    rfl
  · rw [if_neg hin]
    show (checkedMul usizeBits lba 512).bind _ = _
    by_cases hmul : lba*512 < 2^usizeBits
    · rw [checkedMul_of_lt _ _ _ hmul]
      show (checkedAdd usizeBits (lba*512) 512).bind _ = _
      by_cases hadd : lba*512+512 < 2^usizeBits
      · rw [checkedAdd_of_lt _ _ _ hadd]
        show (if lba*512+512 > fs.image.length then none else some _) = _
        rw [if_pos (by omega)]
      · rw [checkedAdd,if_neg hadd]
        rfl
    · rw [checkedMul,if_neg hmul]
      rfl

theorem nextCluster_eq (c : ℕ) (hc : c < 2^32) (h : FatInImage fs c) :
    nextCluster fs c = some (fatEntry fs c) := by
  have himage := fs.image_lt
  have hres := fs.reservedSectors_lt
  unfold FatInImage at h
  have hlba : (fs.reservedSectors+c*4/512)%2^32 = fs.reservedSectors+c*4/512 := by omega
  unfold nextCluster
  rw [checkedMul_of_lt _ _ _ (by omega)]
  show (checkedAdd usizeBits fs.reservedSectors (c*4/512)).bind _ = _
  rw [checkedAdd_of_lt _ _ _ (by omega)]
  show (sector fs ((fs.reservedSectors+c*4/512)%2^32)).bind _ = _
  rw [hlba,sector_eq,if_pos h]
  show (if c*4%512+4 > _ then none else some (readU32Le _ (c*4%512)&&&_).toNat) = _
  rw [if_neg (by simp only [List.length_take,List.length_drop]; omega),
    readU32Le_window _ _ _ _ (by omega)]
  unfold fatEntry
  rw [show (fs.reservedSectors+c*4/512)*512+c*4%512 = fs.reservedSectors*512+c*4 by omega]

theorem nextCluster_none (c : ℕ) (hc : c < 2^32) (h : ¬ FatInImage fs c) :
    nextCluster fs c = none := by
  have hres := fs.reservedSectors_lt
  unfold FatInImage at h
  have hlba : (fs.reservedSectors+c*4/512)%2^32 = fs.reservedSectors+c*4/512 := by omega
  unfold nextCluster
  by_cases hmul : c*4 < 2^usizeBits
  · rw [checkedMul_of_lt _ _ _ hmul]
    show (checkedAdd usizeBits fs.reservedSectors (c*4/512)).bind _ = _
    by_cases hadd : fs.reservedSectors+c*4/512 < 2^usizeBits
    · rw [checkedAdd_of_lt _ _ _ hadd]
      show (sector fs ((fs.reservedSectors+c*4/512)%2^32)).bind _ = _
      rw [hlba,sector_eq,if_neg h]
      rfl
    · rw [checkedAdd,if_neg hadd]
      rfl
  · rw [checkedMul,if_neg hmul]
    rfl

theorem length_clusterData (c : ℕ) (h : InImage fs c) :
    (clusterData fs c).length = fs.sectorsPerCluster*512 := by
  have hdata := h.data
  simp only [clusterData,List.length_take,List.length_drop]
  omega

end Clusters

theorem scanEntries_append (search : List UInt8) (xs ys : List (List UInt8)) (lfn : LfnAccum) :
    scanEntries search (xs++ys) lfn = match scanEntries search xs lfn with
      | .done result => .done result
      | .more lfn => scanEntries search ys lfn := by
  induction xs generalizing lfn with
  | nil => rfl
  | cons entry rest ih =>
    simp only [List.cons_append,scanEntries]
    split
    · rfl
    split
    · exact ih _
    split
    · exact ih _
    split
    · rfl
    · exact ih _

theorem entriesOf_nil : entriesOf [] = [] := by
  simp [entriesOf]

theorem entriesOf_append (a b : List UInt8) (n : ℕ) (h : a.length = n*32) :
    entriesOf (a++b) = entriesOf a++entriesOf b := by
  have ha : a.length/32 = n := by omega
  have hab : (a++b).length/32 = n+b.length/32 := by
    rw [List.length_append]
    omega
  show (List.range ((a++b).length/32)).map (fun i => ((a++b).drop (i*32)).take 32) = _
  rw [hab,List.range_add,List.map_append]
  congr 1
  · show _ = (List.range (a.length/32)).map fun i => (a.drop (i*32)).take 32
    rw [ha]
    refine List.map_congr_left fun i hi => ?_
    have hin : i < n := List.mem_range.mp hi
    rw [List.drop_append_of_le_length (by omega),List.take_append_of_le_length
      (by rw [List.length_drop]; omega)]
  · rw [List.map_map]
    refine List.map_congr_left fun i _ => ?_
    show ((a++b).drop ((n+i)*32)).take 32 = (b.drop (i*32)).take 32
    rw [show (n+i)*32 = a.length+i*32 by rw [h]; omega,List.drop_length_add_append]

theorem entriesOf_flatten (raws : List (List UInt8)) (tail : List UInt8)
    (h : ∀ raw ∈ raws, raw.length = 32) : entriesOf (raws.flatten++tail) = raws++entriesOf tail := by
  induction raws with
  | nil => rfl
  | cons raw rest ih =>
    have hraw : raw.length = 32 := h raw (by simp)
    have hone : entriesOf raw = [raw] := by
      show (List.range (raw.length/32)).map (fun i => (raw.drop (i*32)).take 32) = _
      rw [hraw]
      show [(raw.drop (0*32)).take 32] = _
      simp [hraw]
    rw [List.flatten_cons,List.append_assoc,entriesOf_append raw _ 1 (by omega),hone,
      ih (fun r hr => h r (by simp [hr]))]
    rfl

def scanAnswer : Scan → Option DirEntryFacts
  | .done result => result
  | .more _ => none

section Search
variable {usizeBits : ℕ} (fs : RamFat32 usizeBits) (search : List UInt8)

theorem chain_inImage (c : ℕ) (rest : List ℕ) (h : Chain fs (c::rest)) : InImage fs c := by
  cases rest with
  | nil => exact h.1
  | cons => exact h.1

theorem search_done (c : ℕ) (hin : InImage fs c) (fuel : ℕ) (lfn : LfnAccum)
    (result : Option DirEntryFacts)
    (hscan : scanEntries search (entriesOf (clusterData fs c)) lfn = .done result) :
    searchClusters fs search (fuel+1) c lfn = some result := by
  simp only [searchClusters,clusterBytes_eq fs c hin,hscan]

theorem search_more (c : ℕ) (hin : InImage fs c) (fuel : ℕ) (lfn lfn' : LfnAccum)
    (hscan : scanEntries search (entriesOf (clusterData fs c)) lfn = .more lfn') :
    (Continues fs c → searchClusters fs search (fuel+1) c lfn =
      searchClusters fs search fuel (fatEntry fs c) lfn') ∧
    (¬Continues fs c → searchClusters fs search (fuel+1) c lfn = some none) := by
  constructor
  · rintro ⟨hfat,hnext⟩
    simp only [searchClusters,clusterBytes_eq fs c hin,hscan,nextCluster_eq fs c hin.lt hfat]
    exact if_pos hnext
  · intro hends
    by_cases hfat : FatInImage fs c
    · simp only [searchClusters,clusterBytes_eq fs c hin,hscan,nextCluster_eq fs c hin.lt hfat]
      exact if_neg fun hnext => hends ⟨hfat,hnext⟩
    · simp only [searchClusters,clusterBytes_eq fs c hin,hscan,nextCluster_none fs c hin.lt hfat]

theorem search_chain (clusters : List ℕ) (hchain : Chain fs clusters) (start : ℕ)
    (hstart : clusters.head? = some start) (fuel : ℕ) (hfuel : clusters.length ≤ fuel)
    (lfn : LfnAccum) :
    searchClusters fs search fuel start lfn =
      some (scanAnswer (scanEntries search
        (entriesOf (clusters.flatMap (clusterData fs))) lfn)) := by
  -- The accumulator a cluster leaves is the one the next cluster starts with.
  induction clusters generalizing start fuel lfn with
  | nil => exact hchain.elim
  | cons c rest ih =>
    obtain rfl : c = start := by simpa using hstart
    obtain ⟨fuel,rfl⟩ : ∃ n, fuel = n+1 := ⟨fuel-1,by simp at hfuel; omega⟩
    have hin := chain_inImage fs c rest hchain
    rw [List.flatMap_cons,entriesOf_append _ _ (fs.sectorsPerCluster*16)
      (by rw [length_clusterData fs c hin]; omega),scanEntries_append]
    cases hscan : scanEntries search (entriesOf (clusterData fs c)) lfn with
    | done result => exact search_done fs search c hin fuel lfn result hscan
    | more lfn' =>
      obtain ⟨hnext,hends⟩ := search_more fs search c hin fuel lfn lfn' hscan
      cases rest with
      | nil =>
        rw [hends hchain.2]
        show _ = some (scanAnswer (scanEntries search (entriesOf []) lfn'))
        rw [entriesOf_nil]
        rfl
      | cons next others =>
        obtain ⟨_,hcontinues,hentry,hrest⟩ := hchain
        rw [hnext hcontinues,hentry]
        exact ih hrest next rfl fuel (by simpa using hfuel) lfn'

end Search

end Zamak.Fat32Chain
