import Mathlib.Data.List.GetD
import Zamak.Fat32Detours
import Zamak.Fat32Read
import Zamak.VfatWrite

/-! # A FAT32 image from its boot sector to the bytes of a file

A volume is a tree of directories and the bytes of its files. On an image that holds one,
following a path finds the entry the path has in the tree, and reading that entry gives
the bytes of its file. -/

set_option autoImplicit false

namespace Zamak.Fat32Disc
open Zamak.Fat32Image Zamak.Fat32Directory Zamak.VfatLayout Zamak.Fat32Chain Zamak.Fat32Lookup
open Zamak.Fat32Paths Zamak.Fat32Detours Zamak.Fat32Read Zamak.PathResolution
open Zamak.LinkedBlocks Zamak.WindowSearch Zamak.VfatWrite

/-! ## What a volume holds -/

structure Volume where
  listing : ℕ → Option (List Item)
  bytes : ℕ → List UInt8
  closed : ∀ dir items, listing dir = some items → ∀ e, Item.entry e ∈ items →
    e.facts.isDir = true → ∃ inner, listing e.facts.firstCluster.toNat = some inner

/-- An entry answers its long name in any case and its short name, where it is the first
to do so. -/
def Volume.directories (v : Volume) : Directories DirEntryFacts (List Item) (List UInt8) where
  inside entry := if entry.isDir = true then v.listing entry.firstCluster.toNat else none
  answer items part := (firstAnswer part items).map VfatEntry.facts

section Image
variable {usizeBits : ℕ} (fs : RamFat32 usizeBits)

/-- The bytes from the front of a chain on; a chain of no clusters holds no bytes. -/
def Stores (start : ℕ) (bytes : List UInt8) : Prop :=
  bytes = [] ∨ start < fat32EndOfChain ∧ ∃ clusters slack, Chain fs clusters ∧
    clusters.head? = some start ∧ clusters.flatMap (clusterData fs) = bytes++slack

/-- A volume on an image: every directory in a chain of its own, every file of the length
its entries say. -/
structure HoldsVolume (v : Volume) : Prop where
  root : ∃ items, v.listing fs.rootCluster = some items
  directory : ∀ dir items, v.listing dir = some items →
    ∃ clusters, Chain fs clusters ∧ clusters.head? = some dir ∧ Holds fs clusters items
  file : ∀ dir items, v.listing dir = some items → ∀ e, Item.entry e ∈ items →
    e.facts.isDir = false → (v.bytes e.facts.firstCluster.toNat).length = e.facts.len.toNat ∧
      Stores fs e.facts.firstCluster.toNat (v.bytes e.facts.firstCluster.toNat)

theorem firstAnswer_mem {search : List UInt8} {items : List Item} {e : VfatEntry}
    (h : firstAnswer search items = some e) : Item.entry e ∈ items := by
  obtain ⟨item,hitem,hentry⟩ := List.mem_filterMap.mp (List.mem_of_find?_eq_some h)
  cases item with
  | deleted => cases hentry
  | entry e' =>
    cases hentry
    exact hitem

theorem findInDir_items {clusters : List ℕ} {items : List Item} {dir : ℕ}
    (hchain : Chain fs clusters) (hstart : clusters.head? = some dir)
    (hholds : Holds fs clusters items) (part : List UInt8) {fuel : ℕ}
    (hfuel : clusters.length ≤ fuel) :
    findInDir fs part fuel dir = some ((firstAnswer part items).map VfatEntry.facts) := by
  obtain ⟨raws,tail,hbytes,hlays,htail⟩ := hholds
  obtain ⟨after,hscan⟩ := scanEntries_items part items raws hlays (entriesOf tail) _ idle_new
  have hentries := entriesOf_flatten raws tail (laysOut_length items raws hlays)
  rw [findInDir,search_chain fs part clusters hchain dir hstart fuel hfuel,hbytes,hentries,hscan]
  cases firstAnswer part items with
  | some e => rfl
  | none => exact congrArg some (scanEntries_tail part tail htail after)

/-- The part that decides a path is a name, so the entry before the walk does not matter. -/
theorem findParts_names (fuel : ℕ) (parts : List (List UInt8)) (dir : ℕ)
    (last : Option DirEntryFacts) :
    findParts fs fuel parts dir last =
      findParts fs fuel (parts.filter fun part => part ≠ []) dir last := by
  induction parts generalizing dir last with
  | nil => rfl
  | cons part parts ih =>
    by_cases hnil : part = []
    · rw [findParts,if_pos hnil,ih,List.filter_cons_of_neg (by simp [hnil])]
    · rw [List.filter_cons_of_pos (by simp [hnil]),findParts,findParts,if_neg hnil,if_neg hnil]
      cases findInDir fs part fuel dir with
      | none => rfl
      | some result =>
        cases result with
        | none => rfl
        | some facts => exact ih _ _

theorem resolve_entry (v : Volume) (parts : List (List UInt8)) (entry : DirEntryFacts) (found : DirEntryFacts)
    (h : resolve v.directories entry parts = .ok found) :
    found = entry ∨ ∃ dir items e, v.listing dir = some items ∧ Item.entry e ∈ items ∧
      found = e.facts := by
  induction parts generalizing entry with
  | nil =>
    cases h
    exact Or.inl rfl
  | cons part parts ih =>
    cases hinside : v.directories.inside entry with
    | none =>
      rw [resolve_blocked v.directories entry part parts hinside] at h
      cases h
    | some items =>
      obtain ⟨-,hitems⟩ := Option.ite_none_right_eq_some.mp hinside
      cases hfirst : firstAnswer part items with
      | none =>
        rw [resolve_missing v.directories entry items part parts hinside
          (congrArg (Option.map VfatEntry.facts) hfirst)] at h
        cases h
      | some e =>
        rw [resolve_next v.directories entry e.facts items part parts hinside
          (congrArg (Option.map VfatEntry.facts) hfirst)] at h
        rcases ih e.facts h with rfl|hother
        · exact Or.inr ⟨_,items,e,hitems,firstAnswer_mem hfirst,rfl⟩
        · exact Or.inr hother

variable {fs} {v : Volume} (hholds : HoldsVolume fs v)
include hholds

/-- The walk finds what the path leads to in the tree, and nothing where a name is missing. -/
theorem findParts_resolves (parts : List (List UInt8)) (hparts : ∀ part ∈ parts, part ≠ [])
    (entry : DirEntryFacts) (hdir : entry.isDir = true) (items : List Item)
    (hitems : v.listing entry.firstCluster.toNat = some items) (last : Option DirEntryFacts) :
    ∃ enough, ∀ fuel, enough ≤ fuel →
      (∀ found, resolve v.directories entry parts = .ok found →
        findParts fs fuel parts entry.firstCluster.toNat last =
          some (if parts = [] then last else some found)) ∧
      (resolve v.directories entry parts = .error .missing →
        findParts fs fuel parts entry.firstCluster.toNat last = some none) := by
  induction parts generalizing entry items last with
  | nil =>
    refine ⟨0,fun fuel _ => ⟨fun found _ => ?_,fun h => ?_⟩⟩
    · rw [if_pos rfl]
      rfl
    · cases h
  | cons part parts ih =>
    obtain ⟨clusters,hchain,hstart,hlist⟩ := hholds.directory _ items hitems
    have hinside : v.directories.inside entry = some items := by
      change (if entry.isDir = true then _ else _) = _
      rw [if_pos hdir,hitems]
    have hpart : part ≠ [] := hparts part List.mem_cons_self
    have hrest : ∀ other ∈ parts, other ≠ [] :=
      fun other ho => hparts other (List.mem_cons_of_mem part ho)
    cases hfirst : firstAnswer part items with
    | none =>
      have hanswer : v.directories.answer items part = none :=
        congrArg (Option.map VfatEntry.facts) hfirst
      refine ⟨clusters.length,fun fuel hfuel => ?_⟩
      rw [resolve_missing v.directories entry items part parts hinside hanswer,findParts,
        if_neg hpart,findInDir_items fs hchain hstart hlist part hfuel,hfirst]
      refine ⟨fun found h => ?_,fun _ => rfl⟩
      cases h
    | some e =>
      have hanswer : v.directories.answer items part = some e.facts :=
        congrArg (Option.map VfatEntry.facts) hfirst
      have hstep : ∀ fuel, clusters.length ≤ fuel →
          findParts fs fuel (part::parts) entry.firstCluster.toNat last =
            findParts fs fuel parts (goesOn entry.firstCluster.toNat e.facts) (some e.facts) := by
        intro fuel hfuel
        rw [findParts,if_neg hpart,findInDir_items fs hchain hstart hlist part hfuel,hfirst]
        rfl
      rw [resolve_next v.directories entry e.facts items part parts hinside hanswer]
      by_cases hsub : e.facts.isDir = true
      · obtain ⟨inner,hinner⟩ := v.closed _ items hitems e (firstAnswer_mem hfirst) hsub
        obtain ⟨enough,hwalk⟩ := ih hrest e.facts hsub inner hinner (some e.facts)
        have hgo : goesOn entry.firstCluster.toNat e.facts = e.facts.firstCluster.toNat :=
          if_pos hsub
        refine ⟨max clusters.length enough,fun fuel hfuel => ?_⟩
        obtain ⟨hok,hmissing⟩ := hwalk fuel (le_trans (Nat.le_max_right _ _) hfuel)
        rw [hstep fuel (le_trans (Nat.le_max_left _ _) hfuel),hgo]
        refine ⟨fun found h => ?_,hmissing⟩
        rw [hok found h,if_neg (List.cons_ne_nil _ _)]
        cases parts with
        | nil =>
          cases h
          rfl
        | cons => rfl
      · cases parts with
        | nil =>
          refine ⟨clusters.length,fun fuel hfuel => ?_⟩
          rw [hstep fuel hfuel]
          constructor
          · intro found h
            cases h
            rfl
          · intro h
            cases h
        | cons next others =>
          refine ⟨0,fun fuel _ => ?_⟩
          rw [resolve_blocked v.directories e.facts next others (if_neg hsub)]
          constructor
          · intro found h
            cases h
          · intro h
            cases h

theorem find_resolves (path : List Char) :
    ∃ enough, ∀ fuel, enough ≤ fuel →
      (∀ found, names path ≠ [] →
        resolve v.directories (rootEntry fs) (names path) = .ok found →
        findPath fs fuel path = some (some found)) ∧
      (resolve v.directories (rootEntry fs) (names path) = .error .missing →
        findPath fs fuel path = some none) := by
  obtain ⟨items,hitems⟩ := hholds.root
  have hroot := rootEntry_cluster fs
  have hnames : ∀ part ∈ names path, part ≠ [] := fun part hpart => by
    simpa using (List.mem_filter.mp hpart).2
  obtain ⟨enough,hwalk⟩ := findParts_resolves hholds (names path) hnames (rootEntry fs) rfl items
    (hroot.symm ▸ hitems) none
  refine ⟨enough,fun fuel hfuel => ?_⟩
  obtain ⟨hok,hmissing⟩ := hwalk fuel hfuel
  rw [hroot] at hok hmissing
  rw [findPath,findParts_names]
  refine ⟨fun found hname h => ?_,hmissing⟩
  exact (hok found h).trans (congrArg some (if_neg hname))

end Image

/-! ## Reading what was found -/

section Read
variable {usizeBits : ℕ} (fs : RamFat32 usizeBits)

theorem contents_chain (clusters : List ℕ) (hchain : Chain fs clusters) (start : ℕ)
    (hstart : clusters.head? = some start) (hlow : start < fat32EndOfChain) (n : ℕ)
    (hn : clusters.length ≤ n) :
    contents (clusterLinks fs) n start = clusters.flatMap (clusterData fs) := by
  induction clusters generalizing start n with
  | nil => exact hchain.elim
  | cons c rest ih =>
    obtain rfl : c = start := by simpa using hstart
    obtain ⟨n,rfl⟩ : ∃ k, n = k+1 := ⟨n-1,by simp at hn; omega⟩
    have hin := chain_inImage fs c rest hchain
    have hblock : (clusterLinks fs).block c = some (clusterData fs c) := if_pos ⟨hlow,hin⟩
    cases rest with
    | nil =>
      rw [List.flatMap_singleton]
      cases hnext : (clusterLinks fs).next c with
      | none => exact contents_last _ n c _ hblock hnext
      | some next =>
        obtain ⟨hfat,hentry⟩ := Option.ite_none_right_eq_some.mp hnext
        cases hentry
        have hends : ¬(2 ≤ fatEntry fs c ∧ fatEntry fs c < fat32EndOfChain) :=
          fun h => hchain.2 ⟨hfat,h⟩
        rw [contents_linked _ n c _ _ hblock hnext,
          contents_missing _ n _ (clusterLinks_outside fs _ hends),List.append_nil]
    | cons next others =>
      obtain ⟨-,hcontinues,hentry,hrest⟩ := hchain
      have hnext : (clusterLinks fs).next c = some next := by
        rw [← hentry]
        exact if_pos hcontinues.1
      rw [contents_linked _ n c next _ hblock hnext,List.flatMap_cons,
        ih hrest next rfl (hentry ▸ hcontinues.2.2) n (by simpa using hn)]

/-- A read fills the buffer with the front of the file, and keeps what is behind it. -/
theorem readFile_stores (hbits : 32 ≤ usizeBits) (facts : DirEntryFacts) (bytes : List UInt8)
    (hlength : bytes.length = facts.len.toNat)
    (hstores : Stores fs facts.firstCluster.toNat bytes) (buffer : List UInt8) (fuel : ℕ)
    (hfuel : facts.len.toNat < fuel) :
    readFile fs fuel facts buffer =
      some (.wrote (min bytes.length buffer.length)
        (bytes.take buffer.length++buffer.drop bytes.length)) := by
  have hpow : 2^32 ≤ 2^usizeBits := Nat.pow_le_pow_right (by decide) hbits
  have hflen : facts.len.toNat%2^usizeBits = facts.len.toNat :=
    Nat.mod_eq_of_lt (lt_of_lt_of_le facts.len.isLt hpow)
  have hsize : fs.sectorsPerCluster*sectorSize%2^usizeBits = fs.sectorsPerCluster*512 := by
    have := fs.sectorsPerCluster_lt
    exact Nat.mod_eq_of_lt (lt_of_lt_of_le (by unfold sectorSize; omega) hpow)
  have hread := readClusters_eq fs (min bytes.length buffer.length) fuel
    facts.firstCluster.toNat 0 buffer facts.firstCluster.isLt (Nat.zero_le _)
    (Nat.min_le_right _ _) (by omega)
  rw [Nat.sub_zero,Nat.zero_add] at hread
  have hfront : (contents (clusterLinks fs) (min bytes.length buffer.length)
      facts.firstCluster.toNat).take (min bytes.length buffer.length) =
      bytes.take buffer.length := by
    rcases hstores with rfl|⟨hlow,clusters,slack,hchain,hstart,hbytes⟩
    · rw [List.length_nil,Nat.zero_min,List.take_zero,List.take_nil]
    · have hle : min bytes.length buffer.length ≤ bytes.length := Nat.min_le_left _ _
      rw [take_contents _ (clusterLinks_filled fs) _
        (max clusters.length (min bytes.length buffer.length)) _ _ (Nat.le_refl _)
        (Nat.le_max_right _ _),
        contents_chain fs clusters hchain _ hstart hlow _ (Nat.le_max_left _ _),hbytes,
        List.take_append_of_le_length hle,Nat.min_comm]
      exact List.take_eq_take_min.symm
  rw [readFile,hflen,hsize,← hlength,hread,hfront]
  have hcount : (bytes.take buffer.length).length = min bytes.length buffer.length := by
    rw [List.length_take,Nat.min_comm]
  rw [hcount,splice,List.take_zero,List.nil_append,Nat.zero_add,hcount]
  congr 3
  by_cases h : bytes.length ≤ buffer.length
  · rw [Nat.min_eq_left h]
  · rw [Nat.min_eq_right (by omega),List.drop_length,List.drop_of_length_le (by omega)]

end Read

/-! ## The boot sector -/

structure BootFields where
  sectorsPerCluster : UInt8
  reservedSectors : BitVec 16
  fatCount : UInt8
  sectorsPerFat : BitVec 32
  rootCluster : BitVec 32
  cluster_pos : 0 < sectorsPerCluster.toNat
  reserved_pos : 0 < reservedSectors.toNat
  fatCount_pos : 0 < fatCount.toNat
  fat_pos : 0 < sectorsPerFat.toNat
  two_le_root : 2 ≤ rootCluster.toNat
  data_lt : reservedSectors.toNat+fatCount.toNat*sectorsPerFat.toNat < 2^32

/-- The fields at their places, between the sector size and the signature. -/
structure Boots (image : List UInt8) (b : BootFields) : Prop where
  sector_le : sectorSize ≤ image.length
  bytesPerSector : (readU16Le image 0x0B).toNat = sectorSize
  sectorsPerCluster : image.getD 0x0D 0 = b.sectorsPerCluster
  reservedSectors : readU16Le image 0x0E = b.reservedSectors
  fatCount : image.getD 0x10 0 = b.fatCount
  sectorsPerFat : readU32Le image 0x24 = b.sectorsPerFat
  rootCluster : readU32Le image 0x2C = b.rootCluster
  signature : image.getD 0x1FE 0 = 0x55 ∧ image.getD 0x1FF 0 = 0xAA

def mounted {usizeBits : ℕ} (b : BootFields) (image : List UInt8)
    (himage : image.length < 2^usizeBits) : RamFat32 usizeBits where
  image := image
  sectorsPerCluster := b.sectorsPerCluster.toNat
  reservedSectors := b.reservedSectors.toNat
  rootCluster := b.rootCluster.toNat
  firstDataSector := b.reservedSectors.toNat+b.fatCount.toNat*b.sectorsPerFat.toNat
  image_lt := himage
  sectorsPerCluster_pos := b.cluster_pos
  sectorsPerCluster_lt := b.sectorsPerCluster.toNat_lt
  reservedSectors_lt := b.reservedSectors.isLt
  rootCluster_lt := b.rootCluster.isLt
  firstDataSector_lt := b.data_lt

theorem parse_iff {usizeBits : ℕ} (image : List UInt8) (himage : image.length < 2^usizeBits)
    (fs : RamFat32 usizeBits) :
    parse usizeBits image himage = some fs ↔
      ∃ b, Boots image b ∧ fs = mounted b image himage := by
  constructor
  · intro h
    unfold parse at h
    simp only [Option.ite_none_left_eq_some,Option.dite_none_left_eq_some,not_or,not_not,
      Option.ite_none_right_eq_some,Option.dite_none_right_eq_some,Option.some.injEq] at h
    obtain ⟨hlen,hsize,hspc,hres,hcount,hfat,hroot,hsign,hmul,hdata,rfl⟩ := h
    refine ⟨⟨image.getD 0x0D 0,readU16Le image 0x0E,image.getD 0x10 0,readU32Le image 0x24,
      readU32Le image 0x2C,Nat.pos_of_ne_zero hspc,Nat.pos_of_ne_zero hres,
      Nat.pos_of_ne_zero hcount,Nat.pos_of_ne_zero hfat,Nat.le_of_not_lt hroot,hdata⟩,?_,rfl⟩
    exact ⟨Nat.le_of_not_lt hlen,hsize,rfl,rfl,rfl,rfl,rfl,hsign⟩
  · rintro ⟨b,hb,rfl⟩
    have hdata := b.data_lt
    have hmul : b.fatCount.toNat*b.sectorsPerFat.toNat < 2^32 := by omega
    have hlen : ¬image.length < sectorSize := Nat.not_lt.mpr hb.sector_le
    have hroot : ¬b.rootCluster.toNat < 2 := Nat.not_lt.mpr b.two_le_root
    have hsign : ¬(image.getD 0x1FE 0 ≠ 0x55 ∨ image.getD 0x1FF 0 ≠ 0xAA) := by
      rw [hb.signature.1,hb.signature.2]
      decide
    unfold parse
    simp only [hb.sectorsPerCluster,hb.reservedSectors,hb.fatCount,hb.sectorsPerFat,
      hb.rootCluster,hb.bytesPerSector,hlen,hsign,hroot,hmul,hdata,b.cluster_pos.ne',
      b.reserved_pos.ne',b.fatCount_pos.ne',b.fat_pos.ne',ne_eq,not_true_eq_false,if_false,
      if_true,dite_true,dite_false]
    rfl

section Front
variable {usizeBits : ℕ} (b : BootFields) (image rest : List UInt8)
  (himage : image.length < 2^usizeBits) (hall : (image++rest).length < 2^usizeBits)

theorem boots_append (h : Boots image b) : Boots (image++rest) b := by
  have hlen := h.sector_le
  unfold sectorSize at hlen
  have hbyte : ∀ i < 512, (image++rest).getD i 0 = image.getD i 0 := fun i hi =>
    List.getD_append image rest 0 i (by omega)
  have hword : ∀ i < 510, readU16Le (image++rest) i = readU16Le image i := fun i hi => by
    rw [readU16Le,readU16Le,hbyte i (by omega),hbyte (i+1) (by omega)]
  have hdouble : ∀ i < 508, readU32Le (image++rest) i = readU32Le image i := fun i hi => by
    rw [readU32Le,readU32Le,hbyte i (by omega),hbyte (i+1) (by omega),hbyte (i+2) (by omega),
      hbyte (i+3) (by omega)]
  constructor
  · rw [List.length_append]
    exact Nat.le_add_right_of_le h.sector_le
  · rw [hword _ (by decide)]
    exact h.bytesPerSector
  · rw [hbyte _ (by decide)]
    exact h.sectorsPerCluster
  · rw [hword _ (by decide)]
    exact h.reservedSectors
  · rw [hbyte _ (by decide)]
    exact h.fatCount
  · rw [hdouble _ (by decide)]
    exact h.sectorsPerFat
  · rw [hdouble _ (by decide)]
    exact h.rootCluster
  · rw [hbyte _ (by decide),hbyte _ (by decide)]
    exact h.signature

variable {c : ℕ}

theorem inImage_append (h : InImage (mounted b image himage) c) :
    InImage (mounted b (image++rest) hall) c := by
  refine ⟨h.two_le,h.lt,h.sector_lt,Nat.le_trans h.data ?_⟩
  show image.length ≤ (image++rest).length
  rw [List.length_append]
  exact Nat.le_add_right _ _

theorem clusterData_append (h : InImage (mounted b image himage) c) :
    clusterData (mounted b (image++rest) hall) c = clusterData (mounted b image himage) c := by
  have hdata : _*512 ≤ image.length := h.data
  rw [Nat.add_mul] at hdata
  have hfirst : clusterData (mounted b (image++rest) hall) c = ((image++rest).drop
      (((mounted b image himage).firstDataSector+
        (c-2)*(mounted b image himage).sectorsPerCluster)*512)).take
      ((mounted b image himage).sectorsPerCluster*512) := rfl
  have hsecond : clusterData (mounted b image himage) c = (image.drop
      (((mounted b image himage).firstDataSector+
        (c-2)*(mounted b image himage).sectorsPerCluster)*512)).take
      ((mounted b image himage).sectorsPerCluster*512) := rfl
  rw [hfirst,hsecond,List.drop_append_of_le_length (Nat.le_of_add_right_le hdata),
    List.take_append_of_le_length]
  rw [List.length_drop]
  exact Nat.le_sub_of_add_le' hdata

theorem fatEntry_append (h : FatInImage (mounted b image himage) c) :
    fatEntry (mounted b (image++rest) hall) c = fatEntry (mounted b image himage) c := by
  have hin : (b.reservedSectors.toNat+c*4/512+1)*512 ≤ image.length := h
  have hbyte : ∀ i, i < b.reservedSectors.toNat*512+c*4+4 →
      (image++rest).getD i 0 = image.getD i 0 := fun i hi =>
    List.getD_append image rest 0 i (by omega)
  show (readU32Le (image++rest) (b.reservedSectors.toNat*512+c*4)&&&0x0FFFFFFF#32).toNat =
    (readU32Le image (b.reservedSectors.toNat*512+c*4)&&&0x0FFFFFFF#32).toNat
  rw [readU32Le,readU32Le,hbyte _ (by omega),hbyte _ (by omega),hbyte _ (by omega),
    hbyte _ (by omega)]

theorem chain_append (hfat : ∀ c, InImage (mounted b image himage) c →
      FatInImage (mounted b image himage) c) (clusters : List ℕ)
    (h : Chain (mounted b image himage) clusters) :
    Chain (mounted b (image++rest) hall) clusters ∧
      clusters.flatMap (clusterData (mounted b (image++rest) hall)) =
        clusters.flatMap (clusterData (mounted b image himage)) := by
  have hgoes : ∀ c, InImage (mounted b image himage) c →
      (Continues (mounted b (image++rest) hall) c ↔ Continues (mounted b image himage) c) := by
    intro c hc
    have hmore : FatInImage (mounted b (image++rest) hall) c := by
      refine Nat.le_trans (hfat c hc) ?_
      show image.length ≤ (image++rest).length
      rw [List.length_append]
      exact Nat.le_add_right _ _
    unfold Continues
    rw [fatEntry_append b image rest himage hall (hfat c hc)]
    exact and_congr_left' (iff_of_true hmore (hfat c hc))
  induction clusters with
  | nil => exact h.elim
  | cons c clusters ih =>
    cases clusters with
    | nil =>
      rw [List.flatMap_singleton,List.flatMap_singleton]
      exact ⟨⟨inImage_append b image rest himage hall h.1,fun hmore => h.2 ((hgoes c h.1).mp hmore)⟩,
        clusterData_append b image rest himage hall h.1⟩
    | cons next clusters =>
      obtain ⟨hin,hmore,hnext,hrest⟩ := h
      obtain ⟨hchain,hdata⟩ := ih hrest
      rw [List.flatMap_cons,hdata,clusterData_append b image rest himage hall hin,← List.flatMap_cons]
      refine ⟨⟨inImage_append b image rest himage hall hin,(hgoes c hin).mpr hmore,?_,hchain⟩,rfl⟩
      rw [fatEntry_append b image rest himage hall (hfat c hin)]
      exact hnext

/-- A volume that is at the front of an image is on the image, so a part of a partition is
enough when it holds the volume. -/
theorem holdsVolume_append (hfat : ∀ c, InImage (mounted b image himage) c →
      FatInImage (mounted b image himage) c) (v : Volume)
    (h : HoldsVolume (mounted b image himage) v) :
    HoldsVolume (mounted b (image++rest) hall) v where
  root := h.root
  directory := by
    intro dir items hitems
    obtain ⟨clusters,hchain,hhead,raws,tail,hbytes,hlays,htail⟩ := h.directory dir items hitems
    obtain ⟨hchain',hdata⟩ := chain_append b image rest himage hall hfat clusters hchain
    exact ⟨clusters,hchain',hhead,raws,tail,hdata.trans hbytes,hlays,htail⟩
  file := by
    intro dir items hitems e he hfile
    obtain ⟨hlength,hstores⟩ := h.file dir items hitems e he hfile
    refine ⟨hlength,hstores.imp_right ?_⟩
    rintro ⟨hlow,clusters,slack,hchain,hhead,hbytes⟩
    obtain ⟨hchain',hdata⟩ := chain_append b image rest himage hall hfat clusters hchain
    exact ⟨hlow,clusters,slack,hchain',hhead,hdata.trans hbytes⟩

end Front

/-! ## A small image -/

section Example

def letter (first attrs : UInt8) (cluster len : BitVec 32) (hlive : first ≠ 0x00 ∧ first ≠ 0xE5)
    (hattrs : attrs ≠ 0x0F) : VfatEntry where
  longName := none
  shortName := first::List.replicate 10 0x20
  attrs := attrs
  firstCluster := cluster
  len := len
  long_nonempty := by
    intro _ h
    cases h
  long_le := by
    intro _ h
    cases h
  long_ascii := by
    intro _ h
    cases h
  short_length := rfl
  short_live := hlive
  attrs_short := hattrs

theorem folder_live : (0x44 : UInt8) ≠ 0x00 ∧ (0x44 : UInt8) ≠ 0xE5 := by decide

theorem folder_plain : (0x10 : UInt8) ≠ 0x0F := by decide

def folder : VfatEntry := letter 0x44 0x10 3 0 folder_live folder_plain

theorem twoBytes_live : (0x41 : UInt8) ≠ 0x00 ∧ (0x41 : UInt8) ≠ 0xE5 := by decide

theorem twoBytes_plain : (0x20 : UInt8) ≠ 0x0F := by decide

def twoBytes : VfatEntry := letter 0x41 0x20 4 2 twoBytes_live twoBytes_plain

/-- A table of three single clusters: the root with a directory, that with a file, and the
file. -/
def folderImage : List UInt8 :=
  bootSector++([0,0,0,0,0,0,0,0]++
      (List.replicate 3 [0xFF,0xFF,0xFF,0x0F]).flatten++List.replicate 492 0)++
    ((itemBytes (.entry folder)).flatten++List.replicate 480 0++
      ((itemBytes (.entry twoBytes)).flatten++List.replicate 480 0)++
      ([0xAB,0xCD]++List.replicate 510 0))

theorem folderImage_length : folderImage.length = 2560 := by decide +kernel

theorem folderImage_lt : folderImage.length < 2^64 := by
  rw [folderImage_length]
  decide

def folderFields : BootFields where
  sectorsPerCluster := 1
  reservedSectors := 1
  fatCount := 1
  sectorsPerFat := 1
  rootCluster := 2
  cluster_pos := by decide
  reserved_pos := by decide
  fatCount_pos := by decide
  fat_pos := by decide
  two_le_root := by decide
  data_lt := by decide

def folderFs : RamFat32 64 := mounted folderFields folderImage folderImage_lt

def folderVolume : Volume where
  listing n := if n = 2 then some [.entry folder] else if n = 3 then some [.entry twoBytes] else none
  bytes _ := [0xAB,0xCD]
  closed := by
    intro dir items h e he hdir
    split_ifs at h
    · cases h
      cases List.mem_singleton.mp he
      exact ⟨_,rfl⟩
    · cases h
      cases List.mem_singleton.mp he
      cases hdir

theorem folder_boots : Boots folderImage folderFields := by
  constructor <;> decide +kernel

theorem folder_bytes : (∀ c ∈ [2,3,4], fatEntry folderFs c = 0x0FFFFFFF) ∧
    clusterData folderFs 2 = (itemBytes (.entry folder)).flatten++List.replicate 480 0 ∧
    clusterData folderFs 3 = (itemBytes (.entry twoBytes)).flatten++List.replicate 480 0 ∧
    clusterData folderFs 4 = [0xAB,0xCD]++List.replicate 510 0 := by
  decide +kernel

theorem folder_chain (c : ℕ) (hc : 2 ≤ c ∧ c ≤ 4) : Chain folderFs [c] := by
  have hlen : folderFs.image.length = 2560 := folderImage_length
  have hmem : c ∈ [2,3,4] := by
    obtain rfl|rfl|rfl : c = 2 ∨ c = 3 ∨ c = 4 := by omega
    all_goals decide
  have hends := folder_bytes.1 c hmem
  have hsector : folderFs.firstDataSector+(c-2)*folderFs.sectorsPerCluster = c := by
    change 2+(c-2)*1 = c
    omega
  have hone : folderFs.sectorsPerCluster = 1 := rfl
  refine ⟨⟨hc.1,by omega,by omega,by omega⟩,?_⟩
  rintro ⟨-,-,hlt⟩
  rw [hends] at hlt
  exact absurd hlt (by decide)

theorem folder_holds : HoldsVolume folderFs folderVolume where
  root := ⟨_,rfl⟩
  directory := by
    intro dir items h
    change (if dir = 2 then _ else if dir = 3 then _ else _) = _ at h
    split_ifs at h with htwo hthree
    · cases h
      refine ⟨[dir],folder_chain dir (by omega),rfl,itemBytes (.entry folder),
        List.replicate 480 0,?_,?_,Or.inr rfl⟩
      · rw [htwo]
        exact (List.flatMap_singleton _ _).trans folder_bytes.2.1
      · exact laysOut_write [.entry folder]
    · cases h
      refine ⟨[dir],folder_chain dir (by omega),rfl,itemBytes (.entry twoBytes),
        List.replicate 480 0,?_,?_,Or.inr rfl⟩
      · rw [hthree]
        exact (List.flatMap_singleton _ _).trans folder_bytes.2.2.1
      · exact laysOut_write [.entry twoBytes]
  file := by
    intro dir items h e he hfile
    change (if dir = 2 then _ else if dir = 3 then _ else _) = _ at h
    split_ifs at h
    · cases h
      cases List.mem_singleton.mp he
      cases hfile
    · cases h
      cases List.mem_singleton.mp he
      refine ⟨rfl,Or.inr ⟨by decide,[4],List.replicate 510 0,folder_chain 4 (by decide),rfl,?_⟩⟩
      exact (List.flatMap_singleton _ _).trans folder_bytes.2.2.2

end Example

end Zamak.Fat32Disc
