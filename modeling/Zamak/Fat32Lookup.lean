import Zamak.LongNames
import Zamak.VfatWrite

/-! # The search finds the first entry that answers

Between sets the accumulator is invalid, so no name leaks into the next set. Hence a
scan over laid-out items is a search among the entries they mean, and with the chain
read as one scan this is what `findInDir` returns. -/

set_option autoImplicit false

namespace Zamak.Fat32Lookup
open Zamak.Fat32Image Zamak.Fat32Directory Zamak.VfatLayout Zamak.Fat32Chain Zamak.LongNames
open Zamak.VfatWrite Zamak.WindowSearch

structure Idle (s : LfnAccum) : Prop where
  invalid : s.valid = false
  length : s.chars.length = 260

theorem idle_new : Idle LfnAccum.new := ⟨rfl,List.length_replicate⟩

theorem idle_reset (s : LfnAccum) (h : s.chars.length = 260) : Idle s.reset := ⟨rfl,h⟩

theorem readU32Le_leBytes (x : BitVec 32) : readU32Le (leBytes 4 x) 0 = x := by
  show (x.extractLsb' 0 8).setWidth 32|||((x.extractLsb' 8 8).setWidth 32<<<8)|||
    ((x.extractLsb' 16 8).setWidth 32<<<16)|||((x.extractLsb' 24 8).setWidth 32<<<24) = x
  grind

theorem half_word (x : BitVec 32) (a : ℕ) :
    (x.extractLsb' a 8).setWidth 16|||((x.extractLsb' (a+8) 8).setWidth 16<<<8) =
      x.extractLsb' a 16 := by
  grind

theorem cluster_halves (x : BitVec 32) :
    ((readU16Le ((leBytes 4 x).drop 2) 0).setWidth 32<<<16)|||
      (readU16Le ((leBytes 4 x).take 2) 0).setWidth 32 = x := by
  have hhigh : readU16Le ((leBytes 4 x).drop 2) 0 = x.extractLsb' 16 16 := half_word x 16
  have hlow : readU16Le ((leBytes 4 x).take 2) 0 = x.extractLsb' 0 16 := half_word x 0
  rw [hhigh,hlow]
  grind

theorem entryFacts_short (e : VfatEntry) (raw : List UInt8) (h : IsShort e raw) :
    entryFacts raw = e.facts := by
  have hcluster : ((readU16Le raw 0x14).setWidth 32<<<16)|||(readU16Le raw 0x1A).setWidth 32 =
      e.firstCluster := by
    rw [readU16Le_window raw 0x14,readU16Le_window raw 0x1A,h.clusterHigh,h.clusterLow]
    exact cluster_halves e.firstCluster
  have hlen : readU32Le raw 0x1C = e.len := by
    rw [← readU32Le_window raw 0x1C 4 0 (by decide),h.len]
    exact readU32Le_leBytes e.len
  have hattr := h.attr
  unfold entryFacts VfatEntry.facts
  rw [hcluster,hlen,hattr]
  rfl

theorem scanEntries_short (search : List UInt8) (e : VfatEntry) (raw : List UInt8)
    (h : IsShort e raw) (rest : List (List UInt8)) (s : LfnAccum)
    (hname : s.matchesName search = true ↔
      e.longName.map (List.map asciiLower) = some (search.map asciiLower)) :
    scanEntries search (raw::rest) s =
      if Answers search e then .done (some e.facts) else scanEntries search rest s.reset := by
  have hfirst : raw.getD 0 0 = e.shortName.getD 0 0 := by
    rw [← h.name]
    exact (getD_window raw 0 11 0 0 (by decide)).symm
  have hattr : ¬ raw.getD 0x0B 0 = attrLfn := by
    rw [h.attr]
    exact e.attrs_short
  rw [scanEntries,hfirst,if_neg e.short_live.1,if_neg e.short_live.2,if_neg hattr,h.name,
    entryFacts_short e raw h]
  exact if_congr (or_congr hname Iff.rfl) rfl rfl

theorem scanEntries_set (search : List UInt8) (e : VfatEntry) (set : List (List UInt8))
    (h : Encodes e set) (rest : List (List UInt8)) (s : LfnAccum) (hs : Idle s) :
    ∃ s', Idle s' ∧ scanEntries search (set++rest) s =
      if Answers search e then .done (some e.facts) else scanEntries search rest s' := by
  obtain ⟨long,short,rfl,hlong,hshort⟩ := h
  cases hname : e.longName with
  | none =>
    rw [hname] at hlong
    obtain rfl : long = [] := hlong
    have hno : s.matchesName search = true ↔
        e.longName.map (List.map asciiLower) = some (search.map asciiLower) := by
      simp [LfnAccum.matchesName,hs.invalid,hname]
    exact ⟨s.reset,idle_reset s hs.length,scanEntries_short search e short hshort rest s hno⟩
  | some name =>
    rw [hname] at hlong
    have hpos := e.long_nonempty name hname
    have hle := e.long_le name hname
    have hheld := absorb_all name hpos hle (e.long_ascii name hname) long hlong s hs.length
    have hyes : (long.foldl LfnAccum.absorb s).matchesName search = true ↔
        e.longName.map (List.map asciiLower) = some (search.map asciiLower) := by
      rw [matchesName_iff name hpos _ hheld search,hname]
      simp
    refine ⟨_,idle_reset _ hheld.length,?_⟩
    rw [List.append_assoc,scanEntries_segments name hle search _ (Nat.le_refl _) long hlong]
    exact scanEntries_short search e short hshort rest _ hyes

def firstAnswer (search : List UInt8) (items : List Item) : Option VfatEntry :=
  (items.filterMap Item.entry?).find? fun e => decide (Answers search e)

theorem scanEntries_items (search : List UInt8) (items : List Item) (raws : List (List UInt8))
    (h : LaysOut items raws) (rest : List (List UInt8)) (s : LfnAccum) (hs : Idle s) :
    ∃ s', scanEntries search (raws++rest) s = match firstAnswer search items with
      | some e => .done (some e.facts)
      | none => scanEntries search rest s' := by
  induction items generalizing raws s with
  | nil =>
    obtain rfl : raws = [] := h
    exact ⟨s,rfl⟩
  | cons item items ih =>
    cases item with
    | deleted =>
      obtain ⟨raw,others,rfl,_,hdeleted,hothers⟩ := h
      obtain ⟨s',hs'⟩ := ih others hothers s.reset (idle_reset s hs.length)
      refine ⟨s',?_⟩
      rw [List.cons_append,scanEntries,if_neg (by rw [hdeleted]; decide),if_pos hdeleted,hs']
      rfl
    | entry e =>
      obtain ⟨set,others,rfl,hset,hothers⟩ := h
      obtain ⟨t,ht,hscan⟩ := scanEntries_set search e set hset (others++rest) s hs
      obtain ⟨s',hs'⟩ := ih others hothers t ht
      refine ⟨s',?_⟩
      rw [List.append_assoc,hscan]
      by_cases hans : Answers search e
      · rw [if_pos hans]
        have hfirst : firstAnswer search (.entry e::items) = some e := by
          simp [firstAnswer,Item.entry?,hans]
        rw [hfirst]
      · rw [if_neg hans,hs']
        have hfirst : firstAnswer search (.entry e::items) = firstAnswer search items := by
          simp [firstAnswer,Item.entry?,hans]
        rw [hfirst]

theorem forall₂_length (name : List UInt8) (ks : List ℕ) (raws : List (List UInt8))
    (h : List.Forall₂ (IsSegment name) ks raws) : ∀ raw ∈ raws, raw.length = 32 := by
  induction h with
  | nil => simp
  | cons hraw _ ih => exact List.forall_mem_cons.mpr ⟨hraw.length,ih⟩

theorem laysOut_length (items : List Item) (raws : List (List UInt8)) (h : LaysOut items raws) :
    ∀ raw ∈ raws, raw.length = 32 := by
  induction items generalizing raws with
  | nil =>
    obtain rfl : raws = [] := h
    simp
  | cons item items ih =>
    cases item with
    | deleted =>
      obtain ⟨raw,others,rfl,hlen,_,hothers⟩ := h
      exact List.forall_mem_cons.mpr ⟨hlen,ih others hothers⟩
    | entry e =>
      obtain ⟨set,others,rfl,⟨long,short,rfl,hlong,hshort⟩,hothers⟩ := h
      have hsegments : ∀ raw ∈ long, raw.length = 32 := by
        cases hname : e.longName with
        | none =>
          rw [hname] at hlong
          obtain rfl : long = [] := hlong
          simp
        | some name =>
          rw [hname] at hlong
          exact forall₂_length name _ long hlong
      intro raw hraw
      rcases List.mem_append.mp hraw with hset|hrest
      · rcases List.mem_append.mp hset with hl|hs
        · exact hsegments raw hl
        · rw [List.mem_singleton.mp hs]
          exact hshort.length
      · exact ih others hothers raw hrest

theorem scanEntries_tail (search tail : List UInt8) (h : tail = [] ∨ tail.head? = some 0)
    (s : LfnAccum) : scanAnswer (scanEntries search (entriesOf tail) s) = none := by
  rcases h with rfl|hzero
  · rw [entriesOf_nil]
    rfl
  · cases hentries : entriesOf tail with
    | nil => rfl
    | cons entry rest =>
      have hpos : 0 < tail.length/32 := by
        have hlen := congrArg List.length hentries
        simp only [entriesOf,List.length_map,List.length_range,List.length_cons] at hlen
        show 0 < tail.length/dirEntrySize
        omega
      have hentry : entry = tail.take 32 := by
        have hfirst := congrArg (fun l => l[0]?) hentries
        simpa [entriesOf,dirEntrySize,hpos,eq_comm] using hfirst
      have hmark : entry.getD 0 0 = 0x00 := by
        rw [hentry]
        cases tail with
        | nil => rfl
        | cons b tail => simpa using hzero
      rw [scanEntries,if_pos hmark]
      rfl

/-- `find_in_dir` on a chain that holds a directory in VFAT format. -/
theorem findInDir_first {usizeBits : ℕ} (fs : RamFat32 usizeBits) (clusters : List ℕ)
    (hchain : Chain fs clusters) (items : List Item) (hholds : Holds fs clusters items)
    (start : ℕ) (hstart : clusters.head? = some start) (fuel : ℕ)
    (hfuel : clusters.length ≤ fuel) (search : List UInt8) :
    findInDir fs search fuel start =
      some (((items.filterMap Item.entry?).find? fun e => decide (Answers search e)).map
        VfatEntry.facts) := by
  obtain ⟨raws,tail,hbytes,hlays,htail⟩ := hholds
  obtain ⟨s',hscan⟩ :=
    scanEntries_items search items raws hlays (entriesOf tail) LfnAccum.new idle_new
  rw [findInDir,search_chain fs search clusters hchain start hstart fuel hfuel,hbytes,
    entriesOf_flatten raws tail (laysOut_length items raws hlays),hscan]
  show _ = some ((firstAnswer search items).map VfatEntry.facts)
  cases firstAnswer search items with
  | none => exact congrArg some (scanEntries_tail search tail htail s')
  | some e => rfl

def asciiBytes (text : String) : List UInt8 := text.toList.map fun c => UInt8.ofNat c.toNat

def notes : VfatEntry where
  longName := some (asciiBytes "Meeting Notes.txt")
  shortName := asciiBytes "MEETIN~1TXT"
  attrs := 0x20
  firstCluster := 0x00010004#32
  len := 42#32
  long_nonempty := by decide
  long_le := by decide
  long_ascii := by
    intro name h
    obtain rfl := Option.some.inj h
    decide +kernel
  short_length := by decide
  short_live := by decide
  attrs_short := by decide

/-- Fourteen deleted entries, so that the set of `notes` crosses a cluster boundary. -/
def notesItems : List Item := List.replicate 14 .deleted++[.entry notes]

def bootSector : List UInt8 :=
  List.replicate 11 0++[0x00,0x02,0x01,0x01,0x00,0x01]++List.replicate 19 0++[1,0,0,0]++
    List.replicate 4 0++[2,0,0,0]++List.replicate 462 0++[0x55,0xAA]

theorem bootSector_length : bootSector.length = 512 := by
  simp only [bootSector,List.length_append,List.length_replicate,List.length_cons,List.length_nil]

theorem take_bootSector (table data : List UInt8) :
    (bootSector++table++data).take 512 = bootSector := by
  rw [List.append_assoc,← bootSector_length,List.take_left]

def booted (image : List UInt8) (himage : image.length < 2^64) : RamFat32 64 where
  image := image
  sectorsPerCluster := 1
  reservedSectors := 1
  rootCluster := 2
  firstDataSector := 2
  image_lt := himage
  sectorsPerCluster_pos := by decide
  sectorsPerCluster_lt := by decide
  reservedSectors_lt := by decide
  rootCluster_lt := by decide
  firstDataSector_lt := by decide

theorem bootSector_fields : readU16Le bootSector 0x0B = 512#16 ∧ bootSector.getD 0x0D 0 = 1 ∧
    readU16Le bootSector 0x0E = 1#16 ∧ bootSector.getD 0x10 0 = 1 ∧
    readU32Le bootSector 0x24 = 1#32 ∧ readU32Le bootSector 0x2C = 2#32 ∧
    bootSector.getD 0x1FE 0 = 0x55 ∧ bootSector.getD 0x1FF 0 = 0xAA := by
  decide +kernel

theorem parse_bootSector (image : List UInt8) (himage : image.length < 2^64)
    (hboot : image.take 512 = bootSector) : parse 64 image himage = some (booted image himage) := by
  have hbyte : ∀ i < 512, image.getD i 0 = bootSector.getD i 0 := by
    intro i hi
    rw [← hboot,← List.drop_zero (l := image),getD_window image 0 512 i 0 hi,Nat.zero_add,
      List.drop_zero]
  have hlen : ¬image.length < 512 := by
    have hboot := congrArg List.length hboot
    rw [List.length_take,bootSector_length] at hboot
    omega
  obtain ⟨hbytes,hspc,hreserved,hcount,hfat,hroot,hmark⟩ := bootSector_fields
  rw [readU16Le,← hbyte _ (by decide),← hbyte _ (by decide),← readU16Le] at hbytes hreserved
  rw [readU32Le,← hbyte _ (by decide),← hbyte _ (by decide),← hbyte _ (by decide),
    ← hbyte _ (by decide),← readU32Le] at hfat hroot
  rw [← hbyte _ (by decide)] at hspc hcount
  rw [← hbyte _ (by decide),← hbyte _ (by decide)] at hmark
  simp [parse,booted,sectorSize,hlen,hbytes,hspc,hreserved,hcount,hfat,hroot,hmark,
    -List.getD_eq_getElem?_getD]

/-- One reserved sector, one of the table, and the clusters `2` and `3`. -/
def notesImage : List UInt8 :=
  bootSector++([0,0,0,0,0,0,0,0,3,0,0,0,0xFF,0xFF,0xFF,0x0F]++List.replicate 496 0)++
    ((notesItems.flatMap itemBytes).flatten++List.replicate 480 0)

theorem notesImage_length : notesImage.length = 2048 := by decide +kernel

theorem notesImage_lt : notesImage.length < 2^64 := by
  rw [notesImage_length]
  decide

def notesFs : RamFat32 64 := booted notesImage notesImage_lt

theorem notes_parse : parse 64 notesImage notesImage_lt = some notesFs :=
  parse_bootSector notesImage notesImage_lt (take_bootSector _ _)

theorem notes_bytes : fatEntry notesFs 2 = 3 ∧ fatEntry notesFs 3 = 0x0FFFFFFF ∧
    [2,3].flatMap (clusterData notesFs) =
      (notesItems.flatMap itemBytes).flatten++List.replicate 480 0 := by
  decide +kernel

theorem notes_chain : Chain notesFs [2,3] := by
  have hlen : notesFs.image.length = 2048 := notesImage_length
  have hin : ∀ c, 2 ≤ c → c ≤ 3 → InImage notesFs c := by
    intro c htwo hthree
    refine ⟨htwo,by omega,?_,?_⟩
    · show 2+(c-2)*1 < 2^32
      omega
    · show (2+(c-2)*1+1)*512 ≤ notesFs.image.length
      omega
  obtain ⟨hnext,hlast,-⟩ := notes_bytes
  refine ⟨hin 2 (by decide) (by decide),⟨?_,?_⟩,hnext,hin 3 (by decide) (by decide),?_⟩
  · show (1+2*4/512+1)*512 ≤ notesFs.image.length
    omega
  · rw [hnext]
    decide
  · rintro ⟨_,_,hlt⟩
    rw [hlast] at hlt
    exact absurd hlt (by decide)

theorem notes_holds : Holds notesFs [2,3] notesItems := by
  exact ⟨notesItems.flatMap itemBytes,List.replicate 480 0,notes_bytes.2.2,
    laysOut_write notesItems,Or.inr rfl⟩

theorem findInDir_first_notes :
    parse 64 notesImage notesImage_lt = some notesFs ∧
      findInDir notesFs (asciiBytes "meeting notes.TXT") 2 2 =
        some (some ⟨0x00010004#32,42#32,false⟩) ∧
      findInDir notesFs (asciiBytes "meeting") 2 2 = some none := by
  refine ⟨notes_parse,?_,?_⟩
  · rw [findInDir_first notesFs [2,3] notes_chain notesItems notes_holds 2 rfl 2 (Nat.le_refl _)]
    decide +kernel
  · rw [findInDir_first notesFs [2,3] notes_chain notesItems notes_holds 2 rfl 2 (Nat.le_refl _)]
    decide +kernel

end Zamak.Fat32Lookup
