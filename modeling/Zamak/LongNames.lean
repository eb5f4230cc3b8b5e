import Zamak.VfatLayout
import Zamak.WindowSearch
import Zamak.Fat32Chain

/-! # A long name is put together from its segments

Segments arrive last first. After segment `k+1` the accumulator holds the name from
place `13*k` on, whatever its buffer held before, and its count is the length of the
whole name: a blank unit sets it, and a name that fills its segments has none. -/

set_option autoImplicit false

namespace Zamak.LongNames
open Zamak.Fat32Image Zamak.Fat32Directory Zamak.VfatLayout Zamak.Fat32Chain
open Zamak.WindowSearch

def Blank (unit : BitVec 16) : Prop := unit = 0x0000#16 ∨ unit = 0xFFFF#16

theorem charUnit_toNat (c : UInt8) : (charUnit c).toNat = c.toNat := by
  have hc : c.toNat < 256 := c.toNat_lt
  rw [charUnit,BitVec.toNat_setWidth]
  exact Nat.mod_eq_of_lt (by omega)

theorem placeUnits_char (c : UInt8) (hc : c ≠ 0 ∧ c < 0x80) (units : List (BitVec 16))
    (dest : ℕ) (hdest : dest < 260) (s : LfnAccum) :
    placeUnits (charUnit c::units) dest s =
      placeUnits units (dest+1) { s with chars := s.chars.set dest c } := by
  have hroom : ¬ dest ≥ maxLfnChars := Nat.not_le_of_lt hdest
  have hpos : c.toNat ≠ 0 := fun h => hc.1 (UInt8.toNat_inj.mp h)
  have hlt : c.toNat < 128 := UInt8.lt_iff_toNat_lt.mp hc.2
  have hunit := charUnit_toNat c
  have hblank : ¬ (charUnit c = 0x0000#16 ∨ charUnit c = 0xFFFF#16) := by
    rintro (h|h)
    · rw [h] at hunit
      exact hpos hunit.symm
    · rw [h] at hunit
      have hmax : (65535 : ℕ) = c.toNat := hunit
      omega
  have hascii : ¬ charUnit c > 0x7F#16 := by
    intro h
    have hgt : 127 < (charUnit c).toNat := BitVec.lt_def.mp h
    omega
  have hbyte : UInt8.ofBitVec ((charUnit c).setWidth 8) = c := by
    apply UInt8.toNat_inj.mp
    show ((charUnit c).setWidth 8).toNat = c.toNat
    rw [BitVec.toNat_setWidth,hunit]
    omega
  rw [placeUnits,if_neg hroom,if_neg hblank,if_neg hascii,hbyte]

theorem placeUnits_blank (unit : BitVec 16) (hunit : Blank unit) (units : List (BitVec 16))
    (dest : ℕ) (hdest : dest < 260) (s : LfnAccum) :
    placeUnits (unit::units) dest s =
      placeUnits units (dest+1)
        { s with charCount := if dest < s.charCount then dest else s.charCount,
                 chars := s.chars.set dest 0 } := by
  have hroom : ¬ dest ≥ maxLfnChars := Nat.not_le_of_lt hdest
  have hblank : unit = 0x0000#16 ∨ unit = 0xFFFF#16 := hunit
  rw [placeUnits,if_neg hroom,if_pos hblank]

theorem placeUnits_chars (cs : List UInt8) (hcs : ∀ c ∈ cs, c ≠ 0 ∧ c < 0x80)
    (rest : List (BitVec 16)) (dest : ℕ) (s : LfnAccum) (hlen : s.chars.length = 260)
    (hdest : dest+cs.length ≤ 260) :
    placeUnits (cs.map charUnit++rest) dest s =
      placeUnits rest (dest+cs.length) { s with chars := splice s.chars dest cs } := by
  induction cs generalizing dest s with
  | nil => simp [splice]
  | cons c cs ih =>
    rw [List.length_cons] at hdest
    rw [List.map_cons,List.cons_append,
      placeUnits_char c (hcs c (by simp)) _ dest (by omega),
      ih (fun d hd => hcs d (by simp [hd])) _ _ (by simpa using hlen) (by omega)]
    simp only [splice_cons s.chars cs dest c (by omega),List.length_cons]
    rw [show dest+1+cs.length = dest+(cs.length+1) by omega]

/-- Blank units keep what stands around them and lower the count to their place. -/
theorem placeUnits_blanks (units : List (BitVec 16)) (hunits : ∀ unit ∈ units, Blank unit)
    (dest : ℕ) (s : LfnAccum) (hdest : dest+units.length ≤ 260) :
    (placeUnits units dest s).valid = s.valid ∧
      (placeUnits units dest s).haveLast = s.haveLast ∧
      (placeUnits units dest s).chars.length = s.chars.length ∧
      (placeUnits units dest s).charCount =
        (if units = [] then s.charCount else min s.charCount dest) ∧
      ∀ i, i < dest ∨ dest+units.length ≤ i →
        (placeUnits units dest s).chars[i]? = s.chars[i]? := by
  induction units generalizing dest s with
  | nil => simp [placeUnits]
  | cons unit units ih =>
    rw [List.length_cons] at hdest
    rw [placeUnits_blank unit (hunits unit (by simp)) units dest (by omega) s]
    obtain ⟨hvalid,hlast,hlen,hcount,hchars⟩ :=
      ih (fun u hu => hunits u (by simp [hu])) (dest+1)
        { s with charCount := if dest < s.charCount then dest else s.charCount,
                 chars := s.chars.set dest 0 } (by omega)
    refine ⟨hvalid,hlast,by simpa using hlen,?_,?_⟩
    · rw [hcount,if_neg (List.cons_ne_nil unit units)]
      show (if units = [] then (if dest < s.charCount then dest else s.charCount)
        else min (if dest < s.charCount then dest else s.charCount) (dest+1)) = _
      split <;> split <;> omega
    · intro i hi
      rw [List.length_cons] at hi
      rw [hchars i (by omega)]
      exact List.getElem?_set_ne (by omega)

theorem padding_blank (name : List UInt8) : ∀ unit ∈ padding name, Blank unit := by
  intro unit hunit
  unfold padding at hunit
  split at hunit
  · simp at hunit
  · rcases List.mem_cons.mp hunit with h|h
    · exact Or.inl h
    · exact Or.inr (List.eq_of_mem_replicate h)

theorem padding_short (name : List UInt8) (k : ℕ) (hd : (k-1)*13 < name.length)
    (hshort : name.length < k*13) :
    (padding name).take (13-(name.length-(k-1)*13)) ≠ [] := by
  have hmod : ¬ name.length%13 = 0 := by omega
  rw [padding,if_neg hmod,
    show 13-(name.length-(k-1)*13) = (12-(name.length-(k-1)*13))+1 by omega]
  exact List.cons_ne_nil _ _

theorem segmentUnits_eq (name : List UInt8) (k : ℕ) (h : (k-1)*13 ≤ name.length) :
    segmentUnits name k = ((name.drop ((k-1)*13)).take 13).map charUnit++
      (padding name).take (13-(name.length-(k-1)*13)) := by
  have hle : (k-1)*13 ≤ (name.map charUnit).length := by
    rw [List.length_map]
    exact h
  rw [segmentUnits,codeUnits,List.drop_append_of_le_length hle,List.take_append,
    List.length_drop,List.length_map,List.map_take,List.map_drop]

structure Holding (name : List UInt8) (k : ℕ) (s : LfnAccum) : Prop where
  valid : s.valid = true
  haveLast : s.haveLast = true
  count : s.charCount = name.length
  length : s.chars.length = 260
  chars : ∀ i, 13*k ≤ i → i < name.length → s.chars[i]? = name[i]?

/-- The first byte of a segment gives its number and flag, and is neither mark. -/
theorem number_facts (k : ℕ) (hk : 1 ≤ k) (hk20 : k ≤ 20) (last : Bool) (b : UInt8)
    (hb : b = if last then UInt8.ofNat k|||0x40 else UInt8.ofNat k) :
    (b&&&0x1F).toNat = k ∧ (b&&&0x40 ≠ 0 ↔ last = true) ∧ b ≠ 0 ∧ b ≠ 0xE5 := by
  subst hb
  have hall : ∀ k < 21, 1 ≤ k → ∀ last : Bool,
      ((if last then UInt8.ofNat k|||0x40 else UInt8.ofNat k)&&&0x1F).toNat = k ∧
      ((if last then UInt8.ofNat k|||0x40 else UInt8.ofNat k)&&&0x40 ≠ 0 ↔ last = true) ∧
      (if last then UInt8.ofNat k|||0x40 else UInt8.ofNat k) ≠ 0 ∧
      (if last then UInt8.ofNat k|||0x40 else UInt8.ofNat k) ≠ 0xE5 := by decide
  exact hall k (by omega) hk last

theorem codeUnit_eq (raw : List UInt8) (p : ℕ) : codeUnit raw p = readU16Le raw p :=
  BitVec.or_comm _ _

theorem readU16Le_leBytes (unit : BitVec 16) : readU16Le (leBytes 2 unit) 0 = unit := by
  show (unit.extractLsb' 0 8).setWidth 16|||((unit.extractLsb' 8 8).setWidth 16<<<8) = unit
  grind

theorem segment_units (name : List UInt8) (k : ℕ) (raw : List UInt8) (h : IsSegment name k raw) :
    positions.map (codeUnit raw) = segmentUnits name k := by
  have hread : ∀ p, codeUnit raw p = readU16Le ((raw.drop p).take 2) 0 :=
    fun p => (codeUnit_eq raw p).trans (readU16Le_window raw p)
  calc positions.map (codeUnit raw)
      = (positions.map fun p => (raw.drop p).take 2).map fun bytes => readU16Le bytes 0 := by
        rw [List.map_map]
        exact List.map_congr_left fun p _ => hread p
    _ = (segmentUnits name k).map fun unit => readU16Le (leBytes 2 unit) 0 := by
        rw [h.units,List.map_map]
        rfl
    _ = (segmentUnits name k).map id :=
        List.map_congr_left fun unit _ => readU16Le_leBytes unit
    _ = segmentUnits name k := List.map_id _

section Name
variable (name : List UInt8) (hpos : 1 ≤ name.length) (hle : name.length ≤ 255)
  (hascii : ∀ c ∈ name, c ≠ 0 ∧ c < 0x80)
include hpos hle hascii

theorem placeUnits_segment (k : ℕ) (hk : 1 ≤ k) (hkn : k ≤ segmentCount name) (s : LfnAccum)
    (hlen : s.chars.length = 260) :
    (placeUnits (segmentUnits name k) ((k-1)*13) s).valid = s.valid ∧
      (placeUnits (segmentUnits name k) ((k-1)*13) s).haveLast = s.haveLast ∧
      (placeUnits (segmentUnits name k) ((k-1)*13) s).chars.length = 260 ∧
      (placeUnits (segmentUnits name k) ((k-1)*13) s).charCount =
        (if name.length < k*13 then min s.charCount name.length else s.charCount) ∧
      ∀ i, (k-1)*13 ≤ i → i < name.length →
        (placeUnits (segmentUnits name k) ((k-1)*13) s).chars[i]? =
          if i < k*13 then name[i]? else s.chars[i]? := by
  unfold segmentCount at hkn
  have hd : (k-1)*13 < name.length := by omega
  have hpiece : ((name.drop ((k-1)*13)).take 13).length = min 13 (name.length-(k-1)*13) := by
    simp
  have hsplice := splice_length s.chars ((name.drop ((k-1)*13)).take 13) ((k-1)*13)
    (by omega)
  rw [segmentUnits_eq name k (by omega),placeUnits_chars _
    (fun c hc => hascii c (List.mem_of_mem_drop (List.mem_of_mem_take hc))) _ _ s hlen (by omega)]
  have hblanks : ∀ unit ∈ (padding name).take (13-(name.length-(k-1)*13)), Blank unit :=
    fun unit hunit => padding_blank name unit (List.mem_of_mem_take hunit)
  have hpad : ((padding name).take (13-(name.length-(k-1)*13))).length ≤
      13-(name.length-(k-1)*13) := List.length_take_le _ _
  obtain ⟨hv,hl,hn,hc,hchars⟩ := placeUnits_blanks _ hblanks
    ((k-1)*13+((name.drop ((k-1)*13)).take 13).length)
    { s with chars := splice s.chars ((k-1)*13) ((name.drop ((k-1)*13)).take 13) } (by omega)
  refine ⟨hv,hl,hn.trans (hsplice.trans hlen),?_,?_⟩
  -- Padding, where there is any, starts at the length of the name.
  · rw [hc]
    by_cases hshort : name.length < k*13
    · rw [if_neg (padding_short name k hd hshort),if_pos hshort]
      congr 1
      omega
    · rw [show 13-(name.length-(k-1)*13) = 0 by omega,if_neg hshort]
      rfl
  · intro i hi hin
    rw [hchars i (by omega)]
    by_cases hik : i < k*13
    · have hread := splice_within s.chars ((name.drop ((k-1)*13)).take 13) ((k-1)*13)
        (by omega) (i-(k-1)*13) (by omega)
      rw [show (k-1)*13+(i-(k-1)*13) = i by omega] at hread
      rw [if_pos hik]
      show (splice s.chars ((k-1)*13) _)[i]? = _
      rw [hread,List.getElem?_take_of_lt (by omega),List.getElem?_drop]
      congr 1
      omega
    · rw [if_neg hik]
      exact splice_after s.chars _ _ (by omega) i (by omega)

theorem absorb_last (raw : List UInt8) (h : IsSegment name (segmentCount name) raw)
    (s : LfnAccum) (hlen : s.chars.length = 260) :
    Holding name (segmentCount name-1) (s.absorb raw) := by
  have hn : 1 ≤ segmentCount name ∧ segmentCount name ≤ 20 := by
    unfold segmentCount
    omega
  have hfill : name.length ≤ segmentCount name*13 := by
    unfold segmentCount
    omega
  obtain ⟨hseq,hflag,_⟩ := number_facts _ hn.1 hn.2 true (raw.getD 0 0)
    (h.number.trans (by simp))
  have habsorb : s.absorb raw = placeUnits (segmentUnits name (segmentCount name))
      ((segmentCount name-1)*13)
      { s.reset with haveLast := true, valid := true, charCount := segmentCount name*13 } := by
    unfold LfnAccum.absorb
    simp only [hseq,segment_units name _ raw h]
    rw [if_neg (by show ¬ (_ ∨ _ > 20); omega),if_pos (hflag.mpr rfl)]
  rw [habsorb]
  obtain ⟨hv,hl,hn',hc,hchars⟩ := placeUnits_segment name hpos hle hascii _ hn.1 (Nat.le_refl _)
    { s.reset with haveLast := true, valid := true, charCount := segmentCount name*13 } hlen
  refine ⟨hv,hl,?_,hn',?_⟩
  · rw [hc]
    show (if name.length < segmentCount name*13 then min (segmentCount name*13) name.length
      else segmentCount name*13) = _
    split <;> omega
  · intro i hi hin
    rw [hchars i (by omega) hin,if_pos (by omega)]

theorem absorb_next (k : ℕ) (hk : 1 ≤ k) (hkn : k < segmentCount name) (raw : List UInt8)
    (h : IsSegment name k raw) (s : LfnAccum) (hs : Holding name k s) :
    Holding name (k-1) (s.absorb raw) := by
  have hn : segmentCount name ≤ 20 := by
    unfold segmentCount
    omega
  have hbelow : k*13 ≤ name.length := by
    unfold segmentCount at hkn
    omega
  obtain ⟨hseq,hflag,_⟩ := number_facts k hk (by omega) false (raw.getD 0 0)
    (h.number.trans (by simp [Nat.ne_of_lt hkn]))
  have habsorb : s.absorb raw = placeUnits (segmentUnits name k) ((k-1)*13) s := by
    unfold LfnAccum.absorb
    simp only [hseq,segment_units name k raw h]
    rw [if_neg (by show ¬ (_ ∨ _ > 20); omega),if_neg (fun hl => by simpa using hflag.mp hl),
      if_pos hs.haveLast]
  rw [habsorb]
  obtain ⟨hv,hl,hn',hc,hchars⟩ :=
    placeUnits_segment name hpos hle hascii k hk (Nat.le_of_lt hkn) s hs.length
  refine ⟨hv.trans hs.valid,hl.trans hs.haveLast,?_,hn',?_⟩
  · rw [hc,if_neg (by omega)]
    exact hs.count
  · intro i hi hin
    rw [hchars i (by omega) hin]
    split
    · rfl
    · exact hs.chars i (by omega) hin

theorem foldl_absorb (k : ℕ) (hkn : k < segmentCount name) (raws : List (List UInt8))
    (h : List.Forall₂ (IsSegment name) (descending k) raws) (s : LfnAccum)
    (hs : Holding name k s) : Holding name 0 (raws.foldl LfnAccum.absorb s) := by
  induction k generalizing raws s with
  | zero =>
    obtain rfl : raws = [] := by cases h; rfl
    exact hs
  | succ k ih =>
    cases h with
    | cons hraw hrest =>
      have hnext := absorb_next name hpos hle hascii (k+1) (by omega) hkn _ hraw s hs
      exact ih (by omega) _ hrest _ hnext

theorem absorb_all (raws : List (List UInt8))
    (h : List.Forall₂ (IsSegment name) (descending (segmentCount name)) raws) (s : LfnAccum)
    (hlen : s.chars.length = 260) : Holding name 0 (raws.foldl LfnAccum.absorb s) := by
  obtain ⟨n,hn⟩ : ∃ n, segmentCount name = n+1 :=
    ⟨segmentCount name-1,by unfold segmentCount; omega⟩
  rw [hn] at h
  cases h with
  | cons hraw hrest =>
    rw [← hn] at hraw
    have hfirst := absorb_last name hpos hle hascii _ hraw s hlen
    rw [hn,Nat.add_sub_cancel] at hfirst
    exact foldl_absorb name hpos hle hascii n (by omega) _ hrest _ hfirst

omit hle hascii in
theorem matchesName_iff (s : LfnAccum) (hs : Holding name 0 s) (search : List UInt8) :
    s.matchesName search = true ↔ name.map asciiLower = search.map asciiLower := by
  have hchars : s.chars.take name.length = name := by
    apply List.ext_getElem?
    intro i
    by_cases hi : i < name.length
    · rw [List.getElem?_take_of_lt hi]
      exact hs.chars i (by omega) hi
    · rw [List.getElem?_eq_none (by rw [List.length_take]; omega),
        List.getElem?_eq_none (by omega)]
  have hlive : ¬ (s.valid = false ∨ name.length = 0) := by
    rw [hs.valid]
    simp only [Bool.true_eq_false,false_or]
    omega
  unfold LfnAccum.matchesName
  rw [hs.count,hchars,if_neg hlive]
  by_cases hlen : name.length = search.length
  · rw [if_neg (not_not.mpr hlen)]
    simp [asciiEqIgnoreCase,hlen]
  · rw [if_pos hlen]
    constructor
    · intro h
      cases h
    · intro h
      exact absurd (by simpa using congrArg List.length h) hlen

end Name

theorem scanEntries_segments (name : List UInt8) (hle : name.length ≤ 255) (search : List UInt8)
    (k : ℕ) (hkn : k ≤ segmentCount name) (raws : List (List UInt8))
    (h : List.Forall₂ (IsSegment name) (descending k) raws) (rest : List (List UInt8))
    (s : LfnAccum) :
    scanEntries search (raws++rest) s =
      scanEntries search rest (raws.foldl LfnAccum.absorb s) := by
  induction k generalizing raws s with
  | zero =>
    obtain rfl : raws = [] := by cases h; rfl
    rfl
  | succ k ih =>
    cases h with
    | cons hraw hrest =>
      obtain ⟨_,_,hzero,hdeleted⟩ := number_facts (k+1) (by omega)
        (by unfold segmentCount at hkn; omega) (decide (k+1 = segmentCount name)) _
        (hraw.number.trans (by simp))
      have hattr : _ = attrLfn := hraw.attr
      rw [List.cons_append,scanEntries,if_neg hzero,if_neg hdeleted,if_pos hattr,
        ih (by omega) _ hrest]
      rfl

end Zamak.LongNames
