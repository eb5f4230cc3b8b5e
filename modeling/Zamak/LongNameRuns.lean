import Zamak.Fat32Lookup
import Mathlib.Data.List.TakeWhile

/-! # Which long names a scan accepts

The accumulator takes the segments of a long name in any order and writes each to its own
place, so a segment that is missing leaves what an earlier name put there. Where the
segments since the last flagged one are numbered down to one, the name it holds is the
one they store, whatever bytes came before. -/

set_option autoImplicit false

namespace Zamak.LongNameRuns
open Zamak.Fat32Image Zamak.Fat32Directory Zamak.VfatLayout Zamak.Fat32Chain Zamak.LongNames
open Zamak.Fat32Lookup Zamak.VfatWrite Zamak.WindowSearch

instance (unit : BitVec 16) : Decidable (Blank unit) := inferInstanceAs (Decidable (_ ∨ _))

def unitsOf (entry : List UInt8) : List (BitVec 16) := positions.map (codeUnit entry)

def runBytes : ℕ → List UInt8
  | 0 => []
  | n+1 => (UInt8.ofNat (n+1)|||0x40)::(descending n).map UInt8.ofNat

/-- A complete run: all long-name entries, numbered from the flagged last segment down. -/
structure CompleteRun (run : List (List UInt8)) : Prop where
  nonempty : 1 ≤ run.length
  short : run.length ≤ 20
  attr : ∀ entry ∈ run, entry.getD 0x0B 0 = attrLfn
  numbers : run.map (fun entry => entry.getD 0 0) = runBytes run.length

/-- The code units a run stores, from its first segment to the first blank. -/
def storedUnits (run : List (List UInt8)) : List (BitVec 16) :=
  (run.reverse.flatMap unitsOf).takeWhile fun unit => ¬Blank unit

def IsFlag (entry : List UInt8) : Prop :=
  entry.getD 0 0 ≠ 0xE5 ∧ entry.getD 0x0B 0 = attrLfn ∧ entry.getD 0 0&&&0x40 ≠ 0

instance (entry : List UInt8) : Decidable (IsFlag entry) := inferInstanceAs (Decidable (_ ∧ _))

def sinceFlag (entries : List (List UInt8)) : List (List UInt8) :=
  entries.foldl (fun run entry => if IsFlag entry then [entry] else run++[entry]) []

/-- The scan comes to an 8.3 entry with an accumulator that matches the name. -/
def AcceptsLong (search : List UInt8) (before : List (List UInt8)) (entry : List UInt8) : Prop :=
  ∃ lfn, scanEntries search before LfnAccum.new = .more lfn ∧
    entry.getD 0 0 ≠ 0x00 ∧ entry.getD 0 0 ≠ 0xE5 ∧ entry.getD 0x0B 0 ≠ attrLfn ∧
    lfn.matchesName search = true

theorem acceptsLong_found (search : List UInt8) (before : List (List UInt8)) (entry : List UInt8)
    (h : AcceptsLong search before entry) (after : List (List UInt8)) :
    scanEntries search (before++entry::after) LfnAccum.new = .done (some (entryFacts entry)) := by
  obtain ⟨lfn,hscan,hzero,hdeleted,hattr,hmatch⟩ := h
  rw [scanEntries_append,hscan]
  simp only
  rw [scanEntries,if_neg hzero,if_neg hdeleted,if_neg hattr,if_pos (Or.inl hmatch)]

theorem sinceFlag_append (entries : List (List UInt8)) (entry : List UInt8) :
    sinceFlag (entries++[entry]) =
      if IsFlag entry then [entry] else sinceFlag entries++[entry] := by
  rw [sinceFlag,List.foldl_append]
  rfl

theorem sinceFlag_suffix (entries : List (List UInt8)) :
    ∃ earlier, entries = earlier++sinceFlag entries := by
  induction entries using List.reverseRecOn with
  | nil => exact ⟨[],rfl⟩
  | append_singleton entries entry ih =>
    obtain ⟨earlier,hsplit⟩ := ih
    rw [sinceFlag_append]
    by_cases hflag : IsFlag entry
    · exact ⟨entries,by rw [if_pos hflag]⟩
    · refine ⟨earlier,?_⟩
      rw [if_neg hflag,← List.append_assoc,← hsplit]

def slotByte (unit : BitVec 16) : UInt8 :=
  if Blank unit then 0 else UInt8.ofBitVec (unit.setWidth 8)

theorem placeUnits_haveLast (units : List (BitVec 16)) (dest : ℕ) (s : LfnAccum) :
    (placeUnits units dest s).haveLast = s.haveLast := by
  induction units generalizing dest s with
  | nil => rfl
  | cons unit units ih =>
    rw [placeUnits]
    split
    · rfl
    split
    · rw [ih]
    split
    · rfl
    · rw [ih]

theorem placeUnits_length (units : List (BitVec 16)) (dest : ℕ) (s : LfnAccum) :
    (placeUnits units dest s).chars.length = s.chars.length := by
  induction units generalizing dest s with
  | nil => rfl
  | cons unit units ih =>
    rw [placeUnits]
    split
    · rfl
    split
    · rw [ih,List.length_set]
    split
    · rfl
    · rw [ih,List.length_set]

/-- Units that leave the accumulator valid are all written, and the first blank among
them bounds the count. -/
theorem placeUnits_valid (units : List (BitVec 16)) (dest : ℕ) (s : LfnAccum)
    (hlen : s.chars.length = 260) (hdest : dest+units.length ≤ 260)
    (h : (placeUnits units dest s).valid = true) :
    s.valid = true ∧ (∀ unit ∈ units, Blank unit ∨ unit ≤ 0x7F#16) ∧
      (placeUnits units dest s).chars = splice s.chars dest (units.map slotByte) ∧
      (placeUnits units dest s).charCount =
        if (units.takeWhile fun unit => ¬Blank unit).length < units.length then
          min s.charCount (dest+(units.takeWhile fun unit => ¬Blank unit).length)
        else s.charCount := by
  induction units generalizing dest s with
  | nil => simpa [placeUnits,splice] using h
  | cons unit units ih =>
    rw [List.length_cons] at hdest
    have hroom : ¬dest ≥ maxLfnChars := Nat.not_le_of_lt (by omega : dest < 260)
    by_cases hblank : Blank unit
    · rw [placeUnits_blank unit hblank units dest (by omega)] at h ⊢
      obtain ⟨hv,hall,hchars,hcount⟩ := ih (dest+1) _ (by simpa using hlen) (by omega) h
      refine ⟨hv,List.forall_mem_cons.mpr ⟨Or.inl hblank,hall⟩,?_,?_⟩
      · rw [hchars,List.map_cons]
        simp only [slotByte,if_pos hblank]
        exact splice_cons s.chars _ dest 0 (by omega)
      · rw [hcount,List.takeWhile_cons_of_neg (by simpa using hblank)]
        simp only [List.length_nil,List.length_cons]
        split_ifs <;> omega
    · have hother : ¬(unit = 0x0000#16 ∨ unit = 0xFFFF#16) := hblank
      rw [placeUnits,if_neg hroom,if_neg hother] at h ⊢
      by_cases hascii : unit > 0x7F#16
      · rw [if_pos hascii] at h
        cases h
      · rw [if_neg hascii] at h ⊢
        obtain ⟨hv,hall,hchars,hcount⟩ := ih (dest+1) _ (by simpa using hlen) (by omega) h
        refine ⟨hv,List.forall_mem_cons.mpr ⟨Or.inr (BitVec.not_lt.mp hascii),hall⟩,?_,?_⟩
        · rw [hchars,List.map_cons]
          simp only [slotByte,if_neg hblank]
          exact splice_cons s.chars _ dest _ (by omega)
        · rw [hcount,List.takeWhile_cons_of_pos (by simpa using hblank)]
          simp only [List.length_cons]
          split_ifs <;> omega

def seqOf (entry : List UInt8) : ℕ := (entry.getD 0 0&&&0x1F).toNat

theorem absorb_unnumbered (s : LfnAccum) (entry : List UInt8)
    (h : seqOf entry = 0 ∨ seqOf entry > 20) : s.absorb entry = s.reset :=
  if_pos h

theorem absorb_flagged (s : LfnAccum) (entry : List UInt8) (h : 1 ≤ seqOf entry ∧ seqOf entry ≤ 20)
    (hflag : entry.getD 0 0&&&0x40 ≠ 0) :
    s.absorb entry = placeUnits (unitsOf entry) ((seqOf entry-1)*13)
      { s.reset with haveLast := true, valid := true, charCount := seqOf entry*13 } := by
  have hnumber : ¬(seqOf entry = 0 ∨ seqOf entry > 20) := by omega
  exact (if_neg hnumber).trans (if_pos hflag)

theorem absorb_open (s : LfnAccum) (entry : List UInt8) (h : 1 ≤ seqOf entry ∧ seqOf entry ≤ 20)
    (hflag : ¬entry.getD 0 0&&&0x40 ≠ 0) (hlast : s.haveLast = true) :
    s.absorb entry = placeUnits (unitsOf entry) ((seqOf entry-1)*13) s := by
  have hnumber : ¬(seqOf entry = 0 ∨ seqOf entry > 20) := by omega
  exact (if_neg hnumber).trans ((if_neg hflag).trans (if_pos hlast))

theorem absorb_closed (s : LfnAccum) (entry : List UInt8) (h : 1 ≤ seqOf entry ∧ seqOf entry ≤ 20)
    (hflag : ¬entry.getD 0 0&&&0x40 ≠ 0) (hlast : s.haveLast = false) : s.absorb entry = s := by
  have hnumber : ¬(seqOf entry = 0 ∨ seqOf entry > 20) := by omega
  refine (if_neg hnumber).trans ((if_neg hflag).trans (if_neg ?_))
  rw [hlast]
  exact Bool.false_ne_true

/-- What the accumulator knows of the entries behind it: an open name comes from the
entries since the last flag, all of them long-name entries, whatever its buffer held
before them. -/
structure Tracks (before : List (List UInt8)) (s : LfnAccum) : Prop where
  length : s.chars.length = 260
  valid : s.valid = true → s.haveLast = true
  nonempty : s.haveLast = true → 1 ≤ (sinceFlag before).length
  attr : s.haveLast = true → ∀ entry ∈ sinceFlag before, entry.getD 0x0B 0 = attrLfn
  absorbed : s.haveLast = true →
    ∃ old : LfnAccum, old.chars.length = 260 ∧ s = (sinceFlag before).foldl LfnAccum.absorb old

theorem tracks_reset (before : List (List UInt8)) (s : LfnAccum) (h : s.chars.length = 260) :
    Tracks before s.reset :=
  ⟨h,fun hv => (Bool.false_ne_true hv).elim,fun hl => (Bool.false_ne_true hl).elim,
    fun hl => (Bool.false_ne_true hl).elim,fun hl => (Bool.false_ne_true hl).elim⟩

theorem tracks_absorb (before : List (List UInt8)) (s : LfnAccum) (h : Tracks before s)
    (entry : List UInt8) (hdeleted : entry.getD 0 0 ≠ 0xE5) (hattr : entry.getD 0x0B 0 = attrLfn) :
    Tracks (before++[entry]) (s.absorb entry) := by
  by_cases hnumber : 1 ≤ seqOf entry ∧ seqOf entry ≤ 20
  · by_cases hflag : entry.getD 0 0&&&0x40 ≠ 0
    · have hsince : sinceFlag (before++[entry]) = [entry] := by
        rw [sinceFlag_append]
        exact if_pos ⟨hdeleted,hattr,hflag⟩
      have hopen : (s.absorb entry).haveLast = true := by
        rw [absorb_flagged s entry hnumber hflag,placeUnits_haveLast]
      refine ⟨?_,fun _ => hopen,fun _ => by rw [hsince]; exact Nat.le_refl 1,fun _ => ?_,
        fun _ => ⟨s,h.length,?_⟩⟩
      · rw [absorb_flagged s entry hnumber hflag,placeUnits_length]
        exact h.length
      · rw [hsince]
        simpa using hattr
      · rw [hsince]
        rfl
    · have hsince : sinceFlag (before++[entry]) = sinceFlag before++[entry] := by
        rw [sinceFlag_append]
        exact if_neg fun hf => hflag hf.2.2
      cases hlast : s.haveLast with
      | true =>
        have hsame := absorb_open s entry hnumber hflag hlast
        have hopen : (s.absorb entry).haveLast = true := by
          rw [hsame,placeUnits_haveLast,hlast]
        obtain ⟨old,hold,hs⟩ := h.absorbed hlast
        refine ⟨?_,fun _ => hopen,fun _ => by rw [hsince,List.length_append]; simp,fun _ => ?_,
          fun _ => ⟨old,hold,?_⟩⟩
        · rw [hsame,placeUnits_length]
          exact h.length
        · rw [hsince]
          intro e he
          rcases List.mem_append.mp he with he | he
          · exact h.attr hlast e he
          · rw [List.mem_singleton.mp he]
            exact hattr
        · rw [hsince,List.foldl_append,← hs]
          rfl
      | false =>
        rw [absorb_closed s entry hnumber hflag hlast]
        have hclosed : s.haveLast ≠ true := by
          rw [hlast]
          exact Bool.false_ne_true
        exact ⟨h.length,h.valid,fun hl => (hclosed hl).elim,fun hl => (hclosed hl).elim,
          fun hl => (hclosed hl).elim⟩
  · rw [absorb_unnumbered s entry (by omega)]
    exact tracks_reset _ s h.length

theorem scan_tracks (search : List UInt8) (before : List (List UInt8)) (s : LfnAccum)
    (h : scanEntries search before LfnAccum.new = .more s) : Tracks before s := by
  induction before using List.reverseRecOn generalizing s with
  | nil =>
    cases h
    exact tracks_reset [] LfnAccum.new List.length_replicate
  | append_singleton before entry ih =>
    rw [scanEntries_append] at h
    cases hscan : scanEntries search before LfnAccum.new with
    | done result => simp [hscan] at h
    | more t =>
      have ht := ih t hscan
      simp only [hscan,scanEntries] at h
      split at h
      · cases h
      split at h
      · cases h
        exact tracks_reset _ t ht.length
      split at h
      · next hdeleted hattr =>
        cases h
        exact tracks_absorb before t ht entry hdeleted hattr
      split at h
      · cases h
      · cases h
        exact tracks_reset _ t ht.length

/-- After the segments above `k` of `n`: their units, from the first to the first blank,
are in the buffer at their place and give the count. -/
structure HoldsFrom (n k : ℕ) (units : List (BitVec 16)) (s : LfnAccum) : Prop where
  ascii : ∀ unit ∈ units, Blank unit ∨ unit ≤ 0x7F#16
  count : s.charCount = 13*k+(units.takeWhile fun unit => ¬Blank unit).length
  window : (s.chars.drop (13*k)).take (13*(n-k)) = units.map slotByte

theorem takeWhile_append_length {α : Type} (p : α → Bool) (l m : List α) :
    ((l++m).takeWhile p).length =
      if (l.takeWhile p).length < l.length then (l.takeWhile p).length
      else l.length+(m.takeWhile p).length := by
  rw [List.takeWhile_append]
  have hle := (List.takeWhile_prefix (l := l) p).length_le
  by_cases h : (l.takeWhile p).length = l.length
  · rw [if_pos h,if_neg (by omega),List.length_append]
  · rw [if_neg h,if_pos (by omega)]

theorem unitsOf_length (entry : List UInt8) : (unitsOf entry).length = 13 := List.length_map _

theorem holdsFrom_place (n k : ℕ) (hk : k < n) (hn : n ≤ 20) (units more : List (BitVec 16))
    (hmore : more.length = 13) (s : LfnAccum) (hlen : s.chars.length = 260)
    (hs : s.valid = true → HoldsFrom n (k+1) units s)
    (hvalid : (placeUnits more (k*13) s).valid = true) :
    HoldsFrom n k (more++units) (placeUnits more (k*13) s) := by
  obtain ⟨hv,hascii,hchars,hcount⟩ := placeUnits_valid more (k*13) s hlen (by omega) hvalid
  have hold := hs hv
  have hmap : (more.map slotByte).length = 13 := by rw [List.length_map,hmore]
  refine ⟨fun unit hu => ?_,?_,?_⟩
  · rcases List.mem_append.mp hu with hu | hu
    · exact hascii unit hu
    · exact hold.ascii unit hu
  · rw [hcount,hold.count,takeWhile_append_length]
    split_ifs <;> omega
  · rw [hchars,List.map_append,← hold.window]
    have htwo : 13*(n-k) = 13+13*(n-(k+1)) := by omega
    have hread := splice_read s.chars (more.map slotByte) (k*13) (by omega)
    have hbehind := splice_window_behind s.chars (more.map slotByte) (k*13) (by omega)
      (13*(k+1)) (13*(n-(k+1))) (by omega)
    rw [htwo,Nat.mul_comm 13 k,List.take_add,List.drop_drop]
    rw [hmap] at hread
    rw [hread,show k*13+13 = 13*(k+1) by omega,hbehind]

theorem foldl_holds (n k : ℕ) (hk : k ≤ n) (hn : n ≤ 20) (entries : List (List UInt8))
    (hnumbers : entries.map (fun entry => entry.getD 0 0) = (descending k).map UInt8.ofNat)
    (units : List (BitVec 16)) (s : LfnAccum) (hlen : s.chars.length = 260)
    (hlast : s.haveLast = true) (hs : s.valid = true → HoldsFrom n k units s)
    (hvalid : (entries.foldl LfnAccum.absorb s).valid = true) :
    HoldsFrom n 0 (entries.reverse.flatMap unitsOf++units)
      (entries.foldl LfnAccum.absorb s) := by
  induction k generalizing entries units s with
  | zero =>
    obtain rfl : entries = [] := List.map_eq_nil_iff.mp hnumbers
    exact hs hvalid
  | succ k ih =>
    cases entries with
    | nil => cases hnumbers
    | cons entry rest =>
      obtain ⟨hfirst,hrest⟩ := List.cons.inj hnumbers
      obtain ⟨hseq,hflag,_⟩ := number_facts (k+1) (by omega) (by omega) false (entry.getD 0 0) hfirst
      have hseq : seqOf entry = k+1 := hseq
      have hopen := absorb_open s entry (by omega) (fun h => by simpa using hflag.mp h) hlast
      rw [hseq,Nat.add_sub_cancel] at hopen
      rw [List.foldl_cons,hopen] at hvalid ⊢
      rw [List.reverse_cons,List.flatMap_append,List.flatMap_singleton,List.append_assoc]
      exact ih (by omega) rest hrest (unitsOf entry++units) _
        (by rw [placeUnits_length]; exact hlen) (by rw [placeUnits_haveLast]; exact hlast)
        (holdsFrom_place n k (by omega) hn units (unitsOf entry) (unitsOf_length entry) s hlen hs)
        hvalid

theorem run_holds (run : List (List UInt8)) (hpos : 1 ≤ run.length) (hshort : run.length ≤ 20)
    (hnumbers : run.map (fun entry => entry.getD 0 0) = runBytes run.length)
    (old : LfnAccum) (hlen : old.chars.length = 260)
    (hvalid : (run.foldl LfnAccum.absorb old).valid = true) :
    HoldsFrom run.length 0 (run.reverse.flatMap unitsOf) (run.foldl LfnAccum.absorb old) := by
  cases run with
  | nil => cases hpos
  | cons entry rest =>
    rw [List.length_cons] at hshort hnumbers ⊢
    obtain ⟨hfirst,hrest⟩ := List.cons.inj hnumbers
    obtain ⟨hseq,hflag,_⟩ :=
      number_facts (rest.length+1) (by omega) (by omega) true (entry.getD 0 0) hfirst
    have hseq : seqOf entry = rest.length+1 := hseq
    have hfirst := absorb_flagged old entry (by omega) (hflag.mpr rfl)
    rw [hseq,Nat.add_sub_cancel] at hfirst
    rw [List.foldl_cons,hfirst] at hvalid ⊢
    rw [List.reverse_cons,List.flatMap_append,List.flatMap_singleton]
    refine foldl_holds (rest.length+1) rest.length (by omega) (by omega) rest hrest (unitsOf entry) _
      (by rw [placeUnits_length]; exact hlen) (by rw [placeUnits_haveLast]) (fun hv => ?_) hvalid
    have hplace := holdsFrom_place (rest.length+1) rest.length (by omega) (by omega) []
      (unitsOf entry) (unitsOf_length entry)
      { old.reset with haveLast := true, valid := true, charCount := (rest.length+1)*13 } hlen
      (fun _ => ⟨by simp,by simp; omega,by simp⟩) hv
    rwa [List.append_nil] at hplace

theorem charUnit_slotByte (unit : BitVec 16) (hblank : ¬Blank unit) (hascii : unit ≤ 0x7F#16) :
    charUnit (slotByte unit) = unit := by
  have hle : unit.toNat ≤ 127 := hascii
  apply BitVec.eq_of_toNat_eq
  rw [charUnit_toNat,slotByte,if_neg hblank]
  show (unit.setWidth 8).toNat = unit.toNat
  rw [BitVec.toNat_setWidth]
  omega

theorem units_length (run : List (List UInt8)) :
    (run.flatMap unitsOf).length = 13*run.length := by
  induction run with
  | nil => rfl
  | cons entry run ih =>
    rw [List.flatMap_cons,List.length_append,ih,unitsOf_length,List.length_cons]
    omega

theorem holdsFrom_name (run : List (List UInt8)) (s : LfnAccum)
    (h : HoldsFrom run.length 0 (run.reverse.flatMap unitsOf) s) :
    (s.chars.take s.charCount).map charUnit = storedUnits run := by
  have hunits := units_length run.reverse
  rw [List.length_reverse] at hunits
  have hfront := List.takeWhile_prefix (l := run.reverse.flatMap unitsOf) (fun unit => ¬Blank unit)
  have hle := hfront.length_le
  have hcount : s.charCount = (storedUnits run).length := by
    rw [h.count,Nat.mul_zero,Nat.zero_add]
    rfl
  have hwindow := h.window
  rw [Nat.mul_zero,List.drop_zero,Nat.sub_zero] at hwindow
  have hchars : s.chars.take s.charCount = (storedUnits run).map slotByte := by
    have hcut : s.charCount ≤ 13*run.length := by
      rw [hcount,← hunits]
      exact hle
    rw [← Nat.min_eq_left hcut,← List.take_take,hwindow,← List.map_take,hcount]
    exact congrArg _ (List.prefix_iff_eq_take.mp hfront).symm
  rw [hchars,List.map_map]
  calc (storedUnits run).map (charUnit∘slotByte)
      = (storedUnits run).map id := by
        refine List.map_congr_left fun unit hunit => ?_
        have hblank : ¬Blank unit := by simpa using List.mem_takeWhile_imp hunit
        rcases h.ascii unit (hfront.subset hunit) with hb | hascii
        · exact (hblank hb).elim
        · exact charUnit_slotByte unit hblank hascii
    _ = storedUnits run := List.map_id _

theorem matchesName_true (s : LfnAccum) (search : List UInt8) (h : s.matchesName search = true) :
    s.valid = true ∧ asciiEqIgnoreCase (s.chars.take s.charCount) search = true := by
  unfold LfnAccum.matchesName at h
  split at h
  · cases h
  · next hopen =>
    split at h
    · cases h
    · refine ⟨?_,h⟩
      cases hv : s.valid with
      | true => rfl
      | false => exact (hopen (Or.inl hv)).elim

theorem mem_descending (n k : ℕ) (h : k ∈ descending n) : 1 ≤ k ∧ k ≤ n := by
  induction n with
  | zero => cases h
  | succ n ih =>
    rcases List.mem_cons.mp h with rfl | h
    · omega
    · have := ih h
      omega

theorem sinceFlag_run (earlier run : List (List UInt8)) (h : CompleteRun run) :
    sinceFlag (earlier++run) = run := by
  have hgo : ∀ (tail start : List (List UInt8)), (∀ entry ∈ tail, ¬IsFlag entry) →
      tail.foldl (fun run entry => if IsFlag entry then [entry] else run++[entry]) start =
        start++tail := by
    intro tail
    induction tail with
    | nil => exact fun start _ => (List.append_nil start).symm
    | cons entry tail ih =>
      intro start htail
      rw [List.foldl_cons,if_neg (htail entry List.mem_cons_self),
        ih _ (fun e he => htail e (List.mem_cons_of_mem entry he)),List.append_assoc]
      rfl
  cases run with
  | nil => cases h.nonempty
  | cons entry rest =>
    have hshort := h.short
    rw [List.length_cons] at hshort
    obtain ⟨hfirst,hrest⟩ := List.cons.inj h.numbers
    obtain ⟨_,hflag,_,hdeleted⟩ :=
      number_facts (rest.length+1) (by omega) (by omega) true (entry.getD 0 0) hfirst
    have hhead : IsFlag entry := ⟨hdeleted,h.attr entry List.mem_cons_self,hflag.mpr rfl⟩
    have htail : ∀ e ∈ rest, ¬IsFlag e := by
      intro e he hf
      have hmem : e.getD 0 0 ∈ (descending rest.length).map UInt8.ofNat := by
        rw [← hrest]
        exact List.mem_map_of_mem he
      obtain ⟨k,hk,hek⟩ := List.mem_map.mp hmem
      have hrange := mem_descending rest.length k hk
      obtain ⟨_,hno,_⟩ := number_facts k hrange.1 (by omega) false (e.getD 0 0) hek.symm
      exact Bool.false_ne_true (hno.mp hf.2.2)
    rw [sinceFlag,List.foldl_append,List.foldl_cons,if_pos hhead,hgo rest [entry] htail]
    rfl

/-- An entry accepted for its long name has a complete run right before it that stores
the name, exactly when the entries since the last flag are numbered down to one. -/
theorem acceptsLong_complete_iff (search : List UInt8) (before : List (List UInt8))
    (entry : List UInt8) (h : AcceptsLong search before entry) :
    (∃ earlier run name, before = earlier++run ∧ CompleteRun run ∧
      name.map charUnit = storedUnits run ∧ asciiEqIgnoreCase name search = true) ↔
    (sinceFlag before).length ≤ 20 ∧
      (sinceFlag before).map (fun entry => entry.getD 0 0) =
        runBytes (sinceFlag before).length := by
  constructor
  · rintro ⟨earlier,run,name,rfl,hrun,-⟩
    rw [sinceFlag_run earlier run hrun]
    exact ⟨hrun.short,hrun.numbers⟩
  · rintro ⟨hshort,hnumbers⟩
    obtain ⟨s,hscan,-,-,-,hmatch⟩ := h
    have htracks := scan_tracks search before s hscan
    obtain ⟨hvalid,hname⟩ := matchesName_true s search hmatch
    have hlast := htracks.valid hvalid
    obtain ⟨old,hold,hs⟩ := htracks.absorbed hlast
    obtain ⟨earlier,hsplit⟩ := sinceFlag_suffix before
    have hholds := run_holds (sinceFlag before) (htracks.nonempty hlast) hshort hnumbers old hold
      (by rw [← hs]; exact hvalid)
    rw [← hs] at hholds
    refine ⟨earlier,sinceFlag before,s.chars.take s.charCount,hsplit,
      ⟨htracks.nonempty hlast,hshort,htracks.attr hlast,hnumbers⟩,?_,hname⟩
    exact holdsFrom_name (sinceFlag before) s hholds

theorem scan_segments (search : List UInt8) (entries : List (List UInt8))
    (h : ∀ entry ∈ entries, entry.getD 0 0 ≠ 0x00 ∧ entry.getD 0 0 ≠ 0xE5 ∧
      entry.getD 0x0B 0 = attrLfn) (s : LfnAccum) :
    scanEntries search entries s = .more (entries.foldl LfnAccum.absorb s) := by
  induction entries generalizing s with
  | nil => rfl
  | cons entry entries ih =>
    obtain ⟨hzero,hdeleted,hattr⟩ := h entry List.mem_cons_self
    rw [scanEntries,if_neg hzero,if_neg hdeleted,if_pos hattr,
      ih (fun e he => h e (List.mem_cons_of_mem entry he))]
    rfl

def orderedSegments : List (List UInt8) := longBytes (asciiBytes "kernel-stable.img")

/-- The one segment of a name, and the second segment of another without its first. -/
def orphanSegments : List (List UInt8) :=
  longBytes (asciiBytes "kernel-stable")++
    [segmentBytes 0x42 (segmentUnits (asciiBytes "kernel-stable.img") 2)]

def otherEntry : List UInt8 := asciiBytes "OTHER   BIN"++0x20::List.replicate 20 0

theorem segments_accepted (before : List (List UInt8))
    (h : before = orderedSegments ∨ before = orphanSegments) :
    AcceptsLong (asciiBytes "kernel-stable.img") before otherEntry := by
  have hlong : ∀ entry ∈ before, entry.getD 0 0 ≠ 0x00 ∧ entry.getD 0 0 ≠ 0xE5 ∧
      entry.getD 0x0B 0 = attrLfn := by
    rcases h with rfl | rfl <;> decide +kernel
  refine ⟨_,scan_segments _ before hlong LfnAccum.new,by decide,by decide,by decide,?_⟩
  rcases h with rfl | rfl <;> decide +kernel

theorem acceptsLong_complete_ordered :
    ∃ earlier run name, orderedSegments = earlier++run ∧ CompleteRun run ∧
      name.map charUnit = storedUnits run ∧
      asciiEqIgnoreCase name (asciiBytes "kernel-stable.img") = true :=
  (acceptsLong_complete_iff _ orderedSegments otherEntry
    (segments_accepted _ (Or.inl rfl))).mpr ⟨by decide +kernel,by decide +kernel⟩

/-- The name of an entry with one orphaned segment is completed from the entry before. -/
theorem orphan_accepted :
    AcceptsLong (asciiBytes "kernel-stable.img") orphanSegments otherEntry ∧
    ¬∃ earlier run, orphanSegments = earlier++run ∧ CompleteRun run := by
  refine ⟨segments_accepted _ (Or.inr rfl),?_⟩
  rintro ⟨earlier,run,hsplit,hrun⟩
  have hsame := sinceFlag_run earlier run hrun
  rw [← hsplit] at hsame
  have hnumbers := hrun.numbers
  rw [← hsame] at hnumbers
  revert hnumbers
  decide +kernel

end Zamak.LongNameRuns
