import Zamak.Stage3

/-! # Skipping a gzip header

`skip_gzip_header` with every index checked; `none` is an index out of bounds. It comes
back from every byte string with a suffix of it, and from a header with any optional
fields and flag bits, followed by something, with what follows. -/

set_option autoImplicit false

namespace Zamak.GzipHeader
open Zamak.TagStreams Zamak.GzipMembers Zamak.Stage3

/-- The length and the two magic bytes, tested from left to right. -/
def isGzip (data : List UInt8) : Option Bool :=
  if data.length < 10 then some false
  else do
    let first ← data[0]?
    if first ≠ 0x1F then some false
    else
      let second ← data[1]?
      some (second == 0x8B)

/-- The extra field: `some none` where the whole data is returned because the length of
the field is cut off. -/
def skipExtraChecked (data : List UInt8) (flags : UInt8) (offset : ℕ) : Option (Option ℕ) :=
  if flags &&& (1 : UInt8) <<< 2 ≠ 0 then
    if offset+2 > data.length then some none
    else do
      let low ← data[offset]?
      let high ← data[offset+1]?
      some (some (offset+(2+bytesNat [low,high])))
  else some (some offset)

def findNul (data : List UInt8) (offset : ℕ) : Option ℕ :=
  if offset < data.length then
    match data[offset]? with
    | none => none
    | some b => if b ≠ 0 then findNul data (offset+1) else some offset
  else some offset
termination_by data.length-offset
decreasing_by omega

def skipTextChecked (bit : UInt8) (data : List UInt8) (flags : UInt8) (offset : ℕ) : Option ℕ :=
  if flags &&& (1 : UInt8) <<< bit ≠ 0 then (findNul data offset).map (·+1) else some offset

def sliceFrom (data : List UInt8) (offset : ℕ) : Option (List UInt8) :=
  if offset ≤ data.length then some (data.drop offset) else none

def skipRest (data : List UInt8) (flags : UInt8) (offset : ℕ) : Option (List UInt8) := do
  let named ← skipTextChecked 3 data flags offset
  let commented ← skipTextChecked 4 data flags named
  let checked := if flags &&& (1 : UInt8) <<< 1 ≠ 0 then commented+2 else commented
  if checked ≥ data.length then some data else sliceFrom data checked

def skipGzipHeaderChecked (data : List UInt8) : Option (List UInt8) := do
  let gzip ← isGzip data
  if gzip = false then some data
  else
    let flags ← data[3]?
    let extra ← skipExtraChecked data flags 10
    match extra with
    | none => some data
    | some offset => skipRest data flags offset

section Checked
variable (data : List UInt8)

theorem getElem?_getD {i : ℕ} (h : i < data.length) : data[i]? = some (data.getD i 0) := by
  rw [List.getElem?_eq_getElem h,List.getD_eq_getElem _ _ h]

theorem isGzip_eq : isGzip data =
    some (!decide (data.length < 10 ∨ data.getD 0 0 ≠ 0x1F ∨ data.getD 1 0 ≠ 0x8B)) := by
  rw [isGzip]
  by_cases hshort : data.length < 10
  · rw [if_pos hshort,decide_eq_true (Or.inl hshort)]
    rfl
  · rw [if_neg hshort,getElem?_getD data (by omega),getElem?_getD data (by omega)]
    generalize data.getD 0 0 = first
    generalize data.getD 1 0 = second
    by_cases hfirst : first = 0x1F <;> by_cases hsecond : second = 0x8B <;>
      simp [hshort,hfirst,hsecond]

theorem skipExtraChecked_eq (offset : ℕ) :
    skipExtraChecked data (data.getD 3 0) offset = some (skipExtra data offset) := by
  rw [skipExtraChecked,skipExtra]
  by_cases hflag : data.getD 3 0 &&& (1 : UInt8) <<< 2 ≠ 0
  · rw [if_pos hflag,if_pos hflag]
    by_cases hcut : offset+2 > data.length
    · rw [if_pos hcut,if_pos hcut]
    · have htwo : (data.drop offset).take 2 = [data.getD offset 0,data.getD (offset+1) 0] := by
        rw [List.drop_eq_getElem_cons (by omega),List.take_succ_cons,
          List.drop_eq_getElem_cons (by omega),List.take_succ_cons,List.take_zero,
          List.getD_eq_getElem _ _ (by omega),List.getD_eq_getElem _ _ (by omega)]
      rw [if_neg hcut,if_neg hcut,getElem?_getD data (by omega),getElem?_getD data (by omega),htwo]
      rfl
  · rw [if_neg hflag,if_neg hflag]

theorem findNul_eq (offset : ℕ) :
    findNul data offset = some (offset+((data.drop offset).takeWhile (· != 0)).length) := by
  induction offset using findNul.induct data with
  | case1 offset hin hnone =>
    rw [List.getElem?_eq_getElem hin] at hnone
    cases hnone
  | case2 offset hin b hb hne ih =>
    have hget : data[offset] = b := by
      rw [List.getElem?_eq_getElem hin] at hb
      exact Option.some.inj hb
    rw [findNul,if_pos hin,hb]
    simp only [if_pos hne]
    rw [ih,List.drop_eq_getElem_cons hin,hget,List.takeWhile_cons_of_pos (by simpa using hne),
      List.length_cons,Nat.add_right_comm,Nat.add_assoc]
  | case3 offset hin b hb hzero =>
    have hget : data[offset] = b := by
      rw [List.getElem?_eq_getElem hin] at hb
      exact Option.some.inj hb
    rw [findNul,if_pos hin,hb]
    simp only [if_neg hzero]
    rw [List.drop_eq_getElem_cons hin,hget,List.takeWhile_cons_of_neg (by simpa using hzero)]
    rfl
  | case4 offset hout =>
    rw [findNul,if_neg hout,List.drop_of_length_le (Nat.le_of_not_lt hout)]
    rfl

theorem skipTextChecked_eq (bit : UInt8) (offset : ℕ) :
    skipTextChecked bit data (data.getD 3 0) offset = some (skipText bit data offset) := by
  rw [skipTextChecked,skipText]
  by_cases hflag : data.getD 3 0 &&& (1 : UInt8) <<< bit ≠ 0
  · rw [if_pos hflag,if_pos hflag,findNul_eq]
    rfl
  · rw [if_neg hflag,if_neg hflag]

theorem skipGzipHeaderChecked_eq : skipGzipHeaderChecked data = some (skipGzipHeader data) := by
  rw [skipGzipHeaderChecked,isGzip_eq,skipGzipHeader]
  by_cases hplain : data.length < 10 ∨ data.getD 0 0 ≠ 0x1F ∨ data.getD 1 0 ≠ 0x8B
  · rw [if_pos hplain,decide_eq_true hplain]
    rfl
  · have hlong : 10 ≤ data.length := Nat.le_of_not_lt fun h => hplain (Or.inl h)
    rw [if_neg hplain,decide_eq_false hplain,getElem?_getD data (by omega)]
    simp only [Option.bind_eq_bind,Option.bind_some,Bool.not_false,Bool.true_eq_false,if_false,
      skipExtraChecked_eq]
    cases skipExtra data 10 with
    | none => rfl
    | some offset =>
      simp only [skipRest,skipTextChecked_eq,Option.bind_eq_bind,Option.bind_some]
      generalize (if data.getD 3 0 &&& (1 : UInt8) <<< 1 ≠ 0 then
        skipText 4 data (skipText 3 data offset)+2
        else skipText 4 data (skipText 3 data offset)) = behind
      by_cases hend : behind ≥ data.length
      · rw [if_pos hend,if_pos hend]
      · rw [if_neg hend,if_neg hend,sliceFrom,if_pos (by omega)]

theorem skipGzipHeader_suffix : skipGzipHeader data <:+ data := by
  rw [skipGzipHeader]
  by_cases hplain : data.length < 10 ∨ data.getD 0 0 ≠ 0x1F ∨ data.getD 1 0 ≠ 0x8B
  · rewrite [if_pos hplain]
    exact List.suffix_rfl
  · rw [if_neg hplain]
    cases skipExtra data 10 with
    | none => exact List.suffix_rfl
    | some offset =>
      dsimp only
      generalize (if data.getD 3 0 &&& (1 : UInt8) <<< 1 ≠ 0 then
        skipText 4 data (skipText 3 data offset)+2
        else skipText 4 data (skipText 3 data offset)) = behind
      by_cases hend : behind ≥ data.length
      · rewrite [if_pos hend]
        exact List.suffix_rfl
      · rw [if_neg hend]
        exact List.drop_suffix _ _

end Checked

/-- A gzip header: any method, flag bits, time, extra flags and system, and the optional
fields that the flags announce. -/
structure Header where
  method : UInt8
  flags : UInt8
  mtime : List UInt8
  xfl : UInt8
  os : UInt8
  extra : Option (List UInt8)
  name : Option (List UInt8)
  comment : Option (List UInt8)
  crc : Option (List UInt8)
  mtime_length : mtime.length = 4
  extra_length : ∀ e ∈ extra, e.length < 2^16
  name_nul : ∀ s ∈ name, 0 ∉ s
  comment_nul : ∀ s ∈ comment, 0 ∉ s
  crc_length : ∀ c ∈ crc, c.length = 2
  announced_crc : flags &&& (1 : UInt8) <<< 1 ≠ 0 ↔ crc.isSome = true
  announced_extra : flags &&& (1 : UInt8) <<< 2 ≠ 0 ↔ extra.isSome = true
  announced_name : flags &&& (1 : UInt8) <<< 3 ≠ 0 ↔ name.isSome = true
  announced_comment : flags &&& (1 : UInt8) <<< 4 ≠ 0 ↔ comment.isSome = true

section Bytes
variable (header : Header) (payload : List UInt8)

def Header.fixed : List UInt8 :=
  [0x1F,0x8B,header.method,header.flags]++header.mtime++[header.xfl,header.os]

def Header.fields : List UInt8 :=
  header.fixed++extraField header.extra++textField header.name++textField header.comment

def Header.bytes : List UInt8 := header.fields++header.crc.getD []

theorem fixed_length : header.fixed.length = 10 := by
  rw [Header.fixed,List.length_append,List.length_append,header.mtime_length]
  rfl

theorem bytes_start (i : ℕ) (hi : i < 4) : (header.bytes++payload).getD i 0 =
    [0x1F,0x8B,header.method,header.flags].getD i 0 := by
  have hcut : ∃ tail, header.bytes++payload = [0x1F,0x8B,header.method,header.flags]++tail := by
    simp only [Header.bytes,Header.fields,Header.fixed,List.append_assoc]
    exact ⟨_,rfl⟩
  obtain ⟨tail,htail⟩ := hcut
  rw [htail,List.getD_append _ _ _ _ hi]

theorem bytes_flags : (header.bytes++payload).getD 3 0 = header.flags :=
  bytes_start header payload 3 (by decide)

theorem skip_fields : (skipExtra (header.bytes++payload) 10).map (fun offset =>
    skipText 4 (header.bytes++payload) (skipText 3 (header.bytes++payload) offset)) =
      some header.fields.length := by
  have hflags := bytes_flags header payload
  have hextra : skipExtra (header.bytes++payload) 10 =
      some (header.fixed++extraField header.extra).length := by
    rw [← fixed_length header]
    apply skipExtra_field _ header.fixed _ header.extra header.extra_length
    · rw [hflags]
      exact header.announced_extra
    · simp only [Header.bytes,Header.fields,List.append_assoc]
      rfl
  have hname : skipText 3 (header.bytes++payload) (header.fixed++extraField header.extra).length =
      (header.fixed++extraField header.extra++textField header.name).length := by
    apply skipText_field _ _ _ 3 header.name header.name_nul
    · rw [hflags]
      exact header.announced_name
    · simp only [Header.bytes,Header.fields,List.append_assoc]
      rfl
  have hcomment : skipText 4 (header.bytes++payload)
      (header.fixed++extraField header.extra++textField header.name).length =
        header.fields.length := by
    apply skipText_field _ _ _ 4 header.comment header.comment_nul
    · rw [hflags]
      exact header.announced_comment
    · simp only [Header.bytes,Header.fields,List.append_assoc]
      rfl
  rw [hextra,Option.map_some,hname,hcomment]

theorem skip_crc : (if (header.bytes++payload).getD 3 0 &&& (1 : UInt8) <<< 1 ≠ 0 then
    header.fields.length+2 else header.fields.length) = header.bytes.length := by
  have hannounced := header.announced_crc
  have hlength := header.crc_length
  rw [bytes_flags,Header.bytes,List.length_append]
  cases hcrc : header.crc with
  | none =>
    rw [hcrc] at hannounced
    rw [if_neg (fun h => Bool.false_ne_true (hannounced.mp h))]
    rfl
  | some c =>
    rw [hcrc] at hannounced
    rw [if_pos (hannounced.mpr rfl),Option.getD_some,hlength c hcrc]

theorem skipGzipHeader_header (hpayload : payload ≠ []) :
    skipGzipHeader (header.bytes++payload) = payload := by
  have hsome := List.length_pos_of_ne_nil hpayload
  have htotal : (header.bytes++payload).length = header.bytes.length+payload.length :=
    List.length_append
  have hten : 10 ≤ header.bytes.length := by
    simp only [Header.bytes,Header.fields,List.length_append,fixed_length header]
    omega
  have hmagic : ¬((header.bytes++payload).length < 10 ∨ (header.bytes++payload).getD 0 0 ≠ 0x1F ∨
      (header.bytes++payload).getD 1 0 ≠ 0x8B) := by
    rw [bytes_start header payload 0 (by decide),bytes_start header payload 1 (by decide)]
    rintro (hshort | hfirst | hsecond)
    · omega
    · exact hfirst rfl
    · exact hsecond rfl
  obtain ⟨offset,hextra,hfields⟩ := Option.map_eq_some_iff.mp (skip_fields header payload)
  rw [skipGzipHeader,if_neg hmagic,hextra]
  simp only [hfields,skip_crc header payload]
  rw [if_neg (by omega),List.drop_left]

end Bytes

/-- Exactly the payload comes back from behind every header, and a suffix of the bytes from
every byte string. -/
theorem skipGzipHeader_skips :
    (∀ (header : Header) (payload : List UInt8), payload ≠ [] →
      skipGzipHeaderChecked (header.bytes++payload) = some payload) ∧
    ∀ data, ∃ rest, skipGzipHeaderChecked data = some rest ∧ rest <:+ data := by
  constructor
  · intro header payload hpayload
    rw [skipGzipHeaderChecked_eq,skipGzipHeader_header header payload hpayload]
  · intro data
    exact ⟨skipGzipHeader data,skipGzipHeaderChecked_eq data,skipGzipHeader_suffix data⟩

/-- A header with every optional field and the reserved bits set. -/
def fullHeader : Header where
  method := 8
  flags := 0xFE
  mtime := [1,2,3,4]
  xfl := 0
  os := 3
  extra := some [5,6]
  name := some [0x62]
  comment := some []
  crc := some [7,8]
  mtime_length := rfl
  extra_length := by decide
  name_nul := by decide
  comment_nul := by decide
  crc_length := by decide
  announced_crc := by decide
  announced_extra := by decide
  announced_name := by decide
  announced_comment := by decide

theorem skipGzipHeader_full : [9] ≠ ([] : List UInt8) ∧
    skipGzipHeaderChecked (fullHeader.bytes++[9]) = some [9] :=
  ⟨by decide,skipGzipHeader_skips.1 fullHeader [9] (by decide)⟩

end Zamak.GzipHeader
