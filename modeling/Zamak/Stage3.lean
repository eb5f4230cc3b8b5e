import Zamak.GzipMembers
import Mathlib.Data.List.GetD

/-! # Unpacking stage 3

`skip_gzip_header` walks over the optional fields of a gzip header and comes out at the
raw deflate stream of every member. What follows is then given to a decoder of zlib
streams, which have a header and a checksum of their own. -/

set_option autoImplicit false

namespace Zamak.Stage3
open Zamak.TagStreams Zamak.GzipMembers

def skipExtra (data : List UInt8) (offset : ℕ) : Option ℕ :=
  if data.getD 3 0 &&& (1 : UInt8) <<< 2 ≠ 0 then
    if offset+2 > data.length then none
    else some (offset+(2+bytesNat ((data.drop offset).take 2)))
  else some offset

def skipText (bit : UInt8) (data : List UInt8) (offset : ℕ) : ℕ :=
  if data.getD 3 0 &&& (1 : UInt8) <<< bit ≠ 0 then
    offset+((data.drop offset).takeWhile (· != 0)).length+1
  else offset

def skipGzipHeader (data : List UInt8) : List UInt8 :=
  if data.length < 10 ∨ data.getD 0 0 ≠ 0x1F ∨ data.getD 1 0 ≠ 0x8B then data
  else
    match skipExtra data 10 with
    | none => data
    | some offset =>
      let offset := skipText 4 data (skipText 3 data offset)
      let offset := if data.getD 3 0 &&& (1 : UInt8) <<< 1 ≠ 0 then offset+2 else offset
      if offset ≥ data.length then data else data.drop offset

/-- What `decompress_and_jump` copies to the load address; it halts on `none`. -/
def decompressed (decompressToVecZlib : List UInt8 → Option (List UInt8))
    (compressed : List UInt8) : Option (List UInt8) :=
  decompressToVecZlib (skipGzipHeader compressed)

theorem flagByte_bits (text headerCrc extra name comment : Bool) :
    (flagByte text headerCrc extra name comment &&& (1 : UInt8) <<< 1 ≠ 0 ↔ headerCrc = true) ∧
    (flagByte text headerCrc extra name comment &&& (1 : UInt8) <<< 2 ≠ 0 ↔ extra = true) ∧
    (flagByte text headerCrc extra name comment &&& (1 : UInt8) <<< 3 ≠ 0 ↔ name = true) ∧
    (flagByte text headerCrc extra name comment &&& (1 : UInt8) <<< 4 ≠ 0 ↔ comment = true) := by
  revert text headerCrc extra name comment
  decide

section Fields
variable (data before rest : List UInt8)

theorem skipExtra_field (extra : Option (List UInt8)) (hextra : ∀ e ∈ extra, e.length < 2^16)
    (hflag : data.getD 3 0 &&& (1 : UInt8) <<< 2 ≠ 0 ↔ extra.isSome = true)
    (hdata : data = before++extraField extra++rest) :
    skipExtra data before.length = some (before++extraField extra).length := by
  unfold skipExtra
  cases extra with
  | none =>
    rw [if_neg (fun h => Bool.false_ne_true (hflag.mp h)),extraField,List.append_nil]
  | some e =>
    have hlen : data.length = before.length+(2+e.length)+rest.length := by
      rw [hdata]
      simp only [extraField,List.length_append,natBytes_length]
    have hxlen : (data.drop before.length).take 2 = natBytes 2 e.length := by
      rw [hdata,List.append_assoc,List.drop_left,extraField,List.append_assoc]
      exact List.take_left' (natBytes_length 2 e.length)
    rw [if_pos (hflag.mpr rfl),if_neg (by omega),hxlen,
      bytesNat_natBytes 2 _ (hextra e rfl),extraField]
    simp only [List.length_append,natBytes_length]

theorem skipText_field (bit : UInt8) (text : Option (List UInt8)) (htext : ∀ s ∈ text, 0 ∉ s)
    (hflag : data.getD 3 0 &&& (1 : UInt8) <<< bit ≠ 0 ↔ text.isSome = true)
    (hdata : data = before++textField text++rest) :
    skipText bit data before.length = (before++textField text).length := by
  unfold skipText
  cases text with
  | none =>
    rw [if_neg (fun h => Bool.false_ne_true (hflag.mp h)),textField,List.append_nil]
  | some s =>
    have hscan : (data.drop before.length).takeWhile (· != 0) = s := by
      rw [hdata,List.append_assoc,List.drop_left,textField,List.append_assoc,
        List.takeWhile_append_of_pos]
      · simp
      · intro b hb
        have hne : b ≠ 0 := fun h => htext s rfl (h ▸ hb)
        simpa using hne
    rw [if_pos (hflag.mpr rfl),hscan,textField]
    simp only [List.length_append,List.length_singleton]
    omega

end Fields

section Header
variable {inflate : Inflate} {content : List UInt8} (m : Member inflate content)

theorem fixed_length : m.fixed.length = 10 := by
  have hmtime := m.mtime_length
  simp only [Member.fixed,List.length_append,List.length_cons,List.length_nil,hmtime]

theorem bytes_start (i : ℕ) (hi : i < 4) :
    m.bytes.getD i 0 = [0x1F,0x8B,8,m.flags].getD i 0 := by
  have hcut : ∃ tail, m.bytes = [0x1F,0x8B,8,m.flags]++tail := by
    simp only [Member.bytes,Member.header,Member.fields,Member.fixed,List.append_assoc]
    exact ⟨_,rfl⟩
  obtain ⟨tail,htail⟩ := hcut
  rw [htail,List.getD_append _ _ _ _ hi]

theorem bytes_flags :
    (m.bytes.getD 3 0 &&& (1 : UInt8) <<< 1 ≠ 0 ↔ m.headerCrc = true) ∧
    (m.bytes.getD 3 0 &&& (1 : UInt8) <<< 2 ≠ 0 ↔ m.extra.isSome = true) ∧
    (m.bytes.getD 3 0 &&& (1 : UInt8) <<< 3 ≠ 0 ↔ m.name.isSome = true) ∧
    (m.bytes.getD 3 0 &&& (1 : UInt8) <<< 4 ≠ 0 ↔ m.comment.isSome = true) := by
  have hflags : m.bytes.getD 3 0 = flagByte m.text m.headerCrc m.extra.isSome m.name.isSome
      m.comment.isSome := bytes_start m 3 (by decide)
  rw [hflags]
  exact flagByte_bits m.text m.headerCrc m.extra.isSome m.name.isSome m.comment.isSome

theorem bytes_magic (hlong : 10 ≤ m.bytes.length) :
    ¬(m.bytes.length < 10 ∨ m.bytes.getD 0 0 ≠ 0x1F ∨ m.bytes.getD 1 0 ≠ 0x8B) := by
  rw [bytes_start m 0 (by decide),bytes_start m 1 (by decide)]
  rintro (hshort | hfirst | hsecond)
  · omega
  · exact hfirst rfl
  · exact hsecond rfl

theorem skip_fields :
    (skipExtra m.bytes 10).map (fun offset => skipText 4 m.bytes (skipText 3 m.bytes offset)) =
      some m.fields.length := by
  have ⟨_,hextra,hname,hcomment⟩ := bytes_flags m
  have hoffset1 : skipExtra m.bytes 10 = some (m.fixed++extraField m.extra).length := by
    rw [← fixed_length m]
    apply skipExtra_field m.bytes m.fixed _ m.extra m.extra_length hextra
    simp only [Member.bytes,Member.header,Member.fields,List.append_assoc]
    rfl
  have hoffset2 : skipText 3 m.bytes (m.fixed++extraField m.extra).length =
      (m.fixed++extraField m.extra++textField m.name).length := by
    apply skipText_field m.bytes _ _ 3 m.name m.name_nul hname
    simp only [Member.bytes,Member.header,Member.fields,List.append_assoc]
    rfl
  have hoffset3 : skipText 4 m.bytes (m.fixed++extraField m.extra++textField m.name).length =
      m.fields.length := by
    apply skipText_field m.bytes _ _ 4 m.comment m.comment_nul hcomment
    simp only [Member.bytes,Member.header,Member.fields,List.append_assoc]
    rfl
  rw [hoffset1,Option.map_some,hoffset2,hoffset3]

theorem skip_headerCrc :
    (if m.bytes.getD 3 0 &&& (1 : UInt8) <<< 1 ≠ 0 then m.fields.length+2
      else m.fields.length) = m.header.length := by
  have hcrc := (bytes_flags m).1
  rw [Member.header,List.length_append]
  by_cases hset : m.headerCrc = true
  · rw [if_pos (hcrc.mpr hset),if_pos hset,natBytes_length]
  · rw [if_neg (fun h => hset (hcrc.mp h)),if_neg hset]
    rfl

theorem skipGzipHeader_member : skipGzipHeader m.bytes = m.body++trailer content := by
  have htotal : m.bytes.length = m.header.length+m.body.length+8 := by
    simp only [Member.bytes,trailer,List.length_append,natBytes_length]
  have hheader : 10 ≤ m.header.length := by
    simp only [Member.header,Member.fields,List.length_append,fixed_length m]
    omega
  obtain ⟨offset,hextra,hfields⟩ := Option.map_eq_some_iff.mp (skip_fields m)
  rw [skipGzipHeader,if_neg (bytes_magic m (by omega)),hextra]
  simp only [hfields,skip_headerCrc m]
  rw [if_neg (by omega),Member.bytes,List.append_assoc,List.drop_left]

end Header

/-- With a decoder of exactly the zlib streams, a member's content comes out if and only
if its raw stream and its trailer happen to be a zlib stream of the content. -/
theorem decompressed_iff (inflate : Inflate)
    (decompressToVecZlib : List UInt8 → Option (List UInt8))
    (hdecoder : ∀ data content,
      decompressToVecZlib data = some content ↔ IsZlib inflate data content)
    (content : List UInt8) (m : Member inflate content) :
    decompressed decompressToVecZlib m.bytes = some content ↔
      IsZlib inflate (m.body++trailer content) content := by
  rw [decompressed,skipGzipHeader_member,hdecoder]

def inflateStored : Inflate
  | header::rest =>
    if header = 1 ∧ 4 ≤ rest.length ∧
        bytesNat (rest.take 2)+bytesNat ((rest.drop 2).take 2) = 0xFFFF ∧
        bytesNat (rest.take 2) = (rest.drop 4).length then some (rest.drop 4)
    else none
  | [] => none

def letterMember : Member inflateStored [0x41] where
  text := false
  mtime := [0,0,0,0]
  xfl := 0
  os := 3
  extra := none
  name := some [0x61]
  comment := none
  headerCrc := false
  body := [1,1,0,0xFE,0xFF,0x41]
  mtime_length := rfl
  extra_length := by simp
  name_nul := by decide
  comment_nul := by simp
  encodes := by decide

theorem decompressed_letter :
    decompressed (zlibDecode inflateStored) letterMember.bytes = some [0x41] ↔
      IsZlib inflateStored [1,1,0,0xFE,0xFF,0x41,0x8B,0x9E,0xD9,0xD3,1,0,0,0] [0x41] :=
  decompressed_iff inflateStored (zlibDecode inflateStored) (zlibDecode_iff inflateStored) [0x41]
    letterMember

/-- The gzip member of the letter is not decompressed. -/
theorem letter_halts :
    (∀ data content,
      zlibDecode inflateStored data = some content ↔ IsZlib inflateStored data content) ∧
    decompressed (zlibDecode inflateStored) letterMember.bytes = none :=
  ⟨zlibDecode_iff inflateStored,by decide +kernel⟩

end Zamak.Stage3
