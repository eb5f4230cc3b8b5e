import Zamak.TagStreams
import Mathlib.Logic.Function.Iterate

/-! # Compressed streams in their wrappers

A raw deflate stream is carried in a gzip member, between a header with optional fields
and a trailer with checksum and length, or in a zlib stream, between two header bytes and
another checksum. What a raw stream stands for is given by a function; the wrappers are
spelled out. -/

set_option autoImplicit false

namespace Zamak.GzipMembers
open Zamak.TagStreams

abbrev Inflate := List UInt8 → Option (List UInt8)

def crcStep (c : UInt32) : UInt32 := if c &&& 1 = 1 then (c >>> 1) ^^^ 0xEDB88320 else c >>> 1

def crcByte (c : UInt32) (b : UInt8) : UInt32 := crcStep^[8] (c ^^^ b.toUInt32)

def crc32 (bytes : List UInt8) : UInt32 := bytes.foldl crcByte 0xFFFFFFFF ^^^ 0xFFFFFFFF

def adlerByte (sums : ℕ × ℕ) (b : UInt8) : ℕ × ℕ :=
  let low := (sums.1+b.toNat)%65521
  (low,(sums.2+low)%65521)

def adler32 (bytes : List UInt8) : ℕ :=
  let sums := bytes.foldl adlerByte (1,0)
  sums.2*65536+sums.1

def bigEndian (n : ℕ) : List UInt8 := (natBytes 4 n).reverse

/-- The two header bytes: deflate in a window of at most 32 KiB, the check bits right,
and no preset dictionary. -/
def ZlibHeader (cmf flg : UInt8) : Prop :=
  cmf.toNat%16 = 8 ∧ cmf.toNat/16 ≤ 7 ∧ (256*cmf.toNat+flg.toNat)%31 = 0 ∧ flg.toNat/32%2 = 0

instance (cmf flg : UInt8) : Decidable (ZlibHeader cmf flg) :=
  inferInstanceAs (Decidable (_ ∧ _))

def IsZlib (inflate : Inflate) (data content : List UInt8) : Prop :=
  ∃ cmf flg body, data = cmf::flg::(body++bigEndian (adler32 content)) ∧ ZlibHeader cmf flg ∧
    inflate body = some content

def zlibDecode (inflate : Inflate) : List UInt8 → Option (List UInt8)
  | cmf::flg::rest =>
    if ZlibHeader cmf flg ∧ 4 ≤ rest.length then
      (inflate (rest.take (rest.length-4))).bind fun content =>
        if rest.drop (rest.length-4) = bigEndian (adler32 content) then some content else none
    else none
  | _ => none

theorem bigEndian_length (n : ℕ) : (bigEndian n).length = 4 := by
  rw [bigEndian,List.length_reverse,natBytes_length]

theorem zlibDecode_iff (inflate : Inflate) (data content : List UInt8) :
    zlibDecode inflate data = some content ↔ IsZlib inflate data content := by
  constructor
  · intro h
    cases data with
    | nil => cases h
    | cons cmf data =>
      cases data with
      | nil => cases h
      | cons flg rest =>
        rw [zlibDecode] at h
        split at h
        · rename_i hheader
          obtain ⟨found,hinflate,hcheck⟩ := Option.bind_eq_some_iff.mp h
          split at hcheck
          · rename_i hsum
            cases hcheck
            refine ⟨cmf,flg,rest.take (rest.length-4),?_,hheader.1,hinflate⟩
            rw [← hsum,List.take_append_drop]
          · cases hcheck
        · cases h
  · rintro ⟨cmf,flg,body,rfl,hheader,hinflate⟩
    have hlen : (body++bigEndian (adler32 content)).length-4 = body.length := by
      rw [List.length_append,bigEndian_length,Nat.add_sub_cancel]
    have hfour : 4 ≤ (body++bigEndian (adler32 content)).length := by
      rw [List.length_append,bigEndian_length]
      exact Nat.le_add_left _ _
    rw [zlibDecode,if_pos ⟨hheader,hfour⟩,hlen,List.take_left,hinflate,Option.bind_some,
      List.drop_left,if_pos rfl]

/-- The flag bits, from the lowest: text, header checksum, extra field, name, comment. -/
def flagByte (text headerCrc extra name comment : Bool) : UInt8 :=
  text.toUInt8+2*headerCrc.toUInt8+4*extra.toUInt8+8*name.toUInt8+16*comment.toUInt8

structure Member (inflate : Inflate) (content : List UInt8) where
  text : Bool
  mtime : List UInt8
  xfl : UInt8
  os : UInt8
  extra : Option (List UInt8)
  name : Option (List UInt8)
  comment : Option (List UInt8)
  headerCrc : Bool
  body : List UInt8
  mtime_length : mtime.length = 4
  extra_length : ∀ e ∈ extra, e.length < 2^16
  name_nul : ∀ s ∈ name, 0 ∉ s
  comment_nul : ∀ s ∈ comment, 0 ∉ s
  encodes : inflate body = some content

def extraField : Option (List UInt8) → List UInt8
  | none => []
  | some e => natBytes 2 e.length++e

def textField : Option (List UInt8) → List UInt8
  | none => []
  | some s => s++[0]

def trailer (content : List UInt8) : List UInt8 :=
  natBytes 4 (crc32 content).toNat++natBytes 4 (content.length%2^32)

section Bytes
variable {inflate : Inflate} {content : List UInt8} (m : Member inflate content)

def Member.flags : UInt8 :=
  flagByte m.text m.headerCrc m.extra.isSome m.name.isSome m.comment.isSome

def Member.fixed : List UInt8 := [0x1F,0x8B,8,m.flags]++m.mtime++[m.xfl,m.os]

def Member.fields : List UInt8 :=
  m.fixed++extraField m.extra++textField m.name++textField m.comment

def Member.header : List UInt8 :=
  m.fields++if m.headerCrc then natBytes 2 ((crc32 m.fields).toNat%2^16) else []

def Member.bytes : List UInt8 := m.header++m.body++trailer content

end Bytes

end Zamak.GzipMembers
