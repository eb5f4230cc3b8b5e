import Zamak.MaskRounding
import Zamak.RowMajor
import Zamak.TagStreams

/-! # Wallpapers

`wallpaper::parse` turns an uncompressed BMP file into rows of colours, the top row first.
Whatever the width, the depth and the order of the rows in the file, the bitmap holds the
picture that was written. A panic is none, and overflow of a 32-bit product is one where
the build checks for it. -/

set_option autoImplicit false

namespace Zamak.Wallpaper
open Zamak.MaskRounding Zamak.RowMajor Zamak.TagStreams

structure Color where
  r : UInt8
  g : UInt8
  b : UInt8
  deriving DecidableEq

inductive BmpError where
  | truncated
  | invalidSignature
  | unsupportedDib
  | unsupportedBpp
  | unsupportedCompression
  | pixelDataOutOfBounds
  deriving DecidableEq

structure Bitmap where
  width : ℕ
  height : ℕ
  pixels : List Color
  deriving DecidableEq

def asU32 (checks : Bool) (n : ℕ) : Option ℕ :=
  if n < 2^32 then some n else if checks then none else some (n%2^32)

def Bitmap.pixel (checks : Bool) (bitmap : Bitmap) (x y : ℕ) : Option Color :=
  if x ≥ bitmap.width ∨ y ≥ bitmap.height then some { r := 0, g := 0, b := 0 }
  else do
    let row ← asU32 checks (y*bitmap.width)
    let index ← asU32 checks (row+x)
    bitmap.pixels[index]?

def bmpSignature : List UInt8 := [0x42,0x4D]

def i32At (bytes : List UInt8) (offset : ℕ) : ℤ :=
  if numberAt 4 bytes offset < 2^31 then numberAt 4 bytes offset
  else (numberAt 4 bytes offset : ℤ)-2^32

structure Header where
  pixelOffset : ℕ
  width : ℕ
  height : ℕ
  topDown : Bool
  bytesPerPixel : ℕ

def readHeader (bytes : List UInt8) : Except BmpError Header :=
  if bytes.length < 54 then .error .truncated
  else if bytes.take 2 ≠ bmpSignature then .error .invalidSignature
  else if numberAt 4 bytes 14 < 40 then .error .unsupportedDib
  else if numberAt 4 bytes 30 ≠ 0 ∧ ¬(numberAt 4 bytes 30 = 3 ∧ numberAt 2 bytes 28 = 32) then
    .error .unsupportedCompression
  else if numberAt 2 bytes 28 ≠ 24 ∧ numberAt 2 bytes 28 ≠ 32 then .error .unsupportedBpp
  else .ok {
    pixelOffset := numberAt 4 bytes 10
    width := (i32At bytes 18).toNat
    height := (i32At bytes 22).natAbs
    topDown := decide (i32At bytes 22 < 0)
    bytesPerPixel := numberAt 2 bytes 28/8 }

/-- The bytes of a row, padded to a multiple of four by `(n + 3) & !3`. -/
def Header.rowStride (header : Header) : ℕ :=
  (header.width*header.bytesPerPixel+3) &&& (2^64-2^2)

def Header.expected (header : Header) : ℕ :=
  header.pixelOffset+header.rowStride*header.height

def colorAt (bytes : List UInt8) (px : ℕ) : Option Color := do
  let b ← bytes[px]?
  let g ← bytes[px+1]?
  let r ← bytes[px+2]?
  some { r := r, g := g, b := b }

def Header.srcRow (header : Header) (y : ℕ) : ℕ :=
  if header.topDown then y else header.height-1-y

def Header.read (header : Header) (bytes : List UInt8) (x y : ℕ) : Option Color :=
  colorAt bytes (header.pixelOffset+header.srcRow y*header.rowStride+x*header.bytesPerPixel)

def parse (checks : Bool) (bytes : List UInt8) : Option (Except BmpError Bitmap) :=
  match readHeader bytes with
  | .error error => some (.error error)
  | .ok header =>
    if bytes.length < header.expected then some (.error .pixelDataOutOfBounds)
    else do
      let _ ← asU32 checks (header.width*header.height)
      let pixels ← readGrid header.width header.height (header.read bytes)
      some (.ok { width := header.width, height := header.height, pixels := pixels })

structure Picture where
  width : ℕ
  height : ℕ
  color : ℕ → ℕ → Color
  width_pos : 0 < width
  width_lt : width < 2^31
  height_pos : 0 < height
  height_lt : height < 2^31
  size_lt : width*height < 2^32

inductive Depth where
  | bits24
  | bits32
  deriving DecidableEq

def Depth.bytes : Depth → ℕ
  | .bits24 => 3
  | .bits32 => 4

/-- What an encoder is free to choose: depth and row order, the fields and bytes nobody
reads, how long the header is and how far behind it the rows are. -/
structure Encoding where
  depth : Depth
  topDown : Bool
  fileSize : ℕ
  reserved : ℕ
  planes : ℕ
  headerRest : List UInt8
  gap : List UInt8
  unused : ℕ → ℕ → UInt8
  padding : ℕ → ℕ → UInt8
  trailer : List UInt8
  header_ge : 40 ≤ 20+headerRest.length
  offset_lt : 34+headerRest.length+gap.length < 2^32

section Encode
variable (e : Encoding) (p : Picture)

def Encoding.dibSize : ℕ := 20+e.headerRest.length

def Encoding.pixelOffset : ℕ := 34+e.headerRest.length+e.gap.length

def Encoding.heightField : ℕ := if e.topDown then 2^32-p.height else p.height

def Encoding.fields : List (List UInt8) :=
  [bmpSignature,natBytes 4 e.fileSize,natBytes 4 e.reserved,natBytes 4 e.pixelOffset,
    natBytes 4 e.dibSize,natBytes 4 p.width,natBytes 4 (e.heightField p),natBytes 2 e.planes,
    natBytes 2 (8*e.depth.bytes),natBytes 4 0,e.headerRest,e.gap]

def Encoding.header : List UInt8 := (e.fields p).flatten

def Encoding.pixelBytes (x y : ℕ) : List UInt8 :=
  match e.depth with
  | .bits24 => [(p.color x y).b,(p.color x y).g,(p.color x y).r]
  | .bits32 => [(p.color x y).b,(p.color x y).g,(p.color x y).r,e.unused x y]

def Encoding.padLength : ℕ := roundUp 4 (p.width*e.depth.bytes)-p.width*e.depth.bytes

def Encoding.rowBytes (y : ℕ) : List UInt8 :=
  ((List.range p.width).map fun x => e.pixelBytes p x y).flatten++
    (List.range (e.padLength p)).map fun x => e.padding x y

def Encoding.fileRow (y : ℕ) : ℕ := if e.topDown then y else p.height-1-y

def Encoding.rows : List (List UInt8) :=
  (List.range p.height).map fun row => e.rowBytes p (e.fileRow p row)

def encode : List UInt8 := e.header p++(e.rows p).flatten++e.trailer

end Encode

section Rows
variable (e : Encoding) (p : Picture)

theorem header_length : (e.header p).length = e.pixelOffset := by
  simp only [Encoding.header,Encoding.fields,List.flatten_cons,List.flatten_nil,
    List.length_append,natBytes_length,Encoding.pixelOffset,bmpSignature,List.length_cons,
    List.length_nil]
  omega

theorem pixelBytes_length (x y : ℕ) : (e.pixelBytes p x y).length = e.depth.bytes := by
  rw [Encoding.pixelBytes]
  cases e.depth <;> rfl

theorem row_le : p.width*e.depth.bytes ≤ roundUp 4 (p.width*e.depth.bytes) :=
  le_roundUp 4 _ (by decide)

theorem pixels_width (y : ℕ) (row : List UInt8)
    (h : row ∈ (List.range p.width).map fun x => e.pixelBytes p x y) :
    row.length = e.depth.bytes := by
  obtain ⟨x,_,rfl⟩ := List.mem_map.mp h
  exact pixelBytes_length e p x y

theorem pixels_length (y : ℕ) :
    ((List.range p.width).map fun x => e.pixelBytes p x y).flatten.length =
      p.width*e.depth.bytes := by
  rw [flatten_length e.depth.bytes _ (pixels_width e p y),List.length_map,List.length_range]

theorem rowBytes_length (y : ℕ) :
    (e.rowBytes p y).length = roundUp 4 (p.width*e.depth.bytes) := by
  have hle := row_le e p
  rw [Encoding.rowBytes,List.length_append,pixels_length,List.length_map,List.length_range,
    Encoding.padLength]
  omega

theorem rows_width (row : List UInt8) (h : row ∈ e.rows p) :
    row.length = roundUp 4 (p.width*e.depth.bytes) := by
  obtain ⟨y,_,rfl⟩ := List.mem_map.mp h
  exact rowBytes_length e p _

theorem rows_length :
    (e.rows p).flatten.length = p.height*roundUp 4 (p.width*e.depth.bytes) := by
  rw [flatten_length _ _ (rows_width e p),Encoding.rows,List.length_map,List.length_range]

theorem fileRow_lt (y : ℕ) (hy : y < p.height) : e.fileRow p y < p.height := by
  rw [Encoding.fileRow]
  cases e.topDown with
  | true => exact hy
  | false =>
    rw [if_neg Bool.false_ne_true]
    omega

theorem fileRow_fileRow (y : ℕ) (hy : y < p.height) : e.fileRow p (e.fileRow p y) = y := by
  simp only [Encoding.fileRow]
  cases e.topDown with
  | true => rfl
  | false =>
    rw [if_neg Bool.false_ne_true,if_neg Bool.false_ne_true]
    omega

theorem rowBytes_getElem? (x y k : ℕ) (hx : x < p.width) (hk : k < e.depth.bytes) :
    (e.rowBytes p y)[x*e.depth.bytes+k]? = (e.pixelBytes p x y)[k]? := by
  have hin : x*e.depth.bytes+k < p.width*e.depth.bytes := by
    have hnext : (x+1)*e.depth.bytes ≤ p.width*e.depth.bytes := Nat.mul_le_mul_right _ hx
    rw [Nat.succ_mul] at hnext
    omega
  rw [Encoding.rowBytes,List.getElem?_append_left (by rwa [pixels_length]),
    flatten_getElem? e.depth.bytes _ (pixels_width e p y) x k hk,List.getElem?_map,
    List.getElem?_range hx,Option.map_some,Option.bind_some]

/-- The same byte in the file, behind the header and the rows in front of its own. -/
theorem encode_getElem? (x y k : ℕ) (hx : x < p.width) (hy : y < p.height)
    (hk : k < e.depth.bytes) :
    (encode e p)[e.pixelOffset+e.fileRow p y*roundUp 4 (p.width*e.depth.bytes)+
      x*e.depth.bytes+k]? = (e.pixelBytes p x y)[k]? := by
  have hle := row_le e p
  have hrow := fileRow_lt e p y hy
  have hcolumn : x*e.depth.bytes+k < roundUp 4 (p.width*e.depth.bytes) := by
    have hnext : (x+1)*e.depth.bytes ≤ p.width*e.depth.bytes := Nat.mul_le_mul_right _ hx
    rw [Nat.succ_mul] at hnext
    omega
  generalize hstride : roundUp 4 (p.width*e.depth.bytes) = stride at *
  have hin : e.fileRow p y*stride+(x*e.depth.bytes+k) < (e.rows p).flatten.length := by
    have hnext : (e.fileRow p y+1)*stride ≤ p.height*stride := Nat.mul_le_mul_right _ hrow
    rw [Nat.succ_mul] at hnext
    rw [rows_length,hstride]
    omega
  have hplace : e.pixelOffset+e.fileRow p y*stride+x*e.depth.bytes+k =
      (e.header p).length+(e.fileRow p y*stride+(x*e.depth.bytes+k)) := by
    rw [header_length]
    omega
  have hwidth := rows_width e p
  rw [hstride] at hwidth
  rw [hplace,encode,List.append_assoc,List.getElem?_append_right (Nat.le_add_right _ _),
    Nat.add_sub_cancel_left,List.getElem?_append_left hin,
    flatten_getElem? stride _ hwidth _ _ hcolumn,Encoding.rows,List.getElem?_map,
    List.getElem?_range hrow,Option.map_some,Option.bind_some,fileRow_fileRow e p y hy]
  exact rowBytes_getElem? e p x y k hx hk

end Rows

section Fields
variable (e : Encoding) (p : Picture)

def Encoding.asRead : Header where
  pixelOffset := e.pixelOffset
  width := p.width
  height := p.height
  topDown := e.topDown
  bytesPerPixel := e.depth.bytes

theorem numberAt_encode (k n : ℕ) (before after : List (List UInt8))
    (hfields : e.fields p = before++natBytes k n::after) (hn : n < 256^k) :
    numberAt k (encode e p) before.flatten.length = n := by
  rw [encode,Encoding.header,hfields,List.flatten_append,List.flatten_cons,List.append_assoc,
    List.append_assoc,List.append_assoc]
  exact numberAt_append k before.flatten _ n hn

theorem offset_encode : numberAt 4 (encode e p) 10 = e.pixelOffset :=
  numberAt_encode e p 4 e.pixelOffset
    [bmpSignature,natBytes 4 e.fileSize,natBytes 4 e.reserved] _ rfl e.offset_lt

theorem dibSize_encode : numberAt 4 (encode e p) 14 = e.dibSize := by
  have hlt := e.offset_lt
  exact numberAt_encode e p 4 e.dibSize
    [bmpSignature,natBytes 4 e.fileSize,natBytes 4 e.reserved,natBytes 4 e.pixelOffset] _ rfl
    (by rw [Encoding.dibSize]; omega)

theorem width_encode : numberAt 4 (encode e p) 18 = p.width := by
  have hlt := p.width_lt
  exact numberAt_encode e p 4 p.width
    [bmpSignature,natBytes 4 e.fileSize,natBytes 4 e.reserved,natBytes 4 e.pixelOffset,
      natBytes 4 e.dibSize] _ rfl (by omega)

theorem height_encode : numberAt 4 (encode e p) 22 = e.heightField p := by
  have hpos := p.height_pos
  have hlt := p.height_lt
  have hle : e.heightField p < 256^4 := by
    rw [Encoding.heightField]
    split <;> omega
  exact numberAt_encode e p 4 (e.heightField p)
    [bmpSignature,natBytes 4 e.fileSize,natBytes 4 e.reserved,natBytes 4 e.pixelOffset,
      natBytes 4 e.dibSize,natBytes 4 p.width] _ rfl hle

theorem depth_encode : numberAt 2 (encode e p) 28 = 8*e.depth.bytes :=
  numberAt_encode e p 2 (8*e.depth.bytes)
    [bmpSignature,natBytes 4 e.fileSize,natBytes 4 e.reserved,natBytes 4 e.pixelOffset,
      natBytes 4 e.dibSize,natBytes 4 p.width,natBytes 4 (e.heightField p),
      natBytes 2 e.planes] _ rfl (by cases e.depth <;> decide)

theorem compression_encode : numberAt 4 (encode e p) 30 = 0 :=
  numberAt_encode e p 4 0
    [bmpSignature,natBytes 4 e.fileSize,natBytes 4 e.reserved,natBytes 4 e.pixelOffset,
      natBytes 4 e.dibSize,natBytes 4 p.width,natBytes 4 (e.heightField p),
      natBytes 2 e.planes,natBytes 2 (8*e.depth.bytes)] _ rfl (by decide)

theorem i32At_width : i32At (encode e p) 18 = p.width := by
  rw [i32At,width_encode,if_pos p.width_lt]

theorem i32At_height :
    i32At (encode e p) 22 = if e.topDown then -(p.height : ℤ) else p.height := by
  have hpos := p.height_pos
  have hlt := p.height_lt
  rw [i32At,height_encode,Encoding.heightField]
  cases e.topDown with
  | true =>
    rw [if_pos rfl,if_neg (by omega),if_pos rfl]
    omega
  | false => rw [if_neg Bool.false_ne_true,if_pos hlt,if_neg Bool.false_ne_true]

theorem encode_length : (encode e p).length =
    e.pixelOffset+p.height*roundUp 4 (p.width*e.depth.bytes)+e.trailer.length := by
  rw [encode,List.length_append,List.length_append,header_length,rows_length]

theorem readHeader_encode : readHeader (encode e p) = .ok (e.asRead p) := by
  have hheader := e.header_ge
  have hlong : ¬(encode e p).length < 54 := by
    rw [encode_length,Encoding.pixelOffset]
    omega
  have hsignature : (encode e p).take 2 = bmpSignature := rfl
  have hlarge : ¬e.dibSize < 40 := Nat.not_lt.mpr e.header_ge
  have hknown : ¬(8*e.depth.bytes ≠ 24 ∧ 8*e.depth.bytes ≠ 32) := by cases e.depth <;> decide
  have hpos := p.height_pos
  have htop : decide (i32At (encode e p) 22 < 0) = e.topDown := by
    rw [i32At_height]
    cases e.topDown with
    | true => simp [hpos]
    | false => simp
  have hheight : (i32At (encode e p) 22).natAbs = p.height := by
    rw [i32At_height]
    split <;> simp
  rw [readHeader,if_neg hlong,if_neg (not_not_intro hsignature),dibSize_encode,if_neg hlarge,
    compression_encode,if_neg (fun h => h.1 rfl),depth_encode,if_neg hknown,offset_encode,
    htop,hheight,i32At_width,Int.toNat_natCast,Nat.mul_div_cancel_left _ (by decide : 0 < 8)]
  rfl

theorem asRead_stride :
    (e.asRead p).rowStride = roundUp 4 (p.width*e.depth.bytes) := by
  have hwidth := p.width_lt
  have hdepth : e.depth.bytes ≤ 4 := by cases e.depth <;> decide
  have hrow : p.width*e.depth.bytes ≤ p.width*4 := Nat.mul_le_mul_left _ hdepth
  exact and_mask 64 2 _ (by decide) (by show p.width*e.depth.bytes+3 < 2^64; omega)

theorem asRead_expected : ¬(encode e p).length < (e.asRead p).expected := by
  rw [Header.expected,asRead_stride,encode_length,Nat.mul_comm p.height]
  exact Nat.not_lt.mpr (Nat.le_add_right _ _)

theorem read_encode (x y : ℕ) (hx : x < p.width) (hy : y < p.height) :
    (e.asRead p).read (encode e p) x y = some (p.color x y) := by
  have hplace : (e.asRead p).pixelOffset+(e.asRead p).srcRow y*(e.asRead p).rowStride+
      x*(e.asRead p).bytesPerPixel =
      e.pixelOffset+e.fileRow p y*roundUp 4 (p.width*e.depth.bytes)+x*e.depth.bytes := by
    rw [asRead_stride]
    rfl
  have hbyte : ∀ k < 3, (encode e p)[e.pixelOffset+
      e.fileRow p y*roundUp 4 (p.width*e.depth.bytes)+x*e.depth.bytes+k]? =
      (e.pixelBytes p x y)[k]? := by
    intro k hk
    have hdepth : 3 ≤ e.depth.bytes := by cases e.depth <;> decide
    exact encode_getElem? e p x y k hx hy (by omega)
  have hb := hbyte 0 (by decide)
  rw [Nat.add_zero] at hb
  rw [Header.read,hplace,colorAt,hb,hbyte 1 (by decide),hbyte 2 (by decide),Encoding.pixelBytes]
  cases e.depth <;> rfl

end Fields

section RoundTrip
variable (p : Picture)

def Picture.bitmap : Bitmap where
  width := p.width
  height := p.height
  pixels := (gridRows p.width p.height p.color).flatten

theorem asU32_fits (checks : Bool) (n : ℕ) (h : n < 2^32) : asU32 checks n = some n := if_pos h

theorem pixel_bitmap (checks : Bool) (x y : ℕ) (hx : x < p.width) (hy : y < p.height) :
    p.bitmap.pixel checks x y = some (p.color x y) := by
  have hsize := p.size_lt
  have hindex : y*p.width+x < p.width*p.height := by
    have hnext : (y+1)*p.width ≤ p.height*p.width := Nat.mul_le_mul_right _ hy
    rw [Nat.succ_mul,Nat.mul_comm p.height] at hnext
    omega
  have hrow : asU32 checks (y*p.bitmap.width) = some (y*p.width) :=
    asU32_fits checks (y*p.width) (by omega)
  rw [Bitmap.pixel,if_neg (by show ¬(p.width ≤ x ∨ p.height ≤ y); omega),hrow,
    Option.bind_eq_bind,Option.bind_some,asU32_fits checks (y*p.width+x) (by omega),
    Option.bind_some]
  exact gridRows_getElem? p.width p.height p.color x y hx hy

/-- A written picture is read with its dimensions and its colours. -/
theorem parse_encode (checks : Bool) (e : Encoding) :
    ∃ bitmap, parse checks (encode e p) = some (.ok bitmap) ∧
      bitmap.width = p.width ∧ bitmap.height = p.height ∧
      ∀ x < p.width, ∀ y < p.height, bitmap.pixel checks x y = some (p.color x y) := by
  have hgrid : readGrid p.width p.height ((e.asRead p).read (encode e p)) =
      some (gridRows p.width p.height p.color).flatten :=
    readGrid_some p.width p.height _ _ fun x hx y hy => read_encode e p x y hx hy
  have hcapacity : asU32 checks ((e.asRead p).width*(e.asRead p).height) =
      some ((e.asRead p).width*(e.asRead p).height) := asU32_fits checks _ p.size_lt
  refine ⟨p.bitmap,?_,rfl,rfl,?_⟩
  · rw [parse,readHeader_encode]
    show (if (encode e p).length < (e.asRead p).expected then _ else _) = _
    rw [if_neg (asRead_expected e p),hcapacity]
    show (readGrid p.width p.height _).bind _ = _
    rw [hgrid]
    rfl
  · exact fun x hx y hy => pixel_bitmap p checks x y hx hy

def smallPicture : Picture where
  width := 3
  height := 2
  color := fun x y => { r := UInt8.ofNat x, g := UInt8.ofNat y, b := 7 }
  width_pos := by decide
  width_lt := by decide
  height_pos := by decide
  height_lt := by decide
  size_lt := by decide

/-- Three bytes a pixel, the bottom row first, four bytes of header more than there must be
and two behind it. -/
def smallEncoding : Encoding where
  depth := .bits24
  topDown := false
  fileSize := 84
  reserved := 0
  planes := 1
  headerRest := List.replicate 24 0
  gap := [9,9]
  unused := fun _ _ => 0
  padding := fun _ _ => 0
  trailer := []
  header_ge := by decide
  offset_lt := by decide

theorem parse_encode_small : ∃ bitmap,
    parse true (encode smallEncoding smallPicture) = some (.ok bitmap) ∧
    bitmap.width = 3 ∧ bitmap.height = 2 ∧
    bitmap.pixel true 2 1 = some { r := 2, g := 1, b := 7 } := by
  obtain ⟨bitmap,hparse,hwidth,hheight,hpixel⟩ := parse_encode smallPicture true smallEncoding
  exact ⟨bitmap,hparse,hwidth,hheight,hpixel 2 (by decide) 1 (by decide)⟩

end RoundTrip

end Zamak.Wallpaper
