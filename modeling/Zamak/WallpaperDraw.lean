import Zamak.PartialSteps
import Zamak.Wallpaper

/-! # Drawing a wallpaper

The three placements run the same loops and differ in how many rows and columns they go
through and where a pixel is sampled and put. A bitmap of no width or no height is accepted
by the parser and stretched to nothing, but tiling takes remainders by its dimensions. -/

set_option autoImplicit false

namespace Zamak.WallpaperDraw
open Zamak.MaskRounding Zamak.PartialSteps Zamak.RowMajor Zamak.TagStreams Zamak.Wallpaper

inductive Style where
  | tiled
  | centered
  | stretched
  deriving DecidableEq

/-- What has been drawn; the encoding of colours in the framebuffer is left out. -/
structure Canvas where
  width : ℕ
  height : ℕ
  picture : ℕ → ℕ → Option Color

def Canvas.putPixel (canvas : Canvas) (x y : ℕ) (color : Color) : Canvas :=
  if x ≥ canvas.width ∨ y ≥ canvas.height then canvas
  else { canvas with
    picture := fun i j => if i = x ∧ j = y then some color else canvas.picture i j }

structure Stroke where
  sourceX : ℕ
  sourceY : ℕ
  targetX : ℕ
  targetY : ℕ

/-- The loops of a style; a stroke that divides by zero is none. -/
structure Placement where
  columns : ℕ
  rows : ℕ
  stroke : ℕ → ℕ → Option Stroke

def remainder (a b : ℕ) : Option ℕ := if b = 0 then none else some (a%b)

def quotient (a b : ℕ) : Option ℕ := if b = 0 then none else some (a/b)

section Styles
variable (checks : Bool) (wp : Bitmap) (cw ch : ℕ)

def tiled : Placement where
  columns := cw
  rows := ch
  stroke := fun x y => do
    let sourceX ← remainder x wp.width
    let sourceY ← remainder y wp.height
    some { sourceX := sourceX, sourceY := sourceY, targetX := x, targetY := y }

def centered : Placement where
  columns := min wp.width cw
  rows := min wp.height ch
  stroke := fun x y => do
    let targetX ← asU32 checks ((cw-wp.width)/2+x)
    let targetY ← asU32 checks ((ch-wp.height)/2+y)
    some { sourceX := x, sourceY := y, targetX := targetX, targetY := targetY }

def resampled : Placement where
  columns := cw
  rows := ch
  stroke := fun x y => do
    let sourceY ← quotient (y*wp.height) ch
    let sourceX ← quotient (x*wp.width) cw
    some {
      sourceX := sourceX%2^32
      sourceY := sourceY%2^32
      targetX := x
      targetY := y }

def stretched : Placement :=
  if wp.width = 0 ∨ wp.height = 0 then { columns := 0, rows := 0, stroke := fun _ _ => none }
  else resampled wp cw ch

def drawPixel (placement : Placement) (y : ℕ) (canvas : Canvas) (x : ℕ) : Option Canvas := do
  let stroke ← placement.stroke x y
  let color ← wp.pixel checks stroke.sourceX stroke.sourceY
  some (canvas.putPixel stroke.targetX stroke.targetY color)

def drawRow (placement : Placement) (canvas : Canvas) (y : ℕ) : Option Canvas :=
  (List.range placement.columns).foldlM (drawPixel checks wp placement y) canvas

def drawPlaced (placement : Placement) (canvas : Canvas) : Option Canvas :=
  (List.range placement.rows).foldlM (drawRow checks wp placement) canvas

def drawTiled (canvas : Canvas) : Option Canvas := drawPlaced checks wp (tiled wp cw ch) canvas

def drawCentered (canvas : Canvas) : Option Canvas :=
  drawPlaced checks wp (centered checks wp cw ch) canvas

def drawStretched (canvas : Canvas) : Option Canvas :=
  drawPlaced checks wp (stretched wp cw ch) canvas

end Styles

/-- The dimensions of the canvas are cut to 32 bits. -/
def draw (checks : Bool) (canvas : Canvas) (wp : Bitmap) (style : Style) : Option Canvas :=
  match style with
  | .tiled => drawTiled checks wp (canvas.width%2^32) (canvas.height%2^32) canvas
  | .centered => drawCentered checks wp (canvas.width%2^32) (canvas.height%2^32) canvas
  | .stretched => drawStretched checks wp (canvas.width%2^32) (canvas.height%2^32) canvas

def placement (checks : Bool) (canvas : Canvas) (wp : Bitmap) (style : Style) : Placement :=
  match style with
  | .tiled => tiled wp (canvas.width%2^32) (canvas.height%2^32)
  | .centered => centered checks wp (canvas.width%2^32) (canvas.height%2^32)
  | .stretched => stretched wp (canvas.width%2^32) (canvas.height%2^32)

def Placement.Makes (p : Placement) (stroke : Stroke) : Prop :=
  ∃ y < p.rows, ∃ x < p.columns, p.stroke x y = some stroke

/-- No panic, nothing put outside the canvas, and nothing sampled outside the bitmap where it
is stretched. -/
structure DrawsSafely (checks : Bool) (canvas : Canvas) (wp : Bitmap) (style : Style) : Prop where
  returns : (draw checks canvas wp style).isSome
  targets : ∀ stroke, (placement checks canvas wp style).Makes stroke →
    stroke.targetX < canvas.width ∧ stroke.targetY < canvas.height
  sources : style = .stretched → ∀ stroke, (placement checks canvas wp style).Makes stroke →
    stroke.sourceX < wp.width ∧ stroke.sourceY < wp.height

/-- The declared width is above zero and the height is not zero. -/
def DeclaresPixels (bytes : List UInt8) : Prop := 0 < i32At bytes 18 ∧ i32At bytes 22 ≠ 0

instance (bytes : List UInt8) : Decidable (DeclaresPixels bytes) :=
  inferInstanceAs (Decidable (_ ∧ _))

section Accepted

theorem i32At_range (bytes : List UInt8) (offset : ℕ) :
    -2^31 ≤ i32At bytes offset ∧ i32At bytes offset < 2^31 := by
  have hlt : numberAt 4 bytes offset < 256^4 := numberAt_lt 4 bytes offset
  rw [i32At]
  by_cases hsmall : numberAt 4 bytes offset < 2^31
  · rw [if_pos hsmall]
    omega
  · rw [if_neg hsmall]
    omega

theorem readHeader_ok (bytes : List UInt8) (header : Header) (h : readHeader bytes = .ok header) :
    header.width = (i32At bytes 18).toNat ∧ header.height = (i32At bytes 22).natAbs ∧
    header.pixelOffset < 2^32 ∧ header.bytesPerPixel ≤ 4 := by
  rw [readHeader] at h
  obtain ⟨_,h⟩ := ok_past_guard h
  obtain ⟨_,h⟩ := ok_past_guard h
  obtain ⟨_,h⟩ := ok_past_guard h
  obtain ⟨_,h⟩ := ok_past_guard h
  obtain ⟨hdepth,h⟩ := ok_past_guard h
  cases h
  refine ⟨rfl,rfl,numberAt_lt 4 bytes 10,?_⟩
  show numberAt 2 bytes 28/8 ≤ 4
  omega

theorem expected_lt (bytes : List UInt8) (header : Header)
    (h : readHeader bytes = .ok header) : header.expected < 2^64 := by
  obtain ⟨hwidth,hheight,hoffset,hdepth⟩ := readHeader_ok bytes header h
  have ⟨_,hw⟩ := i32At_range bytes 18
  have ⟨hlow,hhigh⟩ := i32At_range bytes 22
  have hrow : header.width*header.bytesPerPixel ≤ (2^31-1)*4 :=
    Nat.mul_le_mul (by omega) hdepth
  have hstride : header.rowStride ≤ 2^33-4 := by
    rw [Header.rowStride,and_mask 64 2 _ (by decide) (by omega)]
    unfold roundDown
    omega
  have harea : header.rowStride*header.height ≤ (2^33-4)*2^31 :=
    Nat.mul_le_mul hstride (by omega)
  rw [Header.expected]
  omega

/-- What the painters rely on: a full buffer, and sizes whose product fits if it is checked. -/
structure Drawable (checks : Bool) (wp : Bitmap) : Prop where
  width_lt : wp.width < 2^32
  height_lt : wp.height < 2^32
  pixels : wp.pixels.length = wp.height*wp.width
  checked : checks = true → wp.width*wp.height < 2^32

theorem parse_ok (checks : Bool) (bytes : List UInt8) (wp : Bitmap)
    (h : parse checks bytes = some (.ok wp)) : Drawable checks wp ∧
      wp.width = (i32At bytes 18).toNat ∧ wp.height = (i32At bytes 22).natAbs := by
  rw [parse] at h
  cases hread : readHeader bytes with
  | error error =>
    rw [hread] at h
    cases h
  | ok header =>
    obtain ⟨hwidth,hheight,_,_⟩ := readHeader_ok bytes header hread
    obtain ⟨_,hw⟩ := i32At_range bytes 18
    obtain ⟨hlow,hhigh⟩ := i32At_range bytes 22
    simp only [hread] at h
    by_cases hshort : bytes.length < header.expected
    · rw [if_pos hshort] at h
      cases h
    · rw [if_neg hshort] at h
      obtain ⟨capacity,hcapacity,h⟩ := Option.bind_eq_some_iff.mp h
      obtain ⟨pixels,hpixels,h⟩ := Option.bind_eq_some_iff.mp h
      cases h
      refine ⟨⟨?_,?_,readGrid_length _ _ _ pixels hpixels,?_⟩,hwidth,hheight⟩
      · show header.width < 2^32
        omega
      · show header.height < 2^32
        omega
      · rintro rfl
        by_contra hlarge
        rw [asU32,if_neg hlarge] at hcapacity
        cases hcapacity

theorem pixel_isSome (checks : Bool) (wp : Bitmap) (h : Drawable checks wp) (x y : ℕ) :
    (wp.pixel checks x y).isSome := by
  rw [Bitmap.pixel]
  by_cases hout : x ≥ wp.width ∨ y ≥ wp.height
  · rw [if_pos hout]
    rfl
  · have hindex : y*wp.width+x < wp.height*wp.width := by
      have hnext : (y+1)*wp.width ≤ wp.height*wp.width := Nat.mul_le_mul_right _ (by omega)
      rw [Nat.succ_mul] at hnext
      omega
    rw [if_neg hout]
    by_cases hsize : wp.height*wp.width < 2^32
    · rw [asU32_fits checks (y*wp.width) (by omega),Option.bind_eq_bind,Option.bind_some,
        asU32_fits checks (y*wp.width+x) (by omega),Option.bind_some,
        List.getElem?_eq_getElem (by rw [h.pixels]; exact hindex)]
      rfl
    · have hunchecked : checks = false := by
        cases checks with
        | false => rfl
        | true =>
          have hfits := h.checked rfl
          rw [Nat.mul_comm] at hfits
          exact absurd hfits hsize
      have hwrapped : ∀ n, ∃ m < 2^32, asU32 checks n = some m := by
        intro n
        rw [asU32,hunchecked]
        by_cases hn : n < 2^32
        · exact ⟨n,hn,if_pos hn⟩
        · exact ⟨n%2^32,Nat.mod_lt n (by decide),if_neg hn⟩
      obtain ⟨row,_,hrow⟩ := hwrapped (y*wp.width)
      obtain ⟨index,hsmall,hat⟩ := hwrapped (row+x)
      rw [hrow,Option.bind_eq_bind,Option.bind_some,hat,Option.bind_some,
        List.getElem?_eq_getElem (by rw [h.pixels]; omega)]
      rfl

end Accepted

section Drawing
variable (checks : Bool) (wp : Bitmap) (p : Placement)

theorem drawRow_isSome (h : Drawable checks wp) (canvas : Canvas) (y : ℕ) :
    (drawRow checks wp p canvas y).isSome ↔ ∀ x < p.columns, (p.stroke x y).isSome := by
  have hpixel : ∀ (c : Canvas) (x : ℕ), (drawPixel checks wp p y c x).isSome ↔
      (p.stroke x y).isSome := by
    intro c x
    rw [drawPixel]
    cases p.stroke x y with
    | none => rfl
    | some stroke =>
      have hcolor := pixel_isSome checks wp h stroke.sourceX stroke.sourceY
      obtain ⟨color,hcolor⟩ := Option.isSome_iff_exists.mp hcolor
      rw [Option.bind_eq_bind,Option.bind_some,hcolor]
      rfl
  rw [drawRow,foldlM_isSome _ (fun x => (p.stroke x y).isSome) hpixel]
  simp only [List.mem_range]

theorem drawPlaced_isSome (h : Drawable checks wp) (canvas : Canvas) :
    (drawPlaced checks wp p canvas).isSome ↔
      ∀ y < p.rows, ∀ x < p.columns, (p.stroke x y).isSome := by
  rw [drawPlaced,foldlM_isSome _ _ (drawRow_isSome checks wp p h)]
  simp only [List.mem_range]

theorem draw_eq (canvas : Canvas) (style : Style) : draw checks canvas wp style =
    drawPlaced checks wp (placement checks canvas wp style) canvas := by
  cases style <;> rfl

end Drawing

section Strokes
variable (checks : Bool) (wp : Bitmap) (cw ch : ℕ)

theorem tiled_isSome (x y : ℕ) :
    ((tiled wp cw ch).stroke x y).isSome ↔ wp.width ≠ 0 ∧ wp.height ≠ 0 := by
  simp only [tiled,remainder]
  by_cases hwidth : wp.width = 0
  · simp [hwidth]
  · by_cases hheight : wp.height = 0
    · simp [hwidth,hheight]
    · simp [hwidth,hheight]

theorem tiled_stroke (x y : ℕ) (stroke : Stroke) (h : (tiled wp cw ch).stroke x y = some stroke) :
    stroke.targetX = x ∧ stroke.targetY = y := by
  obtain ⟨sourceX,_,h⟩ := Option.bind_eq_some_iff.mp h
  obtain ⟨sourceY,_,h⟩ := Option.bind_eq_some_iff.mp h
  cases h
  exact ⟨rfl,rfl⟩

theorem centered_stroke (hw : cw < 2^32) (hh : ch < 2^32) (x y : ℕ)
    (hx : x < (centered checks wp cw ch).columns) (hy : y < (centered checks wp cw ch).rows) :
    (centered checks wp cw ch).stroke x y = some {
      sourceX := x
      sourceY := y
      targetX := (cw-wp.width)/2+x
      targetY := (ch-wp.height)/2+y } ∧
    (cw-wp.width)/2+x < cw ∧ (ch-wp.height)/2+y < ch := by
  have hx : x < min wp.width cw := hx
  have hy : y < min wp.height ch := hy
  have htargetX : (cw-wp.width)/2+x < cw := by omega
  have htargetY : (ch-wp.height)/2+y < ch := by omega
  refine ⟨?_,htargetX,htargetY⟩
  simp only [centered]
  rw [asU32_fits checks _ (by omega),Option.bind_eq_bind,Option.bind_some,
    asU32_fits checks _ (by omega)]
  rfl

theorem scaled_lt (x size canvas : ℕ) (hx : x < canvas) (hsize : 0 < size) :
    x*size/canvas < size := by
  rw [Nat.div_lt_iff_lt_mul (by omega),Nat.mul_comm size]
  exact Nat.mul_lt_mul_of_pos_right hx hsize

theorem resampled_stroke (hwidth : wp.width ≠ 0)
    (hheight : wp.height ≠ 0) (x y : ℕ) (hx : x < cw) (hy : y < ch) :
    ∃ stroke, (resampled wp cw ch).stroke x y = some stroke ∧
      stroke.targetX = x ∧ stroke.targetY = y ∧
      stroke.sourceX < wp.width ∧ stroke.sourceY < wp.height := by
  have hsourceX := scaled_lt x wp.width cw hx (by omega)
  have hsourceY := scaled_lt y wp.height ch hy (by omega)
  refine ⟨{
    sourceX := x*wp.width/cw%2^32
    sourceY := y*wp.height/ch%2^32
    targetX := x
    targetY := y },?_,rfl,rfl,?_,?_⟩
  · simp only [resampled,quotient,if_neg (show ch ≠ 0 by omega),if_neg (show cw ≠ 0 by omega)]
    rfl
  · exact Nat.lt_of_le_of_lt (Nat.mod_le _ _) hsourceX
  · exact Nat.lt_of_le_of_lt (Nat.mod_le _ _) hsourceY

end Strokes

section Safety
variable (checks : Bool) (canvas : Canvas) (wp : Bitmap)

theorem cut_le (n : ℕ) : n%2^32 ≤ n := Nat.mod_le n _

theorem cut_lt (n : ℕ) : n%2^32 < 2^32 := Nat.mod_lt n (by decide)

theorem tiled_targets (stroke : Stroke) (h : (placement checks canvas wp .tiled).Makes stroke) :
    stroke.targetX < canvas.width ∧ stroke.targetY < canvas.height := by
  obtain ⟨y,hy,x,hx,hstroke⟩ := h
  have ⟨hX,hY⟩ := tiled_stroke wp _ _ x y stroke hstroke
  rw [hX,hY]
  exact ⟨Nat.lt_of_lt_of_le hx (cut_le _),Nat.lt_of_lt_of_le hy (cut_le _)⟩

theorem draw_tiled_iff (h : Drawable checks wp) : DrawsSafely checks canvas wp .tiled ↔
    (wp.width ≠ 0 ∧ wp.height ≠ 0) ∨ canvas.width%2^32 = 0 ∨ canvas.height%2^32 = 0 := by
  have hreturns : (draw checks canvas wp .tiled).isSome ↔
      ∀ y < canvas.height%2^32, ∀ x < canvas.width%2^32, wp.width ≠ 0 ∧ wp.height ≠ 0 := by
    rw [draw_eq,drawPlaced_isSome checks wp _ h]
    simp only [placement,tiled_isSome]
    rfl
  constructor
  · intro hsafe
    by_contra hnot
    rw [not_or,not_or] at hnot
    obtain ⟨hempty,hcolumns,hrows⟩ := hnot
    exact hempty (hreturns.mp hsafe.returns 0 (Nat.pos_of_ne_zero hrows) 0
      (Nat.pos_of_ne_zero hcolumns))
  · intro hor
    refine ⟨hreturns.mpr ?_,tiled_targets checks canvas wp,fun hstyle => by cases hstyle⟩
    intro y hy x hx
    rcases hor with hboth | hcolumns | hrows
    · exact hboth
    · omega
    · omega

theorem draw_centered (h : Drawable checks wp) : DrawsSafely checks canvas wp .centered := by
  have hstroke := centered_stroke checks wp (canvas.width%2^32) (canvas.height%2^32)
    (cut_lt _) (cut_lt _)
  refine ⟨?_,?_,fun hstyle => by cases hstyle⟩
  · rw [draw_eq,drawPlaced_isSome checks wp _ h]
    intro y hy x hx
    rw [placement,(hstroke x y hx hy).1]
    rfl
  · rintro stroke ⟨y,hy,x,hx,hmade⟩
    obtain ⟨hsome,hX,hY⟩ := hstroke x y hx hy
    rw [placement,hsome] at hmade
    cases hmade
    exact ⟨Nat.lt_of_lt_of_le hX (cut_le _),Nat.lt_of_lt_of_le hY (cut_le _)⟩

theorem draw_stretched (h : Drawable checks wp) : DrawsSafely checks canvas wp .stretched := by
  by_cases hempty : wp.width = 0 ∨ wp.height = 0
  · have hnone : (placement checks canvas wp .stretched).rows = 0 := by
      rw [placement,stretched,if_pos hempty]
    have hmakes : ∀ stroke, ¬(placement checks canvas wp .stretched).Makes stroke := by
      rintro stroke ⟨y,hy,_⟩
      rw [hnone] at hy
      exact Nat.not_lt_zero y hy
    refine ⟨?_,fun stroke hmade => (hmakes stroke hmade).elim,
      fun _ stroke hmade => (hmakes stroke hmade).elim⟩
    rw [draw_eq,drawPlaced_isSome checks wp _ h,hnone]
    exact fun y hy => (Nat.not_lt_zero y hy).elim
  · have hplaced : placement checks canvas wp .stretched =
        resampled wp (canvas.width%2^32) (canvas.height%2^32) := by
      rw [placement,stretched,if_neg hempty]
    rw [not_or] at hempty
    have hstroke := resampled_stroke wp (canvas.width%2^32) (canvas.height%2^32) hempty.1 hempty.2
    have hmakes : ∀ stroke, (placement checks canvas wp .stretched).Makes stroke →
        (stroke.targetX < canvas.width ∧ stroke.targetY < canvas.height) ∧
        stroke.sourceX < wp.width ∧ stroke.sourceY < wp.height := by
      rw [hplaced]
      rintro stroke ⟨y,hy,x,hx,hmade⟩
      obtain ⟨found,hfound,hX,hY,hsource⟩ := hstroke x y hx hy
      rw [hfound] at hmade
      cases hmade
      rw [hX,hY]
      exact ⟨⟨Nat.lt_of_lt_of_le hx (cut_le _),Nat.lt_of_lt_of_le hy (cut_le _)⟩,hsource⟩
    refine ⟨?_,fun stroke hmade => (hmakes stroke hmade).1,
      fun _ stroke hmade => (hmakes stroke hmade).2⟩
    rw [draw_eq,drawPlaced_isSome checks wp _ h,hplaced]
    intro y hy x hx
    obtain ⟨found,hfound,_⟩ := hstroke x y hx hy
    rw [hfound]
    rfl

/-- An accepted wallpaper is drawn safely unless it is tiled, has no pixel and there is a
canvas to tile. -/
theorem draw_safe_iff (bytes : List UInt8) (hparse : parse checks bytes = some (.ok wp))
    (style : Style) : DrawsSafely checks canvas wp style ↔
      (style = .tiled → DeclaresPixels bytes ∨ canvas.width%2^32 = 0 ∨
        canvas.height%2^32 = 0) := by
  obtain ⟨h,hwidth,hheight⟩ := parse_ok checks bytes wp hparse
  have hpixels : wp.width ≠ 0 ∧ wp.height ≠ 0 ↔ DeclaresPixels bytes := by
    rw [hwidth,hheight,DeclaresPixels]
    omega
  cases style with
  | tiled =>
    rw [draw_tiled_iff checks canvas wp h,hpixels]
    exact ⟨fun hor _ => hor,fun hor => hor rfl⟩
  | centered => exact ⟨fun _ hstyle => (by cases hstyle),fun _ => draw_centered checks canvas wp h⟩
  | stretched =>
    exact ⟨fun _ hstyle => (by cases hstyle),fun _ => draw_stretched checks canvas wp h⟩

def emptyBmp : List UInt8 :=
  bmpSignature++natBytes 4 54++natBytes 4 0++natBytes 4 54++natBytes 4 40++natBytes 4 0++
    natBytes 4 0++natBytes 2 1++natBytes 2 24++natBytes 4 0++List.replicate 20 0

def emptyBitmap : Bitmap where
  width := 0
  height := 0
  pixels := []

def onePixel : Canvas where
  width := 1
  height := 1
  picture := fun _ _ => none

theorem draw_safe_stretched_empty : parse true emptyBmp = some (.ok emptyBitmap) ∧
    DrawsSafely true onePixel emptyBitmap .stretched := by
  have hparse : parse true emptyBmp = some (.ok emptyBitmap) := rfl
  exact ⟨hparse,(draw_safe_iff true onePixel emptyBitmap emptyBmp hparse .stretched).mpr
    fun hstyle => by cases hstyle⟩

theorem tiled_empty_divides : parse true emptyBmp = some (.ok emptyBitmap) ∧
    draw true onePixel emptyBitmap .tiled = none ∧
    ¬DrawsSafely true onePixel emptyBitmap .tiled := by
  have hdraw : draw true onePixel emptyBitmap .tiled = none := rfl
  refine ⟨rfl,hdraw,?_⟩
  intro hsafe
  have hreturns := hsafe.returns
  rw [hdraw] at hreturns
  cases hreturns

end Safety

end Zamak.WallpaperDraw
