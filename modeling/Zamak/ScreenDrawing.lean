import Zamak.ScreenMemory
import Zamak.WallpaperDraw

/-! # Drawing on the screen

Rectangles, text in a PSF1 font and wallpapers are drawn pixel by pixel in nested loops.
Each is one stamp on the picture, so what any sequence of them leaves in memory is the
picture of their stamps, one over the other. -/

set_option autoImplicit false

namespace Zamak.ScreenDrawing
open Zamak.BootAnswers Zamak.ScreenMemory Zamak.Stamps Zamak.Wallpaper Zamak.WallpaperDraw

structure PsfFont where
  charSize : UInt8
  glyphs : List UInt8
  deriving DecidableEq

def PsfFont.parse (data : List UInt8) : Option PsfFont :=
  if data.length < 4 ∨ data.getD 0 0 ≠ 0x36 ∨ data.getD 1 0 ≠ 0x04 then none
  else some { charSize := data.getD 3 0, glyphs := data.drop 4 }

/-- Characters that are not ASCII get the glyph of `?`. -/
def charIdx (c : Char) : ℕ := if c.toNat < 128 then c.toNat else 0x3F

def PsfFont.glyphOffset (font : PsfFont) (c : Char) : ℕ := charIdx c*font.charSize.toNat

def PsfFont.HasGlyph (font : PsfFont) (c : Char) : Prop :=
  font.glyphOffset c+font.charSize.toNat ≤ font.glyphs.length

instance (font : PsfFont) (c : Char) : Decidable (font.HasGlyph c) :=
  inferInstanceAs (Decidable (_ ≤ _))

def PsfFont.bit (font : PsfFont) (c : Char) (row col : ℕ) : Bool :=
  (font.glyphs.getD (font.glyphOffset c+row) 0).toNat>>>(7-col)&&&1 == 1

section Draw
variable (fb : Framebuffer) (checks : Bool)

def clear (color : Color) (memory : ℕ → UInt8) : Option (ℕ → UInt8) :=
  (List.range fb.height).foldlM (fun m y =>
    (List.range fb.width).foldlM (fun m x => putPixel fb checks x y color m) m) memory

def drawRect (x y w h : ℕ) (color : Color) (memory : ℕ → UInt8) : Option (ℕ → UInt8) :=
  (List.range h).foldlM (fun m dy =>
    (List.range w).foldlM (fun m dx => do
      let px ← asU64 checks (x+dx)
      let py ← asU64 checks (y+dy)
      putPixel fb checks px py color m) m) memory

def drawGlyph (font : PsfFont) (x y : ℕ) (c : Char) (fg : Color) (memory : ℕ → UInt8) :
    Option (ℕ → UInt8) :=
  (List.range font.charSize.toNat).foldlM (fun m row =>
    (List.range 8).foldlM (fun m col =>
      if font.bit c row col then do
        let px ← asU64 checks (x+col)
        let py ← asU64 checks (y+row)
        putPixel fb checks px py fg m
      else some m) m) memory

def drawChar (font : PsfFont) (x y : ℕ) (c : Char) (fg : Color) (bg : Option Color)
    (memory : ℕ → UInt8) : Option (ℕ → UInt8) :=
  if font.HasGlyph c then do
    let memory ← match bg with
      | some color => drawRect fb checks x y 8 font.charSize.toNat color memory
      | none => some memory
    drawGlyph fb checks font x y c fg memory
  else some memory

def drawString (font : PsfFont) (y : ℕ) (fg : Color) (bg : Option Color) :
    ℕ → List Char → (ℕ → UInt8) → Option (ℕ → UInt8)
  | _, [], memory => some memory
  | x, c::s, memory => do
    let memory ← drawChar fb checks font x y c fg bg memory
    let next ← asU64 checks (x+8)
    drawString font y fg bg next s memory

def drawPlacement (wp : Bitmap) (p : Placement) (memory : ℕ → UInt8) : Option (ℕ → UInt8) :=
  (List.range p.rows).foldlM (fun m y =>
    (List.range p.columns).foldlM (fun m x => do
      let stroke ← p.stroke x y
      let color ← wp.pixel checks stroke.sourceX stroke.sourceY
      putPixel fb checks stroke.targetX stroke.targetY color m) m) memory

def styled (wp : Bitmap) (style : Style) : Placement :=
  match style with
  | .tiled => tiled wp (fb.width%2^32) (fb.height%2^32)
  | .centered => centered checks wp (fb.width%2^32) (fb.height%2^32)
  | .stretched => stretched wp (fb.width%2^32) (fb.height%2^32)

end Draw

/-! ## Stamps of what is drawn -/

inductive Command where
  | clear (color : Color)
  | rect (x y w h : ℕ) (color : Color)
  | text (x y : ℕ) (s : List Char) (fg : Color) (bg : Option Color)
  | wallpaper (wp : Bitmap) (style : Style)

section Meaning
variable (fb : Framebuffer) (checks : Bool) (font : PsfFont)

def draw (memory : ℕ → UInt8) : Command → Option (ℕ → UInt8)
  | .clear color => clear fb checks color memory
  | .rect x y w h color => drawRect fb checks x y w h color memory
  | .text x y s fg bg => drawString fb checks font y fg bg x s memory
  | .wallpaper wp style => drawPlacement fb checks wp (styled fb checks wp style) memory

def drawAll (commands : List Command) (memory : ℕ → UInt8) : Option (ℕ → UInt8) :=
  commands.foldlM (draw fb checks font) memory

/-- The colour of a character's box: its glyph over its background. -/
def charColor (c : Char) (fg : Color) (bg : Option Color) (dx dy : ℕ) : Option Color :=
  if font.HasGlyph c then if font.bit c dy dx then some fg else bg else none

def charStamp (x y : ℕ) (c : Char) (fg : Color) (bg : Option Color) : Stamp Color :=
  { x := x, y := y, width := 8, height := font.charSize.toNat, color := charColor font c fg bg }

def textStamp (x y : ℕ) (s : List Char) (fg : Color) (bg : Option Color) : Stamp Color where
  x := x
  y := y
  width := 8*s.length
  height := font.charSize.toNat
  color dx dy := (s[dx/8]?).bind fun c => charColor font c fg bg (dx%8) dy

def corner (wp : Bitmap) (style : Style) : ℕ × ℕ :=
  match style with
  | .centered => ((fb.width%2^32-wp.width)/2,(fb.height%2^32-wp.height)/2)
  | _ => (0,0)

def wallpaperStamp (wp : Bitmap) (style : Style) : Stamp Color where
  x := (corner fb wp style).1
  y := (corner fb wp style).2
  width := (styled fb checks wp style).columns
  height := (styled fb checks wp style).rows
  color x y := ((styled fb checks wp style).stroke x y).bind fun stroke =>
    wp.pixel checks stroke.sourceX stroke.sourceY

def Command.stamp : Command → Stamp Color
  | .clear color =>
    { x := 0, y := 0, width := fb.width, height := fb.height, color := fun _ _ => some color }
  | .rect x y w h color => { x := x, y := y, width := w, height := h, color := fun _ _ => some color }
  | .text x y s fg bg => textStamp font x y s fg bg
  | .wallpaper wp style => wallpaperStamp fb checks wp style

/-- A call whose coordinates stay in 64 bits; a wallpaper is as the parser returns it, and
has pixels to tile. -/
def Command.Fits : Command → Prop
  | .clear _ => True
  | .rect x y w h _ => x+w ≤ 2^64 ∧ y+h ≤ 2^64
  | .text x y s _ _ => x+8*s.length < 2^64 ∧ y+font.charSize.toNat ≤ 2^64
  | .wallpaper wp style => Drawable checks wp ∧ (style = .tiled → wp.width ≠ 0 ∧ wp.height ≠ 0)

end Meaning

theorem textStamp_cons (font : PsfFont) (x y : ℕ) (c : Char) (s : List Char) (fg : Color)
    (bg : Option Color) (q : Picture Color) :
    (textStamp font x y (c::s) fg bg).on q =
      (textStamp font (x+8) y s fg bg).on ((charStamp font x y c fg bg).on q) := by
  have hwidth : 8*(c::s).length = 8+8*s.length := by
    rw [List.length_cons]
    omega
  have hfirst : ∀ dx < 8, ∀ dy < font.charSize.toNat,
      ((c::s)[dx/8]?).bind (fun d => charColor font d fg bg (dx%8) dy) =
        charColor font c fg bg dx dy := by
    intro dx hdx dy _
    rw [Nat.div_eq_of_lt hdx,Nat.mod_eq_of_lt hdx]
    rfl
  have hrest : ∀ dx < 8*s.length, ∀ dy < font.charSize.toNat,
      ((c::s)[(dx+8)/8]?).bind (fun d => charColor font d fg bg ((dx+8)%8) dy) =
        (s[dx/8]?).bind fun d => charColor font d fg bg (dx%8) dy := by
    intro dx _ dy _
    rw [Nat.add_div_right dx (by decide),Nat.add_mod_right]
    rfl
  change Stamp.on ⟨x,y,8*(c::s).length,font.charSize.toNat,_⟩ q = _
  rw [hwidth,on_beside,on_congr x y 8 _ _ _ q hfirst,on_congr (x+8) y _ _ _ _ _ hrest]
  rfl

theorem styled_stroke (fb : Framebuffer) (checks : Bool) (wp : Bitmap) (style : Style)
    (htiles : style = .tiled → wp.width ≠ 0 ∧ wp.height ≠ 0) (x y : ℕ)
    (hx : x < (styled fb checks wp style).columns) (hy : y < (styled fb checks wp style).rows) :
    ∃ stroke, (styled fb checks wp style).stroke x y = some stroke ∧
      stroke.targetX = (corner fb wp style).1+x ∧ stroke.targetY = (corner fb wp style).2+y := by
  cases style with
  | tiled =>
    obtain ⟨stroke,hstroke⟩ := Option.isSome_iff_exists.mp
      ((tiled_isSome wp (fb.width%2^32) (fb.height%2^32) x y).mpr (htiles rfl))
    obtain ⟨hX,hY⟩ := tiled_stroke wp _ _ x y stroke hstroke
    exact ⟨stroke,hstroke,hX.trans (Nat.zero_add x).symm,hY.trans (Nat.zero_add y).symm⟩
  | centered =>
    obtain ⟨hstroke,-,-⟩ := centered_stroke checks wp (fb.width%2^32) (fb.height%2^32)
      (cut_lt _) (cut_lt _) x y hx hy
    exact ⟨_,hstroke,rfl,rfl⟩
  | stretched =>
    by_cases hempty : wp.width = 0 ∨ wp.height = 0
    · rw [styled,stretched,if_pos hempty] at hx
      exact (Nat.not_lt_zero x hx).elim
    · have hplaced : styled fb checks wp .stretched =
          resampled wp (fb.width%2^32) (fb.height%2^32) := if_neg hempty
      rw [hplaced] at hx hy ⊢
      rw [not_or] at hempty
      obtain ⟨stroke,hstroke,hX,hY,-,-⟩ := resampled_stroke wp _ _ hempty.1 hempty.2 x y hx hy
      exact ⟨stroke,hstroke,hX.trans (Nat.zero_add x).symm,hY.trans (Nat.zero_add y).symm⟩

theorem fits_u64 (checks : Bool) {n : ℕ} (h : n < 2^64) : asU64 checks n = some n := if_pos h

section Shown
variable {fb : Framebuffer} (hfb : Sound fb) (checks : Bool) {before memory : ℕ → UInt8}
variable {p : Picture Color}
include hfb

theorem clear_shows (color : Color) (hp : Shows fb before memory p) :
    ∃ m', clear fb checks color memory = some m' ∧
      Shows fb before m' (Stamp.on ⟨0,0,fb.width,fb.height,fun _ _ => some color⟩ p) := by
  apply grid_shows (fun x y => putPixel fb checks x y color)
  · intro y _ x _
    rw [Nat.zero_add,Nat.zero_add]
    exact putPixel_shows hfb checks before x y color
  · exact hp

theorem drawRect_shows (x y w h : ℕ) (color : Color) (hx : x+w ≤ 2^64) (hy : y+h ≤ 2^64)
    (hp : Shows fb before memory p) :
    ∃ m', drawRect fb checks x y w h color memory = some m' ∧
      Shows fb before m' (Stamp.on ⟨x,y,w,h,fun _ _ => some color⟩ p) := by
  apply grid_shows (fun dx dy m => do
    let px ← asU64 checks (x+dx)
    let py ← asU64 checks (y+dy)
    putPixel fb checks px py color m)
  · intro dy hdy dx hdx
    simp only [fits_u64 checks (show x+dx < 2^64 by omega),
      fits_u64 checks (show y+dy < 2^64 by omega)]
    exact putPixel_shows hfb checks before (x+dx) (y+dy) color
  · exact hp

theorem drawGlyph_shows (font : PsfFont) (x y : ℕ) (c : Char) (fg : Color) (hx : x+8 ≤ 2^64)
    (hy : y+font.charSize.toNat ≤ 2^64) (hp : Shows fb before memory p) :
    ∃ m', drawGlyph fb checks font x y c fg memory = some m' ∧
      Shows fb before m' (Stamp.on ⟨x,y,8,font.charSize.toNat,
        fun dx dy => if font.bit c dy dx then some fg else none⟩ p) := by
  apply grid_shows (fun dx dy m =>
    if font.bit c dy dx then do
      let px ← asU64 checks (x+dx)
      let py ← asU64 checks (y+dy)
      putPixel fb checks px py fg m
    else some m)
  · intro dy hdy dx hdx
    cases font.bit c dy dx with
    | true =>
      simp only [if_true,fits_u64 checks (show x+dx < 2^64 by omega),
        fits_u64 checks (show y+dy < 2^64 by omega)]
      exact putPixel_shows hfb checks before (x+dx) (y+dy) fg
    | false =>
      intro m q hq
      refine ⟨m,rfl,?_⟩
      change Shows fb before m ((cell (x+dx) (y+dy) none).on q)
      rw [cell_none]
      exact hq
  · exact hp

theorem drawChar_shows (font : PsfFont) (x y : ℕ) (c : Char) (fg : Color) (bg : Option Color)
    (hx : x+8 ≤ 2^64) (hy : y+font.charSize.toNat ≤ 2^64) (hp : Shows fb before memory p) :
    ∃ m', drawChar fb checks font x y c fg bg memory = some m' ∧
      Shows fb before m' ((charStamp font x y c fg bg).on p) := by
  by_cases hglyph : font.HasGlyph c
  · rw [drawChar,if_pos hglyph]
    cases bg with
    | none =>
      have hcolor : (charStamp font x y c fg none).on p = Stamp.on ⟨x,y,8,font.charSize.toNat,
          fun dx dy => if font.bit c dy dx then some fg else none⟩ p := by
        apply on_congr
        intro dx _ dy _
        rw [charColor,if_pos hglyph]
      rw [hcolor]
      exact drawGlyph_shows hfb checks font x y c fg hx hy hp
    | some color =>
      obtain ⟨m,hrect,hm⟩ := drawRect_shows hfb checks x y 8 font.charSize.toNat color hx hy hp
      obtain ⟨m',hdrawn,hm'⟩ := drawGlyph_shows hfb checks font x y c fg hx hy hm
      refine ⟨m',?_,?_⟩
      · simp only [hrect]
        exact hdrawn
      · rw [on_over] at hm'
        have hcolor : (charStamp font x y c fg (some color)).on p =
            Stamp.on ⟨x,y,8,font.charSize.toNat,
              fun dx dy => (if font.bit c dy dx then some fg else none).or (some color)⟩ p := by
          apply on_congr
          intro dx _ dy _
          rw [charColor,if_pos hglyph]
          cases font.bit c dy dx <;> rfl
        rw [hcolor]
        exact hm'
  · refine ⟨memory,if_neg hglyph,?_⟩
    have hnone : (charStamp font x y c fg bg).on p = p := by
      funext i j
      have hcolor : charColor font c fg bg = fun _ _ => none := by
        funext dx dy
        exact if_neg hglyph
      rw [charStamp,hcolor,Stamp.on]
      exact ite_self _
    rw [hnone]
    exact hp

theorem drawString_shows (font : PsfFont) (y : ℕ) (fg : Color) (bg : Option Color)
    (hy : y+font.charSize.toNat ≤ 2^64) (s : List Char) (x : ℕ) (hx : x+8*s.length < 2^64)
    (hp : Shows fb before memory p) :
    ∃ m', drawString fb checks font y fg bg x s memory = some m' ∧
      Shows fb before m' ((textStamp font x y s fg bg).on p) := by
  induction s generalizing x memory p with
  | nil =>
    refine ⟨memory,rfl,?_⟩
    rw [on_empty _ p (Or.inl rfl)]
    exact hp
  | cons c s ih =>
    rw [List.length_cons] at hx
    obtain ⟨m,hchar,hm⟩ := drawChar_shows hfb checks font x y c fg bg (by omega) hy hp
    obtain ⟨m',hrest,hm'⟩ := ih (x+8) (by omega) hm
    refine ⟨m',?_,?_⟩
    · rw [drawString,hchar]
      simp only [Option.bind_eq_bind,Option.bind_some,fits_u64 checks (show x+8 < 2^64 by omega)]
      exact hrest
    · rw [textStamp_cons]
      exact hm'

theorem wallpaper_shows (wp : Bitmap) (style : Style) (hwp : Drawable checks wp)
    (htiles : style = .tiled → wp.width ≠ 0 ∧ wp.height ≠ 0) (hp : Shows fb before memory p) :
    ∃ m', drawPlacement fb checks wp (styled fb checks wp style) memory = some m' ∧
      Shows fb before m' ((wallpaperStamp fb checks wp style).on p) := by
  apply grid_shows (fun x y m => do
    let stroke ← (styled fb checks wp style).stroke x y
    let color ← wp.pixel checks stroke.sourceX stroke.sourceY
    putPixel fb checks stroke.targetX stroke.targetY color m)
  · intro y hy x hx
    obtain ⟨stroke,hstroke,hX,hY⟩ := styled_stroke fb checks wp style htiles x y hx hy
    obtain ⟨color,hcolor⟩ := Option.isSome_iff_exists.mp
      (pixel_isSome checks wp hwp stroke.sourceX stroke.sourceY)
    simp only [hstroke,Option.bind_eq_bind,Option.bind_some,hcolor,hX,hY]
    exact putPixel_shows hfb checks before _ _ color
  · exact hp

theorem draw_shows (font : PsfFont) (command : Command) (hfits : command.Fits checks font)
    (hp : Shows fb before memory p) :
    ∃ m', draw fb checks font memory command = some m' ∧
      Shows fb before m' ((command.stamp fb checks font).on p) := by
  cases command with
  | clear color => exact clear_shows hfb checks color hp
  | rect x y w h color => exact drawRect_shows hfb checks x y w h color hfits.1 hfits.2 hp
  | text x y s fg bg => exact drawString_shows hfb checks font y fg bg hfits.2 s x hfits.1 hp
  | wallpaper wp style => exact wallpaper_shows hfb checks wp style hfits.1 hfits.2 hp

theorem drawAll_shows (font : PsfFont) (commands : List Command)
    (hfits : ∀ command ∈ commands, command.Fits checks font) (hp : Shows fb before memory p) :
    ∃ m', drawAll fb checks font commands memory = some m' ∧
      Shows fb before m' (stampAll (commands.map (Command.stamp fb checks font)) p) := by
  induction commands generalizing memory p with
  | nil => exact ⟨memory,rfl,hp⟩
  | cons command commands ih =>
    obtain ⟨m,hdraw,hm⟩ := draw_shows hfb checks font command (hfits command List.mem_cons_self) hp
    obtain ⟨m',hrest,hm'⟩ := ih (fun c hc => hfits c (List.mem_cons_of_mem command hc)) hm
    refine ⟨m',?_,hm'⟩
    rw [drawAll,List.foldlM_cons,hdraw]
    exact hrest

/-- After any sequence of calls the memory shows the picture of their stamps: every pixel
that one of them gives a colour has the last such colour, every other one has the colour it
had, and no byte outside of the screen has changed. -/
theorem screen_shows_drawing (font : PsfFont) (commands : List Command)
    (hfits : ∀ command ∈ commands, command.Fits checks font) (memory : ℕ → UInt8) :
    ∃ m', drawAll fb checks font commands memory = some m' ∧
      Shows fb memory m' (stampAll (commands.map (Command.stamp fb checks font)) fun _ _ => none) := by
  apply drawAll_shows hfb checks font commands hfits
  refine ⟨?_,fun x _ y _ _ => rfl,fun a _ => rfl⟩
  intro x _ y _ color hc
  cases hc

end Shown

/-! ## The screen of the menu -/

inductive PixelFormat where
  | rgb
  | bgr
  | other

def PixelFormat.redShift : PixelFormat → ℕ
  | .rgb => 0
  | .bgr => 16
  | .other => 16

def PixelFormat.blueShift : PixelFormat → ℕ
  | .rgb => 16
  | .bgr => 0
  | .other => 0

def menuFramebuffer (mode : GopMode) (format : PixelFormat) : Framebuffer where
  address := mode.frameBuffer
  width := mode.width
  height := mode.height
  pitch := mode.stride*4%2^64
  bpp := 32
  memoryModel := 0
  redMaskSize := 8
  redMaskShift := format.redShift
  greenMaskSize := 8
  greenMaskShift := 8
  blueMaskSize := 8
  blueMaskShift := format.blueShift
  edidSize := 0
  edid := 0

/-- The rows of a mode are no longer than its stride, and its memory ends in 64 bits. -/
theorem menuFramebuffer_sound (mode : GopMode) (format : PixelFormat)
    (hstride : mode.width ≤ mode.stride) (hlines : mode.stride*4 < 2^64)
    (hmemory : mode.frameBuffer+mode.height*(mode.stride*4) ≤ 2^64) :
    Sound (menuFramebuffer mode format) := by
  have hpitch : mode.stride*4%2^64 = mode.stride*4 := Nat.mod_eq_of_lt hlines
  have hwidth : mode.width*4 ≤ mode.stride*4%2^64 := by omega
  have hend : mode.frameBuffer+mode.height*(mode.stride*4%2^64) ≤ 2^64 := by
    rw [hpitch]
    exact hmemory
  have hred : format.redShift = 0 ∧ format.blueShift = 16 ∨
      format.redShift = 16 ∧ format.blueShift = 0 := by
    cases format <;> decide
  exact {
    bpp := rfl
    pitch := hwidth
    memory := hend
    red := by change format.redShift+8 ≤ 32; omega
    green := by change 8+8 ≤ 32; omega
    blue := by change format.blueShift+8 ≤ 32; omega
    red_green := by change format.redShift+8 ≤ 8 ∨ 8+8 ≤ format.redShift; omega
    red_blue := by
      change format.redShift+8 ≤ format.blueShift ∨ format.blueShift+8 ≤ format.redShift
      omega
    green_blue := by change 8+8 ≤ format.blueShift ∨ format.blueShift+8 ≤ 8; omega }

def dashFont : PsfFont where
  charSize := 1
  glyphs := List.replicate 65 0++[0x3C]

def smallScreen : Framebuffer := menuFramebuffer ⟨10,2,16,0x80000000⟩ .bgr

def navy : Color := ⟨0,0,0x27⟩

def amber : Color := ⟨0xD9,0x8E,0x32⟩

/-- A letter on a bar of half the height of a blank screen. -/
theorem screen_shows_drawing_letter :
    ∃ m', drawAll smallScreen true dashFont
        [.rect 0 1 10 1 navy,.text 1 1 [ 'A'] amber none] (fun _ => 0) = some m' ∧
      colorAt smallScreen m' 2 1 = navy ∧ colorAt smallScreen m' 3 1 = amber ∧
      colorAt smallScreen m' 3 0 = colorAt smallScreen (fun _ => 0) 3 0 := by
  have hsound : Sound smallScreen :=
    menuFramebuffer_sound _ _ (by decide) (by decide) (by decide)
  obtain ⟨m',hdraw,hshows⟩ := screen_shows_drawing hsound true dashFont
    [.rect 0 1 10 1 navy,.text 1 1 [ 'A'] amber none] (by
      intro command hc
      rcases List.mem_cons.mp hc with rfl|hc
      · exact ⟨by decide,by decide⟩
      · cases List.mem_singleton.mp hc
        exact ⟨by decide,by decide⟩) fun _ => 0
  exact ⟨m',hdraw,hshows.drawn 2 (by decide) 1 (by decide) navy (by decide),
    hshows.drawn 3 (by decide) 1 (by decide) amber (by decide),
    hshows.kept 3 (by decide) 0 (by decide) (by decide)⟩

end Zamak.ScreenDrawing
