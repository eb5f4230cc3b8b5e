import Zamak.BootAnswers
import Zamak.PlacedBlocks
import Zamak.Stamps
import Zamak.Wallpaper

/-! # The screen in memory

`gfx.rs` writes a pixel as a word of the framebuffer, its colours shifted to where the
framebuffer has them. What is read back from the words is a picture, and a pixel that is
put changes this picture in one place and no byte of memory outside of the screen. With
checks an overflow is a panic, `none`; without them sums wrap. -/

set_option autoImplicit false

namespace Zamak.ScreenMemory
open Zamak.BootAnswers Zamak.PlacedBlocks Zamak.Segments Zamak.Stamps Zamak.TagStreams
open Zamak.Wallpaper (Color)

/-- A `u64` result, with or without checks for overflow. -/
def asU64 (checks : Bool) (n : ℕ) : Option ℕ :=
  if n < 2^64 then some n else if checks then none else some (n%2^64)

def shifted (checks : Bool) (c : UInt8) (shift : ℕ) : Option (BitVec 32) :=
  if shift < 32 then some (c.toBitVec.setWidth 32<<<shift)
  else if checks then none else some (c.toBitVec.setWidth 32<<<(shift%32))

section Pixels
variable (fb : Framebuffer)

def putPixel (checks : Bool) (x y : ℕ) (color : Color) (memory : ℕ → UInt8) :
    Option (ℕ → UInt8) :=
  if x ≥ fb.width ∨ y ≥ fb.height then some memory
  else do
    let row ← asU64 checks (y*fb.pitch)
    let column ← asU64 checks (x*(fb.bpp/8))
    let pixelOffset ← asU64 checks (row+column)
    let ptr ← asU64 checks (fb.address+pixelOffset)
    let red ← shifted checks color.r fb.redMaskShift
    let green ← shifted checks color.g fb.greenMaskShift
    let blue ← shifted checks color.b fb.blueMaskShift
    some (store memory ptr (natBytes 4 (0#32|||red|||green|||blue).toNat))

/-- A mode of 32 bits a pixel whose rows and colours do not overlap. -/
structure Sound : Prop where
  bpp : fb.bpp = 32
  pitch : fb.width*4 ≤ fb.pitch
  memory : fb.address+fb.height*fb.pitch ≤ 2^64
  red : fb.redMaskShift+8 ≤ 32
  green : fb.greenMaskShift+8 ≤ 32
  blue : fb.blueMaskShift+8 ≤ 32
  red_green : fb.redMaskShift+8 ≤ fb.greenMaskShift ∨ fb.greenMaskShift+8 ≤ fb.redMaskShift
  red_blue : fb.redMaskShift+8 ≤ fb.blueMaskShift ∨ fb.blueMaskShift+8 ≤ fb.redMaskShift
  green_blue : fb.greenMaskShift+8 ≤ fb.blueMaskShift ∨ fb.blueMaskShift+8 ≤ fb.greenMaskShift

def pixelAt (x y : ℕ) : ℕ := fb.address+(y*fb.pitch+x*4)

def wordAt (memory : ℕ → UInt8) (x y : ℕ) : BitVec 32 :=
  BitVec.ofNat 32 (bytesNat (stretch memory (pixelAt fb x y) 4))

def colorOf (word : BitVec 32) : Color where
  r := UInt8.ofBitVec (word.extractLsb' fb.redMaskShift 8)
  g := UInt8.ofBitVec (word.extractLsb' fb.greenMaskShift 8)
  b := UInt8.ofBitVec (word.extractLsb' fb.blueMaskShift 8)

def colorAt (memory : ℕ → UInt8) (x y : ℕ) : Color := colorOf fb (wordAt fb memory x y)

def OnScreen (a : ℕ) : Prop :=
  ∃ x < fb.width, ∃ y < fb.height, pixelAt fb x y ≤ a ∧ a < pixelAt fb x y+4

structure Shows (before memory : ℕ → UInt8) (p : Picture Color) : Prop where
  drawn : ∀ x < fb.width, ∀ y < fb.height, ∀ color, p x y = some color →
    colorAt fb memory x y = color
  kept : ∀ x < fb.width, ∀ y < fb.height, p x y = none →
    colorAt fb memory x y = colorAt fb before x y
  frame : ∀ a, ¬OnScreen fb a → memory a = before a

end Pixels

section Words

theorem extract_shifted (c : BitVec 8) (shift : ℕ) (h : shift+8 ≤ 32) :
    (c.setWidth 32<<<shift).extractLsb' shift 8 = c := by
  apply BitVec.eq_of_getLsbD_eq
  intro k hk
  simp only [BitVec.getLsbD_extractLsb',BitVec.getLsbD_shiftLeft,BitVec.getLsbD_setWidth]
  have hlt : shift+k < 32 := by omega
  have hin : ¬shift+k < shift := by omega
  have hplace : shift+k-shift = k := by omega
  have hwide : k < 32 := by omega
  simp [hk,hlt,hplace,hwide]

theorem extract_apart (c : BitVec 8) (shift other : ℕ) (h : shift+8 ≤ other ∨ other+8 ≤ shift) :
    (c.setWidth 32<<<other).extractLsb' shift 8 = 0#8 := by
  apply BitVec.eq_of_getLsbD_eq
  intro k hk
  simp only [BitVec.getLsbD_extractLsb',BitVec.getLsbD_shiftLeft,BitVec.getLsbD_setWidth,
    BitVec.getLsbD_zero]
  rcases h with hbelow|habove
  · have hlt : shift+k < other := by omega
    simp [hlt]
  · have hout : c.getLsbD (shift+k-other) = false := BitVec.getLsbD_of_ge c _ (by omega)
    simp [hout]

end Words

section Put
variable {fb : Framebuffer}

theorem wordAt_stored {x y : ℕ} (memory : ℕ → UInt8) (word : BitVec 32) :
    wordAt fb (store memory (pixelAt fb x y) (natBytes 4 word.toNat)) x y = word := by
  have hlength : (natBytes 4 word.toNat).length = 4 := natBytes_length 4 _
  have hstretch := stretch_store memory (pixelAt fb x y) (natBytes 4 word.toNat)
  rw [hlength] at hstretch
  rw [wordAt,hstretch,bytesNat_natBytes 4 _ word.isLt,BitVec.ofNat_toNat,BitVec.setWidth_eq]

variable (hfb : Sound fb)
include hfb

theorem pixel_inside {x y : ℕ} (hx : x < fb.width) (hy : y < fb.height) :
    y*fb.pitch+x*4+4 ≤ fb.height*fb.pitch := by
  have hrow : (y+1)*fb.pitch ≤ fb.height*fb.pitch := Nat.mul_le_mul_right _ hy
  have hpitch := hfb.pitch
  rw [Nat.succ_mul] at hrow
  omega

theorem pixels_apart {x y i j : ℕ} (hx : x < fb.width) (hi : i < fb.width)
    (hne : ¬(i = x ∧ j = y)) :
    pixelAt fb x y+4 ≤ pixelAt fb i j ∨ pixelAt fb i j+4 ≤ pixelAt fb x y := by
  have hpitch := hfb.pitch
  unfold pixelAt
  rcases Nat.lt_trichotomy y j with hlt|rfl|hgt
  · have hrow : (y+1)*fb.pitch ≤ j*fb.pitch := Nat.mul_le_mul_right _ hlt
    rw [Nat.succ_mul] at hrow
    omega
  · omega
  · have hrow : (j+1)*fb.pitch ≤ y*fb.pitch := Nat.mul_le_mul_right _ hgt
    rw [Nat.succ_mul] at hrow
    omega

theorem colorOf_word (color : Color) :
    colorOf fb (0#32|||color.r.toBitVec.setWidth 32<<<fb.redMaskShift|||
      color.g.toBitVec.setWidth 32<<<fb.greenMaskShift|||
      color.b.toBitVec.setWidth 32<<<fb.blueMaskShift) = color := by
  have hrg := hfb.red_green
  have hrb := hfb.red_blue
  have hgb := hfb.green_blue
  cases color with
  | mk r g b =>
    simp only [colorOf,BitVec.zero_or,BitVec.extractLsb'_or]
    rw [extract_shifted _ _ hfb.red,extract_shifted _ _ hfb.green,extract_shifted _ _ hfb.blue,
      extract_apart _ _ _ hrg,extract_apart _ _ _ hrb,extract_apart _ _ _ hrg.symm,
      extract_apart _ _ _ hgb,extract_apart _ _ _ hrb.symm,extract_apart _ _ _ hgb.symm]
    simp

theorem putPixel_inside (checks : Bool) {x y : ℕ} (hx : x < fb.width) (hy : y < fb.height)
    (color : Color) (memory : ℕ → UInt8) :
    putPixel fb checks x y color memory = some (store memory (pixelAt fb x y)
      (natBytes 4 (0#32|||color.r.toBitVec.setWidth 32<<<fb.redMaskShift|||
        color.g.toBitVec.setWidth 32<<<fb.greenMaskShift|||
        color.b.toBitVec.setWidth 32<<<fb.blueMaskShift).toNat)) := by
  have hinside := pixel_inside hfb hx hy
  have hmemory := hfb.memory
  have hunit : fb.bpp/8 = 4 := by rw [hfb.bpp]
  have hfits : ∀ n, n < 2^64 → asU64 checks n = some n := fun n hn => if_pos hn
  have hred : shifted checks color.r fb.redMaskShift =
      some (color.r.toBitVec.setWidth 32<<<fb.redMaskShift) := if_pos (by have := hfb.red; omega)
  have hgreen : shifted checks color.g fb.greenMaskShift =
      some (color.g.toBitVec.setWidth 32<<<fb.greenMaskShift) :=
    if_pos (by have := hfb.green; omega)
  have hblue : shifted checks color.b fb.blueMaskShift =
      some (color.b.toBitVec.setWidth 32<<<fb.blueMaskShift) :=
    if_pos (by have := hfb.blue; omega)
  rw [putPixel,if_neg (by omega),hunit,hfits (y*fb.pitch) (by omega),hfits (x*4) (by omega)]
  simp only [Option.bind_eq_bind,Option.bind_some]
  rw [hfits _ (by omega)]
  simp only [Option.bind_some]
  rw [hfits _ (by omega),hred,hgreen,hblue]
  rfl

theorem colorAt_apart {x y i j : ℕ} (memory : ℕ → UInt8) (word : ℕ) (hx : x < fb.width)
    (hi : i < fb.width) (hne : ¬(i = x ∧ j = y)) :
    colorAt fb (store memory (pixelAt fb x y) (natBytes 4 word)) i j = colorAt fb memory i j := by
  have hapart := pixels_apart hfb hx hi hne
  have hsame : stretch (store memory (pixelAt fb x y) (natBytes 4 word)) (pixelAt fb i j) 4 =
      stretch memory (pixelAt fb i j) 4 := by
    apply stretch_congr
    intro k hk
    apply store_outside
    rw [natBytes_length]
    omega
  rw [colorAt,colorAt,wordAt,wordAt,hsame]

theorem putPixel_shows (checks : Bool) (before : ℕ → UInt8) (x y : ℕ) (color : Color) :
    Puts (Shows fb before) (putPixel fb checks x y color) x y (some color) := by
  intro memory p hp
  by_cases hout : x ≥ fb.width ∨ y ≥ fb.height
  · refine ⟨memory,if_pos hout,?_,?_,hp.frame⟩
    · intro i hi j hj c hc
      rw [cell_elsewhere x y _ p i j (by omega)] at hc
      exact hp.drawn i hi j hj c hc
    · intro i hi j hj hc
      rw [cell_elsewhere x y _ p i j (by omega)] at hc
      exact hp.kept i hi j hj hc
  · rw [not_or,Nat.not_le,Nat.not_le] at hout
    refine ⟨_,putPixel_inside hfb checks hout.1 hout.2 color memory,?_,?_,?_⟩
    · intro i hi j hj c hc
      by_cases hhere : i = x ∧ j = y
      · obtain ⟨rfl,rfl⟩ := hhere
        rw [cell_here] at hc
        cases hc
        rw [colorAt,wordAt_stored,colorOf_word hfb]
      · rw [cell_elsewhere x y _ p i j hhere] at hc
        rw [colorAt_apart hfb _ _ hout.1 hi hhere]
        exact hp.drawn i hi j hj c hc
    · intro i hi j hj hc
      by_cases hhere : i = x ∧ j = y
      · obtain ⟨rfl,rfl⟩ := hhere
        rw [cell_here] at hc
        cases hc
      · rw [cell_elsewhere x y _ p i j hhere] at hc
        rw [colorAt_apart hfb _ _ hout.1 hi hhere]
        exact hp.kept i hi j hj hc
    · intro a ha
      rw [← hp.frame a ha]
      apply store_outside
      rw [natBytes_length]
      by_contra hin
      exact ha ⟨x,hout.1,y,hout.2,by omega,by omega⟩

end Put

end Zamak.ScreenMemory
