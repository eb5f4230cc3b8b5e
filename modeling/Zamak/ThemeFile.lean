import Zamak.BootFlow
import Zamak.PartialSteps
import Zamak.ThemeColors

/-! # Theme files

A theme file is read line by line over the built-in theme, and a value that is no colour
leaves it as it was. Reading comes to an end exactly when no value cuts a character; what
the lines set, and under which section, has no part in it. -/

set_option autoImplicit false

namespace Zamak.ThemeFile
open Zamak.ConfigText Zamak.ThemeColors
open Zamak.BootFlow (fromUtf8)
open Zamak.PartialSteps (foldlM_isSome)

structure SurfaceTokens where
  background : Rgb
  foreground : Rgb
  dim : Rgb
  bright : Rgb
  deriving DecidableEq

structure AccentTokens where
  primary : Rgb
  secondary : Rgb
  error : Rgb
  warning : Rgb
  success : Rgb
  deriving DecidableEq

structure EditorTokens where
  key : Rgb
  colon : Rgb
  value : Rgb
  comment : Rgb
  invalid : Rgb
  deriving DecidableEq

structure BrandingTokens where
  textColor : Rgb
  barColor : Rgb
  deriving DecidableEq

structure Theme where
  surface : SurfaceTokens
  accent : AccentTokens
  ansi : Vector Rgb 16
  editor : EditorTokens
  branding : BrandingTokens
  deriving DecidableEq

inductive ThemeVariant where
  | dark
  | light
  deriving DecidableEq

def Theme.default : Theme where
  surface := {
    background := .new 0x00 0x00 0x27
    foreground := .new 0xD9 0x8E 0x32
    dim := .new 0xA0 0x6A 0x20
    bright := .new 0xF5 0xC8 0x7A }
  accent := {
    primary := .new 0x15 0x65 0xC0
    secondary := .new 0x50 0xFA 0x7B
    error := .new 0xD3 0x2F 0x2F
    warning := .new 0xF5 0x7F 0x17
    success := .new 0x50 0xFA 0x7B }
  ansi := #v[
    .new 0x00 0x00 0x27,.new 0xFF 0x5C 0x5C,.new 0x50 0xFA 0x7B,.new 0xD9 0x8E 0x32,
    .new 0x15 0x65 0xC0,.new 0xBD 0x93 0xF9,.new 0x8B 0xE9 0xFD,.new 0xF8 0xF8 0xF2,
    .new 0x44 0x47 0x5A,.new 0xFF 0x6E 0x6E,.new 0x69 0xFF 0x94,.new 0xF1 0xFA 0x8C,
    .new 0x42 0xA5 0xF5,.new 0xD6 0xAC 0xFF,.new 0xA4 0xF0 0xFF,.new 0xFF 0xFF 0xFF]
  editor := {
    key := .new 0x8B 0xE9 0xFD
    colon := .new 0x50 0xFA 0x7B
    value := .new 0xD9 0x8E 0x32
    comment := .new 0xA0 0x6A 0x20
    invalid := .new 0xFF 0x5C 0x5C }
  branding := {
    textColor := .new 0xD9 0x8E 0x32
    barColor := .new 0x15 0x65 0xC0 }

def Theme.withVariant (theme : Theme) (variant : ThemeVariant) : Theme :=
  if variant = .light then
    { theme with surface := {
        background := theme.surface.foreground
        foreground := theme.surface.background
        dim := theme.surface.bright
        bright := theme.surface.dim } }
  else theme

def applySurface (tokens : SurfaceTokens) (key : Text) (color : Rgb) : SurfaceTokens :=
  if key = "background".toList then { tokens with background := color }
  else if key = "foreground".toList then { tokens with foreground := color }
  else if key = "dim".toList then { tokens with dim := color }
  else if key = "bright".toList then { tokens with bright := color }
  else tokens

def applyAccent (tokens : AccentTokens) (key : Text) (color : Rgb) : AccentTokens :=
  if key = "primary".toList then { tokens with primary := color }
  else if key = "secondary".toList then { tokens with secondary := color }
  else if key = "error".toList then { tokens with error := color }
  else if key = "warning".toList then { tokens with warning := color }
  else if key = "success".toList then { tokens with success := color }
  else tokens

def ansiKey : Text := "ansi_".toList

def applyAnsi (ansi : Vector Rgb 16) (key : Text) (color : Rgb) : Vector Rgb 16 :=
  if ansiKey.isPrefixOf key then
    match parseUnsigned 64 (key.drop ansiKey.length) with
    | none => ansi
    | some index => if h : index < 16 then ansi.set index color h else ansi
  else ansi

def applyEditor (tokens : EditorTokens) (key : Text) (color : Rgb) : EditorTokens :=
  if key = "key".toList then { tokens with key := color }
  else if key = "colon".toList then { tokens with colon := color }
  else if key = "value".toList then { tokens with value := color }
  else if key = "comment".toList then { tokens with comment := color }
  else if key = "invalid".toList then { tokens with invalid := color }
  else tokens

def applyBranding (tokens : BrandingTokens) (key : Text) (color : Rgb) : BrandingTokens :=
  if key = "text_color".toList then { tokens with textColor := color }
  else if key = "bar_color".toList then { tokens with barColor := color }
  else tokens

def applyColor (theme : Theme) (name key : Text) (color : Rgb) : Theme :=
  if name = "surface".toList then { theme with surface := applySurface theme.surface key color }
  else if name = "accent".toList then { theme with accent := applyAccent theme.accent key color }
  else if name = "palette".toList then { theme with ansi := applyAnsi theme.ansi key color }
  else if name = "editor".toList then { theme with editor := applyEditor theme.editor key color }
  else if name = "branding".toList then
    { theme with branding := applyBranding theme.branding key color }
  else theme

def unquoted (value : Text) : Text :=
  if value.head? = some '\x22' ∧ value.tail.getLast? = some '\x22' then value.tail.dropLast
  else value

def unhashed (value : Text) : Text := if value.head? = some '#' then value.tail else value

structure Reading where
  theme : Theme
  heading : Text

inductive Line where
  | skipped
  | header (name : Text)
  | entry (key hex : Text)

def classify (line : Text) : Line :=
  if line = [] ∨ line.head? = some '#' then .skipped
  else if line.head? = some '[' then
    match splitOnce ']' line with
    | none => .skipped
    | some (before,_) => .header (trim before.tail)
  else
    match splitOnce '=' line with
    | none => .skipped
    | some (key,value) => .entry (trim key) (unhashed (unquoted (trim value)))

def readLine (state : Reading) (line : Text) : Option Reading :=
  match classify (trim line) with
  | .skipped => some state
  | .header name => some { state with heading := name }
  | .entry key hex => (fromHex hex).map fun color =>
    match color with
    | none => state
    | some color => { state with theme := applyColor state.theme state.heading key color }

def fromToml (toml : Text) : Option Theme :=
  ((lines toml).foldlM readLine { theme := .default, heading := [] }).map Reading.theme

def loadFromBytes (bytes : List UInt8) (variant : ThemeVariant) : Option Theme :=
  (fromToml ((fromUtf8 bytes).getD [])).map fun theme => theme.withVariant variant

def lineHex (line : Text) : Option Text :=
  match classify (trim line) with
  | .entry _ hex => some hex
  | .skipped => none
  | .header _ => none

/-- No value of the file cuts a character. -/
def AllSliceable (toml : Text) : Prop :=
  ∀ hex ∈ (lines toml).filterMap lineHex, byteLength hex = 6 → Sliceable hex

section Reading

theorem readLine_isSome (state : Reading) (line : Text) :
    (readLine state line).isSome ↔ ∀ hex ∈ lineHex line, (fromHex hex).isSome := by
  rw [readLine,lineHex]
  cases classify (trim line) with
  | skipped => simp
  | header name => simp
  | entry key hex => simp

theorem fromToml_isSome (toml : Text) : (fromToml toml).isSome ↔ AllSliceable toml := by
  rw [fromToml,Option.isSome_map,foldlM_isSome readLine _ readLine_isSome]
  simp only [fromHex_isSome,AllSliceable,List.mem_filterMap]
  constructor
  · rintro h hex ⟨line,hline,hhex⟩
    exact h line hline hex hhex
  · exact fun h line hline hex hhex => h hex ⟨line,hline,hhex⟩

theorem loadFromBytes_isSome (bytes : List UInt8) (variant : ThemeVariant) :
    (loadFromBytes bytes variant).isSome ↔ AllSliceable ((fromUtf8 bytes).getD []) := by
  rw [loadFromBytes,Option.isSome_map,fromToml_isSome]

/-- A colour is read as promised for the regular texts alone, and a theme comes back for the
files that no value of theirs cuts, in either form. -/
theorem themes_right_iff (s toml : Text) (bytes : List UInt8) (variant : ThemeVariant) :
    (ReadsRight s ↔ Regular s) ∧
    ((fromToml toml).isSome ↔ AllSliceable toml) ∧
    ((loadFromBytes bytes variant).isSome ↔ AllSliceable ((fromUtf8 bytes).getD [])) :=
  ⟨readsRight_iff s,fromToml_isSome toml,loadFromBytes_isSome bytes variant⟩

def signedDigits : Text := "+1+2+3".toList

def cutCharacter : Text := "a€bc".toList

def cutLine : Text := "k=a€bc".toList

def cutFile : List UInt8 := cutLine.flatMap String.utf8EncodeChar

theorem fromUtf8_encode (text : Text) :
    fromUtf8 (text.flatMap String.utf8EncodeChar) = some text := by
  have hbytes : (⟨(text.flatMap String.utf8EncodeChar).toArray⟩ : ByteArray) =
      text.utf8Encode := by
    apply ByteArray.ext
    rw [List.utf8Encode,List.data_toByteArray]
  have hvalid : ByteArray.IsValidUTF8 text.utf8Encode := ByteArray.isValidUTF8_utf8Encode
  have hstring : String.fromUTF8 text.utf8Encode hvalid = String.ofList text := by
    apply String.toByteArray_inj.mp
    rw [String.toByteArray_ofList]
    rfl
  rw [fromUtf8,hbytes,String.fromUTF8?,dif_pos hvalid,hstring,Option.map_some,
    String.toList_ofList]

theorem signs_and_cuts :
    (fromHex signedDigits = some (some (Rgb.new 1 2 3)) ∧ ¬ReadsRight signedDigits) ∧
    fromHex cutCharacter = none ∧ fromToml cutLine = none ∧
    loadFromBytes cutFile .dark = none := by
  have hsigns : fromHex signedDigits = some (some (Rgb.new 1 2 3)) := by decide
  have hfile : fromToml cutLine = none := by decide
  refine ⟨⟨hsigns,?_⟩,by decide,hfile,?_⟩
  · rintro ⟨result,hresult,hright⟩
    rw [hsigns] at hresult
    exact ((hright (Rgb.new 1 2 3)).mp (Option.some.inj hresult).symm).unsigned (by decide)
  · rw [loadFromBytes,cutFile,fromUtf8_encode,Option.getD_some,hfile]
    rfl

end Reading

end Zamak.ThemeFile
