import Zamak.ReferenceParser
import Zamak.ThemeFile

/-! # What a theme file sets

A theme is its colour tokens. A line assigns a token a colour when the section and the key
name the token and the value is a colour; every token has a line that does. Reading a file
gives each token the colour of the last line that assigns it, or leaves its default, so two
assignments to different tokens may change places. -/

set_option autoImplicit false

namespace Zamak.ThemeTokens
open Zamak.ConfigText Zamak.ThemeColors Zamak.ThemeFile

inductive SurfaceToken where
  | background
  | foreground
  | dim
  | bright
  deriving DecidableEq

inductive AccentToken where
  | primary
  | secondary
  | error
  | warning
  | success
  deriving DecidableEq

inductive EditorToken where
  | key
  | colon
  | value
  | comment
  | invalid
  deriving DecidableEq

inductive BrandingToken where
  | textColor
  | barColor
  deriving DecidableEq

inductive Token where
  | surface (t : SurfaceToken)
  | accent (t : AccentToken)
  | ansi (i : Fin 16)
  | editor (t : EditorToken)
  | branding (t : BrandingToken)
  deriving DecidableEq

def surfaceColor (tokens : SurfaceTokens) : SurfaceToken → Rgb
  | .background => tokens.background
  | .foreground => tokens.foreground
  | .dim => tokens.dim
  | .bright => tokens.bright

def accentColor (tokens : AccentTokens) : AccentToken → Rgb
  | .primary => tokens.primary
  | .secondary => tokens.secondary
  | .error => tokens.error
  | .warning => tokens.warning
  | .success => tokens.success

def editorColor (tokens : EditorTokens) : EditorToken → Rgb
  | .key => tokens.key
  | .colon => tokens.colon
  | .value => tokens.value
  | .comment => tokens.comment
  | .invalid => tokens.invalid

def brandingColor (tokens : BrandingTokens) : BrandingToken → Rgb
  | .textColor => tokens.textColor
  | .barColor => tokens.barColor

def colorOf (theme : Theme) : Token → Rgb
  | .surface t => surfaceColor theme.surface t
  | .accent t => accentColor theme.accent t
  | .ansi i => theme.ansi.get i
  | .editor t => editorColor theme.editor t
  | .branding t => brandingColor theme.branding t

def surfaceNamed (key : Text) : Option SurfaceToken :=
  if key = "background".toList then some .background
  else if key = "foreground".toList then some .foreground
  else if key = "dim".toList then some .dim
  else if key = "bright".toList then some .bright
  else none

def accentNamed (key : Text) : Option AccentToken :=
  if key = "primary".toList then some .primary
  else if key = "secondary".toList then some .secondary
  else if key = "error".toList then some .error
  else if key = "warning".toList then some .warning
  else if key = "success".toList then some .success
  else none

def ansiNamed (key : Text) : Option (Fin 16) :=
  if ansiKey.isPrefixOf key then
    match parseUnsigned 64 (key.drop ansiKey.length) with
    | none => none
    | some index => if h : index < 16 then some ⟨index,h⟩ else none
  else none

def editorNamed (key : Text) : Option EditorToken :=
  if key = "key".toList then some .key
  else if key = "colon".toList then some .colon
  else if key = "value".toList then some .value
  else if key = "comment".toList then some .comment
  else if key = "invalid".toList then some .invalid
  else none

def brandingNamed (key : Text) : Option BrandingToken :=
  if key = "text_color".toList then some .textColor
  else if key = "bar_color".toList then some .barColor
  else none

def tokenNamed (name key : Text) : Option Token :=
  if name = "surface".toList then (surfaceNamed key).map .surface
  else if name = "accent".toList then (accentNamed key).map .accent
  else if name = "palette".toList then (ansiNamed key).map .ansi
  else if name = "editor".toList then (editorNamed key).map .editor
  else if name = "branding".toList then (brandingNamed key).map .branding
  else none

def heading (ls : List Text) : Text :=
  ((ls.filterMap fun line =>
    match classify (trim line) with
    | .header name => some name
    | .skipped => none
    | .entry _ _ => none).getLast?).getD []

/-- A line under a section has a token's key, whatever its value. -/
def Names (name line : Text) (token : Token) : Prop :=
  ∃ key hex, classify (trim line) = .entry key hex ∧ tokenNamed name key = some token

def Gives (name line : Text) (token : Token) (color : Rgb) : Prop :=
  ∃ key hex, classify (trim line) = .entry key hex ∧ tokenNamed name key = some token ∧
    fromHex hex = some (some color)

/-- The line with the index `i` assigns a token under the section it is in. -/
def Assigns (ls : List Text) (i : ℕ) (token : Token) (color : Rgb) : Prop :=
  ∃ line, ls[i]? = some line ∧ Gives (heading (ls.take i)) line token color

/-- The colour of the last line that assigns the token, or its default. -/
def Settles (ls : List Text) (token : Token) (color : Rgb) : Prop :=
  (∃ i, Assigns ls i token color ∧ ∀ j other, i < j → ¬Assigns ls j token other) ∨
    color = colorOf .default token ∧ ∀ i other, ¬Assigns ls i token other

theorem surfaceColor_apply (tokens : SurfaceTokens) (key : Text) (color : Rgb)
    (t : SurfaceToken) :
    surfaceColor (applySurface tokens key color) t =
      if surfaceNamed key = some t then color else surfaceColor tokens t := by
  unfold applySurface surfaceNamed
  split_ifs <;> cases t <;> first | rfl | simp_all

theorem accentColor_apply (tokens : AccentTokens) (key : Text) (color : Rgb) (t : AccentToken) :
    accentColor (applyAccent tokens key color) t =
      if accentNamed key = some t then color else accentColor tokens t := by
  unfold applyAccent accentNamed
  split_ifs <;> cases t <;> first | rfl | simp_all

theorem editorColor_apply (tokens : EditorTokens) (key : Text) (color : Rgb) (t : EditorToken) :
    editorColor (applyEditor tokens key color) t =
      if editorNamed key = some t then color else editorColor tokens t := by
  unfold applyEditor editorNamed
  split_ifs <;> cases t <;> first | rfl | simp_all

theorem brandingColor_apply (tokens : BrandingTokens) (key : Text) (color : Rgb)
    (t : BrandingToken) :
    brandingColor (applyBranding tokens key color) t =
      if brandingNamed key = some t then color else brandingColor tokens t := by
  unfold applyBranding brandingNamed
  split_ifs <;> cases t <;> first | rfl | simp_all

theorem ansi_apply (ansi : Vector Rgb 16) (key : Text) (color : Rgb) (i : Fin 16) :
    (applyAnsi ansi key color).get i =
      if ansiNamed key = some i then color else ansi.get i := by
  by_cases hprefix : ansiKey.isPrefixOf key = true
  · cases hindex : parseUnsigned 64 (key.drop ansiKey.length) with
    | none =>
      have happly : applyAnsi ansi key color = ansi := by rw [applyAnsi,if_pos hprefix,hindex]
      have hnamed : ansiNamed key = none := by rw [ansiNamed,if_pos hprefix,hindex]
      rw [happly,hnamed,if_neg nofun]
    | some index =>
      by_cases h : index < 16
      · have happly : applyAnsi ansi key color = ansi.set index color h := by
          rw [applyAnsi,if_pos hprefix,hindex]
          exact dif_pos h
        have hnamed : ansiNamed key = some ⟨index,h⟩ := by
          rw [ansiNamed,if_pos hprefix,hindex]
          exact dif_pos h
        rw [happly,hnamed]
        show (ansi.set index color h)[i.val] =
          if some (Fin.mk index h) = some i then color else ansi[i.val]
        rw [Vector.getElem_set]
        simp only [Option.some.injEq,Fin.ext_iff]
      · have happly : applyAnsi ansi key color = ansi := by
          rw [applyAnsi,if_pos hprefix,hindex]
          exact dif_neg h
        have hnamed : ansiNamed key = none := by
          rw [ansiNamed,if_pos hprefix,hindex]
          exact dif_neg h
        rw [happly,hnamed,if_neg nofun]
  · have hnamed : ansiNamed key = none := by rw [ansiNamed,if_neg hprefix]
    rw [applyAnsi,if_neg hprefix,hnamed,if_neg nofun]

theorem colorOf_applyColor (theme : Theme) (name key : Text) (color : Rgb) (token : Token) :
    colorOf (applyColor theme name key color) token =
      if tokenNamed name key = some token then color else colorOf theme token := by
  unfold applyColor tokenNamed
  by_cases hsurface : name = "surface".toList
  · rw [if_pos hsurface,if_pos hsurface]
    cases token <;> simp [colorOf,surfaceColor_apply]
  rw [if_neg hsurface,if_neg hsurface]
  by_cases haccent : name = "accent".toList
  · rw [if_pos haccent,if_pos haccent]
    cases token <;> simp [colorOf,accentColor_apply]
  rw [if_neg haccent,if_neg haccent]
  by_cases hpalette : name = "palette".toList
  · rw [if_pos hpalette,if_pos hpalette]
    cases token <;> simp [colorOf,ansi_apply]
  rw [if_neg hpalette,if_neg hpalette]
  by_cases heditor : name = "editor".toList
  · rw [if_pos heditor,if_pos heditor]
    cases token <;> simp [colorOf,editorColor_apply]
  rw [if_neg heditor,if_neg heditor]
  by_cases hbranding : name = "branding".toList
  · rw [if_pos hbranding,if_pos hbranding]
    cases token <;> simp [colorOf,brandingColor_apply]
  rw [if_neg hbranding,if_neg hbranding,if_neg nofun]

theorem surface_ext {a b : SurfaceTokens} (h : ∀ t, surfaceColor a t = surfaceColor b t) :
    a = b := by
  cases a
  cases b
  rw [SurfaceTokens.mk.injEq]
  exact ⟨h .background,h .foreground,h .dim,h .bright⟩

theorem accent_ext {a b : AccentTokens} (h : ∀ t, accentColor a t = accentColor b t) : a = b := by
  cases a
  cases b
  rw [AccentTokens.mk.injEq]
  exact ⟨h .primary,h .secondary,h .error,h .warning,h .success⟩

theorem editor_ext {a b : EditorTokens} (h : ∀ t, editorColor a t = editorColor b t) : a = b := by
  cases a
  cases b
  rw [EditorTokens.mk.injEq]
  exact ⟨h .key,h .colon,h .value,h .comment,h .invalid⟩

theorem branding_ext {a b : BrandingTokens} (h : ∀ t, brandingColor a t = brandingColor b t) :
    a = b := by
  cases a
  cases b
  rw [BrandingTokens.mk.injEq]
  exact ⟨h .textColor,h .barColor⟩

theorem theme_ext {theme theme' : Theme}
    (h : ∀ token, colorOf theme token = colorOf theme' token) : theme = theme' := by
  cases theme
  cases theme'
  rw [Theme.mk.injEq]
  exact ⟨surface_ext fun t => h (.surface t),accent_ext fun t => h (.accent t),
    Vector.ext fun i hi => h (.ansi ⟨i,hi⟩),editor_ext fun t => h (.editor t),
    branding_ext fun t => h (.branding t)⟩

theorem applyColor_comm (theme : Theme) (name name' key key' : Text) (color color' : Rgb)
    (h : ∀ token, tokenNamed name key = some token → tokenNamed name' key' ≠ some token) :
    applyColor (applyColor theme name key color) name' key' color' =
      applyColor (applyColor theme name' key' color') name key color := by
  apply theme_ext
  intro token
  simp only [colorOf_applyColor]
  by_cases hfirst : tokenNamed name key = some token
  · rw [if_neg (h token hfirst),if_pos hfirst,if_pos hfirst]
  · rw [if_neg hfirst,if_neg hfirst]

def sectionName : Token → Text
  | .surface _ => "surface".toList
  | .accent _ => "accent".toList
  | .ansi _ => "palette".toList
  | .editor _ => "editor".toList
  | .branding _ => "branding".toList

def keyName : Token → Text
  | .surface .background => "background".toList
  | .surface .foreground => "foreground".toList
  | .surface .dim => "dim".toList
  | .surface .bright => "bright".toList
  | .accent .primary => "primary".toList
  | .accent .secondary => "secondary".toList
  | .accent .error => "error".toList
  | .accent .warning => "warning".toList
  | .accent .success => "success".toList
  | .ansi i => ansiKey++Nat.toDigits 10 i.val
  | .editor .key => "key".toList
  | .editor .colon => "colon".toList
  | .editor .value => "value".toList
  | .editor .comment => "comment".toList
  | .editor .invalid => "invalid".toList
  | .branding .textColor => "text_color".toList
  | .branding .barColor => "bar_color".toList

theorem ansiNamed_key (i : Fin 16) : ansiNamed (ansiKey++Nat.toDigits 10 i.val) = some i := by
  revert i
  decide

theorem tokenNamed_self (token : Token) : tokenNamed (sectionName token) (keyName token) =
    some token := by
  cases token with
  | surface t => cases t <;> rfl
  | accent t => cases t <;> rfl
  | ansi i =>
    have hnamed := ansiNamed_key i
    show (ansiNamed (ansiKey++Nat.toDigits 10 i.val)).map Token.ansi = some (.ansi i)
    rw [hnamed,Option.map_some]
  | editor t => cases t <;> rfl
  | branding t => cases t <;> rfl

section Lines

theorem heading_snoc (ls : List Text) (line : Text) :
    heading (ls++[line]) =
      match classify (trim line) with
      | .header name => name
      | .skipped => heading ls
      | .entry _ _ => heading ls := by
  unfold heading
  rw [List.filterMap_append]
  cases hline : classify (trim line) with
  | skipped => simp [hline]
  | header name => simp [hline]
  | entry key hex => simp [hline]

theorem assigns_lt {ls : List Text} {i : ℕ} {token : Token} {color : Rgb}
    (h : Assigns ls i token color) : i < ls.length := by
  obtain ⟨line,hline,-⟩ := h
  exact (List.getElem?_eq_some_iff.mp hline).1

/-- A line behind the others assigns under the section they leave open, and the others as
before. -/
theorem assigns_snoc (ls : List Text) (line : Text) (i : ℕ) (token : Token) (color : Rgb) :
    Assigns (ls++[line]) i token color ↔
      Assigns ls i token color ∨ i = ls.length ∧ Gives (heading ls) line token color := by
  rcases Nat.lt_trichotomy i ls.length with hlt | rfl | hgt
  · rw [Assigns,Assigns,List.getElem?_append_left hlt,List.take_append_of_le_length hlt.le]
    exact ⟨.inl,fun h => h.resolve_right fun hlast => by omega⟩
  · rw [Assigns,List.getElem?_concat_length,List.take_left]
    constructor
    · rintro ⟨line',hline,hgives⟩
      cases hline
      exact .inr ⟨rfl,hgives⟩
    · rintro (hbefore | ⟨-,hgives⟩)
      · exact (Nat.lt_irrefl _ (assigns_lt hbefore)).elim
      · exact ⟨line,rfl,hgives⟩
  · constructor
    · intro h
      have hlt := assigns_lt h
      rw [List.length_append,List.length_singleton] at hlt
      omega
    · rintro (hbefore | ⟨rfl,-⟩)
      · have := assigns_lt hbefore
        omega
      · omega

theorem gives_unique {name line : Text} {token token' : Token} {color color' : Rgb}
    (h : Gives name line token color) (h' : Gives name line token' color') :
    token = token' ∧ color = color' := by
  obtain ⟨key,hex,hline,htoken,hcolor⟩ := h
  obtain ⟨key',hex',hline',htoken',hcolor'⟩ := h'
  obtain ⟨rfl,rfl⟩ := Line.entry.inj (hline.symm.trans hline')
  exact ⟨Option.some.inj (htoken.symm.trans htoken'),
    Option.some.inj (Option.some.inj (hcolor.symm.trans hcolor'))⟩

theorem assigns_unique {ls : List Text} {i : ℕ} {token : Token} {color color' : Rgb}
    (h : Assigns ls i token color) (h' : Assigns ls i token color') : color = color' := by
  obtain ⟨line,hline,hgives⟩ := h
  obtain ⟨line',hline',hgives'⟩ := h'
  cases hline.symm.trans hline'
  exact (gives_unique hgives hgives').2

theorem settles_unique {ls : List Text} {token : Token} {color color' : Rgb}
    (h : Settles ls token color) (h' : Settles ls token color') : color = color' := by
  rcases h with ⟨i,hi,hlast⟩ | ⟨rfl,hnone⟩
  · rcases h' with ⟨j,hj,hlast'⟩ | ⟨rfl,hnone'⟩
    · rcases Nat.lt_trichotomy i j with hlt | rfl | hlt
      · exact (hlast j color' hlt hj).elim
      · exact assigns_unique hi hj
      · exact (hlast' i color hlt hi).elim
    · exact (hnone' i color hi).elim
  · rcases h' with ⟨j,hj,-⟩ | ⟨rfl,-⟩
    · exact (hnone j color' hj).elim
    · rfl

/-- A line that does not assign the token leaves what the lines before settled. -/
theorem settles_kept {ls : List Text} {line : Text} {token : Token} {color : Rgb}
    (h : Settles ls token color) (hline : ∀ other, ¬Gives (heading ls) line token other) :
    Settles (ls++[line]) token color := by
  have hsame : ∀ i other, Assigns (ls++[line]) i token other ↔ Assigns ls i token other := by
    intro i other
    rw [assigns_snoc]
    exact or_iff_left fun hlast => hline other hlast.2
  simpa only [Settles,hsame] using h

theorem settles_given {ls : List Text} {line : Text} {token : Token} {color : Rgb}
    (h : Gives (heading ls) line token color) : Settles (ls++[line]) token color := by
  refine .inl ⟨ls.length,(assigns_snoc ls line _ token color).mpr (.inr ⟨rfl,h⟩),?_⟩
  intro j other hj hassigns
  have hlt := assigns_lt hassigns
  rw [List.length_append,List.length_singleton] at hlt
  omega

theorem readLine_some {state next : Reading} {line : Text}
    (h : readLine state line = some next) :
    (next.heading = match classify (trim line) with
      | .header name => name
      | .skipped => state.heading
      | .entry _ _ => state.heading) ∧
    ∀ token, Gives state.heading line token (colorOf next.theme token) ∨
      colorOf next.theme token = colorOf state.theme token ∧
        ∀ other, ¬Gives state.heading line token other := by
  rw [readLine] at h
  cases hline : classify (trim line) with
  | skipped =>
    rw [hline] at h
    cases h
    refine ⟨rfl,fun token => .inr ⟨rfl,?_⟩⟩
    rintro other ⟨key,hex,hentry,-⟩
    cases hline.symm.trans hentry
  | header name =>
    rw [hline] at h
    cases h
    refine ⟨rfl,fun token => .inr ⟨rfl,?_⟩⟩
    rintro other ⟨key,hex,hentry,-⟩
    cases hline.symm.trans hentry
  | entry key hex =>
    rw [hline] at h
    obtain ⟨result,hresult,rfl⟩ := Option.map_eq_some_iff.mp h
    cases result with
    | none =>
      refine ⟨rfl,fun token => .inr ⟨rfl,?_⟩⟩
      rintro other ⟨key',hex',hentry,-,hcolor⟩
      obtain ⟨rfl,rfl⟩ := Line.entry.inj (hline.symm.trans hentry)
      cases hresult.symm.trans hcolor
    | some color =>
      refine ⟨rfl,fun token => ?_⟩
      dsimp only
      rw [colorOf_applyColor]
      by_cases htoken : tokenNamed state.heading key = some token
      · rw [if_pos htoken]
        exact .inl ⟨key,hex,hline,htoken,hresult⟩
      · rw [if_neg htoken]
        refine .inr ⟨rfl,?_⟩
        rintro other ⟨key',hex',hentry,hnamed,-⟩
        obtain ⟨rfl,rfl⟩ := Line.entry.inj (hline.symm.trans hentry)
        exact htoken hnamed

def startReading : Reading := { theme := .default, heading := [] }

/-- After any number of lines the heading is the last one's and every token is settled. -/
theorem foldlM_settles (ls : List Text) (state : Reading)
    (h : ls.foldlM readLine startReading = some state) :
    state.heading = heading ls ∧ ∀ token, Settles ls token (colorOf state.theme token) := by
  induction ls using List.reverseRecOn generalizing state with
  | nil =>
    cases h
    exact ⟨rfl,fun token => .inr ⟨rfl,fun i other hassigns =>
      Nat.not_lt_zero i (assigns_lt hassigns)⟩⟩
  | append_singleton ls line ih =>
    rw [List.foldlM_append,Option.bind_eq_bind] at h
    obtain ⟨before,hbefore,hline⟩ := Option.bind_eq_some_iff.mp h
    rw [List.foldlM_cons,Option.bind_eq_bind] at hline
    obtain ⟨state',hread,hstate⟩ := Option.bind_eq_some_iff.mp hline
    cases hstate
    obtain ⟨hheading,hsettles⟩ := ih before hbefore
    obtain ⟨hnext,htokens⟩ := readLine_some hread
    rw [hheading] at hnext htokens
    refine ⟨by rw [hnext,heading_snoc],fun token => ?_⟩
    rcases htokens token with hgives | ⟨hkept,hnone⟩
    · exact settles_given hgives
    · rw [hkept]
      exact settles_kept (hsettles token) hnone

theorem readLine_entry {line key hex : Text} (hline : classify (trim line) = .entry key hex)
    (state : Reading) :
    readLine state line = (fromHex hex).map fun result => result.elim state fun color =>
      { state with theme := applyColor state.theme state.heading key color } := by
  unfold readLine
  simp only [hline]
  rcases fromHex hex with _ | _ | color
  · rfl
  · rfl
  · rfl

/-- Two lines with the keys of different tokens of a section may change places. -/
theorem readLine_swap {state : Reading} {a b : Text} {t u : Token}
    (ha : Names state.heading a t) (hb : Names state.heading b u) (hne : t ≠ u) :
    (readLine state a).bind (fun next => readLine next b) =
      (readLine state b).bind fun next => readLine next a := by
  obtain ⟨key,hex,hline,htoken⟩ := ha
  obtain ⟨key',hex',hline',htoken'⟩ := hb
  have hapart : ∀ token, tokenNamed state.heading key = some token →
      tokenNamed state.heading key' ≠ some token := by
    intro token hfirst hsecond
    have hfirst' := Option.some.inj (htoken.symm.trans hfirst)
    have hsecond' := Option.some.inj (htoken'.symm.trans hsecond)
    exact hne (hfirst'.trans hsecond'.symm)
  simp only [readLine_entry hline,readLine_entry hline']
  -- only where both values are colours do the lines set anything
  rcases fromHex hex with _ | _ | color
  · rcases fromHex hex' with _ | _ | color' <;> rfl
  · rcases fromHex hex' with _ | _ | color' <;> rfl
  · rcases fromHex hex' with _ | _ | color'
    · rfl
    · rfl
    · simp only [Option.map_some,Option.bind_some,Option.elim_some]
      rw [applyColor_comm state.theme _ _ _ _ _ _ hapart]

theorem fromToml_swap {toml toml' : Text} {before after : List Text} {a b : Text} {t u : Token}
    (hlines : lines toml = before++a::b::after) (hlines' : lines toml' = before++b::a::after)
    (ha : Names (heading before) a t) (hb : Names (heading before) b u) (hne : t ≠ u) :
    fromToml toml' = fromToml toml := by
  rw [fromToml,fromToml,hlines,hlines',List.foldlM_append,List.foldlM_append]
  congr 1
  cases hstate : before.foldlM readLine startReading with
  | none =>
    rw [startReading] at hstate
    rw [hstate]
    rfl
  | some state =>
    have hheading := (foldlM_settles before state hstate).1
    rw [← hheading] at ha hb
    rw [startReading] at hstate
    have hswap := readLine_swap ha hb hne
    simp only [hstate,List.foldlM_cons,Option.bind_eq_bind,Option.bind_some,
      ← Option.bind_assoc]
    rw [hswap]

end Lines

section Ascii

def Ascii (s : Text) : Prop := ∀ c ∈ s, c.toNat < 128

theorem Ascii.of_mem {s t : Text} (h : Ascii s) (hsub : ∀ c ∈ t, c ∈ s) : Ascii t :=
  fun c hc => h c (hsub c hc)

theorem ascii_length (s : Text) (h : Ascii s) : byteLength s = s.length := by
  induction s with
  | nil => rfl
  | cons c s ih =>
    have hc : c.utf8Size = 1 := by
      have hlt := h c (List.mem_cons_self ..)
      exact Char.utf8Size_eq_one_iff.mpr (UInt32.le_iff_toNat_le.mpr (Nat.le_of_lt_succ hlt))
    rw [byteLength_cons,hc,ih (fun x hx => h x (List.mem_cons_of_mem c hx)),List.length_cons,
      Nat.add_comm]

theorem ascii_boundary (s : Text) (h : Ascii s) (k : ℕ) (hk : k ≤ s.length) : IsBoundary k s := by
  refine ⟨s.take k,s.drop k,(List.take_append_drop k s).symm,?_⟩
  rw [ascii_length _ (h.of_mem fun c hc => List.mem_of_mem_take hc),List.length_take,
    Nat.min_eq_left hk]

theorem ascii_sliceable (s : Text) (h : Ascii s) (hlength : byteLength s = 6) :
    Sliceable s := by
  rw [ascii_length s h] at hlength
  exact ⟨ascii_boundary s h 2 (by omega),fun _ _ _ _ _ => ascii_boundary s h 4 (by omega)⟩

theorem mem_intercalate (sep : Text) (parts : List Text) (part : Text) (hpart : part ∈ parts)
    (c : Char) (hc : c ∈ part) : c ∈ sep.intercalate parts := by
  induction parts with
  | nil => cases hpart
  | cons first rest ih =>
    cases rest with
    | nil =>
      rw [List.intercalate_singleton,← List.mem_singleton.mp hpart]
      exact hc
    | cons second rest =>
      rw [List.intercalate_cons_cons]
      rcases List.mem_cons.mp hpart with rfl | hpart
      · exact List.mem_append_left _ (List.mem_append_left _ hc)
      · exact List.mem_append_right _ (ih hpart)

theorem mem_lines (s line : Text) (hline : line ∈ lines s) (c : Char) (hc : c ∈ line) :
    c ∈ s := by
  have hpart : ∀ part ∈ s.splitOn '\n', ∀ c ∈ part, c ∈ s := by
    intro part hpart c hc
    have hmem := mem_intercalate [ '\n'] (s.splitOn '\n') part hpart c hc
    rwa [List.intercalate_splitOn] at hmem
  rcases List.mem_append.mp hline with hline | hline
  · obtain ⟨part,hmem,rfl⟩ := List.mem_map.mp hline
    refine hpart part (List.mem_of_mem_dropLast hmem) c ?_
    unfold stripCr at hc
    split at hc
    · exact List.mem_of_mem_dropLast hc
    · exact hc
  · have hlast := (List.mem_filter.mp hline).1
    exact hpart line (List.mem_of_mem_getLast? (Option.mem_toList.mp hlast)) c hc

theorem mem_trim (s : Text) (c : Char) (hc : c ∈ trim s) : c ∈ s :=
  (List.dropWhile_suffix _).subset ((List.rdropWhile_prefix _ _).subset hc)

theorem mem_unquoted (s : Text) (c : Char) (hc : c ∈ unquoted s) : c ∈ s := by
  unfold unquoted at hc
  split at hc
  · exact List.mem_of_mem_tail (List.mem_of_mem_dropLast hc)
  · exact hc

theorem mem_unhashed (s : Text) (c : Char) (hc : c ∈ unhashed s) : c ∈ s := by
  unfold unhashed at hc
  split at hc
  · exact List.mem_of_mem_tail hc
  · exact hc

theorem mem_classify (line key hex : Text) (h : classify line = .entry key hex) (c : Char)
    (hc : c ∈ hex) : c ∈ line := by
  unfold classify at h
  split at h
  · cases h
  · split at h
    · split at h <;> cases h
    · split at h
      · cases h
      · rename_i before after hsplit
        cases h
        obtain ⟨hline,-⟩ := (ReferenceParser.splitOnce_some '=' line before after).mp hsplit
        rw [hline]
        exact List.mem_append_right _ (List.mem_cons_of_mem _
          (mem_trim after c (mem_unquoted _ c (mem_unhashed _ c hc))))

theorem ascii_allSliceable (toml : Text) (h : Ascii toml) : AllSliceable toml := by
  intro hex hhex hlength
  obtain ⟨line,hline,hlineHex⟩ := List.mem_filterMap.mp hhex
  refine ascii_sliceable hex (h.of_mem fun c hc => ?_) hlength
  rw [lineHex] at hlineHex
  cases hclassify : classify (trim line) with
  | skipped =>
    rw [hclassify] at hlineHex
    cases hlineHex
  | header name =>
    rw [hclassify] at hlineHex
    cases hlineHex
  | entry key value =>
    rw [hclassify] at hlineHex
    cases hlineHex
    exact mem_lines toml line hline c (mem_trim line c (mem_classify _ _ _ hclassify c hc))

end Ascii

def sampleHeader : Text := "[editor]".toList

def sampleKey : Text := "key = \"#010203\"".toList

def sampleValue : Text := "value=040506".toList

def sampleFile : Text := sampleHeader++ '\n' :: (sampleKey++ '\n' :: sampleValue)

def swappedFile : Text := sampleHeader++ '\n' :: (sampleValue++ '\n' :: sampleKey)

end Zamak.ThemeTokens
