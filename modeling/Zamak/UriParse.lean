import Zamak.ConfigText
import Zamak.ReferenceParser

/-! # Boot URIs

`parse_uri` reads `scheme(args):path#hash`. The canonical text of what it reads is read as
the same again: a path without a hash ends with no blank and with no `#` before hex
digits, and nothing before the path can be taken for either. -/

set_option autoImplicit false

namespace Zamak.UriParse
open Zamak.ConfigText Zamak.Trimming
open Zamak.ReferenceParser (trim_eq splitOnce_some)

inductive UriSource where
  | boot
  | hdd (drive part : ℕ)
  | odd (drive part : ℕ)
  | guid (uuid : Text)
  | fsLabel (label : Text)
  | tftp (ip : Text)
  deriving DecidableEq

structure BootUri where
  source : UriSource
  path : Text
  hash : Option Text
  deriving DecidableEq

inductive UriParseError where
  | noScheme
  | unknownScheme (scheme : Text)
  | unclosedParen
  | missingDrivePartSep
  | invalidNumber
  | noPath
  deriving DecidableEq

def isHexDigit (c : Char) : Bool :=
  ('0' ≤ c && c ≤ '9') || ('a' ≤ c && c ≤ 'f') || ('A' ≤ c && c ≤ 'F')

def HashText (s : Text) : Prop := s ≠ [] ∧ s.all isHexDigit = true

instance (s : Text) : Decidable (HashText s) := inferInstanceAs (Decidable (_ ∧ _))

def splitLast (c : Char) (s : Text) : Option (Text × Text) :=
  (splitOnce c s.reverse).map fun cut => (cut.2.reverse,cut.1.reverse)

def splitHash (input : Text) : Text × Option Text :=
  match splitLast '#' input with
  | none => (input,none)
  | some (before,hash) => if HashText hash then (before,some hash) else (input,none)

def parseDrivePartition (args : Text) : Except UriParseError (ℕ × ℕ) :=
  match splitOnce ':' args with
  | none => .error .missingDrivePartSep
  | some (drive,part) =>
    match parseUnsigned 32 drive with
    | none => .error .invalidNumber
    | some d =>
      match parseUnsigned 32 part with
      | none => .error .invalidNumber
      | some p => .ok (d,p)

def parseSource (scheme args : Text) : Except UriParseError UriSource :=
  if scheme = "boot".toList then .ok .boot
  else if scheme = "hdd".toList then (parseDrivePartition args).map fun dp => .hdd dp.1 dp.2
  else if scheme = "odd".toList then (parseDrivePartition args).map fun dp => .odd dp.1 dp.2
  else if scheme = "guid".toList then .ok (.guid args)
  else if scheme = "fslabel".toList then .ok (.fsLabel args)
  else if scheme = "tftp".toList then .ok (.tftp args)
  else .error (.unknownScheme scheme)

def parsePath (rest : Text) : Except UriParseError Text :=
  if rest.head? = some ':' then .ok rest.tail
  else if rest = [] then .error .noPath
  else .ok rest

def parsePart (pathPart : Text) (hash : Option Text) : Except UriParseError BootUri :=
  match splitOnce '(' pathPart with
  | none => .error .noScheme
  | some (scheme,behind) =>
    match splitOnce ')' behind with
    | none => .error .unclosedParen
    | some (args,rest) => do
      let path ← parsePath rest
      let source ← parseSource scheme args
      .ok { source := source, path := path, hash := hash }

def parseUri (input : Text) : Except UriParseError BootUri :=
  parsePart (splitHash (trim input)).1 (splitHash (trim input)).2

def decimal (n : ℕ) : Text := Nat.toDigits 10 n

def UriSource.scheme : UriSource → Text
  | .boot => "boot".toList
  | .hdd _ _ => "hdd".toList
  | .odd _ _ => "odd".toList
  | .guid _ => "guid".toList
  | .fsLabel _ => "fslabel".toList
  | .tftp _ => "tftp".toList

def UriSource.args : UriSource → Text
  | .boot => []
  | .hdd drive part => decimal drive++ ':'::decimal part
  | .odd drive part => decimal drive++ ':'::decimal part
  | .guid uuid => uuid
  | .fsLabel label => label
  | .tftp ip => ip

def UriSource.front (source : UriSource) : Text := source.scheme++ '('::source.args++[')']

def hashTail : Option Text → Text
  | none => []
  | some hash => '#'::hash

/-- `scheme(args):path`, with `#hash` if there is one. -/
def render (u : BootUri) : Text := u.source.front++ ':'::u.path++hashTail u.hash

def UriSource.Proper : UriSource → Prop
  | .boot => True
  | .hdd drive part => drive < 2^32 ∧ part < 2^32
  | .odd drive part => drive < 2^32 ∧ part < 2^32
  | .guid uuid => ')' ∉ uuid
  | .fsLabel label => ')' ∉ label
  | .tftp ip => ')' ∉ ip

structure Canonical (u : BootUri) : Prop where
  source : u.source.Proper
  hash : ∀ h ∈ u.hash, HashText h
  path_end : u.hash = none → ∀ c, u.path.getLast? = some c → isWhitespace c = false
  path_hash : u.hash = none → ∀ before after, u.path = before++ '#'::after → ¬HashText after

section Hash

theorem splitLast_some (c : Char) (s before after : Text) :
    splitLast c s = some (before,after) ↔ s = before++c::after ∧ c ∉ after := by
  rw [splitLast,Option.map_eq_some_iff]
  constructor
  · rintro ⟨⟨key,val⟩,hcut,hsame⟩
    obtain ⟨hsplit,hnot⟩ := (splitOnce_some c _ key val).mp hcut
    cases hsame
    refine ⟨?_,by rwa [List.mem_reverse]⟩
    rw [← s.reverse_reverse,hsplit]
    simp
  · rintro ⟨rfl,hnot⟩
    refine ⟨(after.reverse,before.reverse),?_,by simp⟩
    apply (splitOnce_some c _ _ _).mpr
    exact ⟨by simp,by rwa [List.mem_reverse]⟩

theorem HashText.notMem {s : Text} (h : HashText s) (c : Char) (hc : isHexDigit c = false) :
    c ∉ s := by
  intro hmem
  have hhex := List.all_eq_true.mp h.2 c hmem
  rw [hc] at hhex
  cases hhex

theorem hexDigit_range (c : Char) (h : isHexDigit c = true) : 0x30 ≤ c.toNat ∧ c.toNat ≤ 0x66 := by
  have hle : ∀ a b : Char, a ≤ b ↔ a.toNat ≤ b.toNat := fun a b => Iff.rfl
  simp only [isHexDigit,Bool.or_eq_true,Bool.and_eq_true,decide_eq_true_eq,hle] at h
  have hbounds : '0'.toNat = 0x30 ∧ '9'.toNat = 0x39 ∧ 'a'.toNat = 0x61 ∧ 'f'.toNat = 0x66 ∧
    'A'.toNat = 0x41 ∧ 'F'.toNat = 0x46 := by decide
  omega

theorem hexDigit_not_whitespace (c : Char) (h : isHexDigit c = true) : isWhitespace c = false := by
  have hrange := hexDigit_range c h
  rw [← Bool.not_eq_true]
  intro hblank
  simp only [isWhitespace,Bool.or_eq_true,Bool.and_eq_true,decide_eq_true_eq,beq_iff_eq] at hblank
  omega

theorem splitHash_hash (p h : Text) (hh : HashText h) : splitHash (p++ '#'::h) = (p,some h) := by
  have hlast : splitLast '#' (p++ '#'::h) = some (p,h) :=
    (splitLast_some '#' _ p h).mpr ⟨rfl,hh.notMem '#' (by decide)⟩
  rw [splitHash,hlast]
  exact if_pos hh

theorem splitHash_plain (s : Text) (hs : ∀ p h, s = p++ '#'::h → ¬HashText h) :
    splitHash s = (s,none) := by
  rw [splitHash]
  cases hlast : splitLast '#' s with
  | none => rfl
  | some cut =>
    have hsplit := (splitLast_some '#' s cut.1 cut.2).mp hlast
    exact if_neg (hs cut.1 cut.2 hsplit.1)

theorem splitHash_cases (s : Text) :
    (∃ p h, s = p++ '#'::h ∧ HashText h ∧ splitHash s = (p,some h)) ∨
    (∀ p h, s = p++ '#'::h → ¬HashText h) ∧ splitHash s = (s,none) := by
  by_cases hany : ∃ p h, s = p++ '#'::h ∧ HashText h
  · obtain ⟨p,h,rfl,hh⟩ := hany
    exact Or.inl ⟨p,h,rfl,hh,splitHash_hash p h hh⟩
  · have hs : ∀ p h, s = p++ '#'::h → ¬HashText h := fun p h hsplit hh => hany ⟨p,h,hsplit,hh⟩
    exact Or.inr ⟨hs,splitHash_plain s hs⟩

end Hash

section Source

theorem parseUnsigned_decimal (n : ℕ) (h : n < 2^32) : parseUnsigned 32 (decimal n) = some n := by
  have hdigit : ∀ c ∈ decimal n, c.isDigit = true := fun c hc =>
    Nat.isDigit_of_mem_toDigits (by decide) (by decide) hc
  have hplus : (decimal n).head? ≠ some '+' := by
    intro hhead
    have := hdigit '+' (List.mem_of_mem_head? hhead)
    cases this
  have hvalue : (decimal n).foldl (fun n c => 10*n+(c.toNat - '0'.toNat)) 0 = n :=
    Nat.ofDigitChars_ten_toDigits
  simp only [parseUnsigned,if_neg hplus,hvalue]
  rw [if_pos ⟨Nat.toDigits_ne_nil,List.all_eq_true.mpr hdigit⟩,if_pos h]

theorem notMem_decimal (n : ℕ) (c : Char) (hc : c.isDigit = false) : c ∉ decimal n := by
  intro hmem
  have hdigit := Nat.isDigit_of_mem_toDigits (by decide) (by decide) hmem
  rw [hc] at hdigit
  cases hdigit

theorem parseDrivePartition_decimal (drive part : ℕ) (hdrive : drive < 2^32)
    (hpart : part < 2^32) :
    parseDrivePartition (decimal drive++ ':'::decimal part) = .ok (drive,part) := by
  have hcut : splitOnce ':' (decimal drive++ ':'::decimal part) =
      some (decimal drive,decimal part) :=
    (splitOnce_some ':' _ _ _).mpr ⟨rfl,notMem_decimal drive ':' (by decide)⟩
  simp only [parseDrivePartition,hcut,parseUnsigned_decimal drive hdrive,
    parseUnsigned_decimal part hpart]

theorem parseUnsigned_lt (bits n : ℕ) (s : Text) (h : parseUnsigned bits s = some n) :
    n < 2^bits := by
  rw [parseUnsigned] at h
  generalize (if s.head? = some '+' then s.tail else s) = digits at h
  by_cases hdigits : digits ≠ [] ∧ digits.all Char.isDigit = true
  · rw [if_pos hdigits] at h
    generalize digits.foldl (fun n c => 10*n+(c.toNat - '0'.toNat)) 0 = value at h
    by_cases hlt : value < 2^bits
    · rw [if_pos hlt] at h
      cases h
      exact hlt
    · rw [if_neg hlt] at h
      cases h
  · rw [if_neg hdigits] at h
    cases h

theorem parseDrivePartition_lt (args : Text) (drive part : ℕ)
    (h : parseDrivePartition args = .ok (drive,part)) : drive < 2^32 ∧ part < 2^32 := by
  rw [parseDrivePartition] at h
  cases hcut : splitOnce ':' args with
  | none =>
    rw [hcut] at h
    cases h
  | some cut =>
    obtain ⟨left,right⟩ := cut
    cases hleft : parseUnsigned 32 left with
    | none =>
      simp only [hcut,hleft] at h
      cases h
    | some d =>
      cases hright : parseUnsigned 32 right with
      | none =>
        simp only [hcut,hleft,hright] at h
        cases h
      | some p =>
        simp only [hcut,hleft,hright] at h
        cases h
        exact ⟨parseUnsigned_lt 32 _ left hleft,parseUnsigned_lt 32 _ right hright⟩

theorem map_drivePartition (args : Text) (make : ℕ → ℕ → UriSource) (source : UriSource)
    (h : (parseDrivePartition args).map (fun dp => make dp.1 dp.2) = .ok source) :
    ∃ drive part, drive < 2^32 ∧ part < 2^32 ∧ source = make drive part := by
  cases hargs : parseDrivePartition args with
  | error error =>
    rw [hargs] at h
    cases h
  | ok dp =>
    rw [hargs] at h
    cases h
    have ⟨hdrive,hpart⟩ := parseDrivePartition_lt args dp.1 dp.2 hargs
    exact ⟨dp.1,dp.2,hdrive,hpart,rfl⟩

theorem parseSource_proper (scheme args : Text) (hargs : ')' ∉ args) (source : UriSource)
    (h : parseSource scheme args = .ok source) : source.Proper := by
  rw [parseSource] at h
  by_cases hboot : scheme = "boot".toList
  · rw [if_pos hboot] at h
    cases h
    trivial
  rw [if_neg hboot] at h
  by_cases hhdd : scheme = "hdd".toList
  · rw [if_pos hhdd] at h
    obtain ⟨drive,part,hdrive,hpart,rfl⟩ := map_drivePartition args .hdd source h
    exact ⟨hdrive,hpart⟩
  rw [if_neg hhdd] at h
  by_cases hodd : scheme = "odd".toList
  · rw [if_pos hodd] at h
    obtain ⟨drive,part,hdrive,hpart,rfl⟩ := map_drivePartition args .odd source h
    exact ⟨hdrive,hpart⟩
  rw [if_neg hodd] at h
  by_cases hguid : scheme = "guid".toList
  · rw [if_pos hguid] at h
    cases h
    exact hargs
  rw [if_neg hguid] at h
  by_cases hlabel : scheme = "fslabel".toList
  · rw [if_pos hlabel] at h
    cases h
    exact hargs
  rw [if_neg hlabel] at h
  by_cases htftp : scheme = "tftp".toList
  · rw [if_pos htftp] at h
    cases h
    exact hargs
  rw [if_neg htftp] at h
  cases h

theorem parseSource_hdd (args : Text) : parseSource "hdd".toList args =
    (parseDrivePartition args).map fun dp => .hdd dp.1 dp.2 := by
  have hboot : "hdd".toList ≠ "boot".toList := by decide
  exact (if_neg hboot).trans (if_pos rfl)

theorem parseSource_odd (args : Text) : parseSource "odd".toList args =
    (parseDrivePartition args).map fun dp => .odd dp.1 dp.2 := by
  have hboot : "odd".toList ≠ "boot".toList := by decide
  have hhdd : "odd".toList ≠ "hdd".toList := by decide
  exact (if_neg hboot).trans ((if_neg hhdd).trans (if_pos rfl))

theorem parseSource_args (source : UriSource) (h : source.Proper) :
    parseSource source.scheme source.args = .ok source := by
  cases source with
  | boot => rfl
  | hdd drive part =>
    have hread : parseSource (UriSource.hdd drive part).scheme (UriSource.hdd drive part).args =
        (parseDrivePartition (decimal drive++ ':'::decimal part)).map
          fun dp => .hdd dp.1 dp.2 := parseSource_hdd _
    rw [hread,parseDrivePartition_decimal drive part h.1 h.2]
    rfl
  | odd drive part =>
    have hread : parseSource (UriSource.odd drive part).scheme (UriSource.odd drive part).args =
        (parseDrivePartition (decimal drive++ ':'::decimal part)).map
          fun dp => .odd dp.1 dp.2 := parseSource_odd _
    rw [hread,parseDrivePartition_decimal drive part h.1 h.2]
    rfl
  | guid uuid => rfl
  | fsLabel label => rfl
  | tftp ip => rfl

theorem notMem_args (source : UriSource) (h : source.Proper) : ')' ∉ source.args := by
  have hpair : ∀ drive part, ')' ∉ decimal drive++ ':'::decimal part := by
    intro drive part hmem
    rcases List.mem_append.mp hmem with hdrive | hrest
    · exact notMem_decimal drive ')' (by decide) hdrive
    · rcases List.mem_cons.mp hrest with hcolon | hpart
      · exact absurd hcolon (by decide)
      · exact notMem_decimal part ')' (by decide) hpart
  cases source with
  | boot => exact List.not_mem_nil
  | hdd drive part => exact hpair drive part
  | odd drive part => exact hpair drive part
  | guid uuid => exact h
  | fsLabel label => exact h
  | tftp ip => exact h

theorem notMem_scheme (source : UriSource) : '(' ∉ source.scheme := by
  cases source <;> exact of_decide_eq_true rfl

theorem scheme_head (source : UriSource) :
    ∃ c, source.scheme.head? = some c ∧ isWhitespace c = false := by
  cases source <;> exact ⟨_,rfl,rfl⟩

end Source

section Accepted
variable (s : Text) (u : BootUri)

theorem parsePath_ok (rest path : Text) (h : parsePath rest = .ok path) :
    rest = path ∨ rest = ':'::path := by
  rw [parsePath] at h
  by_cases hcolon : rest.head? = some ':'
  · rw [if_pos hcolon] at h
    cases h
    exact Or.inr (List.cons_head?_tail hcolon).symm
  · rw [if_neg hcolon] at h
    by_cases hempty : rest = []
    · rw [if_pos hempty] at h
      cases h
    · rw [if_neg hempty] at h
      cases h
      exact Or.inl rfl

theorem parsePart_ok (pathPart : Text) (hash : Option Text)
    (h : parsePart pathPart hash = .ok u) :
    u.hash = hash ∧ u.source.Proper ∧ ∃ front, pathPart = front++u.path := by
  rw [parsePart] at h
  cases hopen : splitOnce '(' pathPart with
  | none =>
    rw [hopen] at h
    cases h
  | some cut =>
    obtain ⟨scheme,behind⟩ := cut
    cases hclose : splitOnce ')' behind with
    | none =>
      simp only [hopen,hclose] at h
      cases h
    | some inner =>
      obtain ⟨args,rest⟩ := inner
      simp only [hopen,hclose] at h
      cases hpath : parsePath rest with
      | error error =>
        rw [hpath] at h
        cases h
      | ok path =>
        cases hsource : parseSource scheme args with
        | error error =>
          rw [hpath,hsource] at h
          cases h
        | ok source =>
          rw [hpath,hsource] at h
          cases h
          have ⟨hsplit,_⟩ := (splitOnce_some '(' _ _ _).mp hopen
          have ⟨hinner,hargs⟩ := (splitOnce_some ')' _ _ _).mp hclose
          refine ⟨rfl,parseSource_proper scheme args hargs source hsource,?_⟩
          rcases parsePath_ok rest path hpath with hrest | hrest
          · refine ⟨scheme++ '('::args++[')'],?_⟩
            rw [hsplit,hinner,hrest]
            simp
          · refine ⟨scheme++ '('::args++[')', ':'],?_⟩
            rw [hsplit,hinner,hrest]
            simp

theorem parseUri_canonical (h : parseUri s = .ok u) : Canonical u := by
  rw [parseUri] at h
  rcases splitHash_cases (trim s) with ⟨p,hash,_,hhash,hsplit⟩ | ⟨hplain,hsplit⟩
  · rw [hsplit] at h
    obtain ⟨hu,hsource,_⟩ := parsePart_ok u p (some hash) h
    refine ⟨hsource,?_,?_,?_⟩
    · intro found hfound
      rw [hu] at hfound
      cases hfound
      exact hhash
    · intro hnone
      rw [hu] at hnone
      cases hnone
    · intro hnone
      rw [hu] at hnone
      cases hnone
  · rw [hsplit] at h
    obtain ⟨hu,hsource,front,hfront⟩ := parsePart_ok u (trim s) none h
    refine ⟨hsource,?_,?_,?_⟩
    · intro found hfound
      rw [hu] at hfound
      cases hfound
    · intro _ c hc
      have hlast : (trim s).getLast? = some c := by
        rw [hfront,List.getLast?_append,hc]
        rfl
      rw [trim_eq] at hlast
      exact strip_last isWhitespace s c hlast
    · intro _ before after hcut
      apply hplain (front++before) after
      rw [hfront,hcut,List.append_assoc]

end Accepted

section Rendered
variable (u : BootUri) (h : Canonical u)
include h

theorem splitHash_render :
    splitHash (render u) = (u.source.front++ ':'::u.path,u.hash) := by
  obtain ⟨source,path,hash⟩ := u
  cases hash with
  | some hash =>
    have hsplit := splitHash_hash (source.front++ ':'::path) hash (h.hash hash rfl)
    simpa [render,hashTail] using hsplit
  | none =>
    have hplain : ∀ p hash, source.front++ ':'::path = p++ '#'::hash → ¬HashText hash := by
      intro p hash hsame hhash
      rcases List.append_eq_append_iff.mp hsame with ⟨middle,_,hmiddle⟩ | ⟨middle,_,hmiddle⟩
      · -- the `#` is behind the colon
        cases middle with
        | nil => cases hmiddle
        | cons c middle =>
          have hpath : path = middle++ '#'::hash := (List.cons.inj hmiddle).2
          exact h.path_hash rfl middle hash hpath hhash
      · -- the colon is behind the `#`
        have hcolon := hhash.notMem ':' (by decide)
        cases middle with
        | nil => cases hmiddle
        | cons c middle =>
          apply hcolon
          rw [(List.cons.inj hmiddle).2]
          simp
    simpa [render,hashTail] using splitHash_plain _ hplain

theorem render_last (c : Char) (hc : (render u).getLast? = some c) : isWhitespace c = false := by
  rw [render,List.getLast?_append] at hc
  cases hhash : u.hash with
  | some hash =>
    have ⟨hne,hdigits⟩ := h.hash hash hhash
    have hlast := List.getLast?_eq_some_getLast hne
    have htail : (hashTail u.hash).getLast? = some (hash.getLast hne) := by
      rw [hhash,hashTail,List.getLast?_cons,hlast]
      rfl
    rw [htail] at hc
    have hsame : hash.getLast hne = c := Option.some.inj hc
    rw [← hsame]
    have hmem := List.all_eq_true.mp hdigits (hash.getLast hne) (List.getLast_mem hne)
    exact hexDigit_not_whitespace _ hmem
  | none =>
    have hpath : (u.source.front++ ':'::u.path).getLast? = some c := by
      rw [hhash] at hc
      exact hc
    rw [List.getLast?_append,List.getLast?_cons] at hpath
    cases hlast : u.path.getLast? with
    | none =>
      rw [hlast] at hpath
      cases hpath
      rfl
    | some last =>
      rw [hlast] at hpath
      have hsame : last = c := Option.some.inj hpath
      exact h.path_end hhash c (by rw [hlast,hsame])

theorem trim_render : trim (render u) = render u := by
  rw [trim_eq]
  apply strip_self
  · intro c hc
    obtain ⟨first,hfirst,hblank⟩ := scheme_head u.source
    have hsame : (render u).head? = some first := by
      rw [render,UriSource.front]
      simp [List.head?_append,hfirst]
    rw [hsame] at hc
    cases hc
    exact hblank
  · exact fun c hc => render_last u h c hc

theorem parseUri_render : parseUri (render u) = .ok u := by
  have hopen : splitOnce '(' (u.source.front++ ':'::u.path) =
      some (u.source.scheme,u.source.args++ ')':: ':'::u.path) := by
    apply (splitOnce_some '(' _ _ _).mpr
    exact ⟨by simp [UriSource.front],notMem_scheme u.source⟩
  have hclose : splitOnce ')' (u.source.args++ ')':: ':'::u.path) =
      some (u.source.args,':'::u.path) :=
    (splitOnce_some ')' _ _ _).mpr ⟨rfl,notMem_args u.source h.source⟩
  have hpath : parsePath (':'::u.path) = .ok u.path := rfl
  rw [parseUri,trim_render u h,splitHash_render u h,parsePart,hopen]
  simp only [hclose,hpath,parseSource_args u.source h.source]
  rfl

end Rendered

section RoundTrip

/-- What is read is read again from its canonical text, the canonical text is settled after
one rendering, and URIs with different results have different ones. -/
theorem parseUri_roundTrip :
    (∀ s u, parseUri s = .ok u → parseUri (render u) = .ok u) ∧
    (∀ s, ((parseUri s).map render).bind (fun t => (parseUri t).map render) =
      (parseUri s).map render) ∧
    (∀ s t u v, parseUri s = .ok u → parseUri t = .ok v → u ≠ v → render u ≠ render v) := by
  have hagain : ∀ s u, parseUri s = .ok u → parseUri (render u) = .ok u :=
    fun s u hs => parseUri_render u (parseUri_canonical s u hs)
  refine ⟨hagain,?_,?_⟩
  · intro s
    cases hs : parseUri s with
    | error error => rfl
    | ok u =>
      have hu := hagain s u hs
      show (parseUri (render u)).map render = .ok (render u)
      rw [hu]
      rfl
  · intro s t u v hs ht hne hsame
    have hu := hagain s u hs
    rw [hsame,hagain t v ht] at hu
    exact hne (Except.ok.inj hu).symm

def crowded : Text := " hdd(+1:02) /a b#(c):#Ff ".toList

def crowdedUri : BootUri :=
  { source := .hdd 1 2, path := " /a b#(c):".toList, hash := some "Ff".toList }

theorem parseUri_roundTrip_crowded :
    parseUri crowded = .ok crowdedUri ∧ render crowdedUri = "hdd(1:2): /a b#(c):#Ff".toList ∧
    parseUri (render crowdedUri) = .ok crowdedUri :=
  ⟨rfl,rfl,parseUri_roundTrip.1 crowded crowdedUri rfl⟩

end RoundTrip

end Zamak.UriParse
