import Zamak.ConfigText
import Zamak.Rfc8259

/-! # Hexadecimal colours

`Rgb::from_hex` counts bytes and slices the text between them, where a slice panics inside
a character; and the number parser it calls takes a sign. Both show in what it makes of a
text of six bytes, and nowhere else. -/

set_option autoImplicit false

namespace Zamak.ThemeColors
open Zamak.ConfigText
open Zamak.Rfc8259 (hexValue)

structure Rgb where
  r : UInt8
  g : UInt8
  b : UInt8
  deriving DecidableEq

def Rgb.new (r g b : UInt8) : Rgb := { r := r, g := g, b := b }

def byteLength (s : Text) : ℕ := (s.map Char.utf8Size).sum

/-- The text before and behind a byte; none where the byte is inside a character. -/
def cutAt : ℕ → Text → Option (Text × Text)
  | 0, s => some ([],s)
  | _+1, [] => none
  | k+1, c::s =>
    if c.utf8Size ≤ k+1 then (cutAt (k+1-c.utf8Size) s).map fun cut => (c::cut.1,cut.2) else none

def slice (start stop : ℕ) (s : Text) : Option Text := do
  let cut ← cutAt start s
  let inner ← cutAt (stop-start) cut.2
  some inner.1

/-- `u8::from_str_radix` at sixteen: an optional `+`, then digits, with overflow an error. -/
def fromStrRadix (s : Text) : Option UInt8 :=
  let digits := if s.head? = some '+' then s.tail else s
  if digits ≠ [] ∧ digits.all fun c => (hexValue c).isSome then
    let n := digits.foldl (fun n c => 16*n+(hexValue c).getD 0) 0
    if n < 2^8 then some (UInt8.ofNat n) else none
  else none

/-- One `u8::from_str_radix(&s[start..start + 2], 16).ok()?` and what follows it. -/
def withPair (s : Text) (start : ℕ) (next : UInt8 → Option (Option Rgb)) :
    Option (Option Rgb) := do
  let pair ← slice start (start+2) s
  match fromStrRadix pair with
  | none => some none
  | some byte => next byte

def fromHex (s : Text) : Option (Option Rgb) :=
  if byteLength s ≠ 6 then some none
  else withPair s 0 fun r => withPair s 2 fun g => withPair s 4 fun b =>
    some (some { r := r, g := g, b := b })

def twoDigits (a b : ℕ) : UInt8 := UInt8.ofNat (16*a+b)

def Writes (s : Text) (color : Rgb) : Prop := ∃ a b c d e f,
  s.map hexValue = [some a,some b,some c,some d,some e,some f] ∧
    color = { r := twoDigits a b, g := twoDigits c d, b := twoDigits e f }

/-- No panic, and a colour exactly when six digits write it. -/
def ReadsRight (s : Text) : Prop :=
  ∃ result, fromHex s = some result ∧ ∀ color, result = some color ↔ Writes s color

def IsBoundary (k : ℕ) (s : Text) : Prop := ∃ front rest, s = front++rest ∧ byteLength front = k

/-- Two characters the number parser takes: a digit behind a digit or a sign. -/
def IsPair (a b : Char) : Prop := (a = '+' ∨ (hexValue a).isSome) ∧ (hexValue b).isSome

/-- The slices that are taken fall between characters; the second is taken behind a pair. -/
structure Sliceable (s : Text) : Prop where
  first : IsBoundary 2 s
  second : ∀ a b rest, s = a::b::rest → IsPair a b → IsBoundary 4 s

def Signed (s : Text) : Prop := ∃ a b c d e f,
  s = [a,b,c,d,e,f] ∧ IsPair a b ∧ IsPair c d ∧ IsPair e f ∧ '+' ∈ s

def Regular (s : Text) : Prop := byteLength s = 6 → Sliceable s ∧ ¬Signed s

section Cutting

theorem byteLength_cons (c : Char) (s : Text) :
    byteLength (c::s) = c.utf8Size+byteLength s := by
  rw [byteLength,List.map_cons,List.sum_cons,byteLength]

theorem byteLength_append (s t : Text) : byteLength (s++t) = byteLength s+byteLength t := by
  rw [byteLength,List.map_append,List.sum_append,byteLength,byteLength]

theorem byteLength_zero (s : Text) (h : byteLength s = 0) : s = [] := by
  cases s with
  | nil => rfl
  | cons c s =>
    have hc := c.utf8Size_pos
    rw [byteLength_cons] at h
    omega

theorem cutAt_append (k : ℕ) (front rest : Text) (h : byteLength front = k) :
    cutAt k (front++rest) = some (front,rest) := by
  induction front generalizing k with
  | nil =>
    cases h
    cases rest <;> rfl
  | cons c front ih =>
    have hc := c.utf8Size_pos
    rw [byteLength_cons] at h
    obtain ⟨k,rfl⟩ : ∃ j, k = j+1 := ⟨k-1,by omega⟩
    rw [List.cons_append,cutAt,if_pos (by omega),ih (k+1-c.utf8Size) (by omega)]
    rfl

theorem cutAt_some (k : ℕ) (s front rest : Text) :
    cutAt k s = some (front,rest) ↔ s = front++rest ∧ byteLength front = k := by
  constructor
  · intro h
    induction s generalizing k front with
    | nil =>
      cases k with
      | zero =>
        cases h
        exact ⟨rfl,rfl⟩
      | succ k => cases h
    | cons c s ih =>
      cases k with
      | zero =>
        cases h
        exact ⟨rfl,rfl⟩
      | succ k =>
        rw [cutAt] at h
        by_cases hfits : c.utf8Size ≤ k+1
        · rw [if_pos hfits,Option.map_eq_some_iff] at h
          obtain ⟨⟨inner,behind⟩,hinner,hsame⟩ := h
          cases hsame
          have ⟨hs,hlength⟩ := ih (k+1-c.utf8Size) inner hinner
          refine ⟨by rw [hs]; rfl,?_⟩
          rw [byteLength_cons,hlength]
          omega
        · rw [if_neg hfits] at h
          cases h
  · rintro ⟨rfl,h⟩
    exact cutAt_append k front rest h

theorem cutAt_none (k : ℕ) (s : Text) (h : ¬IsBoundary k s) : cutAt k s = none := by
  cases hcut : cutAt k s with
  | none => rfl
  | some cut => exact absurd ⟨cut.1,cut.2,(cutAt_some k s cut.1 cut.2).mp hcut⟩ h

theorem front_unique (front rest front' rest' : Text) (h : front++rest = front'++rest')
    (hlength : byteLength front = byteLength front') : front = front' ∧ rest = rest' := by
  have hcut := cutAt_append (byteLength front') front rest hlength
  rw [h,cutAt_append _ front' rest' rfl] at hcut
  cases hcut
  exact ⟨rfl,rfl⟩

theorem boundary_append (k : ℕ) (front rest : Text) :
    IsBoundary (byteLength front+k) (front++rest) ↔ IsBoundary k rest := by
  constructor
  · rintro ⟨whole,behind,hsame,hlength⟩
    rcases List.append_eq_append_iff.mp hsame with ⟨middle,hwhole,hrest⟩ | ⟨middle,hfront,_⟩
    · refine ⟨middle,behind,hrest,?_⟩
      rw [hwhole,byteLength_append] at hlength
      omega
    · rw [hfront,byteLength_append] at hlength
      have hnil := byteLength_zero middle (by omega)
      have hk : k = 0 := by omega
      exact ⟨[],rest,rfl,hk.symm⟩
  · rintro ⟨inner,behind,rfl,hlength⟩
    exact ⟨front++inner,behind,by rw [List.append_assoc],by rw [byteLength_append,hlength]⟩

end Cutting

section Pairs
variable (front pair rest : Text) (start : ℕ) (next : UInt8 → Option (Option Rgb))

theorem withPair_append (hstart : byteLength front = start) (hpair : byteLength pair = 2) :
    withPair (front++(pair++rest)) start next = (fromStrRadix pair).elim (some none) next := by
  have hslice : slice start (start+2) (front++(pair++rest)) = some pair := by
    rw [slice,cutAt_append start front (pair++rest) hstart,Nat.add_sub_cancel_left]
    simp only [Option.bind_eq_bind,Option.bind_some,cutAt_append 2 pair rest hpair]
  rw [withPair,hslice]
  cases hradix : fromStrRadix pair with
  | none => simp [hradix]
  | some byte => simp [hradix]

theorem withPair_none (hstart : byteLength front = start) (h : ¬IsBoundary 2 rest) :
    withPair (front++rest) start next = none := by
  have hslice : slice start (start+2) (front++rest) = none := by
    rw [slice,cutAt_append start front rest hstart,Nat.add_sub_cancel_left]
    simp only [Option.bind_eq_bind,Option.bind_some,cutAt_none 2 rest h,Option.bind_none]
  rw [withPair,hslice]
  rfl

theorem hexValue_some (c : Char) (v : ℕ) (h : hexValue c = some v) : c.utf8Size = 1 ∧ v < 16 := by
  have hle : ∀ a b : Char, a ≤ b ↔ a.toNat ≤ b.toNat := fun a b => Iff.rfl
  have hends : '0'.toNat = 48 ∧ '9'.toNat = 57 ∧ 'a'.toNat = 97 ∧ 'f'.toNat = 102 ∧
    'A'.toNat = 65 ∧ 'F'.toNat = 70 := by decide
  have hrange : c.toNat ≤ 127 ∧ v < 16 := by
    rw [hexValue] at h
    simp only [hle] at h
    by_cases hdigit : '0'.toNat ≤ c.toNat ∧ c.toNat ≤ '9'.toNat
    · rw [if_pos hdigit] at h
      cases h
      omega
    rw [if_neg hdigit] at h
    by_cases hlower : 'a'.toNat ≤ c.toNat ∧ c.toNat ≤ 'f'.toNat
    · rw [if_pos hlower] at h
      cases h
      omega
    rw [if_neg hlower] at h
    by_cases hupper : 'A'.toNat ≤ c.toNat ∧ c.toNat ≤ 'F'.toNat
    · rw [if_pos hupper] at h
      cases h
      omega
    rw [if_neg hupper] at h
    cases h
  exact ⟨Char.utf8Size_eq_one_iff.mpr (UInt32.le_iff_toNat_le.mpr hrange.1),hrange.2⟩

theorem IsPair.ascii {a b : Char} (h : IsPair a b) : a.utf8Size = 1 ∧ b.utf8Size = 1 := by
  have hdigit : ∀ c : Char, (hexValue c).isSome → c.utf8Size = 1 := by
    intro c hc
    obtain ⟨v,hv⟩ := Option.isSome_iff_exists.mp hc
    exact (hexValue_some c v hv).1
  refine ⟨?_,hdigit b h.2⟩
  rcases h.1 with rfl | ha
  · rfl
  · exact hdigit a ha

theorem IsPair.length {a b : Char} (h : IsPair a b) : byteLength [a,b] = 2 := by
  have ⟨ha,hb⟩ := h.ascii
  simp [byteLength,ha,hb]

theorem fromStrRadix_digits (a b : Char) (x y : ℕ) (ha : hexValue a = some x)
    (hb : hexValue b = some y) : fromStrRadix [a,b] = some (twoDigits x y) := by
  have hplus : a ≠ '+' := by
    rintro rfl
    cases ha
  have hx := (hexValue_some a x ha).2
  have hy := (hexValue_some b y hb).2
  have hfits : 16*x+y < 256 := by omega
  simp [fromStrRadix,hplus,ha,hb,hfits,twoDigits]

theorem fromStrRadix_signed (b : Char) (y : ℕ) (hb : hexValue b = some y) :
    fromStrRadix [ '+',b] = some (UInt8.ofNat y) := by
  have hy := (hexValue_some b y hb).2
  have hfits : y < 256 := by omega
  simp [fromStrRadix,hb,hfits]

theorem fromStrRadix_some (s : Text) (h : (fromStrRadix s).isSome) :
    ∃ digits, (s = '+'::digits ∨ s = digits) ∧ digits ≠ [] ∧
      ∀ c ∈ digits, (hexValue c).isSome := by
  refine ⟨if s.head? = some '+' then s.tail else s,?_,?_⟩
  · by_cases hplus : s.head? = some '+'
    · rw [if_pos hplus]
      exact Or.inl (List.cons_head?_tail hplus).symm
    · rw [if_neg hplus]
      exact Or.inr rfl
  · rw [fromStrRadix] at h
    generalize (if s.head? = some '+' then s.tail else s) = digits at h
    by_cases hdigits : digits ≠ [] ∧ digits.all fun c => (hexValue c).isSome
    · exact ⟨hdigits.1,List.all_eq_true.mp hdigits.2⟩
    · rw [if_neg hdigits] at h
      cases h

theorem fromStrRadix_pair (a b : Char) (h : IsPair a b) : (fromStrRadix [a,b]).isSome := by
  obtain ⟨y,hy⟩ := Option.isSome_iff_exists.mp h.2
  rcases h.1 with rfl | ha
  · rw [fromStrRadix_signed b y hy]
    rfl
  · obtain ⟨x,hx⟩ := Option.isSome_iff_exists.mp ha
    rw [fromStrRadix_digits a b x y hx hy]
    rfl

theorem fromStrRadix_two (pair : Text) (hpair : byteLength pair = 2)
    (h : (fromStrRadix pair).isSome) : ∃ a b, pair = [a,b] ∧ IsPair a b := by
  obtain ⟨digits,hform,hne,hdigits⟩ := fromStrRadix_some pair h
  have hlength : ∀ s : Text, (∀ c ∈ s, (hexValue c).isSome) → byteLength s = s.length := by
    intro s
    induction s with
    | nil => exact fun _ => rfl
    | cons c s ih =>
      intro hs
      obtain ⟨v,hv⟩ := Option.isSome_iff_exists.mp (hs c (List.mem_cons_self))
      rw [byteLength_cons,ih (fun d hd => hs d (List.mem_cons_of_mem c hd)),
        (hexValue_some c v hv).1,List.length_cons,Nat.add_comm]
  rcases hform with rfl | rfl
  · have hone : digits.length = 1 := by
      rw [byteLength_cons,hlength digits hdigits] at hpair
      have hplus : '+'.utf8Size = 1 := rfl
      omega
    obtain ⟨b,rfl⟩ := List.length_eq_one_iff.mp hone
    exact ⟨'+',b,rfl,Or.inl rfl,hdigits b (List.mem_singleton_self b)⟩
  · rw [hlength pair hdigits] at hpair
    obtain ⟨a,b,rfl⟩ := List.length_eq_two.mp hpair
    exact ⟨a,b,rfl,Or.inr (hdigits a (by simp)),hdigits b (by simp)⟩

end Pairs

section SixBytes
variable (s : Text)

/-- Six bytes begin with the first pair, or the first slice is inside a character. -/
theorem fromHex_front (pair rest : Text) (hpair : byteLength pair = 2)
    (hrest : byteLength rest = 4) : fromHex (pair++rest) = (fromStrRadix pair).elim (some none)
      fun r => withPair (pair++rest) 2 fun g => withPair (pair++rest) 4 fun b =>
        some (some { r := r, g := g, b := b }) := by
  have hlength : byteLength (pair++rest) = 6 := by rw [byteLength_append,hpair,hrest]
  rw [fromHex,if_neg (not_not_intro hlength)]
  exact withPair_append [] pair rest 0 _ rfl hpair

/-- Where no slice is inside a character, the colour is that of the three pairs. -/
theorem fromHex_pairs (x y z : Text) (hx : byteLength x = 2) (hy : byteLength y = 2)
    (hz : byteLength z = 2) : fromHex (x++(y++z)) = some (do
      let r ← fromStrRadix x
      let g ← fromStrRadix y
      let b ← fromStrRadix z
      some { r := r, g := g, b := b }) := by
  rw [fromHex_front x (y++z) hx (by rw [byteLength_append,hy,hz])]
  cases fromStrRadix x with
  | none => rfl
  | some r =>
    rw [Option.elim_some,withPair_append x y z 2 _ hx hy]
    cases fromStrRadix y with
    | none => rfl
    | some g =>
      have hlast := withPair_append (x++y) z [] 4
        (fun b => some (some { r := r, g := g, b := b }))
        (by rw [byteLength_append,hx,hy]) hz
      rw [List.append_nil,List.append_assoc] at hlast
      rw [Option.elim_some,hlast]
      cases fromStrRadix z with
      | none => rfl
      | some b => rfl

theorem fromHex_length (h : byteLength s ≠ 6) : fromHex s = some none := by
  rw [fromHex,if_pos h]

theorem sliceable_front (pair rest : Text) (hpair : byteLength pair = 2) :
    Sliceable (pair++rest) ↔ ((fromStrRadix pair).isSome → IsBoundary 2 rest) := by
  have hshift : IsBoundary 4 (pair++rest) ↔ IsBoundary 2 rest := by
    have hboundary := boundary_append 2 pair rest
    rwa [hpair] at hboundary
  constructor
  · intro h hradix
    obtain ⟨a,b,rfl,hab⟩ := fromStrRadix_two pair hpair hradix
    exact hshift.mp (h.second a b rest rfl hab)
  · intro h
    refine ⟨⟨pair,rest,rfl,hpair⟩,?_⟩
    intro a b behind hsame hab
    have ⟨hpair',_⟩ := front_unique pair rest [a,b] behind hsame (by rw [hpair,hab.length])
    apply hshift.mpr (h ?_)
    rw [hpair']
    exact fromStrRadix_pair a b hab

theorem fromHex_none (h : byteLength s = 6) : fromHex s = none ↔ ¬Sliceable s := by
  by_cases hfirst : IsBoundary 2 s
  · obtain ⟨pair,rest,rfl,hpair⟩ := hfirst
    have hrest : byteLength rest = 4 := by
      rw [byteLength_append] at h
      omega
    rw [sliceable_front pair rest hpair,fromHex_front pair rest hpair hrest]
    cases hradix : fromStrRadix pair with
    | none => simp
    | some r =>
      by_cases hsecond : IsBoundary 2 rest
      · obtain ⟨y,z,rfl,hy⟩ := hsecond
        have hz : byteLength z = 2 := by
          rw [byteLength_append] at hrest
          omega
        have hpairs := fromHex_pairs pair y z hpair hy hz
        rw [fromHex_front pair (y++z) hpair hrest,hradix] at hpairs
        rw [hpairs]
        simp only [reduceCtorEq,false_iff,not_not]
        exact fun _ => ⟨y,z,rfl,hy⟩
      · rw [Option.elim_some,withPair_none pair rest 2 _ hpair hsecond]
        simp [hsecond]
  · have hpanic : fromHex s = none := by
      rw [fromHex,if_neg (not_not_intro h)]
      exact withPair_none [] s 0 _ rfl hfirst
    rw [hpanic]
    exact ⟨fun _ hs => hfirst hs.first,fun _ => rfl⟩

end SixBytes

section Reading
variable {s : Text} {color : Rgb}

theorem fromHex_some (h : fromHex s = some (some color)) : ∃ a b c d e f,
    s = [a,b,c,d,e,f] ∧ IsPair a b ∧ IsPair c d ∧ IsPair e f := by
  have hlength : byteLength s = 6 := by
    by_contra hne
    rw [fromHex_length s hne] at h
    cases h
  have hslices : Sliceable s := by
    by_contra hcut
    rw [(fromHex_none s hlength).mpr hcut] at h
    cases h
  obtain ⟨x,rest,rfl,hx⟩ := hslices.first
  rw [byteLength_append] at hlength
  have hrest : byteLength rest = 4 := by omega
  have hfirst : (fromStrRadix x).isSome := by
    cases hradix : fromStrRadix x with
    | none =>
      rw [fromHex_front x rest hx hrest,hradix] at h
      cases h
    | some r => rfl
  obtain ⟨y,z,rfl,hy⟩ := (sliceable_front x rest hx).mp hslices hfirst
  rw [byteLength_append] at hrest
  have hz : byteLength z = 2 := by omega
  rw [fromHex_pairs x y z hx hy hz] at h
  obtain ⟨r,hr,h⟩ := Option.bind_eq_some_iff.mp (Option.some.inj h)
  obtain ⟨g,hg,h⟩ := Option.bind_eq_some_iff.mp h
  obtain ⟨byte,hb,_⟩ := Option.bind_eq_some_iff.mp h
  obtain ⟨a,b,rfl,hab⟩ := fromStrRadix_two x hx (by rw [hr]; rfl)
  obtain ⟨c,d,rfl,hcd⟩ := fromStrRadix_two y hy (by rw [hg]; rfl)
  obtain ⟨e,f,rfl,hef⟩ := fromStrRadix_two z hz (by rw [hb]; rfl)
  exact ⟨a,b,c,d,e,f,rfl,hab,hcd,hef⟩

theorem fromHex_digits (a b c d e f : Char) (i j k l m n : ℕ) (ha : hexValue a = some i)
    (hb : hexValue b = some j) (hc : hexValue c = some k) (hd : hexValue d = some l)
    (he : hexValue e = some m) (hf : hexValue f = some n) : fromHex [a,b,c,d,e,f] =
      some (some { r := twoDigits i j, g := twoDigits k l, b := twoDigits m n }) := by
  have htwo : ∀ (a b : Char) (i j : ℕ), hexValue a = some i → hexValue b = some j →
      byteLength [a,b] = 2 := by
    intro a b i j ha hb
    exact IsPair.length ⟨Or.inr (by rw [ha]; rfl),by rw [hb]; rfl⟩
  have hpairs := fromHex_pairs [a,b] [c,d] [e,f] (htwo a b i j ha hb) (htwo c d k l hc hd)
    (htwo e f m n he hf)
  rw [fromStrRadix_digits a b i j ha hb,fromStrRadix_digits c d k l hc hd,
    fromStrRadix_digits e f m n he hf] at hpairs
  exact hpairs

theorem Writes.reads (h : Writes s color) : fromHex s = some (some color) := by
  obtain ⟨i,j,k,l,m,n,hs,rfl⟩ := h
  obtain ⟨a,_,rfl,ha,hs⟩ := List.map_eq_cons_iff.mp hs
  obtain ⟨b,_,rfl,hb,hs⟩ := List.map_eq_cons_iff.mp hs
  obtain ⟨c,_,rfl,hc,hs⟩ := List.map_eq_cons_iff.mp hs
  obtain ⟨d,_,rfl,hd,hs⟩ := List.map_eq_cons_iff.mp hs
  obtain ⟨e,_,rfl,he,hs⟩ := List.map_eq_cons_iff.mp hs
  obtain ⟨f,_,rfl,hf,hs⟩ := List.map_eq_cons_iff.mp hs
  rw [List.map_eq_nil_iff.mp hs]
  exact fromHex_digits a b c d e f i j k l m n ha hb hc hd he hf

theorem Writes.unsigned (h : Writes s color) : '+' ∉ s := by
  intro hplus
  obtain ⟨i,j,k,l,m,n,hs,_⟩ := h
  have hmem : hexValue '+' ∈ s.map hexValue := List.mem_map_of_mem hplus
  rw [hs] at hmem
  have hnone : hexValue '+' = none := by decide
  rw [hnone] at hmem
  simp at hmem

theorem writes_or_signed (h : fromHex s = some (some color)) : Writes s color ∨ Signed s := by
  obtain ⟨a,b,c,d,e,f,rfl,hab,hcd,hef⟩ := fromHex_some h
  by_cases hplus : '+' ∈ [a,b,c,d,e,f]
  · exact Or.inr ⟨a,b,c,d,e,f,rfl,hab,hcd,hef,hplus⟩
  · have hdigit : ∀ x y, IsPair x y → x ∈ [a,b,c,d,e,f] →
        ∃ i j, hexValue x = some i ∧ hexValue y = some j := by
      intro x y hxy hx
      obtain ⟨j,hj⟩ := Option.isSome_iff_exists.mp hxy.2
      rcases hxy.1 with rfl | hxd
      · exact absurd hx hplus
      · obtain ⟨i,hi⟩ := Option.isSome_iff_exists.mp hxd
        exact ⟨i,j,hi,hj⟩
    obtain ⟨i,j,hi,hj⟩ := hdigit a b hab (by simp)
    obtain ⟨k,l,hk,hl⟩ := hdigit c d hcd (by simp)
    obtain ⟨m,n,hm,hn⟩ := hdigit e f hef (by simp)
    rw [fromHex_digits a b c d e f i j k l m n hi hj hk hl hm hn] at h
    have hcolor := Option.some.inj (Option.some.inj h)
    refine Or.inl ⟨i,j,k,l,m,n,?_,hcolor.symm⟩
    simp only [List.map_cons,List.map_nil,hi,hj,hk,hl,hm,hn]

theorem Signed.reads (h : Signed s) : ∃ color, fromHex s = some (some color) := by
  obtain ⟨a,b,c,d,e,f,rfl,hab,hcd,hef,_⟩ := h
  have hpairs := fromHex_pairs [a,b] [c,d] [e,f] hab.length hcd.length hef.length
  obtain ⟨r,hr⟩ := Option.isSome_iff_exists.mp (fromStrRadix_pair a b hab)
  obtain ⟨g,hg⟩ := Option.isSome_iff_exists.mp (fromStrRadix_pair c d hcd)
  obtain ⟨byte,hb⟩ := Option.isSome_iff_exists.mp (fromStrRadix_pair e f hef)
  rw [hr,hg,hb] at hpairs
  exact ⟨_,hpairs⟩

theorem readsRight_iff (s : Text) : ReadsRight s ↔ Regular s := by
  constructor
  · rintro ⟨result,hresult,hright⟩ hlength
    constructor
    · by_contra hcut
      rw [(fromHex_none s hlength).mpr hcut] at hresult
      cases hresult
    · intro hsigned
      obtain ⟨color,hcolor⟩ := hsigned.reads
      rw [hcolor] at hresult
      have hwrites := (hright color).mp (Option.some.inj hresult).symm
      obtain ⟨_,_,_,_,_,_,_,_,_,_,hplus⟩ := hsigned
      exact hwrites.unsigned hplus
  · intro h
    by_cases hlength : byteLength s = 6
    · have ⟨hslices,hunsigned⟩ := h hlength
      cases hresult : fromHex s with
      | none => exact absurd hslices ((fromHex_none s hlength).mp hresult)
      | some result =>
        refine ⟨result,hresult,?_⟩
        intro color
        constructor
        · rintro rfl
          exact (writes_or_signed hresult).resolve_right hunsigned
        · intro hwrites
          rw [hwrites.reads] at hresult
          exact (Option.some.inj hresult).symm
    · refine ⟨none,fromHex_length s hlength,?_⟩
      intro color
      constructor
      · intro hnone
        cases hnone
      · intro hwrites
        have hsome := hwrites.reads
        rw [fromHex_length s hlength] at hsome
        cases hsome

theorem fromHex_isSome (s : Text) :
    (fromHex s).isSome ↔ (byteLength s = 6 → Sliceable s) := by
  by_cases hlength : byteLength s = 6
  · rw [← Option.ne_none_iff_isSome,ne_eq,fromHex_none s hlength,not_not]
    exact ⟨fun h _ => h,fun h => h hlength⟩
  · rw [fromHex_length s hlength]
    exact ⟨fun _ h => absurd h hlength,fun _ => rfl⟩

end Reading

end Zamak.ThemeColors
