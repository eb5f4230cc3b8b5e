import Zamak.Rfc8259

/-! # A parser for RFC 8259

Recursive descent over the characters. It reads the longest number and skips white space
greedily, and takes every document to what it says. -/

set_option autoImplicit false

namespace Zamak.Rfc8259Parser
open Zamak.Rfc8259

def skipWs (t : Text) : Text := t.dropWhile isWs

def parseChars : Text → Option (Text × Text)
  | [] => none
  | '"' :: rest => some ([],rest)
  | '\\' :: 'u' :: a::b::c::d::rest =>
    match hex4 a b c d with
    | none => none
    | some n =>
      if IsLow n then none
      else if IsHigh n then
        match rest with
        | '\\' :: 'u' :: a'::b'::c'::d'::rest' =>
          match hex4 a' b' c' d' with
          | none => none
          | some low =>
            if IsLow low then
              (parseChars rest').map fun x => (Char.ofNat (pairValue n low)::x.1,x.2)
            else none
        | _ => none
      else (parseChars rest).map fun x => (Char.ofNat n::x.1,x.2)
  | '\\' :: e::rest =>
    match shortEscape e with
    | none => none
    | some c => (parseChars rest).map fun x => (c::x.1,x.2)
  | c::rest =>
    if 0x20 ≤ c.toNat then (parseChars rest).map fun x => (c::x.1,x.2) else none

def takeDigits (t : Text) : Option (Text × Text) :=
  if t.takeWhile Char.isDigit = [] then none
  else some (t.takeWhile Char.isDigit,t.dropWhile Char.isDigit)

def parseInt (t : Text) : Option (ℕ × Text) := do
  let (ds,rest) ← takeDigits t
  if ds.head? = some '0' ∧ ds ≠ [ '0'] then none else some (natOf ds,rest)

def parseFrac : Text → Option (ℚ × Text)
  | '.' :: rest => do
    let (ds,rest) ← takeDigits rest
    some (natOf ds/10^ds.length,rest)
  | t => some (0,t)

def parsePower : Text → Option (ℤ × Text)
  | '+' :: rest => do
    let (ds,rest) ← takeDigits rest
    some (natOf ds,rest)
  | '-' :: rest => do
    let (ds,rest) ← takeDigits rest
    some (-natOf ds,rest)
  | t => do
    let (ds,rest) ← takeDigits t
    some (natOf ds,rest)

def parseExp : Text → Option (ℤ × Text)
  | 'e' :: rest => parsePower rest
  | 'E' :: rest => parsePower rest
  | t => some (0,t)

def parseUnsigned (t : Text) : Option (ℚ × Text) := do
  let (int,t) ← parseInt t
  let (frac,t) ← parseFrac t
  let (exp,t) ← parseExp t
  some ((int+frac)*10^exp,t)

def parseNumber : Text → Option (Json × Text)
  | '-' :: rest => (parseUnsigned rest).map fun x => (.number (-x.1),x.2)
  | t => (parseUnsigned t).map fun x => (.number x.1,x.2)

mutual

def parseValue : ℕ → Text → Option (Json × Text)
  | 0, _ => none
  | _+1, 'n' :: 'u' :: 'l' :: 'l' :: rest => some (.null,rest)
  | _+1, 't' :: 'r' :: 'u' :: 'e' :: rest => some (.bool true,rest)
  | _+1, 'f' :: 'a' :: 'l' :: 's' :: 'e' :: rest => some (.bool false,rest)
  | _+1, '"' :: rest => (parseChars rest).map fun x => (.string x.1,x.2)
  | n+1, '[' :: rest =>
    match skipWs rest with
    | ']' :: rest => some (.array [],rest)
    | t => (parseElements n t).map fun x => (.array x.1,x.2)
  | n+1, '{' :: rest =>
    match skipWs rest with
    | '}' :: rest => some (.object [],rest)
    | t => (parseMembers n t).map fun x => (.object x.1,x.2)
  | _+1, t => parseNumber t

def parseElements : ℕ → Text → Option (List Json × Text)
  | 0, _ => none
  | n+1, t => do
    let (j,rest) ← parseValue n t
    match skipWs rest with
    | ',' :: rest => (parseElements n (skipWs rest)).map fun x => (j::x.1,x.2)
    | ']' :: rest => some ([j],rest)
    | _ => none

def parseMembers : ℕ → Text → Option (List (Text × Json) × Text)
  | n+1, '"' :: t => do
    let (s,rest) ← parseChars t
    match skipWs rest with
    | ':' :: rest => do
      let (j,rest) ← parseValue n (skipWs rest)
      match skipWs rest with
      | ',' :: rest => (parseMembers n (skipWs rest)).map fun x => ((s,j)::x.1,x.2)
      | '}' :: rest => some ([(s,j)],rest)
      | _ => none
    | _ => none
  | _, _ => none

end

def parse (t : Text) : Option Json := do
  let (j,rest) ← parseValue (t.length+1) (skipWs t)
  if skipWs rest = [] then some j else none

theorem skipWs_blank (w t : Text) (hw : Blank w) : skipWs (w++t) = skipWs t := by
  induction w with
  | nil => rfl
  | cons c w ih =>
    have hc := hw c (by simp)
    have hr := ih (fun d hd => hw d (by simp [hd]))
    simpa [skipWs,hc] using hr

theorem skipWs_cons (c : Char) (t : Text) (hc : isWs c = false) : skipWs (c::t) = c::t := by
  simp [skipWs,hc]

theorem skipWs_to (w t : Text) (c : Char) (hw : Blank w) (hc : isWs c = false) :
    skipWs (w++c::t) = c::t := by
  rw [skipWs_blank w _ hw,skipWs_cons c t hc]

section Strings

theorem parseChars_unescaped (c : Char) (t : Text) (hc : 0x20 ≤ c.toNat) (hq : c ≠ '"')
    (hb : c ≠ '\\') : parseChars (c::t) = (parseChars t).map fun x => (c::x.1,x.2) := by
  rw [parseChars.eq_def]
  split <;> simp_all

theorem parseChars_short (e c : Char) (t : Text) (h : shortEscape e = some c) :
    parseChars ('\\' :: e::t) = (parseChars t).map fun x => (c::x.1,x.2) := by
  have hu : e ≠ 'u' := by
    intro he
    rw [he] at h
    simp [shortEscape] at h
  simp [parseChars,hu,h]

theorem parseChars_char (t u : Text) (c : Char) (h : CharText t c) :
    parseChars (t++u) = (parseChars u).map fun x => (c::x.1,x.2) := by
  cases h with
  | unescaped c hc hq hb => exact parseChars_unescaped _ u hc hq hb
  | short e c h => exact parseChars_short e _ u h
  | code a b c d n h hh hl => simp [parseChars,h,hh,hl]
  | pair a b c d a' b' c' d' high low h h' hh hl =>
    have hn : ¬IsLow high := by
      simp only [IsHigh,IsLow] at *
      omega
    simp [parseChars,h,h',hh,hl,hn]

theorem parseChars_text (t s rest : Text) (h : CharsText t s) :
    parseChars (t++ '"' :: rest) = some (s,rest) := by
  induction h with
  | nil => simp [parseChars]
  | cons t u c s hc hs ih =>
    rw [List.append_assoc,parseChars_char t _ c hc,ih]
    rfl

end Strings

section Numbers

def NoDigit (t : Text) : Prop := ∀ c r, t = c::r → c.isDigit = false

inductive Follows : Text → Prop where
  | done : Follows []
  | next (c : Char) (t : Text) (h : isWs c = true ∨ c = ',' ∨ c = ']' ∨ c = '}') : Follows (c::t)

theorem takeDigits_append (ds rest : Text) (h : Digits ds) (hr : NoDigit rest) :
    takeDigits (ds++rest) = some (ds,rest) := by
  have hstop : rest.takeWhile Char.isDigit = [] ∧ rest.dropWhile Char.isDigit = rest := by
    cases rest with
    | nil => exact ⟨rfl,rfl⟩
    | cons c r => simp [hr c r rfl]
  rw [takeDigits,List.takeWhile_append_of_pos h.2,List.dropWhile_append_of_pos h.2,hstop.1,
    hstop.2,List.append_nil,if_neg h.1]

theorem parseInt_append (ds rest : Text) (h : IntText ds) (hr : NoDigit rest) :
    parseInt (ds++rest) = some (natOf ds,rest) := by
  rw [parseInt,takeDigits_append ds rest h.1 hr]
  have hz : ¬(ds.head? = some '0' ∧ ds ≠ [ '0']) := fun hz => hz.2 (h.2 hz.1)
  simp [hz]

theorem follows_noDigit (rest : Text) (h : Follows rest) : NoDigit rest := by
  intro c r hc
  subst hc
  cases h with
  | next c t h =>
    simp only [isWs,Bool.or_eq_true,beq_iff_eq] at h
    rcases h with ((( h | h) | h) | h) | h | h | h <;> subst h <;> decide

theorem parsePower_bare (ds rest : Text) (h : Digits ds) (hr : NoDigit rest) :
    parsePower (ds++rest) = some ((natOf ds : ℤ),rest) := by
  have htake := takeDigits_append ds rest h hr
  cases ds with
  | nil => exact absurd rfl h.1
  | cons c ds =>
    have hc := h.2 c (by simp)
    rw [parsePower.eq_def]
    split
    · simp_all
    · simp_all
    · rw [htake]
      rfl

theorem parseExp_append (exp rest : Text) (e : ℤ) (h : ExpText exp e) (hr : Follows rest) :
    parseExp (exp++rest) = some (e,rest) := by
  have hn := follows_noDigit rest hr
  cases h with
  | none =>
    cases hr with
    | done => rfl
    | next c t h =>
      rw [List.nil_append,parseExp.eq_def]
      split <;> simp_all [isWs]
  | bare m ds he h =>
    have hp := parsePower_bare ds rest h hn
    rcases he with he | he <;> subst he <;> exact hp
  | plus m ds he h =>
    have hp := takeDigits_append ds rest h hn
    rcases he with he | he <;> subst he <;> simp [parseExp,parsePower,hp]
  | minus m ds he h =>
    have hp := takeDigits_append ds rest h hn
    rcases he with he | he <;> subst he <;> simp [parseExp,parsePower,hp]

theorem follows_noDot (rest r : Text) (h : Follows rest) : rest ≠ '.' :: r := by
  intro hc
  subst hc
  cases h with
  | next c t h => simp [isWs] at h

theorem exp_apart (exp rest : Text) (e : ℤ) (h : ExpText exp e) (hr : Follows rest) :
    NoDigit (exp++rest) ∧ ∀ r, exp++rest ≠ '.' :: r := by
  have hmark : ∀ m t, IsExpMark m → NoDigit (m::t) ∧ ∀ r, m::t ≠ '.' :: r := by
    intro m t hm
    constructor
    · intro c r hc
      have hcm : m = c := (List.cons.inj hc).1
      subst hcm
      rcases hm with hm | hm <;> subst hm <;> decide
    · intro r hc
      have hcm : m = '.' := (List.cons.inj hc).1
      subst hcm
      rcases hm with hm | hm <;> exact absurd hm (by decide)
  cases h with
  | none => exact ⟨follows_noDigit rest hr,fun r => follows_noDot rest r hr⟩
  | bare m ds he h => exact hmark m (ds++rest) he
  | plus m ds he h => exact hmark m ('+' :: ds++rest) he
  | minus m ds he h => exact hmark m ('-' :: ds++rest) he

theorem parseFrac_append (frac rest : Text) (f : ℚ) (h : FracText frac f) (hr : NoDigit rest)
    (hd : ∀ r, rest ≠ '.' :: r) : parseFrac (frac++rest) = some (f,rest) := by
  cases h with
  | none =>
    rw [List.nil_append,parseFrac.eq_def]
    split
    · exact absurd rfl (hd _)
    · rfl
  | some ds h => simp [parseFrac,takeDigits_append ds rest h hr]

theorem frac_noDigit (frac rest : Text) (f : ℚ) (h : FracText frac f) (hr : NoDigit rest) :
    NoDigit (frac++rest) := by
  cases h with
  | none => exact hr
  | some ds h =>
    intro c r hc
    have hcm : '.' = c := (List.cons.inj hc).1
    subst hcm
    decide

theorem parseUnsigned_append (int frac exp rest : Text) (f : ℚ) (e : ℤ) (hi : IntText int)
    (hf : FracText frac f) (he : ExpText exp e) (hr : Follows rest) :
    parseUnsigned (int++frac++exp++rest) = some ((natOf int+f)*10^e,rest) := by
  have hx := exp_apart exp rest e he hr
  have hint := parseInt_append int (frac++(exp++rest)) hi
    (frac_noDigit frac (exp++rest) f hf hx.1)
  have hfrac := parseFrac_append frac (exp++rest) f hf hx.1 hx.2
  have hexp := parseExp_append exp rest e he hr
  rw [List.append_assoc,List.append_assoc]
  simp [parseUnsigned,hint,hfrac,hexp]

theorem number_head (t : Text) (q : ℚ) (h : NumberText t q) :
    ∃ c r, t = c::r ∧ (c = '-' ∨ c.isDigit = true) := by
  cases h with
  | minus int frac exp f e hi hf he => exact ⟨'-',_,rfl,Or.inl rfl⟩
  | plain int frac exp f e hi hf he =>
    cases int with
    | nil => exact absurd rfl hi.1.1
    | cons c ds => exact ⟨c,_,rfl,Or.inr (hi.1.2 c (by simp))⟩

theorem parseNumber_append (t rest : Text) (q : ℚ) (h : NumberText t q) (hr : Follows rest) :
    parseNumber (t++rest) = some (.number q,rest) := by
  cases h with
  | minus int frac exp f e hi hf he =>
    have hu := parseUnsigned_append int frac exp rest f e hi hf he hr
    rw [List.cons_append,parseNumber,hu]
    rfl
  | plain int frac exp f e hi hf he =>
    have hu := parseUnsigned_append int frac exp rest f e hi hf he hr
    cases int with
    | nil => exact absurd rfl hi.1.1
    | cons c ds =>
      have hc := hi.1.2 c (by simp)
      rw [parseNumber.eq_def]
      split
      · simp_all
      · rw [hu]
        rfl

theorem parseValue_number (n : ℕ) (c : Char) (t : Text) (hc : c = '-' ∨ c.isDigit = true) :
    parseValue (n+1) (c::t) = parseNumber (c::t) := by
  rw [parseValue.eq_def]
  split <;> simp_all

end Numbers

theorem digit_not_ws (c : Char) (h : c.isDigit = true) : isWs c = false ∧ c ≠ ']' := by
  constructor
  · by_contra hw
    simp only [isWs,Bool.not_eq_false,Bool.or_eq_true,beq_iff_eq] at hw
    rcases hw with ((hw | hw) | hw) | hw <;> subst hw <;> exact absurd h (by decide)
  · intro hc
    subst hc
    exact absurd h (by decide)

theorem value_head (t : Text) (j : Json) (h : ValueText t j) :
    ∃ c r, t = c::r ∧ isWs c = false ∧ c ≠ ']' := by
  cases h with
  | null => exact ⟨_,_,rfl,by decide,by decide⟩
  | true => exact ⟨_,_,rfl,by decide,by decide⟩
  | false => exact ⟨_,_,rfl,by decide,by decide⟩
  | string t s h => exact ⟨_,_,rfl,by decide,by decide⟩
  | emptyArray w hw => exact ⟨_,_,rfl,by decide,by decide⟩
  | array t items h => exact ⟨_,_,rfl,by decide,by decide⟩
  | emptyObject w hw => exact ⟨_,_,rfl,by decide,by decide⟩
  | object t members h => exact ⟨_,_,rfl,by decide,by decide⟩
  | number t q h =>
    obtain ⟨c,r,ht,hc⟩ := number_head t q h
    refine ⟨c,r,ht,?_⟩
    rcases hc with hc | hc
    · subst hc
      exact ⟨by decide,by decide⟩
    · exact digit_not_ws c hc

theorem skipWs_value (w t rest : Text) (j : Json) (hw : Blank w) (h : ValueText t j) :
    skipWs (w++(t++rest)) = t++rest := by
  obtain ⟨c,r,ht,hc,_⟩ := value_head t j h
  rw [ht]
  exact skipWs_to w (r++rest) c hw hc

theorem follows_blank (w t : Text) (c : Char) (hw : Blank w)
    (hc : c = ',' ∨ c = ']' ∨ c = '}') : Follows (w++c::t) := by
  cases w with
  | nil => exact Follows.next c t (Or.inr hc)
  | cons d w => exact Follows.next d (w++c::t) (Or.inl (hw d (by simp)))

theorem parseValue_string (n : ℕ) (t : Text) :
    parseValue (n+1) ('"' :: t) = (parseChars t).map fun x => (.string x.1,x.2) := rfl

theorem parseValue_array (n : ℕ) (t r : Text) (c : Char) (ht : skipWs t = c::r)
    (hc : c ≠ ']') :
    parseValue (n+1) ('[' :: t) = (parseElements n (c::r)).map fun x => (.array x.1,x.2) := by
  rw [parseValue,ht]
  split <;> simp_all

theorem parseValue_object (n : ℕ) (t r : Text) (c : Char) (ht : skipWs t = c::r)
    (hc : c ≠ '}') :
    parseValue (n+1) ('{' :: t) = (parseMembers n (c::r)).map fun x => (.object x.1,x.2) := by
  rw [parseValue,ht]
  split <;> simp_all

theorem parseElements_last (m : ℕ) (t w rest : Text) (j : Json) (hw : Blank w)
    (h : parseValue m t = some (j,w++ ']' :: rest)) :
    parseElements (m+1) t = some ([j],rest) := by
  simp [parseElements,h,skipWs_to w rest ']' hw (by decide)]

theorem parseElements_more (m : ℕ) (t w rest : Text) (j : Json) (hw : Blank w)
    (h : parseValue m t = some (j,w++ ',' :: rest)) :
    parseElements (m+1) t = (parseElements m (skipWs rest)).map fun x => (j::x.1,x.2) := by
  simp [parseElements,h,skipWs_to w rest ',' hw (by decide)]

theorem parseMembers_last (m : ℕ) (k x t w rest s : Text) (j : Json) (hk : CharsText k s)
    (hx : ColonText x) (hw : Blank w) (hv : ValueText t j)
    (h : parseValue m (t++(w++ '}' :: rest)) = some (j,w++ '}' :: rest)) :
    parseMembers (m+1) ('"' :: (k++ '"' :: (x++(t++(w++ '}' :: rest))))) = some ([(s,j)],rest) := by
  cases hx with
  | mk u u' hu hu' =>
    have hcolon := skipWs_to u (u'++(t++(w++ '}' :: rest))) ':' hu (by decide)
    have hvalue := skipWs_value u' t (w++ '}' :: rest) j hu' hv
    simp [parseMembers,parseChars_text k s _ hk,hcolon,hvalue,h,
      skipWs_to w rest '}' hw (by decide)]

theorem parseMembers_more (m : ℕ) (k x t w rest s : Text) (j : Json) (hk : CharsText k s)
    (hx : ColonText x) (hw : Blank w) (hv : ValueText t j)
    (h : parseValue m (t++(w++ ',' :: rest)) = some (j,w++ ',' :: rest)) :
    parseMembers (m+1) ('"' :: (k++ '"' :: (x++(t++(w++ ',' :: rest))))) =
      (parseMembers m (skipWs rest)).map fun y => ((s,j)::y.1,y.2) := by
  cases hx with
  | mk u u' hu hu' =>
    have hcolon := skipWs_to u (u'++(t++(w++ ',' :: rest))) ':' hu (by decide)
    have hvalue := skipWs_value u' t (w++ ',' :: rest) j hu' hv
    simp [parseMembers,parseChars_text k s _ hk,hcolon,hvalue,h,
      skipWs_to w rest ',' hw (by decide)]

theorem elements_head (t : Text) (items : List Json) (h : ElementsText t items) (rest : Text) :
    ∃ c r, skipWs (t++rest) = c::r ∧ c ≠ ']' := by
  cases h with
  | last w v w' j hw hw' h =>
    obtain ⟨c,r,ht,_,hc⟩ := value_head v j h
    have hs := skipWs_value w v (w'++rest) j hw h
    refine ⟨c,r++(w'++rest),?_,hc⟩
    rw [List.append_assoc,List.append_assoc,hs,ht]
    rfl
  | more w v w' u j items hw hw' h hu =>
    obtain ⟨c,r,ht,_,hc⟩ := value_head v j h
    have hs := skipWs_value w v (w'++ ',' :: u++rest) j hw h
    refine ⟨c,r++(w'++ ',' :: u++rest),?_,hc⟩
    simp only [List.append_assoc] at hs ⊢
    rw [hs,ht]
    rfl

theorem members_head (t : Text) (members : List (Text × Json)) (h : MembersText t members)
    (rest : Text) : ∃ r, skipWs (t++rest) = '"' :: r := by
  cases h with
  | last w k x v w' s j hw hk hx hw' h =>
    refine ⟨k++ '"' :: (x++v++w')++rest,?_⟩
    rw [List.append_assoc]
    exact skipWs_to w _ '"' hw (by decide)
  | more w k x v w' u s j members hw hk hx hw' h hu =>
    refine ⟨k++ '"' :: (x++v++w'++ ',' :: u)++rest,?_⟩
    rw [List.append_assoc]
    exact skipWs_to w _ '"' hw (by decide)

mutual

theorem parseValue_text (t : Text) (j : Json) (h : ValueText t j) (n : ℕ) (rest : Text)
    (hn : t.length ≤ n) (hr : Follows rest) : parseValue n (t++rest) = some (j,rest) := by
  cases n with
  | zero =>
    obtain ⟨c,r,ht,_⟩ := value_head t j h
    rw [ht] at hn
    simp at hn
  | succ n =>
    cases h with
    | null => rfl
    | true => rfl
    | false => rfl
    | number t q h =>
      obtain ⟨c,r,ht,hc⟩ := number_head t q h
      have hp := parseNumber_append t rest q h hr
      rw [ht,List.cons_append] at hp ⊢
      rw [parseValue_number n c _ hc,hp]
    | string t s h =>
      have hp := parseChars_text t s rest h
      rw [List.cons_append,List.append_assoc,parseValue_string]
      rw [List.singleton_append,hp]
      rfl
    | emptyArray w hw =>
      rw [List.cons_append,List.append_assoc,List.singleton_append,parseValue,
        skipWs_to w rest ']' hw (by decide)]
      rfl
    | emptyObject w hw =>
      rw [List.cons_append,List.append_assoc,List.singleton_append,parseValue,
        skipWs_to w rest '}' hw (by decide)]
      rfl
    | array t items h =>
      obtain ⟨c,r,hskip,hc⟩ := elements_head t items h (']' :: rest)
      have hp := parseElements_text t items h n rest (by simp at hn; omega)
      rw [List.cons_append,List.append_assoc,List.singleton_append,
        parseValue_array n _ r c hskip hc,← hskip,hp]
      rfl
    | object t members h =>
      obtain ⟨r,hskip⟩ := members_head t members h ('}' :: rest)
      have hp := parseMembers_text t members h n rest (by simp at hn; omega)
      rw [List.cons_append,List.append_assoc,List.singleton_append,
        parseValue_object n _ r '"' hskip (by decide),← hskip,hp]
      rfl

theorem parseElements_text (t : Text) (items : List Json) (h : ElementsText t items) (n : ℕ)
    (rest : Text) (hn : t.length < n) :
    parseElements n (skipWs (t++ ']' :: rest)) = some (items,rest) := by
  cases n with
  | zero => omega
  | succ n =>
    cases h with
    | last w v w' j hw hw' h =>
      have hv := parseValue_text v j h n (w'++ ']' :: rest) (by simp at hn; omega)
        (follows_blank w' rest ']' hw' (by simp))
      rw [List.append_assoc,List.append_assoc,skipWs_value w v _ j hw h]
      exact parseElements_last n _ w' rest j hw' hv
    | more w v w' u j items hw hw' h hu =>
      have hv := parseValue_text v j h n (w'++ ',' :: (u++ ']' :: rest)) (by simp at hn; omega)
        (follows_blank w' _ ',' hw' (by simp))
      have hrest := parseElements_text u items hu n rest (by simp at hn; omega)
      have htext : w++v++w'++ ',' :: u++ ']' :: rest = w++(v++(w'++ ',' :: (u++ ']' :: rest))) := by
        simp
      rw [htext,skipWs_value w v _ j hw h,parseElements_more n _ w' _ j hw' hv,hrest]
      rfl

theorem parseMembers_text (t : Text) (members : List (Text × Json)) (h : MembersText t members)
    (n : ℕ) (rest : Text) (hn : t.length < n) :
    parseMembers n (skipWs (t++ '}' :: rest)) = some (members,rest) := by
  cases n with
  | zero => omega
  | succ n =>
    cases h with
    | last w k x v w' s j hw hk hx hw' h =>
      have hv := parseValue_text v j h n (w'++ '}' :: rest) (by simp at hn; omega)
        (follows_blank w' rest '}' hw' (by simp))
      have htext : w++ '"' :: (k++ '"' :: (x++v++w'))++ '}' :: rest =
          w++ '"' :: (k++ '"' :: (x++(v++(w'++ '}' :: rest)))) := by simp
      rw [htext,skipWs_to w _ '"' hw (by decide)]
      exact parseMembers_last n k x v w' rest s j hk hx hw' h hv
    | more w k x v w' u s j members hw hk hx hw' h hu =>
      have hv := parseValue_text v j h n (w'++ ',' :: (u++ '}' :: rest)) (by simp at hn; omega)
        (follows_blank w' _ ',' hw' (by simp))
      have hrest := parseMembers_text u members hu n rest (by simp at hn; omega)
      have htext : w++ '"' :: (k++ '"' :: (x++v++w'++ ',' :: u))++ '}' :: rest =
          w++ '"' :: (k++ '"' :: (x++(v++(w'++ ',' :: (u++ '}' :: rest))))) := by simp
      rw [htext,skipWs_to w _ '"' hw (by decide),
        parseMembers_more n k x v w' _ s j hk hx hw' h hv,hrest]
      rfl

end

theorem parse_isParser : IsParser parse := by
  intro t j h
  cases h with
  | mk w t w' j hw hw' h =>
    have hfollow : Follows w' := by
      cases w' with
      | nil => exact Follows.done
      | cons c w' => exact Follows.next c w' (Or.inl (hw' c (by simp)))
    have hv := parseValue_text t j h ((w++t++w').length+1) w' (by simp; omega) hfollow
    have hend : skipWs w' = [] := by
      have hs := skipWs_blank w' [] hw'
      simpa [skipWs] using hs
    rw [List.append_assoc] at hv
    rw [parse,List.append_assoc,skipWs_value w t w' j hw h,hv]
    exact if_pos hend

end Zamak.Rfc8259Parser
