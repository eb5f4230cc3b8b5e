import Zamak.ConfigParse

/-! # Paths for the firmware's file system

The loop of the UEFI loader that copies a path into a buffer of 256 codes, made three times:
for the kernel, the initrd and a module. It does not look at the length of the path, and a
cast keeps the low half of a character. What it is given to, `CStr16::from_u16_with_nul`,
refuses a NUL in front of the last code and the codes that are no character. So the copy is
the path in UTF-16 or no path at all exactly when the path leaves room for the NUL and
either every character is one code or a cast gives a code that is refused. -/

set_option autoImplicit false

namespace Zamak.UefiPaths
open Zamak.ConfigText Zamak.ConfigParse

/-- How the loader stops instead of opening a file. -/
inductive Panic where
  | outOfBounds
  | expected (message : String)
  deriving DecidableEq, Repr

def code (c : Char) : UInt16 := if c = '/' then UInt16.ofNat '\\'.toNat else UInt16.ofNat c.toNat

def putChar (s : List UInt16 × ℕ) (c : Char) : Option (List UInt16 × ℕ) :=
  if s.2 < s.1.length then some (s.1.set s.2 (code c),s.2+1) else none

def sliceTo (s : List UInt16 × ℕ) : Option (List UInt16) :=
  if s.2+1 ≤ s.1.length then some (s.1.take (s.2+1)) else none

/-- Where the loop stands, by what the loader says when the copy is refused. -/
inductive Site where
  | kernel
  | initrd
  | module
  deriving DecidableEq, Repr

def Site.message : Site → String
  | .kernel => "Failed to create CStr16"
  | .initrd => "CStr16 for initrd"
  | .module => "CStr16 for module"

section Conversion
variable {E : Type} (fromU16WithNul : List UInt16 → Except E (List UInt16))

/-- The loop and what follows it; a `CStr16` is given by its codes. -/
def convert (site : Site) (path : Text) : Except Panic (List UInt16) :=
  match (path.foldlM putChar (List.replicate 256 0,0)).bind sliceTo with
  | none => .error .outOfBounds
  | some codes =>
    match fromU16WithNul codes with
    | .error _ => .error (.expected site.message)
    | .ok path => .ok path

/-- The path of the kernel, as the parser stores it or from the options. -/
def kernelPathStr (entry : EntryFields) : Except Panic Text :=
  if entry.kernelPath ≠ [] then .ok entry.kernelPath
  else
    match (entry.options "KERNEL_PATH".toList).or (entry.options "PATH".toList) with
    | some path => .ok path
    | none => .error (.expected "No kernel path specified")

def kernelPath (entry : EntryFields) : Except Panic (List UInt16) :=
  (kernelPathStr entry).bind (convert fromU16WithNul .kernel)

def initrdPath (modCfg : ModuleConfig) : Except Panic (List UInt16) :=
  convert fromU16WithNul .initrd modCfg.path

def modulePath (modCfg : ModuleConfig) : Except Panic (List UInt16) :=
  convert fromU16WithNul .module modCfg.path

end Conversion

def IsSurrogate (u : ℕ) : Prop := 0xD800 ≤ u ∧ u < 0xE000

instance (u : ℕ) : Decidable (IsSurrogate u) := inferInstanceAs (Decidable (_ ∧ _))

/-- Codes that a `CStr16` can have: characters of one code, and one NUL behind them. -/
def Terminated (codes : List UInt16) : Prop :=
  ∃ body, codes = body++[0] ∧ ∀ u ∈ body, u ≠ 0 ∧ ¬IsSurrogate u.toNat

/-- The documented behaviour of `CStr16::from_u16_with_nul`. -/
structure ChecksCodes {E : Type} (fromU16WithNul : List UInt16 → Except E (List UInt16)) :
    Prop where
  accepts : ∀ codes, Terminated codes → fromU16WithNul codes = .ok codes
  refuses : ∀ codes, ¬Terminated codes → ∃ e, fromU16WithNul codes = .error e

def utf16 (c : Char) : List UInt16 :=
  if c.toNat < 0x10000 then [UInt16.ofNat c.toNat]
  else [UInt16.ofNat (0xD800+(c.toNat-0x10000)/0x400),UInt16.ofNat (0xDC00+(c.toNat-0x10000)%0x400)]

def separator (c : Char) : Char := if c = '/' then '\\' else c

/-- The path with the separators of the firmware, in UTF-16 with a NUL behind it. -/
def encoded (path : Text) : List UInt16 := (path.map separator).flatMap utf16++[0]

def Right (outcome : Except Panic (List UInt16)) (path : Text) : Prop :=
  (∃ message, outcome = .error (.expected message)) ∨ outcome = .ok (encoded path)

/-- A character whose low half no `CStr16` can have in front of its end. -/
def LowRefused (c : Char) : Prop := c.toNat%0x10000 = 0 ∨ IsSurrogate (c.toNat%0x10000)

instance (c : Char) : Decidable (LowRefused c) := inferInstanceAs (Decidable (_ ∨ _))

/-- There is room for the path and a NUL, and the characters are all of one code or one of
them is cast to a code that is refused. -/
def Fits (path : Text) : Prop :=
  path.length < 256 ∧ ((∀ c ∈ path, c.toNat < 0x10000) ∨ ∃ c ∈ path, LowRefused c)

theorem set_blank (done : List UInt16) (k : ℕ) (u : UInt16) :
    (done++List.replicate (k+1) 0).set done.length u = done++u::List.replicate k 0 := by
  rw [List.set_append_right _ _ (Nat.le_refl _),Nat.sub_self,List.replicate_succ,List.set_cons_zero]

/-- The loop with `k` blank codes left: it fills them in order, or runs out of them. -/
theorem foldlM_putChar (path : Text) (done : List UInt16) (k : ℕ) :
    path.foldlM putChar (done++List.replicate k 0,done.length) =
      if path.length ≤ k then
        some (done++path.map code++List.replicate (k-path.length) 0,done.length+path.length)
      else none := by
  induction path generalizing done k with
  | nil => simp
  | cons c path ih =>
    rw [List.foldlM_cons,List.length_cons]
    cases k with
    | zero =>
      rw [if_neg (by omega),putChar,if_neg (by simp)]
      rfl
    | succ k =>
      have hput : putChar (done++List.replicate (k+1) 0,done.length) c =
          some (done++[code c]++List.replicate k 0,(done++[code c]).length) := by
        rw [putChar,if_pos (by simp)]
        simp only [set_blank,List.length_append,List.length_singleton,List.append_assoc,
          List.cons_append,List.nil_append]
      rw [hput,Option.bind_eq_bind,Option.bind_some,ih (done++[code c]) k]
      by_cases h : path.length ≤ k
      · rw [if_pos h,if_pos (by omega)]
        simp only [List.length_append,List.length_singleton,List.map_cons,List.append_assoc,
          List.cons_append,List.nil_append,Nat.add_sub_add_right]
        rw [Nat.add_assoc,Nat.add_comm 1]
      · rw [if_neg h,if_neg (by omega)]

theorem copied_eq (path : Text) :
    (path.foldlM putChar (List.replicate 256 0,0)).bind sliceTo =
      if path.length < 256 then some (path.map code++[0]) else none := by
  have hloop := foldlM_putChar path [] 256
  rw [List.nil_append,List.length_nil] at hloop
  rw [hloop]
  by_cases h : path.length < 256
  · obtain ⟨k,hk⟩ : ∃ k, 256-path.length = k+1 := ⟨255-path.length,by omega⟩
    rw [if_pos (Nat.le_of_lt h),if_pos h,Option.bind_some,sliceTo,hk,if_pos (by simp)]
    simp only [List.nil_append,Nat.zero_add]
    rw [List.replicate_succ,List.append_cons,List.take_left' (by simp)]
  · rw [if_neg h]
    by_cases hfull : path.length ≤ 256
    · rw [if_pos hfull,Option.bind_some,sliceTo,if_neg (by simp; omega)]
    · rw [if_neg hfull,Option.bind_none]

theorem code_zero_iff (c : Char) : code c = 0 ↔ c.toNat%0x10000 = 0 := by
  rw [← UInt16.toNat_inj]
  unfold code
  by_cases h : c = '/'
  · subst h
    decide
  · rw [if_neg h,UInt16.toNat_ofNat']
    rfl

theorem code_surrogate_iff (c : Char) :
    IsSurrogate (code c).toNat ↔ IsSurrogate (c.toNat%0x10000) := by
  unfold code
  by_cases h : c = '/'
  · subst h
    decide
  · rw [if_neg h,UInt16.toNat_ofNat']

theorem lowRefused_iff (c : Char) :
    LowRefused c ↔ code c = 0 ∨ IsSurrogate (code c).toNat := by
  rw [code_zero_iff,code_surrogate_iff,LowRefused]

theorem terminated_codes_iff (path : Text) :
    Terminated (path.map code++[0]) ↔ ∀ c ∈ path, ¬LowRefused c := by
  constructor
  · rintro ⟨body,hbody,hall⟩ c hc hrefused
    obtain rfl := List.append_cancel_right hbody
    have hcode := hall (code c) (List.mem_map_of_mem hc)
    rcases (lowRefused_iff c).mp hrefused with h | h
    · exact hcode.1 h
    · exact hcode.2 h
  · intro hall
    refine ⟨path.map code,rfl,?_⟩
    intro u hu
    obtain ⟨c,hc,rfl⟩ := List.mem_map.mp hu
    have hcode := (not_congr (lowRefused_iff c)).mp (hall c hc)
    exact ⟨fun h => hcode (.inl h),fun h => hcode (.inr h)⟩

theorem utf16_separator (c : Char) (h : c.toNat < 0x10000) :
    utf16 (separator c) = [code c] := by
  unfold separator code
  by_cases hc : c = '/'
  · rw [if_pos hc,if_pos hc,utf16,if_pos (by decide)]
  · rw [if_neg hc,if_neg hc,utf16,if_pos h]

theorem separator_small_iff (c : Char) :
    (separator c).toNat < 0x10000 ↔ c.toNat < 0x10000 := by
  unfold separator
  by_cases hc : c = '/'
  · subst hc
    decide
  · rw [if_neg hc]

theorem encoded_small (path : Text) (h : ∀ c ∈ path, c.toNat < 0x10000) :
    encoded path = path.map code++[0] := by
  have hbody : (path.map separator).flatMap utf16 = path.map code := by
    induction path with
    | nil => rfl
    | cons c path ih =>
      rw [List.map_cons,List.flatMap_cons,List.map_cons,utf16_separator c (h c (by simp)),
        ih fun x hx => h x (List.mem_cons_of_mem c hx)]
      rfl
  rw [encoded,hbody]

theorem small_of_length (path : Text)
    (h : ((path.map separator).flatMap utf16).length = path.length) :
    ∀ c ∈ path, c.toNat < 0x10000 := by
  have hle : ∀ path : Text, path.length ≤ ((path.map separator).flatMap utf16).length := by
    intro path
    induction path with
    | nil => exact Nat.le_refl 0
    | cons c path ih =>
      rw [List.map_cons,List.flatMap_cons,List.length_append,List.length_cons]
      have hone : 1 ≤ (utf16 (separator c)).length := by
        unfold utf16
        split <;> simp
      omega
  induction path with
  | nil => simp
  | cons c path ih =>
    rw [List.map_cons,List.flatMap_cons,List.length_append,List.length_cons] at h
    have hrest := hle path
    by_cases hc : c.toNat < 0x10000
    · rw [utf16_separator c hc,List.length_singleton] at h
      exact List.forall_mem_cons.mpr ⟨hc,ih (by omega)⟩
    · have htwo : (utf16 (separator c)).length = 2 := by
        rw [utf16,if_neg ((not_congr (separator_small_iff c)).mpr hc)]
        rfl
      omega

section Conversion
variable {E : Type} {fromU16WithNul : List UInt16 → Except E (List UInt16)}

theorem convert_overrun (site : Site) (path : Text) (h : ¬path.length < 256) :
    convert fromU16WithNul site path = .error .outOfBounds := by
  rw [convert,copied_eq,if_neg h]

theorem convert_refused (hchecks : ChecksCodes fromU16WithNul) (site : Site) (path : Text)
    (h : path.length < 256) (hrefused : ∃ c ∈ path, LowRefused c) :
    convert fromU16WithNul site path = .error (.expected site.message) := by
  have hnot : ¬Terminated (path.map code++[0]) := by
    rw [terminated_codes_iff]
    obtain ⟨c,hc,hlow⟩ := hrefused
    exact fun hall => hall c hc hlow
  obtain ⟨e,he⟩ := hchecks.refuses _ hnot
  rw [convert,copied_eq,if_pos h]
  dsimp only
  rw [he]

theorem convert_copied (hchecks : ChecksCodes fromU16WithNul) (site : Site) (path : Text)
    (h : path.length < 256) (hall : ∀ c ∈ path, ¬LowRefused c) :
    convert fromU16WithNul site path = .ok (path.map code++[0]) := by
  rw [convert,copied_eq,if_pos h]
  dsimp only
  rw [hchecks.accepts _ ((terminated_codes_iff path).mpr hall)]

theorem convert_right_iff (hchecks : ChecksCodes fromU16WithNul) (site : Site) (path : Text) :
    Right (convert fromU16WithNul site path) path ↔ Fits path := by
  by_cases h : path.length < 256
  · by_cases hrefused : ∃ c ∈ path, LowRefused c
    · have hconvert := convert_refused hchecks site path h hrefused
      exact ⟨fun _ => ⟨h,.inr hrefused⟩,fun _ => .inl ⟨_,hconvert⟩⟩
    · have hall : ∀ c ∈ path, ¬LowRefused c := fun c hc hlow => hrefused ⟨c,hc,hlow⟩
      have hconvert := convert_copied hchecks site path h hall
      constructor
      · rintro (⟨message,herror⟩ | hok)
        · rw [hconvert] at herror
          cases herror
        · rw [hconvert] at hok
          have hlength := congrArg List.length (Except.ok.inj hok)
          rw [encoded,List.length_append,List.length_append,List.length_map] at hlength
          exact ⟨h,.inl (small_of_length path (by omega))⟩
      · rintro ⟨-,hsmall | hlow⟩
        · exact .inr (by rw [hconvert,encoded_small path hsmall])
        · exact (hrefused hlow).elim
  · have hconvert := @convert_overrun E fromU16WithNul site path h
    constructor
    · rintro (⟨message,herror⟩ | hok)
      · rw [hconvert] at herror
        cases herror
      · rw [hconvert] at hok
        cases hok
    · exact fun hcond => (h hcond.1).elim

/-- The three loops give the encoding of their paths or refuse them exactly when the paths
fit. -/
theorem paths_right_iff (hchecks : ChecksCodes fromU16WithNul) (entry : EntryFields)
    (modCfg : ModuleConfig) :
    (∀ path, kernelPathStr entry = .ok path →
        (Right (kernelPath fromU16WithNul entry) path ↔ Fits path)) ∧
      (Right (initrdPath fromU16WithNul modCfg) modCfg.path ↔ Fits modCfg.path) ∧
        (Right (modulePath fromU16WithNul modCfg) modCfg.path ↔ Fits modCfg.path) := by
  refine ⟨?_,convert_right_iff hchecks .initrd modCfg.path,
    convert_right_iff hchecks .module modCfg.path⟩
  intro path hpath
  rw [kernelPath,hpath]
  exact convert_right_iff hchecks .kernel path

end Conversion

/-- The errors of `CStr16::from_u16_with_nul`. -/
inductive SliceError where
  | interiorNul (pos : ℕ)
  | invalidChar (pos : ℕ)
  | notNulTerminated
  deriving DecidableEq, Repr

def scanCodes (codes : List UInt16) : ℕ → List UInt16 → Except SliceError (List UInt16)
  | _, [] => .error .notNulTerminated
  | pos, u::rest =>
    if u = 0 then if rest = [] then .ok codes else .error (.interiorNul pos)
    else if IsSurrogate u.toNat then .error (.invalidChar pos)
    else scanCodes codes (pos+1) rest

theorem terminated_nil : ¬Terminated [] := by
  rintro ⟨body,hbody,-⟩
  cases body with
  | nil => cases hbody
  | cons u body => cases hbody

theorem terminated_cons (u : UInt16) (rest : List UInt16) :
    Terminated (u::rest) ↔
      u = 0 ∧ rest = [] ∨ u ≠ 0 ∧ ¬IsSurrogate u.toNat ∧ Terminated rest := by
  constructor
  · rintro ⟨body,hbody,hall⟩
    cases body with
    | nil => exact .inl (List.cons.inj hbody)
    | cons v body =>
      obtain ⟨rfl,hrest⟩ := List.cons.inj hbody
      obtain ⟨hzero,hsurrogate⟩ := hall u (List.mem_cons_self ..)
      exact .inr ⟨hzero,hsurrogate,body,hrest,fun x hx => hall x (List.mem_cons_of_mem u hx)⟩
  · rintro (⟨rfl,rfl⟩ | ⟨hzero,hsurrogate,body,rfl,hall⟩)
    · exact ⟨[],rfl,by simp⟩
    · exact ⟨u::body,rfl,List.forall_mem_cons.mpr ⟨⟨hzero,hsurrogate⟩,hall⟩⟩

theorem scanCodes_cases (codes rest : List UInt16) (pos : ℕ) :
    (Terminated rest ∧ scanCodes codes pos rest = .ok codes) ∨
      (¬Terminated rest ∧ ∃ e, scanCodes codes pos rest = .error e) := by
  induction rest generalizing pos with
  | nil => exact .inr ⟨terminated_nil,_,rfl⟩
  | cons u rest ih =>
    rw [terminated_cons,scanCodes]
    by_cases hzero : u = 0
    · rw [if_pos hzero]
      by_cases hlast : rest = []
      · exact .inl ⟨.inl ⟨hzero,hlast⟩,if_pos hlast⟩
      · refine .inr ⟨?_,_,if_neg hlast⟩
        rintro (⟨-,h⟩ | ⟨h,-⟩)
        · exact hlast h
        · exact h hzero
    · rw [if_neg hzero]
      by_cases hsurrogate : IsSurrogate u.toNat
      · refine .inr ⟨?_,_,if_pos hsurrogate⟩
        rintro (⟨h,-⟩ | ⟨-,h,-⟩)
        · exact hzero h
        · exact h hsurrogate
      · have htail : (u = 0 ∧ rest = [] ∨ u ≠ 0 ∧ ¬IsSurrogate u.toNat ∧ Terminated rest) ↔
            Terminated rest := by
          simp only [hzero,hsurrogate,false_and,false_or,ne_eq,not_false_eq_true,true_and]
        rw [if_neg hsurrogate,htail]
        exact ih (pos+1)

theorem scanCodes_checks : ChecksCodes fun codes => scanCodes codes 0 codes where
  accepts := by
    intro codes h
    rcases scanCodes_cases codes codes 0 with ⟨-,hok⟩ | ⟨hnot,-⟩
    · exact hok
    · exact (hnot h).elim
  refuses := by
    intro codes h
    rcases scanCodes_cases codes codes 0 with ⟨hterm,-⟩ | ⟨-,herror⟩
    · exact (h hterm).elim
    · exact herror

def sampleEntry : EntryFields where
  kernelPath := [ '/', 'k']
  modules := [⟨[ '/', 'i'],[]⟩]

theorem paths_right_sample :
    Right (kernelPath (fun codes => scanCodes codes 0 codes) sampleEntry) [ '/', 'k'] ∧
      Right (initrdPath (fun codes => scanCodes codes 0 codes) ⟨[ '/', 'i'],[]⟩) [ '/', 'i'] := by
  have hsound := paths_right_iff scanCodes_checks sampleEntry ⟨[ '/', 'i'],[]⟩
  refine ⟨(hsound.1 [ '/', 'k'] rfl).mpr ⟨by decide,.inl ?_⟩,hsound.2.1.mpr ⟨by decide,.inl ?_⟩⟩
  · simp only [List.forall_mem_cons,List.not_mem_nil,false_imp_iff,implies_true,and_true]
    decide
  · simp only [List.forall_mem_cons,List.not_mem_nil,false_imp_iff,implies_true,and_true]
    decide

def face : Char := Char.ofNat 0x1F600

/-- A path of 256 characters runs out of the buffer, and a character beyond the first plane
is copied as another one. -/
theorem paths_copied_wrong :
    modulePath (fun codes => scanCodes codes 0 codes) ⟨List.replicate 256 'a',[]⟩ =
        .error .outOfBounds ∧
      kernelPath (fun codes => scanCodes codes 0 codes) { kernelPath := [face] } =
        .ok [0xF600,0] ∧
      ¬Right (modulePath (fun codes => scanCodes codes 0 codes) ⟨List.replicate 256 'a',[]⟩)
        (List.replicate 256 'a') ∧
      ¬Right (kernelPath (fun codes => scanCodes codes 0 codes) { kernelPath := [face] })
        [face] := by
  have hlong : modulePath (fun codes => scanCodes codes 0 codes) ⟨List.replicate 256 'a',[]⟩ =
      .error .outOfBounds :=
    convert_overrun .module _ (by rw [List.length_replicate]; decide)
  have hface : kernelPath (fun codes => scanCodes codes 0 codes) { kernelPath := [face] } =
      .ok [0xF600,0] := by
    have hcopied := convert_copied scanCodes_checks .kernel [face] (by decide)
      (by simp only [List.forall_mem_singleton]; decide)
    have hcodes : [face].map code++[0] = [0xF600,0] := by decide
    rw [hcodes] at hcopied
    have hpath : kernelPathStr { kernelPath := [face] } = .ok [face] := rfl
    rw [kernelPath,hpath,Except.bind,hcopied]
  refine ⟨hlong,hface,?_,?_⟩
  · rw [hlong]
    rintro (⟨message,herror⟩ | hok)
    · cases herror
    · cases hok
  · rw [hface]
    rintro (⟨message,herror⟩ | hok)
    · cases herror
    · exact absurd (Except.ok.inj hok) (by decide)

end Zamak.UefiPaths
