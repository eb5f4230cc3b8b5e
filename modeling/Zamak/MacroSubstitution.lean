import Zamak.SmbiosMerge

/-! # Macro expansion as substitution

Substitution scans a text from the left: a reference, up to the next closing brace, gives
its value or itself, and any other character is copied. `expand_macros` finds the same
references but copies bytes, so a character outside them survives only when it is ASCII. -/

set_option autoImplicit false

namespace Zamak.MacroSubstitution
open Zamak.ConfigText Zamak.ConfigDifferential Zamak.SmbiosMerge
open Zamak.ReferenceParser (splitOnce_some)

def reference (name : Text) : Text := '$' :: '{' :: (name++[ '}'])

def StartsReference (s : Text) : Prop := ∃ name rest, '}' ∉ name ∧ s = reference name++rest

inductive Substitutes (macros : StringMap) : Text → Text → Prop
  | nil : Substitutes macros [] []
  | defined (name rest out : Text) : '}' ∉ name → Substitutes macros rest out →
      Substitutes macros (reference name++rest) ((macros name).getD (reference name)++out)
  | copied (c : Char) (rest out : Text) : ¬StartsReference (c::rest) →
      Substitutes macros rest out → Substitutes macros (c::rest) (c::out)

/-- Every character that stands in no reference is ASCII. -/
inductive AsciiOutside : Text → Prop
  | nil : AsciiOutside []
  | inside (name rest : Text) : '}' ∉ name → AsciiOutside rest → AsciiOutside (reference name++rest)
  | outside (c : Char) (rest : Text) : ¬StartsReference (c::rest) → c.toNat < 128 →
      AsciiOutside rest → AsciiOutside (c::rest)

section Expand
variable (macros : StringMap)

theorem expandFrom_skip (skipped rest : Text) :
    expandFrom macros skipped.length (skipped++rest) = expandFrom macros 0 rest := by
  induction skipped with
  | nil => rfl
  | cons c skipped ih => rw [List.length_cons,List.cons_append,expandFrom,ih]

theorem expandMacros_reference (name rest : Text) (h : '}' ∉ name) :
    expandMacros (reference name++rest) macros =
      (macros name).getD (reference name)++expandMacros rest macros := by
  have hcut : splitOnce '}' (name++ '}' :: rest) = some (name,rest) :=
    (splitOnce_some '}' _ name rest).mpr ⟨rfl,h⟩
  have hbody : reference name++rest = '$' :: '{' :: (name++ '}' :: rest) := by simp [reference]
  have hskip := expandFrom_skip macros ( '{' :: (name++[ '}'])) rest
  have hlen : ( '{' :: (name++[ '}'])).length = name.length+2 := by simp
  have htail : '{' :: (name++[ '}'])++rest = '{' :: (name++ '}' :: rest) := by simp
  rw [hlen,htail] at hskip
  unfold expandMacros
  rw [hbody,expandFrom]
  simp only [List.head?_cons,List.tail_cons,and_self,if_true,hcut,hskip]
  rfl

/-- A text that starts with `$` and a brace and has a closing one starts with a reference. -/
theorem startsReference_of_split (rest name after : Text) (hbrace : rest.head? = some '{')
    (h : splitOnce '}' rest.tail = some (name,after)) : StartsReference ( '$' :: rest) := by
  obtain ⟨htail,hname⟩ := (splitOnce_some '}' _ name after).mp h
  obtain ⟨body,rfl⟩ := List.head?_eq_some_iff.mp hbrace
  rw [List.tail_cons] at htail
  refine ⟨name,after,hname,?_⟩
  rw [htail]
  simp [reference]

theorem expandMacros_copied (c : Char) (rest : Text) (h : ¬StartsReference (c::rest)) :
    expandMacros (c::rest) macros = bytesAsChars c++expandMacros rest macros := by
  unfold expandMacros
  rw [expandFrom]
  split
  · next hstart =>
    split
    · next name after hsplit =>
      exact absurd (hstart.1 ▸ startsReference_of_split rest name after hstart.2 hsplit) h
    · rfl
  · rfl

theorem substitutes_of_ascii (input : Text) (h : AsciiOutside input) :
    Substitutes macros input (expandMacros input macros) := by
  induction h with
  | nil => exact .nil
  | inside name rest hname _ ih =>
    rw [expandMacros_reference macros name rest hname]
    exact .defined name rest _ hname ih
  | outside c rest hstart hascii _ ih =>
    rw [expandMacros_copied macros c rest hstart,bytesAsChars_ascii c hascii]
    exact .copied c rest _ hstart ih

/-- Expansion is never shorter than substitution, and of its length only where ASCII is
copied. -/
theorem substitutes_length (input out : Text) (h : Substitutes macros input out) :
    out.length ≤ (expandMacros input macros).length ∧
      (out.length = (expandMacros input macros).length → AsciiOutside input) := by
  induction h with
  | nil => exact ⟨Nat.le_refl 0,fun _ => .nil⟩
  | defined name rest out hname _ ih =>
    rw [expandMacros_reference macros name rest hname,List.length_append,List.length_append]
    refine ⟨by omega,fun hlen => ?_⟩
    exact .inside name rest hname (ih.2 (by omega))
  | copied c rest out hstart _ ih =>
    have hsize := c.utf8Size_pos
    rw [expandMacros_copied macros c rest hstart,List.length_append,List.length_cons,
      bytesAsChars_length]
    refine ⟨by omega,fun hlen => ?_⟩
    have hone : c.utf8Size = 1 := by omega
    exact .outside c rest hstart (Nat.lt_succ_of_le (Char.utf8Size_eq_one_iff.mp hone))
      (ih.2 (by omega))

theorem macroFree_cons (c : Char) (rest : Text) (h : MacroFree (c::rest)) :
    ¬StartsReference (c::rest) ∧ MacroFree rest := by
  constructor
  · rintro ⟨name,after,-,heq⟩
    apply h
    exact ⟨[],name++[ '}']++after,by rw [heq]; simp [reference]⟩
  · exact fun hin => h (hin.trans (List.infix_cons (List.infix_refl rest)))

theorem substitutes_free (input out : Text) (hfree : MacroFree input)
    (h : Substitutes macros input out) : out = input := by
  induction h with
  | nil => rfl
  | defined name rest out hname _ _ =>
    exact absurd ⟨[],name++[ '}']++rest,by simp [reference]⟩ hfree
  | copied c rest out _ _ ih => rw [ih (macroFree_cons c rest hfree).2]

theorem reference_inj (name name' rest rest' : Text) (h : '}' ∉ name) (h' : '}' ∉ name')
    (heq : reference name++rest = reference name'++rest') : name = name' ∧ rest = rest' := by
  have hbody : name++ '}' :: rest = name'++ '}' :: rest' := by
    simpa [reference] using heq
  have hcut := (splitOnce_some '}' _ name rest).mpr ⟨rfl,h⟩
  have hcut' := (splitOnce_some '}' _ name' rest').mpr ⟨rfl,h'⟩
  rw [hbody,hcut'] at hcut
  obtain ⟨hname,hrest⟩ := Prod.mk.inj (Option.some.inj hcut)
  exact ⟨hname.symm,hrest.symm⟩

theorem substitutes_unique (input out out' : Text) (h : Substitutes macros input out)
    (h' : Substitutes macros input out') : out = out' := by
  induction h generalizing out' with
  | nil => cases h' with | nil => rfl
  | defined name rest out hname _ ih =>
    generalize hinput : reference name++rest = input at h'
    cases h' with
    | nil => simp [reference] at hinput
    | defined name' rest' out' hname' hrest' =>
      obtain ⟨rfl,rfl⟩ := reference_inj name name' rest rest' hname hname' hinput
      rw [ih out' hrest']
    | copied c rest' out' hstart _ => exact absurd ⟨name,rest,hname,hinput.symm⟩ hstart
  | copied c rest out hstart _ ih =>
    generalize hinput : c::rest = input at h'
    cases h' with
    | nil => cases hinput
    | defined name' rest' out' hname' _ => exact absurd ⟨name',rest',hname',hinput⟩ hstart
    | copied c' rest' out' _ hrest' =>
      obtain ⟨rfl,rfl⟩ := List.cons.inj hinput
      rw [ih out' hrest']

theorem substitutes_exists (input : Text) : ∃ out, Substitutes macros input out := by
  induction hlen : input.length using Nat.strongRecOn generalizing input with
  | ind n ih =>
    by_cases hstart : StartsReference input
    · obtain ⟨name,rest,hname,rfl⟩ := hstart
      have hless : rest.length < n := by
        rw [← hlen,List.length_append,reference,List.length_cons]
        omega
      obtain ⟨out,hout⟩ := ih rest.length hless rest rfl
      exact ⟨_,.defined name rest out hname hout⟩
    · cases input with
      | nil => exact ⟨[],.nil⟩
      | cons c rest =>
        obtain ⟨out,hout⟩ := ih rest.length (by rw [← hlen]; exact Nat.lt_succ_self _) rest rfl
        exact ⟨c::out,.copied c rest out hstart hout⟩

/-- The text is substituted, and a text without references is returned as it is. -/
structure Expanded (input out : Text) : Prop where
  substituted : Substitutes macros input out
  unchanged : MacroFree input → out = input

/-- Every text has one substitution, and `expand_macros` gives it exactly on the texts that
are ASCII outside their references. -/
theorem expandMacros_substitutes_iff (input : Text) :
    (∃! out, Substitutes macros input out) ∧
    (Expanded macros input (expandMacros input macros) ↔ AsciiOutside input) := by
  refine ⟨?_,?_,?_⟩
  · obtain ⟨out,hout⟩ := substitutes_exists macros input
    exact ⟨out,hout,fun out' hout' => substitutes_unique macros input out' out hout' hout⟩
  · intro h
    exact (substitutes_length macros input _ h.substituted).2 rfl
  · intro h
    have hsubst := substitutes_of_ascii macros input h
    exact ⟨hsubst,fun hfree => substitutes_free macros input _ hfree hsubst⟩

end Expand

/-- An accented letter comes back as two. -/
theorem expandMacros_accent :
    expandMacros "café".toList (fun _ => none) = "cafÃ©".toList ∧
    ¬Expanded (fun _ => none) "café".toList (expandMacros "café".toList fun _ => none) := by
  have hout : expandMacros "café".toList (fun _ => none) = "cafÃ©".toList := by decide
  refine ⟨hout,fun h => ?_⟩
  have hsame := h.unchanged (by decide)
  rw [hout] at hsame
  exact absurd hsame (by decide)

end Zamak.MacroSubstitution
