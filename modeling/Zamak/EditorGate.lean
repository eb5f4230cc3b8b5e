import Zamak.MenuLoops

/-! # The gate of the editor

`handle_editor_key` asks the validator after an edit and keeps its diagnostic; `F10` commits
unless that diagnostic is an error. What is kept is always the verdict on the buffer, but an
editor that was just opened has none, and its buffer is committed unseen. -/

set_option autoImplicit false

namespace Zamak.EditorGate
open Zamak.ConfigText Zamak.BootFlow Zamak.MenuLoops

def withValidator (state : MenuState) (validator : Text → EditorDiagnostic) : MenuState :=
  { state with validator := some validator }

def revalidate (state : MenuState) : MenuState :=
  match state.validator with
  | some v => { state with lastDiagnostic := some (v state.editBuffer) }
  | none => state

/-- The last diagnostic does not stand against a commit. -/
def allows (state : MenuState) : Bool :=
  match state.lastDiagnostic with
  | none => true
  | some d => decide (d.level ≠ .error)

/-- `handle_editor_key`: the state it leaves, and whether to commit and boot. -/
def handleEditorKey (state : MenuState) : Key → MenuState × Bool
  | key =>
    if !state.editing || state.editorLocked then (state,false)
    else
      match key with
      | .esc => ({ state with editing := false, editBuffer := [], lastDiagnostic := none },false)
      | .f10 =>
        if allows state then ({ state with bootRequested := true, editing := false },true)
        else (state,false)
      | .backspace => (revalidate { state with editBuffer := state.editBuffer.dropLast },false)
      | .char c => (revalidate (MenuState.push state c),false)
      | _ => (state,false)

def acts : Key → Bool
  | .esc | .f10 | .backspace | .char _ => true
  | _ => false

section Steps
variable (v : Text → EditorDiagnostic)

/-- The diagnostic, if there is one, is the verdict on the buffer. -/
structure Synced (state : MenuState) : Prop where
  validator : state.validator = some v
  verdict : ∀ d, state.lastDiagnostic = some d → d = v state.editBuffer

/-- A key commits only what the validator does not call an error, and leaves a diagnostic in
step with the buffer. -/
structure StepGated (state : MenuState) (key : Key) : Prop where
  commits : (handleEditorKey state key).2 = true → (v state.editBuffer).level ≠ .error
  verdict : ∀ d, (handleEditorKey state key).1.lastDiagnostic = some d →
    d = v (handleEditorKey state key).1.editBuffer

def Gated : MenuState → List Key → Prop
  | _, [] => True
  | state, key::keys => StepGated v state key ∧ Gated (handleEditorKey state key).1 keys

theorem handleEditorKey_idle (state : MenuState) (key : Key) (h : acts key = false) :
    handleEditorKey state key = (state,false) := by
  unfold handleEditorKey
  split
  · rfl
  · cases key with
    | esc | f10 | backspace | char c => cases h
    | up | down | enter | edit | none => rfl

theorem handleEditorKey_shut (state : MenuState) (key : Key)
    (h : state.editing = false ∨ state.editorLocked = true) :
    handleEditorKey state key = (state,false) := by
  unfold handleEditorKey
  rw [if_pos]
  rcases h with h | h <;> simp [h]

theorem handleEditorKey_open (state : MenuState) (key : Key) (hediting : state.editing = true)
    (hunlocked : state.editorLocked = false) :
    handleEditorKey state key =
      match key with
      | .esc => ({ state with editing := false, editBuffer := [], lastDiagnostic := none },false)
      | .f10 =>
        if allows state then ({ state with bootRequested := true, editing := false },true)
        else (state,false)
      | .backspace => (revalidate { state with editBuffer := state.editBuffer.dropLast },false)
      | .char c => (revalidate (MenuState.push state c),false)
      | _ => (state,false) := by
  unfold handleEditorKey
  rw [if_neg (by simp [hediting,hunlocked])]

theorem open_or_shut (state : MenuState) :
    (state.editing = true ∧ state.editorLocked = false) ∨
      (state.editing = false ∨ state.editorLocked = true) := by
  cases state.editing with
  | false => exact .inr (.inl rfl)
  | true =>
    cases state.editorLocked with
    | false => exact .inl ⟨rfl,rfl⟩
    | true => exact .inr (.inr rfl)

theorem revalidate_eq (state : MenuState) (h : state.validator = some v) :
    revalidate state = { state with lastDiagnostic := some (v state.editBuffer) } := by
  rw [revalidate,h]

/-- A state in which the buffer has been judged, or in which nothing is committed. -/
structure Settled (state : MenuState) : Prop where
  synced : Synced v state
  judged : state.editing = true → state.editorLocked = false → state.lastDiagnostic ≠ none

theorem settled_revalidate (state : MenuState) (h : state.validator = some v) :
    Settled v (revalidate state) := by
  rw [revalidate_eq v state h]
  exact ⟨⟨h,fun d hd => (Option.some.inj hd).symm⟩,fun _ _ => Option.some_ne_none _⟩

theorem settled_shut (state : MenuState) (h : Synced v state) (hshut : state.editing = false) :
    Settled v state :=
  ⟨h,fun hediting => by rw [hshut] at hediting; cases hediting⟩

theorem settled_step (state : MenuState) (key : Key) (h : Synced v state)
    (hkey : Settled v state ∨ acts key = true) : Settled v (handleEditorKey state key).1 := by
  rcases open_or_shut state with hopen | hshut
  · rw [handleEditorKey_open state key hopen.1 hopen.2]
    cases key with
    | esc => exact settled_shut v _ ⟨h.validator,fun d hd => by cases hd⟩ rfl
    | f10 =>
      cases hallows : allows state with
      | true =>
        simp only [if_true]
        exact settled_shut v _ ⟨h.validator,h.verdict⟩ rfl
      | false =>
        simp only [Bool.false_eq_true,if_false]
        refine ⟨h,fun _ _ hnone => ?_⟩
        rw [allows,hnone] at hallows
        cases hallows
    | backspace => exact settled_revalidate v _ h.validator
    | char c => exact settled_revalidate v _ h.validator
    | up | down | enter | edit | none =>
      rcases hkey with hsettled | hacts
      · exact hsettled
      · cases hacts
  · rw [handleEditorKey_shut state key hshut]
    refine ⟨h,fun hediting hunlocked => ?_⟩
    rcases hshut with hshut | hlocked
    · rw [hediting] at hshut
      cases hshut
    · rw [hunlocked] at hlocked
      cases hlocked

/-- Only `F10` on an open editor commits, and only with a diagnostic that allows it. -/
theorem commits_cases (state : MenuState) (key : Key) (h : (handleEditorKey state key).2 = true) :
    key = .f10 ∧ state.editing = true ∧ state.editorLocked = false ∧ allows state = true := by
  rcases open_or_shut state with hopen | hshut
  · rw [handleEditorKey_open state key hopen.1 hopen.2] at h
    cases key with
    | f10 =>
      refine ⟨rfl,hopen.1,hopen.2,?_⟩
      cases hallows : allows state with
      | true => rfl
      | false => simp [hallows] at h
    | esc | backspace | char c | up | down | enter | edit | none => cases h
  · rw [handleEditorKey_shut state key hshut] at h
    cases h

theorem settled_commits (state : MenuState) (key : Key) (h : Settled v state)
    (hcommits : (handleEditorKey state key).2 = true) :
    (v state.editBuffer).level ≠ .error := by
  obtain ⟨-,hediting,hunlocked,hallows⟩ := commits_cases state key hcommits
  cases hlast : state.lastDiagnostic with
  | none => exact absurd hlast (h.judged hediting hunlocked)
  | some d =>
    rw [allows,hlast] at hallows
    rw [← h.synced.verdict d hlast]
    exact of_decide_eq_true hallows

theorem settled_stepGated (state : MenuState) (key : Key) (h : Settled v state) :
    StepGated v state key :=
  ⟨settled_commits v state key h,(settled_step v state key h.synced (.inl h)).synced.verdict⟩

theorem settled_gated (state : MenuState) (keys : List Key) (h : Settled v state) :
    Gated v state keys := by
  induction keys generalizing state with
  | nil => trivial
  | cons key keys ih =>
    exact ⟨settled_stepGated v state key h,ih _ (settled_step v state key h.synced (.inl h))⟩

theorem fresh_commits (state : MenuState) (hediting : state.editing = true)
    (hunlocked : state.editorLocked = false) (hfresh : state.lastDiagnostic = none) :
    (handleEditorKey state .f10).2 = true := by
  have hallows : allows state = true := by rw [allows,hfresh]
  rw [handleEditorKey_open state .f10 hediting hunlocked]
  simp only [hallows,if_true]

/-- The first key that a fresh editor acts on is gated unless it is `F10` on an error. -/
theorem fresh_stepGated (state : MenuState) (key : Key) (h : Synced v state)
    (hediting : state.editing = true) (hunlocked : state.editorLocked = false)
    (hfresh : state.lastDiagnostic = none) (hacts : acts key = true) :
    StepGated v state key ↔ (v state.editBuffer).level ≠ .error ∨ key ≠ .f10 := by
  have hverdict := (settled_step v state key h (.inr hacts)).synced.verdict
  constructor
  · intro hgated
    by_cases hkey : key = .f10
    · subst hkey
      exact .inl (hgated.commits (fresh_commits state hediting hunlocked hfresh))
    · exact .inr hkey
  · rintro (hlevel | hkey)
    · exact ⟨fun _ => hlevel,hverdict⟩
    · exact ⟨fun hcommits => absurd (commits_cases state key hcommits).1 hkey,hverdict⟩

theorem fresh_gated_iff (state : MenuState) (keys : List Key) (h : Synced v state)
    (hediting : state.editing = true) (hunlocked : state.editorLocked = false)
    (hfresh : state.lastDiagnostic = none) :
    Gated v state keys ↔
      (v state.editBuffer).level ≠ .error ∨ keys.find? acts ≠ some .f10 := by
  induction keys with
  | nil => simp [Gated]
  | cons key keys ih =>
    cases hacts : acts key with
    | false =>
      have hidle := handleEditorKey_idle state key hacts
      have hstep : StepGated v state key := by
        constructor
        · intro hcommits
          rw [hidle] at hcommits
          cases hcommits
        · rw [hidle]
          exact h.verdict
      rw [Gated,hidle,List.find?_cons_of_neg (by simp [hacts]),ih]
      exact and_iff_right hstep
    | true =>
      have hsettled := settled_step v state key h (.inr hacts)
      have hfirst : some key ≠ some .f10 ↔ key ≠ .f10 := not_congr (Option.some_inj)
      rw [Gated,fresh_stepGated v state key h hediting hunlocked hfresh hacts,
        List.find?_cons_of_pos hacts,hfirst]
      exact and_iff_left (settled_gated v _ keys hsettled)

/-- A freshly opened editor is gated over some keys exactly when its buffer is no error, or it
is locked, or the first key that it acts on is not `F10`. -/
theorem opened_gated_iff (state : MenuState) (keys : List Key)
    (hvalidator : state.validator = some v) (hediting : state.editing = true)
    (hfresh : state.lastDiagnostic = none) :
    Gated v state keys ↔ (v state.editBuffer).level ≠ .error ∨ state.editorLocked = true ∨
      keys.find? acts ≠ some .f10 := by
  have hsynced : Synced v state := ⟨hvalidator,fun d hd => by rw [hfresh] at hd; cases hd⟩
  cases hlocked : state.editorLocked with
  | true =>
    have hsettled : Settled v state := ⟨hsynced,fun _ hunlocked => by
      rw [hlocked] at hunlocked
      cases hunlocked⟩
    exact iff_of_true (settled_gated v state keys hsettled) (.inr (.inl rfl))
  | false =>
    rw [fresh_gated_iff v state keys hsynced hediting hlocked hfresh]
    simp

end Steps

/-- A validator that calls one buffer an error. -/
def stubValidator (buffer : Text) : EditorDiagnostic :=
  if buffer = "error".toList then ⟨.error,"contains 'error'".toList⟩
  else ⟨.ok,"looks fine".toList⟩

def openedOn (cmdline : Text) : MenuState :=
  { withValidator (MenuState.new 5) stubValidator with editing := true, editBuffer := cmdline }

/-- Once a character is typed, `F10` is refused on the error and taken after it is gone. -/
theorem opened_gated_typed :
    Gated stubValidator (openedOn "erro".toList) [.char 'r',.f10,.backspace,.f10] ∧
    (handleEditorKey (handleEditorKey (openedOn "erro".toList) (.char 'r')).1 .f10).2 = false := by
  refine ⟨(opened_gated_iff stubValidator (openedOn "erro".toList) _ rfl rfl rfl).mpr
    (.inr (.inr (by decide))),rfl⟩

/-- `F10` right after opening commits a buffer that the validator calls an error. -/
theorem opened_error_committed :
    (handleEditorKey (openedOn "error".toList) .f10).2 = true ∧
    (stubValidator (openedOn "error".toList).editBuffer).level = .error ∧
    ¬Gated stubValidator (openedOn "error".toList) [.f10] := by
  refine ⟨rfl,rfl,?_⟩
  rintro ⟨hstep,-⟩
  exact hstep.commits rfl rfl

end Zamak.EditorGate
