import Zamak.MenuTree

/-! # What the keys of the menu do

The keys of both loops by their role: three characters stand for the cursor keys and for the
key that opens the editor. For each loop one lemma says what a key can do to the selection,
to the editor and to the ticks. -/

set_option autoImplicit false

namespace Zamak.MenuKeys
open Zamak.ConfigParse Zamak.BootFlow Zamak.PolledRuns Zamak.MenuLoops

def movesDown : Key → Bool
  | .down | .char 'j' => true
  | _ => false

def edits : Key → Bool
  | .edit | .char 'i' => true
  | _ => false

def stops : Key → Bool
  | .up | .char 'k' => true
  | key => movesDown key || edits key

theorem edits_iff (key : Key) : edits key = true ↔ key = .edit ∨ key = .char 'i' := by
  constructor
  · intro h
    unfold edits at h
    split at h
    · exact .inl rfl
    · exact .inr rfl
    · cases h
  · rintro (rfl | rfl) <;> rfl

theorem text_roles (c : Char) (hk : c ≠ 'k') (hj : c ≠ 'j') (hi : c ≠ 'i') :
    movesDown (.char c) = false ∧ edits (.char c) = false ∧ stops (.char c) = false := by
  simp [stops,movesDown,edits,hk,hj,hi]

section Keys
variable (platform : Platform) (config : Config)

theorem selectUp_editBuffer (state : MenuState) :
    (selectUp state).editBuffer = state.editBuffer := by
  unfold selectUp
  split <;> rfl

theorem selectDown_editBuffer (state : MenuState) :
    (selectDown platform config state).editBuffer = state.editBuffer := by
  unfold selectDown
  split <;> rfl

/-- A key that stays in the menu: only a cursor key moves the selection, and with the editor
closed only the editor's key opens it or touches its buffer. -/
structure Stays (key : Key) (before after : MenuState) : Prop where
  moves : Moves platform config before after
  notDown : movesDown key = false → after.selectedIdx ≤ before.selectedIdx
  closed : edits key = false → before.editing = false →
    after.editing = false ∧ after.editBuffer = before.editBuffer

theorem stays_same (key : Key) (state : MenuState) : Stays platform config key state state :=
  ⟨.inr (.inr ⟨rfl,rfl⟩),fun _ => Nat.le_refl _,fun _ hclosed => ⟨hclosed,rfl⟩⟩

theorem stays_up (key : Key) (state : MenuState) :
    Stays platform config key state (selectUp state) := by
  refine ⟨.inl rfl,fun _ => ?_,fun _ hclosed => ?_⟩
  · rw [selectUp_idx]
    exact Nat.sub_le _ _
  · exact ⟨(selectUp_editing state).trans hclosed,selectUp_editBuffer state⟩

theorem stays_down (key : Key) (hkey : movesDown key = true) (state : MenuState) :
    Stays platform config key state (selectDown platform config state) := by
  refine ⟨.inr (.inl rfl),fun hnot => absurd hkey (by simp [hnot]),fun _ hclosed => ?_⟩
  exact ⟨(selectDown_editing platform config state).trans hclosed,
    selectDown_editBuffer platform config state⟩

theorem stays_edit (key : Key) (hkey : edits key = true) (before after : MenuState)
    (hidx : after.selectedIdx = before.selectedIdx) (hexp : after.expanded = before.expanded) :
    Stays platform config key before after :=
  ⟨.inr (.inr ⟨hidx,hexp⟩),fun _ => Nat.le_of_eq hidx,fun hnot => absurd hkey (by simp [hnot])⟩

theorem stays_close (key : Key) (state : MenuState) :
    Stays platform config key state { state with editing := false } :=
  ⟨.inr (.inr ⟨rfl,rfl⟩),fun _ => Nat.le_refl _,fun _ _ => ⟨rfl,rfl⟩⟩

theorem stays_push (key : Key) (state : MenuState) (c : Char) (h : state.editing = true) :
    Stays platform config key state (MenuState.push state c) :=
  ⟨.inr (.inr ⟨rfl,rfl⟩),fun _ => Nat.le_refl _,fun _ hclosed => absurd h (by simp [hclosed])⟩

def UefiKey (loop : Loop) (key : Key) : Prop :=
  (∃ state, uefiKey platform config loop key = .more { loop with state := state } ∧
    Stays platform config key loop.state state) ∨
  (key = .enter ∧ loop.state.editing = false ∧
    uefiKey platform config loop key = .done loop.state.selectedIdx) ∨
  (edits key = true ∧ loop.state.editing = false ∧
    config.entries[loop.state.selectedIdx]? = none ∧ uefiKey platform config loop key = .failed)

theorem uefiKey_edits (loop : Loop) (key : Key) (hkey : edits key = true)
    (heq : uefiKey platform config loop key = uefiKey platform config loop .edit) :
    UefiKey platform config loop key := by
  unfold UefiKey
  rw [heq]
  cases hediting : loop.state.editing with
  | true =>
    exact .inl ⟨{ loop.state with editing := false },by simp [uefiKey,hediting],
      stays_close platform config key loop.state⟩
  | false =>
    cases hentry : config.entries[loop.state.selectedIdx]? with
    | some entry =>
      exact .inl ⟨{ loop.state with editing := true, editBuffer := entry.fields.cmdline },
        by simp [uefiKey,hediting,hentry],stays_edit platform config key hkey _ _ rfl rfl⟩
    | none => exact .inr (.inr ⟨hkey,rfl,rfl,by simp [uefiKey,hediting,hentry]⟩)

theorem uefiKey_missing (loop : Loop) (key : Key) (hkey : edits key = true)
    (hclosed : loop.state.editing = false)
    (hentry : config.entries[loop.state.selectedIdx]? = none) :
    uefiKey platform config loop key = .failed := by
  have hedit : uefiKey platform config loop .edit = .failed := by
    simp [uefiKey,hclosed,hentry]
  rcases (edits_iff key).mp hkey with rfl | rfl
  · exact hedit
  · exact hedit

theorem uefiKey_roles (loop : Loop) (key : Key) : UefiKey platform config loop key := by
  induction key using key_cases with
  | up => exact .inl ⟨_,rfl,stays_up platform config .up loop.state⟩
  | down => exact .inl ⟨_,rfl,stays_down platform config .down rfl loop.state⟩
  | edit => exact uefiKey_edits platform config loop .edit rfl rfl
  | enter =>
    cases hediting : loop.state.editing with
    | true =>
      exact .inl ⟨_,by simp only [uefiKey,hediting,if_true],
        stays_close platform config .enter loop.state⟩
    | false => exact .inr (.inl ⟨rfl,hediting,by simp [uefiKey,hediting]⟩)
  | esc => exact .inl ⟨_,rfl,stays_close platform config .esc loop.state⟩
  | f10 => exact .inl ⟨_,rfl,stays_same platform config .f10 loop.state⟩
  | backspace => exact .inl ⟨_,rfl,stays_same platform config .backspace loop.state⟩
  | none => exact .inl ⟨_,rfl,stays_same platform config .none loop.state⟩
  | k _ => exact .inl ⟨_,rfl,stays_up platform config (.char 'k') loop.state⟩
  | j _ => exact .inl ⟨_,rfl,stays_down platform config (.char 'j') rfl loop.state⟩
  | i _ => exact uefiKey_edits platform config loop (.char 'i') rfl rfl
  | text c hk hj hi =>
    cases hediting : loop.state.editing with
    | true =>
      exact .inl ⟨MenuState.push loop.state c,by simp [uefiKey,hediting],
        stays_push platform config (.char c) loop.state c hediting⟩
    | false =>
      exact .inl ⟨loop.state,by simp [uefiKey,hediting],
        stays_same platform config (.char c) loop.state⟩

def BiosKey (loop : Loop) (key : Key) : Prop :=
  (∃ state, biosKey platform config loop key =
      .more ⟨if stops key then 0 else loop.timeRemaining,state⟩ ∧
    Stays platform config key loop.state state) ∨
  (key = .enter ∧ loop.state.editing = false ∧
    biosKey platform config loop key = .done loop.state.selectedIdx)

theorem biosKey_edits (loop : Loop) (key : Key) (hkey : edits key = true)
    (hstops : stops key = true)
    (heq : biosKey platform config loop key = biosKey platform config loop .edit) :
    BiosKey platform config loop key := by
  unfold BiosKey
  rw [heq,hstops]
  cases hediting : loop.state.editing with
  | true =>
    exact .inl ⟨{ loop.state with editing := false },by simp [biosKey,hediting],
      stays_close platform config key loop.state⟩
  | false =>
    cases hentry : config.entries[loop.state.selectedIdx]? with
    | some entry =>
      exact .inl ⟨{ loop.state with editing := true, editBuffer := entry.fields.cmdline },
        by simp [biosKey,hediting,hentry],stays_edit platform config key hkey _ _ rfl rfl⟩
    | none =>
      exact .inl ⟨{ loop.state with editing := true },by simp [biosKey,hediting,hentry],
        stays_edit platform config key hkey _ _ rfl rfl⟩

theorem biosKey_roles (loop : Loop) (key : Key) : BiosKey platform config loop key := by
  induction key using key_cases with
  | up => exact .inl ⟨_,rfl,stays_up platform config .up loop.state⟩
  | down => exact .inl ⟨_,rfl,stays_down platform config .down rfl loop.state⟩
  | edit => exact biosKey_edits platform config loop .edit rfl rfl rfl
  | enter =>
    cases hediting : loop.state.editing with
    | true =>
      exact .inl ⟨{ loop.state with editing := false },
        by simp [biosKey,hediting,stops,movesDown,edits],stays_close platform config .enter loop.state⟩
    | false => exact .inr ⟨rfl,hediting,by simp [biosKey,hediting]⟩
  | esc => exact .inl ⟨_,rfl,stays_close platform config .esc loop.state⟩
  | f10 => exact .inl ⟨_,rfl,stays_same platform config .f10 loop.state⟩
  | backspace => exact .inl ⟨_,rfl,stays_same platform config .backspace loop.state⟩
  | none => exact .inl ⟨_,rfl,stays_same platform config .none loop.state⟩
  | k _ => exact .inl ⟨_,rfl,stays_up platform config (.char 'k') loop.state⟩
  | j _ => exact .inl ⟨_,rfl,stays_down platform config (.char 'j') rfl loop.state⟩
  | i _ => exact biosKey_edits platform config loop (.char 'i') rfl rfl rfl
  | text c hk hj hi =>
    have hstops := (text_roles c hk hj hi).2.2
    cases hediting : loop.state.editing with
    | true =>
      by_cases hn : c = '\n'
      · refine .inl ⟨loop.state,?_,stays_same platform config (.char c) loop.state⟩
        rw [hstops]
        simp [biosKey,hediting,hn]
      · exact .inl ⟨MenuState.push loop.state c,by simp [biosKey,hediting,hn,hstops],
          stays_push platform config (.char c) loop.state c hediting⟩
    | false =>
      exact .inl ⟨loop.state,by simp [biosKey,hediting,hstops],
        stays_same platform config (.char c) loop.state⟩

end Keys

end Zamak.MenuKeys
