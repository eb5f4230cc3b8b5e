import Zamak.MenuLoops

/-! # The two menu loops side by side

As long as idle polls are read only while ticks remain, and keys that neither loop
binds only when none remain, the BIOS loop and the UEFI loop keep in step: the same
ticks, the same selection, the editor open in both or in neither. Past such a poll
some keys tell them apart. -/

set_option autoImplicit false

namespace Zamak.MenuAgree
open Zamak.ConfigParse Zamak.BootFlow Zamak.PolledRuns Zamak.MenuLoops

def Stray : Key → Prop
  | .esc | .f10 | .backspace => True
  | .char c => c ≠ 'k' ∧ c ≠ 'j' ∧ c ≠ 'i'
  | _ => False

/-- An idle poll finds ticks left, and a stray key finds none. -/
def Agreeable (loop : Loop) (key : Key) : Prop :=
  (key = .none → 0 < loop.timeRemaining) ∧ (Stray key → loop.timeRemaining = 0)

/-- The loops in step, over a configuration: their ticks, selection and editor. -/
structure InStep (config : Config) (u b : Loop) : Prop where
  time : u.timeRemaining = b.timeRemaining
  selected : u.state.selectedIdx = b.state.selectedIdx
  editing : u.state.editing = b.state.editing
  inRange : u.state.selectedIdx < config.entries.length
  closed : 0 < u.timeRemaining → u.state.editing = false

section Select
variable (uefi bios : Platform) (config : Config)

theorem inStep_up (u b : Loop) (h : InStep config u b) :
    InStep config ⟨0,selectUp u.state⟩ ⟨0,selectUp b.state⟩ where
  time := rfl
  selected := by simp only [selectUp_idx,h.selected]
  editing := by simp only [selectUp_editing,h.editing]
  inRange := by
    have := h.inRange
    simp only [selectUp_idx]
    omega
  closed := fun ht => absurd ht (Nat.lt_irrefl 0)

theorem inStep_down (u b : Loop) (h : InStep config u b) (he : config.entries ≠ []) :
    InStep config ⟨0,selectDown uefi config u.state⟩ ⟨0,selectDown bios config b.state⟩ where
  time := rfl
  selected := by simp only [selectDown_idx _ _ _ he,h.selected]
  editing := by simp only [selectDown_editing,h.editing]
  inRange := by
    have := h.inRange
    simp only [selectDown_idx _ _ _ he]
    split <;> omega
  closed := fun ht => absurd ht (Nat.lt_irrefl 0)

/-- With the ticks stopped, a state that keeps its selection and an editor in the same
position are all that matters. -/
theorem inStep_stopped (u b : Loop) (h : InStep config u b) (v w : MenuState)
    (hv : v.selectedIdx = u.state.selectedIdx) (hw : w.selectedIdx = b.state.selectedIdx)
    (hediting : v.editing = w.editing) : InStep config ⟨0,v⟩ ⟨0,w⟩ where
  time := rfl
  selected := (hv.trans h.selected).trans hw.symm
  editing := hediting
  inRange := hv.symm ▸ h.inRange
  closed := fun ht => absurd ht (Nat.lt_irrefl 0)

end Select

section Step
variable (uefi bios : Platform) (config : Config)

theorem edit_matched (u b : Loop) (h : InStep config u b) :
    Matched (InStep config) (uefiPoll uefi config u .edit) (biosPoll bios config b .edit) := by
  have hb := h.editing
  have hentry : config.entries[u.state.selectedIdx]? =
    some (config.entries.get ⟨u.state.selectedIdx,h.inRange⟩) := List.getElem?_eq_getElem h.inRange
  cases hu : u.state.editing with
  | true =>
    rw [hu] at hb
    simp only [uefiPoll,uefiKey,biosPoll,biosKey,hu,← hb,reduceCtorEq,if_true,if_false]
    exact inStep_stopped config u b h _ _ rfl rfl rfl
  | false =>
    rw [hu] at hb
    simp only [uefiPoll,uefiKey,biosPoll,biosKey,hu,← hb,← h.selected,hentry,reduceCtorEq,
      Bool.false_eq_true,if_false]
    exact inStep_stopped config u b h _ _ rfl h.selected rfl

theorem InStep.stopped (u b : Loop) (h : InStep config u b) (hu : u.state.editing = true) :
    u.timeRemaining = 0 := by
  by_contra hne
  have hclosed := h.closed (Nat.pos_of_ne_zero hne)
  rw [hu] at hclosed
  cases hclosed

theorem enter_matched (u b : Loop) (h : InStep config u b) :
    Matched (InStep config) (uefiPoll uefi config u .enter) (biosPoll bios config b .enter) := by
  have hb := h.editing
  cases hu : u.state.editing with
  | true =>
    rw [hu] at hb
    have hzero : b.timeRemaining = 0 := h.time ▸ h.stopped config u b hu
    simp only [uefiPoll,uefiKey,biosPoll,biosKey,biosTick,hu,← hb,hzero,reduceCtorEq,if_true,
      if_false,Nat.lt_irrefl]
    exact inStep_stopped config u b h _ _ rfl rfl rfl
  | false =>
    rw [hu] at hb
    simp only [uefiPoll,uefiKey,biosPoll,biosKey,hu,← hb,reduceCtorEq,Bool.false_eq_true,if_false]
    exact h.selected

theorem none_matched (u b : Loop) (h : InStep config u b) (ht : 0 < u.timeRemaining) :
    Matched (InStep config) (uefiPoll uefi config u .none) (biosPoll bios config b .none) := by
  rw [uefiPoll_none]
  simp only [biosPoll,biosKey,biosTick,← h.time,if_pos ht]
  split
  · rfl
  · exact ⟨rfl,h.selected,h.editing,h.inRange,fun _ => h.closed ht⟩

/-- A stray key keeps the selection, and the editor unless it is `Esc`. -/
structure Kept (key : Key) (before after : MenuState) : Prop where
  selected : after.selectedIdx = before.selectedIdx
  editing : after.editing = if key = .esc then false else before.editing

theorem uefi_stray (u : Loop) (key : Key) (h : Stray key) :
    ∃ state, uefiPoll uefi config u key = .more ⟨0,state⟩ ∧ Kept key u.state state := by
  cases key with
  | esc => exact ⟨_,rfl,rfl,rfl⟩
  | f10 => exact ⟨_,rfl,rfl,rfl⟩
  | backspace => exact ⟨_,rfl,rfl,rfl⟩
  | char c =>
    have ⟨hk,hj,hi⟩ := h
    cases hu : u.state.editing with
    | true =>
      refine ⟨MenuState.push u.state c,?_,rfl,rfl⟩
      simp [uefiPoll,uefiKey,hu]
    | false =>
      refine ⟨u.state,?_,rfl,rfl⟩
      simp [uefiPoll,uefiKey,hu]
  | up => exact h.elim
  | down => exact h.elim
  | enter => exact h.elim
  | edit => exact h.elim
  | none => exact h.elim

theorem bios_stray (b : Loop) (key : Key) (h : Stray key) :
    ∃ state, biosPoll bios config b key = biosTick ⟨b.timeRemaining,state⟩ ∧
      Kept key b.state state := by
  cases key with
  | esc => exact ⟨_,rfl,rfl,rfl⟩
  | f10 => exact ⟨_,rfl,rfl,rfl⟩
  | backspace => exact ⟨_,rfl,rfl,rfl⟩
  | char c =>
    have ⟨hk,hj,hi⟩ := h
    cases hb : b.state.editing with
    | true =>
      by_cases hn : c = '\n'
      · refine ⟨b.state,?_,rfl,rfl⟩
        simp [biosPoll,biosKey,hb,hn]
      · refine ⟨MenuState.push b.state c,?_,rfl,rfl⟩
        simp [biosPoll,biosKey,hb,hn]
    | false =>
      refine ⟨b.state,?_,rfl,rfl⟩
      simp [biosPoll,biosKey,hb]
  | up => exact h.elim
  | down => exact h.elim
  | enter => exact h.elim
  | edit => exact h.elim
  | none => exact h.elim

theorem stray_matched (u b : Loop) (h : InStep config u b) (key : Key) (hs : Stray key)
    (ht : u.timeRemaining = 0) :
    Matched (InStep config) (uefiPoll uefi config u key) (biosPoll bios config b key) := by
  obtain ⟨v,hv,hkept⟩ := uefi_stray uefi config u key hs
  obtain ⟨w,hw,hkept'⟩ := bios_stray bios config b key hs
  have hb : b.timeRemaining = 0 := h.time ▸ ht
  rw [hv,hw,hb]
  apply inStep_stopped config u b h v w hkept.selected hkept'.selected
  rw [hkept.editing,hkept'.editing,h.editing]

theorem poll_matched (he : config.entries ≠ []) (u b : Loop) (key : Key)
    (h : InStep config u b) (hg : Agreeable u key) :
    Matched (InStep config) (uefiPoll uefi config u key) (biosPoll bios config b key) := by
  induction key using key_cases with
  | up => exact inStep_up config u b h
  | down => exact inStep_down uefi bios config u b h he
  | enter => exact enter_matched uefi bios config u b h
  | edit => exact edit_matched uefi bios config u b h
  | none => exact none_matched uefi bios config u b h (hg.1 rfl)
  | esc => exact stray_matched uefi bios config u b h .esc trivial (hg.2 trivial)
  | f10 => exact stray_matched uefi bios config u b h .f10 trivial (hg.2 trivial)
  | backspace => exact stray_matched uefi bios config u b h .backspace trivial (hg.2 trivial)
  | k _ => exact inStep_up config u b h
  | j _ => exact inStep_down uefi bios config u b h he
  | i _ => exact edit_matched uefi bios config u b h
  | text c hk hj hi =>
    exact stray_matched uefi bios config u b h (.char c) ⟨hk,hj,hi⟩ (hg.2 ⟨hk,hj,hi⟩)

theorem start_inStep (he : config.entries ≠ []) :
    InStep config (startLoop config) (startLoop config) where
  time := rfl
  selected := rfl
  editing := rfl
  inRange := by
    rw [show (startLoop config).state.selectedIdx = 0 from startState_idx config]
    exact List.length_pos_iff.mpr he
  closed := fun _ => startState_editing config

theorem uefi_escapes (n : ℕ) (u : Loop) :
    exits (uefiPoll uefi config) u (List.replicate n .esc) = none := by
  induction n generalizing u with
  | zero => rfl
  | succ n ih =>
    rw [List.replicate_succ,exits_cons (uefiPoll uefi config) u _ Key.esc _ rfl,ih]
    rfl

theorem bios_escapes (n : ℕ) (b : Loop) (h : b.timeRemaining = n+1) :
    exits (biosPoll bios config) b (List.replicate (n+1) .esc) ≠ none := by
  induction n generalizing b with
  | zero =>
    simp [exits,biosPoll,biosKey,biosTick,h]
  | succ n ih =>
    have hstep : biosPoll bios config b .esc =
        .more ⟨n+1,{ b.state with editing := false }⟩ := by
      simp [biosPoll,biosKey,biosTick,h]
    rw [List.replicate_succ,exits_cons _ b _ Key.esc _ hstep]
    intro hnone
    exact ih _ rfl (by simpa using hnone)

/-- A poll that is not agreeable can be followed by keys that tell the loops apart. -/
theorem disagreeable_parts (u b : Loop) (h : InStep config u b) (key : Key)
    (hg : ¬Agreeable u key) :
    ∃ more, exits (uefiPoll uefi config) u (key::more) ≠
      exits (biosPoll bios config) b (key::more) := by
  by_cases hkey : key = .none
  · have hzero : u.timeRemaining = 0 := by
      by_contra hne
      apply hg
      refine ⟨fun _ => Nat.pos_of_ne_zero hne,?_⟩
      intro hs
      rw [hkey] at hs
      exact hs.elim
    have hb : b.timeRemaining = 0 := h.time ▸ hzero
    refine ⟨[],?_⟩
    simp [exits,uefiPoll,biosPoll,biosKey,biosTick,hkey,hzero,hb]
  · obtain ⟨hs,hpos⟩ : Stray key ∧ u.timeRemaining ≠ 0 := by
      by_contra hnot
      exact hg ⟨fun hnone => absurd hnone hkey,fun hs => by_contra fun hne => hnot ⟨hs,hne⟩⟩
    obtain ⟨v,hv,-⟩ := uefi_stray uefi config u key hs
    obtain ⟨w,hw,-⟩ := bios_stray bios config b key hs
    obtain ⟨n,hn⟩ := Nat.exists_eq_succ_of_ne_zero (h.time ▸ hpos)
    refine ⟨List.replicate n .esc,?_⟩
    rw [exits_cons _ u _ key _ hv,uefi_escapes]
    apply Ne.symm
    cases n with
    | zero => simp [exits,hw,biosTick,hn]
    | succ n =>
      have hstep : biosPoll bios config b key = .more ⟨n+1,w⟩ := by
        rw [hw]
        simp [biosTick,hn]
      rw [exits_cons _ b _ key _ hstep]
      intro hnone
      exact bios_escapes bios config n _ rfl (by simpa using hnone)

/-- Over a run of agreeable polls the loops leave the menu after the same poll with the
same entry, or stay in it; and no weaker condition on the next poll keeps that for
everything that may follow it. -/
theorem loops_agree (he : config.entries ≠ []) (keys : List Key)
    (ha : Along (uefiPoll uefi config) Agreeable (startLoop config) keys) :
    exits (uefiPoll uefi config) (startLoop config) keys =
      exits (biosPoll bios config) (startLoop config) keys ∧
    ∀ loop key, run (uefiPoll uefi config) (startLoop config) keys = .more loop →
      ¬Agreeable loop key →
      ∃ more, exits (uefiPoll uefi config) (startLoop config) (keys++key::more) ≠
        exits (biosPoll bios config) (startLoop config) (keys++key::more) := by
  have hstep := fun u b key => poll_matched uefi bios config he u b key
  have hstart := start_inStep config he
  refine ⟨exits_eq _ _ Agreeable (InStep config) hstep _ _ keys hstart ha,?_⟩
  intro loop key hrun hg
  obtain ⟨b,hbios,hrel⟩ := run_related _ _ Agreeable (InStep config) hstep _ loop _ keys hstart ha hrun
  obtain ⟨more,hne⟩ := disagreeable_parts uefi bios config loop b hrel key hg
  refine ⟨more,?_⟩
  rw [exits_append _ _ loop keys _ hrun,exits_append _ _ b keys _ hbios]
  intro heq
  apply hne
  apply Option.map_injective _ heq
  intro a c hac
  have ⟨h1,h2⟩ := Prod.mk.inj hac
  exact Prod.ext (Nat.add_right_cancel h1) h2

end Step

/-- Both loops count one tick, move to `B` and boot it. -/
theorem loops_agree_down :
    exits (uefiPoll asciiPlatform twoEntries) (startLoop twoEntries) [.none,.down,.enter] =
      some (3,1) ∧
    exits (biosPoll asciiPlatform twoEntries) (startLoop twoEntries) [.none,.down,.enter] =
      some (3,1) := by
  have ha : Along (uefiPoll asciiPlatform twoEntries) Agreeable (startLoop twoEntries)
      [.none,.down,.enter] := by
    have hticks : 0 < (startLoop twoEntries).timeRemaining := by decide
    simp [Along,Agreeable,Stray,hticks]
  have hu : exits (uefiPoll asciiPlatform twoEntries) (startLoop twoEntries)
      [.none,.down,.enter] = some (3,1) := by decide
  exact ⟨hu,(loops_agree asciiPlatform asciiPlatform twoEntries (by decide) _ ha).1 ▸ hu⟩

/-- After a key, an idle poll ends the UEFI loop and not the BIOS loop. -/
theorem down_parts_loops :
    exits (uefiPoll asciiPlatform twoEntries) (startLoop twoEntries) [.down,.none] ≠
      exits (biosPoll asciiPlatform twoEntries) (startLoop twoEntries) [.down,.none] := by
  decide

end Zamak.MenuAgree
