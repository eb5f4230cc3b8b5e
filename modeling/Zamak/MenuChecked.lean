import Zamak.Fat32Image
import Zamak.MenuKeys
import Zamak.PieLoading

/-! # The menu with its arithmetic checked

The two loops as a build with overflow checks runs them: a product that leaves a `u64`, a
subtraction below zero and an index past the end stop the loader. The loops draw before each
poll. Of what they draw only the footer with its progress bar is checked here: the title bar,
the lock line and the overlay of the editor subtract from the canvas as well, and are left
out. A menu runs through exactly when the canvas and the timeout fit the progress bar and no
key needs an entry that is not there. -/

set_option autoImplicit false

namespace Zamak.MenuChecked
open Zamak.ConfigText Zamak.ConfigParse Zamak.BootFlow Zamak.PolledRuns Zamak.MenuLoops
open Zamak.MenuTree Zamak.MenuKeys
open Zamak.Fat32Image (checkedMul checkedAdd)
open Zamak.PieLoading (checkedSub)

structure Canvas where
  width : ℕ
  height : ℕ

/-- What `draw_menu` computes for the footer: its row, and where a countdown is drawn, the
column of the progress bar and how far it is filled. -/
def drawFooter (canvas : Canvas) (config : Config) (timeRemaining : ℕ) :
    Option (ℕ × Option (ℕ × ℕ)) := do
  let footerY ← checkedSub canvas.height 20
  if 0 < timeRemaining then
    let ticks ← checkedMul 64 config.timeout 10
    let denom := max ticks 1
    let scaled ← checkedMul 64 timeRemaining 200
    let progress := scaled/denom
    let barX ← checkedSub canvas.width 220
    some (footerY,some (barX,progress))
  else some (footerY,none)

def drawn (canvas : Canvas) (config : Config) (loop : Loop) : Poll :=
  if (drawFooter canvas config loop.timeRemaining).isSome then .more loop else .failed

/-- The loops up to their first poll. `MenuState::new` and `time_remaining` take the same
product. -/
def start (canvas : Canvas) (config : Config) : Poll :=
  if (checkedMul 64 config.timeout 10).isSome then drawn canvas config (startLoop config)
  else .failed

def selectUpChecked (state : MenuState) : Option MenuState :=
  if 0 < state.selectedIdx then
    (checkedSub state.selectedIdx 1).map fun idx => { state with selectedIdx := idx }
  else some state

def selectDownChecked (platform : Platform) (config : Config) (state : MenuState) :
    Option MenuState := do
  let last ← checkedSub config.entries.length 1
  if state.selectedIdx < last then
    (checkedAdd platform.usizeBits state.selectedIdx 1).map fun idx =>
      { state with selectedIdx := idx }
  else some state

def moved (timeRemaining : ℕ) : Option MenuState → Poll
  | some state => .more { timeRemaining := timeRemaining, state := state }
  | none => .failed

/-- The `match key` of the UEFI loop; only the cursor keys compute. -/
def uefiKeyChecked (platform : Platform) (config : Config) (loop : Loop) : Key → Poll
  | .up | .char 'k' => moved loop.timeRemaining (selectUpChecked loop.state)
  | .down | .char 'j' => moved loop.timeRemaining (selectDownChecked platform config loop.state)
  | key => uefiKey platform config loop key

def uefiTurn (canvas : Canvas) (platform : Platform) (config : Config) (loop : Loop)
    (key : Key) : Poll :=
  if key = .none ∧ loop.timeRemaining-1 = 0 then .done 0
  else
    let time := if key = .none then loop.timeRemaining-1 else 0
    match uefiKeyChecked platform config { loop with timeRemaining := time } key with
    | .more loop => drawn canvas config loop
    | .done selectedIdx => .done selectedIdx
    | .failed => .failed

def biosKeyChecked (platform : Platform) (config : Config) (loop : Loop) : Key → Poll
  | .up | .char 'k' => moved 0 (selectUpChecked loop.state)
  | .down | .char 'j' => moved 0 (selectDownChecked platform config loop.state)
  | key => biosKey platform config loop key

/-- A turn of the BIOS loop; behind the loop the entry is taken by its index. -/
def biosTurn (canvas : Canvas) (platform : Platform) (config : Config) (loop : Loop)
    (key : Key) : Poll :=
  match biosKeyChecked platform config loop key with
  | .more loop =>
    match biosTick loop with
    | .more loop => drawn canvas config loop
    | .done selectedIdx => if selectedIdx < config.entries.length then .done selectedIdx else .failed
    | .failed => .failed
  | .done selectedIdx => if selectedIdx < config.entries.length then .done selectedIdx else .failed
  | .failed => .failed

def menu (turn : Loop → Key → Poll) (start : Poll) (keys : List Key) : Poll :=
  match start with
  | .more loop => run turn loop keys
  | outcome => outcome

section Selection
variable (platform : Platform) (config : Config)

theorem selectUpChecked_eq (state : MenuState) : selectUpChecked state = some (selectUp state) := by
  unfold selectUpChecked selectUp
  split
  · next hpos =>
    have hsub : checkedSub state.selectedIdx 1 = some (state.selectedIdx-1) := if_pos hpos
    rw [hsub,Option.map_some]
  · rfl

theorem selectDownChecked_eq (state : MenuState)
    (hlen : config.entries.length < 2^platform.usizeBits) (h : config.entries ≠ []) :
    selectDownChecked platform config state = some (selectDown platform config state) := by
  have hpos := List.length_pos_iff.mpr h
  have hsub : checkedSub config.entries.length 1 = some (config.entries.length-1) := if_pos hpos
  unfold selectDownChecked selectDown
  rw [lastIdx_eq platform config h,hsub,Option.bind_eq_bind,Option.bind_some]
  split
  · rw [checkedAdd,if_pos (by omega),Option.map_some]
  · rfl

theorem selectDownChecked_none (state : MenuState) (h : config.entries = []) :
    selectDownChecked platform config state = none := by
  unfold selectDownChecked
  rw [h]
  rfl

/-- The subtraction in `entries.len() - 1` is all that a key of either loop can get wrong. -/
theorem moved_down (hlen : config.entries.length < 2^platform.usizeBits) (time : ℕ)
    (state : MenuState) :
    moved time (selectDownChecked platform config state) =
      if config.entries = [] then .failed
      else .more { timeRemaining := time, state := selectDown platform config state } := by
  split
  · next he => rw [selectDownChecked_none platform config state he,moved]
  · next he => rw [selectDownChecked_eq platform config state hlen he,moved]

theorem moved_up (time : ℕ) (state : MenuState) :
    moved time (selectUpChecked state) =
      .more { timeRemaining := time, state := selectUp state } := by
  rw [selectUpChecked_eq,moved]

theorem uefiKeyChecked_eq (hlen : config.entries.length < 2^platform.usizeBits) (loop : Loop)
    (key : Key) :
    uefiKeyChecked platform config loop key =
      if config.entries = [] ∧ movesDown key = true then .failed
      else uefiKey platform config loop key := by
  induction key using key_cases with
  | up => exact (moved_up _ _).trans (if_neg (by simp [movesDown])).symm
  | k _ => exact (moved_up _ _).trans (if_neg (by simp [movesDown])).symm
  | down =>
    simp only [movesDown,and_true]
    exact moved_down platform config hlen _ _
  | j _ =>
    simp only [movesDown,and_true]
    exact moved_down platform config hlen _ _
  | text c hk hj hi => simp [uefiKeyChecked,(text_roles c hk hj hi).1,hk,hj]
  | edit => simp [uefiKeyChecked,movesDown]
  | enter => simp [uefiKeyChecked,movesDown]
  | esc => simp [uefiKeyChecked,movesDown]
  | f10 => simp [uefiKeyChecked,movesDown]
  | backspace => simp [uefiKeyChecked,movesDown]
  | none => simp [uefiKeyChecked,movesDown]
  | i _ => simp [uefiKeyChecked,movesDown]

theorem biosKeyChecked_eq (hlen : config.entries.length < 2^platform.usizeBits) (loop : Loop)
    (key : Key) :
    biosKeyChecked platform config loop key =
      if config.entries = [] ∧ movesDown key = true then .failed
      else biosKey platform config loop key := by
  induction key using key_cases with
  | up => exact (moved_up _ _).trans (if_neg (by simp [movesDown])).symm
  | k _ => exact (moved_up _ _).trans (if_neg (by simp [movesDown])).symm
  | down =>
    simp only [movesDown,and_true]
    exact moved_down platform config hlen _ _
  | j _ =>
    simp only [movesDown,and_true]
    exact moved_down platform config hlen _ _
  | text c hk hj hi => simp [biosKeyChecked,(text_roles c hk hj hi).1,hk,hj]
  | edit => simp [biosKeyChecked,movesDown]
  | enter => simp [biosKeyChecked,movesDown]
  | esc => simp [biosKeyChecked,movesDown]
  | f10 => simp [biosKeyChecked,movesDown]
  | backspace => simp [biosKeyChecked,movesDown]
  | none => simp [biosKeyChecked,movesDown]
  | i _ => simp [biosKeyChecked,movesDown]

end Selection

section Drawing
variable (canvas : Canvas) (config : Config)

/-- The footer fits the canvas, and the bar of a countdown fits it and the `u64`. -/
structure Fits : Prop where
  height : 20 ≤ canvas.height
  bar : 0 < config.timeout → 220 ≤ canvas.width ∧ config.timeout*2000 < 2^64

theorem drawn_fits (h : Fits canvas config) (loop : Loop)
    (htime : loop.timeRemaining ≤ config.timeout*10) : drawn canvas config loop = .more loop := by
  have hfooter : checkedSub canvas.height 20 = some (canvas.height-20) := if_pos h.height
  apply if_pos
  unfold drawFooter
  rw [hfooter,Option.bind_eq_bind,Option.bind_some]
  split
  · have hbar := h.bar (by omega)
    have hticks : checkedMul 64 config.timeout 10 = some (config.timeout*10) :=
      if_pos (by omega)
    have hscaled : checkedMul 64 loop.timeRemaining 200 = some (loop.timeRemaining*200) :=
      if_pos (by omega)
    have hcolumn : checkedSub canvas.width 220 = some (canvas.width-220) := if_pos hbar.1
    simp only [hticks,hscaled,hcolumn,Option.bind_some,Option.isSome_some]
  · rfl

theorem start_fits (h : Fits canvas config) :
    start canvas config = .more (startLoop config) := by
  have hless : config.timeout*10 < 2^64 := by
    by_cases hpos : 0 < config.timeout
    · have := (h.bar hpos).2
      omega
    · rw [Nat.eq_zero_of_not_pos hpos]
      decide
  have hticks : checkedMul 64 config.timeout 10 = some (config.timeout*10) := if_pos hless
  have hmod : (startLoop config).timeRemaining ≤ config.timeout*10 := Nat.mod_le _ _
  rw [start,hticks,Option.isSome_some,if_pos rfl]
  exact drawn_fits canvas config h _ hmod

theorem fits_of_drawFooter (hticks : config.timeout*10 < 2^64)
    (h : (drawFooter canvas config (config.timeout*10)).isSome = true) : Fits canvas config := by
  unfold drawFooter at h
  by_cases hheight : 20 ≤ canvas.height
  · refine ⟨hheight,fun hpos => ?_⟩
    have hfooter : checkedSub canvas.height 20 = some (canvas.height-20) := if_pos hheight
    have hmul : checkedMul 64 config.timeout 10 = some (config.timeout*10) := if_pos hticks
    rw [hfooter,Option.bind_eq_bind,Option.bind_some,if_pos (by omega),hmul] at h
    by_cases hscaled : config.timeout*10*200 < 2^64
    · have hscale : checkedMul 64 (config.timeout*10) 200 = some (config.timeout*10*200) :=
        if_pos hscaled
      rw [hscale] at h
      by_cases hwidth : 220 ≤ canvas.width
      · exact ⟨hwidth,by omega⟩
      · have hcolumn : checkedSub canvas.width 220 = none := if_neg hwidth
        simp [hcolumn] at h
    · have hscale : checkedMul 64 (config.timeout*10) 200 = none := if_neg hscaled
      simp [hscale] at h
  · have hfooter : checkedSub canvas.height 20 = none := if_neg hheight
    simp [hfooter] at h

theorem start_unfit (h : ¬Fits canvas config) : start canvas config = .failed := by
  unfold start drawn
  split
  · next hmul =>
    have hticks : config.timeout*10 < 2^64 := by
      by_contra hlarge
      rw [checkedMul,if_neg hlarge] at hmul
      cases hmul
    have htime : (startLoop config).timeRemaining = config.timeout*10 := Nat.mod_eq_of_lt hticks
    apply if_neg
    rw [htime]
    exact fun hdraw => h (fits_of_drawFooter canvas config hticks hdraw)
  · rfl

end Drawing

section Turns
variable (canvas : Canvas) (platform : Platform) (config : Config)

/-- A selection among the entries, or the first one where there are none. -/
def InRange (idx : ℕ) : Prop := idx < max 1 config.entries.length

/-- Nothing has overflowed, underflowed or been indexed out of range, and the selection is
among the entries. -/
def Sound : Poll → Prop
  | .more loop => InRange config loop.state.selectedIdx
  | .done selectedIdx => InRange config selectedIdx
  | .failed => False

theorem stays_inRange (key : Key) (before after : MenuState)
    (h : Stays platform config key before after) (hidx : InRange config before.selectedIdx)
    (hkey : config.entries = [] → movesDown key = false) : InRange config after.selectedIdx := by
  unfold InRange at hidx ⊢
  by_cases he : config.entries = []
  · have hle := h.notDown (hkey he)
    omega
  · have hpos := List.length_pos_iff.mpr he
    have hbefore : before.selectedIdx < config.entries.length := by omega
    have hselects := selects_moves platform config before.expanded ⟨0,before⟩ 0 after
      ⟨rfl,fun _ => hbefore⟩ h.moves
    have hless := hselects.inRange he
    simp only at hless
    omega

/-- With no entries, the UEFI loop must not be asked to move down or to edit. -/
def UefiSafe (_loop : Loop) (key : Key) : Prop :=
  config.entries = [] → movesDown key = false ∧ edits key = false

/-- A key on which the BIOS loop is left: `Enter` with the editor closed, or any key that
does not stop the countdown at its last tick. -/
def BiosLeaves (loop : Loop) (key : Key) : Prop :=
  (key = .enter ∧ loop.state.editing = false) ∨ (stops key = false ∧ loop.timeRemaining = 1)

/-- With no entries, the BIOS loop must not be asked to move down, and must not be left. -/
def BiosSafe (loop : Loop) (key : Key) : Prop :=
  config.entries = [] → movesDown key = false ∧ ¬BiosLeaves loop key

/-- The ticks never pass the countdown, and without entries the editor stays closed. -/
structure UefiReached (loop : Loop) : Prop where
  ticks : loop.timeRemaining ≤ config.timeout*10
  closed : config.entries = [] → loop.state.editing = false

theorem uefiTurn_cases (hlen : config.entries.length < 2^platform.usizeBits) (loop : Loop)
    (key : Key) :
    (∃ selectedIdx, uefiTurn canvas platform config loop key = .done selectedIdx ∧
      (selectedIdx = 0 ∨ selectedIdx = loop.state.selectedIdx) ∧
      movesDown key = false ∧ edits key = false) ∨
    (config.entries = [] ∧ movesDown key = true ∧
      uefiTurn canvas platform config loop key = .failed) ∨
    (edits key = true ∧ loop.state.editing = false ∧
      config.entries[loop.state.selectedIdx]? = none ∧
      uefiTurn canvas platform config loop key = .failed) ∨
    ∃ time state, time ≤ loop.timeRemaining ∧ Stays platform config key loop.state state ∧
      (config.entries = [] → movesDown key = false) ∧
      uefiTurn canvas platform config loop key = drawn canvas config ⟨time,state⟩ := by
  unfold uefiTurn
  split
  · next hidle =>
    exact .inl ⟨0,rfl,.inl rfl,by rw [hidle.1]; rfl,by rw [hidle.1]; rfl⟩
  · have htime : (if key = .none then loop.timeRemaining-1 else 0) ≤ loop.timeRemaining := by
      split <;> omega
    simp only [uefiKeyChecked_eq platform config hlen]
    by_cases hdown : config.entries = [] ∧ movesDown key = true
    · exact .inr (.inl ⟨hdown.1,hdown.2,by rw [if_pos hdown]⟩)
    · simp only [if_neg hdown]
      rcases uefiKey_roles platform config
        { loop with timeRemaining := if key = .none then loop.timeRemaining-1 else 0 } key with
        ⟨state,hkey,hstays⟩ | ⟨henter,hclosed,hkey⟩ | ⟨hedits,hclosed,hentry,hkey⟩
      · refine .inr (.inr (.inr ⟨_,state,htime,hstays,fun he => ?_,by rw [hkey]⟩))
        simpa [he] using hdown
      · exact .inl ⟨loop.state.selectedIdx,by rw [hkey],.inr rfl,by rw [henter]; rfl,
          by rw [henter]; rfl⟩
      · exact .inr (.inr (.inl ⟨hedits,hclosed,hentry,by rw [hkey]⟩))

theorem drawn_more (loop loop' : Loop) (h : drawn canvas config loop = .more loop') :
    loop' = loop := by
  unfold drawn at h
  split at h
  · exact (Outcome.more.inj h).symm
  · cases h

theorem no_entry (he : config.entries = []) (idx : ℕ) : config.entries[idx]? = none := by
  rw [he,List.getElem?_nil]

theorem uefiTurn_missing (hlen : config.entries.length < 2^platform.usizeBits) (loop : Loop)
    (key : Key) (he : config.entries = []) (hclosed : loop.state.editing = false)
    (hkey : edits key = true) : uefiTurn canvas platform config loop key = .failed := by
  have hnone : key ≠ .none := by
    rintro rfl
    cases hkey
  have hfails : ∀ time, uefiKeyChecked platform config ⟨time,loop.state⟩ key = .failed := by
    intro time
    rw [uefiKeyChecked_eq platform config hlen]
    split
    · rfl
    · exact uefiKey_missing platform config ⟨time,loop.state⟩ key hkey hclosed (no_entry config he _)
  unfold uefiTurn
  rw [if_neg fun hidle => hnone hidle.1]
  simp only [hfails]

theorem uefiTurn_reached (hlen : config.entries.length < 2^platform.usizeBits)
    (loop : Loop) (key : Key) (loop' : Loop) (h : UefiReached config loop)
    (hturn : uefiTurn canvas platform config loop key = .more loop') :
    UefiReached config loop' := by
  rcases uefiTurn_cases canvas platform config hlen loop key with
    ⟨idx,hdone,-⟩ | ⟨-,-,hfailed⟩ | ⟨-,-,-,hfailed⟩ | ⟨time,state,htime,hstays,-,hdrawn⟩
  · rw [hdone] at hturn
    cases hturn
  · rw [hfailed] at hturn
    cases hturn
  · rw [hfailed] at hturn
    cases hturn
  · have hloop := drawn_more canvas config _ _ (hdrawn.symm.trans hturn)
    subst hloop
    refine ⟨htime.trans h.ticks,fun he => ?_⟩
    have hkey : edits key = false := by
      by_contra hedits
      rw [uefiTurn_missing canvas platform config hlen loop key he (h.closed he)
        (by simpa using hedits)] at hturn
      cases hturn
    exact (hstays.closed hkey (h.closed he)).1

theorem uefiTurn_sound_iff (hfits : Fits canvas config)
    (hlen : config.entries.length < 2^platform.usizeBits) (loop : Loop) (key : Key)
    (h : UefiReached config loop) (hsound : Sound config (.more loop)) :
    UefiSafe config loop key ↔ Sound config (uefiTurn canvas platform config loop key) := by
  have hidx : InRange config loop.state.selectedIdx := hsound
  constructor
  · intro hsafe
    rcases uefiTurn_cases canvas platform config hlen loop key with
      ⟨idx,hdone,rfl | rfl,-⟩ | ⟨he,hdown,-⟩ | ⟨hedits,hclosed,hentry,-⟩ |
      ⟨time,state,htime,hstays,hdown,hdrawn⟩
    · rw [hdone]
      exact Nat.lt_of_lt_of_le Nat.zero_lt_one (Nat.le_max_left _ _)
    · rw [hdone]
      exact hidx
    · simp [(hsafe he).1] at hdown
    · have he : config.entries = [] := by
        by_contra hne
        have hpos := List.length_pos_iff.mpr hne
        have hover := List.getElem?_eq_none_iff.mp hentry
        unfold InRange at hidx
        omega
      simp [(hsafe he).2] at hedits
    · rw [hdrawn,drawn_fits canvas config hfits ⟨time,state⟩ (htime.trans h.ticks)]
      exact stays_inRange platform config key _ _ hstays hidx hdown
  · intro hturn he
    constructor
    · by_contra hdown
      have hmoves : movesDown key = true := by simpa using hdown
      rcases uefiTurn_cases canvas platform config hlen loop key with
        ⟨-,-,-,hnot,-⟩ | ⟨-,-,hfailed⟩ | ⟨-,-,-,hfailed⟩ | ⟨-,-,-,-,hnot,-⟩
      · exact hdown hnot
      · rw [hfailed] at hturn
        exact hturn
      · rw [hfailed] at hturn
        exact hturn
      · exact hdown (hnot he)
    · by_contra hedits
      rw [uefiTurn_missing canvas platform config hlen loop key he (h.closed he)
        (by simpa using hedits)] at hturn
      exact hturn

theorem biosTick_stays (loop : Loop) (key : Key) (state : MenuState)
    (h : ¬(stops key = false ∧ loop.timeRemaining = 1)) :
    ∃ time ≤ loop.timeRemaining,
      biosTick ⟨if stops key then 0 else loop.timeRemaining,state⟩ = .more ⟨time,state⟩ := by
  cases hstops : stops key with
  | true => exact ⟨0,Nat.zero_le _,rfl⟩
  | false =>
    have hne : loop.timeRemaining ≠ 1 := fun hone => h ⟨hstops,hone⟩
    unfold biosTick
    simp only [Bool.false_eq_true,if_false]
    split
    · rw [if_neg (by omega)]
      exact ⟨_,Nat.sub_le _ _,rfl⟩
    · exact ⟨_,Nat.le_refl _,rfl⟩

theorem biosTurn_cases (hlen : config.entries.length < 2^platform.usizeBits) (loop : Loop)
    (key : Key) :
    (config.entries = [] ∧ movesDown key = true ∧
      biosTurn canvas platform config loop key = .failed) ∨
    (BiosLeaves loop key ∧ ∃ selectedIdx,
      (selectedIdx = 0 ∨ selectedIdx = loop.state.selectedIdx) ∧
      biosTurn canvas platform config loop key =
        if selectedIdx < config.entries.length then .done selectedIdx else .failed) ∨
    ¬BiosLeaves loop key ∧ ∃ time state, time ≤ loop.timeRemaining ∧
      Stays platform config key loop.state state ∧
      (config.entries = [] → movesDown key = false) ∧
      biosTurn canvas platform config loop key = drawn canvas config ⟨time,state⟩ := by
  unfold biosTurn
  rw [biosKeyChecked_eq platform config hlen]
  by_cases hdown : config.entries = [] ∧ movesDown key = true
  · exact .inl ⟨hdown.1,hdown.2,by rw [if_pos hdown]⟩
  · rw [if_neg hdown]
    have hnot : config.entries = [] → movesDown key = false := fun he => by simpa [he] using hdown
    rcases biosKey_roles platform config loop key with
      ⟨state,hkey,hstays⟩ | ⟨henter,hclosed,hkey⟩
    · have hstay : ¬(key = .enter ∧ loop.state.editing = false) := by
        rintro ⟨rfl,hclosed⟩
        simp [biosKey,hclosed] at hkey
      simp only [hkey]
      by_cases hlast : stops key = false ∧ loop.timeRemaining = 1
      · refine .inr (.inl ⟨.inr hlast,0,.inl rfl,?_⟩)
        simp [biosTick,hlast.1,hlast.2]
      · refine .inr (.inr ⟨?_,?_⟩)
        · rintro (h | h)
          · exact hstay h
          · exact hlast h
        · obtain ⟨time,htime,htick⟩ := biosTick_stays loop key state hlast
          exact ⟨time,state,htime,hstays,hnot,by rw [htick]⟩
    · exact .inr (.inl ⟨.inl ⟨henter,hclosed⟩,_,.inr rfl,by rw [hkey]⟩)

theorem biosTurn_ticks (hlen : config.entries.length < 2^platform.usizeBits)
    (loop : Loop) (key : Key) (loop' : Loop) (h : loop.timeRemaining ≤ config.timeout*10)
    (hturn : biosTurn canvas platform config loop key = .more loop') :
    loop'.timeRemaining ≤ config.timeout*10 := by
  rcases biosTurn_cases canvas platform config hlen loop key with
    ⟨-,-,hfailed⟩ | ⟨-,idx,-,hdone⟩ | ⟨-,time,state,htime,-,-,hdrawn⟩
  · rw [hfailed] at hturn
    cases hturn
  · rw [hdone] at hturn
    split at hturn <;> cases hturn
  · have hloop := drawn_more canvas config _ _ (hdrawn.symm.trans hturn)
    subst hloop
    exact htime.trans h

theorem biosTurn_sound_iff (hfits : Fits canvas config)
    (hlen : config.entries.length < 2^platform.usizeBits) (loop : Loop) (key : Key)
    (h : loop.timeRemaining ≤ config.timeout*10) (hsound : Sound config (.more loop)) :
    BiosSafe config loop key ↔ Sound config (biosTurn canvas platform config loop key) := by
  have hidx : InRange config loop.state.selectedIdx := hsound
  rcases biosTurn_cases canvas platform config hlen loop key with
    ⟨he,hdown,hfailed⟩ | ⟨hleaves,idx,hwhich,hdone⟩ | ⟨hstays,time,state,htime,hkey,hdown,hdrawn⟩
  · rw [hfailed]
    exact ⟨fun hsafe => by simp [(hsafe he).1] at hdown,fun hnot => hnot.elim⟩
  · rw [hdone]
    by_cases he : config.entries = []
    · rw [he,List.length_nil,if_neg (Nat.not_lt_zero idx)]
      exact ⟨fun hsafe => (hsafe he).2 hleaves,fun hnot => hnot.elim⟩
    · have hpos := List.length_pos_iff.mpr he
      have hless : idx < config.entries.length := by
        unfold InRange at hidx
        rcases hwhich with rfl | rfl <;> omega
      rw [if_pos hless]
      exact ⟨fun _ => hless.trans_le (Nat.le_max_right _ _),fun _ hnil => absurd hnil he⟩
  · rw [hdrawn,drawn_fits canvas config hfits ⟨time,state⟩ (htime.trans h)]
    exact ⟨fun _ => stays_inRange platform config key _ _ hkey hidx hdown,
      fun _ he => ⟨hdown he,hstays⟩⟩

/-- A menu is sound over some keys: after every key read nothing has gone wrong, and the
selection is in range. -/
def SoundOver (turn : Loop → Key → Poll) (keys : List Key) : Prop :=
  ∀ read, read <+: keys → Sound config (menu turn (start canvas config) read)

theorem startLoop_sound : Sound config (.more (startLoop config)) := by
  have hzero : (startLoop config).state.selectedIdx = 0 := startState_idx config
  change InRange config (startLoop config).state.selectedIdx
  rw [hzero]
  exact Nat.lt_of_lt_of_le Nat.zero_lt_one (Nat.le_max_left _ _)

theorem soundOver_unfit (turn : Loop → Key → Poll) (keys : List Key) (h : ¬Fits canvas config) :
    ¬SoundOver canvas config turn keys := by
  intro hsound
  have hstart := hsound [] List.nil_prefix
  rw [start_unfit canvas config h] at hstart
  exact hstart

theorem soundOver_fit (turn : Loop → Key → Poll) (keys : List Key) (h : Fits canvas config) :
    SoundOver canvas config turn keys ↔
      ∀ read, read <+: keys → Sound config (run turn (startLoop config) read) := by
  unfold SoundOver
  rw [start_fits canvas config h]
  rfl

/-- Both menus are sound over some keys exactly when the footer fits the canvas and every key
read is one the loop can take without an entry, or there are entries. -/
theorem menus_sound_iff (hlen : config.entries.length < 2^platform.usizeBits) (keys : List Key) :
    (SoundOver canvas config (uefiTurn canvas platform config) keys ↔
      Fits canvas config ∧ Along (uefiTurn canvas platform config) (UefiSafe config)
        (startLoop config) keys) ∧
    (SoundOver canvas config (biosTurn canvas platform config) keys ↔
      Fits canvas config ∧ Along (biosTurn canvas platform config) (BiosSafe config)
        (startLoop config) keys) := by
  have hticks : (startLoop config).timeRemaining ≤ config.timeout*10 := Nat.mod_le _ _
  by_cases hfits : Fits canvas config
  · have huefi := along_iff (uefiTurn canvas platform config) (UefiSafe config)
      (UefiReached config) (Sound config) (uefiTurn_reached canvas platform config hlen)
      (uefiTurn_sound_iff canvas platform config hfits hlen) (startLoop config) keys
      ⟨hticks,fun _ => startState_editing config⟩ (startLoop_sound config)
    have hbios := along_iff (biosTurn canvas platform config) (BiosSafe config)
      (fun loop => loop.timeRemaining ≤ config.timeout*10) (Sound config)
      (biosTurn_ticks canvas platform config hlen)
      (biosTurn_sound_iff canvas platform config hfits hlen) (startLoop config) keys hticks
      (startLoop_sound config)
    rw [soundOver_fit canvas config _ keys hfits,soundOver_fit canvas config _ keys hfits,huefi,
      hbios]
    simp [hfits]
  · simp [hfits,soundOver_unfit canvas config _ keys hfits]

end Turns

def smallScreen : Canvas := { width := 800, height := 600 }

/-- With two entries, moving down, opening the editor and booting goes well in both menus. -/
theorem menus_sound_down :
    SoundOver smallScreen twoEntries (uefiTurn smallScreen asciiPlatform twoEntries)
      [.down,.edit,.enter,.enter] ∧
    SoundOver smallScreen twoEntries (biosTurn smallScreen asciiPlatform twoEntries)
      [.down,.edit,.enter,.enter] := by
  have hentries : twoEntries.entries ≠ [] := by decide
  have hfits : Fits smallScreen twoEntries := ⟨by decide,fun _ => by decide⟩
  have hsound := menus_sound_iff smallScreen asciiPlatform twoEntries (by decide)
    [.down,.edit,.enter,.enter]
  refine ⟨hsound.1.mpr ⟨hfits,?_⟩,hsound.2.mpr ⟨hfits,?_⟩⟩
  · simp [Along,UefiSafe,hentries]
  · simp [Along,BiosSafe,hentries]

def noEntries : Config := parse asciiPlatform "x86_64".toList []

/-- `Down` in an empty menu takes one from zero. -/
theorem noEntries_down :
    ¬SoundOver smallScreen noEntries (uefiTurn smallScreen asciiPlatform noEntries) [.down] ∧
    ¬SoundOver smallScreen noEntries (biosTurn smallScreen asciiPlatform noEntries) [.down] := by
  constructor
  · intro h
    exact h [.down] (List.prefix_refl _)
  · intro h
    exact h [.down] (List.prefix_refl _)

end Zamak.MenuChecked
