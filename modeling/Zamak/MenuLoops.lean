import Zamak.BootFlow
import Zamak.PolledRuns

/-! # The menu loops of the two loaders

The loop of `main` in `zamak-uefi` and the one of `kmain` in `zamak-bios`, one polled
key at a time. A loop goes on with its ticks and its `MenuState`, leaves the menu with
the index of the entry to boot, or panics. Arithmetic is that of a release build, and
a wait takes one tick. -/

set_option autoImplicit false

namespace Zamak.MenuLoops
open Zamak.ConfigText Zamak.ConfigParse Zamak.BootFlow Zamak.PolledRuns

inductive Key where
  | up
  | down
  | enter
  | edit
  | esc
  | f10
  | backspace
  | char (c : Char)
  | none
  deriving DecidableEq, Repr

/-- The characters of the menu act as the keys they stand for; any other character is one of
its own. -/
theorem key_cases (motive : Key → Prop) (up : motive .up) (down : motive .down)
    (edit : motive .edit) (enter : motive .enter) (esc : motive .esc) (f10 : motive .f10)
    (backspace : motive .backspace) (none : motive .none) (k : motive .up → motive (.char 'k'))
    (j : motive .down → motive (.char 'j')) (i : motive .edit → motive (.char 'i'))
    (text : ∀ c, c ≠ 'k' → c ≠ 'j' → c ≠ 'i' → motive (.char c)) (key : Key) : motive key := by
  cases key with
  | up => exact up
  | down => exact down
  | enter => exact enter
  | edit => exact edit
  | esc => exact esc
  | f10 => exact f10
  | backspace => exact backspace
  | none => exact none
  | char c =>
    by_cases hk : c = 'k'
    · exact hk ▸ k up
    by_cases hj : c = 'j'
    · exact hj ▸ j down
    by_cases hi : c = 'i'
    · exact hi ▸ i edit
    exact text c hk hj hi

/-- `time_remaining` and `state`, as they stand when the loop polls a key. -/
structure Loop where
  timeRemaining : ℕ
  state : MenuState

abbrev Poll := Outcome Loop ℕ

def startState (config : Config) : MenuState :=
  if config.configHash.isSome then MenuState.newLocked config.timeout
  else MenuState.new config.timeout

/-- The loop before its first poll; the product wraps in a `u64`. -/
def startLoop (config : Config) : Loop :=
  { timeRemaining := config.timeout*10%2^64, state := startState config }

/-- `config.entries.len() - 1` in a `usize`. -/
def lastIdx (platform : Platform) (config : Config) : ℕ :=
  if config.entries.length = 0 then 2^platform.usizeBits-1 else config.entries.length-1

def selectUp (state : MenuState) : MenuState :=
  if 0 < state.selectedIdx then { state with selectedIdx := state.selectedIdx-1 } else state

def selectDown (platform : Platform) (config : Config) (state : MenuState) : MenuState :=
  if state.selectedIdx < lastIdx platform config then
    { state with selectedIdx := state.selectedIdx+1 }
  else state

def MenuState.push (state : MenuState) (c : Char) : MenuState :=
  { state with editBuffer := state.editBuffer++[c] }

/-- The `match key` of the UEFI loop. Opening the editor indexes the entries. -/
def uefiKey (platform : Platform) (config : Config) (loop : Loop) : Key → Poll
  | .up | .char 'k' => .more { loop with state := selectUp loop.state }
  | .down | .char 'j' => .more { loop with state := selectDown platform config loop.state }
  | .edit | .char 'i' =>
    if loop.state.editing then .more { loop with state := { loop.state with editing := false } }
    else
      match config.entries[loop.state.selectedIdx]? with
      | some entry =>
        .more { loop with state :=
          { loop.state with editing := true, editBuffer := entry.fields.cmdline } }
      | none => .failed
  | .char c =>
    if loop.state.editing then .more { loop with state := MenuState.push loop.state c }
    else .more loop
  | .esc => .more { loop with state := { loop.state with editing := false } }
  | .enter =>
    if loop.state.editing then .more { loop with state := { loop.state with editing := false } }
    else .done loop.state.selectedIdx
  | .f10 | .backspace | .none => .more loop

/-- One turn of the UEFI loop; a countdown that ends leaves `selected_idx` at 0. -/
def uefiPoll (platform : Platform) (config : Config) (loop : Loop) (key : Key) : Poll :=
  if key = .none then
    if loop.timeRemaining-1 = 0 then .done 0
    else uefiKey platform config { loop with timeRemaining := loop.timeRemaining-1 } key
  else uefiKey platform config { loop with timeRemaining := 0 } key

def biosKey (platform : Platform) (config : Config) (loop : Loop) : Key → Poll
  | .up | .char 'k' => .more { timeRemaining := 0, state := selectUp loop.state }
  | .down | .char 'j' =>
    .more { timeRemaining := 0, state := selectDown platform config loop.state }
  | .edit | .char 'i' =>
    if loop.state.editing then
      .more { timeRemaining := 0, state := { loop.state with editing := false } }
    else
      match config.entries[loop.state.selectedIdx]? with
      | some entry =>
        .more { timeRemaining := 0, state :=
          { loop.state with editing := true, editBuffer := entry.fields.cmdline } }
      | none => .more { timeRemaining := 0, state := { loop.state with editing := true } }
  | .char c =>
    if loop.state.editing then
      if c = '\n' then .more loop
      else .more { loop with state := MenuState.push loop.state c }
    else .more loop
  | .esc => .more { loop with state := { loop.state with editing := false } }
  | .enter =>
    if loop.state.editing then .more { loop with state := { loop.state with editing := false } }
    else .done loop.state.selectedIdx
  | .f10 | .backspace | .none => .more loop

def biosTick (loop : Loop) : Poll :=
  if 0 < loop.timeRemaining then
    if loop.timeRemaining-1 = 0 then .done 0
    else .more { loop with timeRemaining := loop.timeRemaining-1 }
  else .more loop

def biosPoll (platform : Platform) (config : Config) (loop : Loop) (key : Key) : Poll :=
  match biosKey platform config loop key with
  | .more loop => biosTick loop
  | .done selectedIdx => .done selectedIdx
  | .failed => .failed

section Select
variable (platform : Platform) (config : Config)

theorem startState_idx : (startState config).selectedIdx = 0 := by
  unfold startState
  split <;> rfl

theorem startState_editing : (startState config).editing = false := by
  unfold startState
  split <;> rfl

theorem lastIdx_eq (h : config.entries ≠ []) :
    lastIdx platform config = config.entries.length-1 := by
  have hlen : config.entries.length ≠ 0 := by simpa using h
  exact if_neg hlen

theorem selectUp_idx (state : MenuState) :
    (selectUp state).selectedIdx = state.selectedIdx-1 := by
  unfold selectUp
  split
  · rfl
  · omega

theorem selectUp_editing (state : MenuState) : (selectUp state).editing = state.editing := by
  unfold selectUp
  split <;> rfl

theorem selectDown_idx (state : MenuState) (h : config.entries ≠ []) :
    (selectDown platform config state).selectedIdx =
      if state.selectedIdx < config.entries.length-1 then state.selectedIdx+1
      else state.selectedIdx := by
  unfold selectDown
  rw [lastIdx_eq platform config h]
  split <;> rfl

theorem selectDown_editing (state : MenuState) :
    (selectDown platform config state).editing = state.editing := by
  unfold selectDown
  split <;> rfl

end Select

section Uefi
variable (platform : Platform) (config : Config)

/-- What a key that stays in the menu does: it moves the selection, or keeps it while
the editor is opened, closed or typed in. -/
def Moves (before after : MenuState) : Prop :=
  after = selectUp before ∨ after = selectDown platform config before ∨
    (after.selectedIdx = before.selectedIdx ∧ after.expanded = before.expanded)

/-- Handling a key does not touch the ticks, and leaves the menu only on `Enter` with
the editor closed. -/
def Handled (loop : Loop) (key : Key) : Prop :=
  (∃ state, Moves platform config loop.state state ∧
    uefiKey platform config loop key = .more { loop with state := state }) ∨
  (key = .enter ∧ loop.state.editing = false ∧
    uefiKey platform config loop key = .done loop.state.selectedIdx) ∨
  uefiKey platform config loop key = .failed

theorem uefiKey_keeps (loop : Loop) (key : Key) (state : MenuState)
    (hidx : state.selectedIdx = loop.state.selectedIdx)
    (hexp : state.expanded = loop.state.expanded)
    (h : uefiKey platform config loop key = .more { loop with state := state }) :
    Handled platform config loop key :=
  .inl ⟨state,.inr (.inr ⟨hidx,hexp⟩),h⟩

theorem uefiKey_edit (loop : Loop) :
    (∃ state, (state.selectedIdx = loop.state.selectedIdx ∧
        state.expanded = loop.state.expanded) ∧
      uefiKey platform config loop .edit = .more { loop with state := state }) ∨
    uefiKey platform config loop .edit = .failed := by
  cases hediting : loop.state.editing with
  | true => exact .inl ⟨{ loop.state with editing := false },⟨rfl,rfl⟩,by simp [uefiKey,hediting]⟩
  | false =>
    cases hentry : config.entries[loop.state.selectedIdx]? with
    | some entry =>
      exact .inl ⟨{ loop.state with editing := true, editBuffer := entry.fields.cmdline },
        ⟨rfl,rfl⟩,by simp [uefiKey,hediting,hentry]⟩
    | none => exact .inr (by simp [uefiKey,hediting,hentry])

theorem uefiKey_cases (loop : Loop) (key : Key) : Handled platform config loop key := by
  induction key using key_cases with
  | up => exact .inl ⟨_,.inl rfl,rfl⟩
  | down => exact .inl ⟨_,.inr (.inl rfl),rfl⟩
  | edit =>
    rcases uefiKey_edit platform config loop with ⟨state,⟨hidx,hexp⟩,h⟩ | h
    · exact uefiKey_keeps platform config loop .edit state hidx hexp h
    · exact .inr (.inr h)
  | esc =>
    exact uefiKey_keeps platform config loop .esc { loop.state with editing := false } rfl rfl rfl
  | f10 => exact uefiKey_keeps platform config loop .f10 loop.state rfl rfl rfl
  | backspace => exact uefiKey_keeps platform config loop .backspace loop.state rfl rfl rfl
  | none => exact uefiKey_keeps platform config loop .none loop.state rfl rfl rfl
  | enter =>
    cases hediting : loop.state.editing with
    | true =>
      apply uefiKey_keeps platform config loop .enter { loop.state with editing := false } rfl rfl
      simp [uefiKey,hediting]
    | false => exact .inr (.inl ⟨rfl,hediting,by simp [uefiKey,hediting]⟩)
  | k _ => exact .inl ⟨_,.inl rfl,rfl⟩
  | j _ => exact .inl ⟨_,.inr (.inl rfl),rfl⟩
  | i hedit => exact hedit.imp_right (Or.imp_left fun h => absurd h.1 (by decide))
  | text c _ _ _ =>
    cases hediting : loop.state.editing with
    | true =>
      apply uefiKey_keeps platform config loop (.char c) (MenuState.push loop.state c) rfl rfl
      simp [uefiKey,hediting]
    | false =>
      apply uefiKey_keeps platform config loop (.char c) loop.state rfl rfl
      simp [uefiKey,hediting]

theorem uefiPoll_none (loop : Loop) :
    uefiPoll platform config loop .none =
      if loop.timeRemaining-1 = 0 then .done 0
      else .more { loop with timeRemaining := loop.timeRemaining-1 } := rfl

theorem uefiPoll_key (loop : Loop) (key : Key) (h : key ≠ .none) :
    uefiPoll platform config loop key =
      uefiKey platform config { loop with timeRemaining := 0 } key := if_neg h

/-- The ticks after the keys read so far: the countdown less the idle polls while
nothing else was read, and none from the first key on. -/
structure Ticks (read : List Key) (loop : Loop) : Prop where
  idle : (∀ k ∈ read, k = .none) → loop.timeRemaining = config.timeout*10%2^64-read.length
  waiting : read ≠ [] → (∀ k ∈ read, k = .none) → 0 < loop.timeRemaining
  keyed : (∃ k ∈ read, k ≠ .none) → loop.timeRemaining = 0

theorem ticks_start : Ticks config [] (startLoop config) where
  idle := by simp [startLoop]
  waiting := fun h => absurd rfl h
  keyed := by simp

theorem ticks_none (read : List Key) (loop loop' : Loop) (ht : Ticks config read loop)
    (h : uefiPoll platform config loop .none = .more loop') :
    Ticks config (read++[.none]) loop' := by
  rw [uefiPoll_none] at h
  split at h
  · simp at h
  · rename_i hpos
    have hl : loop'.timeRemaining = loop.timeRemaining-1 := by
      rw [← Outcome.more.inj h]
    constructor
    · intro hread
      have hidle := ht.idle fun k hk => hread k (List.mem_append_left _ hk)
      rw [hl,hidle,List.length_append,List.length_singleton]
      omega
    · intro _ _
      omega
    · rintro ⟨k,hk,hne⟩
      have hmem : k ∈ read := by simpa [hne] using hk
      have hzero := ht.keyed ⟨k,hmem,hne⟩
      omega

theorem ticks_key (read : List Key) (key : Key) (loop loop' : Loop) (hkey : key ≠ .none)
    (h : uefiPoll platform config loop key = .more loop') :
    Ticks config (read++[key]) loop' := by
  have hzero : loop'.timeRemaining = 0 := by
    rw [uefiPoll_key platform config loop key hkey] at h
    rcases uefiKey_cases platform config { loop with timeRemaining := 0 } key with
      ⟨state,_,hm⟩ | ⟨_,_,hd⟩ | hf
    · rw [hm] at h
      rw [← Outcome.more.inj h]
    · simp [hd] at h
    · simp [hf] at h
  have hnot : ¬∀ k ∈ read++[key], k = .none := fun hall => hkey (hall key (by simp))
  constructor
  · intro hall
    exact absurd hall hnot
  · intro _ hall
    exact absurd hall hnot
  · intro _
    exact hzero

theorem ticks_run (read : List Key) (loop : Loop)
    (h : run (uefiPoll platform config) (startLoop config) read = .more loop) :
    Ticks config read loop := by
  apply run_invariant (uefiPoll platform config) (Ticks config) _ _ _ (ticks_start config) _ h
  intro read loop key loop' ht hstep
  by_cases hkey : key = .none
  · subst hkey
    exact ticks_none platform config read loop loop' ht hstep
  · exact ticks_key platform config read key loop loop' hkey hstep

/-- The menu is left on `Enter` with the editor closed or at the end of an undisturbed
countdown of `timeout * 10` idle polls (at the first one for a zero timeout), and after
a key an idle poll does not leave it. -/
structure WaitsForCommand (keys : List Key) : Prop where
  leaves : ∀ (read : List Key) (key : Key) (rest : List Key) (loop : Loop) (selectedIdx : ℕ),
    keys = read++key::rest → run (uefiPoll platform config) (startLoop config) read = .more loop →
    uefiPoll platform config loop key = .done selectedIdx →
    (key = .enter ∧ loop.state.editing = false) ∨
    ((∀ k ∈ read++[key], k = .none) ∧ (read++[key]).length = max 1 (config.timeout*10))
  cancelled : ∀ (read rest : List Key) (loop : Loop), keys = read++.none::rest →
    run (uefiPoll platform config) (startLoop config) read = .more loop →
    (∃ k ∈ read, k ≠ .none) → ∃ loop', uefiPoll platform config loop .none = .more loop'

/-- Idle polls come before any key, and none of them ends a countdown whose product
has wrapped. -/
def IdleBeforeKeys (keys : List Key) : Prop :=
  ∀ (read rest : List Key) (loop : Loop), keys = read++.none::rest →
    run (uefiPoll platform config) (startLoop config) read = .more loop →
    (∀ k ∈ read, k = .none) ∧
      (config.timeout*10 < 2^64 ∨ read.length+1 < config.timeout*10%2^64)

theorem none_leaves (read : List Key) (loop : Loop)
    (h : run (uefiPoll platform config) (startLoop config) read = .more loop)
    (hkey : ∃ k ∈ read, k ≠ .none) : uefiPoll platform config loop .none = .done 0 := by
  have hzero := (ticks_run platform config read loop h).keyed hkey
  rw [uefiPoll_none,hzero]
  exact if_pos rfl

theorem none_counts (read : List Key) (loop : Loop) (selectedIdx : ℕ)
    (h : run (uefiPoll platform config) (startLoop config) read = .more loop)
    (hidle : ∀ k ∈ read, k = .none) :
    uefiPoll platform config loop .none = .done selectedIdx →
      read.length+1 = max 1 (config.timeout*10%2^64) := by
  intro hdone
  have ht := ticks_run platform config read loop h
  have htime := ht.idle hidle
  generalize config.timeout*10%2^64 = countdown at htime ⊢
  rw [uefiPoll_none] at hdone
  split at hdone
  · rename_i hlast
    rcases List.eq_nil_or_concat read with rfl | ⟨before,k,rfl⟩
    · simp only [List.length_nil] at htime ⊢
      omega
    · have hpos := ht.waiting (by simp) hidle
      omega
  · simp at hdone

theorem none_expires (read : List Key) (loop : Loop)
    (h : run (uefiPoll platform config) (startLoop config) read = .more loop)
    (hidle : ∀ k ∈ read, k = .none) (hlast : config.timeout*10%2^64 ≤ read.length+1) :
    uefiPoll platform config loop .none = .done 0 := by
  have htime := (ticks_run platform config read loop h).idle hidle
  generalize config.timeout*10%2^64 = countdown at htime hlast
  rw [uefiPoll_none]
  apply if_pos
  omega

theorem wrapped_lt (product : ℕ) (h : 2^64 ≤ product) : max 1 (product%2^64) < max 1 product := by
  have hlt := Nat.mod_lt product (Nat.two_pow_pos 64)
  have hone : 1 < product := lt_of_lt_of_le (Nat.one_lt_two_pow (by decide)) h
  rw [max_eq_right hone.le]
  exact max_lt hone (hlt.trans_le h)

theorem waitsForCommand_iff (keys : List Key) :
    WaitsForCommand platform config keys ↔ IdleBeforeKeys platform config keys := by
  constructor
  · intro hw read rest loop hkeys hrun
    have hidle : ∀ k ∈ read, k = .none := by
      by_contra hnot
      have hkey : ∃ k ∈ read, k ≠ .none := by simpa using hnot
      have hdone := none_leaves platform config read loop hrun hkey
      have ⟨loop',hmore⟩ := hw.cancelled read rest loop hkeys hrun hkey
      simp [hdone] at hmore
    refine ⟨hidle,?_⟩
    by_contra hwrap
    have ⟨hover,hlast⟩ := not_or.mp hwrap
    -- The wrapped countdown has run out, so this poll leaves too early for the product.
    have hdone := none_expires platform config read loop hrun hidle (Nat.le_of_not_lt hlast)
    have hcount := none_counts platform config read loop 0 hrun hidle hdone
    rcases hw.leaves read .none rest loop 0 hkeys hrun hdone with ⟨hk,_⟩ | ⟨_,hlen⟩
    · cases hk
    · rw [List.length_append,List.length_singleton,hcount] at hlen
      exact absurd hlen (wrapped_lt _ (Nat.le_of_not_lt hover)).ne
  · intro hc
    constructor
    · intro read key rest loop selectedIdx hkeys hrun hdone
      by_cases hkey : key = .none
      · subst hkey
        have ⟨hidle,hfits⟩ := hc read rest loop hkeys hrun
        have hcount := none_counts platform config read loop selectedIdx hrun hidle hdone
        refine .inr ⟨?_,?_⟩
        · intro k hk
          rcases List.mem_append.mp hk with hk | hk
          · exact hidle k hk
          · exact List.mem_singleton.mp hk
        · rw [List.length_append,List.length_singleton]
          rcases hfits with hfits | hfits
          · rw [hcount,Nat.mod_eq_of_lt hfits]
          · exact absurd hcount (hfits.trans_le (le_max_right _ _)).ne
      · rw [uefiPoll_key platform config loop key hkey] at hdone
        rcases uefiKey_cases platform config { loop with timeRemaining := 0 } key with
          ⟨state,_,hm⟩ | ⟨hk,hediting,_⟩ | hf
        · simp [hm] at hdone
        · exact .inl ⟨hk,hediting⟩
        · simp [hf] at hdone
    · intro read rest loop hkeys hrun ⟨k,hk,hne⟩
      exact absurd ((hc read rest loop hkeys hrun).1 k hk) hne

end Uefi

def twoEntries : Config := parse asciiPlatform "x86_64".toList "/A\n/B".toList

/-- With `B` selected, the idle poll after `Down` boots `A`. -/
theorem down_then_idle :
    exits (uefiPoll asciiPlatform twoEntries) (startLoop twoEntries) [.down,.none] = some (2,0) ∧
    ¬WaitsForCommand asciiPlatform twoEntries [.down,.none] := by
  refine ⟨rfl,?_⟩
  intro hw
  have hkey : ∃ k ∈ [Key.down], k ≠ .none := ⟨.down,by decide,by decide⟩
  have hrun : run (uefiPoll asciiPlatform twoEntries) (startLoop twoEntries) [.down] =
    .more { timeRemaining := 0,
            state := selectDown asciiPlatform twoEntries (startState twoEntries) } := rfl
  have ⟨loop',hmore⟩ := hw.cancelled [.down] [] _ rfl hrun hkey
  simp [none_leaves asciiPlatform twoEntries [.down] _ hrun hkey] at hmore

end Zamak.MenuLoops
