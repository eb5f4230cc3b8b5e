import Zamak.MenuLoops

/-! # What the menu highlights and what it boots

`flatten_entries` lays the entry tree out as rows, `draw_menu` highlights the row at
`selected_idx`, and the loop boots the top-level entry at `selected_idx`. The row and
the entry are one as long as no directory above the selection is shown expanded. -/

set_option autoImplicit false

namespace Zamak.MenuTree
open Zamak.ConfigText Zamak.ConfigParse Zamak.BootFlow Zamak.PolledRuns Zamak.MenuLoops

/-- A row of the menu. The reference of the source is an entry and its place: the
indices that lead to it from the top of the tree. -/
structure FlatEntry where
  entry : MenuEntry
  place : List ℕ
  depth : ℕ
  isDirectory : Bool
  isExpanded : Bool

structure Rows where
  flat : List FlatEntry
  flatIdx : ℕ

def shownExpanded (state : MenuState) (flatIdx : ℕ) (entry : MenuEntry) : Bool :=
  !entry.children.isEmpty && (entry.fields.expanded || state.expanded.getD flatIdx false)

mutual
def flattenEntry (state : MenuState) (depth : ℕ) (place : List ℕ) (rows : Rows) :
    MenuEntry → Rows
  | .mk fields children =>
    let isDirectory := !children.isEmpty
    let isExpanded := shownExpanded state rows.flatIdx (.mk fields children)
    let row : FlatEntry :=
      { entry := .mk fields children, place := place, depth := depth,
        isDirectory := isDirectory, isExpanded := isExpanded }
    let rows := { flat := rows.flat++[row], flatIdx := rows.flatIdx+1 }
    if isDirectory && isExpanded then flattenRecursive state (depth+1) place 0 rows children
    else rows

/-- `flatten_recursive`, over the entries of one directory from a position on. -/
def flattenRecursive (state : MenuState) (depth : ℕ) (parent : List ℕ) (pos : ℕ) (rows : Rows) :
    List MenuEntry → Rows
  | [] => rows
  | entry::entries =>
    flattenRecursive state depth parent (pos+1)
      (flattenEntry state depth (parent++[pos]) rows entry) entries
end

def flattenEntries (entries : List MenuEntry) (state : MenuState) : List FlatEntry :=
  (flattenRecursive state 0 [] 0 { flat := [], flatIdx := 0 } entries).flat

/-- Rows that lie below a place are added, a given number of them at least. -/
def Below (place : List ℕ) (count : ℕ) (before after : Rows) : Prop :=
  ∃ added, after = ⟨before.flat++added,before.flatIdx+added.length⟩ ∧ count ≤ added.length ∧
    ∀ row ∈ added, place.length < row.place.length

theorem Below.trans (place : List ℕ) (m n : ℕ) (a b c : Rows) (hab : Below place m a b)
    (hbc : Below place n b c) : Below place (m+n) a c := by
  obtain ⟨x,hx,hxl,hxp⟩ := hab
  obtain ⟨y,hy,hyl,hyp⟩ := hbc
  refine ⟨x++y,?_,?_,?_⟩
  · rw [hy,hx,List.append_assoc,List.length_append,Nat.add_assoc]
  · rw [List.length_append]
    omega
  · intro row hrow
    rcases List.mem_append.mp hrow with h | h
    · exact hxp row h
    · exact hyp row h

/-- What an entry adds: its own row, then rows below it, which are there exactly when
it is shown expanded. -/
structure Block (state : MenuState) (place : List ℕ) (flatIdx : ℕ) (entry : MenuEntry)
    (row : FlatEntry) (below : List FlatEntry) : Prop where
  entry_eq : row.entry = entry
  place_eq : row.place = place
  deeper : ∀ r ∈ below, place.length < r.place.length
  below_iff : below ≠ [] ↔ shownExpanded state flatIdx entry = true

mutual
theorem flattenEntry_block (state : MenuState) (depth : ℕ) (place : List ℕ) (rows : Rows) :
    ∀ entry : MenuEntry, ∃ row below,
      flattenEntry state depth place rows entry =
        ⟨rows.flat++row::below,rows.flatIdx+(below.length+1)⟩ ∧
      Block state place rows.flatIdx entry row below
  | .mk fields children => by
    unfold flattenEntry
    cases hshown : shownExpanded state rows.flatIdx (.mk fields children) with
    | false =>
      refine ⟨_,[],by simp only [Bool.and_false,Bool.false_eq_true,if_false]; rfl,rfl,rfl,?_,?_⟩
      · intro r hr
        cases hr
      · rw [hshown]
        decide
    | true =>
      have hdir : (!children.isEmpty) = true := (Bool.and_eq_true _ _ ▸ hshown).1
      simp only [hdir,Bool.and_self,if_true]
      obtain ⟨added,heq,hlen,hdeep⟩ := flattenRecursive_below state (depth+1) place 0 _ children
      refine ⟨{ entry := .mk fields children, place := place, depth := depth,
                isDirectory := true, isExpanded := true },added,heq.trans ?_,rfl,rfl,hdeep,?_⟩
      · rw [List.append_assoc,Nat.add_assoc,Nat.add_comm 1]
        rfl
      · rw [hshown]
        have hpos : 0 < children.length := by
          cases children with
          | nil => cases hdir
          | cons c cs => simp
        refine ⟨fun _ => rfl,fun _ => ?_⟩
        exact List.length_pos_iff.mp (hpos.trans_le hlen)

theorem flattenRecursive_below (state : MenuState) (depth : ℕ) (parent : List ℕ) (pos : ℕ)
    (rows : Rows) : ∀ entries : List MenuEntry,
      Below parent entries.length rows (flattenRecursive state depth parent pos rows entries)
  | [] => ⟨[],by simp [flattenRecursive],Nat.le_refl 0,by simp⟩
  | entry::entries => by
    unfold flattenRecursive
    obtain ⟨row,below,heq,hblock⟩ := flattenEntry_block state depth (parent++[pos]) rows entry
    have hfirst : Below parent 1 rows (flattenEntry state depth (parent++[pos]) rows entry) := by
      refine ⟨row::below,heq,by simp,?_⟩
      intro r hr
      rcases List.mem_cons.mp hr with rfl | hr
      · rw [hblock.place_eq]
        simp
      · have hdeep := hblock.deeper r hr
        rw [List.length_append] at hdeep
        omega
    have hrest := flattenRecursive_below state depth parent (pos+1)
      (flattenEntry state depth (parent++[pos]) rows entry) entries
    have htrans := Below.trans parent 1 entries.length _ _ _ hfirst hrest
    rwa [Nat.add_comm] at htrans
end

def FlatEntry.reference (row : FlatEntry) : List ℕ × MenuEntry := (row.place,row.entry)

/-- The rows of the top-level entries from a position on: none stands above its own
index, and a row is at its index exactly when no directory before it is expanded. -/
structure TopRows (state : MenuState) (pos flatIdx : ℕ) (entries : List MenuEntry)
    (rows : List FlatEntry) : Prop where
  behind : ∀ (k i : ℕ) (row : FlatEntry), rows[k]? = some row → row.place = [i] → i ≤ pos+k
  aligned : ∀ k < entries.length,
    ((rows[k]?).map FlatEntry.reference = (entries[k]?).map fun entry => ([pos+k],entry)) ↔
      ∀ j < k, ∀ entry, entries[j]? = some entry → shownExpanded state (flatIdx+j) entry = false

section Cons
variable (state : MenuState) (pos flatIdx : ℕ) (entry : MenuEntry) (entries : List MenuEntry)
variable (row : FlatEntry) (below rows : List FlatEntry)

theorem behind_cons (hblock : Block state [pos] flatIdx entry row below)
    (hrest : TopRows state (pos+1) (flatIdx+(below.length+1)) entries rows)
    (k i : ℕ) (r : FlatEntry) (hr : (row::below++rows)[k]? = some r) (hplace : r.place = [i]) :
    i+below.length ≤ pos+k ∨ (k = 0 ∧ i = pos) := by
  cases k with
  | zero =>
    have hrow : row = r := by simpa using hr
    rw [← hrow,hblock.place_eq] at hplace
    exact .inr ⟨rfl,by simpa using hplace.symm⟩
  | succ k =>
    rw [List.cons_append,List.getElem?_cons_succ] at hr
    by_cases hk : k < below.length
    · rw [List.getElem?_append_left hk] at hr
      have hdeep := hblock.deeper r (List.mem_of_getElem? hr)
      rw [hplace] at hdeep
      exact absurd hdeep (Nat.lt_irrefl 1)
    · rw [List.getElem?_append_right (Nat.le_of_not_lt hk)] at hr
      have hle := hrest.behind _ i r hr hplace
      omega

theorem aligned_cons (hblock : Block state [pos] flatIdx entry row below)
    (hrest : TopRows state (pos+1) (flatIdx+(below.length+1)) entries rows)
    (k : ℕ) (hk : k < entries.length) :
    (((row::below++rows)[k+1]?).map FlatEntry.reference =
      ((entry::entries)[k+1]?).map fun e => ([pos+(k+1)],e)) ↔
      shownExpanded state flatIdx entry = false ∧
      ∀ j < k, ∀ e, entries[j]? = some e → shownExpanded state (flatIdx+(j+1)) e = false := by
  cases hshown : shownExpanded state flatIdx entry with
  | false =>
    have hbelow : below = [] := by
      by_contra hne
      have := hblock.below_iff.mp hne
      simp [hshown] at this
    rw [hbelow] at hrest
    have haligned := hrest.aligned k hk
    simp only [hbelow,List.nil_append,List.cons_append,List.getElem?_cons_succ,true_and]
    rw [show pos+(k+1) = pos+1+k by omega,haligned]
    simp only [List.length_nil,Nat.zero_add,Nat.add_assoc,Nat.add_comm 1]
  | true =>
    have hbelow := hblock.below_iff.mpr hshown
    simp only [Bool.true_eq_false,false_and,iff_false]
    intro heq
    rw [List.getElem?_cons_succ,List.getElem?_eq_getElem hk] at heq
    obtain ⟨r,hr,href⟩ := Option.map_eq_some_iff.mp heq
    have hplace : r.place = [pos+(k+1)] := congrArg Prod.fst href
    have hpos := List.length_pos_iff.mpr hbelow
    rcases behind_cons state pos flatIdx entry entries row below rows hblock hrest _ _ r hr hplace
      with h | h
    · omega
    · omega

theorem topRows_cons (hblock : Block state [pos] flatIdx entry row below)
    (hrest : TopRows state (pos+1) (flatIdx+(below.length+1)) entries rows) :
    TopRows state pos flatIdx (entry::entries) (row::below++rows) where
  behind := by
    intro k i r hr hplace
    rcases behind_cons state pos flatIdx entry entries row below rows hblock hrest k i r hr hplace
      with h | h
    · omega
    · omega
  aligned := by
    intro k hk
    cases k with
    | zero => simp [FlatEntry.reference,hblock.place_eq,hblock.entry_eq]
    | succ k =>
      rw [aligned_cons state pos flatIdx entry entries row below rows hblock hrest k
        (Nat.lt_of_succ_lt_succ hk)]
      constructor
      · rintro ⟨hfirst,hothers⟩ j hj e he
        cases j with
        | zero =>
          have hentry : entry = e := by simpa using he
          exact hentry ▸ hfirst
        | succ j => exact hothers j (by omega) e he
      · intro h
        exact ⟨h 0 (by omega) entry rfl,fun j hj e he => h (j+1) (by omega) e he⟩

end Cons

theorem flattenRecursive_top (state : MenuState) (depth pos : ℕ) (rows : Rows)
    (entries : List MenuEntry) :
    ∃ added, (flattenRecursive state depth [] pos rows entries).flat = rows.flat++added ∧
      TopRows state pos rows.flatIdx entries added := by
  induction entries generalizing pos rows with
  | nil => exact ⟨[],by simp [flattenRecursive],by simp,by simp⟩
  | cons entry entries ih =>
    obtain ⟨row,below,heq,hblock⟩ := flattenEntry_block state depth [pos] rows entry
    obtain ⟨added,hflat,htop⟩ := ih (pos+1) ⟨rows.flat++row::below,rows.flatIdx+(below.length+1)⟩
    refine ⟨row::below++added,?_,
      topRows_cons state pos rows.flatIdx entry entries row below added hblock htop⟩
    unfold flattenRecursive
    rw [List.nil_append,heq,hflat]
    simp

/-- The row at an index is the top-level entry there exactly when no directory before
it is shown expanded. -/
theorem flattenEntries_aligned (entries : List MenuEntry) (state : MenuState) (k : ℕ)
    (hk : k < entries.length) :
    (((flattenEntries entries state)[k]?).map FlatEntry.reference =
      (entries[k]?).map fun entry => ([k],entry)) ↔
      ∀ j < k, ∀ entry, entries[j]? = some entry → shownExpanded state j entry = false := by
  obtain ⟨rows,hflat,htop⟩ := flattenRecursive_top state 0 0 { flat := [], flatIdx := 0 } entries
  have haligned := htop.aligned k hk
  simp only [Nat.zero_add] at haligned
  unfold flattenEntries
  rw [hflat,List.nil_append,haligned]

section Run
variable (platform : Platform) (config : Config)

/-- The loop before its first poll, over a given vector of expanded rows. -/
def startExpanded (expanded : List Bool) : Loop :=
  { startLoop config with state := { startState config with expanded := expanded } }

structure Selects (expanded : List Bool) (loop : Loop) : Prop where
  expanded_eq : loop.state.expanded = expanded
  inRange : config.entries ≠ [] → loop.state.selectedIdx < config.entries.length

theorem selects_start (expanded : List Bool) :
    Selects config expanded (startExpanded config expanded) where
  expanded_eq := rfl
  inRange := by
    intro he
    have hzero : (startExpanded config expanded).state.selectedIdx = 0 := startState_idx config
    rw [hzero]
    exact List.length_pos_iff.mpr he

theorem selects_up (expanded : List Bool) (loop : Loop) (time : ℕ)
    (h : Selects config expanded loop) : Selects config expanded ⟨time,selectUp loop.state⟩ where
  expanded_eq := by
    rw [← h.expanded_eq]
    simp only [selectUp]
    split <;> rfl
  inRange := by
    intro he
    have := h.inRange he
    simp only [selectUp_idx]
    omega

theorem selects_down (expanded : List Bool) (loop : Loop) (time : ℕ)
    (h : Selects config expanded loop) :
    Selects config expanded ⟨time,selectDown platform config loop.state⟩ where
  expanded_eq := by
    rw [← h.expanded_eq]
    simp only [selectDown]
    split <;> rfl
  inRange := by
    intro he
    have := h.inRange he
    simp only [selectDown_idx _ _ _ he]
    split <;> omega

theorem selects_moves (expanded : List Bool) (loop : Loop) (time : ℕ) (state : MenuState)
    (h : Selects config expanded loop) (hm : Moves platform config loop.state state) :
    Selects config expanded ⟨time,state⟩ := by
  rcases hm with hup | hdown | ⟨hidx,hexp⟩
  · exact hup ▸ selects_up config expanded loop time h
  · exact hdown ▸ selects_down platform config expanded loop time h
  · exact ⟨hexp.trans h.expanded_eq,fun he => hidx.symm ▸ h.inRange he⟩

theorem selects_poll (expanded : List Bool) (loop loop' : Loop) (key : Key)
    (h : Selects config expanded loop) (hpoll : uefiPoll platform config loop key = .more loop') :
    Selects config expanded loop' := by
  by_cases hkey : key = .none
  · rw [hkey,uefiPoll_none] at hpoll
    split at hpoll
    · simp at hpoll
    · exact Outcome.more.inj hpoll ▸ ⟨h.expanded_eq,h.inRange⟩
  · rw [uefiPoll_key platform config loop key hkey] at hpoll
    rcases uefiKey_cases platform config { loop with timeRemaining := 0 } key with
      ⟨state,hm,hmore⟩ | ⟨_,_,hdone⟩ | hfailed
    · rw [hmore] at hpoll
      exact Outcome.more.inj hpoll ▸ selects_moves platform config expanded loop 0 state h hm
    · simp [hdone] at hpoll
    · simp [hfailed] at hpoll

theorem selects_run (expanded : List Bool) (keys : List Key) (loop : Loop)
    (h : run (uefiPoll platform config) (startExpanded config expanded) keys = .more loop) :
    Selects config expanded loop := by
  apply run_invariant (uefiPoll platform config) (fun _ => Selects config expanded) _ _ keys
    (selects_start config expanded) _ h
  intro _ loop key loop' hs hpoll
  exact selects_poll platform config expanded loop loop' key hs hpoll

/-- The entry booted is the one highlighted: the row at `selected_idx` refers to the
top-level entry at the index the loop leaves with. -/
def BootsHighlighted (state : MenuState) (selectedIdx : ℕ) : Prop :=
  ((flattenEntries config.entries state)[state.selectedIdx]?).map FlatEntry.reference =
    (config.entries[selectedIdx]?).map fun entry => ([selectedIdx],entry)

theorem flattenEntries_nil (state : MenuState) : flattenEntries [] state = [] := rfl

/-- When the loop leaves on `Enter`, what boots is what is highlighted exactly when no
directory above the selection is shown expanded. -/
theorem bootsHighlighted_iff (expanded : List Bool) (keys : List Key) (loop : Loop)
    (selectedIdx : ℕ)
    (hrun : run (uefiPoll platform config) (startExpanded config expanded) keys = .more loop)
    (henter : uefiPoll platform config loop .enter = .done selectedIdx) :
    BootsHighlighted config loop.state selectedIdx ↔
      ∀ j < loop.state.selectedIdx, ∀ entry, config.entries[j]? = some entry →
        (entry.children = [] ∨ (entry.fields.expanded = false ∧ expanded.getD j false = false)) := by
  have hs := selects_run platform config expanded keys loop hrun
  have hidx : selectedIdx = loop.state.selectedIdx := by
    rw [uefiPoll_key platform config loop .enter (by decide)] at henter
    rcases uefiKey_cases platform config { loop with timeRemaining := 0 } .enter with
      ⟨_,_,hmore⟩ | ⟨_,_,hdone⟩ | hfailed
    · simp [hmore] at henter
    · rw [hdone] at henter
      exact (Outcome.done.inj henter).symm
    · simp [hfailed] at henter
  have hshown : ∀ j entry, (shownExpanded loop.state j entry = false ↔
      (entry.children = [] ∨ (entry.fields.expanded = false ∧ expanded.getD j false = false))) := by
    intro j entry
    rw [or_iff_not_imp_left]
    simp [shownExpanded,hs.expanded_eq]
  subst hidx
  unfold BootsHighlighted
  by_cases he : config.entries = []
  · simp [he,flattenEntries_nil]
  · rw [flattenEntries_aligned config.entries loop.state _ (hs.inRange he)]
    simp only [hshown]

end Run

/-- In a flat menu, `Down` highlights what `Enter` then boots. -/
theorem bootsHighlighted_down :
    BootsHighlighted twoEntries
      (selectDown asciiPlatform twoEntries (startExpanded twoEntries []).state) 1 := by
  have hentries : twoEntries.entries =
    [.mk { name := "A".toList, depth := 1 } [],.mk { name := "B".toList, depth := 1 } []] := rfl
  apply (bootsHighlighted_iff asciiPlatform twoEntries [] [.down] ⟨0,_⟩ 1 rfl rfl).mpr
  intro j hj entry hentry
  have hzero : j = 0 := Nat.lt_one_iff.mp hj
  rw [hzero,hentries] at hentry
  exact .inl (Option.some.inj hentry ▸ rfl)

def directoryConfig : Config := parse asciiPlatform "x86_64".toList "/+Dir\n//Child\n/B".toList

theorem directoryConfig_entries :
    directoryConfig.entries =
      [.mk { name := "Dir".toList, depth := 1, expanded := true }
        [.mk { name := "Child".toList, depth := 2 } []],
       .mk { name := "B".toList, depth := 1 } []] := by
  have hpush : directoryConfig.entries =
      pushEntry (pushEntry (pushEntry [] (.mk { name := "Dir".toList, depth := 1, expanded := true } []))
        (.mk { name := "Child".toList, depth := 2 } [])) (.mk { name := "B".toList, depth := 1 } []) :=
    rfl
  rw [hpush]
  simp [pushEntry,pushEntryRecursive,MenuEntry.fields,MenuEntry.children]

/-- With the menu as parsed, `Down` highlights `Child` and `Enter` boots `B`. -/
theorem down_boots_unseen :
    ∃ loop, run (uefiPoll asciiPlatform directoryConfig) (startExpanded directoryConfig []) [.down] =
        .more loop ∧
      uefiPoll asciiPlatform directoryConfig loop .enter = .done 1 ∧
      ((flattenEntries directoryConfig.entries loop.state)[loop.state.selectedIdx]?).map
        (fun row => row.entry.fields.name) = some "Child".toList ∧
      (directoryConfig.entries[1]?).map (fun entry => entry.fields.name) = some "B".toList ∧
      ¬BootsHighlighted directoryConfig loop.state 1 := by
  have hidx : (selectDown asciiPlatform directoryConfig
      (startExpanded directoryConfig []).state).selectedIdx = 1 := by
    rw [selectDown_idx _ _ _ (by simp [directoryConfig_entries])]
    simp [directoryConfig_entries,startExpanded,startState_idx]
  have hediting : (selectDown asciiPlatform directoryConfig
      (startExpanded directoryConfig []).state).editing = false := by
    rw [selectDown_editing]
    exact startState_editing directoryConfig
  refine ⟨⟨0,selectDown asciiPlatform directoryConfig (startExpanded directoryConfig []).state⟩,
    rfl,?_,?_,?_,?_⟩
  · simp [uefiPoll,uefiKey,hediting,hidx]
  · rw [hidx,directoryConfig_entries]
    simp [flattenEntries,flattenRecursive,flattenEntry,shownExpanded,MenuEntry.fields,
      MenuEntry.children]
  · rw [directoryConfig_entries]
    rfl
  · unfold BootsHighlighted
    rw [hidx,directoryConfig_entries]
    simp [flattenEntries,flattenRecursive,flattenEntry,shownExpanded,MenuEntry.fields,
      MenuEntry.children,FlatEntry.reference]

end Zamak.MenuTree
