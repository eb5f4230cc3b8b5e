import Zamak.IsoDriver
import Zamak.MenuKeys
import Zamak.MultibootInfo

/-! # The editor in the menu loops

`handle_editor_key` honours the lock and the loops do not call it: they open and close the
editor and fill its buffer themselves. Three characters keep their meaning in the menu while
the editor is open, and what is booted is the entry of the configuration. -/

set_option autoImplicit false

namespace Zamak.MenuEditor
open Zamak.ConfigText Zamak.ConfigParse Zamak.BootFlow Zamak.PolledRuns Zamak.MenuLoops
open Zamak.MenuKeys
open Zamak.IsoDriver (eqIgnoreAsciiCase)
open Zamak.MultibootInfo (asBytes)

section Open
variable (platform : Platform) (config : Config)

def opened (state : MenuState) (entry : MenuEntry) : MenuState :=
  { state with editing := true, editBuffer := entry.fields.cmdline }

theorem uefiPoll_opens (loop : Loop) (key : Key) (entry : MenuEntry) (hkey : edits key = true)
    (hclosed : loop.state.editing = false)
    (hentry : config.entries[loop.state.selectedIdx]? = some entry) :
    uefiPoll platform config loop key = .more ⟨0,opened loop.state entry⟩ := by
  have hedit : uefiPoll platform config loop .edit = .more ⟨0,opened loop.state entry⟩ := by
    simp [uefiPoll,uefiKey,hclosed,hentry,opened]
  rcases (edits_iff key).mp hkey with rfl | rfl
  · exact hedit
  · exact hedit

theorem biosPoll_opens (loop : Loop) (key : Key) (hkey : edits key = true)
    (hclosed : loop.state.editing = false) :
    ∃ state, biosPoll platform config loop key = .more ⟨0,state⟩ ∧ state.editing = true ∧
      ∀ entry, config.entries[loop.state.selectedIdx]? = some entry →
        state = opened loop.state entry := by
  have hedit : ∃ state, biosPoll platform config loop .edit = .more ⟨0,state⟩ ∧
      state.editing = true ∧ ∀ entry, config.entries[loop.state.selectedIdx]? = some entry →
        state = opened loop.state entry := by
    cases hentry : config.entries[loop.state.selectedIdx]? with
    | some entry =>
      refine ⟨opened loop.state entry,?_,rfl,fun other hother => ?_⟩
      · simp [biosPoll,biosKey,biosTick,hclosed,hentry,opened]
      · rw [Option.some.inj hother]
    | none =>
      refine ⟨{ loop.state with editing := true },?_,rfl,fun other hother => by cases hother⟩
      simp [biosPoll,biosKey,biosTick,hclosed,hentry]
  rcases (edits_iff key).mp hkey with rfl | rfl
  · exact hedit
  · exact hedit

end Open

section Locked
variable (platform : Platform) (config : Config)

/-- The loops before their first poll, from `MenuState::new_locked`. -/
def lockedLoop : Loop :=
  { timeRemaining := config.timeout*10%2^64, state := MenuState.newLocked config.timeout }

/-- The editor is closed and its buffer empty, as far as the menu has come. -/
def Locked : Poll → Prop
  | .more loop => loop.state.editing = false ∧ loop.state.editBuffer = []
  | _ => True

/-- A key that does not open the editor of the UEFI loop: another key, or there is no entry
to edit, which stops the loop. -/
def UefiKeepsLock (loop : Loop) (key : Key) : Prop :=
  edits key = true → config.entries[loop.state.selectedIdx]? = none

/-- A key that does not open the editor of the BIOS loop. -/
def BiosKeepsLock (_loop : Loop) (key : Key) : Prop := edits key = false

theorem stays_locked (key : Key) (before after : MenuState) (time : ℕ)
    (h : Stays platform config key before after) (hkey : edits key = false)
    (hlocked : before.editing = false ∧ before.editBuffer = []) : Locked (.more ⟨time,after⟩) := by
  have hclosed := h.closed hkey hlocked.1
  exact ⟨hclosed.1,hclosed.2.trans hlocked.2⟩

theorem uefiPoll_locked_iff (loop : Loop) (key : Key) (h : Locked (.more loop)) :
    UefiKeepsLock config loop key ↔ Locked (uefiPoll platform config loop key) := by
  cases hkey : edits key with
  | true =>
    cases hentry : config.entries[loop.state.selectedIdx]? with
    | some entry =>
      rw [uefiPoll_opens platform config loop key entry hkey h.1 hentry]
      simp [UefiKeepsLock,hkey,hentry,Locked,opened]
    | none =>
      have hnone : key ≠ .none := by
        rintro rfl
        cases hkey
      rw [uefiPoll_key platform config loop key hnone,
        uefiKey_missing platform config ⟨0,loop.state⟩ key hkey h.1 hentry]
      exact ⟨fun _ => trivial,fun _ _ => hentry⟩
  | false =>
    have hguard : UefiKeepsLock config loop key := fun htrue => by simp [hkey] at htrue
    refine ⟨fun _ => ?_,fun _ => hguard⟩
    by_cases hnone : key = .none
    · rw [hnone,uefiPoll_none]
      split
      · trivial
      · exact h
    · rw [uefiPoll_key platform config loop key hnone]
      rcases uefiKey_roles platform config ⟨0,loop.state⟩ key with
        ⟨state,hmore,hstays⟩ | ⟨-,-,hdone⟩ | ⟨hedits,-⟩
      · rw [hmore]
        exact stays_locked platform config key _ state 0 hstays hkey h
      · rw [hdone]
        trivial
      · simp [hkey] at hedits

theorem biosPoll_locked_iff (loop : Loop) (key : Key) (h : Locked (.more loop)) :
    BiosKeepsLock loop key ↔ Locked (biosPoll platform config loop key) := by
  cases hkey : edits key with
  | true =>
    obtain ⟨state,hopen,hediting,-⟩ := biosPoll_opens platform config loop key hkey h.1
    rw [hopen]
    simp [BiosKeepsLock,hkey,Locked,hediting]
  | false =>
    refine ⟨fun _ => ?_,fun _ => hkey⟩
    unfold biosPoll
    rcases biosKey_roles platform config loop key with ⟨state,hmore,hstays⟩ | ⟨-,-,hdone⟩
    · rw [hmore]
      generalize (if stops key then 0 else loop.timeRemaining) = time
      simp only [biosTick]
      split
      · split
        · trivial
        · exact stays_locked platform config key _ state _ hstays hkey h
      · exact stays_locked platform config key _ state _ hstays hkey h
    · rw [hdone]
      trivial

/-- From a locked start the editor stays closed and its buffer empty exactly as long as no
key that is read opens it. -/
theorem locked_iff (keys : List Key) :
    ((∀ read, read <+: keys →
        Locked (run (uefiPoll platform config) (lockedLoop config) read)) ↔
      Along (uefiPoll platform config) (UefiKeepsLock config) (lockedLoop config) keys) ∧
    ((∀ read, read <+: keys →
        Locked (run (biosPoll platform config) (lockedLoop config) read)) ↔
      Along (biosPoll platform config) BiosKeepsLock (lockedLoop config) keys) := by
  have hstart : Locked (.more (lockedLoop config)) := ⟨rfl,rfl⟩
  constructor
  · exact (along_iff (uefiPoll platform config) (UefiKeepsLock config) (fun _ => True) Locked
      (fun _ _ _ _ _ => trivial) (fun loop key _ => uefiPoll_locked_iff platform config loop key)
      (lockedLoop config) keys trivial hstart).symm
  · exact (along_iff (biosPoll platform config) BiosKeepsLock (fun _ => True) Locked
      (fun _ _ _ _ _ => trivial) (fun loop key _ => biosPoll_locked_iff platform config loop key)
      (lockedLoop config) keys trivial hstart).symm

end Locked

/-- `e` opens the locked editor of both loops. -/
theorem locked_opens :
    ¬Locked (run (uefiPoll asciiPlatform twoEntries) (lockedLoop twoEntries) [.edit]) ∧
    ¬Locked (run (biosPoll asciiPlatform twoEntries) (lockedLoop twoEntries) [.edit]) := by
  constructor
  · intro h
    exact absurd h.1 (by decide)
  · intro h
    exact absurd h.1 (by decide)

inductive Firmware where
  | uefi
  | bios
  deriving DecidableEq

def poll (platform : Platform) (config : Config) : Firmware → Loop → Key → Poll
  | .uefi => uefiPoll platform config
  | .bios => biosPoll platform config

/-- The command line that an entry is booted with. The UEFI loader, built for x86-64, hands it
to a Linux kernel only and cuts it at a page; the BIOS loader puts it in the kernel file of
every entry. -/
def handedCmdline : Firmware → MenuEntry → Option (List UInt8)
  | .uefi, entry =>
    if eqIgnoreAsciiCase entry.fields.protocol "linux".toList then
      some ((asBytes entry.fields.cmdline).take 0xFFF)
    else none
  | .bios, entry => some (asBytes entry.fields.cmdline)

def HandsCmdline (firmware : Firmware) (entry : MenuEntry) : Prop :=
  firmware = .uefi → eqIgnoreAsciiCase entry.fields.protocol "linux".toList = true ∧
    (asBytes entry.fields.cmdline).length ≤ 0xFFF

theorem handedCmdline_own (firmware : Firmware) (entry : MenuEntry) :
    handedCmdline firmware entry = some (asBytes entry.fields.cmdline) ↔
      HandsCmdline firmware entry := by
  cases firmware with
  | bios => exact iff_of_true rfl (by rintro ⟨⟩)
  | uefi =>
    have hcut : some ((asBytes entry.fields.cmdline).take 0xFFF) =
        some (asBytes entry.fields.cmdline) ↔ (asBytes entry.fields.cmdline).length ≤ 0xFFF := by
      rw [Option.some.injEq,List.take_eq_self_iff]
    by_cases hlinux : eqIgnoreAsciiCase entry.fields.protocol "linux".toList = true
    · rw [handedCmdline,if_pos hlinux,hcut]
      exact ⟨fun h _ => ⟨hlinux,h⟩,fun h => (h rfl).2⟩
    · rw [handedCmdline,if_neg hlinux]
      constructor
      · intro h
        cases h
      · intro h
        exact absurd (h rfl).1 hlinux

theorem handedCmdline_length (firmware : Firmware) (entry : MenuEntry) (bytes : List UInt8)
    (h : handedCmdline firmware entry = some bytes) :
    bytes.length ≤ (asBytes entry.fields.cmdline).length := by
  cases firmware with
  | bios => exact Nat.le_of_eq (congrArg List.length (Option.some.inj h)).symm
  | uefi =>
    simp only [handedCmdline] at h
    split at h
    · rw [← Option.some.inj h]
      exact List.length_take_le' _ _
    · cases h

theorem handedCmdline_edited (firmware : Firmware) (entry : MenuEntry) (s : Text) :
    handedCmdline firmware entry = some (asBytes (entry.fields.cmdline++s)) ↔
      s = [] ∧ HandsCmdline firmware entry := by
  constructor
  · intro h
    have hlength := handedCmdline_length firmware entry _ h
    have hempty : s = [] := by
      cases s with
      | nil => rfl
      | cons c s =>
        have hc := c.utf8Size_pos
        simp only [asBytes,List.flatMap_append,List.flatMap_cons,List.length_append,
          String.length_utf8EncodeChar] at hlength
        omega
    refine ⟨hempty,(handedCmdline_own firmware entry).mp ?_⟩
    rwa [hempty,List.append_nil] at h
  · rintro ⟨rfl,hown⟩
    rw [List.append_nil]
    exact (handedCmdline_own firmware entry).mpr hown

def Printable (c : Char) : Prop := 0x20 ≤ c.toNat ∧ ¬(0x7F ≤ c.toNat ∧ c.toNat < 0xA0)

def Plain (c : Char) : Prop := c ≠ 'k' ∧ c ≠ 'j' ∧ c ≠ 'i'

section Typing
variable (platform : Platform) (config : Config) (firmware : Firmware)

theorem poll_opens (loop : Loop) (opener : Key) (entry : MenuEntry)
    (hopener : edits opener = true) (hclosed : loop.state.editing = false)
    (hentry : config.entries[loop.state.selectedIdx]? = some entry) :
    poll platform config firmware loop opener = .more ⟨0,opened loop.state entry⟩ := by
  cases firmware with
  | uefi => exact uefiPoll_opens platform config loop opener entry hopener hclosed hentry
  | bios =>
    obtain ⟨state,hopen,-,hstate⟩ := biosPoll_opens platform config loop opener hopener hclosed
    rw [← hstate entry hentry]
    exact hopen

theorem poll_plain (state : MenuState) (hediting : state.editing = true) (c : Char)
    (hprint : Printable c) (hplain : Plain c) :
    poll platform config firmware ⟨0,state⟩ (.char c) = .more ⟨0,MenuState.push state c⟩ := by
  obtain ⟨hk,hj,hi⟩ := hplain
  have hnewline : c ≠ '\n' := by
    rintro rfl
    exact absurd hprint.1 (by decide)
  cases firmware with
  | uefi => simp [poll,uefiPoll,uefiKey,hediting]
  | bios => simp [poll,biosPoll,biosKey,biosTick,hediting,hnewline]

theorem poll_taken (state : MenuState) (hediting : state.editing = true) (c : Char)
    (htaken : ¬Plain c) (loop : Loop)
    (h : poll platform config firmware ⟨0,state⟩ (.char c) = .more loop) :
    ¬(loop.state.editing = true ∧ loop.state.editBuffer = state.editBuffer++[c]) := by
  have hlost : ∀ after : MenuState, after.editBuffer = state.editBuffer →
      ¬(after.editing = true ∧ after.editBuffer = state.editBuffer++[c]) := by
    rintro after hsame ⟨-,hgrown⟩
    have hlength := congrArg List.length (hsame.symm.trans hgrown)
    simp at hlength
  have hwhich : c = 'k' ∨ c = 'j' ∨ c = 'i' := by
    by_contra hnone
    simp only [not_or] at hnone
    exact htaken hnone
  rcases hwhich with rfl | rfl | rfl
  · have hup : poll platform config firmware ⟨0,state⟩ (.char 'k') = .more ⟨0,selectUp state⟩ := by
      cases firmware <;> rfl
    rw [← Outcome.more.inj (hup.symm.trans h)]
    exact hlost _ (selectUp_editBuffer state)
  · have hdown : poll platform config firmware ⟨0,state⟩ (.char 'j') =
        .more ⟨0,selectDown platform config state⟩ := by
      cases firmware <;> rfl
    rw [← Outcome.more.inj (hdown.symm.trans h)]
    exact hlost _ (selectDown_editBuffer platform config state)
  · have hclose : poll platform config firmware ⟨0,state⟩ (.char 'i') =
        .more ⟨0,{ state with editing := false }⟩ := by
      cases firmware with
      | uefi => simp [poll,uefiPoll,uefiKey,hediting]
      | bios => simp [poll,biosPoll,biosKey,biosTick,hediting]
    rw [← Outcome.more.inj (hclose.symm.trans h)]
    simp

def typed (s : Text) : List Key := s.map Key.char

/-- What is typed after the given keys is kept: after every character the editor is open on
the same entry, with the buffer grown by what was typed. -/
def KeptFrom (loop : Loop) (keys : List Key) (selectedIdx : ℕ) (buffer s : Text) : Prop :=
  ∀ read, read <+: s → ∃ loop', run (poll platform config firmware) loop (keys++typed read) =
      .more loop' ∧ loop'.state.editing = true ∧ loop'.state.selectedIdx = selectedIdx ∧
    loop'.state.editBuffer = buffer++read

theorem run_plain (s : Text) (hprint : ∀ c ∈ s, Printable c) (hplain : ∀ c ∈ s, Plain c)
    (state : MenuState) (hediting : state.editing = true) :
    run (poll platform config firmware) ⟨0,state⟩ (typed s) =
      .more ⟨0,{ state with editBuffer := state.editBuffer++s }⟩ := by
  induction s generalizing state with
  | nil => simp [typed,run]
  | cons c s ih =>
    have hc := poll_plain platform config firmware state hediting c
      (hprint c List.mem_cons_self) (hplain c List.mem_cons_self)
    have hrest := ih (fun d hd => hprint d (List.mem_cons_of_mem c hd))
      (fun d hd => hplain d (List.mem_cons_of_mem c hd)) (MenuState.push state c) hediting
    rw [typed,List.map_cons,run_cons _ _ _ _ _ hc,← typed,hrest]
    simp [MenuState.push]

theorem keptFrom_cons (c : Char) (s : Text) (hprint : Printable c) (state : MenuState)
    (hediting : state.editing = true)
    (h : KeptFrom platform config firmware ⟨0,state⟩ [] state.selectedIdx state.editBuffer
      (c::s)) :
    Plain c ∧ KeptFrom platform config firmware ⟨0,MenuState.push state c⟩ [] state.selectedIdx
      (state.editBuffer++[c]) s := by
  have hplain : Plain c := by
    by_contra htaken
    obtain ⟨loop,hrun,hopen,-,hbuffer⟩ :=
      h [c] (List.prefix_cons_iff.mpr (.inr ⟨[],rfl,List.nil_prefix⟩))
    obtain ⟨next,hstep,hnil⟩ := run_more _ _ _ _ _ hrun
    have hnext : next = loop := Outcome.more.inj hnil
    exact poll_taken platform config firmware state hediting c htaken loop (hnext ▸ hstep)
      ⟨hopen,hbuffer⟩
  refine ⟨hplain,fun read hread => ?_⟩
  obtain ⟨loop,hrun,hopen,hidx,hbuffer⟩ :=
    h (c::read) (List.prefix_cons_iff.mpr (.inr ⟨read,rfl,hread⟩))
  have hc := poll_plain platform config firmware state hediting c hprint hplain
  refine ⟨loop,?_,hopen,hidx,hbuffer.trans (List.append_cons _ _ _)⟩
  rw [List.nil_append,← run_cons _ _ _ _ _ hc]
  exact hrun

theorem keptFrom_iff (s : Text) (hprint : ∀ c ∈ s, Printable c) (state : MenuState)
    (hediting : state.editing = true) :
    KeptFrom platform config firmware ⟨0,state⟩ [] state.selectedIdx state.editBuffer s ↔
      ∀ c ∈ s, Plain c := by
  constructor
  · intro hkept
    induction s generalizing state with
    | nil => exact fun c hc => absurd hc List.not_mem_nil
    | cons c s ih =>
      obtain ⟨hc,hrest⟩ := keptFrom_cons platform config firmware c s
        (hprint c List.mem_cons_self) state hediting hkept
      have hs := ih (fun d hd => hprint d (List.mem_cons_of_mem c hd))
        (MenuState.push state c) hediting hrest
      exact List.forall_mem_cons.mpr ⟨hc,hs⟩
  · intro hplain read hread
    have hsub : ∀ c ∈ read, c ∈ s := fun c hc => hread.subset hc
    refine ⟨_,run_plain platform config firmware read (fun c hc => hprint c (hsub c hc))
      (fun c hc => hplain c (hsub c hc)) state hediting,hediting,rfl,rfl⟩

theorem poll_enter (state : MenuState) (hediting : state.editing = true) :
    poll platform config firmware ⟨0,state⟩ .enter =
        .more ⟨0,{ state with editing := false }⟩ ∧
      poll platform config firmware ⟨0,{ state with editing := false }⟩ .enter =
        .done state.selectedIdx := by
  cases firmware with
  | uefi => simp [poll,uefiPoll,uefiKey,hediting]
  | bios => simp [poll,biosPoll,biosKey,biosTick,hediting]

/-- If `Enter` closes the editor and a second one boots, the entry is booted with the command
line and the text typed after it. -/
def BootsEdited (loop : Loop) (keys : List Key) (cmdline s : Text) : Prop :=
  ∀ loop' selectedIdx,
    run (poll platform config firmware) loop (keys++typed s++[.enter]) = .more loop' →
    loop'.state.editing = false →
    poll platform config firmware loop' .enter = .done selectedIdx →
    (config.entries[selectedIdx]?).bind (handedCmdline firmware) = some (asBytes (cmdline++s))

theorem bootsEdited_plain (s : Text) (hprint : ∀ c ∈ s, Printable c)
    (hplain : ∀ c ∈ s, Plain c) (state : MenuState) (hediting : state.editing = true)
    (entry : MenuEntry) (hentry : config.entries[state.selectedIdx]? = some entry)
    (cmdline : Text) :
    BootsEdited platform config firmware ⟨0,state⟩ [] cmdline s ↔
      handedCmdline firmware entry = some (asBytes (cmdline++s)) := by
  have htyped := run_plain platform config firmware s hprint hplain state hediting
  obtain ⟨hclose,hboot⟩ := poll_enter platform config firmware
    { state with editBuffer := state.editBuffer++s } hediting
  have hrun : run (poll platform config firmware) ⟨0,state⟩ ([]++typed s++[.enter]) =
      .more ⟨0,{ state with editBuffer := state.editBuffer++s, editing := false }⟩ := by
    rw [List.nil_append,run_append _ _ _ _ _ htyped,run_cons _ _ _ _ _ hclose]
    rfl
  constructor
  · intro h
    have hhanded := h _ _ hrun rfl hboot
    rwa [hentry] at hhanded
  · intro h loop' selectedIdx hloop _ hdone
    rw [← Outcome.more.inj (hrun.symm.trans hloop)] at hdone
    rw [← Outcome.done.inj (hboot.symm.trans hdone),hentry]
    exact h

/-- Typed text is kept exactly when it has none of the characters of the menu, and what boots
is the edited command line only where nothing was typed and the entry is booted with its own. -/
theorem typedText_iff (loop : Loop) (opener : Key) (entry : MenuEntry) (s : Text)
    (hclosed : loop.state.editing = false) (hopener : edits opener = true)
    (hentry : config.entries[loop.state.selectedIdx]? = some entry)
    (hprint : ∀ c ∈ s, Printable c) :
    (KeptFrom platform config firmware loop [opener] loop.state.selectedIdx
        entry.fields.cmdline s ↔ ∀ c ∈ s, Plain c) ∧
    ((KeptFrom platform config firmware loop [opener] loop.state.selectedIdx
          entry.fields.cmdline s ∧
        BootsEdited platform config firmware loop [opener] entry.fields.cmdline s) ↔
      s = [] ∧ HandsCmdline firmware entry) := by
  have hopen := poll_opens platform config firmware loop opener entry hopener hclosed hentry
  have hfrom : ∀ keys, run (poll platform config firmware) loop (opener::keys) =
      run (poll platform config firmware) ⟨0,opened loop.state entry⟩ keys :=
    fun keys => run_cons _ _ _ _ _ hopen
  have hkept : KeptFrom platform config firmware loop [opener] loop.state.selectedIdx
      entry.fields.cmdline s ↔ ∀ c ∈ s, Plain c := by
    rw [← keptFrom_iff platform config firmware s hprint (opened loop.state entry) rfl]
    simp only [KeptFrom,List.singleton_append,List.nil_append,hfrom]
    rfl
  refine ⟨hkept,?_⟩
  have hboots : (∀ c ∈ s, Plain c) →
      (BootsEdited platform config firmware loop [opener] entry.fields.cmdline s ↔
        s = [] ∧ HandsCmdline firmware entry) := by
    intro hplain
    rw [← handedCmdline_edited,← bootsEdited_plain platform config firmware s hprint hplain
      (opened loop.state entry) rfl entry hentry]
    simp only [BootsEdited,List.cons_append,List.nil_append,hfrom]
  constructor
  · rintro ⟨hk,hb⟩
    exact (hboots (hkept.mp hk)).mp hb
  · rintro ⟨rfl,hown⟩
    have hplain : ∀ c ∈ ([] : Text), Plain c := fun c hc => absurd hc List.not_mem_nil
    exact ⟨hkept.mpr hplain,(hboots hplain).mpr ⟨rfl,hown⟩⟩

end Typing

def linuxConfig : Config :=
  parse asciiPlatform "x86_64".toList "/A\nPROTOCOL=linux\nCMDLINE=ro".toList

def linuxEntry : MenuEntry :=
  .mk { name := "A".toList, depth := 1, protocol := "linux".toList, cmdline := "ro".toList } []

/-- `x` is kept, and with nothing typed the entry boots with the command line that it has. -/
theorem typedText_kept :
    KeptFrom asciiPlatform linuxConfig .bios (startLoop linuxConfig) [.edit] 0 "ro".toList
        "x".toList ∧
    KeptFrom asciiPlatform linuxConfig .uefi (startLoop linuxConfig) [.edit] 0 "ro".toList [] ∧
    BootsEdited asciiPlatform linuxConfig .uefi (startLoop linuxConfig) [.edit] "ro".toList [] := by
  have hown : HandsCmdline .uefi linuxEntry := fun _ => ⟨by decide,by decide⟩
  constructor
  · apply (typedText_iff asciiPlatform linuxConfig .bios (startLoop linuxConfig) .edit linuxEntry
      "x".toList rfl rfl rfl _).1.mpr
    · intro c hc
      rw [List.mem_singleton.mp hc]
      exact ⟨by decide,by decide,by decide⟩
    · intro c hc
      rw [List.mem_singleton.mp hc]
      exact ⟨by decide,by decide⟩
  · exact (typedText_iff asciiPlatform linuxConfig .uefi (startLoop linuxConfig) .edit linuxEntry
      [] rfl rfl rfl (fun c hc => absurd hc List.not_mem_nil)).2.mpr ⟨rfl,hown⟩

theorem typed_down (firmware : Firmware) :
    ¬KeptFrom asciiPlatform linuxConfig firmware (startLoop linuxConfig) [.edit] 0 "ro".toList
      "j".toList := by
  intro h
  obtain ⟨loop,hrun,-,-,hbuffer⟩ := h "j".toList (List.prefix_refl _)
  have hdown : run (poll asciiPlatform linuxConfig firmware) (startLoop linuxConfig)
      ([.edit]++typed "j".toList) =
        .more ⟨0,selectDown asciiPlatform linuxConfig
          (opened (startState linuxConfig) linuxEntry)⟩ := by
    cases firmware <;> rfl
  rw [← Outcome.more.inj (hdown.symm.trans hrun),selectDown_editBuffer] at hbuffer
  exact absurd hbuffer (by decide)

theorem typed_forgotten (firmware : Firmware) :
    ¬BootsEdited asciiPlatform linuxConfig firmware (startLoop linuxConfig) [.edit] "ro".toList
      "x".toList := by
  intro h
  have hhanded : handedCmdline firmware linuxEntry = some (asBytes "rox".toList) := by
    cases firmware with
    | uefi => exact h _ 0 rfl rfl rfl
    | bios => exact h _ 0 rfl rfl rfl
  have hlength := handedCmdline_length firmware linuxEntry _ hhanded
  exact absurd hlength (by decide)

/-- `j` moves the selection and is not typed, and `x` is typed and then forgotten. -/
theorem typedText_lost :
    (¬KeptFrom asciiPlatform linuxConfig .uefi (startLoop linuxConfig) [.edit] 0 "ro".toList
        "j".toList ∧
      ¬KeptFrom asciiPlatform linuxConfig .bios (startLoop linuxConfig) [.edit] 0 "ro".toList
        "j".toList) ∧
    ¬BootsEdited asciiPlatform linuxConfig .uefi (startLoop linuxConfig) [.edit] "ro".toList
        "x".toList ∧
    ¬BootsEdited asciiPlatform linuxConfig .bios (startLoop linuxConfig) [.edit] "ro".toList
        "x".toList :=
  ⟨⟨typed_down .uefi,typed_down .bios⟩,typed_forgotten .uefi,typed_forgotten .bios⟩

end Zamak.MenuEditor
