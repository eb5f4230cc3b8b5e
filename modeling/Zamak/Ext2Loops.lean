import Zamak.Ext2Driver

/-! # When the ext2 driver comes back

The pointer of a directory block never goes down, so its walk ends unless it stays where
it is. The loop over the blocks counts in 32 bits; it comes back to the first block only
if the blocks are so large that twelve of them do not fit. -/

set_option autoImplicit false

namespace Zamak.Ext2Loops
open Zamak.ConfigText Zamak.PartialSteps Zamak.Ext2Driver
open Zamak.BootFlow (fromUtf8)
open Zamak.IsoDriver (FileEntry)

section Block
variable (buf : List UInt8) (name : Text)

/-- The entry at a place is one the walk may come to: its header is inside the block, and
if it is in use so is its name, and the walk can leave it. -/
def EntrySound (pos : ℕ) : Prop :=
  pos < buf.length → pos+8 ≤ buf.length ∧
    ((headerAt buf pos).inode ≠ 0 →
      pos+8+(headerAt buf pos).nameLen.toNat ≤ buf.length ∧
      (fromUtf8 (nameAt buf pos) = some name ∨ (headerAt buf pos).recLen ≠ 0))

def BlockSound : Prop :=
  ∀ n pos, visit (next (entryTurn buf name)) n 0 = some pos → EntrySound buf name pos

theorem entryTurn_go {pos pos' : ℕ} (h : entryTurn buf name pos = .go pos') :
    pos < buf.length ∧ (headerAt buf pos).inode ≠ 0 ∧ fromUtf8 (nameAt buf pos) ≠ some name ∧
      pos' = pos+(headerAt buf pos).recLen.toNat := by
  unfold entryTurn at h
  split_ifs at h with hpos hheader hunused hname hfound
  cases h
  exact ⟨hpos,hunused,hfound,rfl⟩

theorem entryTurn_outside {pos : ℕ} :
    entryTurn buf name pos = .stop .outside ↔ pos < buf.length ∧
      (buf.length < pos+8 ∨ (headerAt buf pos).inode ≠ 0 ∧
        buf.length < pos+8+(headerAt buf pos).nameLen.toNat) := by
  unfold entryTurn
  split_ifs with hpos hheader hunused hname hfound
  · simp [hpos,hheader]
  · simp [hheader,hunused]
  · exact iff_of_true rfl ⟨hpos,Or.inr ⟨hunused,hname⟩⟩
  · simp [hheader,hname]
  · simp [hheader,hname]
  · simp [hpos]

def Stalls : Prop :=
  ∃ n pos, visit (next (entryTurn buf name)) n 0 = some pos ∧
    next (entryTurn buf name) pos = some pos

theorem run_of_stalls (h : Stalls buf name) (fuel : ℕ) :
    run (entryTurn buf name) fuel 0 = none := by
  obtain ⟨n,pos,hvisit,hstay⟩ := h
  have hback : Returns (next (entryTurn buf name)) 0 := by
    refine ⟨n,n+1,pos,Nat.lt_succ_self n,hvisit,?_⟩
    rw [visit_succ,hvisit,Option.bind_some,hstay]
  exact (run_eq_none_iff _ fuel 0).mpr (visit_of_returns _ 0 hback fuel)

theorem scanBlock_eq_none_iff : scanBlock buf name = none ↔ Stalls buf name := by
  constructor
  · intro h
    by_contra hmoves
    obtain ⟨last,hlast⟩ := (run_eq_none_iff _ _ 0).mp h
    rw [visit_succ] at hlast
    obtain ⟨pos,hpos,hstep⟩ := Option.bind_eq_some_iff.mp hlast
    have hup : ∀ n x y, visit (next (entryTurn buf name)) n 0 = some x →
        next (entryTurn buf name) x = some y → x < y := by
      intro n x y hx hy
      obtain ⟨-,-,-,hto⟩ := entryTurn_go buf name ((next_eq_some _).mp hy)
      have hne : x ≠ y := by
        rintro rfl
        exact hmoves ⟨n,x,hx,hy⟩
      omega
    have hclimb := visit_climbs _ 0 hup buf.length pos hpos
    have hinside := (entryTurn_go buf name ((next_eq_some _).mp hstep)).1
    omega
  · intro h
    exact run_of_stalls buf name h _

theorem scanBlock_endless (h : scanBlock buf name = none) (fuel : ℕ) :
    run (entryTurn buf name) fuel 0 = none :=
  run_of_stalls buf name ((scanBlock_eq_none_iff buf name).mp h) fuel

theorem scanBlock_eq_some_iff (result : Scan) :
    scanBlock buf name = some result ↔ ∃ fuel, run (entryTurn buf name) fuel 0 = some result := by
  constructor
  · exact fun h => ⟨_,h⟩
  · rintro ⟨fuel,h⟩
    cases hscan : scanBlock buf name with
    | none =>
      rw [scanBlock_endless buf name hscan fuel] at h
      cases h
    | some other => rw [run_unique _ _ _ 0 _ _ hscan h]

theorem walk_ends_iff :
    (∃ n, visit (next (entryTurn buf name)) n 0 = none) ↔ ¬Stalls buf name := by
  rw [← run_ends_iff,← scanBlock_eq_none_iff]
  constructor
  · rintro ⟨fuel,result,h⟩
    rw [(scanBlock_eq_some_iff buf name result).mpr ⟨fuel,h⟩]
    exact Option.some_ne_none result
  · intro h
    obtain ⟨result,hscan⟩ := Option.ne_none_iff_exists'.mp h
    exact ⟨_,result,hscan⟩

theorem scanBlock_sound_iff :
    (∃ result, scanBlock buf name = some result ∧ result ≠ .outside) ↔ BlockSound buf name := by
  have havoids := run_avoids_iff (entryTurn buf name) (· = .outside) 0
  rw [walk_ends_iff] at havoids
  constructor
  · rintro ⟨result,hscan,hinside⟩ n pos hvisit hpos
    obtain ⟨hmoves,hgood⟩ := havoids.mp ⟨_,result,hscan,hinside⟩
    have hin : entryTurn buf name pos ≠ .stop .outside := fun hout =>
      hgood n pos .outside hvisit hout rfl
    rw [Ne,entryTurn_outside] at hin
    push Not at hin
    obtain ⟨hheader,hname⟩ := hin hpos
    refine ⟨hheader,fun hused => ⟨hname hused,?_⟩⟩
    by_contra hstays
    push Not at hstays
    apply hmoves
    refine ⟨n,pos,hvisit,(next_eq_some _).mpr ?_⟩
    have hname := hname hused
    rw [entryTurn,if_pos hpos,if_neg (by omega),if_neg hused,if_neg (by omega),if_neg hstays.1,
      hstays.2]
    rfl
  · intro hsound
    have hmoves : ¬Stalls buf name := by
      rintro ⟨n,pos,hvisit,hstay⟩
      obtain ⟨hpos,hused,hother,hto⟩ := entryTurn_go buf name ((next_eq_some _).mp hstay)
      rcases ((hsound n pos hvisit hpos).2 hused).2 with hfound | hlong
      · exact hother hfound
      · exact hlong (BitVec.eq_of_toNat_eq (show _ = 0 by omega))
    have hgood : ∀ n pos result, visit (next (entryTurn buf name)) n 0 = some pos →
        entryTurn buf name pos = .stop result → result ≠ .outside := by
      rintro n pos result hvisit hout rfl
      obtain ⟨hpos,hbad⟩ := (entryTurn_outside buf name).mp hout
      obtain ⟨hheader,hname⟩ := hsound n pos hvisit hpos
      rcases hbad with hbad | ⟨hused,hbad⟩
      · omega
      · have := (hname hused).1
        omega
    obtain ⟨fuel,result,hrun,hinside⟩ := havoids.mpr ⟨hmoves,hgood⟩
    exact ⟨result,(scanBlock_eq_some_iff buf name result).mpr ⟨fuel,hrun⟩,hinside⟩

end Block

section Directory
variable (fs : Ext2) (dir : Inode) (name : Text)

def pointer (i : ℕ) : BitVec 32 := dir.block.getD i 0

/-- The search goes on behind a block: a hole, or a block it has walked through. -/
def Passed (i : ℕ) : Prop :=
  pointer dir i = 0 ∨ ∃ buf, readBlock fs (pointer dir i) (zeroBlock fs) = .ok buf ∧
    scanBlock buf name = some .passed

/-- The search comes to a block: it has passed all the blocks before. -/
def Reached (i : ℕ) : Prop :=
  i < 12 ∧ i*fs.blockSize.toNat < dir.size.toNat ∧ ∀ j < i, Passed fs dir name j

/-- The offset comes round to zero: the directory takes up the last block of the range of
32 bits, that is one of the first twelve, and all of them are passed. -/
def WrapsRound : Prop :=
  2^32 ≤ 12*fs.blockSize.toNat ∧ 2^32 < dir.size.toNat+fs.blockSize.toNat ∧
    ∀ i, i*fs.blockSize.toNat < 2^32 → Passed fs dir name i

/-- Every block the search comes to is sound, and its offset does not come round. -/
def DirSound : Prop :=
  (∀ i buf, Reached fs dir name i → pointer dir i ≠ 0 →
    readBlock fs (pointer dir i) (zeroBlock fs) = .ok buf → BlockSound buf name) ∧
  ¬WrapsRound fs dir name

section Turns
variable (hsize : 0 < fs.blockSize.toNat)
include hsize

theorem blockTurn_at (i : ℕ) (hi : i*fs.blockSize.toNat < 2^32) :
    blockTurn fs dir name (BitVec.ofNat 32 (i*fs.blockSize.toNat)) =
      if i*fs.blockSize.toNat < dir.size.toNat then
        if 12 ≤ i then .stop (.returned (.error .fileNotFound))
        else if pointer dir i = 0 then .go (BitVec.ofNat 32 ((i+1)*fs.blockSize.toNat))
        else
          match readBlock fs (pointer dir i) (zeroBlock fs) with
          | .error error => .stop (.returned (.error error))
          | .ok buf =>
            match scanBlock buf name with
            | none => .stop .endless
            | some .outside => .stop (.fault .outside)
            | some (.found inode) => .stop (.returned (.ok inode))
            | some .passed => .go (BitVec.ofNat 32 ((i+1)*fs.blockSize.toNat))
      else .stop (.returned (.error .fileNotFound)) := by
  have hoffset : (BitVec.ofNat 32 (i*fs.blockSize.toNat)).toNat = i*fs.blockSize.toNat := by
    rw [BitVec.toNat_ofNat,Nat.mod_eq_of_lt hi]
  have hless : BitVec.ofNat 32 (i*fs.blockSize.toNat) < dir.size ↔
      i*fs.blockSize.toNat < dir.size.toNat := by rw [BitVec.lt_def,hoffset]
  have hidx : (BitVec.ofNat 32 (i*fs.blockSize.toNat)/fs.blockSize).toNat = i := by
    rw [BitVec.toNat_udiv,hoffset,Nat.mul_div_cancel i hsize]
  have hnext : BitVec.ofNat 32 (i*fs.blockSize.toNat)+fs.blockSize =
      BitVec.ofNat 32 ((i+1)*fs.blockSize.toNat) := by
    rw [Nat.succ_mul,BitVec.ofNat_add,BitVec.ofNat_toNat,BitVec.setWidth_eq]
  have hzero : fs.blockSize ≠ 0 := by
    intro h
    rw [h] at hsize
    exact absurd hsize (by decide)
  simp only [blockTurn,hless,if_neg hzero,hidx,hnext]
  rfl

theorem blockTurn_go_iff (i : ℕ) (hi : i*fs.blockSize.toNat < 2^32) (offset : BitVec 32) :
    blockTurn fs dir name (BitVec.ofNat 32 (i*fs.blockSize.toNat)) = .go offset ↔
      (i < 12 ∧ i*fs.blockSize.toNat < dir.size.toNat ∧ Passed fs dir name i) ∧
        offset = BitVec.ofNat 32 ((i+1)*fs.blockSize.toNat) := by
  rw [blockTurn_at fs dir name hsize i hi]
  by_cases hless : i*fs.blockSize.toNat < dir.size.toNat
  · by_cases htwelve : 12 ≤ i
    · simp [hless,htwelve,Nat.not_lt.mpr htwelve]
    · rw [if_pos hless,if_neg htwelve]
      simp only [hless,Nat.not_le.mp htwelve,true_and,Passed]
      by_cases hhole : pointer dir i = 0
      · simp [hhole,eq_comm]
      · simp only [hhole,if_false,false_or]
        cases hread : readBlock fs (pointer dir i) (zeroBlock fs) with
        | error error => simp
        | ok buf =>
          cases hscan : scanBlock buf name with
          | none => simp [hscan]
          | some scan =>
            cases scan with
            | found inode => simp [hscan]
            | passed => simp [hscan,eq_comm]
            | outside => simp [hscan]
  · simp [hless]

theorem block_visit_iff (n : ℕ) (hn : ∀ j < n, j*fs.blockSize.toNat < 2^32) (offset : BitVec 32) :
    visit (next (blockTurn fs dir name)) n 0 = some offset ↔
      (∀ j < n, j < 12 ∧ j*fs.blockSize.toNat < dir.size.toNat ∧ Passed fs dir name j) ∧
        offset = BitVec.ofNat 32 (n*fs.blockSize.toNat) := by
  induction n generalizing offset with
  | zero =>
    rw [visit,Nat.zero_mul]
    constructor
    · intro h
      exact ⟨fun j hj => absurd hj (Nat.not_lt_zero j),(Option.some.inj h).symm⟩
    · rintro ⟨-,rfl⟩
      rfl
  | succ n ih =>
    have ih := ih (fun j hj => hn j (by omega))
    rw [visit_succ,Option.bind_eq_some_iff]
    constructor
    · rintro ⟨before,hbefore,hstep⟩
      obtain ⟨hall,rfl⟩ := (ih before).mp hbefore
      obtain ⟨hlast,rfl⟩ := (blockTurn_go_iff fs dir name hsize n (hn n (by omega)) offset).mp
        ((next_eq_some _).mp hstep)
      refine ⟨fun j hj => ?_,rfl⟩
      rcases Nat.lt_succ_iff_lt_or_eq.mp hj with hj | rfl
      · exact hall j hj
      · exact hlast
    · rintro ⟨hall,rfl⟩
      refine ⟨_,(ih _).mpr ⟨fun j hj => hall j (by omega),rfl⟩,?_⟩
      exact (next_eq_some _).mpr ((blockTurn_go_iff fs dir name hsize n (hn n (by omega)) _).mpr
        ⟨hall n (by omega),rfl⟩)

/-- Without wrapping, the loop comes to a block it does not pass within twelve steps. -/
theorem block_stops (hwrap : ¬WrapsRound fs dir name) :
    ∃ n, n ≤ 12 ∧ n*fs.blockSize.toNat < 2^32 ∧
      (∀ j < n, j < 12 ∧ j*fs.blockSize.toNat < dir.size.toNat ∧ Passed fs dir name j) ∧
      ¬(n < 12 ∧ n*fs.blockSize.toNat < dir.size.toNat ∧ Passed fs dir name n) := by
  have hsome : ∃ n, n ≤ 12 ∧ n*fs.blockSize.toNat < 2^32 ∧
      ¬(n < 12 ∧ n*fs.blockSize.toNat < dir.size.toNat ∧ Passed fs dir name n) := by
    by_cases hfit : 12*fs.blockSize.toNat < 2^32
    · exact ⟨12,Nat.le_refl 12,hfit,fun h => absurd h.1 (Nat.lt_irrefl 12)⟩
    have hbelow : ∀ n, n*fs.blockSize.toNat < 2^32 → n ≤ 12 := fun n hn =>
      Nat.le_of_lt (Nat.lt_of_mul_lt_mul_right (a := fs.blockSize.toNat) (by omega))
    by_cases hshort : dir.size.toNat+fs.blockSize.toNat ≤ 2^32
    · have hlast := Nat.div_add_mod (2^32-1) fs.blockSize.toNat
      have hrest := Nat.mod_lt (2^32-1) hsize
      rw [Nat.mul_comm] at hlast
      have hless : (2^32-1)/fs.blockSize.toNat*fs.blockSize.toNat < 2^32 := by omega
      exact ⟨_,hbelow _ hless,hless,fun h => absurd h.2.1 (by omega)⟩
    · simp only [WrapsRound,not_and,not_forall] at hwrap
      obtain ⟨i,hi,hnot⟩ := hwrap (by omega) (by omega)
      exact ⟨i,hbelow i hi,hi,fun h => hnot h.2.2⟩
  classical
  obtain ⟨hle,hless,hstop⟩ := Nat.find_spec hsome
  refine ⟨Nat.find hsome,hle,hless,fun j hj => ?_,hstop⟩
  have hmul : j*fs.blockSize.toNat ≤ Nat.find hsome*fs.blockSize.toNat :=
    Nat.mul_le_mul_right _ (Nat.le_of_lt hj)
  by_contra hnot
  exact Nat.find_min hsome hj ⟨by omega,by omega,hnot⟩

theorem run_of_wrapsRound (hwrap : WrapsRound fs dir name) (fuel : ℕ) :
    run (blockTurn fs dir name) fuel 0 = none := by
  obtain ⟨hmany,hlong,hpassed⟩ := hwrap
  have hlog := (blockSize_pos_iff fs).mp hsize
  have hround : 2^32/fs.blockSize.toNat*fs.blockSize.toNat = 2^32 := by
    rw [blockSize_toNat fs hlog]
    exact Nat.div_mul_cancel (Nat.pow_dvd_pow 2 (by omega))
  have hless : ∀ j < 2^32/fs.blockSize.toNat, j*fs.blockSize.toNat+fs.blockSize.toNat ≤ 2^32 := by
    intro j hj
    rw [← Nat.succ_mul,← hround]
    exact Nat.mul_le_mul_right _ hj
  have hback : Returns (next (blockTurn fs dir name)) 0 := by
    refine ⟨0,2^32/fs.blockSize.toNat,0,?_,rfl,?_⟩
    · exact Nat.div_pos (Nat.le_of_lt fs.blockSize.isLt) hsize
    · rw [block_visit_iff fs dir name hsize _ (fun j hj => by have := hless j hj; omega)]
      refine ⟨fun j hj => ?_,by rw [hround]; rfl⟩
      have hj := hless j hj
      refine ⟨?_,by omega,hpassed j (by omega)⟩
      exact Nat.lt_of_mul_lt_mul_right (a := fs.blockSize.toNat) (by omega)
  exact (run_eq_none_iff _ fuel 0).mpr (visit_of_returns _ 0 hback fuel)

theorem findInDir_of_stop (n : ℕ) (hn : n ≤ 12)
    (hpassed : ∀ j < n, j < 12 ∧ j*fs.blockSize.toNat < dir.size.toNat ∧ Passed fs dir name j)
    (outcome : Outcome (BitVec 32))
    (hstop : blockTurn fs dir name (BitVec.ofNat 32 (n*fs.blockSize.toNat)) = .stop outcome) :
    findInDir fs dir name = outcome := by
  have hbound : ∀ j < n, j*fs.blockSize.toNat < 2^32 := fun j hj =>
    Nat.lt_trans (hpassed j hj).2.1 dir.size.isLt
  have hvisit := (block_visit_iff fs dir name hsize n hbound _).mpr ⟨hpassed,rfl⟩
  have hrun := run_of_visit _ n 0 _ outcome hvisit hstop
  rw [findInDir,run_mono _ (n+1) 13 0 outcome hrun (by omega)]
  rfl

theorem findInDir_endless (h : run (blockTurn fs dir name) 13 0 = none) (fuel : ℕ) :
    run (blockTurn fs dir name) fuel 0 = none := by
  by_cases hwrap : WrapsRound fs dir name
  · exact run_of_wrapsRound fs dir name hsize hwrap fuel
  obtain ⟨n,hn,hless,hpassed,hstop⟩ := block_stops fs dir name hsize hwrap
  obtain ⟨last,hlast⟩ := (run_eq_none_iff _ 13 0).mp h
  rw [show 13 = (n+1)+(12-n) by omega] at hlast
  obtain ⟨offset,hoffset⟩ := visit_earlier _ (n+1) (12-n) 0 last hlast
  have hbound : ∀ j < n+1, j*fs.blockSize.toNat < 2^32 := by
    intro j hj
    have : j*fs.blockSize.toNat ≤ n*fs.blockSize.toNat := Nat.mul_le_mul_right _ (by omega)
    omega
  have hall := ((block_visit_iff fs dir name hsize (n+1) hbound offset).mp hoffset).1
  exact (hstop (hall n (Nat.lt_succ_self n))).elim

omit hsize in
theorem reached_before (i : ℕ) (h : Reached fs dir name i) (j : ℕ) (hj : j < i) :
    j < 12 ∧ j*fs.blockSize.toNat < dir.size.toNat ∧ Passed fs dir name j := by
  obtain ⟨htwelve,hless,hpassed⟩ := h
  have : j*fs.blockSize.toNat ≤ i*fs.blockSize.toNat := Nat.mul_le_mul_right _ (Nat.le_of_lt hj)
  exact ⟨by omega,by omega,hpassed j hj⟩

theorem blockTurn_unsound (i : ℕ) (hreached : Reached fs dir name i) (hpointer : pointer dir i ≠ 0)
    (buf : List UInt8) (hread : readBlock fs (pointer dir i) (zeroBlock fs) = .ok buf)
    (hblock : ¬BlockSound buf name) :
    ∃ outcome, blockTurn fs dir name (BitVec.ofNat 32 (i*fs.blockSize.toNat)) = .stop outcome ∧
      ¬outcome.Sound := by
  obtain ⟨htwelve,hless,-⟩ := hreached
  rw [blockTurn_at fs dir name hsize i (Nat.lt_trans hless dir.size.isLt),if_pos hless,
    if_neg (Nat.not_le.mpr htwelve),if_neg hpointer,hread]
  rw [← scanBlock_sound_iff] at hblock
  cases hscan : scanBlock buf name with
  | none => exact ⟨.endless,by simp only [hscan],by rintro ⟨result,h⟩; cases h⟩
  | some scan =>
    have hout : scan = .outside := by
      by_contra hinside
      exact hblock ⟨scan,hscan,hinside⟩
    exact ⟨.fault .outside,by simp only [hscan,hout],by rintro ⟨result,h⟩; cases h⟩

/-- Where the search does not go on, it returns, if the block it looks at is sound. -/
theorem blockTurn_returned (n : ℕ) (hn : n*fs.blockSize.toNat < 2^32)
    (hstop : ¬(n < 12 ∧ n*fs.blockSize.toNat < dir.size.toNat ∧ Passed fs dir name n))
    (hblock : n < 12 → n*fs.blockSize.toNat < dir.size.toNat → pointer dir n ≠ 0 →
      ∀ buf, readBlock fs (pointer dir n) (zeroBlock fs) = .ok buf → BlockSound buf name) :
    ∃ result, blockTurn fs dir name (BitVec.ofNat 32 (n*fs.blockSize.toNat)) =
      .stop (.returned result) := by
  rw [blockTurn_at fs dir name hsize n hn]
  by_cases hmore : n*fs.blockSize.toNat < dir.size.toNat
  · by_cases htwelve : 12 ≤ n
    · exact ⟨_,by rw [if_pos hmore,if_pos htwelve]⟩
    have hnot : ¬Passed fs dir name n := fun h => hstop ⟨by omega,hmore,h⟩
    have hpointer : pointer dir n ≠ 0 := fun h => hnot (Or.inl h)
    rw [if_pos hmore,if_neg htwelve,if_neg hpointer]
    cases hread : readBlock fs (pointer dir n) (zeroBlock fs) with
    | error error => exact ⟨_,rfl⟩
    | ok buf =>
      obtain ⟨scan,hscan,hinside⟩ :=
        (scanBlock_sound_iff buf name).mpr (hblock (by omega) hmore hpointer buf hread)
      simp only [hscan]
      cases scan with
      | found inode => exact ⟨_,rfl⟩
      | passed => exact (hnot (Or.inr ⟨buf,hread,hscan⟩)).elim
      | outside => exact (hinside rfl).elim
  · exact ⟨_,by rw [if_neg hmore]⟩

theorem findInDir_sound_iff : (findInDir fs dir name).Sound ↔ DirSound fs dir name := by
  constructor
  · intro hfind
    constructor
    · intro i buf hreached hpointer hread
      by_contra hblock
      obtain ⟨outcome,hturn,hbad⟩ :=
        blockTurn_unsound fs dir name hsize i hreached hpointer buf hread hblock
      rw [findInDir_of_stop fs dir name hsize i (Nat.le_of_lt hreached.1)
        (reached_before fs dir name i hreached) outcome hturn] at hfind
      exact hbad hfind
    · intro hwrap
      rw [findInDir,run_of_wrapsRound fs dir name hsize hwrap 13] at hfind
      obtain ⟨result,h⟩ := hfind
      cases h
  · rintro ⟨hblocks,hwrap⟩
    obtain ⟨n,hn,hless,hpassed,hstop⟩ := block_stops fs dir name hsize hwrap
    have hbefore : ∀ j < n, Passed fs dir name j := fun j hj => (hpassed j hj).2.2
    obtain ⟨result,hturn⟩ := blockTurn_returned fs dir name hsize n hless hstop
      (fun htwelve hmore hpointer buf => hblocks n buf ⟨htwelve,hmore,hbefore⟩ hpointer)
    exact ⟨result,findInDir_of_stop fs dir name hsize n hn hpassed _ hturn⟩

end Turns

end Directory

section Path
variable (fs : Ext2)

/-- Every directory on the way along a path is sound for the part looked up in it. -/
def PathSound : List Text → BitVec 32 → Prop
  | [], _ => True
  | part::parts, current =>
    if part = [] then PathSound parts current
    else
      ∀ inode, getInode fs current = .returned (.ok inode) → isDirectory inode = true →
        DirSound fs inode part ∧
          ∀ n, findInDir fs inode part = .returned (.ok n) → PathSound parts n

/-- The block size of the superblock fits into 32 bits, and a group has some inodes. -/
def FieldsSound (superblock : Superblock) : Prop :=
  superblock.logBlockSize.toNat < 22 ∧ superblock.inodesPerGroup ≠ 0

theorem div_ne_zero_iff (size : BitVec 32) :
    fs.blockSize/size ≠ 0 ↔ 0 < size.toNat ∧ size.toNat ≤ fs.blockSize.toNat := by
  rw [Ne,← BitVec.toNat_inj,BitVec.toNat_udiv]
  change ¬_ = 0 ↔ _
  rw [Nat.div_eq_zero_iff]
  omega

theorem getInode_sound (h : FieldsSound fs.superblock) (n : BitVec 32) :
    (getInode fs n).Sound := by
  obtain ⟨hlog,hgroup⟩ := h
  have hlarge : 2^10 ≤ fs.blockSize.toNat := by
    rw [blockSize_toNat fs hlog]
    exact Nat.pow_le_pow_right (by decide) (by omega)
  have hdescriptors : fs.blockSize/32 ≠ 0 := (div_ne_zero_iff fs 32).mpr ⟨by decide,by
    change 32 ≤ _
    omega⟩
  have hinodes : fs.blockSize/actualInodeSize fs ≠ 0 := by
    have hsize : actualInodeSize fs = 128 := ite_self 128
    rw [hsize]
    refine (div_ne_zero_iff fs 128).mpr ⟨by decide,?_⟩
    change 128 ≤ _
    omega
  unfold getInode
  by_cases hzero : n = 0
  · rw [if_pos hzero]
    exact Outcome.returned_sound _
  rw [if_neg hzero,if_neg hgroup,Outcome.bind_sound_iff]
  constructor
  · simp only [getBgd,if_neg hdescriptors]
    split
    · exact Outcome.returned_sound _
    · exact Outcome.returned_sound _
  · intro bgd _
    simp only [if_neg hinodes]
    split
    · exact Outcome.returned_sound _
    · exact Outcome.returned_sound _

theorem fieldsSound_of_root (h : (getInode fs 2).Sound) : FieldsSound fs.superblock := by
  rw [getInode,if_neg (by decide)] at h
  have hgroup : fs.superblock.inodesPerGroup ≠ 0 := by
    intro hzero
    rw [if_pos hzero] at h
    obtain ⟨result,h⟩ := h
    cases h
  refine ⟨?_,hgroup⟩
  by_contra hlarge
  rw [if_neg hgroup,Outcome.bind_sound_iff] at h
  obtain ⟨result,hresult⟩ := h.1
  have hzero : fs.blockSize/32 = 0 := by
    rw [blockSize_eq_zero fs (by omega)]
    rfl
  simp only [getBgd,if_pos hzero] at hresult
  cases hresult

theorem findParts_sound_iff (h : FieldsSound fs.superblock) (parts : List Text)
    (current : BitVec 32) : (findParts fs parts current).Sound ↔ PathSound fs parts current := by
  have hsize := (blockSize_pos_iff fs).mpr h.1
  induction parts generalizing current with
  | nil => exact iff_of_true (Outcome.returned_sound _) trivial
  | cons part parts ih =>
    rw [findParts,PathSound]
    by_cases hempty : part = []
    · rw [if_pos hempty,if_pos hempty]
      exact ih current
    rw [if_neg hempty,if_neg hempty,Outcome.bind_sound_iff]
    have hdir : ∀ inode : Inode,
        (if isDirectory inode = true then (findInDir fs inode part).bind (findParts fs parts)
          else .returned (.error .notADirectory) : Outcome (BitVec 32)).Sound ↔
        (isDirectory inode = true → DirSound fs inode part ∧
          ∀ n, findInDir fs inode part = .returned (.ok n) → PathSound fs parts n) := by
      intro inode
      by_cases hd : isDirectory inode = true
      · rw [if_pos hd,Outcome.bind_sound_iff,findInDir_sound_iff fs inode part hsize]
        simp only [ih,hd,forall_const]
      · rw [if_neg hd]
        exact iff_of_true (Outcome.returned_sound _) fun hyes => absurd hyes hd
    simp only [hdir,getInode_sound fs h current,true_and]

theorem root_sound_of_findFile (path : Text) (h : (findFile fs path).Sound) :
    (getInode fs 2).Sound := by
  rw [findFile] at h
  revert h
  induction path.splitOn '/' with
  | nil =>
    intro h
    have hroot := ((Outcome.bind_sound_iff _ _).mp h).2 2 rfl
    exact ((Outcome.bind_sound_iff _ _).mp hroot).1
  | cons part parts ih =>
    intro h
    rw [findParts] at h
    by_cases hempty : part = []
    · rw [if_pos hempty] at h
      exact ih h
    · rw [if_neg hempty] at h
      exact ((Outcome.bind_sound_iff _ _).mp ((Outcome.bind_sound_iff _ _).mp h).1).1

theorem findFile_sound_iff (path : Text) :
    (findFile fs path).Sound ↔
      FieldsSound fs.superblock ∧ PathSound fs (path.splitOn '/') 2 := by
  constructor
  · intro h
    have hfields := fieldsSound_of_root fs (root_sound_of_findFile fs path h)
    rw [findFile,Outcome.bind_sound_iff] at h
    exact ⟨hfields,(findParts_sound_iff fs hfields _ 2).mp h.1⟩
  · rintro ⟨hfields,hpath⟩
    rw [findFile,Outcome.bind_sound_iff]
    refine ⟨(findParts_sound_iff fs hfields _ 2).mpr hpath,fun current _ => ?_⟩
    rw [Outcome.bind_sound_iff]
    exact ⟨getInode_sound fs hfields current,fun inode _ => Outcome.returned_sound _⟩

end Path

/-- Mounting a volume and looking up a path comes back, with no division by zero, no shift
that is too wide and no entry read outside its block, exactly if the superblock cannot be
read, has another magic number, or has sound fields and sound directories on the way. -/
theorem mount_find_sound_iff (device : SectorDisk) (lbaStart : BitVec 64) (path : Text) :
    ((mount device lbaStart).bind fun fs => findFile fs path).Sound ↔
      ∀ buf, device.readSectors (lbaStart+2).toNat 2 (List.replicate 1024 0) = .ok buf →
        (superblockOf buf).magic = 0xEF53#16 →
        FieldsSound (superblockOf buf) ∧
          PathSound (mounted device lbaStart (superblockOf buf)) (path.splitOn '/') 2 := by
  unfold mount
  cases hread : device.readSectors (lbaStart+2).toNat 2 (List.replicate 1024 0) with
  | error error => exact iff_of_true (Outcome.returned_sound _) fun buf h => by cases h
  | ok buf =>
    by_cases hmagic : (superblockOf buf).magic = 0xEF53#16
    · have hfind := findFile_sound_iff (mounted device lbaStart (superblockOf buf)) path
      simp only [Except.ok.injEq,forall_eq',hmagic,ne_eq,not_true_eq_false,if_false,forall_const]
      by_cases hshift : 32 ≤ (superblockOf buf).logBlockSize.toNat
      · rw [if_pos hshift]
        apply iff_of_false
        · rintro ⟨result,h⟩
          cases h
        · rintro ⟨⟨hlog,-⟩,-⟩
          omega
      · rw [if_neg hshift]
        exact hfind
    · simp only [Except.ok.injEq,forall_eq',ne_eq,hmagic,not_false_eq_true,if_true]
      exact iff_of_true (Outcome.returned_sound _) fun h => h.elim

/-- A volume of blocks of 1024 bytes with the entry "B" in its root directory. -/
def oneEntry (logBlockSize inodesPerGroup : UInt8) (recLen : List UInt8) : ℕ → List UInt8
  | 2 => List.replicate 24 0++[logBlockSize,0,0,0]++List.replicate 12 0++[inodesPerGroup,0,0,0]++
      List.replicate 12 0++[0x53,0xEF]
  | 4 => List.replicate 8 0++[3]
  | 6 => List.replicate 128 0++[0xED,0x41,0,0,0x00,0x04,0,0]++List.replicate 32 0++[4]
  | 8 => [11,0,0,0]++recLen++[1,1,0x42]
  | _ => []

def lookup (content : ℕ → List UInt8) (path : Text) : Outcome FileEntry :=
  (mount (sectorVolume content) 0).bind fun fs => findFile fs path

def oneEntryRoot : Inode := ⟨0x41ED,1024,4::List.replicate 14 0,rfl⟩

theorem oneEntry_endless : ¬(lookup (oneEntry 0 16 [0,0]) [ 'A']).Sound := by
  have hsuper : superblockOf (sectorsFrom (oneEntry 0 16 [0,0]) 2 2) = ⟨0,16,0xEF53,0⟩ := by
    decide +kernel
  have hmount := sectorVolume_mount (oneEntry 0 16 [0,0]) (by rw [hsuper]; rfl)
    (by rw [hsuper]; decide)
  rw [hsuper] at hmount
  have hroot : getInode (mounted (sectorVolume (oneEntry 0 16 [0,0])) 0 ⟨0,16,0xEF53,0⟩) 2 =
      .returned (.ok oneEntryRoot) := by decide +kernel
  have hread := sectorVolume_block (oneEntry 0 16 [0,0]) ⟨0,16,0xEF53,0⟩ 4
  have hlength : 0 < (sectorsFrom (oneEntry 0 16 [0,0]) 8 2).length := by
    rw [sectorsFrom_length]
    decide
  have hused : (headerAt (sectorsFrom (oneEntry 0 16 [0,0]) 8 2) 0).inode ≠ 0 := by decide +kernel
  have hstays : ¬(fromUtf8 (nameAt (sectorsFrom (oneEntry 0 16 [0,0]) 8 2) 0) = some [ 'A'] ∨
      (headerAt (sectorsFrom (oneEntry 0 16 [0,0]) 8 2) 0).recLen ≠ 0) := by decide +kernel
  rw [lookup,hmount,Outcome.bind,findFile_sound_iff]
  rintro ⟨-,hpath⟩
  have hparts : ( [ 'A'] : Text).splitOn '/' = [[ 'A']] := by decide
  rw [hparts,PathSound,if_neg (List.cons_ne_nil _ _)] at hpath
  obtain ⟨⟨hblocks,-⟩,-⟩ := hpath oneEntryRoot hroot rfl
  have hreached : Reached (mounted (sectorVolume (oneEntry 0 16 [0,0])) 0 ⟨0,16,0xEF53,0⟩)
      oneEntryRoot [ 'A'] 0 :=
    ⟨by decide,by decide,fun j hj => absurd hj (Nat.not_lt_zero j)⟩
  have hblock := hblocks 0 _ hreached (by decide) hread
  exact hstays ((hblock 0 0 rfl hlength).2 hused).2

/-- A block size that is too large, a group without inodes, an entry that leads behind the
end of its block, and one that leads nowhere. -/
theorem oneEntry_unsound :
    lookup (oneEntry 32 16 [12,0]) [ 'A'] = .fault .shift ∧
    lookup (oneEntry 0 0 [12,0]) [ 'A'] = .fault .division ∧
    lookup (oneEntry 0 16 [0xFC,3]) [ 'A'] = .fault .outside ∧
    ¬(lookup (oneEntry 0 16 [0,0]) [ 'A']).Sound := by
  refine ⟨?_,?_,?_,oneEntry_endless⟩
  · decide +kernel
  · decide +kernel
  · decide +kernel

end Zamak.Ext2Loops
