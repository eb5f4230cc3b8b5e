import Zamak.BootAnswers
import Zamak.BundleFilling

/-! # The bundle between real and protected mode

What `rm_phaseb_orchestrate` leaves at `0x1000` and what `kmain` takes from there. A bundle
with its magic is whole: the memory map of the firmware, the front of the boot partition,
and the table of ACPI are found through it. -/

set_option autoImplicit false

namespace Zamak.BootBundle
open Zamak.ByteMemory Zamak.BiosServices Zamak.PartialSteps Zamak.PlacedBlocks Zamak.Segments
open Zamak.TagStreams Zamak.RealMode Zamak.BundleFilling Zamak.BootAnswers

/-! ## What `kmain` takes -/

structure Taken where
  mmap : List MemmapEntry
  image : List UInt8
  rsdp : Option ℕ

def limineTyp (typ : ℕ) : ℕ :=
  if typ = 1 then 0
  else if typ = 2 then 1
  else if typ = 3 then 2
  else if typ = 4 then 3
  else if typ = 5 then 4
  else 1

def entryAt (m : Memory) (a : ℕ) : MemmapEntry :=
  ⟨number 8 m a,number 8 m (a+8),limineTyp (number 4 m (a+16))⟩

/-- The front of `kmain`; `none` is a panic. -/
def takeBundle (m : Memory) (phys : ℕ) : Option Taken :=
  if number 4 m phys ≠ zbdlMagic then none
  else if e820MaxEntries < number 4 m (phys+0x8) then none
  else some {
    mmap := (List.range (number 4 m (phys+0x8))).map fun i => entryAt m (phys+0xC+24*i)
    image := stretch m (number 8 m (phys+0xC14)%2^32) (number 8 m (phys+0xC1C)%2^32)
    rsdp := if number 8 m (phys+0x1D28) ≠ 0 then some (number 8 m (phys+0x1D28)) else none }

/-! ## What there is to take -/

structure Partition where
  typ : UInt8
  lba : ℕ
  deriving DecidableEq

def partitionAt (disk : Disk) (i : ℕ) : Partition where
  typ := disk.bytes (0x1BE+16*i+4)
  lba := number 4 disk.bytes (0x1BE+16*i+8)

def Bootable (typ : UInt8) : Prop := typ = 0x0B ∨ typ = 0x0C ∨ typ = 0x83

instance (typ : UInt8) : Decidable (Bootable typ) := inferInstanceAs (Decidable (_ ∨ _))

def BootsFrom (disk : Disk) (p : Partition) : Prop :=
  ∃ i < 4, p = partitionAt disk i ∧ Bootable p.typ ∧ ∀ j < i, ¬Bootable (partitionAt disk j).typ

def rsdpSignature : List UInt8 := [0x52,0x53,0x44,0x20,0x50,0x54,0x52,0x20]

def RsdpPlace (m : Memory) (a : ℕ) : Prop :=
  0xE0000 ≤ a ∧ a < 0xFFFF0 ∧ a%16 = 0 ∧ stretch m a 8 = rsdpSignature

/-- At this place the scan reads behind the limit. -/
def Beyond (limit : DsLimit) (m : Memory) (a : ℕ) : Prop :=
  limit.last < a+3 ∨ number 4 m a = 0x20445352 ∧ limit.last < a+7

def LeavesLimit (limit : DsLimit) (m : Memory) : Prop :=
  ∃ a, 0xE0000 ≤ a ∧ a < 0xFFFF0 ∧ a%16 = 0 ∧ (∀ b < a, ¬RsdpPlace m b) ∧ Beyond limit m a

def rowEntry (row : Row) : MemmapEntry :=
  ⟨row.base.toNat,row.len.toNat,limineTyp row.typ.toNat⟩

/-! ## The boot record -/

theorem partScan_cases (m : Memory) (n bx : ℕ) (al : UInt8) :
    (∃ i < n, partScan m n bx al = .ok (bx+16*i) ∧ Bootable (m (bx+16*i+4)) ∧
      ∀ j < i, ¬Bootable (m (bx+16*j+4))) ∨
    ((∃ al', partScan m n bx al = .error al') ∧ ∀ j < n, ¬Bootable (m (bx+16*j+4))) := by
  induction n generalizing bx al with
  | zero => exact Or.inr ⟨⟨al,rfl⟩,fun j hj => absurd hj (Nat.not_lt_zero j)⟩
  | succ n ih =>
    by_cases hboot : Bootable (m (bx+4))
    · left
      refine ⟨0,Nat.succ_pos n,?_,hboot,fun j hj => absurd hj (Nat.not_lt_zero j)⟩
      rw [partScan]
      rcases hboot with h|h|h
      · rw [if_pos h]
        rfl
      · rw [if_neg (by rw [h]; decide),if_pos h]
        rfl
      · rw [if_neg (by rw [h]; decide),if_neg (by rw [h]; decide),if_pos h]
        rfl
    · have hnext : partScan m (n+1) bx al = partScan m n (bx+16) (m (bx+4)) := by
        obtain ⟨h1,h2⟩ := not_or.mp hboot
        obtain ⟨h2,h3⟩ := not_or.mp h2
        rw [partScan]
        rw [if_neg h1,if_neg h2,if_neg h3]
      have hshift : ∀ j, bx+16+16*j+4 = bx+16*(j+1)+4 := fun j => by omega
      rw [hnext]
      rcases ih (bx+16) (m (bx+4)) with ⟨i,hi,hscan,hyes,hno⟩|⟨herror,hno⟩
      · left
        refine ⟨i+1,by omega,?_,by rw [← hshift]; exact hyes,?_⟩
        · rw [hscan]
          congr 1
          omega
        · intro j hj
          cases j with
          | zero => exact hboot
          | succ j =>
            rw [← hshift]
            exact hno j (by omega)
      · right
        refine ⟨herror,?_⟩
        intro j hj
        cases j with
        | zero => exact hboot
        | succ j =>
          rw [← hshift]
          exact hno j (by omega)

/-! ## The table of ACPI -/

theorem signature_iff (m : Memory) (a : ℕ) :
    (number 4 m a = 0x20445352 ∧ number 4 m (a+4) = 0x20525450) ↔
      stretch m a 8 = rsdpSignature := by
  have hbytes : ∀ b, stretch m b 4 = natBytes 4 (number 4 m b) := by
    intro b
    have h := natBytes_bytesNat (stretch m b 4)
    rw [stretch_length] at h
    exact h.symm
  have hsplit : stretch m a 8 = stretch m a 4++stretch m (a+4) 4 := (stretch_append m a 4 4).symm
  constructor
  · rintro ⟨hfirst,hsecond⟩
    rw [hsplit,hbytes,hbytes,hfirst,hsecond]
    rfl
  · intro h
    have hboth : stretch m a 4++stretch m (a+4) 4 =
        [0x52,0x53,0x44,0x20]++[0x50,0x54,0x52,0x20] := hsplit.symm.trans h
    have hparts := List.append_inj hboth (stretch_length m a 4)
    rw [number,number,hparts.1,hparts.2]
    exact ⟨rfl,rfl⟩

theorem rsdpTurn_beyond {limit : DsLimit} {m : Memory} {a : ℕ} (h : Beyond limit m a) :
    ∃ word, rsdpTurn limit m a = .stop (.error word) := by
  unfold rsdpTurn
  by_cases hfirst : limit.last < a+3
  · exact ⟨a,if_pos hfirst⟩
  · obtain ⟨hword,hsecond⟩ := h.resolve_left hfirst
    exact ⟨a+4,by rw [if_neg hfirst,if_neg (not_not_intro hword),if_pos hsecond]⟩

theorem rsdpTurn_hit {limit : DsLimit} {m : Memory} {a : ℕ} (hlimit : ¬Beyond limit m a)
    (h : stretch m a 8 = rsdpSignature) : rsdpTurn limit m a = .stop (.ok (some a)) := by
  obtain ⟨hfirst,hsecond⟩ := (signature_iff m a).mpr h
  obtain ⟨hlow,hhigh⟩ := not_or.mp hlimit
  rw [rsdpTurn,if_neg hlow,if_neg (not_not_intro hfirst),if_neg fun hlt => hhigh ⟨hfirst,hlt⟩,
    if_neg (not_not_intro hsecond)]

theorem rsdpTurn_miss {limit : DsLimit} {m : Memory} {a : ℕ} (hlimit : ¬Beyond limit m a)
    (h : stretch m a 8 ≠ rsdpSignature) : rsdpTurn limit m a = rsdpNext a := by
  obtain ⟨hlow,hhigh⟩ := not_or.mp hlimit
  rw [rsdpTurn,if_neg hlow]
  by_cases hfirst : number 4 m a = 0x20445352
  · rw [if_neg (not_not_intro hfirst),if_neg fun hlt => hhigh ⟨hfirst,hlt⟩,
      if_pos fun hsecond => h ((signature_iff m a).mp ⟨hfirst,hsecond⟩)]
  · rw [if_pos hfirst]

/-- The scan finds the first signature on a boundary of sixteen bytes, unless it leaves the
limit before. -/
theorem rsdpLoop_ends (limit : DsLimit) (m : Memory) (fuel : ℕ) (hfuel : 0x1FFF0 < fuel) :
    ∃ result, run (rsdpTurn limit m) fuel 0xE0000 = some result ∧
      (∀ found, result = .ok found → Finds (RsdpPlace m) found ∧ ¬LeavesLimit limit m) ∧
      (∀ word, result = .error word → LeavesLimit limit m) := by
  -- no table and no limit below the place of the turn
  refine run_reaches (rsdpTurn limit m)
    (fun ebx => 0xE0000 ≤ ebx ∧ ebx < 0xFFFF0 ∧ ebx%16 = 0 ∧ (∀ a < ebx, ¬RsdpPlace m a) ∧
      ∀ a, 0xE0000 ≤ a → a < ebx → a%16 = 0 → ¬Beyond limit m a)
    (fun ebx => 0xFFFF0-ebx)
    (fun result => (∀ found, result = .ok found →
      Finds (RsdpPlace m) found ∧ ¬LeavesLimit limit m) ∧
      ∀ word, result = .error word → LeavesLimit limit m)
    ?_ fuel 0xE0000 ⟨Nat.le_refl _,by decide,rfl,?_,?_⟩ (by omega)
  · rintro ebx ⟨hlow,hhigh,halign,hbefore,hlimit⟩
    by_cases hbeyond : Beyond limit m ebx
    · right
      obtain ⟨word,hturn⟩ := rsdpTurn_beyond hbeyond
      refine ⟨_,hturn,fun found h => ?_,fun _ _ => ⟨ebx,hlow,hhigh,halign,hbefore,hbeyond⟩⟩
      cases h
    · have hpassed : ∀ a, 0xE0000 ≤ a → a < ebx+16 → a%16 = 0 → ¬Beyond limit m a := by
        intro a ha hlt hal
        rcases Nat.lt_trichotomy a ebx with hless|rfl|hmore
        · exact hlimit a ha hless hal
        · exact hbeyond
        · omega
      by_cases hhit : stretch m ebx 8 = rsdpSignature
      · right
        refine ⟨_,rsdpTurn_hit hbeyond hhit,fun found h => ?_,fun word h => ?_⟩
        · cases h
          refine ⟨⟨⟨hlow,hhigh,halign,hhit⟩,hbefore⟩,?_⟩
          rintro ⟨a,ha,-,hal,hno,hout⟩
          refine hpassed a ha ?_ hal hout
          by_contra hfar
          exact hno ebx (by omega) ⟨hlow,hhigh,halign,hhit⟩
        · cases h
      · have hmiss : ∀ a < ebx+16, ¬RsdpPlace m a := by
          rintro a ha hplace
          rcases Nat.lt_trichotomy a ebx with hlt|rfl|hgt
          · exact hbefore a hlt hplace
          · exact hhit hplace.2.2.2
          · have := hplace.2.2.1
            omega
        rw [rsdpTurn_miss hbeyond hhit]
        by_cases hmore : ebx+16 < 0xFFFF0
        · left
          exact ⟨ebx+16,if_pos hmore,⟨by omega,hmore,by omega,hmiss,hpassed⟩,by omega⟩
        · right
          refine ⟨_,if_neg hmore,fun found h => ?_,fun word h => ?_⟩
          · cases h
            constructor
            · intro a hplace
              exact hmiss a (by have := hplace.2.1; omega) hplace
            · rintro ⟨a,ha,hend,hal,-,hout⟩
              exact hpassed a ha (by omega) hal hout
          · cases h
  · rintro a ha ⟨hlow,-⟩
    omega
  · intro a ha hlt
    omega

theorem leavesLimit_low {limit : DsLimit} (m : Memory) (h : limit.last < 0xE0003) :
    LeavesLimit limit m := by
  refine ⟨0xE0000,Nat.le_refl _,by decide,rfl,?_,Or.inl h⟩
  rintro b hb ⟨hlow,-⟩
  omega

theorem not_leavesLimit {limit : DsLimit} (m : Memory) (h : 0xFFFE7 ≤ limit.last) :
    ¬LeavesLimit limit m := by
  rintro ⟨a,-,hhigh,halign,-,hout⟩
  rcases hout with hfirst|⟨-,hsecond⟩ <;>
  omega

theorem bootsFrom_unique {disk : Disk} {p q : Partition} (hp : BootsFrom disk p)
    (hq : BootsFrom disk q) : p = q := by
  obtain ⟨i,hi,rfl,hyes,hno⟩ := hp
  obtain ⟨j,hj,rfl,hyes',hno'⟩ := hq
  rcases Nat.lt_trichotomy i j with hlt|rfl|hgt
  · exact absurd hyes (hno' i hlt)
  · rfl
  · exact absurd hyes' (hno j hgt)

/-! ## One phase after the other -/

/-- What every phase counts on: the drive is saved, the bundle has no magic and no table of
ACPI yet, and the memory of the BIOS is as it was. -/
structure Open (drive : UInt8) (origin m : Memory) : Prop where
  drive : m driveByte = drive
  magic : number 4 m bundlePhys = 0
  rsdp : number 8 m 0x2D28 = 0
  rom : ∀ x, Within 0xE0000 0x20000 x → m x = origin x

structure Mapped (rows : List Row) (m : Memory) : Prop where
  count : number 4 m 0x1008 = min rows.length e820MaxEntries
  row : ∀ i (hi : i < rows.length), i < e820MaxEntries → RowAt m (rowsBase+24*i) rows[i]

section Kept
variable {own written : ℕ → Prop} {m m' : Memory} (hquiet : Quiet own)
  (h : Keeps (fun x => own x ∨ written x) m m')
include hquiet h

theorem Open.kept {drive : UInt8} {origin : Memory} (hopen : Open drive origin m)
    (hapart : ∀ x, written x → x ≠ 0x401 ∧ ¬Within 0x1000 4 x ∧ ¬Within 0x2D28 8 x ∧
      ¬Within 0xE0000 0x20000 x) : Open drive origin m' := by
  have hused : ∀ x, x = 0x401 ∨ Within 0x1000 4 x ∨ Within 0x2D28 8 x ∨
      Within 0xE0000 0x20000 x → Used x := by
    intro x hx
    unfold Used Within bundlePhys at *
    omega
  have hsame : ∀ x, x = 0x401 ∨ Within 0x1000 4 x ∨ Within 0x2D28 8 x ∨
      Within 0xE0000 0x20000 x → m' x = m x := by
    rintro x hx
    refine h x ?_
    rintro (hown|hwritten)
    · exact hquiet x hown (hused x hx)
    · have := hapart x hwritten
      tauto
  constructor
  · exact (hsame _ (Or.inl rfl)).trans hopen.drive
  · refine Eq.trans (congrArg bytesNat (stretch_congr m' m bundlePhys bundlePhys 4 ?_)) hopen.magic
    exact fun k hk => hsame _ (Or.inr (Or.inl ⟨Nat.le_add_right _ _,Nat.add_lt_add_left hk _⟩))
  · refine Eq.trans (congrArg bytesNat (stretch_congr m' m 0x2D28 0x2D28 8 ?_)) hopen.rsdp
    exact fun k hk =>
      hsame _ (Or.inr (Or.inr (Or.inl ⟨Nat.le_add_right _ _,Nat.add_lt_add_left hk _⟩)))
  · intro x hx
    rw [hsame x (Or.inr (Or.inr (Or.inr hx)))]
    exact hopen.rom x hx

theorem Mapped.kept {rows : List Row} (hmapped : Mapped rows m)
    (hapart : ∀ x, written x → ¬Within 0x1008 0xC04 x) : Mapped rows m' := by
  have hsame : ∀ b width, 0x1008 ≤ b → b+width ≤ 0x1C0C → number width m' b = number width m b := by
    intro b width hb hb'
    refine kept_number hquiet h fun x hx => ⟨?_,fun hw => hapart x hw ?_⟩
    · unfold Used Within bundlePhys at *
      omega
    · unfold Within at *
      omega
  constructor
  · rw [hsame _ _ (by omega) (by omega)]
    exact hmapped.count
  · intro i hi hmax
    refine (hmapped.row i hi hmax).kept fun b width hb hb' => ?_
    unfold rowsBase e820MaxEntries at *
    exact hsame b width (by omega) (by omega)

end Kept

section Phases
variable {σ : Type} {int : Interrupts σ} {own : ℕ → Prop} {drive : UInt8} {disk : Disk}
  {rows : List Row} {place : ℕ → BitVec 32}

/-- The bundle is empty but for the drive, and the loop over the memory map is set up. -/
theorem openBundle_open (henum : place 0 = 0) (w : World σ)
    (hdrive : w.memory driveByte = drive) :
    Open drive w.memory (openBundle w).memory ∧
    (openBundle w).com1 = w.com1++[0x55,0x45] ∧
    Told own rows place (openBundle w) 0 (openBundle w) := by
  obtain ⟨m1,hm1⟩ : ∃ m1, m1 = store w.memory bundlePhys (List.replicate 0x1E00 0) := ⟨_,rfl⟩
  have hzero : ∀ x, Within 0x1000 0x1E00 x → m1 x = 0 := fun x hx => by
    rw [hm1]
    exact store_zeros w.memory hx
  have houter : Keeps (Within bundlePhys 0x1E00) w.memory m1 := by
    rw [hm1]
    exact keeps_store (by rw [List.length_replicate]; exact fun _ hx => hx)
  obtain ⟨m2,hm2⟩ : ∃ m2, m2 = put 1 m1 0x1004 (m1 driveByte).toNat := ⟨_,rfl⟩
  have hmem : (openBundle w).memory =
      put 4 (put 2 (put 4 m2 e820Count 0) e820Di 0x100C) e820Continuation 0 := by
    rw [hm2,hm1]
    rfl
  have hlate : Keeps (fun x => False ∨ Within 0x1004 1 x ∨ Within e820Count 12 x) m1
      (openBundle w).memory := by
    rw [hmem,hm2]
    unfold e820Count e820Di e820Continuation
    refine (((keeps_put ?_).trans (keeps_put ?_)).trans (keeps_put ?_)).trans (keeps_put ?_) <;>
    · intro x hx
      unfold Within at *
      omega
  have hfirst : Open drive w.memory m1 := by
    constructor
    · rw [← hdrive]
      exact houter _ (by unfold Within bundlePhys driveByte; omega)
    · exact number_zero m1 fun x hx => hzero x (by unfold Within bundlePhys at *; omega)
    · exact number_zero m1 fun x hx => hzero x (by unfold Within at *; omega)
    · intro x hx
      exact houter x (by unfold Within bundlePhys at *; omega)
  refine ⟨hfirst.kept quiet_nothing hlate ?_,?_,?_⟩
  · intro x hx
    unfold Within e820Count at *
    omega
  · show w.com1++[0x55]++[0x45] = _
    rw [List.append_assoc]
    rfl
  · constructor
    · rw [hmem]
      unfold e820Count e820Di e820Continuation
      rw [number_put_apart _ _ (by omega),number_put_apart _ _ (by omega),number_put]
      rfl
    · rw [hmem]
      unfold e820Count e820Di e820Continuation
      rw [number_put_apart _ _ (by omega),number_put]
      rfl
    · rw [hmem,number_put,henum]
      rfl
    · exact fun i _ hi => absurd hi (Nat.not_lt_zero i)
    · rfl
    · exact Keeps.refl _

theorem noteCount_mapped (hquiet : Quiet own) {origin : Memory} {start w : World σ}
    (hopen : Open drive origin start.memory)
    (h : Told own rows place start (min rows.length e820MaxEntries) w) :
    Open drive origin (w.put 4 0x1008 (number 4 w.memory e820Count)).memory ∧
    Mapped rows (w.put 4 0x1008 (number 4 w.memory e820Count)).memory := by
  have hle : min rows.length e820MaxEntries ≤ 128 := Nat.min_le_right _ _
  have hput : Keeps (fun x => own x ∨ Within 0x1008 4 x) w.memory
      (w.put 4 0x1008 (number 4 w.memory e820Count)).memory :=
    keeps_put fun x hx => Or.inr hx
  constructor
  · refine (hopen.kept hquiet h.keeps ?_).kept hquiet hput ?_
    · intro x hx
      unfold MapScratch Within e820Count rowsBase at *
      omega
    · intro x hx
      unfold Within at *
      omega
  · constructor
    · rw [World.put_memory,number_put,h.count]
      omega
    · intro i hi hmax
      refine (h.row i hi (by omega)).kept fun b width hb hb' => ?_
      rw [World.put_memory,number_put_apart]
      unfold rowsBase at hb
      omega

theorem mbrPacket_keeps (w : World σ) :
    Keeps (Within dapScratch 0x10) w.memory (mbrPacket w).memory := by
  unfold mbrPacket dapScratch
  refine (((((((keeps_put ?_).trans (keeps_put ?_)).trans (keeps_put ?_)).trans
    (keeps_put ?_)).trans (keeps_put ?_)).trans (keeps_put ?_)).trans (keeps_put ?_)).trans
    (keeps_put ?_) <;>
  · intro x hx
    unfold Within at *
    omega

theorem mbrPacket_dap (w : World σ) :
    dapAt (mbrPacket w).memory dapScratch = ⟨16,0,1,mbrScratch,0,0⟩ := by
  -- every word of the packet, behind the ones that are stored after it
  have hword : ∀ j < 8, number 2 (mbrPacket w).memory (dapScratch+2*j) =
      ([0x0010,1,mbrScratch,0,0,0,0,0] : List ℕ).getD j 0 := by
    intro j hj
    unfold mbrPacket dapScratch mbrScratch
    simp only [World.put_memory]
    rcases j with _|_|_|_|_|_|_|_|j
    · iterate 7 rw [number_put_apart _ _ (by omega)]
      rw [number_put]
      rfl
    · iterate 6 rw [number_put_apart _ _ (by omega)]
      rw [number_put]
      rfl
    · iterate 5 rw [number_put_apart _ _ (by omega)]
      rw [number_put]
      rfl
    · iterate 4 rw [number_put_apart _ _ (by omega)]
      rw [number_put]
      rfl
    · iterate 3 rw [number_put_apart _ _ (by omega)]
      rw [number_put]
      rfl
    · iterate 2 rw [number_put_apart _ _ (by omega)]
      rw [number_put]
      rfl
    · rw [number_put_apart _ _ (by omega),number_put]
      rfl
    · rw [number_put]
      rfl
    · omega
  obtain ⟨hone,hzero⟩ := number_two (hword 0 (by decide)) (by decide)
  have hplace : number 8 (mbrPacket w).memory (dapScratch+8) = 0 := by
    rw [number_add _ 2 6,number_add _ 2 4,number_add _ 2 2,hword 4 (by decide)]
    have h5 := hword 5 (by decide)
    have h6 := hword 6 (by decide)
    have h7 := hword 7 (by decide)
    simp only [Nat.add_assoc,Nat.reduceAdd,Nat.reduceMul] at h5 h6 h7 ⊢
    rw [h5,h6,h7]
    rfl
  have h1 : number 2 (mbrPacket w).memory (dapScratch+2) = 1 := hword 1 (by decide)
  have h2 : number 2 (mbrPacket w).memory (dapScratch+4) = mbrScratch := hword 2 (by decide)
  have h3 : number 2 (mbrPacket w).memory (dapScratch+6) = 0 := hword 3 (by decide)
  have hsize : number 1 (mbrPacket w).memory dapScratch = 16 := hone
  have hreserved : number 1 (mbrPacket w).memory (dapScratch+1) = 0 := hzero
  rw [dapAt,hsize,hreserved,h1,h2,h3,hplace]

/-- The boot record is read and its table scanned, or the loader is about to halt. -/
theorem findPartition_cases (hquiet : Quiet own) (hread : Reads int own drive disk) (r : Regs)
    {origin : Memory} (w : World σ) (hopen : Open drive origin w.memory)
    (hmapped : Mapped rows w.memory) :
    (∃ bx r' w' p, findPartition int r w = .ok (bx,r',w') ∧ BootsFrom disk p ∧
      w'.memory (bx+4) = p.typ ∧ number 4 w'.memory (bx+8) = p.lba ∧
      0x6BE ≤ bx ∧ bx+16 ≤ 0x6FE ∧ Open drive origin w'.memory ∧ Mapped rows w'.memory ∧
      w'.com1 = w.com1++[0x4D]) ∨
    (∃ al w', findPartition int r w = .error (al,w') ∧ Open drive origin w'.memory ∧
      ¬(Reliable int drive disk ∧ 1 ≤ disk.sectors ∧ ∃ p, BootsFrom disk p)) := by
  obtain ⟨w1,hw1⟩ : ∃ w1, w1 = mbrPacket (w.out 0x4D) := ⟨_,rfl⟩
  obtain ⟨r1,hr1⟩ : ∃ r1, r1 = { r with
      eax := setHigh8 r.eax 0x42, edx := setLow8 r.edx (w1.memory driveByte),
      esi := setLow16 r.esi dapScratch } := ⟨_,rfl⟩
  obtain ⟨⟨r2,w2⟩,hint⟩ : ∃ s, int 0x13 r1 w1 = s := ⟨_,rfl⟩
  have hpack : Keeps (fun x => own x ∨ Within dapScratch 0x10 x) w.memory w1.memory := by
    rw [hw1]
    exact (mbrPacket_keeps (w.out 0x4D)).mono fun _ => Or.inr
  have hopen1 : Open drive origin w1.memory := hopen.kept hquiet hpack (by
    intro x hx
    unfold Within dapScratch at *
    omega)
  have hmapped1 : Mapped rows w1.memory := hmapped.kept hquiet hpack (by
    intro x hx
    unfold Within dapScratch at *
    omega)
  have hsi : low16 r1.esi = dapScratch := by
    rw [hr1,low16_setLow16]
    rfl
  have hpacket : dapAt w1.memory (low16 r1.esi) = ⟨16,0,1,mbrScratch,0,0⟩ := by
    rw [hsi,hw1]
    exact mbrPacket_dap _
  have hallowed : (dapAt w1.memory (low16 r1.esi)).Allowed := by
    rw [hpacket]
    constructor <;> decide
  have hah : high8 r1.eax = 0x42 := by rw [hr1,high8_setHigh8]
  have hdl : low8 r1.edx = drive := by rw [hr1,low8_setLow8,hopen1.drive]
  have hanswer := hread r1 w1 hah hdl hallowed
  have hno : r2.carry = true → findPartition int r w = .error (high8 r2.eax,w2) := by
    intro hcarry
    rw [findPartition]
    rw [← hw1,← hr1,hint]
    exact if_pos hcarry
  have hnone : ∀ al, ¬r2.carry = true →
      partScan w2.memory 4 0x06BE (high8 r2.eax) = .error al →
      findPartition int r w = .error (al,w2) := by
    intro al hcarry hscan
    rw [findPartition]
    rw [← hw1,← hr1,hint]
    rw [if_neg hcarry,hscan]
  have hfound : ∀ bx, ¬r2.carry = true →
      partScan w2.memory 4 0x06BE (high8 r2.eax) = .ok bx →
      findPartition int r w = .ok (bx,r2,w2) := by
    intro bx hcarry hscan
    rw [findPartition]
    rw [← hw1,← hr1,hint]
    rw [if_neg hcarry,hscan]
  rw [hpacket,hint] at hanswer
  have hsector : Keeps (fun x => own x ∨ Within mbrScratch 512 x) w1.memory w2.memory →
      Open drive origin w2.memory ∧ Mapped rows w2.memory := by
    intro hkeeps
    constructor
    · refine hopen1.kept hquiet hkeeps fun x hx => ?_
      unfold Within mbrScratch at *
      omega
    · refine hmapped1.kept hquiet hkeeps fun x hx => ?_
      unfold Within mbrScratch at *
      omega
  obtain ⟨hcom1,-,⟨hcarry,-,-,hw⟩|⟨hcarry,-,hkeeps⟩⟩ := hanswer
  · have hlen := read_length disk 0 1
    obtain ⟨hopen2,hmapped2⟩ := hsector (by
      have hkeeps := hw.keeps
      rw [hlen] at hkeeps
      exact hkeeps)
    have hbytes : ∀ k < 512, w2.memory (0x500+k) = disk.bytes k := by
      intro k hk
      have hthere := congrArg (fun items => items.getD k 0) hw.there
      rw [hlen,stretch_getD _ (show k < 1*512 by omega),Disk.read,
        stretch_getD _ (show k < 1*512 by omega),Nat.zero_mul,Nat.zero_add] at hthere
      exact hthere
    have htyp : ∀ i < 4, w2.memory (0x06BE+16*i+4) = (partitionAt disk i).typ := by
      intro i hi
      rw [show 0x06BE+16*i+4 = 0x500+(0x1BE+16*i+4) by omega]
      exact hbytes _ (by omega)
    have hlba : ∀ i < 4, number 4 w2.memory (0x06BE+16*i+8) = (partitionAt disk i).lba := by
      intro i hi
      refine congrArg bytesNat (stretch_congr _ _ _ _ 4 fun k hk => ?_)
      rw [show 0x06BE+16*i+8+k = 0x500+(0x1BE+16*i+8+k) by omega]
      exact hbytes _ (by omega)
    have hclear : ¬r2.carry = true := Bool.not_eq_true _ ▸ hcarry
    rcases partScan_cases w2.memory 4 0x06BE (high8 r2.eax) with
      ⟨i,hi,hscan,hyes,hmiss⟩|⟨⟨al,hscan⟩,hmiss⟩
    · left
      refine ⟨_,r2,w2,partitionAt disk i,hfound _ hclear hscan,⟨i,hi,rfl,?_,?_⟩,htyp i hi,
        hlba i hi,by omega,by omega,hopen2,hmapped2,?_⟩
      · rw [← htyp i hi]
        exact hyes
      · intro j hj
        rw [← htyp j (by omega)]
        exact hmiss j hj
      · rw [hcom1,hw1]
        rfl
    · right
      refine ⟨al,w2,hnone al hclear hscan,hopen2,?_⟩
      rintro ⟨-,-,p,i,hi,rfl,hyes,-⟩
      rw [← htyp i hi] at hyes
      exact hmiss i hi hyes
  · right
    obtain ⟨hopen2,-⟩ := hsector hkeeps
    refine ⟨_,w2,hno hcarry,hopen2,?_⟩
    rintro ⟨hreliable,hon,-⟩
    have hfine := hreliable r1 w1 hah hdl hallowed (by rw [hpacket]; exact hon)
    rw [hint] at hfine
    exact Bool.false_ne_true (hfine.symm.trans hcarry)

/-! ## What the phases write -/

section Notes
variable (w : World σ)

theorem notePartition_keeps (bx : ℕ) :
    Keeps (fun x => False ∨ Within 0x1C0C 5 x ∨ Within remainingSectors 12 x) w.memory
      (notePartition bx w).memory := by
  unfold notePartition remainingSectors currentLba destPhys
  refine ((((keeps_put ?_).trans (keeps_put ?_)).trans (keeps_put ?_)).trans
    (keeps_put ?_)).trans (keeps_put ?_) <;>
  · intro x hx
    unfold Within at *
    omega

theorem notePartition_copied {origin : Memory} {bx lba : ℕ}
    (hopen : Open drive origin w.memory) (hlba : number 4 w.memory (bx+8) = lba) :
    Copied own drive disk (notePartition bx w) lba 0 (notePartition bx w) := by
  have hlt : lba < 256^4 := by
    rw [← hlba]
    exact number_lt _ _ _
  constructor
  · unfold notePartition
    simp only [World.put_memory]
    rw [number_put]
    rfl
  · unfold notePartition remainingSectors currentLba destPhys
    simp only [World.put_memory,World.out_memory]
    rw [number_put_apart _ _ (by omega),number_put_apart _ _ (by omega),number_put,
      number_put_apart _ _ (by omega),number_put,hlba,Nat.mod_mod,Nat.mod_eq_of_lt hlt]
    rfl
  · unfold notePartition remainingSectors currentLba destPhys
    simp only [World.put_memory]
    rw [number_put_apart _ _ (by omega),number_put]
    rfl
  · refine (notePartition_keeps w bx driveByte ?_).trans hopen.drive
    rintro (hfalse|hin|hin)
    · exact hfalse
    · unfold Within driveByte at hin
      omega
    · unfold Within driveByte remainingSectors at hin
      omega
  · rfl
  · rw [Disk.read,Nat.zero_mul]
    exact Writes.none (Keeps.refl _)
  · exact Or.inl rfl

theorem noteImage_place : number 8 (noteImage w).memory 0x1C14 = imagePhys ∧
    number 8 (noteImage w).memory 0x1C1C = 0x00800000 := by
  unfold noteImage
  simp only [World.put_memory,World.out_memory]
  constructor
  · rw [number_add _ 4 4,number_put_apart _ _ (by omega),number_put_apart _ _ (by omega),
      number_put_apart _ _ (by omega),number_put,number_put_apart _ _ (by omega),
      number_put_apart _ _ (by omega),number_put]
    rfl
  · rw [number_add _ 4 4,number_put_apart _ _ (by omega),number_put,number_put]
    rfl

theorem noteImage_keeps :
    Keeps (fun x => False ∨ Within 0x1C14 16 x) w.memory (noteImage w).memory := by
  unfold noteImage
  refine (((keeps_put ?_).trans (keeps_put ?_)).trans (keeps_put ?_)).trans (keeps_put ?_) <;>
  · intro x hx
    unfold Within at *
    omega

theorem noteRsdp_keeps (found : Option ℕ) :
    Keeps (fun x => False ∨ Within 0x2D28 8 x) w.memory (noteRsdp found w).memory := by
  cases found with
  | none => exact Keeps.refl _
  | some ebx =>
    refine (keeps_put ?_).trans (keeps_put ?_) <;>
    · intro x hx
      unfold Within at *
      omega

theorem noteRsdp_number {found : Option ℕ} (hzero : number 8 w.memory 0x2D28 = 0)
    (hlt : ∀ a, found = some a → a < 2^32) :
    number 8 (noteRsdp found w).memory 0x2D28 = found.getD 0 := by
  cases found with
  | none => exact hzero
  | some ebx =>
    show number (4+4) (put 4 (put 4 w.memory 0x2D28 ebx) 0x2D2C 0) 0x2D28 = ebx
    have hfits : ebx < 256^4 := hlt ebx rfl
    rw [number_add,number_put_apart _ _ (by omega),number_put_of_lt _ _ hfits,number_put]
    exact Nat.add_zero ebx

theorem noteRsdp_com1 (found : Option ℕ) : (noteRsdp found w).com1 = w.com1 := by
  cases found <;> rfl

theorem closeBundle_keeps :
    Keeps (fun x => False ∨ Within bundlePhys 4 x) w.memory (closeBundle w).memory :=
  keeps_put fun _ hx => Or.inr hx

theorem fail_halted (al : UInt8) : ∃ w', fail al w = .halted w' ∧
    Keeps (fun x => False ∨ Within 0x430 1 x) w.memory w'.memory :=
  ⟨_,rfl,keeps_put fun _ hx => Or.inr hx⟩

theorem takeBundle_open {origin m : Memory} (hopen : Open drive origin m) :
    takeBundle m bundlePhys = none := by
  refine if_pos ?_
  rw [hopen.magic]
  decide

theorem takeBundle_fail {origin : Memory} (hopen : Open drive origin w.memory) (al : UInt8) :
    ∃ w', fail al w = .halted w' ∧ takeBundle w'.memory bundlePhys = none := by
  obtain ⟨w',hfail,hkeeps⟩ := fail_halted w al
  refine ⟨w',hfail,takeBundle_open (hopen.kept quiet_nothing hkeeps fun x hx => ?_)⟩
  unfold Within at *
  omega

end Notes

/-! ## The whole orchestration -/

theorem limineTyp_row {m : Memory} {a : ℕ} {row : Row} (h : RowAt m a row) :
    entryAt m a = rowEntry row := by
  rw [entryAt,h.base,h.len,h.typ]
  rfl

theorem mapped_entries {m : Memory} (hmapped : Mapped rows m) :
    ((List.range (number 4 m 0x1008)).map fun i => entryAt m (0x100C+24*i)) =
      (rows.take e820MaxEntries).map rowEntry := by
  have hcount := hmapped.count
  apply List.ext_getElem
  · rw [List.length_map,List.length_range,List.length_map,List.length_take,hcount,Nat.min_comm]
  · intro i hi hi'
    rw [List.length_map,List.length_range,hcount] at hi
    rw [List.getElem_map,List.getElem_map,List.getElem_range,List.getElem_take]
    exact limineTyp_row (hmapped.row i (by omega) (by omega))

theorem takeBundle_closed {m : Memory} {found : Option ℕ}
    (hmagic : number 4 m bundlePhys = zbdlMagic)
    (hmapped : Mapped rows m) (hplace : number 8 m 0x1C14 = imagePhys)
    (hlen : number 8 m 0x1C1C = 0x00800000) (hrsdp : number 8 m 0x2D28 = found.getD 0)
    (hfound : found ≠ some 0) :
    takeBundle m bundlePhys = some {
      mmap := (rows.take e820MaxEntries).map rowEntry
      image := stretch m imagePhys 0x00800000
      rsdp := found } := by
  have hcount : ¬e820MaxEntries < number 4 m (bundlePhys+0x8) := by
    show ¬e820MaxEntries < number 4 m 0x1008
    rw [hmapped.count]
    exact Nat.not_lt.mpr (Nat.min_le_right _ _)
  have hentries := mapped_entries hmapped
  have htable : (if number 8 m 0x2D28 ≠ 0 then some (number 8 m 0x2D28) else none) = found := by
    rw [hrsdp]
    cases found with
    | none => exact if_neg fun h => h rfl
    | some a => exact if_pos fun h => hfound (congrArg some h)
  rw [takeBundle,if_neg (not_not_intro hmagic),if_neg hcount]
  show some (Taken.mk ((List.range (number 4 m 0x1008)).map fun i => entryAt m (0x100C+24*i))
    (stretch m (number 8 m 0x1C14%2^32) (number 8 m 0x1C1C%2^32))
    (if number 8 m 0x2D28 ≠ 0 then some (number 8 m 0x2D28) else none)) = _
  rw [hentries,hplace,hlen,htable]
  rfl

/-- With the map and the image there, the rest of the bundle is filled and closed. -/
theorem loaded_taken {origin : Memory} {found : Option ℕ} (w : World σ)
    (hopen : Open drive origin w.memory) (hmapped : Mapped rows w.memory)
    (hfound : Finds (RsdpPlace origin) found) :
    takeBundle (closeBundle (noteRsdp found (noteImage w))).memory bundlePhys = some {
      mmap := (rows.take e820MaxEntries).map rowEntry
      image := stretch w.memory imagePhys 0x00800000
      rsdp := found } := by
  have hplace : ∀ a, found = some a → 0xE0000 ≤ a ∧ a < 0xFFFF0 := by
    intro a ha
    rw [ha] at hfound
    exact ⟨hfound.1.1,hfound.1.2.1⟩
  obtain ⟨w1,hw1⟩ : ∃ w1, w1 = noteImage w := ⟨_,rfl⟩
  obtain ⟨w2,hw2⟩ : ∃ w2, w2 = noteRsdp found w1 := ⟨_,rfl⟩
  have hk1 : Keeps (fun x => False ∨ Within 0x1C14 16 x) w.memory w1.memory := by
    rw [hw1]
    exact noteImage_keeps w
  have hk2 : Keeps (fun x => False ∨ Within 0x2D28 8 x) w1.memory w2.memory := by
    rw [hw2]
    exact noteRsdp_keeps w1 found
  have hk3 := closeBundle_keeps w2
  have hopen1 : Open drive origin w1.memory := hopen.kept quiet_nothing hk1 fun x hx => by
    unfold Within at *
    omega
  have hmapped1 : Mapped rows w1.memory := hmapped.kept quiet_nothing hk1 fun x hx => by
    unfold Within at *
    omega
  have hmapped2 : Mapped rows w2.memory := hmapped1.kept quiet_nothing hk2 fun x hx => by
    unfold Within at *
    omega
  have hmapped3 : Mapped rows (closeBundle w2).memory := hmapped2.kept quiet_nothing hk3 fun x hx => by
    unfold Within bundlePhys at *
    omega
  -- fields behind the memory map, which the later phases leave alone
  have hfield : ∀ a, a = 0x1C14 ∨ a = 0x1C1C →
      number 8 (closeBundle w2).memory a = number 8 w1.memory a := by
    intro a ha
    refine (hk3.number ?_).trans (hk2.number ?_) <;>
    · rintro x hx (hfalse|hin)
      · exact hfalse
      · unfold Within bundlePhys at *
        omega
  have hrsdp : number 8 (closeBundle w2).memory 0x2D28 = found.getD 0 := by
    have hnote := noteRsdp_number w1 hopen1.rsdp fun a ha => by
      have := hplace a ha
      omega
    rw [← hw2] at hnote
    refine (hk3.number ?_).trans hnote
    rintro x hx (hfalse|hin)
    · exact hfalse
    · unfold Within bundlePhys at *
      omega
  have himage : stretch (closeBundle w2).memory imagePhys 0x00800000 =
      stretch w.memory imagePhys 0x00800000 := by
    refine (hk3.stretch ?_).trans ((hk2.stretch ?_).trans (hk1.stretch ?_)) <;>
    · rintro x hx (hfalse|hin)
      · exact hfalse
      · unfold Within imagePhys bundlePhys at *
        omega
  have hplaces := noteImage_place w
  rw [← hw1] at hplaces
  have hmagic : number 4 (closeBundle w2).memory bundlePhys = zbdlMagic :=
    number_put_of_lt _ _ (by decide)
  rw [← hw1,← hw2,← himage]
  refine takeBundle_closed hmagic hmapped3 ((hfield _ (Or.inl rfl)).trans hplaces.1)
    ((hfield _ (Or.inr rfl)).trans hplaces.2) hrsdp ?_
  intro hzero
  have := hplace 0 hzero
  omega

theorem rsdpPlace_origin {origin m : Memory} (hopen : Open drive origin m) (a : ℕ) :
    RsdpPlace m a ↔ RsdpPlace origin a := by
  have hbytes : 0xE0000 ≤ a → a < 0xFFFF0 → stretch m a 8 = stretch origin a 8 := fun hlow hhigh =>
    stretch_congr m origin a a 8 fun k hk => hopen.rom (a+k) ⟨by omega,by omega⟩
  constructor
  · rintro ⟨hlow,hhigh,halign,hsign⟩
    exact ⟨hlow,hhigh,halign,(hbytes hlow hhigh).symm.trans hsign⟩
  · rintro ⟨hlow,hhigh,halign,hsign⟩
    exact ⟨hlow,hhigh,halign,(hbytes hlow hhigh).trans hsign⟩

theorem leavesLimit_origin {origin m : Memory} (hopen : Open drive origin m) (limit : DsLimit) :
    LeavesLimit limit m ↔ LeavesLimit limit origin := by
  have hword : ∀ a, 0xE0000 ≤ a → a < 0xFFFF0 → (Beyond limit m a ↔ Beyond limit origin a) := by
    intro a hlow hhigh
    have hsame : number 4 m a = number 4 origin a :=
      congrArg bytesNat (stretch_congr m origin a a 4 fun k hk =>
        hopen.rom (a+k) ⟨by omega,by omega⟩)
    rw [Beyond,Beyond,hsame]
  unfold LeavesLimit
  simp only [rsdpPlace_origin hopen]
  refine exists_congr fun a => and_congr_right fun hlow => and_congr_right fun hhigh => ?_
  rw [hword a hlow hhigh]

section Ways
variable {limit : DsLimit} {fuel : ℕ} {r r1 r2 : Regs} {w w1 : World σ}

theorem orchestrate_lost {al : UInt8} {w2 : World σ}
    (hmap : run (e820Turn int) fuel (r,openBundle w) = some (r1,w1))
    (hfind : findPartition int r1 (w1.put 4 0x1008 (number 4 w1.memory e820Count)) =
      .error (al,w2)) :
    rmPhasebOrchestrate int limit fuel r w = some (fail al w2) := by
  simp only [rmPhasebOrchestrate,hmap,hfind,Option.bind_eq_bind,Option.bind_some]

theorem orchestrate_stuck {bx : ℕ} {al : UInt8} {w2 w3 : World σ}
    (hmap : run (e820Turn int) fuel (r,openBundle w) = some (r1,w1))
    (hfind : findPartition int r1 (w1.put 4 0x1008 (number 4 w1.memory e820Count)) =
      .ok (bx,r2,w2))
    (hload : run (loadTurn int) fuel (r2,notePartition bx w2) = some (.error (al,w3))) :
    rmPhasebOrchestrate int limit fuel r w = some (fail al w3) := by
  simp only [rmPhasebOrchestrate,hmap,hfind,hload,Option.bind_eq_bind,Option.bind_some]

section Through
variable {bx : ℕ} {r3 : Regs} {w2 w3 : World σ}
  (hmap : run (e820Turn int) fuel (r,openBundle w) = some (r1,w1))
  (hfind : findPartition int r1 (w1.put 4 0x1008 (number 4 w1.memory e820Count)) =
    .ok (bx,r2,w2))
  (hload : run (loadTurn int) fuel (r2,notePartition bx w2) = some (.ok (r3,w3)))
include hmap hfind hload

theorem orchestrate_through {found : Option ℕ}
    (hscan : run (rsdpTurn limit (noteImage w3).memory) fuel 0xE0000 = some (.ok found)) :
    rmPhasebOrchestrate int limit fuel r w =
      some (.ready (closeBundle (noteRsdp found (noteImage w3)))) := by
  simp only [rmPhasebOrchestrate,hmap,hfind,hload,hscan,Option.bind_eq_bind,Option.bind_some]

theorem orchestrate_cut {word : ℕ}
    (hscan : run (rsdpTurn limit (noteImage w3).memory) fuel 0xE0000 = some (.error word)) :
    rmPhasebOrchestrate int limit fuel r w = some (.faulted (noteImage w3)) := by
  simp only [rmPhasebOrchestrate,hmap,hfind,hload,hscan,Option.bind_eq_bind,Option.bind_some]

end Through

end Ways

theorem Open.loaded {origin m m' : Memory} (hquiet : Quiet own) (hopen : Open drive origin m)
    (h : Keeps (fun x => own x ∨ LoadScratch x ∨ Within imagePhys 0x800000 x) m m') :
    Open drive origin m' := by
  refine hopen.kept hquiet h fun x hx => ?_
  unfold LoadScratch ChunkScratch Within remainingSectors dapScratch bounce imagePhys at *
  omega

theorem Mapped.loaded {m m' : Memory} (hquiet : Quiet own) (hmapped : Mapped rows m)
    (h : Keeps (fun x => own x ∨ LoadScratch x ∨ Within imagePhys 0x800000 x) m m') :
    Mapped rows m' := by
  refine hmapped.kept hquiet h fun x hx => ?_
  unfold LoadScratch ChunkScratch Within remainingSectors dapScratch bounce imagePhys at *
  omega

theorem notePartition_open {origin : Memory} (w : World σ) (bx : ℕ)
    (hopen : Open drive origin w.memory) (hmapped : Mapped rows w.memory) :
    Open drive origin (notePartition bx w).memory ∧ Mapped rows (notePartition bx w).memory := by
  have hnote := notePartition_keeps w bx
  constructor
  · refine hopen.kept quiet_nothing hnote fun x hx => ?_
    unfold Within remainingSectors at *
    omega
  · refine hmapped.kept quiet_nothing hnote fun x hx => ?_
    unfold Within remainingSectors at *
    omega

theorem noteImage_open {origin : Memory} (w : World σ) (hopen : Open drive origin w.memory) :
    Open drive origin (noteImage w).memory := by
  refine hopen.kept quiet_nothing (noteImage_keeps w) fun x hx => ?_
  unfold Within at *
  omega

section Copied
variable {start w : World σ} {lba : ℕ} (h : Copied own drive disk start lba imageSectors w)
include h

theorem copied_keeps : Keeps (fun x => own x ∨ LoadScratch x ∨ Within imagePhys 0x800000 x)
    start.memory w.memory := by
  refine h.there.keeps.mono ?_
  rintro x ((hown|hscratch)|hin)
  · exact Or.inl hown
  · exact Or.inr (Or.inl hscratch)
  · rw [read_length] at hin
    exact Or.inr (Or.inr hin)

theorem copied_image : stretch w.memory imagePhys 0x00800000 = disk.read lba imageSectors := by
  have hthere := h.there.there
  rw [read_length] at hthere
  exact hthere

end Copied

/-- The bundle is closed, with what the disk and the firmware have in it; or the processor
halts because the disk fails or holds no partition of that size; or the scan for the table
of ACPI leaves the limit of DS. -/
theorem orchestrate_cases (hquiet : Quiet own) (hread : Reads int own drive disk)
    (henum : Enumerates int own rows place) (limit : DsLimit) (r : Regs) (w : World σ)
    (hdrive : w.memory driveByte = drive)
    (hlba : ∀ p, BootsFrom disk p → p.lba+imageSectors < 2^32) (fuel : ℕ)
    (hfuel : 0x1FFF0 < fuel) :
    (∃ w' p found, rmPhasebOrchestrate int limit fuel r w = some (.ready w') ∧
      BootsFrom disk p ∧ p.lba+imageSectors ≤ disk.sectors ∧
      Finds (RsdpPlace w.memory) found ∧ ¬LeavesLimit limit w.memory ∧
      takeBundle w'.memory bundlePhys = some {
        mmap := (rows.take e820MaxEntries).map rowEntry
        image := disk.read p.lba imageSectors
        rsdp := found } ∧
      w'.com1 = w.com1++[0x55,0x45,0x4D,0x4C,0x6C,0x52,0x6B]) ∨
    (∃ w', rmPhasebOrchestrate int limit fuel r w = some (.halted w') ∧
      takeBundle w'.memory bundlePhys = none ∧
      ¬(Reliable int drive disk ∧
        ∃ p, BootsFrom disk p ∧ p.lba+imageSectors ≤ disk.sectors)) ∨
    (∃ w', rmPhasebOrchestrate int limit fuel r w = some (.faulted w') ∧
      takeBundle w'.memory bundlePhys = none ∧ LeavesLimit limit w.memory) := by
  obtain ⟨hopen0,hcom0,htold⟩ := openBundle_open henum.start w hdrive
  obtain ⟨⟨r1,w1⟩,hmap,htold1⟩ := e820Loop_told hquiet henum htold r fuel (by
    unfold e820MaxEntries
    omega)
  obtain ⟨hopen1,hmapped1⟩ := noteCount_mapped hquiet hopen0 htold1
  rcases findPartition_cases hquiet hread r1 _ hopen1 hmapped1 with
    ⟨bx,r2,w2,p,hfind,hboots,htyp,hplba,hbx,hbx',hopen2,hmapped2,hcom2⟩|
    ⟨al,w2,hfind,hopen2,hno⟩
  · obtain ⟨hopen3,hmapped3⟩ := notePartition_open w2 bx hopen2 hmapped2
    have hstart : Copied own drive disk (notePartition bx w2) p.lba 0 (notePartition bx w2) :=
      notePartition_copied w2 hopen2 hplba
    have hcom3 : (notePartition bx w2).com1 = w2.com1++[0x4C] := rfl
    obtain ⟨w3,hw3⟩ : ∃ w3, w3 = notePartition bx w2 := ⟨_,rfl⟩
    rw [← hw3] at hopen3 hmapped3 hstart hcom3
    obtain ⟨result,hload,hfine,hbad,hreliable⟩ :=
      loadLoop_copied hquiet hread (hlba p hboots) hstart r2 fuel (by
        unfold imageSectors
        omega)
    rw [hw3] at hload
    cases result with
    | error e =>
      obtain ⟨al,w4⟩ := e
      obtain ⟨-,hkeeps⟩ := hbad (al,w4) rfl
      have hopen4 : Open drive w.memory w4.memory := hopen3.loaded hquiet hkeeps
      obtain ⟨w',hfail,htake⟩ := takeBundle_fail w4 hopen4 al
      right
      left
      refine ⟨w',(orchestrate_stuck hmap hfind hload).trans (congrArg some hfail),htake,?_⟩
      rintro ⟨hrel,q,hq,hon⟩
      rw [bootsFrom_unique hq hboots] at hon
      obtain ⟨s,hs⟩ := hreliable hrel hon
      cases hs
    | ok s =>
      obtain ⟨r4,w4⟩ := s
      have hcopied := hfine (r4,w4) rfl
      have hopen4 := hopen3.loaded hquiet (copied_keeps hcopied)
      have hmapped4 := hmapped3.loaded hquiet (copied_keeps hcopied)
      have hopen5 := noteImage_open w4 hopen4
      obtain ⟨result,hscan,hok,herror⟩ := rsdpLoop_ends limit (noteImage w4).memory fuel hfuel
      have hleaves := leavesLimit_origin hopen5 limit
      cases result with
      | error word =>
        right
        right
        refine ⟨_,orchestrate_cut hmap hfind hload hscan,takeBundle_open hopen5,?_⟩
        exact hleaves.mp (herror word rfl)
      | ok found =>
        obtain ⟨hfinds,hwithin⟩ := hok found rfl
        have hfinds' : Finds (RsdpPlace w.memory) found :=
          hfinds.congr fun a => rsdpPlace_origin hopen5 a
        left
        refine ⟨_,p,found,orchestrate_through hmap hfind hload hscan,hboots,?_,hfinds',
          mt hleaves.mpr hwithin,?_,?_⟩
        · exact hcopied.onDisk.resolve_left (by decide)
        · rw [loaded_taken w4 hopen4 hmapped4 hfinds',copied_image hcopied]
        · show (noteRsdp found (noteImage w4)).com1++[0x6B] = _
          rw [noteRsdp_com1]
          show w4.com1++[0x6C]++[0x52]++[0x6B] = _
          rw [hcopied.com1,hcom3,hcom2,World.put_com1,htold1.com1,hcom0]
          simp only [List.append_assoc,List.cons_append,List.nil_append]
  · obtain ⟨w',hfail,htake⟩ := takeBundle_fail w2 hopen2 al
    right
    left
    refine ⟨w',(orchestrate_lost hmap hfind).trans (congrArg some hfail),htake,?_⟩
    rintro ⟨hrel,p,hboots,hon⟩
    refine hno ⟨hrel,?_,p,hboots⟩
    unfold imageSectors at hon
    omega

/-- The orchestration ends. When it goes on to protected mode, `kmain` takes the memory map
of the firmware, the front of the boot partition and the first table of ACPI; when it halts
or faults, there is no bundle to take. It halts only where the disk fails or holds no such
partition, and faults only where the scan leaves the limit of DS. -/
theorem orchestrate_handoff (hquiet : Quiet own) (hread : Reads int own drive disk)
    (henum : Enumerates int own rows place) (limit : DsLimit) (r : Regs) (w : World σ)
    (hdrive : w.memory driveByte = drive)
    (hlba : ∀ p, BootsFrom disk p → p.lba+imageSectors < 2^32) (fuel : ℕ)
    (hfuel : 0x1FFF0 < fuel) :
    ∃ ending, rmPhasebOrchestrate int limit fuel r w = some ending ∧
      (∀ w', ending = .ready w' → ∃ p found, BootsFrom disk p ∧
        p.lba+imageSectors ≤ disk.sectors ∧ Finds (RsdpPlace w.memory) found ∧
        takeBundle w'.memory bundlePhys = some {
          mmap := (rows.take e820MaxEntries).map rowEntry
          image := disk.read p.lba imageSectors
          rsdp := found } ∧
        w'.com1 = w.com1++[0x55,0x45,0x4D,0x4C,0x6C,0x52,0x6B]) ∧
      (∀ w', ending = .halted w' ∨ ending = .faulted w' →
        takeBundle w'.memory bundlePhys = none) ∧
      (Reliable int drive disk →
        (∃ p, BootsFrom disk p ∧ p.lba+imageSectors ≤ disk.sectors) →
        ((∃ w', ending = .ready w') ↔ ¬LeavesLimit limit w.memory) ∧
        ((∃ w', ending = .faulted w') ↔ LeavesLimit limit w.memory)) ∧
      (limit.last < 0xE0003 → LeavesLimit limit w.memory) ∧
      (0xFFFE7 ≤ limit.last → ¬LeavesLimit limit w.memory) := by
  have hlow : limit.last < 0xE0003 → LeavesLimit limit w.memory := leavesLimit_low w.memory
  have hflat : 0xFFFE7 ≤ limit.last → ¬LeavesLimit limit w.memory := not_leavesLimit w.memory
  rcases orchestrate_cases hquiet hread henum limit r w hdrive hlba fuel hfuel with
    ⟨w1,p,found,hrun,hboots,hon,hfinds,hwithin,htake,hcom1⟩|⟨w1,hrun,htake,hno⟩|
    ⟨w1,hrun,htake,hleaves⟩
  · refine ⟨_,hrun,?_,?_,fun _ _ => ⟨⟨fun _ => hwithin,fun _ => ⟨w1,rfl⟩⟩,?_⟩,hlow,hflat⟩
    · intro w' hready
      cases hready
      exact ⟨p,found,hboots,hon,hfinds,htake,hcom1⟩
    · rintro w' (hends|hends) <;>
      cases hends
    · refine ⟨?_,fun hleaves => absurd hleaves hwithin⟩
      rintro ⟨w',hends⟩
      cases hends
  · refine ⟨_,hrun,?_,?_,fun hrel hdisk => absurd ⟨hrel,hdisk⟩ hno,hlow,hflat⟩
    · intro w' hready
      cases hready
    · rintro w' (hends|hends)
      · cases hends
        exact htake
      · cases hends
  · refine ⟨_,hrun,?_,?_,fun _ _ => ⟨?_,fun _ => hleaves,fun _ => ⟨w1,rfl⟩⟩,hlow,hflat⟩
    · intro w' hready
      cases hready
    · rintro w' (hends|hends)
      · cases hends
      · cases hends
        exact htake
    · refine ⟨?_,fun hwithin => absurd hleaves hwithin⟩
      rintro ⟨w',hends⟩
      cases hends

end Phases

/-! ## A disk with one partition -/

def oneDisk : Disk where
  sectors := 0x5000
  bytes a := if a = 0x1C2 then 0x0C else if a = 0x1C7 then 0x08 else 0

def oneRow : Row := ⟨0,0x9FC00,1,none⟩

def oneWorld : World Unit where
  memory a := if a = driveByte then 0x80 else 0
  com1 := []
  device := ()

theorem oneDisk_boots : BootsFrom oneDisk ⟨0x0C,0x800⟩ :=
  ⟨0,by decide,rfl,Or.inr (Or.inl rfl),fun j hj => absurd hj (Nat.not_lt_zero j)⟩

theorem oneWorld_rsdp (a : ℕ) : ¬RsdpPlace oneWorld.memory a := by
  rintro ⟨hlow,-,-,hsign⟩
  have hbyte := congrArg (fun items => items.getD 0 0) hsign
  rw [stretch_getD _ (show 0 < 8 by decide),Nat.add_zero] at hbyte
  have hzero : oneWorld.memory a = 0 := if_neg (by unfold driveByte; omega)
  rw [hzero] at hbyte
  revert hbyte
  decide

theorem orchestrate_handoff_one : (∃ w',
    rmPhasebOrchestrate (plainBios oneDisk [oneRow]) flatLimit 0x20000 ⟨0,0,0,0,0,0,false⟩
      oneWorld = some (.ready w') ∧
    takeBundle w'.memory bundlePhys = some {
      mmap := [⟨0,0x9FC00,0⟩]
      image := oneDisk.read 0x800 imageSectors
      rsdp := none }) ∧ ∃ w',
    rmPhasebOrchestrate (plainBios oneDisk [oneRow]) realLimit 0x20000 ⟨0,0,0,0,0,0,false⟩
      oneWorld = some (.faulted w') := by
  have hall := fun limit => orchestrate_handoff
    quiet_nothing (plainBios_reads oneDisk [oneRow] _ 0x80)
    (plainBios_enumerates oneDisk [oneRow] _ (by decide)) limit ⟨0,0,0,0,0,0,false⟩ oneWorld rfl
    (by
      intro p hp
      rw [bootsFrom_unique hp oneDisk_boots]
      decide) 0x20000 (by decide)
  constructor
  · obtain ⟨ending,hrun,hready,-,hends,-,hflat⟩ := hall flatLimit
    obtain ⟨w',rfl⟩ := (hends (plainBios_reliable _ _ _) ⟨_,oneDisk_boots,by decide⟩).1.mpr
      (hflat (by decide))
    obtain ⟨p,found,hp,-,hfound,htake,-⟩ := hready w' rfl
    rw [bootsFrom_unique hp oneDisk_boots,(finds_none_iff hfound).mpr oneWorld_rsdp] at htake
    exact ⟨w',hrun,htake⟩
  · obtain ⟨ending,hrun,-,-,hends,hlow,-⟩ := hall realLimit
    obtain ⟨w',rfl⟩ := (hends (plainBios_reliable _ _ _) ⟨_,oneDisk_boots,by decide⟩).2.mpr
      (hlow (by decide))
    exact ⟨w',hrun⟩

end Zamak.BootBundle
