import Mathlib.Data.BitVec
import Zamak.ByteMemory

/-! # The services of a BIOS

An interrupt takes the registers and the state of the machine to new ones. What the boot
code counts on is said service by service: what the registers ask for, what the answer
holds, and which memory may change. The firmware owns some addresses, which it may write at
any time; it may keep a state of its own. -/

set_option autoImplicit false

namespace Zamak.BiosServices
open Zamak.ByteMemory Zamak.PlacedBlocks Zamak.Segments Zamak.TagStreams

structure Regs where
  eax : BitVec 32
  ebx : BitVec 32
  ecx : BitVec 32
  edx : BitVec 32
  esi : BitVec 32
  edi : BitVec 32
  carry : Bool

/-- The memory, what has gone out on the serial port, and what the firmware remembers. -/
structure World (σ : Type) where
  memory : Memory
  com1 : List UInt8
  device : σ

section World
variable {σ : Type} (w : World σ)

def World.put (width a v : ℕ) : World σ := { w with memory := ByteMemory.put width w.memory a v }

def World.out (b : UInt8) : World σ := { w with com1 := w.com1++[b] }

@[simp] theorem World.put_memory (width a v : ℕ) :
    (w.put width a v).memory = ByteMemory.put width w.memory a v := rfl
@[simp] theorem World.put_com1 (width a v : ℕ) : (w.put width a v).com1 = w.com1 := rfl
@[simp] theorem World.out_memory (b : UInt8) : (w.out b).memory = w.memory := rfl
@[simp] theorem World.out_com1 (b : UInt8) : (w.out b).com1 = w.com1++[b] := rfl

end World

/-! ## Parts of a register -/

def low8 (e : BitVec 32) : UInt8 := UInt8.ofNat e.toNat
def high8 (e : BitVec 32) : UInt8 := UInt8.ofNat (e.toNat/0x100)
def low16 (e : BitVec 32) : ℕ := e.toNat%0x10000

def setLow8 (e : BitVec 32) (b : UInt8) : BitVec 32 :=
  BitVec.ofNat 32 (e.toNat/0x100*0x100+b.toNat)

def setHigh8 (e : BitVec 32) (b : UInt8) : BitVec 32 :=
  BitVec.ofNat 32 (e.toNat/0x10000*0x10000+b.toNat*0x100+e.toNat%0x100)

def setLow16 (e : BitVec 32) (v : ℕ) : BitVec 32 :=
  BitVec.ofNat 32 (e.toNat/0x10000*0x10000+v%0x10000)

section Parts
variable (e : BitVec 32) (b : UInt8)

@[simp] theorem low8_setLow8 : low8 (setLow8 e b) = b := by
  have he := e.isLt
  have hb := b.toNat_lt
  apply UInt8.toNat_inj.mp
  rw [low8,setLow8,UInt8.toNat_ofNat',BitVec.toNat_ofNat]
  omega

@[simp] theorem high8_setHigh8 : high8 (setHigh8 e b) = b := by
  have he := e.isLt
  have hb := b.toNat_lt
  apply UInt8.toNat_inj.mp
  rw [high8,setHigh8,UInt8.toNat_ofNat',BitVec.toNat_ofNat]
  omega

@[simp] theorem low8_setHigh8 : low8 (setHigh8 e b) = low8 e := by
  have he := e.isLt
  have hb := b.toNat_lt
  apply UInt8.toNat_inj.mp
  rw [low8,low8,setHigh8,UInt8.toNat_ofNat',UInt8.toNat_ofNat',BitVec.toNat_ofNat]
  omega

@[simp] theorem low16_setLow16 (v : ℕ) : low16 (setLow16 e v) = v%0x10000 := by
  have he := e.isLt
  rw [low16,setLow16,BitVec.toNat_ofNat]
  omega

end Parts

/-! ## Extended reads -/

structure Disk where
  sectors : ℕ
  bytes : ℕ → UInt8

def Disk.read (disk : Disk) (lba count : ℕ) : List UInt8 :=
  stretch disk.bytes (lba*512) (count*512)

structure Dap where
  size : ℕ
  reserved : ℕ
  count : ℕ
  offset : ℕ
  segment : ℕ
  lba : ℕ
  deriving DecidableEq

def dapAt (memory : Memory) (a : ℕ) : Dap where
  size := number 1 memory a
  reserved := number 1 memory (a+1)
  count := number 2 memory (a+2)
  offset := number 2 memory (a+4)
  segment := number 2 memory (a+6)
  lba := number 8 memory (a+8)

def Dap.buffer (dap : Dap) : ℕ := dap.segment*16+dap.offset

/-- A packet every BIOS takes: at most 127 sectors, to a buffer below one mebibyte that does
not cross a boundary of 64 KiB. -/
structure Dap.Allowed (dap : Dap) : Prop where
  size : dap.size = 16
  reserved : dap.reserved = 0
  some : 0 < dap.count
  few : dap.count ≤ 127
  segment : dap.buffer%0x10000+dap.count*512 ≤ 0x10000
  low : dap.buffer+dap.count*512 ≤ 0x100000

abbrev Interrupts (σ : Type) := UInt8 → Regs → World σ → Regs × World σ

section Services
variable {σ : Type} (int : Interrupts σ) (own : ℕ → Prop)

/-- `INT 13h, AH=42h`: the sectors that the packet at `DS:SI` asks for are in its buffer, or
the carry is set and `AH` says why; so it is when they are not all on the disk. -/
def Reads (drive : UInt8) (disk : Disk) : Prop :=
  ∀ r w, high8 r.eax = 0x42 → low8 r.edx = drive →
    (dapAt w.memory (low16 r.esi)).Allowed →
    let dap := dapAt w.memory (low16 r.esi)
    (int 0x13 r w).2.com1 = w.com1 ∧ (int 0x13 r w).1.edi = r.edi ∧
    (((int 0x13 r w).1.carry = false ∧ high8 (int 0x13 r w).1.eax = 0 ∧
        dap.lba+dap.count ≤ disk.sectors ∧
        Writes own w.memory (int 0x13 r w).2.memory dap.buffer (disk.read dap.lba dap.count)) ∨
      ((int 0x13 r w).1.carry = true ∧ high8 (int 0x13 r w).1.eax ≠ 0 ∧
        Keeps (fun x => own x ∨ Within dap.buffer (dap.count*512) x) w.memory
          (int 0x13 r w).2.memory))

/-- No read of sectors that are on the disk fails. -/
def Reliable (drive : UInt8) (disk : Disk) : Prop :=
  ∀ r w, high8 r.eax = 0x42 → low8 r.edx = drive →
    (dapAt w.memory (low16 r.esi)).Allowed →
    (dapAt w.memory (low16 r.esi)).lba+(dapAt w.memory (low16 r.esi)).count ≤ disk.sectors →
    (int 0x13 r w).1.carry = false

/-- `INT 13h, AH=41h`: the extensions are there. -/
def HasExtensions (drive : UInt8) : Prop :=
  ∀ r w, high8 r.eax = 0x41 → low16 r.ebx = 0x55AA → low8 r.edx = drive →
    (int 0x13 r w).1.carry = false ∧ low16 (int 0x13 r w).1.ebx = 0xAA55 ∧
    (int 0x13 r w).2.com1 = w.com1 ∧ Keeps own w.memory (int 0x13 r w).2.memory

/-- `INT 10h, AH=0Eh`: a character goes to the screen and stays in `AL`. -/
def Teletype : Prop :=
  ∀ r w, high8 r.eax = 0x0E → low8 (int 0x10 r w).1.eax = low8 r.eax ∧
    (int 0x10 r w).2.com1 = w.com1 ∧ Keeps own w.memory (int 0x10 r w).2.memory

def smap : BitVec 32 := 0x534D4150

/-- A range of memory as `INT 15h, AX=E820h` tells it; not every firmware writes the last
field. -/
structure Row where
  base : BitVec 64
  len : BitVec 64
  typ : BitVec 32
  acpi : Option (BitVec 32)
  deriving DecidableEq

def Row.written (row : Row) : List UInt8 :=
  natBytes 8 row.base.toNat++natBytes 8 row.len.toNat++natBytes 4 row.typ.toNat++
    row.acpi.elim [] fun a => natBytes 4 a.toNat

/-- The ranges come one at a time to `ES:DI`. `EBX` holds the place in the enumeration: zero
at its start, and zero or a place where no range is left behind the last one. -/
structure Enumerates (rows : List Row) (place : ℕ → BitVec 32) : Prop where
  start : place 0 = 0
  inside : ∀ i, 0 < i → i < rows.length → place i ≠ 0
  row : ∀ i (hi : i < rows.length) r w, r.eax = 0xE820 → r.edx = smap → r.ecx = 24 →
    r.ebx = place i → low16 r.edi+24 ≤ 0x10000 →
    (int 0x15 r w).1.eax = smap ∧ (int 0x15 r w).1.ebx = place (i+1) ∧
    (int 0x15 r w).2.com1 = w.com1 ∧
    Writes own w.memory (int 0x15 r w).2.memory (low16 r.edi) rows[i].written
  past : ∀ r w, r.eax = 0xE820 → r.edx = smap → r.ecx = 24 →
    r.ebx = place rows.length → (r.ebx = 0 → rows = []) → low16 r.edi+24 ≤ 0x10000 →
    (int 0x15 r w).1.eax ≠ smap ∧ (int 0x15 r w).2.com1 = w.com1 ∧
    Keeps own w.memory (int 0x15 r w).2.memory

end Services

theorem read_length (disk : Disk) (lba count : ℕ) :
    (disk.read lba count).length = count*512 := stretch_length _ _ _

theorem read_append (disk : Disk) (lba m n : ℕ) :
    disk.read lba m++disk.read (lba+m) n = disk.read lba (m+n) := by
  rw [Disk.read,Disk.read,Disk.read,Nat.add_mul,stretch_append,← Nat.add_mul]

/-! ## A firmware -/

section Plain
variable (disk : Disk) (rows : List Row)

def plainBios : Interrupts Unit := fun no r w =>
  if no = 0x13 then
    if high8 r.eax = 0x42 then
      let dap := dapAt w.memory (low16 r.esi)
      if dap.lba+dap.count ≤ disk.sectors then
        ({ r with eax := setHigh8 r.eax 0, carry := false },
          { w with memory := store w.memory dap.buffer (disk.read dap.lba dap.count) })
      else ({ r with eax := setHigh8 r.eax 1, carry := true },w)
    else ({ r with ebx := setLow16 r.ebx 0xAA55, carry := false },w)
  else if no = 0x15 then
    if h : r.ebx.toNat < rows.length then
      ({ r with eax := smap, ebx := if r.ebx.toNat+1 < rows.length then r.ebx+1 else 0 },
        { w with memory := store w.memory (low16 r.edi) rows[r.ebx.toNat].written })
    else ({ r with eax := 0 },w)
  else (r,w)

variable (own : ℕ → Prop) (drive : UInt8)

theorem writes_store (m : Memory) (a : ℕ) (items : List UInt8) :
    Writes own m (store m a items) a items :=
  ⟨stretch_store m a items,keeps_store fun _ hx => Or.inr hx⟩

theorem plainBios_reads : Reads (plainBios disk rows) own drive disk := by
  intro r w hah _ _
  dsimp only
  by_cases hon : (dapAt w.memory (low16 r.esi)).lba+(dapAt w.memory (low16 r.esi)).count ≤
      disk.sectors
  · simp only [plainBios,hah,hon,if_true,high8_setHigh8,true_and]
    exact Or.inl (writes_store own _ _ _)
  · simp only [plainBios,hah,hon,if_true,if_false,high8_setHigh8,true_and]
    exact Or.inr ⟨by decide,Keeps.refl _⟩

theorem plainBios_reliable : Reliable (plainBios disk rows) drive disk := by
  intro r w hah _ _ hon
  simp only [plainBios,hah,hon,if_true]

theorem plainBios_extensions : HasExtensions (plainBios disk rows) own drive := by
  intro r w hah _ _
  have hne : high8 r.eax ≠ 0x42 := by
    rw [hah]
    decide
  simp only [plainBios,if_true,if_neg hne,low16_setLow16,true_and]
  exact Keeps.refl _

theorem plainBios_teletype : Teletype (plainBios disk rows) own := by
  intro r w _
  refine ⟨rfl,rfl,Keeps.refl _⟩

/-- The place in the enumeration is the number of ranges that have been told. -/
def plainPlace (i : ℕ) : BitVec 32 := if i < rows.length then BitVec.ofNat 32 i else 0

theorem plainBios_enumerates (hlen : rows.length < 2^32) :
    Enumerates (plainBios disk rows) own rows (plainPlace rows) := by
  have hplace : ∀ i, i < rows.length → (plainPlace rows i).toNat = i := by
    intro i hi
    rw [plainPlace,if_pos hi,BitVec.toNat_ofNat,Nat.mod_eq_of_lt (by omega)]
  constructor
  · unfold plainPlace
    split_ifs <;> rfl
  · intro i hpos hi hzero
    have h := hplace i hi
    rw [hzero] at h
    exact hpos.ne h
  · intro i hi r w _ _ _ hebx _
    have hat : r.ebx.toNat = i := by rw [hebx,hplace i hi]
    subst hat
    have hnext : (if r.ebx.toNat+1 < rows.length then r.ebx+1 else 0) =
        plainPlace rows (r.ebx.toNat+1) := by
      unfold plainPlace
      split_ifs with h
      · apply BitVec.eq_of_toNat_eq
        rw [BitVec.toNat_add,BitVec.toNat_ofNat]
        rfl
      · rfl
    have hcall : plainBios disk rows 0x15 r w =
        ({ r with eax := smap, ebx := plainPlace rows (r.ebx.toNat+1) },
          { w with memory := store w.memory (low16 r.edi) rows[r.ebx.toNat].written }) := by
      rw [← hnext]
      exact dif_pos hi
    rw [hcall]
    exact ⟨rfl,rfl,rfl,writes_store own _ _ _⟩
  · intro r w _ _ _ hebx hnil _
    have hzero : r.ebx = 0 := by
      rw [hebx,plainPlace,if_neg (Nat.lt_irrefl _)]
    have hrows := hnil hzero
    subst hrows
    refine ⟨?_,rfl,Keeps.refl _⟩
    show (0 : BitVec 32) ≠ smap
    decide

end Plain

end Zamak.BiosServices
