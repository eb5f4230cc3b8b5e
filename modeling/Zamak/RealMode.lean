import Zamak.BiosServices
import Zamak.PartialSteps

/-! # The real-mode half of stage 2

`rm_phaseb_orchestrate` asks the BIOS for everything the loader needs while the processor is
still in real mode, and leaves it in a bundle at `0x1000`: the memory map, the place of the
boot partition and its first eight mebibytes, and the table of ACPI. Addresses are physical.
Nearly all of them are offsets of sixteen bits, within any limit that a segment has in real
mode, and the copy to high memory goes through an ES that is flat. The scan for the table of
ACPI goes through DS, whose limit the routines leave as it is: `rm_unreal_enter` raises that
of FS. The stack is not modelled. -/

set_option autoImplicit false

namespace Zamak.RealMode
open Zamak.ByteMemory Zamak.BiosServices Zamak.PartialSteps Zamak.PlacedBlocks Zamak.Segments

def bundlePhys : ℕ := 0x1000
def zbdlMagic : ℕ := 0x4C44425A
def e820MaxEntries : ℕ := 128

/-! ## Scratch addresses and fields of the bundle -/

def driveByte : ℕ := 0x0401
def e820Count : ℕ := 0x0410
def e820Di : ℕ := 0x0414
def e820Continuation : ℕ := 0x0418
def remainingSectors : ℕ := 0x0420
def currentLba : ℕ := 0x0424
def destPhys : ℕ := 0x0428
def mbrScratch : ℕ := 0x0500
def dapScratch : ℕ := 0x0700
def chunkBytes : ℕ := 0x0710
def bounce : ℕ := 0x5000
def imagePhys : ℕ := 0x02000000
def imageSectors : ℕ := 0x4000

structure DsLimit where
  last : ℕ
  sixteen : 0xFFFF ≤ last

theorem realLimit_sixteen : 0xFFFF ≤ 0xFFFF := Nat.le_refl _

def realLimit : DsLimit := ⟨0xFFFF,realLimit_sixteen⟩

theorem flatLimit_sixteen : 0xFFFF ≤ 0xFFFFFFFF := by decide

def flatLimit : DsLimit := ⟨0xFFFFFFFF,flatLimit_sixteen⟩

/-- The bundle is ready, the processor halts, or an access behind a limit faults. -/
inductive Ending (σ : Type) where
  | ready (w : World σ)
  | halted (w : World σ)
  | faulted (w : World σ)

section Routines
variable {σ : Type} (int : Interrupts σ)

def rmE820Next (r : Regs) (w : World σ) : Regs × World σ :=
  int 0x15 { r with eax := 0xE820, edx := smap, ecx := 24 } w

def rmDiskReadExt (r : Regs) (w : World σ) : Regs × World σ :=
  let s := int 0x13 { r with eax := setHigh8 r.eax 0x42 } w
  ({ s.1 with eax := setHigh8 (setLow8 s.1.eax (high8 s.1.eax)) 0 },s.2)

def movsb : ℕ → ℕ → ℕ → Memory → Memory
  | 0, _, _, m => m
  | ecx+1, esi, edi, m => movsb ecx (esi+1) (edi+1) (Function.update m edi (m esi))

/-- `rm_load_chunk`, with the count in `AX`, the place on the disk in `EBX` and the
destination in `EDI`. The status is in `AL`. -/
def rmLoadChunk (r : Regs) (w : World σ) : Regs × World σ :=
  let w := w.put 2 dapScratch 0x0010
  let w := w.put 2 (dapScratch+2) (low16 r.eax)
  let w := w.put 2 (dapScratch+4) bounce
  let w := w.put 2 (dapScratch+6) 0
  let w := w.put 4 (dapScratch+8) r.ebx.toNat
  let w := w.put 4 (dapScratch+12) 0
  let w := w.put 4 chunkBytes (low16 r.eax*2^9)
  let s := rmDiskReadExt int { r with esi := setLow16 r.esi dapScratch } w
  if low8 s.1.eax ≠ 0 then s
  else
    let m := movsb (number 4 s.2.memory chunkBytes) bounce s.1.edi.toNat s.2.memory
    ({ s.1 with eax := setLow8 s.1.eax 0 },{ s.2 with memory := m })

def noteRow (ebx : BitVec 32) (w : World σ) : World σ :=
  let w := w.put 4 e820Continuation ebx.toNat
  let w := w.put 2 e820Di (number 2 w.memory e820Di+24)
  w.put 4 e820Count (number 4 w.memory e820Count+1)

def e820Turn : Regs × World σ → Turn (Regs × World σ) (Regs × World σ)
  | (r,w) =>
    let s := rmE820Next int { r with ebx := BitVec.ofNat 32 (number 4 w.memory e820Continuation),
                                     edi := setLow16 r.edi (number 2 w.memory e820Di) } w
    if s.1.eax ≠ smap then .stop s
    else
      let w := noteRow s.1.ebx s.2
      if s.1.ebx = 0 then .stop (s.1,w)
      else if number 4 w.memory e820Count < e820MaxEntries then .go (s.1,w)
      else .stop (s.1,w)

def partScan (m : Memory) : ℕ → ℕ → UInt8 → Except UInt8 ℕ
  | 0, _, al => .error al
  | cx+1, bx, _ =>
    let al := m (bx+4)
    if al = 0x0B then .ok bx
    else if al = 0x0C then .ok bx
    else if al = 0x83 then .ok bx
    else partScan m cx (bx+16) al

def noteChunk (chunk : ℕ) (w : World σ) : World σ :=
  let w := w.put 4 destPhys (number 4 w.memory destPhys+chunk*2^9)
  let w := w.put 4 currentLba (number 4 w.memory currentLba+chunk)
  w.put 4 remainingSectors (number 4 w.memory remainingSectors+(2^32-chunk))

def loadTurn : Regs × World σ → Turn (Regs × World σ) (Except (UInt8 × World σ) (Regs × World σ))
  | (r,w) =>
    let eax := number 4 w.memory remainingSectors
    if eax = 0 then .stop (.ok (r,w))
    else
      let chunk := if eax ≤ 16 then eax else 16
      let s := rmLoadChunk int { r with eax := BitVec.ofNat 32 chunk,
                                        edx := setLow8 r.edx (w.memory driveByte),
                                        ebx := BitVec.ofNat 32 (number 4 w.memory currentLba),
                                        edi := BitVec.ofNat 32 (number 4 w.memory destPhys) } w
      if low8 s.1.eax ≠ 0 then .stop (.error (low8 s.1.eax,s.2))
      else .go (s.1,noteChunk chunk s.2)

def rsdpNext (ebx : ℕ) : Turn ℕ (Except ℕ (Option ℕ)) :=
  if ebx+16 < 0xFFFF0 then .go (ebx+16) else .stop (.ok none)

/-- One turn of `.Lpb_rsdp_loop`, at `EBX`; an error is the word that cannot be read. -/
def rsdpTurn (limit : DsLimit) (m : Memory) (ebx : ℕ) : Turn ℕ (Except ℕ (Option ℕ)) :=
  if limit.last < ebx+3 then .stop (.error ebx)
  else if number 4 m ebx ≠ 0x20445352 then rsdpNext ebx
  else if limit.last < ebx+7 then .stop (.error (ebx+4))
  else if number 4 m (ebx+4) ≠ 0x20525450 then rsdpNext ebx
  else .stop (.ok (some ebx))

end Routines

section Orchestrate
variable {σ : Type} (int : Interrupts σ) (limit : DsLimit) (fuel : ℕ)

def hexDigit (b : UInt8) : UInt8 := if b < 10 then b+0x30 else b+0x37

def fail (al : UInt8) (w : World σ) : Ending σ :=
  let w := (w.put 1 0x0430 al.toNat).out 0x3F
  let al := w.memory 0x0430
  .halted ((w.out (hexDigit (al >>> 4 &&& 0x0F))).out (hexDigit (al &&& 0x0F)))

def openBundle (w : World σ) : World σ :=
  let w := { w with memory := store w.memory bundlePhys (List.replicate 0x1E00 0) }
  let w := w.out 0x55
  let w := w.put 1 0x1004 (w.memory driveByte).toNat
  let w := w.out 0x45
  let w := w.put 4 e820Count 0
  let w := w.put 2 e820Di 0x100C
  w.put 4 e820Continuation 0

def mbrPacket (w : World σ) : World σ :=
  let w := w.put 2 dapScratch 0x0010
  let w := w.put 2 (dapScratch+2) 1
  let w := w.put 2 (dapScratch+4) mbrScratch
  let w := w.put 2 (dapScratch+6) 0
  let w := w.put 2 (dapScratch+8) 0
  let w := w.put 2 (dapScratch+10) 0
  let w := w.put 2 (dapScratch+12) 0
  w.put 2 (dapScratch+14) 0

def findPartition (r : Regs) (w : World σ) : Except (UInt8 × World σ) (ℕ × Regs × World σ) :=
  let w := mbrPacket (w.out 0x4D)
  let s := int 0x13 { r with eax := setHigh8 r.eax 0x42, edx := setLow8 r.edx (w.memory driveByte),
                             esi := setLow16 r.esi dapScratch } w
  if s.1.carry then .error (high8 s.1.eax,s.2)
  else
    match partScan s.2.memory 4 0x06BE (high8 s.1.eax) with
    | .error al => .error (al,s.2)
    | .ok bx => .ok (bx,s)

/-- The partition goes into the bundle, and the loop over its sectors is set up. -/
def notePartition (bx : ℕ) (w : World σ) : World σ :=
  let w := w.put 4 0x1C0C (number 4 w.memory (bx+8))
  let w := w.put 1 0x1C10 (w.memory (bx+4)).toNat
  let w := w.out 0x4C
  let w := w.put 4 currentLba (number 4 w.memory 0x1C0C)
  let w := w.put 4 destPhys imagePhys
  w.put 4 remainingSectors imageSectors

def noteImage (w : World σ) : World σ :=
  let w := w.out 0x6C
  let w := w.put 4 0x1C14 imagePhys
  let w := w.put 4 0x1C18 0
  let w := w.put 4 0x1C1C 0x00800000
  (w.put 4 0x1C20 0).out 0x52

def noteRsdp (found : Option ℕ) (w : World σ) : World σ :=
  match found with
  | none => w
  | some ebx => (w.put 4 0x2D28 ebx).put 4 0x2D2C 0

def closeBundle (w : World σ) : World σ := (w.put 4 bundlePhys zbdlMagic).out 0x6B

/-- `rm_phaseb_orchestrate`, with the drive saved by `_start` and the limit that DS has. -/
def rmPhasebOrchestrate (r : Regs) (w : World σ) : Option (Ending σ) := do
  let (r,w) ← run (e820Turn int) fuel (r,openBundle w)
  match findPartition int r (w.put 4 0x1008 (number 4 w.memory e820Count)) with
  | .error (al,w) => some (fail al w)
  | .ok (bx,r,w) =>
    match ← run (loadTurn int) fuel (r,notePartition bx w) with
    | .error (al,w) => some (fail al w)
    | .ok (_,w) =>
      let w := noteImage w
      match ← run (rsdpTurn limit w.memory) fuel 0xE0000 with
      | .error _ => some (.faulted w)
      | .ok found => some (.ready (closeBundle (noteRsdp found w)))

end Orchestrate

end Zamak.RealMode
