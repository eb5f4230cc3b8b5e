import Zamak.RadixStore
import Zamak.VmmPlan

/-! # Page-table entries of the three paging formats

The encodings of `arch.rs` for aarch64, riscv64 Sv48 and loongarch64: table and
leaf entries, the attribute bits of a permission and a cache policy, and how an
entry is read back. The three builders differ in nothing else, so what they share
is stated over a `Format` and each one is an instance of it. -/

set_option autoImplicit false

namespace Zamak.PageFormats
open Zamak.VmmPlan Zamak.RadixStore

/-- What one builder writes and how a walk reads it. `tableEntry` and `leafEntry`
are written by `map_page`, `address` is the field a walk follows, `isTable` the
test it makes on the three upper levels. -/
structure Format where
  tableEntry : Word → Word
  leafEntry : Word → Word → Word
  address : Word → Word
  isTable : Word → Bool
  addressField : Word
  leafAttrs : Permissions → CachePolicy → Word
  memoryType : Word → Word
  noExecute : Word → Bool

def pteValid : Word := 1#64

def valid (e : Word) : Bool := e&&&pteValid != 0#64

/-- The mask `0x0000_FFFF_FFFF_F000` of aarch64 and loongarch64. -/
def addressMask : Word := 0x0000FFFFFFFFF000#64

namespace Aarch64

def pteTable : Word := 1#64<<<1
def ptePage : Word := 1#64<<<1
def pteAf : Word := 1#64<<<10
def pteInnerShareable : Word := 3#64<<<8
def pteApRoEl1 : Word := 2#64<<<6
def pteApRwEl1 : Word := 0#64<<<6
def pteUxn : Word := 1#64<<<54
def ptePxn : Word := 1#64<<<53

def mairIndex : CachePolicy → Word
  | .uncacheable => 0#64
  | .writeCombining => 1#64
  | .writeThrough => 2#64
  | .writeBack => 3#64

def permBits (p : Permissions) : Word :=
  (if p.writable then pteApRwEl1 else pteApRoEl1)|||
    (if p.executable then 0#64 else ptePxn|||pteUxn)

def leafAttrs (perms : Permissions) (cache : CachePolicy) (isL3 : Bool) : Word :=
  pteValid|||pteAf|||pteInnerShareable|||(if isL3 then ptePage else 0#64)|||
    ((mairIndex cache&&&7#64)<<<2)|||permBits perms

def format : Format where
  tableEntry := fun child => child|||pteValid|||pteTable
  leafEntry := fun pa attrs => (pa&&&addressMask)|||attrs
  address := fun e => e&&&addressMask
  isTable := fun e => e&&&3#64 == 3#64
  addressField := addressMask
  leafAttrs := fun perms cache => leafAttrs perms cache true
  memoryType := fun e => (e>>>2)&&&7#64
  noExecute := fun e => e&&&(ptePxn|||pteUxn) == ptePxn|||pteUxn

end Aarch64

namespace Riscv64

def pteR : Word := 1#64<<<1
def pteW : Word := 1#64<<<2
def pteX : Word := 1#64<<<3
def pteU : Word := 1#64<<<4
def pteG : Word := 1#64<<<5
def pteA : Word := 1#64<<<6
def pteD : Word := 1#64<<<7
def ptePbmtShift : ℕ := 61
def pbmtPma : Word := 0#64
def pbmtNc : Word := 1#64
def pbmtIo : Word := 2#64

def pbmtBits (cache : CachePolicy) : Word :=
  let m : Word := match cache with
    | .writeBack => pbmtPma
    | .writeThrough => pbmtPma
    | .writeCombining => pbmtNc
    | .uncacheable => pbmtIo
  m<<<ptePbmtShift

def permBits (p : Permissions) : Word :=
  (if p.readable then pteR else 0#64)|||(if p.writable then pteW else 0#64)|||
    (if p.executable then pteX else 0#64)|||(if p.user then pteU else 0#64)

def leafAttrs (perms : Permissions) (cache : CachePolicy) : Word :=
  pteValid|||pteG|||pteA|||pteD|||permBits perms|||pbmtBits cache

def paToPte (pa : Word) : Word := ((pa>>>12)&&&0x0FFFFFFFFFFF#64)<<<10

def pteToPa (pte : Word) : Word := ((pte>>>10)&&&0x0FFFFFFFFFFF#64)<<<12

def format : Format where
  tableEntry := fun child => pteValid|||paToPte child
  leafEntry := fun pa attrs => paToPte pa|||attrs
  address := pteToPa
  isTable := fun e => e&&&(pteValid|||pteR|||pteW|||pteX) == pteValid
  addressField := 0x003FFFFFFFFFFC00#64
  leafAttrs := leafAttrs
  memoryType := fun e => (e>>>61)&&&3#64
  noExecute := fun e => e&&&pteX == 0#64

end Riscv64

namespace Loongarch64

def pteD : Word := 1#64<<<1
def ptePlv0 : Word := 0#64<<<2
def ptePlv3 : Word := 3#64<<<2
def pteG : Word := 1#64<<<6
def pteNx : Word := 1#64<<<62

/-- Bit 7 of an upper-level entry marks a block; no builder sets it. -/
def pteHuge : Word := 1#64<<<7

def matBits (cache : CachePolicy) : Word :=
  let mat : Word := match cache with
    | .uncacheable => 0#64
    | .writeCombining => 2#64
    | .writeThrough => 1#64
    | .writeBack => 1#64
  mat<<<4

def permBits (p : Permissions) : Word :=
  (if p.user then ptePlv3 else ptePlv0)|||(if p.executable then 0#64 else pteNx)|||
    (if p.writable then pteD else 0#64)

def leafAttrs (perms : Permissions) (cache : CachePolicy) : Word :=
  pteValid|||pteG|||permBits perms|||matBits cache

def format : Format where
  tableEntry := fun child => (child&&&addressMask)|||pteValid
  leafEntry := fun pa attrs => (pa&&&addressMask)|||attrs
  address := fun e => e&&&addressMask
  isTable := fun e => e&&&(pteValid|||pteHuge) == pteValid
  addressField := addressMask
  leafAttrs := leafAttrs
  memoryType := fun e => (e>>>4)&&&3#64
  noExecute := fun e => e&&&pteNx == pteNx

end Loongarch64

inductive Arch where
  | aarch64
  | riscv64
  | loongarch64
  deriving DecidableEq, Repr

def Arch.format : Arch → Format
  | .aarch64 => Aarch64.format
  | .riscv64 => Riscv64.format
  | .loongarch64 => Loongarch64.format

def Format.codec (f : Format) : Codec Word Word where
  present := valid
  table := f.isTable
  link := f.tableEntry
  follow := f.address
  empty := 0#64

/-- A page-aligned physical address below `2 ^ 48`. -/
def IsFrame (pa : Word) : Prop := pa.toNat%4096 = 0 ∧ pa.toNat < 2^48

instance (pa : Word) : Decidable (IsFrame pa) := inferInstanceAs (Decidable (_ ∧ _))

def pageBase (pa : Word) : Word := (pa>>>12)<<<12

/-- Attribute bits a leaf may carry: valid, and clear of the address field. -/
def Format.Admits (f : Format) (attrs : Word) : Prop :=
  valid attrs = true ∧ attrs&&&f.addressField = 0#64

instance (f : Format) (attrs : Word) : Decidable (f.Admits attrs) :=
  inferInstanceAs (Decidable (_ ∧ _))

structure Format.Faithful (f : Format) : Prop where
  lawful : Lawful f.codec IsFrame
  leaf_valid : ∀ pa attrs, f.Admits attrs → valid (f.leafEntry pa attrs) = true
  leaf_address : ∀ pa attrs, pa.toNat < 2^48 → f.Admits attrs →
    f.address (f.leafEntry pa attrs) = pageBase pa
  leaf_attrs : ∀ pa attrs, f.Admits attrs →
    f.leafEntry pa attrs&&& ~~~f.addressField = attrs
  admits_leafAttrs : ∀ perms cache, f.Admits (f.leafAttrs perms cache)

end Zamak.PageFormats
