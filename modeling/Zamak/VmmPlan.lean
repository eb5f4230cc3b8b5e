import Mathlib.Data.BitVec

/-! # The address-space plan

The part of `vmm.rs` that decides what is mapped where: mapping directives, the
number of pages of one, and the plan made from kernel program headers, direct-map
regions and framebuffers, in that order. Addresses and lengths are 64-bit words. -/

set_option autoImplicit false

namespace Zamak.VmmPlan

abbrev Word := BitVec 64

def hhdmVirtBase : Word := 0xFFFF800000000000#64

inductive CachePolicy where
  | writeBack
  | writeThrough
  | writeCombining
  | uncacheable
  deriving DecidableEq, Repr

structure Permissions where
  readable : Bool
  writable : Bool
  executable : Bool
  user : Bool
  deriving DecidableEq, Repr

def kernelData : Permissions :=
  { readable := true, writable := true, executable := false, user := false }

def mmio : Permissions :=
  { readable := true, writable := true, executable := false, user := false }

structure Mapping where
  virtBase : Word
  physBase : Word
  length : Word
  perms : Permissions
  cache : CachePolicy
  deriving DecidableEq, Repr

def Mapping.pageCount (m : Mapping) (pageSize : ℕ) : ℕ :=
  m.length.toNat/pageSize+if m.length.toNat%pageSize = 0 then 0 else 1

structure KernelPhdr where
  virtAddr : Word
  physAddr : Word
  length : Word
  perms : Permissions

structure HhdmRegion where
  physBase : Word
  length : Word

structure FramebufferRegion where
  physBase : Word
  length : Word

def KernelPhdr.mapping (p : KernelPhdr) : Mapping :=
  { virtBase := p.virtAddr, physBase := p.physAddr, length := p.length, perms := p.perms,
    cache := .writeBack }

def HhdmRegion.mapping (r : HhdmRegion) : Mapping :=
  { virtBase := hhdmVirtBase+r.physBase, physBase := r.physBase, length := r.length,
    perms := kernelData, cache := .writeBack }

def FramebufferRegion.mapping (f : FramebufferRegion) : Mapping :=
  { virtBase := hhdmVirtBase+f.physBase, physBase := f.physBase, length := f.length,
    perms := mmio, cache := .writeCombining }

def build (kernelPhdrs : List KernelPhdr) (hhdmRegions : List HhdmRegion)
    (framebuffers : List FramebufferRegion) : List Mapping :=
  kernelPhdrs.map KernelPhdr.mapping++hhdmRegions.map HhdmRegion.mapping++
    framebuffers.map FramebufferRegion.mapping

end Zamak.VmmPlan
