import Zamak.MaskRounding
import Mathlib.Data.List.Pairwise

/-! # Blocks of a 32-bit heap

Layouts as `core::alloc` admits them, the blocks handed out for them, and rounding up as
both allocators compute it. -/

set_option autoImplicit false

namespace Zamak.HeapBlocks
open Zamak.MaskRounding

/-- The alignment is a power of two, and the size rounded up to it stays below 2^31. -/
structure Layout where
  size : UInt32
  alignLog : ℕ
  fits : size.toNat+2^alignLog ≤ 2^31

def Layout.align (layout : Layout) : UInt32 := UInt32.ofNat (2^layout.alignLog)

theorem Layout.align_toNat (layout : Layout) : layout.align.toNat = 2^layout.alignLog := by
  have hfits := layout.fits
  rw [Layout.align,UInt32.toNat_ofNat',Nat.mod_eq_of_lt (by omega)]

abbrev Block := Layout × UInt32

def Apart (b c : Block) : Prop :=
  b.2.toNat+b.1.size.toNat ≤ c.2.toNat ∨ c.2.toNat+c.1.size.toNat ≤ b.2.toNat

def Inside (lo hi : ℕ) (b : Block) : Prop := lo ≤ b.2.toNat ∧ b.2.toNat+b.1.size.toNat ≤ hi

def Aligned (b : Block) : Prop := b.1.align.toNat ∣ b.2.toNat

/-- Blocks in the order they are handed out, each behind the one before. -/
def Ascending (blocks : List Block) : Prop :=
  blocks.Pairwise fun b c => b.2.toNat+b.1.size.toNat ≤ c.2.toNat

theorem Ascending.apart {blocks : List Block} (h : Ascending blocks) : blocks.Pairwise Apart :=
  List.Pairwise.imp Or.inl h

theorem Ascending.snoc {blocks : List Block} (h : Ascending blocks) (b : Block)
    (hb : ∀ c ∈ blocks, c.2.toNat+c.1.size.toNat ≤ b.2.toNat) : Ascending (blocks++[b]) := by
  rw [Ascending,List.pairwise_append]
  refine ⟨h,List.pairwise_singleton _ _,?_⟩
  intro c hc d hd
  rw [List.mem_singleton.mp hd]
  exact hb c hc

theorem alignUp_toNat (x align : UInt32) (k : ℕ) (hk : align.toNat = 2^k)
    (h : x.toNat+2^k ≤ 2^32) :
    ((x+align-1) &&& ~~~(align-1)).toNat = roundUp (2^k) x.toNat := by
  have hpos : 0 < 2^k := Nat.two_pow_pos k
  have hlog : k ≤ 32 := (Nat.pow_le_pow_iff_right (by decide)).mp (by omega : 2^k ≤ 2^32)
  have hone : (1 : UInt32).toNat = 1 := rfl
  have hsum : (x+align-1).toNat = x.toNat+(2^k-1) := by
    rw [UInt32.toNat_sub,UInt32.toNat_add,hk,hone]
    omega
  have hmask : (~~~(align-1)).toNat = 2^32-2^k := by
    rw [UInt32.toNat_not,UInt32.toNat_sub,hk,hone]
    simp only [UInt32.size]
    omega
  rw [UInt32.toNat_and,hsum,hmask,and_mask 32 k _ hlog (by omega),roundUp]

end Zamak.HeapBlocks
