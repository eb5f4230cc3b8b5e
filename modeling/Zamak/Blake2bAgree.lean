import Zamak.Blake2bHash

/-! # Host and boot side compute the same digest

The host's 128-bit counter is the pair of counter words with its carry, its ten
schedule rows read modulo ten are the twelve rows of the boot side, and both keep
the last block back. So one block loop simulates the other, and the digests agree
on every input. -/

set_option autoImplicit false

namespace Zamak.Blake2bAgree
open Zamak.WindowSearch Zamak.Blake2bHash

def halves (t : BitVec 128) : Word × Word := (t.setWidth 64,(t>>>64).setWidth 64)

theorem compress_agree (h : Vector Word 8) (block : List UInt8) (t : BitVec 128)
    (last : Bool) : Core.compress h block (halves t) last = Cli.compress h block t last := by
  have hschedule : Core.sigma.toList.take rounds =
      (List.range 12).map fun round => Cli.sigma[round%10] := by decide
  unfold Core.compress Cli.compress
  rw [hschedule]
  rfl

theorem incrementCounter_halves (t : BitVec 128) (inc : Word) :
    Core.incrementCounter (halves t) inc = halves (t+inc.setWidth 128) := by
  have ht := t.isLt
  have hi := inc.isLt
  have hlow : ((halves t).1+inc).toNat = (t.toNat+inc.toNat)%2^64 := by
    simp only [halves,BitVec.toNat_add,BitVec.toNat_setWidth]
    omega
  have hsum : (t+inc.setWidth 128).toNat = (t.toNat+inc.toNat)%2^128 := by
    simp only [BitVec.toNat_add,BitVec.toNat_setWidth]
    omega
  have hhigh : (halves t).2.toNat = t.toNat/2^64 := by
    simp only [halves,BitVec.toNat_setWidth,BitVec.toNat_ushiftRight,Nat.shiftRight_eq_div_pow]
    omega
  apply Prod.ext
  · apply BitVec.eq_of_toNat_eq
    show ((halves t).1+inc).toNat = ((t+inc.setWidth 128).setWidth 64).toNat
    rw [hlow,BitVec.toNat_setWidth,hsum]
    omega
  · apply BitVec.eq_of_toNat_eq
    show (if (halves t).1+inc < inc then (halves t).2+1#64 else (halves t).2).toNat =
      (((t+inc.setWidth 128)>>>64).setWidth 64).toNat
    rw [BitVec.toNat_setWidth,BitVec.toNat_ushiftRight,Nat.shiftRight_eq_div_pow,hsum]
    by_cases hc : (halves t).1+inc < inc
    · rw [if_pos hc,BitVec.toNat_add,hhigh]
      rw [BitVec.lt_def,hlow] at hc
      have hone : (1#64).toNat = 1 := rfl
      rw [hone]
      have hlo : (halves t).1.toNat = t.toNat%2^64 := by
        simp [halves,BitVec.toNat_setWidth]
      omega
    · rw [if_neg hc,hhigh]
      rw [BitVec.lt_def,hlow] at hc
      omega

theorem absorbBlocks_agree (data : List UInt8) (offset : ℕ) (h : Vector Word 8)
    (t : BitVec 128) :
    Core.absorbBlocks data offset h (halves t) =
      ((Cli.absorbBlocks data offset h t).1,(Cli.absorbBlocks data offset h t).2.1,
        halves (Cli.absorbBlocks data offset h t).2.2) := by
  induction offset, h, t using Cli.absorbBlocks.induct data with
  | case1 offset h t hlen t' ih =>
    have hc : offset+blockBytes < data.length := by
      unfold blockBytes
      omega
    have ht : Core.incrementCounter (halves t) 128#64 = halves t' :=
      incrementCounter_halves t 128#64
    rw [Core.absorbBlocks,if_pos hc,Cli.absorbBlocks,if_pos hlen]
    simp only [ht]
    rw [compress_agree]
    exact ih
  | case2 offset h t hlen =>
    have hc : ¬ offset+blockBytes < data.length := by
      unfold blockBytes
      omega
    rw [Core.absorbBlocks,if_neg hc,Cli.absorbBlocks,if_neg hlen]

theorem absorbBlocks_rest (data : List UInt8) (offset : ℕ) (h : Vector Word 8)
    (t : BitVec 128) : data.length-(Cli.absorbBlocks data offset h t).1 ≤ 128 := by
  induction offset, h, t using Cli.absorbBlocks.induct data with
  | case1 offset h t hlen t' ih =>
    rw [Cli.absorbBlocks,if_pos hlen]
    exact ih
  | case2 offset h t hlen =>
    rw [Cli.absorbBlocks,if_neg hlen]
    omega

theorem padded_block (rest : List UInt8) :
    splice (splice (List.replicate 128 0) 0 rest) rest.length
      (List.replicate (128-rest.length) 0) = splice (List.replicate 128 0) 0 rest := by
  have hcut : splice (List.replicate 128 0) 0 rest =
      rest++List.replicate (128-rest.length) 0 := by
    rw [splice,List.take_zero,List.nil_append,Nat.zero_add,List.drop_replicate]
  rw [hcut,splice,List.take_append_of_le_length (Nat.le_refl _),List.take_length,
    List.drop_of_length_le,List.append_nil]
  simp only [List.length_append,List.length_replicate]
  omega

theorem toLeBytes_length (word : Word) : (toLeBytes word).length = 8 := by
  simp [toLeBytes]

theorem digest_words (k : ℕ) (words : List Word) (hk : k ≤ words.length) :
    (words.flatMap toLeBytes).take (8*k) =
      (List.range k).flatMap fun i => toLeBytes (words.getD i 0#64) := by
  induction k generalizing words with
  | zero => rfl
  | succ k ih =>
    cases words with
    | nil => simp at hk
    | cons w words =>
      have hw := toLeBytes_length w
      rw [List.flatMap_cons,List.take_append,List.take_of_length_le (by omega),hw,
        show 8*(k+1)-8 = 8*k by omega,ih words (by simpa using hk),List.range_succ_eq_map,
        List.flatMap_cons,List.flatMap_map]
      rfl

/-- The last block and the counter of the boot side, from what the block loop left. -/
theorem finalize_agree (rest : List UInt8) (hr : rest.length ≤ 128) (h : Vector Word 8)
    (t : BitVec 128) (s : Core.Blake2b) (hh : s.h = h) (ht : s.t = halves t)
    (hlen : s.bufLen = rest.length)
    (hbuf : s.buf = splice (List.replicate 128 0) 0 rest) :
    Core.finalize s =
      (Cli.compress h (splice (List.replicate 128 0) 0 rest)
        (t+BitVec.ofNat 128 rest.length) true).toList.flatMap toLeBytes := by
  have hinc : (BitVec.ofNat 64 rest.length).setWidth 128 = BitVec.ofNat 128 rest.length := by
    apply BitVec.eq_of_toNat_eq
    simp only [BitVec.toNat_setWidth,BitVec.toNat_ofNat]
    omega
  unfold Core.finalize
  simp only [hh,ht,hlen,hbuf,blockBytes]
  rw [padded_block rest,incrementCounter_halves,hinc,compress_agree]

/-- A fresh hasher after one `update`: the blocks absorbed, the rest in the buffer. -/
theorem update_fresh (data : List UInt8) (outLen : ℕ) (hout : 1 ≤ outLen ∧ outLen ≤ 64)
    (blocks : ℕ × Vector Word 8 × BitVec 128)
    (hblocks : Cli.absorbBlocks data 0 (start (BitVec.ofNat 64 outLen)) 0#128 = blocks) :
    (Core.update (Core.new outLen hout) data).h = blocks.2.1 ∧
      (Core.update (Core.new outLen hout) data).t = halves blocks.2.2 ∧
      (Core.update (Core.new outLen hout) data).bufLen = (data.drop blocks.1).length ∧
      (Core.update (Core.new outLen hout) data).buf =
        splice (List.replicate 128 0) 0 (data.drop blocks.1) := by
  have hfill : Core.fillBuffer (Core.new outLen hout) data = (Core.new outLen hout,0) := rfl
  have hloop := absorbBlocks_agree data 0 (start (BitVec.ofNat 64 outLen)) 0#128
  rw [hblocks] at hloop
  have hcore : Core.absorbBlocks data 0 (Core.new outLen hout).h (Core.new outLen hout).t =
      (blocks.1,blocks.2.1,halves blocks.2.2) := hloop
  unfold Core.update
  simp only [hfill,hcore]
  by_cases hr : 0 < data.length-blocks.1
  · rw [if_pos hr]
    refine ⟨rfl,rfl,?_,rfl⟩
    show 0+(data.length-blocks.1) = _
    rw [List.length_drop,Nat.zero_add]
  · rw [if_neg hr]
    have hnil : data.drop blocks.1 = [] := List.drop_of_length_le (by omega)
    rw [hnil]
    exact ⟨rfl,rfl,rfl,rfl⟩

def hostState (data : List UInt8) : Vector Word 8 :=
  let blocks := Cli.absorbBlocks data 0 (start 32#64) 0#128
  Cli.compress blocks.2.1 (splice (List.replicate 128 0) 0 (data.drop blocks.1))
    (blocks.2.2+BitVec.ofNat 128 (data.length-blocks.1)) true

theorem host_digest (data : List UInt8) :
    Cli.blake2b256 data = ((hostState data).toList.flatMap toLeBytes).take 32 := by
  rw [digest_words 4 _ (by simp)]
  rfl

theorem boot_digest (data : List UInt8) :
    Core.hash data 32 (by decide) = (hostState data).toList.flatMap toLeBytes := by
  have hrest := absorbBlocks_rest data 0 (start 32#64) 0#128
  unfold hostState Core.hash
  generalize hb : Cli.absorbBlocks data 0 (start 32#64) 0#128 = blocks at hrest ⊢
  obtain ⟨hh,ht,hlen,hbuf⟩ := update_fresh data 32 (by decide) blocks hb
  have hdrop : (data.drop blocks.1).length = data.length-blocks.1 := List.length_drop
  rw [finalize_agree (data.drop blocks.1) (by omega) blocks.2.1 blocks.2.2 _ hh ht hlen hbuf,hdrop]

/-- The host's digest is the first 32 bytes of the boot side's. -/
theorem digests_agree (data : List UInt8) :
    Cli.blake2b256 data = (Core.hash data 32 (by decide)).take 32 := by
  rw [host_digest,boot_digest]

end Zamak.Blake2bAgree
