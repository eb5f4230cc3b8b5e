import Zamak.Rfc7693
import Zamak.Blake2bAgree

/-! # The boot side's hasher computes the RFC's digest

Vectors are read as the arrays of the RFC, and the compression functions agree. The
hasher then keeps one fact about the bytes it was fed: all blocks before the last
one are compressed, and the last one, full or not, is in the buffer. An `update`
keeps it however the bytes are cut. -/

set_option autoImplicit false

namespace Zamak.Blake2bRfc
open Zamak.WindowSearch Zamak.Blake2bHash Zamak.Blake2bAgree

def words {α : Type*} {n : ℕ} (v : Vector α n) : Fin n → α := fun i => v[i]

theorem getElem_words {α : Type*} {n : ℕ} (v : Vector α n) (a : Fin n) : v[a] = words v a := rfl

theorem words_set_at {α : Type*} {n : ℕ} (v : Vector α n) (k : ℕ) (hk : k < n) (x : α) :
    words (v.set k x hk) = Function.update (words v) ⟨k,hk⟩ x := by
  funext i
  show (v.set k x hk)[i.val] = _
  rw [Vector.getElem_set,Function.update_apply]
  by_cases h : i = ⟨k,hk⟩
  · rw [if_pos h,if_pos (by rw [h])]
  · rw [if_neg h,if_neg (fun he => h (Fin.ext he.symm))]
    rfl

theorem words_set {α : Type*} {n : ℕ} (v : Vector α n) (a : Fin n) (x : α) :
    words (v.set a x) = Function.update (words v) a x :=
  words_set_at v a.val a.isLt x

theorem words_append (h k : Vector Word 8) :
    words (h++k) = Fin.append (words h) (words k) := by
  funext i
  refine Fin.addCases (fun j => ?_) (fun j => ?_) i
  · rw [Fin.append_left]
    exact Vector.getElem_append_left _
  · rw [Fin.append_right]
    show (h++k)[8+j.val] = _
    rw [Vector.getElem_append_right _ (by omega)]
    show k[8+j.val-8] = k[j.val]
    congr 1
    omega

theorem g_words (v : Vector Word 16) (a b c d : Fin 16) (x y : Word) :
    words (g v a b c d x y) = Rfc7693.mix (words v) a b c d x y := by
  simp only [g,getElem_words,words_set]
  rfl

theorem mixRow_words (m v : Vector Word 16) (s : Row) :
    words (mixRow m v s) = Rfc7693.round (words m) (words v) (words s) := by
  simp only [mixRow,g_words]
  rfl

theorem foldl_words (m v : Vector Word 16) (rows : List Row) :
    words (rows.foldl (mixRow m) v) =
      (rows.map words).foldl (Rfc7693.round (words m)) (words v) := by
  induction rows generalizing v with
  | nil => rfl
  | cons s rows ih =>
    rw [List.foldl_cons,ih,mixRow_words]
    rfl

theorem schedule_words : (Core.sigma.toList.take rounds).map words =
    (List.range 12).map fun i => Rfc7693.sigma (Fin.ofNat 10 i) := by
  decide

theorem iv_words : words iv = Rfc7693.iv := by
  decide

theorem foldl_bytes_bit (bytes : ℕ → BitVec 8) (n i : ℕ) (hi : i < 64) :
    ((List.range n).foldl (fun word j => word|||((bytes j).setWidth 64<<<(8*j))) 0#64).getLsbD i =
      (decide (i/8 < n) && (bytes (i/8)).getLsbD (i%8)) := by
  induction n with
  | zero => simp
  | succ n ih =>
    rw [List.range_succ,List.foldl_append,List.foldl_cons,List.foldl_nil,BitVec.getLsbD_or,ih,
      BitVec.getLsbD_shiftLeft,BitVec.getLsbD_setWidth]
    rcases Nat.lt_trichotomy (i/8) n with h|h|h
    · simp [h,show i < 8*n by omega,show i/8 < n+1 by omega]
    · subst h
      have hmod : i-8*(i/8) = i%8 := by omega
      have hlt : i%8 < 64 := by omega
      simp [hi,show ¬ i < 8*(i/8) by omega,hmod,hlt]
    · have hout : (bytes n).getLsbD (i-8*n) = false := BitVec.getLsbD_of_ge _ _ (by omega)
      simp [show ¬ i/8 < n by omega,show ¬ i/8 < n+1 by omega,hout]

theorem littleEndian_bit (bytes : List UInt8) (i : ℕ) :
    (Rfc7693.littleEndian bytes).testBit i = (bytes.getD (i/8) 0).toNat.testBit (i%8) := by
  induction bytes generalizing i with
  | nil => simp [Rfc7693.littleEndian]
  | cons b bytes ih =>
    have hb : b.toNat < 2^8 := b.toNat_lt
    have hsum : Rfc7693.littleEndian (b::bytes) = 2^8*Rfc7693.littleEndian bytes+b.toNat := by
      rw [Rfc7693.littleEndian]
      omega
    rw [hsum,Nat.testBit_two_pow_mul_add _ hb]
    by_cases h : i < 8
    · rw [if_pos h,show i/8 = 0 by omega,show i%8 = i by omega]
      rfl
    · rw [if_neg h,ih,show i/8 = (i-8)/8+1 by omega,show i%8 = (i-8)%8 by omega]
      rfl

theorem fromLeBytes_eq (block : List UInt8) (off : ℕ) :
    fromLeBytes block off = Rfc7693.wordAt block off := by
  apply BitVec.eq_of_getLsbD_eq
  intro i hi
  have hk : i/8 < 8 := by omega
  unfold fromLeBytes Rfc7693.wordAt
  rw [foldl_bytes_bit (fun j => (block.getD (off+j) 0).toBitVec) 8 i hi,BitVec.getLsbD_ofNat,
    littleEndian_bit]
  simp [hk,hi,List.getD_eq_getElem?_getD]
  rfl

theorem words_ofFn {α : Type*} {n : ℕ} (f : Fin n → α) : words (Vector.ofFn f) = f := by
  funext i
  exact Vector.getElem_ofFn i.isLt

def counterWords (t : ℕ) : Word × Word := (BitVec.ofNat 64 t,BitVec.ofNat 64 (t/2^64))

theorem counterWords_halves (t : ℕ) : counterWords t = halves (BitVec.ofNat 128 t) := by
  apply Prod.ext
  · apply BitVec.eq_of_toNat_eq
    simp only [counterWords,halves,BitVec.toNat_ofNat,BitVec.toNat_setWidth]
    omega
  · apply BitVec.eq_of_toNat_eq
    simp only [counterWords,halves,BitVec.toNat_ofNat,BitVec.toNat_setWidth,
      BitVec.toNat_ushiftRight,Nat.shiftRight_eq_div_pow]
    omega

theorem incrementCounter_words (t k : ℕ) (hk : k < 2^64) :
    Core.incrementCounter (counterWords t) (BitVec.ofNat 64 k) = counterWords (t+k) := by
  rw [counterWords_halves,incrementCounter_halves,counterWords_halves]
  congr 1
  apply BitVec.eq_of_toNat_eq
  simp only [BitVec.toNat_add,BitVec.toNat_ofNat,BitVec.toNat_setWidth]
  omega

theorem lowCounter_lt : 12 < 16 := by decide

theorem highCounter_lt : 13 < 16 := by decide

theorem lastFlag_lt : 14 < 16 := by decide

def workingVector (h : Vector Word 8) (t : Word × Word) (last : Bool) : Vector Word 16 :=
  let v : Vector Word 16 := h++iv
  let v := v.set 12 (getElem v 12 lowCounter_lt ^^^ t.1) lowCounter_lt
  let v := v.set 13 (getElem v 13 highCounter_lt ^^^ t.2) highCounter_lt
  if last then v.set 14 (~~~getElem v 14 lastFlag_lt) lastFlag_lt else v

theorem working_words (h : Vector Word 8) (t : ℕ) (last : Bool) :
    words (workingVector h (counterWords t) last) = Rfc7693.working (words h) t last := by
  have hword : ∀ (v : Vector Word 16) (k : ℕ) (hk : k < 16), v[k] = words v ⟨k,hk⟩ :=
    fun _ _ _ => rfl
  unfold workingVector Rfc7693.working
  cases last with
  | false =>
    simp only [Bool.false_eq_true,if_false,hword,words_set_at,words_append,iv_words]
    rfl
  | true =>
    simp only [if_true,hword,words_set_at,words_append,iv_words,← BitVec.xor_allOnes]
    rfl

theorem xor_upper (h : Word) (v : Vector Word 16) (i : Fin 8) (hlow : i.val < 16)
    (hhigh : i.val+8 < 16) :
    h ^^^ (v[i.val] ^^^ v[i.val+8]) =
      h ^^^ words v (Fin.castAdd 8 i) ^^^ words v (Fin.natAdd 8 i) := by
  have hupper : v[i.val+8] = words v (Fin.natAdd 8 i) := by
    show v[i.val+8] = v[8+i.val]
    congr 1
    omega
  rw [hupper,← BitVec.xor_assoc]
  rfl

theorem compress_words (h : Vector Word 8) (block data : List UInt8) (n t : ℕ) (last : Bool)
    (hblock : ∀ j < 128, block.getD j 0 = data.getD (128*n+j) 0) :
    words (Core.compress h block (counterWords t) last) =
      Rfc7693.compress (words h) (Rfc7693.blockAt data n) t last := by
  have hm : words (Vector.ofFn fun i : Fin 16 => fromLeBytes block (i.val*8)) =
      Rfc7693.blockAt data n := by
    rw [words_ofFn]
    funext i
    rw [fromLeBytes_eq,Rfc7693.blockAt,Rfc7693.wordAt,Rfc7693.wordAt]
    congr 2
    refine List.map_congr_left fun k hk => ?_
    have hk8 := List.mem_range.mp hk
    rw [hblock _ (by omega),show 128*n+(i.val*8+k) = 128*n+8*i.val+k by omega]
  have hrounds : words ((Core.sigma.toList.take rounds).foldl
      (mixRow (Vector.ofFn fun i : Fin 16 => fromLeBytes block (i.val*8)))
      (workingVector h (counterWords t) last)) =
      (List.range 12).foldl
        (fun v i => Rfc7693.round (Rfc7693.blockAt data n) v (Rfc7693.sigma (Fin.ofNat 10 i)))
        (Rfc7693.working (words h) t last) := by
    rw [foldl_words,hm,schedule_words,working_words,List.foldl_map]
  unfold Rfc7693.compress
  rw [← hrounds]
  show words (Vector.ofFn fun i : Fin 8 => h[i] ^^^ (_ ^^^ _)) = _
  rw [words_ofFn]
  funext i
  exact xor_upper h[i] _ i (by omega) (by omega)

theorem start_words (outLen : ℕ) :
    words (start (BitVec.ofNat 64 outLen)) = Rfc7693.initial outLen := by
  unfold start Rfc7693.initial
  rw [words_set_at,iv_words,BitVec.xor_assoc]
  rfl

theorem compress_chain (h₀ : Fin 8 → Word) (total block : List UInt8) (n : ℕ)
    (h : Vector Word 8) (hh : words h = Rfc7693.chain h₀ total n)
    (hblock : block = (total.drop (128*n)).take 128) :
    words (Core.compress h block (counterWords (128*n+128)) false) =
      Rfc7693.chain h₀ total (n+1) := by
  rw [Rfc7693.chain_succ,← hh,show (n+1)*128 = 128*n+128 by omega]
  apply compress_words
  intro j hj
  rw [hblock,getD_window total (128*n) 128 j 0 hj]

theorem blockAt_append (data more : List UInt8) (j : ℕ) (hj : 128*(j+1) ≤ data.length) :
    Rfc7693.blockAt (data++more) j = Rfc7693.blockAt data j := by
  funext i
  unfold Rfc7693.blockAt Rfc7693.wordAt
  congr 2
  refine List.map_congr_left fun k hk => ?_
  have hk8 := List.mem_range.mp hk
  rw [List.getD_eq_getElem?_getD,List.getD_eq_getElem?_getD,
    List.getElem?_append_left (by omega)]

theorem chain_append (h₀ : Fin 8 → Word) (data more : List UInt8) (n : ℕ)
    (hn : 128*n ≤ data.length) :
    Rfc7693.chain h₀ (data++more) n = Rfc7693.chain h₀ data n := by
  induction n with
  | zero => rw [Rfc7693.chain_zero,Rfc7693.chain_zero]
  | succ n ih =>
    rw [Rfc7693.chain_succ,Rfc7693.chain_succ,ih (by omega),
      blockAt_append data more n (by omega)]

/-- The block loop goes on with the blocks of the whole string and keeps the last. -/
theorem absorbBlocks_chain (h₀ : Fin 8 → Word) (total data : List UInt8) (offset : ℕ)
    (h : Vector Word 8) (t : Word × Word) (n : ℕ)
    (hrest : total.drop (128*n) = data.drop offset)
    (hh : words h = Rfc7693.chain h₀ total n) (ht : t = counterWords (128*n)) :
    ∃ m, words (Core.absorbBlocks data offset h t).2.1 = Rfc7693.chain h₀ total m ∧
      (Core.absorbBlocks data offset h t).2.2 = counterWords (128*m) ∧
      total.drop (128*m) = data.drop (Core.absorbBlocks data offset h t).1 ∧
      data.length-(Core.absorbBlocks data offset h t).1 ≤ 128 := by
  induction offset, h, t using Core.absorbBlocks.induct data generalizing n with
  | case1 offset h t hlen t' ih =>
    have ht' : t' = counterWords (128*n+128) := by
      rw [← incrementCounter_words _ 128 (by decide),← ht]
    have hnext : total.drop (128*(n+1)) = data.drop (offset+blockBytes) := by
      rw [show 128*(n+1) = 128*n+128 by omega,← List.drop_drop,hrest,List.drop_drop]
      rfl
    have hblock : words (Core.compress h ((data.drop offset).take blockBytes) t' false) =
        Rfc7693.chain h₀ total (n+1) := by
      rw [ht']
      exact compress_chain h₀ total _ n h hh (by rw [hrest]; rfl)
    rw [Core.absorbBlocks,if_pos hlen]
    exact ih (n+1) hnext hblock ht'
  | case2 offset h t hlen =>
    have hle : data.length-offset ≤ 128 := by
      unfold blockBytes at hlen
      omega
    rw [Core.absorbBlocks,if_neg hlen]
    exact ⟨n,hh,ht,hrest,hle⟩

theorem absorbBlocks_lt (data : List UInt8) (offset : ℕ) (h : Vector Word 8) (t : Word × Word)
    (hoff : offset < data.length) : (Core.absorbBlocks data offset h t).1 < data.length := by
  induction offset, h, t using Core.absorbBlocks.induct data with
  | case1 offset h t hlen t' ih =>
    rw [Core.absorbBlocks,if_pos hlen]
    exact ih hlen
  | case2 offset h t hlen =>
    rw [Core.absorbBlocks,if_neg hlen]
    exact hoff

def before (len : ℕ) : ℕ := (len-1)/128

theorem before_eq (len : ℕ) : Rfc7693.blockCount len-1 = before len := by
  unfold Rfc7693.blockCount before
  omega

/-- What a hasher holds after the bytes `data`: the blocks before the last one are
compressed, the last one is in the buffer. -/
structure Fed (outLen : ℕ) (data : List UInt8) (s : Core.Blake2b) : Prop where
  chained : words s.h = Rfc7693.chain (Rfc7693.initial outLen) data (before data.length)
  counted : s.t = counterWords (128*before data.length)
  room : s.buf.length = 128
  held : s.bufLen = data.length-128*before data.length
  buffered : s.buf.take s.bufLen = data.drop (128*before data.length)

theorem new_fed (outLen : ℕ) (hout : 1 ≤ outLen ∧ outLen ≤ 64) :
    Fed outLen [] (Core.new outLen hout) := by
  refine ⟨?_,rfl,List.length_replicate,rfl,rfl⟩
  rw [show before ([] : List UInt8).length = 0 from rfl,Rfc7693.chain_zero]
  exact start_words outLen

section Update
variable {outLen : ℕ} {data : List UInt8} {s : Core.Blake2b} (more : List UInt8)

theorem Fed.held_le (hs : Fed outLen data s) : s.bufLen ≤ 128 := by
  have := hs.held
  unfold before at this
  omega

theorem Fed.held_pos (hs : Fed outLen data s) (h : 0 < s.bufLen) : 0 < data.length := by
  have := hs.held
  unfold before at this
  omega

theorem Fed.rest (hs : Fed outLen data s) :
    (data++more).drop (128*before data.length) = s.buf.take s.bufLen++more := by
  rw [hs.buffered,List.drop_append_of_le_length]
  unfold before
  omega

theorem update_within (hs : Fed outLen data s) (hpos : 0 < s.bufLen)
    (hfit : s.bufLen+more.length ≤ 128) : Fed outLen (data++more) (Core.update s more) := by
  have hdata := hs.held_pos hpos
  have hheld := hs.held
  have hsame : before (data++more).length = before data.length := by
    rw [List.length_append]
    unfold before at hheld ⊢
    omega
  have hcopy : min more.length (blockBytes-s.bufLen) = more.length := by
    unfold blockBytes
    omega
  have hfill : Core.fillBuffer s more =
      ({ s with buf := splice s.buf s.bufLen more, bufLen := s.bufLen+more.length },
        more.length) := by
    unfold Core.fillBuffer
    rw [if_pos hpos]
    simp only [hcopy,Nat.lt_irrefl,and_false,if_false,List.take_length]
  have hloop : ∀ h t, Core.absorbBlocks more more.length h t = (more.length,h,t) := by
    intro h t
    rw [Core.absorbBlocks,if_neg (by omega)]
  have hupdate : Core.update s more =
      { s with buf := splice s.buf s.bufLen more, bufLen := s.bufLen+more.length } := by
    unfold Core.update
    simp only [hfill,hloop,Nat.sub_self,Nat.lt_irrefl,if_false]
  have hroom := hs.room
  rw [hupdate]
  refine ⟨?_,?_,?_,?_,?_⟩
  · rw [hsame,chain_append _ _ _ _ (by unfold before; omega)]
    exact hs.chained
  · rw [hsame]
    exact hs.counted
  · show (splice s.buf s.bufLen more).length = 128
    rw [splice_length _ _ _ (by omega),hroom]
  · show s.bufLen+more.length = _
    rw [hsame,List.length_append,hheld]
    unfold before
    omega
  · show (splice s.buf s.bufLen more).take (s.bufLen+more.length) = _
    rw [hsame,hs.rest more,splice_upto _ _ _ (by omega)]

/-- From a block boundary on, all blocks but the last are compressed and the last one
is written over the start of the buffer. -/
theorem fed_blocks (total : List UInt8) (offset n : ℕ) (b : Core.Blake2b)
    (hoff : offset < more.length) (hrest : total.drop (128*n) = more.drop offset)
    (hh : words b.h = Rfc7693.chain (Rfc7693.initial outLen) total n)
    (ht : b.t = counterWords (128*n)) (hbuf : b.buf.length = 128) (hlen : b.bufLen = 0) :
    Fed outLen total
      (let blocks := Core.absorbBlocks more offset b.h b.t
       { b with
         h := blocks.2.1, t := blocks.2.2,
         buf := splice b.buf b.bufLen (more.drop blocks.1),
         bufLen := b.bufLen+(more.length-blocks.1) }) := by
  obtain ⟨m,hchain,hcount,hdrop,hle⟩ :=
    absorbBlocks_chain (Rfc7693.initial outLen) total more offset b.h b.t n hrest hh ht
  have hlast := absorbBlocks_lt more offset b.h b.t hoff
  generalize Core.absorbBlocks more offset b.h b.t = blocks at hchain hcount hdrop hle hlast ⊢
  have hlens := congrArg List.length hdrop
  rw [List.length_drop,List.length_drop] at hlens
  have hm : before total.length = m := by
    unfold before
    omega
  have hnew : (more.drop blocks.1).length = more.length-blocks.1 := List.length_drop
  refine ⟨?_,?_,?_,?_,?_⟩
  · rw [hm]
    exact hchain
  · rw [hm]
    exact hcount
  · show (splice b.buf b.bufLen (more.drop blocks.1)).length = 128
    rw [splice_length _ _ _ (by omega),hbuf]
  · show b.bufLen+(more.length-blocks.1) = _
    rw [hm]
    omega
  · show (splice b.buf b.bufLen (more.drop blocks.1)).take (b.bufLen+(more.length-blocks.1)) = _
    rw [← hnew,splice_upto _ _ _ (by omega),hm,hdrop,hlen]
    rfl

theorem update_blocks (hoff : (Core.fillBuffer s more).2 < more.length) :
    Core.update s more =
      (let b := (Core.fillBuffer s more).1
       let blocks := Core.absorbBlocks more (Core.fillBuffer s more).2 b.h b.t
       { b with
         h := blocks.2.1, t := blocks.2.2,
         buf := splice b.buf b.bufLen (more.drop blocks.1),
         bufLen := b.bufLen+(more.length-blocks.1) }) := by
  have hlast := absorbBlocks_lt more (Core.fillBuffer s more).2 (Core.fillBuffer s more).1.h
    (Core.fillBuffer s more).1.t hoff
  unfold Core.update
  simp only []
  rw [if_pos (by omega)]

theorem update_beyond (hs : Fed outLen data s) (hpos : 0 < s.bufLen)
    (hbeyond : 128 < s.bufLen+more.length) : Fed outLen (data++more) (Core.update s more) := by
  have hheld := hs.held_le
  have hroom := hs.room
  have hcopy : min more.length (blockBytes-s.bufLen) = 128-s.bufLen := by
    unfold blockBytes
    omega
  have hfull : s.bufLen+(128-s.bufLen) = blockBytes := by
    unfold blockBytes
    omega
  have hlt : 128-s.bufLen < more.length := by omega
  have hfill : Core.fillBuffer s more =
      ({ s with
         h := Core.compress s.h (splice s.buf s.bufLen (more.take (128-s.bufLen)))
           (Core.incrementCounter s.t 128#64) false,
         t := Core.incrementCounter s.t 128#64,
         buf := splice s.buf s.bufLen (more.take (128-s.bufLen)), bufLen := 0 },
        128-s.bufLen) := by
    unfold Core.fillBuffer
    rw [if_pos hpos]
    simp only [hcopy,hfull,hlt,and_self,if_true]
  have htake : (more.take (128-s.bufLen)).length = 128-s.bufLen := by
    rw [List.length_take]
    omega
  have hblock : splice s.buf s.bufLen (more.take (128-s.bufLen)) =
      ((data++more).drop (128*before data.length)).take 128 := by
    have hbegun : (s.buf.take s.bufLen).length = s.bufLen := by
      rw [List.length_take]
      omega
    rw [hs.rest more,List.take_append,hbegun,
      List.take_of_length_le (show (s.buf.take s.bufLen).length ≤ 128 by omega),
      splice,List.drop_of_length_le (by omega),List.append_nil]
  rw [update_blocks more (by rw [hfill]; exact hlt),hfill]
  apply fed_blocks more (data++more) (128-s.bufLen) (before data.length+1)
  · exact hlt
  · rw [Nat.mul_add,← List.drop_drop,hs.rest more,List.drop_append,
      List.drop_of_length_le (by rw [List.length_take]; omega),List.nil_append,List.length_take,
      Nat.min_eq_left (by omega)]
  · show words (Core.compress _ _ (Core.incrementCounter s.t 128#64) false) = _
    rw [hs.counted,incrementCounter_words _ 128 (by decide)]
    apply compress_chain _ _ _ _ _ _ hblock
    rw [chain_append _ _ _ _ (by unfold before; omega)]
    exact hs.chained
  · show Core.incrementCounter s.t 128#64 = _
    rw [hs.counted,incrementCounter_words _ 128 (by decide)]
    rfl
  · show (splice s.buf s.bufLen (more.take (128-s.bufLen))).length = 128
    rw [splice_length _ _ _ (by omega),hroom]
  · rfl

theorem update_first (hs : Fed outLen data s) (hzero : s.bufLen = 0) (hmore : 0 < more.length) :
    Fed outLen (data++more) (Core.update s more) := by
  have hdata : data = [] := by
    have hheld := hs.held
    unfold before at hheld
    exact List.eq_nil_of_length_eq_zero (by omega)
  subst hdata
  have hfill : Core.fillBuffer s more = (s,0) := by
    unfold Core.fillBuffer
    rw [if_neg (by omega)]
  rw [update_blocks more (by rw [hfill]; exact hmore),hfill]
  apply fed_blocks more ([]++more) 0 0 s hmore rfl _ hs.counted hs.room hzero
  rw [hs.chained,show before ([] : List UInt8).length = 0 from rfl,Rfc7693.chain_zero,
    Rfc7693.chain_zero]

theorem update_nil (s : Core.Blake2b) (hzero : s.bufLen = 0) : Core.update s [] = s := by
  have hfill : Core.fillBuffer s [] = (s,0) := by
    unfold Core.fillBuffer
    rw [if_neg (by omega)]
  have hloop : Core.absorbBlocks [] 0 s.h s.t = (0,s.h,s.t) := by
    rw [Core.absorbBlocks,if_neg (by simp)]
  unfold Core.update
  simp only [hfill,hloop,List.length_nil,Nat.sub_self,Nat.lt_irrefl,if_false]

theorem update_fed (hs : Fed outLen data s) : Fed outLen (data++more) (Core.update s more) := by
  rcases Nat.eq_zero_or_pos s.bufLen with hzero|hpos
  · rcases Nat.eq_zero_or_pos more.length with hnone|hmore
    · obtain rfl := List.eq_nil_of_length_eq_zero hnone
      rw [update_nil s hzero,List.append_nil]
      exact hs
    · exact update_first more hs hzero hmore
  · rcases Nat.lt_or_ge 128 (s.bufLen+more.length) with hbeyond|hfit
    · exact update_beyond more hs hpos hbeyond
    · exact update_within more hs hpos hfit

end Update

theorem foldl_update_fed (outLen : ℕ) (chunks : List (List UInt8)) (data : List UInt8)
    (s : Core.Blake2b) (hs : Fed outLen data s) :
    Fed outLen (data++chunks.flatten) (chunks.foldl Core.update s) := by
  induction chunks generalizing data s with
  | nil => simpa using hs
  | cons chunk chunks ih =>
    rw [List.flatten_cons,← List.append_assoc]
    exact ih _ _ (update_fed chunk hs)

theorem toLeBytes_eq (w : Word) :
    toLeBytes w = (List.range 8).map fun j => UInt8.ofBitVec (w.extractLsb' (8*j) 8) := by
  refine List.map_congr_left fun j _ => ?_
  rw [BitVec.setWidth_ushiftRight_eq_extractLsb]

theorem stateBytes_eq (v : Vector Word 8) :
    v.toList.flatMap toLeBytes = (List.range 64).map (Rfc7693.stateByte (words v)) := by
  obtain ⟨⟨l⟩,hl⟩ := v
  match l,hl with
  | [a,b,c,d,e,f,g,h],_ =>
    show [a,b,c,d,e,f,g,h].flatMap toLeBytes = _
    rw [show toLeBytes = _ from funext toLeBytes_eq]
    rfl

theorem finalize_fed (outLen : ℕ) (data : List UInt8) (s : Core.Blake2b)
    (hs : Fed outLen data s) :
    Core.finalize s = (List.range 64).map (Rfc7693.stateByte (Rfc7693.state data outLen)) := by
  have hle := hs.held_le
  have hroom := hs.room
  have hheld := hs.held
  have hcount : 128*before data.length+s.bufLen = data.length := by
    unfold before at hheld ⊢
    omega
  have hpad : splice s.buf s.bufLen (List.replicate (blockBytes-s.bufLen) 0) =
      data.drop (128*before data.length)++List.replicate (128-s.bufLen) 0 := by
    have hnone : s.buf.drop (s.bufLen+(blockBytes-s.bufLen)) = [] :=
      List.drop_of_length_le (by unfold blockBytes; omega)
    rw [splice,hs.buffered,List.length_replicate,hnone,List.append_nil]
    rfl
  have hblock : ∀ j < 128, (splice s.buf s.bufLen
      (List.replicate (blockBytes-s.bufLen) 0)).getD j 0 =
      data.getD (128*before data.length+j) 0 := by
    intro j _
    rw [hpad,getD_padded,List.getD_eq_getElem?_getD,List.getD_eq_getElem?_getD,
      List.getElem?_drop]
  have hstate : words (Core.compress s.h
      (splice s.buf s.bufLen (List.replicate (blockBytes-s.bufLen) 0))
      (Core.incrementCounter s.t (BitVec.ofNat 64 s.bufLen)) true) =
      Rfc7693.state data outLen := by
    rw [hs.counted,incrementCounter_words _ _ (by omega),hcount,
      compress_words s.h _ data (before data.length) data.length true hblock,hs.chained,
      Rfc7693.state,before_eq]
  unfold Core.finalize
  rw [stateBytes_eq,hstate]

theorem foldl_update_digest (outLen : ℕ) (hout : 1 ≤ outLen ∧ outLen ≤ 64)
    (chunks : List (List UInt8)) :
    (Core.finalize (chunks.foldl Core.update (Core.new outLen hout))).take outLen =
      Rfc7693.digest chunks.flatten outLen := by
  have hfed := foldl_update_fed outLen chunks [] _ (new_fed outLen hout)
  rw [List.nil_append] at hfed
  rw [finalize_fed outLen chunks.flatten _ hfed,← List.map_take,List.take_range,
    Nat.min_eq_left hout.2]
  rfl

/-- Any way of cutting a string gives the RFC's digest of the whole string. -/
theorem chunks_digest (outLen : ℕ) (hout : 1 ≤ outLen ∧ outLen ≤ 64)
    (chunks : List (List UInt8)) :
    (Core.finalize (chunks.foldl Core.update (Core.new outLen hout))).take outLen =
        Rfc7693.digest chunks.flatten outLen ∧
      ∀ others : List (List UInt8), others.flatten = chunks.flatten →
        (Core.finalize (others.foldl Core.update (Core.new outLen hout))).take outLen =
          (Core.finalize (chunks.foldl Core.update (Core.new outLen hout))).take outLen := by
  refine ⟨foldl_update_digest outLen hout chunks,fun others hothers => ?_⟩
  rw [foldl_update_digest,foldl_update_digest,hothers]

theorem chunks_digest_abc :
    (Core.finalize ([[0x61],[],[0x62,0x63]].foldl Core.update (Core.new 32 (by decide)))).take 32 =
      Rfc7693.digest [0x61,0x62,0x63] 32 :=
  (chunks_digest 32 (by decide) [[0x61],[],[0x62,0x63]]).1

end Zamak.Blake2bRfc
