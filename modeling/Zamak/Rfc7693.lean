import Mathlib.Data.BitVec
import Mathlib.Data.Fin.VecNotation
import Mathlib.Data.Fin.Tuple.Basic

/-! # BLAKE2b as RFC 7693 states it

The unkeyed hash function in the words of the RFC: arrays are functions, the message
schedule has ten rows read modulo ten, and the offset counter is a natural number
whose low and high words enter the working vector. Nothing here is taken from the
code. -/

set_option autoImplicit false

namespace Zamak.Rfc7693

abbrev Word := BitVec 64

def iv : Fin 8 → Word := ![
  0x6A09E667F3BCC908#64,0xBB67AE8584CAA73B#64,0x3C6EF372FE94F82B#64,0xA54FF53A5F1D36F1#64,
  0x510E527FADE682D1#64,0x9B05688C2B3E6C1F#64,0x1F83D9ABFB41BD6B#64,0x5BE0CD19137E2179#64]

def sigma : Fin 10 → Fin 16 → Fin 16 := ![
  ![0,1,2,3,4,5,6,7,8,9,10,11,12,13,14,15],
  ![14,10,4,8,9,15,13,6,1,12,0,2,11,7,5,3],
  ![11,8,12,0,5,2,15,13,10,14,3,6,7,1,9,4],
  ![7,9,3,1,13,12,11,14,2,6,5,10,4,0,15,8],
  ![9,0,5,7,2,4,10,15,14,1,11,12,6,8,3,13],
  ![2,12,6,10,0,11,8,3,4,13,7,5,15,14,1,9],
  ![12,5,1,15,14,13,4,10,0,7,6,3,9,2,8,11],
  ![13,11,7,14,12,1,3,9,5,0,15,4,8,6,2,10],
  ![6,15,14,9,11,3,0,8,12,2,13,7,1,4,10,5],
  ![10,2,8,4,7,6,1,5,15,11,9,14,3,12,13,0]]

def mix (v : Fin 16 → Word) (a b c d : Fin 16) (x y : Word) : Fin 16 → Word :=
  let v := Function.update v a (v a+v b+x)
  let v := Function.update v d ((v d ^^^ v a).rotateRight 32)
  let v := Function.update v c (v c+v d)
  let v := Function.update v b ((v b ^^^ v c).rotateRight 24)
  let v := Function.update v a (v a+v b+y)
  let v := Function.update v d ((v d ^^^ v a).rotateRight 16)
  let v := Function.update v c (v c+v d)
  Function.update v b ((v b ^^^ v c).rotateRight 63)

def round (m : Fin 16 → Word) (v : Fin 16 → Word) (s : Fin 16 → Fin 16) : Fin 16 → Word :=
  let v := mix v 0 4 8 12 (m (s 0)) (m (s 1))
  let v := mix v 1 5 9 13 (m (s 2)) (m (s 3))
  let v := mix v 2 6 10 14 (m (s 4)) (m (s 5))
  let v := mix v 3 7 11 15 (m (s 6)) (m (s 7))
  let v := mix v 0 5 10 15 (m (s 8)) (m (s 9))
  let v := mix v 1 6 11 12 (m (s 10)) (m (s 11))
  let v := mix v 2 7 8 13 (m (s 12)) (m (s 13))
  mix v 3 4 9 14 (m (s 14)) (m (s 15))

def working (h : Fin 8 → Word) (t : ℕ) (last : Bool) : Fin 16 → Word :=
  let v : Fin 16 → Word := Fin.append h iv
  let v := Function.update v 12 (v 12 ^^^ BitVec.ofNat 64 t)
  let v := Function.update v 13 (v 13 ^^^ BitVec.ofNat 64 (t/2^64))
  if last then Function.update v 14 (v 14 ^^^ BitVec.allOnes 64) else v

def compress (h : Fin 8 → Word) (m : Fin 16 → Word) (t : ℕ) (last : Bool) : Fin 8 → Word :=
  let v := (List.range 12).foldl (fun v i => round m v (sigma (Fin.ofNat 10 i)))
    (working h t last)
  fun i => h i ^^^ v (Fin.castAdd 8 i) ^^^ v (Fin.natAdd 8 i)

def littleEndian : List UInt8 → ℕ
  | [] => 0
  | b::bytes => b.toNat+256*littleEndian bytes

/-- The word in the eight bytes from `i` on; past the end of the data they are zero. -/
def wordAt (data : List UInt8) (i : ℕ) : Word :=
  BitVec.ofNat 64 (littleEndian ((List.range 8).map fun k => data.getD (i+k) 0))

def blockAt (data : List UInt8) (j : ℕ) : Fin 16 → Word := fun i => wordAt data (128*j+8*i.val)

def blockCount (ll : ℕ) : ℕ := max 1 ((ll+127)/128)

/-- `h[0] := h[0] ^ 0x01010000 ^ (kk << 8) ^ nn` with no key. -/
def initial (nn : ℕ) : Fin 8 → Word :=
  Function.update iv 0 (iv 0 ^^^ 0x01010000#64 ^^^ BitVec.ofNat 64 nn)

def chain (h : Fin 8 → Word) (data : List UInt8) (n : ℕ) : Fin 8 → Word :=
  (List.range n).foldl (fun h i => compress h (blockAt data i) ((i+1)*128) false) h

def state (data : List UInt8) (nn : ℕ) : Fin 8 → Word :=
  compress (chain (initial nn) data (blockCount data.length-1))
    (blockAt data (blockCount data.length-1)) data.length true

def stateByte (h : Fin 8 → Word) (i : ℕ) : UInt8 :=
  UInt8.ofBitVec ((h (Fin.ofNat 8 (i/8))).extractLsb' (8*(i%8)) 8)

def digest (data : List UInt8) (nn : ℕ) : List UInt8 :=
  (List.range nn).map (stateByte (state data nn))

theorem chain_zero (h : Fin 8 → Word) (data : List UInt8) : chain h data 0 = h := by
  rw [chain,List.range_zero,List.foldl_nil]

theorem chain_succ (h : Fin 8 → Word) (data : List UInt8) (n : ℕ) :
    chain h data (n+1) = compress (chain h data n) (blockAt data n) ((n+1)*128) false := by
  rw [chain,List.range_succ,List.foldl_append]
  rfl

end Zamak.Rfc7693
