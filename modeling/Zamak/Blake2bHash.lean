import Mathlib.Data.BitVec
import Zamak.WindowSearch

/-! # BLAKE2b, on the boot side and on the host

`zamak-core::blake2b` hashes incrementally through a block buffer and keeps its
byte counter in two 64-bit words. `zamak-cli::hash` hashes a whole slice with a
128-bit counter and a schedule of ten rows read modulo ten. Constants, mixing and
the frame of the compression function are the same text in both. -/

set_option autoImplicit false

namespace Zamak.Blake2bHash
open Zamak.WindowSearch

abbrev Word := BitVec 64

def blockBytes : ℕ := 128

def rounds : ℕ := 12

def iv : Vector Word 8 := #v[
  0x6a09e667f3bcc908#64,
  0xbb67ae8584caa73b#64,
  0x3c6ef372fe94f82b#64,
  0xa54ff53a5f1d36f1#64,
  0x510e527fade682d1#64,
  0x9b05688c2b3e6c1f#64,
  0x1f83d9abfb41bd6b#64,
  0x5be0cd19137e2179#64]

/-- One row of `SIGMA`: the order in which a round reads the message words. -/
abbrev Row := Vector (Fin 16) 16

instance sixteenWords : NeZero 16 := ⟨by decide⟩

def fromLeBytes (block : List UInt8) (off : ℕ) : Word :=
  (List.range 8).foldl
    (fun word j => word|||((block.getD (off+j) 0).toBitVec.setWidth 64<<<(8*j))) 0#64

def toLeBytes (word : Word) : List UInt8 :=
  (List.range 8).map fun j => UInt8.ofBitVec ((word>>>(8*j)).setWidth 8)

def g (v : Vector Word 16) (a b c d : Fin 16) (x y : Word) : Vector Word 16 :=
  let v := v.set a (v[a]+v[b]+x)
  let v := v.set d ((v[d] ^^^ v[a]).rotateRight 32)
  let v := v.set c (v[c]+v[d])
  let v := v.set b ((v[b] ^^^ v[c]).rotateRight 24)
  let v := v.set a (v[a]+v[b]+y)
  let v := v.set d ((v[d] ^^^ v[a]).rotateRight 16)
  let v := v.set c (v[c]+v[d])
  v.set b ((v[b] ^^^ v[c]).rotateRight 63)

def mixRow (m : Vector Word 16) (v : Vector Word 16) (s : Row) : Vector Word 16 :=
  let v := g v 0 4 8 12 m[s[0]] m[s[1]]
  let v := g v 1 5 9 13 m[s[2]] m[s[3]]
  let v := g v 2 6 10 14 m[s[4]] m[s[5]]
  let v := g v 3 7 11 15 m[s[6]] m[s[7]]
  let v := g v 0 5 10 15 m[s[8]] m[s[9]]
  let v := g v 1 6 11 12 m[s[10]] m[s[11]]
  let v := g v 2 7 8 13 m[s[12]] m[s[13]]
  g v 3 4 9 14 m[s[14]] m[s[15]]

/-- The compression function over a schedule and the two counter words. -/
def compressWith (schedule : List Row) (h : Vector Word 8) (block : List UInt8)
    (t0 t1 : Word) (last : Bool) : Vector Word 8 :=
  let m : Vector Word 16 := Vector.ofFn fun i => fromLeBytes block (i.val*8)
  let v : Vector Word 16 := h++iv
  let v := v.set 12 (v[12] ^^^ t0)
  let v := v.set 13 (v[13] ^^^ t1)
  let v := if last then v.set 14 (~~~v[14]) else v
  let v := schedule.foldl (mixRow m) v
  Vector.ofFn fun i : Fin 8 => h[i] ^^^ (v[i] ^^^ v[i.val+8])

def start (outLen : Word) : Vector Word 8 := iv.set 0 (iv[0] ^^^ (0x01010000#64 ^^^ outLen))

namespace Core

def sigma : Vector Row 12 := #v[
  #v[0,1,2,3,4,5,6,7,8,9,10,11,12,13,14,15],
  #v[14,10,4,8,9,15,13,6,1,12,0,2,11,7,5,3],
  #v[11,8,12,0,5,2,15,13,10,14,3,6,7,1,9,4],
  #v[7,9,3,1,13,12,11,14,2,6,5,10,4,0,15,8],
  #v[9,0,5,7,2,4,10,15,14,1,11,12,6,8,3,13],
  #v[2,12,6,10,0,11,8,3,4,13,7,5,15,14,1,9],
  #v[12,5,1,15,14,13,4,10,0,7,6,3,9,2,8,11],
  #v[13,11,7,14,12,1,3,9,5,0,15,4,8,6,2,10],
  #v[6,15,14,9,11,3,0,8,12,2,13,7,1,4,10,5],
  #v[10,2,8,4,7,6,1,5,15,11,9,14,3,12,13,0],
  #v[0,1,2,3,4,5,6,7,8,9,10,11,12,13,14,15],
  #v[14,10,4,8,9,15,13,6,1,12,0,2,11,7,5,3]]

def compress (h : Vector Word 8) (block : List UInt8) (t : Word × Word) (last : Bool) :
    Vector Word 8 :=
  compressWith (sigma.toList.take rounds) h block t.1 t.2 last

/-- `Blake2b`: chaining words, byte counter, block buffer and how much of it is full. -/
structure Blake2b where
  h : Vector Word 8
  t : Word × Word
  buf : List UInt8
  bufLen : ℕ
  outLen : ℕ

/-- `Blake2b::new`; the asserted range is a premise. -/
def new (outLen : ℕ) (_ : 1 ≤ outLen ∧ outLen ≤ 64) : Blake2b where
  h := start (BitVec.ofNat 64 outLen)
  t := (0#64,0#64)
  buf := List.replicate blockBytes 0
  bufLen := 0
  outLen := outLen

def incrementCounter (t : Word × Word) (inc : Word) : Word × Word :=
  let t0 := t.1+inc
  (t0,if t0 < inc then t.2+1#64 else t.2)

/-- The loop over full blocks of `update`, which keeps at least one byte back. -/
def absorbBlocks (data : List UInt8) (offset : ℕ) (h : Vector Word 8) (t : Word × Word) :
    ℕ × Vector Word 8 × (Word × Word) :=
  if offset+blockBytes < data.length then
    let t := incrementCounter t 128#64
    absorbBlocks data (offset+blockBytes)
      (compress h ((data.drop offset).take blockBytes) t false) t
  else (offset,h,t)
termination_by data.length-offset
decreasing_by
  unfold blockBytes at *
  omega

/-- The first part of `update`: fill the buffer that is already begun, and empty it
when data remain. -/
def fillBuffer (s : Blake2b) (data : List UInt8) : Blake2b × ℕ :=
  if 0 < s.bufLen then
    let space := blockBytes-s.bufLen
    let copyLen := min data.length space
    let buf := splice s.buf s.bufLen (data.take copyLen)
    let bufLen := s.bufLen+copyLen
    if bufLen = blockBytes ∧ copyLen < data.length then
      let t := incrementCounter s.t 128#64
      ({ s with h := compress s.h buf t false, t := t, buf := buf, bufLen := 0 },copyLen)
    else ({ s with buf := buf, bufLen := bufLen },copyLen)
  else (s,0)

def update (s : Blake2b) (data : List UInt8) : Blake2b :=
  let begun := fillBuffer s data
  let blocks := absorbBlocks data begun.2 begun.1.h begun.1.t
  let remaining := data.length-blocks.1
  if 0 < remaining then
    { begun.1 with
      h := blocks.2.1, t := blocks.2.2,
      buf := splice begun.1.buf begun.1.bufLen (data.drop blocks.1),
      bufLen := begun.1.bufLen+remaining }
  else { begun.1 with h := blocks.2.1, t := blocks.2.2 }

/-- `finalize`: all 64 bytes of the state; the first `out_len` are the digest. -/
def finalize (s : Blake2b) : List UInt8 :=
  let t := incrementCounter s.t (BitVec.ofNat 64 s.bufLen)
  let block := splice s.buf s.bufLen (List.replicate (blockBytes-s.bufLen) 0)
  (compress s.h block t true).toList.flatMap toLeBytes

def hash (data : List UInt8) (outLen : ℕ) (hout : 1 ≤ outLen ∧ outLen ≤ 64) : List UInt8 :=
  finalize (update (new outLen hout) data)

end Core

namespace Cli

def sigma : Vector Row 10 := #v[
  #v[0,1,2,3,4,5,6,7,8,9,10,11,12,13,14,15],
  #v[14,10,4,8,9,15,13,6,1,12,0,2,11,7,5,3],
  #v[11,8,12,0,5,2,15,13,10,14,3,6,7,1,9,4],
  #v[7,9,3,1,13,12,11,14,2,6,5,10,4,0,15,8],
  #v[9,0,5,7,2,4,10,15,14,1,11,12,6,8,3,13],
  #v[2,12,6,10,0,11,8,3,4,13,7,5,15,14,1,9],
  #v[12,5,1,15,14,13,4,10,0,7,6,3,9,2,8,11],
  #v[13,11,7,14,12,1,3,9,5,0,15,4,8,6,2,10],
  #v[6,15,14,9,11,3,0,8,12,2,13,7,1,4,10,5],
  #v[10,2,8,4,7,6,1,5,15,11,9,14,3,12,13,0]]

/-- The counter is a `u128`; its two halves enter the working vector. -/
def compress (h : Vector Word 8) (block : List UInt8) (t : BitVec 128) (last : Bool) :
    Vector Word 8 :=
  compressWith ((List.range 12).map fun round => sigma[round%10]) h block (t.setWidth 64)
    ((t>>>64).setWidth 64) last

def absorbBlocks (data : List UInt8) (offset : ℕ) (h : Vector Word 8) (t : BitVec 128) :
    ℕ × Vector Word 8 × BitVec 128 :=
  if data.length-offset > 128 then
    let t := t+128#128
    absorbBlocks data (offset+128) (compress h ((data.drop offset).take 128) t false) t
  else (offset,h,t)
termination_by data.length-offset
decreasing_by omega

def blake2b256 (data : List UInt8) : List UInt8 :=
  let blocks := absorbBlocks data 0 (start 32#64) 0#128
  let remaining := data.length-blocks.1
  let lastBlock := splice (List.replicate 128 0) 0 (data.drop blocks.1)
  let t := blocks.2.2+BitVec.ofNat 128 remaining
  let h := compress blocks.2.1 lastBlock t true
  (List.range 4).flatMap fun i => toLeBytes (h.toList.getD i 0#64)

end Cli

end Zamak.Blake2bHash
