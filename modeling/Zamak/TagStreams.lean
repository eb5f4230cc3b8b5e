import Mathlib.Algebra.Group.Nat.Defs
import Mathlib.Data.List.Basic

/-! # Streams of tagged records

A record is written as its kind and its declared size in four little-endian bytes each,
then its payload; every record starts at a multiple of eight, and an end tag of size
eight closes the stream. A reader goes from record to record by the declared size alone,
so it meets every record whole exactly when each declared size is the written one. -/

set_option autoImplicit false

namespace Zamak.TagStreams

def natBytes : ℕ → ℕ → List UInt8
  | 0, _ => []
  | k+1, n => UInt8.ofNat n::natBytes k (n/256)

def bytesNat : List UInt8 → ℕ
  | [] => 0
  | b::bytes => b.toNat+256*bytesNat bytes

theorem natBytes_length (k n : ℕ) : (natBytes k n).length = k := by
  induction k generalizing n with
  | zero => rfl
  | succ k ih => rw [natBytes,List.length_cons,ih]

theorem bytesNat_natBytes_mod (k n : ℕ) : bytesNat (natBytes k n) = n%256^k := by
  induction k generalizing n with
  | zero => rw [natBytes,bytesNat,Nat.pow_zero,Nat.mod_one]
  | succ k ih =>
    have hbyte : (UInt8.ofNat n).toNat = n%256 := rfl
    rw [natBytes,bytesNat,ih,hbyte,Nat.pow_succ,Nat.mul_comm (256^k),Nat.mod_mul]

theorem flatMap_natBytes_length {α : Type*} (k : ℕ) (f : α → ℕ) (l : List α) :
    (l.flatMap fun x => natBytes k (f x)).length = k*l.length := by
  induction l with
  | nil => rfl
  | cons x l ih =>
    rw [List.flatMap_cons,List.length_append,natBytes_length,ih,List.length_cons,Nat.mul_succ,
      Nat.add_comm]

theorem bytesNat_natBytes (k n : ℕ) (h : n < 256^k) : bytesNat (natBytes k n) = n := by
  rw [bytesNat_natBytes_mod,Nat.mod_eq_of_lt h]

theorem natBytes_bytesNat (bytes : List UInt8) : natBytes bytes.length (bytesNat bytes) = bytes := by
  induction bytes with
  | nil => rfl
  | cons b bytes ih =>
    have hbyte : UInt8.ofNat (b.toNat+256*bytesNat bytes) = b := by
      apply UInt8.toNat_inj.mp
      show (b.toNat+256*bytesNat bytes)%256 = b.toNat
      have := b.toNat_lt
      omega
    have hrest : (b.toNat+256*bytesNat bytes)/256 = bytesNat bytes := by
      have := b.toNat_lt
      omega
    rw [List.length_cons,bytesNat,natBytes,hbyte,hrest,ih]

theorem bytesNat_lt (bytes : List UInt8) : bytesNat bytes < 256^bytes.length := by
  have h := bytesNat_natBytes_mod bytes.length (bytesNat bytes)
  rw [natBytes_bytesNat] at h
  rw [h]
  exact Nat.mod_lt _ (Nat.pow_pos (by decide))

theorem natBytes_mod (k n : ℕ) : natBytes k (n%256^k) = natBytes k n := by
  have h := natBytes_bytesNat (natBytes k n)
  rwa [natBytes_length,bytesNat_natBytes_mod] at h

def numberAt (width : ℕ) (bytes : List UInt8) (offset : ℕ) : ℕ :=
  bytesNat ((bytes.drop offset).take width)

def wordAt (bytes : List UInt8) (offset : ℕ) : ℕ := bytesNat ((bytes.drop offset).take 4)

def roundUp8 (n : ℕ) : ℕ := (n+7)/8*8

structure Record where
  kind : ℕ
  declared : ℕ
  payload : List UInt8

def Record.bytes (r : Record) : List UInt8 :=
  natBytes 4 r.kind++natBytes 4 r.declared++r.payload

/-- The declared size of a record is the size it is written with. -/
def Record.Honest (r : Record) : Prop := r.declared = 8+r.payload.length

def fill (n : ℕ) : List UInt8 := List.replicate (roundUp8 n-n) 0

def endTag : List UInt8 := natBytes 4 0++natBytes 4 8

def body : ℕ → List Record → List UInt8
  | n, [] => fill n++endTag
  | n, r::rs => fill n++r.bytes++body (roundUp8 n+r.bytes.length) rs

/-- A reader at an offset meets the given records, each with its whole payload inside
its declared size, and then an end tag that closes the bytes. -/
def Visits (bytes : List UInt8) : ℕ → List Record → Prop
  | offset, [] => wordAt bytes offset = 0 ∧ wordAt bytes (offset+4) = 8 ∧ offset+8 = bytes.length
  | offset, r::rs =>
    wordAt bytes offset = r.kind ∧
    8+r.payload.length ≤ wordAt bytes (offset+4) ∧
    ((bytes.drop (offset+8)).take r.payload.length) = r.payload ∧
    Visits bytes (offset+roundUp8 (wordAt bytes (offset+4))) rs

theorem le_roundUp8 (n : ℕ) : n ≤ roundUp8 n := by
  unfold roundUp8
  omega

theorem roundUp8_add (m n : ℕ) : roundUp8 (roundUp8 m+n) = roundUp8 m+roundUp8 n := by
  unfold roundUp8
  omega

theorem fill_length (n : ℕ) : n+(fill n).length = roundUp8 n := by
  have := le_roundUp8 n
  simp only [fill,List.length_replicate]
  omega

theorem endTag_length : endTag.length = 8 := rfl

theorem record_length (r : Record) : r.bytes.length = 8+r.payload.length := by
  simp only [Record.bytes,List.length_append,natBytes_length]

theorem numberAt_append (width : ℕ) (before rest : List UInt8) (n : ℕ) (h : n < 256^width) :
    numberAt width (before++(natBytes width n++rest)) before.length = n := by
  unfold numberAt
  rw [List.drop_left,List.take_left' (natBytes_length width n)]
  exact bytesNat_natBytes width n h

theorem numberAt_within (width : ℕ) (before middle rest : List UInt8) (n : ℕ)
    (h : n < 256^width) :
    numberAt width (before++(middle++(natBytes width n++rest))) (before.length+middle.length) =
      n := by
  have hnumber := numberAt_append width (before++middle) rest n h
  rwa [List.length_append,List.append_assoc] at hnumber

theorem numberAt_lt (width : ℕ) (bytes : List UInt8) (offset : ℕ) :
    numberAt width bytes offset < 256^width := by
  have hlen : ((bytes.drop offset).take width).length ≤ width := List.length_take_le _ _
  exact Nat.lt_of_lt_of_le (bytesNat_lt _) (Nat.pow_le_pow_right (by decide) hlen)

theorem bytesNat_append (bytes more : List UInt8) :
    bytesNat (bytes++more) = bytesNat bytes+256^bytes.length*bytesNat more := by
  induction bytes with
  | nil => rw [List.nil_append,bytesNat,List.length_nil,Nat.pow_zero,Nat.one_mul,Nat.zero_add]
  | cons b bytes ih =>
    rw [List.cons_append,bytesNat,ih,bytesNat,List.length_cons,Nat.pow_succ,Nat.mul_add,
      Nat.add_assoc,Nat.mul_comm (256^bytes.length) 256,Nat.mul_assoc]

theorem numberAt_add (width more : ℕ) (bytes : List UInt8) (offset : ℕ)
    (h : offset+width ≤ bytes.length) :
    numberAt (width+more) bytes offset =
      numberAt width bytes offset+256^width*numberAt more bytes (offset+width) := by
  have hlen : ((bytes.drop offset).take width).length = width := by
    rw [List.length_take,List.length_drop]
    omega
  unfold numberAt
  rw [List.take_add,bytesNat_append,hlen,List.drop_drop]

theorem wordAt_append (before rest : List UInt8) (n : ℕ) (h : n < 2^32) :
    wordAt (before++(natBytes 4 n++rest)) before.length = n :=
  numberAt_append 4 before rest n h

theorem record_at (before rest : List UInt8) (r : Record) (hkind : r.kind < 2^32)
    (hdeclared : r.declared < 2^32) :
    wordAt (before++(r.bytes++rest)) before.length = r.kind ∧
    wordAt (before++(r.bytes++rest)) (before.length+4) = r.declared ∧
    ((before++(r.bytes++rest)).drop (before.length+8)).take r.payload.length = r.payload := by
  refine ⟨?_,?_,?_⟩
  · simp only [Record.bytes,List.append_assoc]
    exact wordAt_append before _ r.kind hkind
  · simp only [Record.bytes,List.append_assoc]
    exact numberAt_within 4 before (natBytes 4 r.kind) _ r.declared hdeclared
  · have hlen : before.length+8 = (before++natBytes 4 r.kind++natBytes 4 r.declared).length := by
      simp only [List.length_append,natBytes_length]
    simp only [Record.bytes,List.append_assoc]
    rw [hlen,← List.append_assoc before,← List.append_assoc (before++_),List.drop_left,
      List.take_left]

theorem end_at (before : List UInt8) :
    wordAt (before++endTag) before.length = 0 ∧ wordAt (before++endTag) (before.length+4) = 8 := by
  constructor
  · exact wordAt_append before (natBytes 4 8) 0 (by decide)
  · have hword := numberAt_within 4 before (natBytes 4 0) [] 8 (by decide)
    rw [List.append_nil] at hword
    exact hword

theorem visits_cons (before rest : List UInt8) (r : Record) (records : List Record)
    (hkind : r.kind < 2^32) (hdeclared : r.declared < 2^32)
    (hle : r.declared ≤ 8+r.payload.length) :
    Visits (before++(r.bytes++rest)) before.length (r::records) ↔
      r.Honest ∧ Visits (before++(r.bytes++rest)) (before.length+roundUp8 r.bytes.length)
        records := by
  obtain ⟨hk,hd,hp⟩ := record_at before rest r hkind hdeclared
  rw [Visits,hk,hd,hp,record_length]
  unfold Record.Honest
  constructor
  · rintro ⟨-,hfits,-,hrest⟩
    have heq : r.declared = 8+r.payload.length := Nat.le_antisymm hle hfits
    exact ⟨heq,heq ▸ hrest⟩
  · rintro ⟨heq,hrest⟩
    exact ⟨rfl,Nat.le_of_eq heq.symm,rfl,heq.symm ▸ hrest⟩

theorem filled_length (before : List UInt8) :
    (before++fill before.length).length = roundUp8 before.length := by
  rw [List.length_append,fill_length]

theorem placed_length (before : List UInt8) (r : Record) :
    (before++fill before.length++r.bytes).length = roundUp8 before.length+r.bytes.length := by
  rw [List.length_append,filled_length]

theorem body_cons (before : List UInt8) (r : Record) (records : List Record) :
    before++body before.length (r::records) =
      before++fill before.length++r.bytes++
        body (before++fill before.length++r.bytes).length records := by
  rw [placed_length,body]
  simp only [List.append_assoc]

/-- A reader meets the records of a stream exactly when every declared size is honest,
as long as none of them is larger than what is written. -/
theorem visits_iff (before : List UInt8) (records : List Record)
    (hkind : ∀ r ∈ records, r.kind < 2^32)
    (hle : ∀ r ∈ records, r.declared ≤ 8+r.payload.length)
    (hlen : (before++body before.length records).length < 2^32) :
    Visits (before++body before.length records) (roundUp8 before.length) records ↔
      ∀ r ∈ records, r.Honest := by
  induction records generalizing before with
  | nil =>
    have ⟨hkindEnd,hsizeEnd⟩ := end_at (before++fill before.length)
    rw [body,← List.append_assoc,← filled_length]
    constructor
    · intro _ r hr
      cases hr
    · intro _
      exact ⟨hkindEnd,hsizeEnd,by simp only [List.length_append,endTag_length]⟩
  | cons r records ih =>
    have hplaced := placed_length before r
    rw [body_cons] at hlen ⊢
    have hdeclared : r.declared < 2^32 := by
      have := hle r List.mem_cons_self
      rw [List.length_append,hplaced,record_length] at hlen
      omega
    have hrest := ih (before++fill before.length++r.bytes)
      (fun x hx => hkind x (List.mem_cons_of_mem r hx))
      (fun x hx => hle x (List.mem_cons_of_mem r hx)) hlen
    rw [hplaced,roundUp8_add] at hrest
    have hstep := visits_cons (before++fill before.length)
      (body (roundUp8 before.length+r.bytes.length) records) r records
      (hkind r List.mem_cons_self) hdeclared (hle r List.mem_cons_self)
    rw [filled_length,← List.append_assoc] at hstep
    rw [hplaced,hstep,hrest,List.forall_mem_cons]

end Zamak.TagStreams
