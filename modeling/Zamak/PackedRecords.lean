import Mathlib.Data.List.GetD

/-! # Records packed into a block

A record begins with the byte that gives its length. Records stand one after the other
in a block of fixed size and the rest of the block is zero. A scan that goes from record
to record by the length byte tries every record of a packed block, in order, until one
answers. -/

set_option autoImplicit false

namespace Zamak.PackedRecords

variable {β : Type} (size : ℕ) (answer : List UInt8 → Option β)

/-- The scan stops at a length of zero and at a record that would leave the block. -/
def scan (block : List UInt8) (offset : ℕ) : Option β :=
  if offset < size then
    let length := (block.getD offset 0).toNat
    if length = 0 then none
    else if offset+length > size then none
    else
      match answer ((block.drop offset).take length) with
      | some b => some b
      | none => scan block (offset+length)
  else none
termination_by size-offset
decreasing_by exact Nat.sub_lt_sub_left ‹_› (Nat.lt_add_of_pos_right (Nat.pos_of_ne_zero ‹_›))

structure Framed (record : List UInt8) : Prop where
  nonempty : 0 < record.length
  length : (record.getD 0 0).toNat = record.length

def pack (records : List (List UInt8)) : List UInt8 :=
  records.flatten++List.replicate (size-records.flatten.length) 0

theorem pack_length (records : List (List UInt8)) (h : records.flatten.length ≤ size) :
    (pack size records).length = size := by
  rw [pack,List.length_append,List.length_replicate]
  omega

theorem getD_at (before record rest : List UInt8) (h : 0 < record.length) :
    (before++(record++rest)).getD before.length 0 = record.getD 0 0 := by
  rw [List.getD_append_right _ _ _ _ (Nat.le_refl _),Nat.sub_self,List.getD_append _ _ _ _ h]

theorem scan_record (before record rest : List UInt8) (h : Framed record)
    (hle : before.length+record.length ≤ size) :
    scan size answer (before++(record++rest)) before.length =
      (answer record).or
        (scan size answer (before++(record++rest)) (before.length+record.length)) := by
  have hpos := h.nonempty
  have hlength : ((before++(record++rest)).getD before.length 0).toNat = record.length := by
    rw [getD_at before record rest hpos,h.length]
  have hwindow : ((before++(record++rest)).drop before.length).take record.length = record := by
    rw [List.drop_left,List.take_left]
  rw [scan]
  simp only [hlength,hwindow]
  rw [if_pos (by omega),if_neg (by omega),if_neg (by omega)]
  cases answer record with
  | none => rfl
  | some b => rfl

/-- Behind the last record the scan ends, at a zero byte or at the end of the block. -/
theorem scan_end (before : List UInt8) :
    scan size answer (before++List.replicate (size-before.length) 0) before.length = none := by
  rw [scan]
  split
  · rename_i hlt
    have hzero : (before++List.replicate (size-before.length) 0).getD before.length 0 = 0 := by
      rw [List.getD_append_right _ _ _ _ (Nat.le_refl _),Nat.sub_self,
        List.getD_replicate _ (by omega)]
    simp only [hzero]
    rfl
  · rfl

theorem scan_from (records : List (List UInt8)) (h : ∀ record ∈ records, Framed record)
    (before : List UInt8) (hle : (before++records.flatten).length ≤ size) :
    scan size answer (before++pack (size-before.length) records) before.length =
      records.findSome? answer := by
  induction records generalizing before with
  | nil => exact scan_end size answer before
  | cons record records ih =>
    rw [List.flatten_cons,← List.append_assoc] at hle
    have hsplit : before++pack (size-before.length) (record::records) =
        before++record++pack (size-(before++record).length) records := by
      simp only [pack,List.flatten_cons,List.append_assoc,List.length_append,Nat.sub_sub,
        Nat.add_assoc]
    have hrest := ih (fun r hr => h r (List.mem_cons_of_mem record hr)) (before++record) hle
    rw [List.length_append] at hrest hle
    have hstep := scan_record size answer before record
      (pack (size-(before++record).length) records) (h record List.mem_cons_self)
      (by rw [List.length_append] at hle; omega)
    rw [← List.append_assoc,List.length_append] at hstep
    rw [hsplit,List.length_append,hstep,hrest,List.findSome?_cons]
    cases answer record with
    | none => rfl
    | some b => rfl

theorem scan_pack (records : List (List UInt8)) (h : ∀ record ∈ records, Framed record)
    (hle : records.flatten.length ≤ size) :
    scan size answer (pack size records) 0 = records.findSome? answer :=
  scan_from size answer records h [] hle

end Zamak.PackedRecords
