import Zamak.VfatLayout

/-! # Every directory has a layout

A writer for the format, with the free bytes zero. Whatever entries a directory has,
there are bytes that lay them out. -/

set_option autoImplicit false

namespace Zamak.VfatWrite
open Zamak.Fat32Image Zamak.Fat32Directory Zamak.VfatLayout

def segmentBytes (number : UInt8) (units : List (BitVec 16)) : List UInt8 :=
  number::(units.take 5).flatMap (leBytes 2)++[0x0F,0,0]++
    ((units.drop 5).take 6).flatMap (leBytes 2)++[0,0]++(units.drop 11).flatMap (leBytes 2)

def segmentNumber (name : List UInt8) (k : ℕ) : UInt8 :=
  if k = segmentCount name then UInt8.ofNat k|||0x40 else UInt8.ofNat k

def longBytes (name : List UInt8) : List (List UInt8) :=
  (descending (segmentCount name)).map fun k =>
    segmentBytes (segmentNumber name k) (segmentUnits name k)

def shortBytes (e : VfatEntry) : List UInt8 :=
  e.shortName++e.attrs::List.replicate 8 0++(leBytes 4 e.firstCluster).drop 2++
    List.replicate 4 0++(leBytes 4 e.firstCluster).take 2++leBytes 4 e.len

def itemBytes : Item → List (List UInt8)
  | .deleted => [0xE5::List.replicate 31 0]
  | .entry e => (e.longName.elim [] longBytes)++[shortBytes e]

theorem segmentBytes_positions (number : UInt8) (units : List (BitVec 16))
    (h : units.length = 13) :
    (segmentBytes number units).length = 32 ∧ (segmentBytes number units).getD 0 0 = number ∧
      (segmentBytes number units).getD 0x0B 0 = 0x0F ∧
      positions.map (fun p => ((segmentBytes number units).drop p).take 2) =
        units.map (leBytes 2) := by
  match units,h with
  | [_,_,_,_,_,_,_,_,_,_,_,_,_],_ => exact ⟨rfl,rfl,rfl,rfl⟩

theorem codeUnits_length (name : List UInt8) : (codeUnits name).length = segmentCount name*13 := by
  unfold codeUnits padding segmentCount
  rw [List.length_append,List.length_map]
  split
  · rw [List.length_nil]
    omega
  · rw [List.length_cons,List.length_replicate]
    omega

theorem isSegment_segmentBytes (name : List UInt8) (k : ℕ) (hk : 1 ≤ k)
    (hkn : k ≤ segmentCount name) :
    IsSegment name k (segmentBytes (segmentNumber name k) (segmentUnits name k)) := by
  have hlen : (segmentUnits name k).length = 13 := by
    rw [segmentUnits,List.length_take,List.length_drop,codeUnits_length]
    omega
  obtain ⟨hbytes,hnumber,hattr,hunits⟩ :=
    segmentBytes_positions (segmentNumber name k) (segmentUnits name k) hlen
  exact ⟨hbytes,hnumber,hattr,hunits⟩

theorem forall₂_segmentBytes (name : List UInt8) (n : ℕ) (hn : n ≤ segmentCount name) :
    List.Forall₂ (IsSegment name) (descending n) ((descending n).map fun k =>
      segmentBytes (segmentNumber name k) (segmentUnits name k)) := by
  induction n with
  | zero => exact List.Forall₂.nil
  | succ n ih =>
    exact List.Forall₂.cons (isSegment_segmentBytes name (n+1) (by omega) hn) (ih (by omega))

theorem isShort_shortBytes (e : VfatEntry) : IsShort e (shortBytes e) := by
  have hlen := e.short_length
  unfold shortBytes
  match hname : e.shortName,hlen with
  | [_,_,_,_,_,_,_,_,_,_,_],_ => exact ⟨rfl,hname.symm,rfl,rfl,rfl,rfl⟩

theorem encodes_itemBytes (e : VfatEntry) : Encodes e (itemBytes (.entry e)) := by
  refine ⟨e.longName.elim [] longBytes,shortBytes e,rfl,?_,isShort_shortBytes e⟩
  cases e.longName with
  | none => rfl
  | some name => exact forall₂_segmentBytes name (segmentCount name) (Nat.le_refl _)

theorem laysOut_write (items : List Item) : LaysOut items (items.flatMap itemBytes) := by
  induction items with
  | nil => rfl
  | cons item items ih =>
    cases item with
    | deleted => exact ⟨_,_,rfl,rfl,rfl,ih⟩
    | entry e => exact ⟨itemBytes (.entry e),items.flatMap itemBytes,rfl,encodes_itemBytes e,ih⟩

end Zamak.VfatWrite
