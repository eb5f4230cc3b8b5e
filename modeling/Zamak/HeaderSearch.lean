import Zamak.MultibootHeader

/-! # Where the kernel's header is

`find_header` of `multiboot.rs` and of `multiboot2.rs`: both look at the multiples of a
step in the first bytes of the image for a magic number, and take it for a header when
the fixed words add up to nothing. They differ in the magic, the words, the step and the
size of the window. Neither reads outside the image, and what is found is the first
header there is. -/

set_option autoImplicit false

namespace Zamak.HeaderSearch
open Zamak.PartialSteps Zamak.TagStreams Zamak.MultibootHeader

/-- What one search goes by. The fixed header is `size` bytes, the magic and the words at
`fields`. -/
structure Shape where
  magic : ℕ
  fields : List ℕ
  size : ℕ
  step : ℕ
  limit : ℕ
  magic_inside : 4 ≤ size
  fields_inside : ∀ f ∈ fields, f+4 ≤ size
  step_pos : 0 < step

/-- A slice of the image that does not lie in it. -/
inductive Fault where
  | outOfRange
  deriving DecidableEq, Repr

def readWord (kernel : List UInt8) (offset : ℕ) : Option ℕ :=
  if offset+4 ≤ kernel.length then some (wordAt kernel offset) else none

def wrappingAdd (a b : ℕ) : ℕ := (a+b)%2^32

def searchTurn (s : Shape) (kernel : List UInt8) (searchEnd offset : ℕ) :
    Turn ℕ (Except Fault (Option ℕ)) :=
  if offset+s.size ≤ searchEnd then
    match readWord kernel offset with
    | none => .stop (.error .outOfRange)
    | some magic =>
      if magic = s.magic then
        match s.fields.mapM (fun f => readWord kernel (offset+f)) with
        | none => .stop (.error .outOfRange)
        | some words =>
          if words.foldl wrappingAdd magic = 0 then .stop (.ok (some offset))
          else .go (offset+s.step)
      else .go (offset+s.step)
  else .stop (.ok none)

/-- `find_header`; no result when the fuel of the loop runs out. -/
def search (s : Shape) (fuel : ℕ) (kernel : List UInt8) : Option (Except Fault (Option ℕ)) :=
  let searchEnd := min kernel.length s.limit
  if searchEnd < s.size then some (.ok none) else run (searchTurn s kernel searchEnd) fuel 0

def Shape.Sums (s : Shape) (kernel : List UInt8) (offset : ℕ) : Prop :=
  wordAt kernel offset = s.magic ∧
    (wordAt kernel offset+(s.fields.map fun f => wordAt kernel (offset+f)).sum)%2^32 = 0

instance (s : Shape) (kernel : List UInt8) : DecidablePred (s.Sums kernel) :=
  fun _ => inferInstanceAs (Decidable (_ ∧ _))

def Shape.HeaderAt (s : Shape) (kernel : List UInt8) : ℕ → Prop :=
  Place s.size s.step (min kernel.length s.limit) (s.Sums kernel)

/-- A search comes back, with the least offset of a kind or with nothing where there is
none. -/
def Answers (search : ℕ → Option (Except Fault (Option ℕ))) (p : ℕ → Prop) : Prop :=
  ∃ r, (∃ enough, ∀ fuel, enough ≤ fuel → search fuel = some (.ok r)) ∧
    (∀ o, r = some o ↔ p o ∧ ∀ o' < o, ¬p o') ∧ (r = none ↔ ∀ o, ¬p o)

namespace Multiboot1

def headerMagic : ℕ := 0x1BADB002

def searchLimit : ℕ := 8192

def shape : Shape where
  magic := headerMagic
  fields := [4,8]
  size := 12
  step := 4
  limit := searchLimit
  magic_inside := by decide
  fields_inside := by decide
  step_pos := Nat.succ_pos 3

def findHeader (fuel : ℕ) (kernel : List UInt8) : Option (Except Fault (Option ℕ)) :=
  search shape fuel kernel

def HeaderAt (kernel : List UInt8) (o : ℕ) : Prop :=
  4∣o ∧ o+12 ≤ min kernel.length 8192 ∧ wordAt kernel o = 0x1BADB002 ∧
    (wordAt kernel o+wordAt kernel (o+4)+wordAt kernel (o+8))%2^32 = 0

end Multiboot1

namespace Multiboot2

def searchLimit : ℕ := 32768

/-- The magic, the architecture, the header's length and the checksum. -/
def shape : Shape where
  magic := multiboot2HeaderMagic
  fields := [4,8,12]
  size := 16
  step := 8
  limit := searchLimit
  magic_inside := by decide
  fields_inside := by decide
  step_pos := Nat.succ_pos 7

def findHeader (fuel : ℕ) (kernel : List UInt8) : Option (Except Fault (Option ℕ)) :=
  search shape fuel kernel

def HeaderAt (kernel : List UInt8) (o : ℕ) : Prop :=
  8∣o ∧ o+16 ≤ min kernel.length 32768 ∧ wordAt kernel o = 0xE85250D6 ∧
    (wordAt kernel o+wordAt kernel (o+4)+wordAt kernel (o+8)+wordAt kernel (o+12))%2^32 = 0

end Multiboot2

theorem readWord_inside (kernel : List UInt8) (offset : ℕ) (h : offset+4 ≤ kernel.length) :
    readWord kernel offset = some (wordAt kernel offset) := by
  rw [readWord,if_pos h]

theorem readWords_inside (kernel : List UInt8) (offset : ℕ) (fields : List ℕ)
    (h : ∀ f ∈ fields, offset+f+4 ≤ kernel.length) :
    fields.mapM (fun f => readWord kernel (offset+f)) =
      some (fields.map fun f => wordAt kernel (offset+f)) := by
  induction fields with
  | nil => rfl
  | cons f fields ih =>
    rw [List.mapM_cons,readWord_inside kernel _ (h f (List.mem_cons_self ..)),
      ih fun f' hf => h f' (List.mem_cons_of_mem f hf)]
    rfl

theorem foldl_wrappingAdd (words : List ℕ) (n : ℕ) (h : n < 2^32) :
    words.foldl wrappingAdd n = (n+words.sum)%2^32 := by
  induction words generalizing n with
  | nil => rw [List.foldl_nil,List.sum_nil,Nat.add_zero,Nat.mod_eq_of_lt h]
  | cons w words ih =>
    have hlt : wrappingAdd n w < 2^32 := Nat.mod_lt _ (by decide)
    rw [List.foldl_cons,List.sum_cons,ih _ hlt,wrappingAdd,Nat.mod_add_mod,Nat.add_assoc]

/-- No slice of a turn leaves the image, and the turn is one of a scan for headers. -/
theorem searchTurn_scans (s : Shape) (kernel : List UInt8) (offset : ℕ) :
    searchTurn s kernel (min kernel.length s.limit) offset =
      scanTurn s.size s.step (min kernel.length s.limit) (s.Sums kernel) .ok offset := by
  unfold searchTurn scanTurn
  by_cases hw : offset+s.size ≤ min kernel.length s.limit
  · have hlen : offset+s.size ≤ kernel.length := Nat.le_trans hw (Nat.min_le_left _ _)
    have hmagic := s.magic_inside
    have hword : wordAt kernel offset < 2^32 := numberAt_lt 4 kernel offset
    have hfields : ∀ f ∈ s.fields, offset+f+4 ≤ kernel.length := by
      intro f hf
      have := s.fields_inside f hf
      omega
    rw [if_pos hw,if_pos hw,readWord_inside kernel offset (by omega),
      readWords_inside kernel offset s.fields hfields]
    simp only [foldl_wrappingAdd _ _ hword]
    by_cases hm : wordAt kernel offset = s.magic
    · by_cases hsum : (wordAt kernel offset+
          (s.fields.map fun f => wordAt kernel (offset+f)).sum)%2^32 = 0
      · have hsums : s.Sums kernel offset := ⟨hm,hsum⟩
        rw [if_pos hm,if_pos hsum,if_pos hsums]
      · have hsums : ¬s.Sums kernel offset := fun h => hsum h.2
        rw [if_pos hm,if_neg hsum,if_neg hsums]
    · have hsums : ¬s.Sums kernel offset := fun h => hm h.1
      rw [if_neg hm,if_neg hsums]
  · rw [if_neg hw,if_neg hw]

theorem search_answers (s : Shape) (kernel : List UInt8) :
    Answers (fun fuel => search s fuel kernel) (s.HeaderAt kernel) := by
  have hpos : 0 < s.size := Nat.lt_of_lt_of_le (by decide) s.magic_inside
  by_cases hsmall : min kernel.length s.limit < s.size
  · have hnone : ∀ o, ¬s.HeaderAt kernel o := by
      intro o h
      have := h.2.1
      omega
    refine ⟨none,⟨0,fun fuel _ => if_pos hsmall⟩,finds_some_iff hnone,finds_none_iff hnone⟩
  · obtain ⟨r,hr,hrun⟩ := scan_finds s.size s.step (min kernel.length s.limit) (s.Sums kernel)
      (Except.ok (ε := Fault)) s.step_pos hpos
    refine ⟨r,⟨min kernel.length s.limit+1,fun fuel hfuel => ?_⟩,finds_some_iff hr,
      finds_none_iff hr⟩
    have hsearch : search s fuel kernel =
        run (searchTurn s kernel (min kernel.length s.limit)) fuel 0 := if_neg hsmall
    show search s fuel kernel = some (.ok r)
    rw [hsearch,funext (searchTurn_scans s kernel)]
    exact hrun fuel hfuel

theorem Answers.congr {search : ℕ → Option (Except Fault (Option ℕ))} {p q : ℕ → Prop}
    (h : ∀ o, p o ↔ q o) (hp : Answers search p) : Answers search q :=
  funext (fun o => propext (h o)) ▸ hp

theorem multiboot1_headerAt (kernel : List UInt8) (o : ℕ) :
    Multiboot1.shape.HeaderAt kernel o ↔ Multiboot1.HeaderAt kernel o := by
  simp only [Shape.HeaderAt,Place,Shape.Sums,Multiboot1.shape,Multiboot1.HeaderAt,
    Multiboot1.headerMagic,Multiboot1.searchLimit,List.map_cons,List.map_nil,List.sum_cons,
    List.sum_nil,Nat.add_zero,Nat.add_assoc]

theorem multiboot2_headerAt (kernel : List UInt8) (o : ℕ) :
    Multiboot2.shape.HeaderAt kernel o ↔ Multiboot2.HeaderAt kernel o := by
  simp only [Shape.HeaderAt,Place,Shape.Sums,Multiboot2.shape,Multiboot2.HeaderAt,
    multiboot2HeaderMagic,Multiboot2.searchLimit,List.map_cons,List.map_nil,List.sum_cons,
    List.sum_nil,Nat.add_zero,Nat.add_assoc]

/-- Both searches return the first header of their kind in their window, and nothing
exactly when there is none. -/
theorem find_header_first (kernel : List UInt8) :
    Answers (fun fuel => Multiboot1.findHeader fuel kernel) (Multiboot1.HeaderAt kernel) ∧
      Answers (fun fuel => Multiboot2.findHeader fuel kernel) (Multiboot2.HeaderAt kernel) :=
  ⟨(search_answers Multiboot1.shape kernel).congr (multiboot1_headerAt kernel),
    (search_answers Multiboot2.shape kernel).congr (multiboot2_headerAt kernel)⟩

section Written
variable (before after : List UInt8) (h : Header)

theorem magic_at :
    wordAt (before++(h.bytes++after)) before.length = multiboot2HeaderMagic := by
  rw [Header.bytes,Header.fixedBytes]
  simp only [List.append_assoc]
  exact wordAt_append before _ multiboot2HeaderMagic (by decide)

theorem checksum_at :
    wordAt (before++(h.bytes++after)) (before.length+12) = h.checksum.toNat := by
  have hword := numberAt_within 4 before (natBytes 4 multiboot2HeaderMagic++
    (natBytes 4 h.architecture.toNat++natBytes 4 h.headerLength.toNat))
    (tagBytes h.tags++(endTagBytes h.endFlags++after)) h.checksum.toNat h.checksum.toNat_lt
  rw [Header.bytes,Header.fixedBytes]
  simp only [List.append_assoc] at hword ⊢
  exact hword

theorem checksum_sums :
    (multiboot2HeaderMagic+h.architecture.toNat+h.headerLength.toNat+h.checksum.toNat)%2^32 =
      0 := by
  have hzero : UInt32.ofNat multiboot2HeaderMagic+h.architecture+h.headerLength+h.checksum =
      0 := by
    rw [Header.checksum]
    grind
  have hnat := congrArg UInt32.toNat hzero
  simp only [UInt32.toNat_add,Nat.mod_add_mod] at hnat
  exact hnat

/-- A well-formed header that starts at a multiple of eight and whose fixed part is in the
window is one the search is after. -/
theorem written_headerAt (haligned : 8∣before.length) (hwindow : before.length+16 ≤ 32768) :
    Multiboot2.HeaderAt (before++(h.bytes++after)) before.length := by
  have hbytes : h.bytes.length = 16+(tagBytes h.tags++endTagBytes h.endFlags).length := by
    rw [Header.bytes,List.length_append,fixed_length]
  have hlen : before.length+16 ≤ (before++(h.bytes++after)).length := by
    simp only [List.length_append] at hbytes ⊢
    omega
  refine ⟨haligned,Nat.le_min.mpr ⟨hlen,hwindow⟩,magic_at before after h,?_⟩
  rw [magic_at,architecture_at,headerLength_at,checksum_at]
  exact checksum_sums h

theorem written_found (haligned : 8∣before.length) (hwindow : before.length+16 ≤ 32768)
    (hfirst : ∀ o < before.length, ¬Multiboot2.HeaderAt (before++(h.bytes++after)) o) :
    ∃ fuel, Multiboot2.findHeader fuel (before++(h.bytes++after)) =
      some (.ok (some before.length)) := by
  obtain ⟨r,⟨enough,hrun⟩,hfinds,-⟩ := (search_answers Multiboot2.shape
    (before++(h.bytes++after))).congr (multiboot2_headerAt (before++(h.bytes++after)))
  have hr : r = some before.length :=
    (hfinds before.length).mpr ⟨written_headerAt before after h haligned hwindow,hfirst⟩
  subst hr
  exact ⟨enough,hrun enough (Nat.le_refl _)⟩

end Written

end Zamak.HeaderSearch
