import Zamak.PmmTidy

/-!
# Normalization with checked arithmetic

The same normalization with every sum and difference of addresses checked, as
a build with overflow checks performs it: `none` is an operation that leaves
the word. Only the rounding up of a base can do so. The differences are guarded
by the comparisons before them, and the lengths the merge pass adds are those
of touching whole pages.
-/

set_option autoImplicit false

namespace Zamak.PmmChecked
open Zamak.PmmRegions Zamak.PmmRegions.MemoryRegion Zamak.PmmCoverage Zamak.PmmTidy

def add64 (a b : ℕ) : Option ℕ := if a+b < wordSize then some (a+b) else none

def sub64 (a b : ℕ) : Option ℕ := if b ≤ a then some (a-b) else none

def alignUpChecked (value align : ℕ) : Option ℕ := do
  let sum ← add64 value align
  let last ← sub64 sum 1
  let mask ← sub64 align 1
  some (last &&& (wordSize-1-mask))

def alignDownChecked (value align : ℕ) : Option ℕ := do
  let mask ← sub64 align 1
  some (value &&& (wordSize-1-mask))

def spanChecked (lo hi : ℕ) (t : MemoryType) : Option MemoryRegion := do
  let length ← sub64 hi lo
  if h : lo < wordSize ∧ length < wordSize then some ⟨lo,length,t,h.1,h.2⟩ else none

def pageAlignChecked (e : MemoryRegion) : Option MemoryRegion := do
  let alignedBase ← alignUpChecked e.base pageSize
  let alignedEnd ← alignDownChecked e.endAddr pageSize
  if alignedEnd ≤ alignedBase then some ⟨e.base,0,e.regionType,e.base_lt,wordSize_pos⟩
  else spanChecked alignedBase alignedEnd e.regionType

def beforeChecked (r s : MemoryRegion) : Option (List MemoryRegion) :=
  if r.base < s.base then (spanChecked r.base s.base r.regionType).map (fun p => [p]) else some []

def afterChecked (r s : MemoryRegion) : Option (List MemoryRegion) :=
  if s.endAddr < r.endAddr then
    (spanChecked s.endAddr r.endAddr r.regionType).map (fun p => [p])
  else some []

def insertScanChecked (new : MemoryRegion) :
    List MemoryRegion → List MemoryRegion → Option (List MemoryRegion)
  | visited, [] => some (insertSorted visited new)
  | visited, existing::rest =>
    if Apart new existing then insertScanChecked new (visited++[existing]) rest
    else if existing.priority ≤ new.priority then do
      let first ← beforeChecked existing new
      let second ← afterChecked existing new
      insertScanChecked new (visited++(first++second)) rest
    else do
      let first ← beforeChecked new existing
      let second ← afterChecked new existing
      some (((first++second).filter (fun piece => 0 < piece.length)).foldl
        insertSorted (visited++existing::rest))

def mergeFromChecked (r : MemoryRegion) : List MemoryRegion → Option (List MemoryRegion)
  | [] => some [r]
  | s::rest =>
    if r.regionType = s.regionType ∧ r.endAddr = s.base then
      if h : r.length+s.length < wordSize then
        mergeFromChecked ⟨r.base,r.length+s.length,r.regionType,r.base_lt,h⟩ rest
      else none
    else (mergeFromChecked s rest).map (fun l => r::l)

def mergeAdjacentChecked : List MemoryRegion → Option (List MemoryRegion)
  | [] => some []
  | r::rest => mergeFromChecked r rest

def normalizeChecked (raw : List MemoryRegion) : Option (List MemoryRegion) :=
  if raw = [] then some []
  else do
    let entries ← (sortByBase raw).mapM pageAlignChecked
    let resolved ← (entries.filter (fun e => 0 < e.length)).foldlM
      (fun regions new => insertScanChecked new [] regions) []
    mergeAdjacentChecked resolved

theorem alignUpChecked_page (x : ℕ) : alignUpChecked x pageSize =
    if x+pageSize < wordSize then some (alignUp x pageSize) else none := by
  unfold alignUpChecked add64
  by_cases h : x+pageSize < wordSize
  · have hv : ((x+pageSize)%wordSize+wordSize-1)%wordSize = x+pageSize-1 := by
      unfold wordSize pageSize at *
      omega
    have hs : sub64 (x+pageSize) 1 = some (x+pageSize-1) :=
      if_pos (by unfold pageSize; omega)
    have hm : sub64 pageSize 1 = some (pageSize-1) := if_pos (by norm_num [pageSize])
    simp only [if_pos h, Option.bind_eq_bind, Option.bind_some, hs, hm, alignUp, hv]
    rfl
  · simp [if_neg h]

theorem alignDownChecked_page (x : ℕ) :
    alignDownChecked x pageSize = some (alignDown x pageSize) := by
  have hm : sub64 pageSize 1 = some (pageSize-1) := if_pos (by norm_num [pageSize])
  unfold alignDownChecked
  rw [hm]
  rfl

theorem spanChecked_eq (lo hi : ℕ) (t : MemoryType) (hl : lo < wordSize) (hh : hi < wordSize)
    (h : lo ≤ hi) : spanChecked lo hi t = some (span lo hi t hl hh) := by
  unfold spanChecked sub64
  simp only [if_pos h, Option.bind_eq_bind, Option.bind_some]
  exact dif_pos ⟨hl,lt_of_le_of_lt (Nat.sub_le hi lo) hh⟩

theorem beforeChecked_eq (r s : MemoryRegion) : beforeChecked r s = some (before r s) := by
  unfold beforeChecked before
  split_ifs with h
  · rw [spanChecked_eq _ _ _ r.base_lt s.base_lt h.le]
    rfl
  · rfl

theorem afterChecked_eq (r s : MemoryRegion) : afterChecked r s = some (after r s) := by
  unfold afterChecked after
  split_ifs with h
  · rw [spanChecked_eq _ _ _ s.endAddr_lt r.endAddr_lt h.le]
    rfl
  · rfl

theorem insertScanChecked_eq (new : MemoryRegion) (visited rest : List MemoryRegion) :
    insertScanChecked new visited rest = some (insertScan new visited rest) := by
  induction rest generalizing visited with
  | nil => rfl
  | cons existing rest ih =>
    unfold insertScanChecked insertScan
    simp only [beforeChecked_eq, afterChecked_eq, Option.bind_eq_bind, Option.bind_some, ih]
    split_ifs <;> rfl

theorem resolve_checked (entries regions : List MemoryRegion) :
    entries.foldlM (fun regions new => insertScanChecked new [] regions) regions =
      some (entries.foldl insertWithOverlap regions) := by
  induction entries generalizing regions with
  | nil => rfl
  | cons e entries ih =>
    rw [List.foldlM_cons, insertScanChecked_eq, Option.bind_eq_bind, Option.bind_some, ih]
    rfl

theorem mergeFromChecked_eq (r : MemoryRegion) (rest : List MemoryRegion) (hr : Tidy r)
    (ht : ∀ s ∈ rest, Tidy s) : mergeFromChecked r rest = some (mergeFrom r rest) := by
  induction rest generalizing r with
  | nil => rfl
  | cons s rest ih =>
    have hs := ht s (by simp)
    have hrest : ∀ x ∈ rest, Tidy x := fun x hx => ht x (by simp [hx])
    unfold mergeFromChecked mergeFrom
    split_ifs with h hlt
    · have hsum : (⟨r.base,r.length+s.length,r.regionType,r.base_lt,hlt⟩ : MemoryRegion) =
          joined r s := by
        simp only [joined, Nat.mod_eq_of_lt hlt]
      rw [hsum, ih _ (tidy_joined hr hs h.2).1 hrest]
      rfl
    · have he := h.2
      rw [hr.endAddr_eq] at he
      have := hs.fits
      omega
    · rw [ih s hs hrest]
      rfl

theorem mergeAdjacentChecked_eq (l : List MemoryRegion) (h : ∀ r ∈ l, Tidy r) :
    mergeAdjacentChecked l = some (mergeAdjacent l) := by
  cases l with
  | nil => rfl
  | cons r l => exact mergeFromChecked_eq r l (h r (by simp)) (fun s hs => h s (by simp [hs]))

theorem pageAlignChecked_eq (e : MemoryRegion) : pageAlignChecked e =
    if e.base+pageSize < wordSize then some (pageAlign e) else none := by
  unfold pageAlignChecked pageAlign
  rw [alignUpChecked_page, alignDownChecked_page]
  by_cases h : e.base+pageSize < wordSize
  · simp only [if_pos h, Option.bind_eq_bind, Option.bind_some]
    split_ifs with hle
    · rfl
    · exact spanChecked_eq _ _ _ _ _ (not_le.mp hle).le
  · simp [if_neg h]

theorem mapM_guarded {α β : Type} (P : α → Prop) [DecidablePred P] (f : α → β) (l : List α) :
    l.mapM (fun x => if P x then some (f x) else none) =
      if ∀ x ∈ l, P x then some (l.map f) else none := by
  induction l with
  | nil => simp
  | cons x l ih =>
    rw [List.mapM_cons, ih]
    by_cases hx : P x
    · by_cases hl : ∀ y ∈ l, P y
      · have hall : ∀ y ∈ x::l, P y := List.forall_mem_cons.mpr ⟨hx,hl⟩
        rw [if_pos hx, if_pos hl, if_pos hall]
        rfl
      · have hall : ¬∀ y ∈ x::l, P y := fun h => hl (List.forall_mem_cons.mp h).2
        rw [if_pos hx, if_neg hl, if_neg hall]
        rfl
    · have hall : ¬∀ y ∈ x::l, P y := fun h => hx (List.forall_mem_cons.mp h).1
      rw [if_neg hx, if_neg hall]
      rfl

/-- Normalization overflows exactly when a base lies in the last page of the
address space; otherwise checked and wrapping arithmetic agree. -/
theorem normalizeChecked_eq (raw : List MemoryRegion) : normalizeChecked raw =
    if ∀ e ∈ raw, e.base+pageSize < wordSize then some (PmmRegions.normalize raw) else none := by
  unfold normalizeChecked
  by_cases hraw : raw = []
  · simp [hraw, PmmRegions.normalize]
  · rw [if_neg hraw, normalize_eq]
    simp only [funext pageAlignChecked_eq,
      mapM_guarded (fun e : MemoryRegion => e.base+pageSize < wordSize),
      (sortByBase_perm raw).mem_iff]
    split_ifs with h
    · simp only [Option.bind_eq_bind, Option.bind_some, resolve_checked]
      exact mergeAdjacentChecked_eq _ (tidy_resolve _ (tidy_alignedEntries _))
    · rfl

theorem shrunkCovers_covers {e : MemoryRegion} {a : ℕ} (h : ShrunkCovers e a) : e.Covers a := by
  simp only [ShrunkCovers, Covers, pageSize] at *
  omega

/-- Normalization is free of overflow and stays inside the raw entries exactly
when no entry starts in the last page of the address space. -/
theorem normalize_in_bounds_iff (raw : List MemoryRegion) :
    (normalizeChecked raw = some (PmmRegions.normalize raw) ∧
      ∀ r ∈ PmmRegions.normalize raw, ∀ a, r.Covers a → ∃ e ∈ raw, e.Covers a) ↔
    ∀ e ∈ raw, e.base+pageSize < wordSize := by
  rw [normalizeChecked_eq]
  constructor
  · rintro ⟨h,-⟩
    by_contra hn
    rw [if_neg hn] at h
    cases h
  · intro h
    refine ⟨if_pos h,fun r hr a ha => ?_⟩
    have hb : ∀ e ∈ raw, e.base ≤ wordSize-pageSize := fun e he => by
      have := h e he
      omega
    obtain ⟨e,he,hc⟩ := (normalize_pointwise raw hb a).1.mp ⟨r,hr,ha⟩
    exact ⟨e,he,shrunkCovers_covers hc⟩

def lastPage : List MemoryRegion :=
  [⟨2^64-4095,0x10,.usable,by norm_num,by norm_num⟩]

/-- Its base wraps to zero, and the output claims all memory below it. -/
theorem lastPage_claims_all :
    normalizeChecked lastPage = none ∧
    ∃ r ∈ PmmRegions.normalize lastPage, r.Covers 0 ∧ ∀ e ∈ lastPage, ¬e.Covers 0 := by
  refine ⟨by decide,⟨0,2^64-4096,.usable,by norm_num,by norm_num⟩,by decide,by decide,by decide⟩

end Zamak.PmmChecked
