import Zamak.PmmRuns

/-! # What marking and allocating change

The type of an address is that of the region that covers it. Marking repaints the
covered addresses of its range, an allocation the addresses of its block, and no other
address changes. The pieces of a region lie inside it and follow one another, so a map
in which every region ends before the later ones begin stays one. -/

set_option autoImplicit false

namespace Zamak.PmmMutators
open Zamak.PmmRegions Zamak.PmmRegions.MemoryRegion Zamak.PmmCoverage Zamak.PmmOrder
open Zamak.OrderedSpans Zamak.PmmAllocator Zamak.PmmRuns

def typeAt (regions : List MemoryRegion) (a : ℕ) : Option MemoryType :=
  (regions.find? fun r => r.Covers a).map regionType

def Sorted (regions : List MemoryRegion) : Prop := regions.Pairwise fun r s => r.base ≤ s.base

def Disjoint (regions : List MemoryRegion) : Prop := regions.Pairwise Apart

theorem base_le_end (r : MemoryRegion) : r.base ≤ r.endAddr := by
  have := r.base_lt
  unfold endAddr
  omega

/-- A list in order is sorted and disjoint; for regions that cover something the
converse holds too. -/
theorem inOrder_sorted (regions : List MemoryRegion) (h : InOrder regions) :
    Sorted regions ∧ Disjoint regions :=
  ⟨h.imp fun {r _} hr => (base_le_end r).trans hr,h.imp fun hr => Or.inl hr⟩

theorem typeAt_nil (a : ℕ) : typeAt [] a = none := rfl

theorem typeAt_append (l m : List MemoryRegion) (a : ℕ) :
    typeAt (l++m) a = (typeAt l a).or (typeAt m a) := by
  unfold typeAt
  rw [List.find?_append,Option.map_or]

theorem typeAt_singleton (r : MemoryRegion) (a : ℕ) :
    typeAt [r] a = if r.Covers a then some r.regionType else none := by
  unfold typeAt
  by_cases h : r.Covers a <;> simp [h]

theorem typeAt_none (regions : List MemoryRegion) (a : ℕ) :
    typeAt regions a = none ↔ ∀ r ∈ regions, ¬r.Covers a := by
  simp [typeAt]

theorem typeAt_span (lo hi a : ℕ) (t : MemoryType) (hl : lo < wordSize) (hh : hi < wordSize)
    (h : lo ≤ hi) : typeAt [span lo hi t hl hh] a = if lo ≤ a ∧ a < hi then some t else none := by
  have hcovers : (span lo hi t hl hh).Covers a ↔ lo ≤ a ∧ a < hi := by
    rw [Covers.eq_def,span_endAddr lo hi t hl hh h]
    rfl
  rw [typeAt_singleton]
  exact if_congr hcovers rfl rfl

theorem typeAt_before (r s : MemoryRegion) (a : ℕ) :
    typeAt (before r s) a = if r.base ≤ a ∧ a < s.base then some r.regionType else none := by
  unfold before
  split
  · rename_i h
    exact typeAt_span r.base s.base a r.regionType r.base_lt s.base_lt h.le
  · rw [typeAt_nil,if_neg (by omega)]

theorem typeAt_after (r s : MemoryRegion) (a : ℕ) :
    typeAt (after r s) a = if s.endAddr ≤ a ∧ a < r.endAddr then some r.regionType else none := by
  unfold after
  split
  · rename_i h
    exact typeAt_span s.endAddr r.endAddr a r.regionType s.endAddr_lt r.endAddr_lt h.le
  · rw [typeAt_nil,if_neg (by omega)]

theorem typeAt_literal (base length a : ℕ) (t : MemoryType) (h : base+length < wordSize) :
    typeAt [literal base length t] a =
      if base ≤ a ∧ a < base+length then some t else none := by
  obtain ⟨hb,he⟩ := literal_endAddr base length t h
  have hcovers : (literal base length t).Covers a ↔ base ≤ a ∧ a < base+length := by
    rw [Covers.eq_def,hb,he]
  rw [typeAt_singleton]
  exact if_congr hcovers rfl rfl

/-- The pieces of one region: the part inside the mark repainted, the rest as it was. -/
theorem typeAt_markOne (mark r : MemoryRegion) (a : ℕ) :
    typeAt (markOne mark r) a =
      if r.Covers a then some (if mark.Covers a then mark.regionType else r.regionType)
      else none := by
  have hm := mark.endAddr_lt
  have hmark := base_le_end mark
  have hr := base_le_end r
  unfold markOne
  split
  · rename_i hout
    rw [typeAt_singleton]
    by_cases hc : r.Covers a
    · have hno : ¬mark.Covers a := by
        simp only [Covers] at hc ⊢
        omega
      rw [if_pos hc,if_pos hc,if_neg hno]
    · rw [if_neg hc,if_neg hc]
  · rename_i hin
    have hspan : max mark.base r.base+(min mark.endAddr r.endAddr-max mark.base r.base) =
        min mark.endAddr r.endAddr := by omega
    rw [typeAt_append,typeAt_append,typeAt_before,typeAt_after,typeAt_literal _ _ _ _ (by omega),
      hspan]
    simp only [max_le_iff,lt_min_iff]
    by_cases hc : r.Covers a
    · rw [if_pos hc]
      by_cases hk : mark.Covers a
      · rw [if_pos hk]
        simp only [Covers] at hc hk
        rw [if_neg (by omega),if_pos (by omega)]
        rfl
      · rw [if_neg hk]
        simp only [Covers] at hc hk
        rw [if_neg (show ¬((mark.base ≤ a ∧ r.base ≤ a) ∧ a < mark.endAddr ∧ a < r.endAddr) by omega)]
        by_cases hlt : a < mark.base
        · rw [if_pos ⟨hc.1,hlt⟩]
          rfl
        · rw [if_neg (by omega),if_pos ⟨by omega,hc.2⟩]
          rfl
    · rw [if_neg hc]
      simp only [Covers] at hc
      rw [if_neg (by omega),if_neg (by omega),if_neg (by omega)]
      rfl

theorem markRegion_regions (pmm : Pmm) (mark : MemoryRegion) :
    (markRegion pmm mark).regions = pmm.regions.flatMap (markOne mark) := rfl

theorem typeAt_markRegion (pmm : Pmm) (mark : MemoryRegion) (a : ℕ) :
    typeAt (markRegion pmm mark).regions a =
      (typeAt pmm.regions a).map fun t => if mark.Covers a then mark.regionType else t := by
  rw [markRegion_regions]
  induction pmm.regions with
  | nil => rfl
  | cons r regions ih =>
    rw [List.flatMap_cons,typeAt_append,ih,typeAt_markOne,← List.singleton_append (l := regions),
      typeAt_append,typeAt_singleton]
    by_cases hc : r.Covers a
    · rw [if_pos hc,if_pos hc]
      rfl
    · rw [if_neg hc,if_neg hc]
      rfl

def Inside (x r : MemoryRegion) : Prop := r.base ≤ x.base ∧ x.endAddr ≤ r.endAddr

theorem apart_inside {r s x y : MemoryRegion} (h : Apart r s) (hx : Inside x r)
    (hy : Inside y s) : Apart x y := by
  simp only [Apart,Inside] at *
  omega

theorem inside_self (r : MemoryRegion) : Inside r r := ⟨Nat.le_refl _,Nat.le_refl _⟩

/-- Three pieces that follow one another, the outer two of which may be missing. -/
theorem pieces_inOrder (first last : List MemoryRegion) (middle : MemoryRegion)
    (hfirst : first.length ≤ 1) (hlast : last.length ≤ 1)
    (hbefore : ∀ x ∈ first, x.endAddr ≤ middle.base)
    (hafter : ∀ y ∈ last, middle.endAddr ≤ y.base) : InOrder (first++[middle]++last) := by
  have hshort : ∀ l : List MemoryRegion, l.length ≤ 1 → InOrder l := by
    intro l hl
    match l with
    | [] => exact List.Pairwise.nil
    | [x] => exact List.pairwise_singleton _ _
  apply List.pairwise_append.mpr
  refine ⟨List.pairwise_append.mpr ⟨hshort first hfirst,List.pairwise_singleton _ _,?_⟩,
    hshort last hlast,?_⟩
  · intro x hx y hy
    rw [List.mem_singleton.mp hy]
    exact hbefore x hx
  · intro x hx y hy
    have hy := hafter y hy
    rcases List.mem_append.mp hx with hx | hx
    · have := hbefore x hx
      have := base_le_end middle
      omega
    · rw [List.mem_singleton.mp hx]
      exact hy

theorem before_length (r s : MemoryRegion) : (before r s).length ≤ 1 := by
  unfold before
  split <;> simp

theorem after_length (r s : MemoryRegion) : (after r s).length ≤ 1 := by
  unfold after
  split <;> simp

theorem markOne_inside (mark r x : MemoryRegion) (h : x ∈ markOne mark r) : Inside x r := by
  have hm := mark.endAddr_lt
  have hr := base_le_end r
  have hmark := base_le_end mark
  unfold markOne at h
  split at h
  · rw [List.mem_singleton.mp h]
    exact inside_self r
  · rename_i hin
    unfold Inside
    rcases List.mem_append.mp h with h | h
    · rcases List.mem_append.mp h with h | h
      · have := before_mem h
        omega
      · have hmid := literal_endAddr (max mark.base r.base)
          (min mark.endAddr r.endAddr-max mark.base r.base) mark.regionType (by omega)
        rw [List.mem_singleton.mp h,hmid.1,hmid.2]
        omega
    · have := after_mem h
      omega

theorem markOne_inOrder (mark r : MemoryRegion) : InOrder (markOne mark r) := by
  have hm := mark.endAddr_lt
  have hr := base_le_end r
  have hmark := base_le_end mark
  unfold markOne
  split
  · exact List.pairwise_singleton _ _
  · rename_i hin
    have hmid := literal_endAddr (max mark.base r.base)
      (min mark.endAddr r.endAddr-max mark.base r.base) mark.regionType (by omega)
    apply pieces_inOrder _ _ _ (before_length r mark) (after_length r mark)
    · intro x hx
      have := before_mem hx
      rw [hmid.1]
      omega
    · intro y hy
      have := after_mem hy
      rw [hmid.2]
      omega

theorem markRegion_inOrder (pmm : Pmm) (mark : MemoryRegion) (h : InOrder pmm.regions) :
    InOrder (markRegion pmm mark).regions := by
  rw [markRegion_regions]
  exact h.flatMap _ (fun r _ => markOne_inOrder mark r) fun r _ x hx => markOne_inside mark r x hx

theorem markRegion_disjoint (pmm : Pmm) (mark : MemoryRegion) (h : Disjoint pmm.regions) :
    Disjoint (markRegion pmm mark).regions := by
  rw [markRegion_regions]
  apply List.pairwise_flatMap.mpr
  constructor
  · exact fun r _ => (inOrder_sorted _ (markOne_inOrder mark r)).2
  · exact h.imp fun hap x hx y hy =>
      apart_inside hap (markOne_inside mark _ x hx) (markOne_inside mark _ y hy)

section Split
variable {region : MemoryRegion} {a size : ℕ} (hb : region.base ≤ a)
  (he : a+size ≤ region.endAddr)
include he

theorem splitRegion_eq :
    splitRegion region a size =
      (if region.base < a then [literal region.base (a-region.base) .usable] else [])++
      [literal a size .bootloaderReclaimable]++
      (if a+size < region.endAddr then
        [literal (a+size) (region.endAddr-(a+size)) .usable] else []) := by
  have := region.endAddr_lt
  have hend : (a+size)%wordSize = a+size := Nat.mod_eq_of_lt (by omega)
  simp only [splitRegion,hend]

include hb

theorem splitRegion_inside (x : MemoryRegion) (h : x ∈ splitRegion region a size) :
    Inside x region := by
  have := region.endAddr_lt
  rw [splitRegion_eq he] at h
  unfold Inside
  rcases List.mem_append.mp h with h | h
  · rcases List.mem_append.mp h with h | h
    · have ⟨hlt,h⟩ := List.mem_ite_nil_right.mp h
      have := literal_endAddr region.base (a-region.base) .usable (by omega)
      rw [List.mem_singleton.mp h]
      omega
    · have := literal_endAddr a size .bootloaderReclaimable (by omega)
      rw [List.mem_singleton.mp h]
      omega
  · have ⟨hlt,h⟩ := List.mem_ite_nil_right.mp h
    have := literal_endAddr (a+size) (region.endAddr-(a+size)) .usable (by omega)
    rw [List.mem_singleton.mp h]
    omega

omit hb in
theorem splitRegion_inOrder : InOrder (splitRegion region a size) := by
  have := region.endAddr_lt
  have hmid := literal_endAddr a size .bootloaderReclaimable (by omega)
  rw [splitRegion_eq he]
  apply pieces_inOrder
  · split <;> simp
  · split <;> simp
  · intro x hx
    have ⟨hlt,hx⟩ := List.mem_ite_nil_right.mp hx
    have := literal_endAddr region.base (a-region.base) .usable (by omega)
    rw [List.mem_singleton.mp hx]
    omega
  · intro y hy
    have ⟨hlt,hy⟩ := List.mem_ite_nil_right.mp hy
    have := literal_endAddr (a+size) (region.endAddr-(a+size)) .usable (by omega)
    rw [List.mem_singleton.mp hy]
    omega

theorem typeAt_splitRegion (x : ℕ) :
    typeAt (splitRegion region a size) x =
      if region.Covers x then
        some (if a ≤ x ∧ x < a+size then .bootloaderReclaimable else .usable)
      else none := by
  have hw := region.endAddr_lt
  have hfirst : typeAt (if region.base < a then [literal region.base (a-region.base) .usable]
      else []) x = if region.base ≤ x ∧ x < a then some .usable else none := by
    split
    · rw [typeAt_literal _ _ _ _ (by omega),Nat.add_sub_cancel' hb]
    · rw [typeAt_nil,if_neg (by omega)]
  have hlast : typeAt (if a+size < region.endAddr then
      [literal (a+size) (region.endAddr-(a+size)) .usable] else []) x =
        if a+size ≤ x ∧ x < region.endAddr then some .usable else none := by
    split
    · rw [typeAt_literal _ _ _ _ (by omega),Nat.add_sub_cancel' he]
    · rw [typeAt_nil,if_neg (by omega)]
  rw [splitRegion_eq he,typeAt_append,typeAt_append,hfirst,hlast,
    typeAt_literal _ _ _ _ (by omega)]
  by_cases hc : region.Covers x
  · rw [if_pos hc]
    simp only [Covers] at hc
    by_cases hblock : a ≤ x ∧ x < a+size
    · rw [if_neg (by omega),if_pos hblock,if_pos hblock]
      rfl
    · rw [if_neg hblock,if_neg hblock]
      by_cases hlt : x < a
      · rw [if_pos ⟨hc.1,hlt⟩]
        rfl
      · rw [if_neg (by omega),if_pos (by omega)]
        rfl
  · rw [if_neg hc]
    simp only [Covers] at hc
    rw [if_neg (by omega),if_neg (by omega),if_neg (by omega)]
    rfl

end Split

theorem pairwise_replace {α : Type} (R : α → α → Prop) (l m pieces : List α) (x : α)
    (h : (l++x::m).Pairwise R) (hp : pieces.Pairwise R)
    (hl : ∀ z, ∀ y ∈ pieces, R z x → R z y) (hr : ∀ z, ∀ y ∈ pieces, R x z → R y z) :
    (l++pieces++m).Pairwise R := by
  obtain ⟨hleft,hright,hcross⟩ := List.pairwise_append.mp h
  obtain ⟨hx,hm⟩ := List.pairwise_cons.mp hright
  apply List.pairwise_append.mpr
  refine ⟨List.pairwise_append.mpr ⟨hleft,hp,?_⟩,hm,?_⟩
  · exact fun z hz y hy => hl z y hy (hcross z hz x List.mem_cons_self)
  · intro z hz w hw
    rcases List.mem_append.mp hz with hz | hz
    · exact hcross z hz w (List.mem_cons_of_mem x hw)
    · exact hr w z hz (hx w hw)

theorem allocate_split (pmm : Pmm) (count a : ℕ) (h : (allocatePages pmm count).1 = some a) :
    ∃ l region m, pmm.regions = l++region::m ∧ region.regionType = .usable ∧
      region.base ≤ a ∧ a+count*pageSize ≤ region.endAddr ∧
      (allocatePages pmm count).2.regions = l++splitRegion region a (count*pageSize)++m := by
  obtain ⟨i,region,hget,-,-,hc,heq⟩ := allocate_some h
  obtain ⟨hu,-,hb,he,-⟩ := candidate_some hc
  obtain ⟨hi,hregion⟩ := List.getElem?_eq_some_iff.mp hget
  refine ⟨pmm.regions.take i,region,pmm.regions.drop (i+1),?_,hu,hb,he,by rw [heq]⟩
  rw [← hregion,← List.drop_eq_getElem_cons hi,List.take_append_drop]

/-- A relation between the regions of a map that holds along lists in order and between
parts of related regions is kept by an allocation. -/
theorem allocate_pairwise (R : MemoryRegion → MemoryRegion → Prop)
    (horder : ∀ regions, InOrder regions → regions.Pairwise R)
    (hparts : ∀ r s x y, R r s → Inside x r → Inside y s → R x y) (pmm : Pmm) (count : ℕ)
    (h : pmm.regions.Pairwise R) : (allocatePages pmm count).2.regions.Pairwise R := by
  cases hresult : (allocatePages pmm count).1 with
  | none => rwa [allocate_none hresult]
  | some a =>
    obtain ⟨l,region,m,hbefore,-,hb,he,hafter⟩ := allocate_split pmm count a hresult
    rw [hbefore] at h
    rw [hafter]
    apply pairwise_replace _ l m _ region h (horder _ (splitRegion_inOrder he))
    · intro z y hy hzr
      exact hparts z region z y hzr (inside_self z) (splitRegion_inside hb he y hy)
    · intro z y hy hrz
      exact hparts region z y z hrz (splitRegion_inside hb he y hy) (inside_self z)

theorem allocate_inOrder (pmm : Pmm) (count : ℕ) (h : InOrder pmm.regions) :
    InOrder (allocatePages pmm count).2.regions := by
  refine allocate_pairwise _ (fun _ horder => horder) ?_ pmm count h
  intro r s x y hle hx hy
  exact hx.2.trans (hle.trans hy.1)

theorem allocate_disjoint (pmm : Pmm) (count : ℕ) (h : Disjoint pmm.regions) :
    Disjoint (allocatePages pmm count).2.regions :=
  allocate_pairwise Apart (fun regions horder => (inOrder_sorted regions horder).2)
    (fun _ _ _ _ => apart_inside) pmm count h

theorem covers_apart {r s : MemoryRegion} {x : ℕ} (h : Apart r s) (hr : r.Covers x) :
    ¬s.Covers x := by
  simp only [Apart,Covers] at *
  omega

theorem typeAt_allocate (pmm : Pmm) (count a : ℕ) (hd : Disjoint pmm.regions)
    (h : (allocatePages pmm count).1 = some a) (x : ℕ) :
    (Block a count x → typeAt pmm.regions x = some .usable ∧
      typeAt (allocatePages pmm count).2.regions x = some .bootloaderReclaimable) ∧
    (¬Block a count x →
      typeAt (allocatePages pmm count).2.regions x = typeAt pmm.regions x) := by
  obtain ⟨l,region,m,hbefore,hu,hb,he,hafter⟩ := allocate_split pmm count a h
  rw [hbefore] at hd
  have hsplit := typeAt_splitRegion hb he x
  rw [hafter,hbefore,← List.singleton_append (l := m),← List.append_assoc,typeAt_append,
    typeAt_append,typeAt_append,typeAt_append,hsplit,typeAt_singleton,hu]
  by_cases hc : region.Covers x
  · have hl : typeAt l x = none := by
      rw [typeAt_none]
      intro r hr hrc
      exact covers_apart ((List.pairwise_append.mp hd).2.2 r hr region List.mem_cons_self) hrc hc
    rw [hl,if_pos hc,if_pos hc]
    constructor
    · intro hblock
      rw [if_pos (show a ≤ x ∧ x < a+count*pageSize from hblock)]
      exact ⟨rfl,rfl⟩
    · intro hblock
      rw [if_neg (show ¬(a ≤ x ∧ x < a+count*pageSize) from hblock)]
  · have hblock : ¬Block a count x := by
      simp only [Block,Covers] at *
      omega
    rw [if_neg hc,if_neg hc]
    exact ⟨fun hin => absurd hin hblock,fun _ => rfl⟩

/-- Both mutators keep a disjoint map disjoint and an ordered one ordered, cover what
was covered, and change exactly the types of the covered marked range or of the block. -/
theorem mutators_exact (pmm : Pmm) (hd : Disjoint pmm.regions) :
    (∀ mark,
      Disjoint (markRegion pmm mark).regions ∧
      (InOrder pmm.regions → InOrder (markRegion pmm mark).regions) ∧
      (∀ x, (∃ r ∈ (markRegion pmm mark).regions, r.Covers x) ↔ ∃ r ∈ pmm.regions, r.Covers x) ∧
      ∀ x t, typeAt pmm.regions x = some t →
        typeAt (markRegion pmm mark).regions x =
          some (if mark.Covers x then mark.regionType else t)) ∧
    ∀ count,
      Disjoint (allocatePages pmm count).2.regions ∧
      (InOrder pmm.regions → InOrder (allocatePages pmm count).2.regions) ∧
      (∀ x, (∃ r ∈ (allocatePages pmm count).2.regions, r.Covers x) ↔
        ∃ r ∈ pmm.regions, r.Covers x) ∧
      match (allocatePages pmm count).1 with
      | none => (allocatePages pmm count).2 = pmm
      | some a => ∀ x,
        (Block a count x → typeAt pmm.regions x = some .usable ∧
          typeAt (allocatePages pmm count).2.regions x = some .bootloaderReclaimable) ∧
        (¬Block a count x →
          typeAt (allocatePages pmm count).2.regions x = typeAt pmm.regions x) := by
  have hcover : ∀ regions x, (∃ r ∈ regions, r.Covers x) ↔ typeAt regions x ≠ none := by
    intro regions x
    rw [Ne,typeAt_none]
    simp
  constructor
  · intro mark
    refine ⟨markRegion_disjoint pmm mark hd,markRegion_inOrder pmm mark,fun x => ?_,
      fun x t ht => ?_⟩
    · rw [hcover,hcover,typeAt_markRegion,Ne,Option.map_eq_none_iff]
    · rw [typeAt_markRegion,ht]
      rfl
  · intro count
    refine ⟨allocate_disjoint pmm count hd,allocate_inOrder pmm count,fun x => ?_,?_⟩
    · rw [hcover,hcover]
      cases hresult : (allocatePages pmm count).1 with
      | none => rw [allocate_none hresult]
      | some a =>
        have ⟨hin,hout⟩ := typeAt_allocate pmm count a hd hresult x
        by_cases hblock : Block a count x
        · have ⟨h1,h2⟩ := hin hblock
          simp [h1,h2]
        · rw [hout hblock]
    · cases hresult : (allocatePages pmm count).1 with
      | none => exact allocate_none hresult
      | some a => exact typeAt_allocate pmm count a hd hresult

def oneMebibyte : Pmm := ⟨[⟨0x100000,0x100000,.usable,by norm_num,by norm_num⟩],0x200000⟩

theorem mutators_exact_kernel :
    typeAt (markRegion oneMebibyte
      ⟨0x150000,0x10000,.kernelAndModules,by decide,by decide⟩).regions 0x15ffff =
        some .kernelAndModules ∧
    InOrder (allocatePages oneMebibyte 3).2.regions := by
  have h := mutators_exact oneMebibyte (List.pairwise_singleton _ _)
  have husable : typeAt oneMebibyte.regions 0x15ffff = some .usable := by decide +kernel
  refine ⟨?_,(h.2 3).2.1 (List.pairwise_singleton _ _)⟩
  rw [(h.1 _).2.2.2 0x15ffff .usable husable]
  decide +kernel

theorem emptyBehind_base : 0x5000 < wordSize := by norm_num

theorem emptyBehind_length : 0x10000 < wordSize := by norm_num

def emptyBehind : Pmm :=
  ⟨[⟨0x5000,0x10000,.usable,emptyBehind_base,emptyBehind_length⟩,
    ⟨0x5000,0,.reserved,emptyBehind_base,wordSize_pos⟩],0x15000⟩

theorem mark_unsorts :
    Sorted emptyBehind.regions ∧ Disjoint emptyBehind.regions ∧
    ¬Sorted (markRegion emptyBehind
      ⟨0x7000,0x1000,.kernelAndModules,by decide,by decide⟩).regions := by
  unfold Sorted Disjoint
  decide

end Zamak.PmmMutators
