import Zamak.VmmApply

/-! # Which offsets of a mapping are mapped

`page_count` counts pages from the length alone, while a mapping may start in the
middle of a page. For plans whose mappings touch disjoint pages, every offset of
every mapping is translated as planned exactly when no mapping runs past the
pages counted for it. -/

set_option autoImplicit false

namespace Zamak.VmmCoverage
open Zamak.VmmPlan Zamak.RadixStore Zamak.PageFormats Zamak.PageCodecs Zamak.PageTables
  Zamak.VmmApply

def IsCanonical (n : ℕ) : Prop := n < 2^47 ∨ 2^64-2^47 ≤ n ∧ n < 2^64

theorem samePage_canonical (x y : Word) (hx : IsCanonical x.toNat) (hy : IsCanonical y.toNat) :
    SamePage x y ↔ x.toNat/4096 = y.toNat/4096 := by
  rw [samePage_iff]
  unfold IsCanonical at hx hy
  omega

theorem pageCall_va (f : Format) (m : Mapping) (i : ℕ)
    (h : m.virtBase.toNat+i*pageSize < 2^64) :
    (pageCall f m i).va.toNat = m.virtBase.toNat+i*4096 := by
  show (BitVec.ofNat 64 (m.virtBase.toNat+i*pageSize)).toNat = _
  rw [BitVec.toNat_ofNat,Nat.mod_eq_of_lt h]
  rfl

/-- A canonical address falls in the page counted from the start of the mapping. -/
theorem pageOf_eq (f : Format) (m : Mapping) (v : Word) (hv : IsCanonical v.toNat)
    (hm : ∀ i < m.pageCount pageSize, IsCanonical (m.virtBase.toNat+i*4096)) :
    pageOf f v m =
      if m.virtBase.toNat/4096 ≤ v.toNat/4096 ∧
          v.toNat/4096 < m.virtBase.toNat/4096+m.pageCount pageSize then
        some (pageCall f m (v.toNat/4096-m.virtBase.toNat/4096))
      else none := by
  have hsame : ∀ i < m.pageCount pageSize,
      SamePage (pageCall f m i).va v ↔ m.virtBase.toNat/4096+i = v.toNat/4096 := by
    intro i hi
    have hc := hm i hi
    have hlt : m.virtBase.toNat+i*pageSize < 2^64 := by
      unfold IsCanonical at hc
      unfold pageSize
      omega
    have hva := pageCall_va f m i hlt
    rw [samePage_canonical _ _ (by rw [hva]; exact hc) hv,hva]
    omega
  cases hf : pageOf f v m with
  | none =>
    rw [if_neg]
    intro hin
    have hnone := List.find?_eq_none.mp hf
    have hlt : v.toNat/4096-m.virtBase.toNat/4096 < m.pageCount pageSize := by omega
    apply hnone (pageCall f m (v.toNat/4096-m.virtBase.toNat/4096))
    · rw [List.mem_reverse]
      exact List.mem_map.mpr ⟨_,List.mem_range.mpr hlt,rfl⟩
    · have hs := (hsame _ hlt).mpr (by omega)
      exact decide_eq_true hs
  | some c =>
    have hmem := List.mem_of_find?_eq_some hf
    have hp : SamePage c.va v := by simpa using List.find?_some hf
    rw [List.mem_reverse] at hmem
    obtain ⟨i,hi,hic⟩ := List.mem_map.mp hmem
    have hi' := List.mem_range.mp hi
    rw [← hic] at hp
    have heq := (hsame i hi').mp hp
    have hindex : v.toNat/4096-m.virtBase.toNat/4096 = i := by omega
    rw [if_pos (by omega),hindex,hic]

def virtOffset (m : Mapping) (o : ℕ) : Word := m.virtBase+BitVec.ofNat 64 o

def physOffset (m : Mapping) (o : ℕ) : Word := m.physBase+BitVec.ofNat 64 o

def Touches (m : Mapping) (page : ℕ) : Prop :=
  ∃ o < m.length.toNat, (m.virtBase.toNat+o)/4096 = page

/-- Mappings with canonical ranges, placed alike in their virtual and physical
pages, and touching pairwise disjoint pages. -/
structure Separate (plan : List Mapping) : Prop where
  canonical : ∀ m ∈ plan, ∀ o < m.length.toNat, IsCanonical (m.virtBase.toNat+o)
  congruent : ∀ m ∈ plan, m.virtBase.toNat%4096 = m.physBase.toNat%4096
  phys_end : ∀ m ∈ plan, m.physBase.toNat+m.length.toNat ≤ 2^48
  disjoint : plan.Pairwise fun m n => ∀ page, ¬ (Touches m page ∧ Touches n page)

def Fits (m : Mapping) : Prop :=
  m.length.toNat = 0 ∨
    m.virtBase.toNat%4096+m.length.toNat ≤ 4096*m.pageCount pageSize

theorem pageCount_bounds (m : Mapping) :
    m.length.toNat ≤ 4096*m.pageCount pageSize ∧
      4096*m.pageCount pageSize < m.length.toNat+4096 := by
  unfold Mapping.pageCount pageSize
  split <;> omega

theorem page_start (m : Mapping) (i : ℕ) (h : i < m.pageCount pageSize) :
    i*4096 < m.length.toNat := by
  have hb := pageCount_bounds m
  omega

theorem counted_touched (m : Mapping) (page : ℕ) (hl : m.virtBase.toNat/4096 ≤ page)
    (hh : page < m.virtBase.toNat/4096+m.pageCount pageSize) : Touches m page := by
  have hs := page_start m (page-m.virtBase.toNat/4096) (by omega)
  exact ⟨(page-m.virtBase.toNat/4096)*4096,hs,by omega⟩

theorem findSome_single {α β : Type} (g : α → Option β) (l : List α) (x : α) (hx : x ∈ l)
    (R : α → α → Prop) (hp : l.Pairwise R)
    (hr : ∀ y, R x y ∨ R y x → g y = none) : l.reverse.findSome? g = g x := by
  induction l with
  | nil => simp at hx
  | cons y l ih =>
    rw [List.pairwise_cons] at hp
    rw [List.reverse_cons,List.findSome?_append]
    rcases List.mem_cons.mp hx with hxy | hxl
    · subst hxy
      have hnone : l.reverse.findSome? g = none := by
        rw [List.findSome?_eq_none_iff]
        intro z hz
        exact hr z (Or.inl (hp.1 z (List.mem_reverse.mp hz)))
      rw [hnone]
      simp
    · have hy := hr y (Or.inr (hp.1 x hxl))
      rw [ih hxl hp.2]
      simp [hy]

section Offsets
variable {A : Type} [FrameAllocator A]

theorem virtOffset_toNat (m : Mapping) (o : ℕ) (h : m.virtBase.toNat+o < 2^64) :
    (virtOffset m o).toNat = m.virtBase.toNat+o := by
  unfold virtOffset
  rw [BitVec.toNat_add,BitVec.toNat_ofNat]
  omega

theorem pageBase_add (pa v : Word) : (pageBase pa+(v&&&0xFFF#64)).toNat =
    pa.toNat/4096*4096+v.toNat%4096 := by
  have hbase : (pageBase pa).toNat = pa.toNat/4096*4096 := by
    unfold pageBase
    rw [BitVec.toNat_shiftLeft,BitVec.toNat_ushiftRight,Nat.shiftRight_eq_div_pow,
      Nat.shiftLeft_eq]
    have hp := pa.isLt
    omega
  have hlow : (v&&&0xFFF#64).toNat = v.toNat%4096 := by
    rw [BitVec.toNat_and]
    exact Nat.and_two_pow_sub_one_eq_mod v.toNat 12
  rw [BitVec.toNat_add,hbase,hlow]
  have hp := pa.isLt
  omega

def planned (f : Format) (m : Mapping) (o : ℕ) : Word × Word :=
  (physOffset m o,f.leafAttrs m.perms m.cache)

theorem pageOf_offset (f : Format) (plan : List Mapping) (hs : Separate plan) (m : Mapping)
    (hm : m ∈ plan) (o : ℕ) (ho : o < m.length.toNat) :
    (pageOf f (virtOffset m o) m).map (fun c =>
        (pageBase c.pa+(virtOffset m o&&&0xFFF#64),c.attrs)) =
      if m.virtBase.toNat%4096+o < 4096*m.pageCount pageSize then some (planned f m o)
      else none := by
  have hcan := hs.canonical m hm
  have hlt : m.virtBase.toNat+o < 2^64 := by
    have hc := hcan o ho
    unfold IsCanonical at hc
    omega
  have hv := virtOffset_toNat m o hlt
  have hpages : ∀ i < m.pageCount pageSize, IsCanonical (m.virtBase.toNat+i*4096) :=
    fun i hi => hcan (i*4096) (page_start m i hi)
  rw [pageOf_eq f m (virtOffset m o) (by rw [hv]; exact hcan o ho) hpages,hv]
  by_cases hin : m.virtBase.toNat%4096+o < 4096*m.pageCount pageSize
  · rw [if_pos hin,if_pos (by omega)]
    have hcong := hs.congruent m hm
    have hend := hs.phys_end m hm
    have hpa : physOffset m o = pageBase (pageCall f m
        ((m.virtBase.toNat+o)/4096-m.virtBase.toNat/4096)).pa+(virtOffset m o&&&0xFFF#64) := by
      apply BitVec.eq_of_toNat_eq
      have hpn : (pageCall f m ((m.virtBase.toNat+o)/4096-m.virtBase.toNat/4096)).pa.toNat =
          m.physBase.toNat+((m.virtBase.toNat+o)/4096-m.virtBase.toNat/4096)*4096 := by
        show (BitVec.ofNat 64 (m.physBase.toNat+_*4096)).toNat = _
        rw [BitVec.toNat_ofNat]
        omega
      rw [pageBase_add,hv,hpn]
      unfold physOffset
      rw [BitVec.toNat_add,BitVec.toNat_ofNat]
      omega
    rw [planned,hpa]
    rfl
  · rw [if_neg hin,if_neg (by omega)]
    rfl

theorem pageOf_other (f : Format) (plan : List Mapping) (hs : Separate plan) (m n : Mapping)
    (hm : m ∈ plan) (hn : n ∈ plan) (o : ℕ) (ho : o < m.length.toNat)
    (hd : ∀ page, ¬ (Touches m page ∧ Touches n page)) :
    pageOf f (virtOffset m o) n = none := by
  have hcan := hs.canonical m hm o ho
  have hlt : m.virtBase.toNat+o < 2^64 := by
    unfold IsCanonical at hcan
    omega
  have hv := virtOffset_toNat m o hlt
  have hpages : ∀ i < n.pageCount pageSize, IsCanonical (n.virtBase.toNat+i*4096) :=
    fun i hi => hs.canonical n hn (i*4096) (page_start n i hi)
  rw [pageOf_eq f n (virtOffset m o) (by rw [hv]; exact hcan) hpages,hv,if_neg]
  intro hin
  exact hd _ ⟨⟨o,ho,rfl⟩,counted_touched n _ hin.1 hin.2⟩

/-- One offset of one mapping: translated as planned when its page is counted, and
unmapped when it is not. -/
theorem translate_offset (f : Format) (hf : f.Faithful) (allocator : A)
    (physToTable : Word → Fin 512 → Word) (b b' : PageTableBuilder A)
    (hallocator : Honest allocFrame IsFrame allocator)
    (hnew : new allocator physToTable = some b) (plan : List Mapping) (hs : Separate plan)
    (happly : apply f plan b = (some (),b')) (m : Mapping) (hm : m ∈ plan) (o : ℕ)
    (ho : o < m.length.toNat) :
    translateAddress f b' (virtOffset m o) =
      if m.virtBase.toNat%4096+o < 4096*m.pageCount pageSize then some (planned f m o)
      else none := by
  have hpa : ∀ n ∈ plan, ∀ i < n.pageCount pageSize,
      n.physBase.toNat+i*pageSize < 2^48 := by
    intro n hn i hi
    have hstart := page_start n i hi
    have hend := hs.phys_end n hn
    show n.physBase.toNat+i*4096 < 2^48
    omega
  have hmine := findSome_single (pageOf f (virtOffset m o)) plan m hm
    (fun x y => x ∈ plan ∧ y ∈ plan ∧ ∀ page, ¬ (Touches x page ∧ Touches y page))
    (hs.disjoint.imp_of_mem fun hx hy h => ⟨hx,hy,h⟩)
    (by
      rintro n (⟨_,hn,hd⟩ | ⟨hn,_,hd⟩)
      · exact pageOf_other f plan hs m n hm hn o ho hd
      · exact pageOf_other f plan hs m n hm hn o ho fun page h => hd page ⟨h.2,h.1⟩)
  unfold translateAddress
  rw [walk_apply f hf allocator physToTable b b' hallocator hnew plan hpa happly,hmine,
    Option.map_map,← pageOf_offset f plan hs m hm o ho]
  rfl

/-- Every offset of every mapping is translated as planned exactly when no mapping
runs past the pages counted for it. -/
theorem apply_translates_iff (arch : Arch) (allocator : A)
    (physToTable : Word → Fin 512 → Word) (b b' : PageTableBuilder A)
    (hallocator : Honest allocFrame IsFrame allocator)
    (hnew : new allocator physToTable = some b) (plan : List Mapping) (hs : Separate plan)
    (happly : apply arch.format plan b = (some (),b')) :
    (∀ m ∈ plan, ∀ o < m.length.toNat,
      translateAddress arch.format b' (virtOffset m o) = some (planned arch.format m o)) ↔
    ∀ m ∈ plan, Fits m := by
  have hone := translate_offset arch.format (faithful arch) allocator physToTable b b'
    hallocator hnew plan hs happly
  constructor
  · intro h m hm
    by_cases hz : m.length.toNat = 0
    · exact Or.inl hz
    · right
      have hlast := h m hm (m.length.toNat-1) (by omega)
      rw [hone m hm (m.length.toNat-1) (by omega)] at hlast
      by_cases hin : m.virtBase.toNat%4096+(m.length.toNat-1) < 4096*m.pageCount pageSize
      · omega
      · rw [if_neg hin] at hlast
        exact absurd hlast (by simp)
  · intro h m hm o ho
    rw [hone m hm o ho,if_pos]
    rcases h m hm with hz | hfit
    · omega
    · omega

end Offsets

/-- Two mappings of which the first starts in the middle of a page and still fits. -/
def fittingPlan : List Mapping :=
  [⟨0xFFFFFFFF80000800#64,0x200800#64,0x800#64,kernelData,.writeBack⟩,
    ⟨0xFFFFFFFF80001000#64,0x300000#64,0x1001#64,mmio,.writeCombining⟩]

def straddlingPlan : List Mapping :=
  [⟨0xFFFFFFFF80000800#64,0x200800#64,0x1000#64,kernelData,.writeBack⟩]

theorem separate_of_bounds (plan : List Mapping)
    (hc : ∀ m ∈ plan, 2^64-2^47 ≤ m.virtBase.toNat ∧
      m.virtBase.toNat+m.length.toNat ≤ 2^64)
    (hg : ∀ m ∈ plan, m.virtBase.toNat%4096 = m.physBase.toNat%4096)
    (he : ∀ m ∈ plan, m.physBase.toNat+m.length.toNat ≤ 2^48)
    (hd : plan.Pairwise fun m n =>
      (m.virtBase.toNat+m.length.toNat+4095)/4096 ≤ n.virtBase.toNat/4096) :
    Separate plan where
  canonical := by
    intro m hm o ho
    have h := hc m hm
    right
    omega
  congruent := hg
  phys_end := he
  disjoint := by
    apply hd.imp
    rintro m n h page ⟨⟨o,ho,hpage⟩,⟨o',ho',hpage'⟩⟩
    omega

theorem fittingPlan_separate : Separate fittingPlan := by
  apply separate_of_bounds
  · simp [fittingPlan]
  · simp [fittingPlan]
  · simp [fittingPlan]
  · simp [fittingPlan]

theorem straddlingPlan_separate : Separate straddlingPlan := by
  apply separate_of_bounds
  · simp [straddlingPlan]
  · simp [straddlingPlan]
  · simp [straddlingPlan]
  · simp [straddlingPlan]

/-- The last byte of each mapping, one of them on a second page. -/
theorem apply_translates_fitting :
    translateAddress Aarch64.format (apply Aarch64.format fittingPlan fiveBuilder).2
        0xFFFFFFFF80000FFF#64 = some (0x200FFF#64,0x6000000000070F#64) ∧
      translateAddress Aarch64.format (apply Aarch64.format fittingPlan fiveBuilder).2
        0xFFFFFFFF80002000#64 = some (0x301000#64,0x60000000000707#64) := by
  have happly : apply Aarch64.format fittingPlan fiveBuilder =
      (some (),(apply Aarch64.format fittingPlan fiveBuilder).2) := Prod.ext (by decide) rfl
  have hfits : ∀ m ∈ fittingPlan, Fits m := by
    simp [fittingPlan,Fits,Mapping.pageCount,pageSize]
  have h := (apply_translates_iff .aarch64 _ _ fiveBuilder _ fiveFrames_honest
    fiveBuilder_new fittingPlan fittingPlan_separate happly).mpr hfits
  exact ⟨h ⟨0xFFFFFFFF80000800#64,0x200800#64,0x800#64,kernelData,.writeBack⟩
      (by simp [fittingPlan]) 0x7FF (by decide),
    h ⟨0xFFFFFFFF80001000#64,0x300000#64,0x1001#64,mmio,.writeCombining⟩
      (by simp [fittingPlan]) 0x1000 (by decide)⟩

/-- `apply` returns, and the second half of the mapping is not there. -/
theorem straddling_unmapped :
    Honest allocFrame IsFrame (FramePool.mk fiveFrames) ∧
    new ⟨fiveFrames⟩ (fun _ _ => 0xFF#64) = some fiveBuilder ∧
    Separate straddlingPlan ∧
    ∀ arch : Arch, (apply arch.format straddlingPlan fiveBuilder).1 = some () ∧
      ¬ (∀ m ∈ straddlingPlan, ∀ o < m.length.toNat,
        translateAddress arch.format (apply arch.format straddlingPlan fiveBuilder).2
          (virtOffset m o) = some (planned arch.format m o)) := by
  refine ⟨fiveFrames_honest,fiveBuilder_new,straddlingPlan_separate,?_⟩
  intro arch
  have hres : (apply arch.format straddlingPlan fiveBuilder).1 = some () := by
    cases arch <;> decide
  refine ⟨hres,?_⟩
  intro h
  have hlast := h ⟨0xFFFFFFFF80000800#64,0x200800#64,0x1000#64,kernelData,.writeBack⟩
    (by simp [straddlingPlan]) 0x800 (by decide)
  have hnone : translateAddress arch.format (apply arch.format straddlingPlan fiveBuilder).2
      0xFFFFFFFF80001000#64 = none := by
    cases arch <;> decide
  exact absurd (hnone.symm.trans hlast) (by simp)

end Zamak.VmmCoverage
