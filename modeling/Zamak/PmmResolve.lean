import Zamak.PmmOrder

/-!
# Resolution and merging on untangled maps

One insertion either cuts the new entry out of everything it meets, or stops
at the region over its base. Both cases keep the staircase of owners; when the
entry is not clear, the remainder lands on a region that is still there. The
merge pass then joins touching regions of one type and nothing else.
-/

set_option autoImplicit false

namespace Zamak.PmmResolve
open Zamak.PmmRegions Zamak.PmmRegions.MemoryRegion Zamak.PmmCoverage Zamak.PmmTidy
open Zamak.OrderedSpans Zamak.PmmOrder

theorem around_span {r s p : MemoryRegion} (hr : Tidy r) (hs : ¬Apart r s)
    (h : p ∈ around r s) : r.base ≤ p.base ∧ p.endAddr ≤ r.endAddr ∧ Apart s p := by
  have := hr.base_lt_end
  simp only [Apart, not_or, not_le] at *
  rcases List.mem_append.mp h with h | h
  · have := before_mem h
    omega
  · have := after_mem h
    omega

theorem around_ordered {r s : MemoryRegion} (hs : s.base < s.endAddr) : InOrder (around r s) := by
  refine List.pairwise_append.mpr ⟨?_,?_,?_⟩
  · unfold before
    split_ifs <;> simp
  · unfold after
    split_ifs <;> simp
  · intro x hx y hy
    have := before_mem hx
    have := after_mem hy
    omega

theorem mem_carve {new x : MemoryRegion} {regions : List MemoryRegion} :
    x ∈ carve new regions ↔
      ∃ r ∈ regions, (Apart new r ∧ x = r) ∨ (¬Apart new r ∧ x ∈ around r new) := by
  rw [carve, List.mem_flatMap]
  constructor
  · rintro ⟨r,hr,hx⟩
    by_cases hap : Apart new r
    · exact ⟨r,hr,Or.inl ⟨hap,by simpa [hap] using hx⟩⟩
    · exact ⟨r,hr,Or.inr ⟨hap,by simpa [hap] using hx⟩⟩
  · rintro ⟨r,hr,⟨hap,rfl⟩ | ⟨hap,hx⟩⟩
    · exact ⟨x,hr,by simp [hap]⟩
    · exact ⟨r,hr,by simpa [hap] using hx⟩

theorem carve_ordered {new : MemoryRegion} {regions : List MemoryRegion} (hn : Tidy new)
    (ht : ∀ r ∈ regions, Tidy r) (ho : InOrder regions) : InOrder (carve new regions) := by
  apply ho.flatMap
  · intro r _
    split_ifs
    · exact List.pairwise_singleton _ _
    · exact around_ordered hn.base_lt_end
  · intro r hr p hp
    split_ifs at hp with hap
    · rw [List.mem_singleton.mp hp]
      exact ⟨le_refl _,le_refl _⟩
    · have h := around_span (ht r hr) (fun h => hap ((apart_comm _ _).mp h)) hp
      exact ⟨h.1,h.2.1⟩

theorem carve_apart {new x : MemoryRegion} {regions : List MemoryRegion}
    (ht : ∀ r ∈ regions, Tidy r) (h : x ∈ carve new regions) : Apart new x := by
  obtain ⟨r,hr,⟨hap,rfl⟩ | ⟨hap,hx⟩⟩ := mem_carve.mp h
  · exact hap
  · exact (around_span (ht r hr) (fun h => hap ((apart_comm _ _).mp h)) hx).2.2

theorem insertSorted_ordered {new : MemoryRegion} {regions : List MemoryRegion} (hn : Tidy new)
    (ht : ∀ r ∈ regions, Tidy r) (ho : InOrder regions) (hap : ∀ r ∈ regions, Apart new r) :
    InOrder (insertSorted regions new) :=
  ho.place new hn.base_lt_end (fun r hr => (ht r hr).base_lt_end) hap

section Step

variable {b : ℕ} {seen regions : List MemoryRegion} {e : MemoryRegion}

theorem insert_tidy (hs : Staged b seen regions) (he : Tidy e) :
    ∀ r ∈ insertWithOverlap regions e, Tidy r :=
  insertScan_forall Tidy (fun _ _ _ => tidy_around) e [] regions he (by simp) hs.tidy

theorem snoc_started (hs : Staged b seen regions) (hb : b ≤ e.base) :
    ∀ f ∈ seen++[e], f.base ≤ e.base := by
  intro f hf
  rcases List.mem_append.mp hf with hf | hf
  · exact (hs.started f hf).trans hb
  · rw [List.mem_singleton.mp hf]

theorem win_light (hs : Staged b seen regions) (hb : b ≤ e.base)
    (hw : ∀ f ∈ seen, f.Covers e.base → f.priority ≤ e.priority)
    (r : MemoryRegion) (hr : r ∈ regions) (hap : ¬Apart e r) : r.priority ≤ e.priority := by
  have hne := (hs.tidy r hr).base_lt_end
  simp only [Apart, not_or, not_le] at hap
  obtain ⟨t,ht,-,htype⟩ := hs.owned r hr (max r.base e.base) (by omega)
    (by simp only [Covers]; omega)
  obtain ⟨hm,hc,-⟩ := owner_some ht
  have := hw t hm (hs.covers_base hb (Nat.le_max_right _ _) hm hc)
  simpa [MemoryRegion.priority, htype] using this

theorem carve_owned (hs : Staged b seen regions) (hb : b ≤ e.base)
    (x : MemoryRegion) (hx : x ∈ carve e regions) (a : ℕ) (ha : e.base ≤ a) (hc : x.Covers a) :
    ∃ t, owner a (seen++[e]) = some t ∧ x.endAddr = t.endAddr ∧ x.regionType = t.regionType := by
  rw [owner_snoc]
  obtain ⟨r,hr,⟨hap,rfl⟩ | ⟨hap,hx⟩⟩ := mem_carve.mp hx
  · have hn : ¬e.Covers a := by
      simp only [Apart, Covers] at *
      omega
    rw [takes_misses _ hn]
    exact hs.owned x hr a (hb.trans ha) hc
  · obtain ⟨hrc,hn⟩ := (around_covers r e (fun h => hap ((apart_comm _ _).mp h)) a).mp
      ⟨x,hx,hc⟩
    rw [takes_misses _ hn]
    obtain ⟨t,ht,hend,htype⟩ := hs.owned r hr a (hb.trans ha) hrc
    refine ⟨t,ht,?_,(around_type hx).trans htype⟩
    rcases List.mem_append.mp hx with hx | hx
    · have := before_mem hx
      simp only [Covers] at hc
      omega
    · rw [(after_mem hx).2.2.1, hend]

theorem carve_covered (hs : Staged b seen regions) (hb : b ≤ e.base) (a : ℕ) (ha : e.base ≤ a)
    (hec : ¬e.Covers a) (hf : ∃ f ∈ seen++[e], f.Covers a) :
    ∃ r ∈ carve e regions, r.Covers a := by
  obtain ⟨f,hf,hfc⟩ := hf
  have hfs : f ∈ seen := by
    rcases List.mem_append.mp hf with hf | hf
    · exact hf
    · rw [List.mem_singleton.mp hf] at hfc
      exact absurd hfc hec
  obtain ⟨r,hr,hrc⟩ := hs.covered a (hb.trans ha) ⟨f,hfs,hfc⟩
  by_cases hap : Apart e r
  · exact ⟨r,mem_carve.mpr ⟨r,hr,Or.inl ⟨hap,rfl⟩⟩,hrc⟩
  · obtain ⟨p,hp,hpc⟩ := (around_covers r e (fun h => hap ((apart_comm _ _).mp h)) a).mpr
      ⟨hrc,hec⟩
    exact ⟨p,mem_carve.mpr ⟨r,hr,Or.inr ⟨hap,hp⟩⟩,hpc⟩

theorem staged_win (hs : Staged b seen regions) (hb : b ≤ e.base) (he : Tidy e)
    (hw : ∀ f ∈ seen, f.Covers e.base → f.priority ≤ e.priority) :
    Staged e.base (seen++[e]) (insertWithOverlap regions e) := by
  have heq : insertWithOverlap regions e = insertSorted (carve e regions) e := by
    simpa [insertWithOverlap] using insertScan_win e [] regions (win_light hs hb hw)
  have hct : ∀ r ∈ carve e regions, Tidy r := fun r hr =>
    insert_tidy hs he r (by rw [heq]; exact mem_insertSorted.mpr (Or.inr hr))
  refine ⟨insert_tidy hs he,?_,snoc_started hs hb,?_,?_⟩
  · rw [heq]
    exact insertSorted_ordered he hct (carve_ordered he hs.tidy hs.ordered)
      (fun r hr => carve_apart hs.tidy hr)
  · intro x hx a ha hc
    rw [heq] at hx
    rcases mem_insertSorted.mp hx with rfl | hx
    · rw [owner_snoc]
      refine ⟨x,takes_covers _ hc (fun t ht => ?_),rfl,rfl⟩
      obtain ⟨hm,htc,-⟩ := owner_some ht
      exact hw t hm (hs.covers_base hb ha hm htc)
    · exact carve_owned hs hb x hx a ha hc
  · intro a ha hf
    rw [heq]
    by_cases hec : e.Covers a
    · exact ⟨e,mem_insertSorted.mpr (Or.inl rfl),hec⟩
    · obtain ⟨r,hr,hrc⟩ := carve_covered hs hb a ha hec hf
      exact ⟨r,mem_insertSorted.mpr (Or.inr hr),hrc⟩

theorem insert_lose (hs : Staged b seen regions) (hb : b ≤ e.base) (he : Tidy e)
    {t : MemoryRegion} (ht : owner e.base seen = some t) (hp : e.priority < t.priority) :
    ∃ c ∈ regions, c.Covers e.base ∧ c.endAddr = t.endAddr ∧
      insertWithOverlap regions e = (after e c).foldl insertSorted regions := by
  obtain ⟨before,c,later,heq,hc,hend,htype,hskip⟩ := hs.region_at hb ht
  have hap : ¬Apart e c := by
    have := he.base_lt_end
    simp only [Apart, Covers] at *
    omega
  have hpc : e.priority < c.priority := by simpa [MemoryRegion.priority, htype] using hp
  have hnone : MemoryRegion.before e c = [] := if_neg (by have := hc.1; omega)
  refine ⟨c,by simp [heq],hc,hend,?_⟩
  rw [insertWithOverlap, heq, insertScan_skip e [] before (c::later) hskip, List.nil_append,
    insertScan_lose e before later c hap hpc, around, hnone, List.nil_append]

theorem takes_under {t : MemoryRegion} (ht : owner e.base seen = some t)
    (hp : e.priority < t.priority) {a : ℕ} (ha : e.base ≤ a)
    (hr : e.Covers a → a < t.endAddr) {t' : MemoryRegion}
    (ht' : owner a seen = some t') : takes a (owner a seen) e = some t' := by
  by_cases hc : e.Covers a
  · obtain ⟨hm,htb,-⟩ := owner_some ht
    have hta : t.Covers a := ⟨htb.1.trans ha,hr hc⟩
    have := (owner_some ht').2.2 t hm hta
    rw [ht']
    exact takes_heavier (by omega)
  · rw [takes_misses _ hc, ht']

theorem lose_owned (hs : Staged b seen regions) (hb : b ≤ e.base)
    {t : MemoryRegion} (ht : owner e.base seen = some t) (hp : e.priority < t.priority)
    (hclear : e.endAddr ≤ t.endAddr ∨ ∀ f ∈ seen, f.endAddr ≤ t.endAddr)
    (r : MemoryRegion) (hr : r ∈ regions) (a : ℕ) (ha : e.base ≤ a) (hrc : r.Covers a) :
    ∃ t, owner a (seen++[e]) = some t ∧ r.endAddr = t.endAddr ∧ r.regionType = t.regionType := by
  obtain ⟨t',ht',hrend,htype⟩ := hs.owned r hr a (hb.trans ha) hrc
  refine ⟨t',?_,hrend,htype⟩
  rw [owner_snoc]
  apply takes_under ht hp ha _ ht'
  intro hec
  rcases hclear with h | h
  · exact lt_of_lt_of_le hec.2 h
  · exact lt_of_lt_of_le (hrend ▸ hrc.2) (h t' (owner_some ht').1)

theorem lose_covered (hs : Staged b seen regions) (hb : b ≤ e.base) {c t : MemoryRegion}
    (hcm : c ∈ regions) (hc : c.Covers e.base) (hend : c.endAddr = t.endAddr) (a : ℕ)
    (ha : e.base ≤ a) (hf : ∃ f ∈ seen++[e], f.Covers a) :
    (∃ r ∈ regions, r.Covers a) ∨ (t.endAddr ≤ a ∧ e.Covers a) := by
  obtain ⟨f,hf,hfc⟩ := hf
  rcases List.mem_append.mp hf with hf | hf
  · exact Or.inl (hs.covered a (hb.trans ha) ⟨f,hf,hfc⟩)
  · rw [List.mem_singleton.mp hf] at hfc
    by_cases hlt : a < t.endAddr
    · exact Or.inl ⟨c,hcm,hc.1.trans ha,by omega⟩
    · exact Or.inr ⟨by omega,hfc⟩

theorem staged_hidden (hs : Staged b seen regions) (hb : b ≤ e.base) (he : Tidy e)
    {t : MemoryRegion} (ht : owner e.base seen = some t) (hp : e.priority < t.priority)
    (hle : e.endAddr ≤ t.endAddr) :
    Staged e.base (seen++[e]) (insertWithOverlap regions e) := by
  obtain ⟨c,hcm,hc,hend,heq⟩ := insert_lose hs hb he ht hp
  have heq' : insertWithOverlap regions e = regions := by
    rw [heq, after, if_neg (by omega), List.foldl_nil]
  rw [heq']
  refine ⟨hs.tidy,hs.ordered,snoc_started hs hb,lose_owned hs hb ht hp (Or.inl hle),?_⟩
  intro a ha hf
  rcases lose_covered hs hb hcm hc hend a ha hf with h | ⟨hge,hec⟩
  · exact h
  · have := hec.2
    omega

theorem region_reach (hs : Staged b seen regions) (hb : b ≤ e.base) {t : MemoryRegion}
    (hbase : e.base < t.endAddr) (hall : ∀ f ∈ seen, f.endAddr ≤ t.endAddr)
    (r : MemoryRegion) (hr : r ∈ regions) : r.endAddr ≤ t.endAddr := by
  by_cases hle : r.endAddr ≤ e.base
  · omega
  · -- a region that reaches past the base ends with its owner
    have hne := (hs.tidy r hr).base_lt_end
    obtain ⟨t',ht',hrend,-⟩ := hs.owned r hr (max r.base e.base) (by omega)
      (by simp only [Covers]; omega)
    rw [hrend]
    exact hall t' (owner_some ht').1

theorem owner_beyond {t : MemoryRegion} (hall : ∀ f ∈ seen, f.endAddr ≤ t.endAddr) (a : ℕ)
    (ha : t.endAddr ≤ a) : owner a seen = none := by
  cases ho : owner a seen with
  | none => rfl
  | some t' =>
    have hle := hall t' (owner_some ho).1
    have hlt := (owner_some ho).2.1.2
    omega

/-- The heavier region reaches furthest, so the remainder is laid past all others. -/
theorem staged_tail (hs : Staged b seen regions) (hb : b ≤ e.base) (he : Tidy e)
    {t : MemoryRegion} (ht : owner e.base seen = some t) (hp : e.priority < t.priority)
    (hlt : t.endAddr < e.endAddr) (hall : ∀ f ∈ seen, f.endAddr ≤ t.endAddr) :
    Staged e.base (seen++[e]) (insertWithOverlap regions e) := by
  obtain ⟨c,hcm,hc,hend,heq⟩ := insert_lose hs hb he ht hp
  have hlt' : c.endAddr < e.endAddr := by omega
  set tail := span c.endAddr e.endAddr e.regionType c.endAddr_lt e.endAddr_lt with htail
  have hmem : tail ∈ after e c := by simp [after, hlt', htail]
  obtain ⟨-,htb,hte,-,htt⟩ := after_mem hmem
  have heq' : insertWithOverlap regions e = insertSorted regions tail := by
    rw [heq, after, if_pos hlt', List.foldl_cons, List.foldl_nil]
  have htidy : Tidy tail := insert_tidy hs he tail (by
    rw [heq']
    exact mem_insertSorted.mpr (Or.inl rfl))
  refine ⟨insert_tidy hs he,?_,snoc_started hs hb,?_,?_⟩
  · rw [heq']
    apply insertSorted_ordered htidy hs.tidy hs.ordered
    intro r hr
    right
    rw [htb, hend]
    exact region_reach hs hb (hend ▸ hc.2) hall r hr
  · intro x hx a ha hxc
    rw [heq'] at hx
    rcases mem_insertSorted.mp hx with rfl | hx
    · refine ⟨e,?_,hte,htt⟩
      rw [owner_snoc, owner_beyond hall a (by have := hxc.1; omega)]
      exact takes_covers none ⟨ha,by have := hxc.2; omega⟩ (by simp)
    · exact lose_owned hs hb ht hp (Or.inr hall) x hx a ha hxc
  · intro a ha hf
    rw [heq']
    rcases lose_covered hs hb hcm hc hend a ha hf with ⟨r,hr,hrc⟩ | ⟨hge,hec⟩
    · exact ⟨r,mem_insertSorted.mpr (Or.inr hr),hrc⟩
    · have := hec.2
      exact ⟨tail,mem_insertSorted.mpr (Or.inl rfl),by omega,by omega⟩

theorem staged_lose (hs : Staged b seen regions) (hb : b ≤ e.base) (he : Tidy e)
    {t : MemoryRegion} (ht : owner e.base seen = some t) (hp : e.priority < t.priority)
    (hclear : e.endAddr ≤ t.endAddr ∨ ∀ f ∈ seen, f.endAddr ≤ t.endAddr) :
    Staged e.base (seen++[e]) (insertWithOverlap regions e) := by
  by_cases hle : e.endAddr ≤ t.endAddr
  · exact staged_hidden hs hb he ht hp hle
  · exact staged_tail hs hb he ht hp (by omega) (hclear.resolve_left hle)

theorem staged_step (hs : Staged b seen regions) (hb : b ≤ e.base) (he : Tidy e)
    (hc : Clear seen e) : Staged e.base (seen++[e]) (insertWithOverlap regions e) := by
  cases ho : owner e.base seen with
  | none => exact staged_win hs hb he (fun f hf hfc => absurd hfc (owner_none ho f hf))
  | some t =>
    by_cases hp : e.priority < t.priority
    · have hclear : e.priority < t.priority →
          e.endAddr ≤ t.endAddr ∨ ∀ f ∈ seen, f.endAddr ≤ t.endAddr := by
        simpa [Clear, ho] using hc
      exact staged_lose hs hb he ho hp (hclear hp)
    · refine staged_win hs hb he (fun f hf hfc => ?_)
      have := (owner_some ho).2.2 f hf hfc
      omega

theorem tangled_step (hs : Staged b seen regions) (hb : b ≤ e.base) (he : Tidy e)
    (hc : ¬Clear seen e) :
    ∃ a, 2 ≤ (insertWithOverlap regions e).countP (fun r => r.Covers a) := by
  cases ho : owner e.base seen with
  | none => exact absurd (by simp [Clear, ho]) hc
  | some t =>
    simp only [Clear, ho] at hc
    push Not at hc
    obtain ⟨hp,hlt,f,hf,hft⟩ := hc
    obtain ⟨c,hcm,hcc,hend,heq⟩ := insert_lose hs hb he ho hp
    have hlt' : c.endAddr < e.endAddr := by omega
    refine ⟨t.endAddr,?_⟩
    have hstart := hs.started f hf
    have htb := (owner_some ho).2.1
    obtain ⟨r,hr,hrc⟩ := hs.covered t.endAddr (by simp only [Covers] at htb; omega)
      ⟨f,hf,by simp only [Covers] at *; omega⟩
    rw [heq, after, if_pos hlt', List.foldl_cons, List.foldl_nil,
      (insertSorted_perm _ _).countP_eq, List.countP_cons]
    have hpos : 0 < regions.countP (fun r => r.Covers t.endAddr) :=
      List.countP_pos_iff.mpr ⟨r,hr,by simpa using hrc⟩
    have htail : (span c.endAddr e.endAddr e.regionType c.endAddr_lt e.endAddr_lt).Covers
        t.endAddr := by
      refine ⟨hend.le,?_⟩
      rw [span_endAddr _ _ _ _ _ hlt'.le]
      exact hlt
    simp only [htail, decide_true, if_true]
    omega

end Step

theorem staged_run {b : ℕ} {seen regions : List MemoryRegion} (rest : List MemoryRegion)
    (hs : Staged b seen regions) (ht : ∀ e ∈ rest, Tidy e)
    (hsort : (b::rest.map MemoryRegion.base).Pairwise (· ≤ ·))
    (hu : UntangledFrom seen rest) : InOrder (rest.foldl insertWithOverlap regions) := by
  induction rest generalizing b seen regions with
  | nil => exact hs.ordered
  | cons e rest ih =>
    obtain ⟨hb,hrest⟩ := List.pairwise_cons.mp hsort
    exact ih (staged_step hs (hb e.base (by simp)) (ht e (by simp)) hu.1)
      (fun x hx => ht x (by simp [hx])) hrest hu.2

/-- A run that meets an entry that is not clear passes through a list with
two regions over one address. -/
theorem tangled_run {b : ℕ} {seen regions : List MemoryRegion} (rest : List MemoryRegion)
    (hs : Staged b seen regions) (ht : ∀ e ∈ rest, Tidy e)
    (hsort : (b::rest.map MemoryRegion.base).Pairwise (· ≤ ·))
    (hu : ¬UntangledFrom seen rest) :
    ∃ done e later, rest = done++e::later ∧
      ∃ a, 2 ≤ ((done++[e]).foldl insertWithOverlap regions).countP (fun r => r.Covers a) := by
  induction rest generalizing b seen regions with
  | nil => exact absurd trivial hu
  | cons e rest ih =>
    obtain ⟨hb,hrest⟩ := List.pairwise_cons.mp hsort
    have hbe := hb e.base (by simp)
    have hte := ht e (by simp)
    by_cases hc : Clear seen e
    · obtain ⟨done,x,later,heq,h⟩ := ih (staged_step hs hbe hte hc)
        (fun x hx => ht x (by simp [hx])) hrest (fun h => hu ⟨hc,h⟩)
      exact ⟨e::done,x,later,by simp [heq],h⟩
    · exact ⟨[],e,rest,rfl,tangled_step hs hbe hte hc⟩

end Zamak.PmmResolve
