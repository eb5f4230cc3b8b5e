import Zamak.PmmChecked
import Zamak.PmmMutators
import Zamak.SpanMeasure

/-! # What the usable total counts

The total is a checked sum over the usable regions. On a disjoint map it cannot
overflow and counts the usable addresses, and over any run of allocations and repaints
it moves by exactly the bytes handed out, repainted away and repainted usable. -/

set_option autoImplicit false

namespace Zamak.PmmAccounting
open Zamak.PmmRegions Zamak.PmmRegions.MemoryRegion Zamak.PmmCoverage Zamak.PmmTidy
open Zamak.PmmAllocator Zamak.PmmRuns Zamak.PmmMutators Zamak.PmmChecked Zamak.SpanMeasure

def usable (regions : List MemoryRegion) : List MemoryRegion :=
  regions.filter fun r => r.regionType = .usable

/-- `sum` over `u64`, which panics on overflow where arithmetic is checked. -/
def sum64 : ℕ → List ℕ → Option ℕ
  | total, [] => some total
  | total, x::rest => do
    let total ← add64 total x
    sum64 total rest

def totalUsable (pmm : Pmm) : Option ℕ := sum64 0 ((usable pmm.regions).map length)

/-- The end of the region did not saturate. -/
def Exact (r : MemoryRegion) : Prop := r.endAddr = r.base+r.length

def AllExact (regions : List MemoryRegion) : Prop := ∀ r ∈ regions, Exact r

theorem sum64_eq (total : ℕ) (l : List ℕ) (h : total+l.sum < wordSize) :
    sum64 total l = some (total+l.sum) := by
  induction l generalizing total with
  | nil => rfl
  | cons x rest ih =>
    rw [List.sum_cons] at h ⊢
    have hadd : add64 total x = some (total+x) := if_pos (by omega)
    rw [sum64,hadd,← Nat.add_assoc]
    exact ih (total+x) (by omega)

theorem literal_exact (base length : ℕ) (t : MemoryType) (h : base+length < wordSize) :
    Exact (literal base length t) := by
  obtain ⟨hb,he⟩ := literal_endAddr base length t h
  have hl : (literal base length t).length = length := Nat.mod_eq_of_lt (by omega)
  rw [Exact,he,hb,hl]

theorem span_exact (lo hi : ℕ) (t : MemoryType) (hl : lo < wordSize) (hh : hi < wordSize)
    (h : lo ≤ hi) : Exact (span lo hi t hl hh) := by
  rw [Exact,span_endAddr lo hi t hl hh h]
  exact (Nat.add_sub_cancel' h).symm

theorem before_exact (r s : MemoryRegion) : AllExact (before r s) := by
  intro x hx
  obtain ⟨hlt,hx⟩ := List.mem_ite_nil_right.mp hx
  rw [List.mem_singleton.mp hx]
  exact span_exact _ _ _ _ _ hlt.le

theorem after_exact (r s : MemoryRegion) : AllExact (after r s) := by
  intro x hx
  obtain ⟨hlt,hx⟩ := List.mem_ite_nil_right.mp hx
  rw [List.mem_singleton.mp hx]
  exact span_exact _ _ _ _ _ hlt.le

theorem allExact_append {l m : List MemoryRegion} (hl : AllExact l) (hm : AllExact m) :
    AllExact (l++m) := by
  intro x hx
  rcases List.mem_append.mp hx with hx | hx
  · exact hl x hx
  · exact hm x hx

theorem allExact_singleton {r : MemoryRegion} (h : Exact r) : AllExact [r] := by
  intro x hx
  rwa [List.mem_singleton.mp hx]

theorem markOne_exact (mark r : MemoryRegion) (h : Exact r) : AllExact (markOne mark r) := by
  have hm := mark.endAddr_lt
  have hmark := base_le_end mark
  have hr := base_le_end r
  unfold markOne
  split
  · exact allExact_singleton h
  · refine allExact_append (allExact_append (before_exact r mark) ?_) (after_exact r mark)
    exact allExact_singleton (literal_exact _ _ _ (by omega))

theorem splitRegion_exact {region : MemoryRegion} {a size : ℕ} (hb : region.base ≤ a)
    (he : a+size ≤ region.endAddr) : AllExact (splitRegion region a size) := by
  have hw := region.endAddr_lt
  rw [splitRegion_eq he]
  refine allExact_append (allExact_append ?_ ?_) ?_
  · intro x hx
    rw [List.mem_singleton.mp (List.mem_ite_nil_right.mp hx).2]
    exact literal_exact _ _ _ (by omega)
  · exact allExact_singleton (literal_exact _ _ _ (by omega))
  · intro x hx
    rw [List.mem_singleton.mp (List.mem_ite_nil_right.mp hx).2]
    exact literal_exact _ _ _ (by omega)

theorem new_exact (raw : List MemoryRegion) : AllExact (Pmm.new raw).regions :=
  fun r hr => (tidy_normalize raw r hr).endAddr_eq

/-- A map whose regions do not meet and whose ends did not saturate. -/
structure Accounted (pmm : Pmm) : Prop where
  disjoint : Disjoint pmm.regions
  ends : AllExact pmm.regions

theorem accounted_step (pmm : Pmm) (call : Call) (h : Accounted pmm) :
    Accounted (step pmm call) := by
  cases call with
  | markRegion mark =>
    refine ⟨markRegion_disjoint pmm mark h.disjoint,?_⟩
    intro x hx
    obtain ⟨r,hr,hx⟩ := List.mem_flatMap.mp hx
    exact markOne_exact mark r (h.ends r hr) x hx
  | allocatePages count =>
    refine ⟨allocate_disjoint pmm count h.disjoint,?_⟩
    change AllExact (allocatePages pmm count).2.regions
    cases hresult : (allocatePages pmm count).1 with
    | none =>
      rw [allocate_none hresult]
      exact h.ends
    | some a =>
      obtain ⟨l,region,m,hbefore,-,hb,he,hafter⟩ := allocate_split pmm count a hresult
      have hold := h.ends
      rw [hbefore] at hold
      rw [hafter]
      refine allExact_append (allExact_append ?_ (splitRegion_exact hb he)) ?_
      · exact fun x hx => hold x (List.mem_append_left _ hx)
      · exact fun x hx => hold x (List.mem_append_right _ (List.mem_cons_of_mem _ hx))

theorem accounted_run (calls : List Call) (pmm : Pmm) (h : Accounted pmm) :
    Accounted (run pmm calls) := by
  induction calls generalizing pmm with
  | nil => exact h
  | cons call calls ih => exact ih (step pmm call) (accounted_step pmm call h)

def usableAddrs (pmm : Pmm) : Set ℕ := {a | typeAt pmm.regions a = some .usable}

theorem typeAt_of_covers {regions : List MemoryRegion} (hd : Disjoint regions) {r : MemoryRegion}
    (hr : r ∈ regions) {a : ℕ} (hc : r.Covers a) : typeAt regions a = some r.regionType := by
  induction regions with
  | nil => cases hr
  | cons s regions ih =>
    obtain ⟨hs,hd⟩ := List.pairwise_cons.mp hd
    rw [← List.singleton_append (l := regions),typeAt_append,typeAt_singleton]
    rcases List.mem_cons.mp hr with rfl | hr
    · rw [if_pos hc]
      rfl
    · have hno : ¬s.Covers a := fun hsc => covers_apart (hs r hr) hsc hc
      rw [if_neg hno]
      exact ih hd hr

theorem usableAddrs_held (pmm : Pmm) (hd : Disjoint pmm.regions) :
    usableAddrs pmm = held base endAddr (usable pmm.regions) := by
  ext a
  constructor
  · intro h
    obtain ⟨r,hfind,hu⟩ := Option.map_eq_some_iff.mp (show typeAt pmm.regions a = _ from h)
    have hc : r.Covers a := by simpa using List.find?_some hfind
    exact ⟨r,List.mem_filter.mpr ⟨List.mem_of_find?_eq_some hfind,by simpa using hu⟩,hc⟩
  · rintro ⟨r,hr,hc⟩
    obtain ⟨hm,hu⟩ := List.mem_filter.mp hr
    have hat := typeAt_of_covers hd hm hc
    rwa [show r.regionType = .usable by simpa using hu] at hat

theorem usable_lengths {pmm : Pmm} (h : Accounted pmm) :
    (usable pmm.regions).map length = (usable pmm.regions).map fun r => r.endAddr-r.base := by
  apply List.map_congr_left
  intro r hr
  have := h.ends r (List.mem_of_mem_filter hr)
  unfold Exact at this
  omega

theorem usable_separate {pmm : Pmm} (h : Accounted pmm) :
    Separate base endAddr (usable pmm.regions) :=
  h.disjoint.sublist List.filter_sublist

theorem total_counts {pmm : Pmm} (h : Accounted pmm) :
    totalUsable pmm = some (usableAddrs pmm).ncard := by
  have hs := usable_separate h
  have hle : ((usable pmm.regions).map fun r => r.endAddr-r.base).sum ≤ wordSize-1 :=
    lengths_le hs fun r _ => Nat.le_sub_one_of_lt r.endAddr_lt
  have hlt := wordSize_pos
  rw [usableAddrs_held pmm h.disjoint,held_ncard hs,totalUsable,usable_lengths h,
    sum64_eq _ _ (by omega),Nat.zero_add]

theorem usableAddrs_finite {pmm : Pmm} (h : Accounted pmm) : (usableAddrs pmm).Finite := by
  rw [usableAddrs_held pmm h.disjoint]
  exact held_finite _

/-! ## The ledger of a run -/

noncomputable def taken (pmm : Pmm) : Call → ℕ
  | .allocatePages count => if (allocatePages pmm count).1.isSome then count*pageSize else 0
  | .markRegion mark =>
    if mark.regionType = .usable then 0 else {a | a ∈ usableAddrs pmm ∧ mark.Covers a}.ncard

noncomputable def returned (pmm : Pmm) : Call → ℕ
  | .allocatePages _ => 0
  | .markRegion mark =>
    if mark.regionType = .usable then
      {a | (∃ t, typeAt pmm.regions a = some t ∧ t ≠ .usable) ∧ mark.Covers a}.ncard
    else 0

noncomputable def runTaken : Pmm → List Call → ℕ
  | _, [] => 0
  | pmm, call::calls => taken pmm call+runTaken (step pmm call) calls

noncomputable def runReturned : Pmm → List Call → ℕ
  | _, [] => 0
  | pmm, call::calls => returned pmm call+runReturned (step pmm call) calls

theorem allocate_usableAddrs {pmm : Pmm} (h : Accounted pmm) (count a : ℕ)
    (hresult : (allocatePages pmm count).1 = some a) :
    Set.Ico a (a+count*pageSize) ⊆ usableAddrs pmm ∧
    usableAddrs (allocatePages pmm count).2 =
      usableAddrs pmm \ Set.Ico a (a+count*pageSize) := by
  have hat := typeAt_allocate pmm count a h.disjoint hresult
  refine ⟨fun x hx => ((hat x).1 hx).1,?_⟩
  ext x
  by_cases hblock : Block a count x
  · have hgone : x ∉ usableAddrs (allocatePages pmm count).2 := by
      simp [usableAddrs,((hat x).1 hblock).2]
    exact iff_of_false hgone fun hx => hx.2 hblock
  · have hsame : x ∈ usableAddrs (allocatePages pmm count).2 ↔ x ∈ usableAddrs pmm := by
      simp only [usableAddrs,Set.mem_ofPred_eq,(hat x).2 hblock]
    exact hsame.trans ⟨fun hx => ⟨hx,hblock⟩,fun hx => hx.1⟩

theorem mark_usableAddrs (pmm : Pmm) (mark : MemoryRegion) :
    usableAddrs (markRegion pmm mark) =
      if mark.regionType = .usable then
        usableAddrs pmm ∪
          {a | (∃ t, typeAt pmm.regions a = some t ∧ t ≠ .usable) ∧ mark.Covers a}
      else usableAddrs pmm \ {a | a ∈ usableAddrs pmm ∧ mark.Covers a} := by
  ext x
  have hat := typeAt_markRegion pmm mark x
  have hmem : x ∈ usableAddrs (markRegion pmm mark) ↔
      ∃ t, typeAt pmm.regions x = some t ∧
        (if mark.Covers x then mark.regionType else t) = .usable := by
    rw [usableAddrs,Set.mem_ofPred_eq,hat,Option.map_eq_some_iff]
  have hold : x ∈ usableAddrs pmm ↔ typeAt pmm.regions x = some .usable := Iff.rfl
  rw [hmem]
  by_cases hu : mark.regionType = .usable
  · rw [if_pos hu,Set.mem_union,hold]
    cases ht : typeAt pmm.regions x with
    | none => simp [ht]
    | some t =>
      by_cases hc : mark.Covers x
      · by_cases hty : t = .usable <;> simp [ht,hc,hu,hty]
      · simp [hc,ht]
  · rw [if_neg hu,Set.mem_sdiff,Set.mem_ofPred_eq,hold]
    cases ht : typeAt pmm.regions x with
    | none => simp
    | some t => by_cases hc : mark.Covers x <;> simp [hc,hu]

theorem step_ledger {pmm : Pmm} (h : Accounted pmm) (call : Call) :
    (usableAddrs (step pmm call)).ncard+taken pmm call =
      (usableAddrs pmm).ncard+returned pmm call := by
  have hfin := usableAddrs_finite h
  cases call with
  | allocatePages count =>
    change (usableAddrs (allocatePages pmm count).2).ncard+
      (if (allocatePages pmm count).1.isSome then count*pageSize else 0) = _+0
    cases hresult : (allocatePages pmm count).1 with
    | none => rw [allocate_none hresult,Option.isSome_none,if_neg Bool.false_ne_true]
    | some a =>
      obtain ⟨hsub,heq⟩ := allocate_usableAddrs h count a hresult
      have hcard := Set.ncard_sdiff_add_ncard_of_subset hsub hfin
      rw [interval_ncard,Nat.add_sub_cancel_left] at hcard
      rw [heq,Option.isSome_some,if_pos rfl,hcard,Nat.add_zero]
  | markRegion mark =>
    change (usableAddrs (markRegion pmm mark)).ncard+_ = _
    rw [mark_usableAddrs]
    by_cases hu : mark.regionType = .usable
    · have hpainted : {a | (∃ t, typeAt pmm.regions a = some t ∧ t ≠ .usable) ∧
          mark.Covers a}.Finite :=
        (Set.finite_Ico mark.base mark.endAddr).subset fun a ha => ha.2
      simp only [taken,returned,if_pos hu]
      refine Set.ncard_union_eq (Set.disjoint_left.mpr ?_) hfin hpainted
      rintro a ha ⟨⟨t,ht,hne⟩,-⟩
      exact hne (Option.some.inj (ht.symm.trans ha))
    · simp only [taken,returned,if_neg hu]
      exact Set.ncard_sdiff_add_ncard_of_subset (fun a ha => ha.1) hfin

theorem run_ledger (calls : List Call) (pmm : Pmm) (h : Accounted pmm) :
    (usableAddrs (run pmm calls)).ncard+runTaken pmm calls =
      (usableAddrs pmm).ncard+runReturned pmm calls := by
  induction calls generalizing pmm with
  | nil => rfl
  | cons call calls ih =>
    have hstep := step_ledger h call
    have hrest := ih (step pmm call) (accounted_step pmm call h)
    change (usableAddrs (run (step pmm call) calls)).ncard+_ = _
    rw [runTaken,runReturned]
    omega

/-- From a disjoint map, whatever is allocated and repainted afterwards, the total never
overflows and counts the usable addresses; what the run took and what it gave back
account for its change. -/
theorem usable_total_accounts (raw : List MemoryRegion) (calls : List Call)
    (hd : Disjoint (Pmm.new raw).regions) :
    ∃ before after, totalUsable (Pmm.new raw) = some before ∧
      totalUsable (run (Pmm.new raw) calls) = some after ∧
      before = (usableAddrs (Pmm.new raw)).ncard ∧
      after = (usableAddrs (run (Pmm.new raw) calls)).ncard ∧
      after+runTaken (Pmm.new raw) calls = before+runReturned (Pmm.new raw) calls := by
  have h : Accounted (Pmm.new raw) := ⟨hd,new_exact raw⟩
  exact ⟨_,_,total_counts h,total_counts (accounted_run calls _ h),rfl,rfl,
    run_ledger calls _ h⟩

def fourMebibytes : List MemoryRegion :=
  [⟨0x180000,0x380000,.usable,by decide,by decide⟩,
    ⟨0x1f8000,0x9000,.reserved,by decide,by decide⟩]

theorem usable_total_accounts_reserved :
    ∃ before after, totalUsable (Pmm.new fourMebibytes) = some before ∧
      totalUsable (run (Pmm.new fourMebibytes) [.allocatePages 3]) = some after ∧
      after+0x3000 = before := by
  obtain ⟨before,after,hb,ha,-,-,hsum⟩ :=
    usable_total_accounts fourMebibytes [.allocatePages 3] (by unfold PmmMutators.Disjoint; decide)
  have htaken : runTaken (Pmm.new fourMebibytes) [.allocatePages 3] = 0x3000 := by
    have hsome : (allocatePages (Pmm.new fourMebibytes) 3).1.isSome = true := by decide
    simp only [runTaken,taken,hsome,if_pos]
    rfl
  exact ⟨before,after,hb,ha,by rw [htaken] at hsum; exact hsum⟩

end Zamak.PmmAccounting
