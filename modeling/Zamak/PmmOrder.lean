import Zamak.OrderedSpans
import Zamak.PmmTidy

/-!
# When overlap resolution keeps the map disjoint

Insertion stops at the first existing region that outweighs the new one and
adds the remainder without comparing it with the regions further on. Entries
arrive in base order, so past the newest base the list is a staircase: each
address belongs to the last heaviest entry over it. That ownership is read
off the entries alone and tells exactly when the remainder meets something.
-/

set_option autoImplicit false

namespace Zamak.PmmOrder
open Zamak.PmmRegions Zamak.PmmRegions.MemoryRegion Zamak.PmmCoverage Zamak.PmmTidy
open Zamak.OrderedSpans

def takes (a : ℕ) : Option MemoryRegion → MemoryRegion → Option MemoryRegion
  | none, e => if e.Covers a then some e else none
  | some t, e => if e.Covers a ∧ t.priority ≤ e.priority then some e else some t

def owner (a : ℕ) (seen : List MemoryRegion) : Option MemoryRegion := seen.foldl (takes a) none

/-- The remainder of `e` meets no earlier entry: the owner of its base is not
heavier, or reaches past `e`, or reaches past everything seen so far. -/
def Clear (seen : List MemoryRegion) (e : MemoryRegion) : Prop :=
  match owner e.base seen with
  | none => True
  | some t => e.priority < t.priority →
      e.endAddr ≤ t.endAddr ∨ ∀ f ∈ seen, f.endAddr ≤ t.endAddr

instance (seen : List MemoryRegion) (e : MemoryRegion) : Decidable (Clear seen e) := by
  unfold Clear
  split <;> infer_instance

def UntangledFrom : List MemoryRegion → List MemoryRegion → Prop
  | _, [] => True
  | seen, e::rest => Clear seen e ∧ UntangledFrom (seen++[e]) rest

def decideUntangled : (seen rest : List MemoryRegion) → Decidable (UntangledFrom seen rest)
  | _, [] => isTrue trivial
  | seen, e::rest =>
    have := decideUntangled (seen++[e]) rest
    inferInstanceAs (Decidable (Clear seen e ∧ UntangledFrom (seen++[e]) rest))

instance (seen rest : List MemoryRegion) : Decidable (UntangledFrom seen rest) :=
  decideUntangled seen rest

/-- No entry, in base order, is cut short by a heavier one below another. -/
def Untangled (entries : List MemoryRegion) : Prop := UntangledFrom [] entries

instance (entries : List MemoryRegion) : Decidable (Untangled entries) :=
  inferInstanceAs (Decidable (UntangledFrom [] entries))

theorem owner_snoc (a : ℕ) (seen : List MemoryRegion) (e : MemoryRegion) :
    owner a (seen++[e]) = takes a (owner a seen) e := by
  simp [owner, List.foldl_append]

theorem takes_misses {a : ℕ} (best : Option MemoryRegion) {e : MemoryRegion}
    (h : ¬e.Covers a) : takes a best e = best := by
  cases best <;> simp [takes, h]

theorem takes_covers {a : ℕ} (best : Option MemoryRegion) {e : MemoryRegion}
    (h : e.Covers a) (hp : ∀ t, best = some t → t.priority ≤ e.priority) :
    takes a best e = some e := by
  cases best with
  | none => simp [takes, h]
  | some t => simp [takes, h, hp t rfl]

theorem takes_heavier {a : ℕ} {t e : MemoryRegion} (h : e.priority < t.priority) :
    takes a (some t) e = some t := by
  have hn : ¬t.priority ≤ e.priority := by omega
  simp [takes, hn]

theorem owner_spec (a : ℕ) (seen : List MemoryRegion) :
    match owner a seen with
    | none => ∀ e ∈ seen, ¬e.Covers a
    | some t => t ∈ seen ∧ t.Covers a ∧ ∀ e ∈ seen, e.Covers a → e.priority ≤ t.priority := by
  induction seen using List.reverseRecOn with
  | nil => simp [owner]
  | append_singleton seen e ih =>
    rw [owner_snoc]
    cases ho : owner a seen with
    | none =>
      rw [ho] at ih
      by_cases he : e.Covers a
      · rw [takes_covers none he (by simp)]
        refine ⟨by simp,he,?_⟩
        intro f hf hc
        rcases List.mem_append.mp hf with hf | hf
        · exact absurd hc (ih f hf)
        · rw [List.mem_singleton.mp hf]
      · rw [takes_misses none he]
        intro f hf
        rcases List.mem_append.mp hf with hf | hf
        · exact ih f hf
        · rwa [List.mem_singleton.mp hf]
    | some t =>
      rw [ho] at ih
      obtain ⟨hm,hc,hmax⟩ := ih
      by_cases he : e.Covers a ∧ t.priority ≤ e.priority
      · rw [takes_covers (some t) he.1 (by simpa using he.2)]
        refine ⟨by simp,he.1,?_⟩
        intro f hf hfc
        rcases List.mem_append.mp hf with hf | hf
        · exact (hmax f hf hfc).trans he.2
        · rw [List.mem_singleton.mp hf]
      · rw [show takes a (some t) e = some t by simp [takes, he]]
        refine ⟨by simp [hm],hc,?_⟩
        intro f hf hfc
        rcases List.mem_append.mp hf with hf | hf
        · exact hmax f hf hfc
        · obtain rfl := List.mem_singleton.mp hf
          have := not_and.mp he hfc
          omega

theorem owner_none {a : ℕ} {seen : List MemoryRegion} (h : owner a seen = none) :
    ∀ e ∈ seen, ¬e.Covers a := by
  simpa [h] using owner_spec a seen

theorem owner_some {a : ℕ} {seen : List MemoryRegion} {t : MemoryRegion}
    (h : owner a seen = some t) :
    t ∈ seen ∧ t.Covers a ∧ ∀ e ∈ seen, e.Covers a → e.priority ≤ t.priority := by
  simpa [h] using owner_spec a seen

abbrev InOrder (l : List MemoryRegion) : Prop := Ordered MemoryRegion.base endAddr l

/-- The list after the entries in `seen`, none of which starts past `b`. From
`b` on, a region shows the type and the end of the entry that owns it. -/
structure Staged (b : ℕ) (seen regions : List MemoryRegion) : Prop where
  tidy : ∀ r ∈ regions, Tidy r
  ordered : InOrder regions
  started : ∀ f ∈ seen, f.base ≤ b
  owned : ∀ r ∈ regions, ∀ a, b ≤ a → r.Covers a →
    ∃ t, owner a seen = some t ∧ r.endAddr = t.endAddr ∧ r.regionType = t.regionType
  covered : ∀ a, b ≤ a → (∃ f ∈ seen, f.Covers a) → ∃ r ∈ regions, r.Covers a

theorem staged_nil (b : ℕ) : Staged b [] [] where
  tidy := by simp
  ordered := List.Pairwise.nil
  started := by simp
  owned := by simp
  covered := by simp

section Step

variable {b : ℕ} {seen regions : List MemoryRegion} {e : MemoryRegion}

theorem Staged.covers_base (hs : Staged b seen regions) (hb : b ≤ e.base) {a : ℕ}
    (ha : e.base ≤ a) {f : MemoryRegion} (hf : f ∈ seen) (hc : f.Covers a) :
    f.Covers e.base := by
  have := hs.started f hf
  simp only [Covers] at *
  omega

theorem Staged.region_at (hs : Staged b seen regions) (hb : b ≤ e.base) {t : MemoryRegion}
    (ht : owner e.base seen = some t) :
    ∃ before c later, regions = before++c::later ∧ c.Covers e.base ∧
      c.endAddr = t.endAddr ∧ c.regionType = t.regionType ∧ ∀ r ∈ before, Apart e r := by
  obtain ⟨hm,hc,-⟩ := owner_some ht
  obtain ⟨c,hcm,hcc⟩ := hs.covered e.base hb ⟨t,hm,hc⟩
  obtain ⟨t',ht',hend,htype⟩ := hs.owned c hcm e.base hb hcc
  obtain rfl : t = t' := by simpa [ht] using ht'
  obtain ⟨before,later,rfl⟩ := List.append_of_mem hcm
  refine ⟨before,c,later,rfl,hcc,hend,htype,?_⟩
  intro r hr
  have ho := (List.pairwise_append.mp hs.ordered).2.2 r hr c (by simp)
  have := hcc.1
  exact Or.inr (ho.trans this)

end Step

theorem insertScan_skip (new : MemoryRegion) (visited skipped rest : List MemoryRegion)
    (h : ∀ r ∈ skipped, Apart new r) :
    insertScan new visited (skipped++rest) = insertScan new (visited++skipped) rest := by
  induction skipped generalizing visited with
  | nil => simp
  | cons r skipped ih =>
    rw [List.cons_append, insertScan, if_pos (h r (by simp)),
      ih _ (fun x hx => h x (by simp [hx])), List.append_assoc, List.singleton_append]

def carve (new : MemoryRegion) (regions : List MemoryRegion) : List MemoryRegion :=
  regions.flatMap (fun r => if Apart new r then [r] else around r new)

theorem insertScan_win (new : MemoryRegion) (visited rest : List MemoryRegion)
    (h : ∀ r ∈ rest, ¬Apart new r → r.priority ≤ new.priority) :
    insertScan new visited rest = insertSorted (visited++carve new rest) new := by
  induction rest generalizing visited with
  | nil => simp [insertScan, carve]
  | cons r rest ih =>
    have ht := fun v => ih v (fun x hx => h x (by simp [hx]))
    rw [insertScan]
    by_cases hap : Apart new r
    · rw [if_pos hap, ht, carve, carve, List.flatMap_cons, if_pos hap, List.append_assoc]
    · rw [if_neg hap, if_pos (h r (by simp) hap), ht, carve, carve, List.flatMap_cons,
        if_neg hap, List.append_assoc]
      rfl

theorem insertScan_lose (new : MemoryRegion) (visited rest : List MemoryRegion)
    (c : MemoryRegion) (hap : ¬Apart new c) (hp : new.priority < c.priority) :
    insertScan new visited (c::rest) = (around new c).foldl insertSorted (visited++c::rest) := by
  rw [insertScan, if_neg hap, if_neg (by omega), ← around, around_filter]

end Zamak.PmmOrder
