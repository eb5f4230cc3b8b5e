import Mathlib.Data.List.Induction

/-! # Machines that read one input at a time

A machine reads an input and goes on, ends with a result, or fails. Inputs that
follow the end of a run are not read. Invariants are carried along a run by a step
rule, and two machines that keep in step under a guard end at the same input with
the same result. -/

set_option autoImplicit false

namespace Zamak.PolledRuns

inductive Outcome (S R : Type) where
  | more (s : S)
  | done (r : R)
  | failed

variable {S T K R : Type}

def run (step : S → K → Outcome S R) : S → List K → Outcome S R
  | s, [] => .more s
  | s, k::ks =>
    match step s k with
    | .more s' => run step s' ks
    | .done r => .done r
    | .failed => .failed

/-- The number of inputs a run reads before it ends, and its result. -/
def exits (step : S → K → Outcome S R) : S → List K → Option (ℕ × R)
  | _, [] => none
  | s, k::ks =>
    match step s k with
    | .more s' => (exits step s' ks).map fun e => (e.1+1,e.2)
    | .done r => some (1,r)
    | .failed => none

def Along (step : S → K → Outcome S R) (guard : S → K → Prop) : S → List K → Prop
  | _, [] => True
  | s, k::ks => guard s k ∧ ∀ s', step s k = .more s' → Along step guard s' ks

theorem run_cons (step : S → K → Outcome S R) (s s' : S) (k : K) (ks : List K)
    (h : step s k = .more s') : run step s (k::ks) = run step s' ks := by
  simp only [run,h]

theorem exits_cons (step : S → K → Outcome S R) (s s' : S) (k : K) (ks : List K)
    (h : step s k = .more s') :
    exits step s (k::ks) = (exits step s' ks).map fun e => (e.1+1,e.2) := by
  simp only [exits,h]

theorem run_more (step : S → K → Outcome S R) (s s' : S) (k : K) (ks : List K)
    (h : run step s (k::ks) = .more s') :
    ∃ t, step s k = .more t ∧ run step t ks = .more s' := by
  unfold run at h
  cases hk : step s k with
  | more t => exact ⟨t,rfl,by simpa [hk] using h⟩
  | done r => simp [hk] at h
  | failed => simp [hk] at h

theorem run_append (step : S → K → Outcome S R) (s s' : S) (ks rest : List K)
    (h : run step s ks = .more s') : run step s (ks++rest) = run step s' rest := by
  induction ks generalizing s with
  | nil =>
    have hs : s = s' := by simpa [run] using h
    rw [hs,List.nil_append]
  | cons k ks ih =>
    obtain ⟨t,hk,ht⟩ := run_more step s s' k ks h
    rw [List.cons_append,run_cons step s t k _ hk]
    exact ih t ht

theorem run_snoc (step : S → K → Outcome S R) (s : S) (ks : List K) (k : K) :
    run step s (ks++[k]) =
      match run step s ks with
      | .more s' => step s' k
      | .done r => .done r
      | .failed => .failed := by
  induction ks generalizing s with
  | nil => cases hk : step s k <;> simp [run,hk]
  | cons j ks ih =>
    rw [List.cons_append]
    cases hj : step s j with
    | more t => simp only [run,hj,ih]
    | done r => simp only [run,hj]
    | failed => simp only [run,hj]

theorem exits_append (step : S → K → Outcome S R) (s s' : S) (ks rest : List K)
    (h : run step s ks = .more s') :
    exits step s (ks++rest) = (exits step s' rest).map fun e => (e.1+ks.length,e.2) := by
  induction ks generalizing s with
  | nil =>
    have hs : s = s' := by simpa [run] using h
    rw [hs]
    simp
  | cons k ks ih =>
    obtain ⟨t,hk,ht⟩ := run_more step s s' k ks h
    rw [List.cons_append,exits_cons step s t k _ hk,ih t ht,Option.map_map]
    rfl

theorem run_invariant (step : S → K → Outcome S R) (inv : List K → S → Prop) (s s' : S)
    (ks : List K) (h0 : inv [] s)
    (hstep : ∀ read t k t', inv read t → step t k = .more t' → inv (read++[k]) t')
    (h : run step s ks = .more s') : inv ks s' := by
  induction ks using List.reverseRecOn generalizing s' with
  | nil =>
    have hs : s = s' := by simpa [run] using h
    exact hs ▸ h0
  | append_singleton ks k ih =>
    rw [run_snoc] at h
    cases hr : run step s ks with
    | more t =>
      rw [hr] at h
      exact hstep ks t k s' (ih t hr) h
    | done r => simp [hr] at h
    | failed => simp [hr] at h

/-- Where a guard is what makes the next outcome good, it holds along a run exactly when
every outcome on the way is good. The guard is needed only in states that the machine
comes to. -/
theorem along_iff (step : S → K → Outcome S R) (guard : S → K → Prop) (inv : S → Prop)
    (good : Outcome S R → Prop) (hinv : ∀ s k s', inv s → step s k = .more s' → inv s')
    (hguard : ∀ s k, inv s → good (.more s) → (guard s k ↔ good (step s k)))
    (s : S) (ks : List K) (hs : inv s) (hgood : good (.more s)) :
    Along step guard s ks ↔ ∀ read, read <+: ks → good (run step s read) := by
  induction ks generalizing s with
  | nil =>
    refine ⟨fun _ read hread => ?_,fun _ => trivial⟩
    rw [List.prefix_nil.mp hread]
    exact hgood
  | cons k ks ih =>
    have hfirst : ∀ read, run step s (k::read) =
        match step s k with
        | .more s' => run step s' read
        | .done r => .done r
        | .failed => .failed := fun _ => rfl
    constructor
    · rintro ⟨hk,hrest⟩ read hread
      have hnext := (hguard s k hs hgood).mp hk
      rcases List.prefix_cons_iff.mp hread with rfl | ⟨read',rfl,hread'⟩
      · exact hgood
      · rw [hfirst]
        cases hstep : step s k with
        | more s' =>
          rw [hstep] at hnext
          exact (ih s' (hinv s k s' hs hstep) hnext).mp (hrest s' hstep) read' hread'
        | done r => rwa [hstep] at hnext
        | failed => rwa [hstep] at hnext
    · intro hall
      have hnext : good (step s k) := by
        have hone := hall [k] (List.prefix_cons_iff.mpr (.inr ⟨[],rfl,List.nil_prefix⟩))
        rw [hfirst] at hone
        cases hstep : step s k with
        | more s' => rwa [hstep] at hone
        | done r => rwa [hstep] at hone
        | failed => rwa [hstep] at hone
      refine ⟨(hguard s k hs hgood).mpr hnext,fun s' hstep => ?_⟩
      rw [hstep] at hnext
      apply (ih s' (hinv s k s' hs hstep) hnext).mpr
      intro read hread
      have hmore := hall (k::read) (List.prefix_cons_iff.mpr (.inr ⟨read,rfl,hread⟩))
      rwa [hfirst,hstep] at hmore

/-- Outcomes that are both unfinished in related states, or equal results. -/
def Matched (rel : S → T → Prop) : Outcome S R → Outcome T R → Prop
  | .more s, .more t => rel s t
  | .done a, .done b => a = b
  | _, _ => False

theorem exits_eq (step : S → K → Outcome S R) (step' : T → K → Outcome T R)
    (guard : S → K → Prop) (rel : S → T → Prop)
    (hstep : ∀ s t k, rel s t → guard s k → Matched rel (step s k) (step' t k))
    (s : S) (t : T) (ks : List K) (hrel : rel s t) (ha : Along step guard s ks) :
    exits step s ks = exits step' t ks := by
  induction ks generalizing s t with
  | nil => rfl
  | cons k ks ih =>
    have hm := hstep s t k hrel ha.1
    unfold exits
    cases hs : step s k with
    | more s' =>
      cases ht : step' t k with
      | more t' =>
        rw [hs,ht] at hm
        simp only [ih s' t' hm (ha.2 s' hs)]
      | done r => simp [hs,ht,Matched] at hm
      | failed => simp [hs,ht,Matched] at hm
    | done r =>
      cases ht : step' t k with
      | more t' => simp [hs,ht,Matched] at hm
      | done r' =>
        rw [hs,ht] at hm
        simp only [show r = r' from hm]
      | failed => simp [hs,ht,Matched] at hm
    | failed => simp [hs,Matched] at hm

theorem run_related (step : S → K → Outcome S R) (step' : T → K → Outcome T R)
    (guard : S → K → Prop) (rel : S → T → Prop)
    (hstep : ∀ s t k, rel s t → guard s k → Matched rel (step s k) (step' t k))
    (s s' : S) (t : T) (ks : List K) (hrel : rel s t) (ha : Along step guard s ks)
    (h : run step s ks = .more s') : ∃ t', run step' t ks = .more t' ∧ rel s' t' := by
  induction ks generalizing s t with
  | nil =>
    have hs : s = s' := by simpa [run] using h
    exact ⟨t,rfl,hs ▸ hrel⟩
  | cons k ks ih =>
    obtain ⟨u,hu,hrun⟩ := run_more step s s' k ks h
    have hm := hstep s t k hrel ha.1
    rw [hu] at hm
    cases ht : step' t k with
    | more v =>
      rw [ht] at hm
      rw [run_cons step' t v k ks ht]
      exact ih u v hm (ha.2 u hu) hrun
    | done r => simp [ht,Matched] at hm
    | failed => simp [ht,Matched] at hm

end Zamak.PolledRuns
