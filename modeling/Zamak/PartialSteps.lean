import Mathlib.Data.Fintype.Pigeonhole

/-! # Loops that follow a partial step

A walk goes from state to state as long as there is a next one. Over finitely many states
it ends exactly when it never comes back to a state it has visited. A loop is such a walk
with a result where it stops; a scan is one that looks at the multiples of a step for the
first that it is after. A pass over a list is one whose steps are counted, and a guard lets
a computation go on or ends it. -/

set_option autoImplicit false

namespace Zamak.PartialSteps

section Walk
variable {α : Type*} (step : α → Option α)

def visit : ℕ → α → Option α
  | 0, a => some a
  | n+1, a => (step a).bind (visit n)

def Returns (a : α) : Prop := ∃ i j x, i < j ∧ visit step i a = some x ∧ visit step j a = some x

theorem visit_add (m n : ℕ) (a : α) : visit step (m+n) a = (visit step m a).bind (visit step n) := by
  induction m generalizing a with
  | zero => rw [Nat.zero_add,visit,Option.bind_some]
  | succ m ih =>
    rw [Nat.add_right_comm,visit,visit]
    cases step a with
    | none => rfl
    | some a' => exact ih a'

theorem visit_earlier (m n : ℕ) (a x : α) (h : visit step (m+n) a = some x) :
    ∃ y, visit step m a = some y := by
  rw [visit_add] at h
  obtain ⟨y,hy,-⟩ := Option.bind_eq_some_iff.mp h
  exact ⟨y,hy⟩

theorem visit_succ (n : ℕ) (a : α) : visit step (n+1) a = (visit step n a).bind step := by
  rw [visit_add]
  congr 1
  funext x
  rw [visit]
  cases step x with
  | none => rfl
  | some y => rfl

theorem visit_round (x : α) (d : ℕ) (h : visit step d x = some x) (k : ℕ) :
    visit step (k*d) x = some x := by
  induction k with
  | zero => rw [Nat.zero_mul,visit]
  | succ k ih => rw [Nat.succ_mul,visit_add,ih,Option.bind_some,h]

theorem visit_of_returns (a : α) (h : Returns step a) (n : ℕ) : ∃ x, visit step n a = some x := by
  obtain ⟨i,j,x,hij,hi,hj⟩ := h
  have hloop : visit step (j-i) x = some x := by
    rw [show j = i+(j-i) by omega,visit_add,hi,Option.bind_some] at hj
    exact hj
  have hfar : visit step (i+n*(j-i)) a = some x := by
    rw [visit_add,hi,Option.bind_some]
    exact visit_round step x (j-i) hloop n
  have hle : n ≤ i+n*(j-i) := by
    have : n*1 ≤ n*(j-i) := Nat.mul_le_mul_left n (by omega)
    omega
  rw [show i+n*(j-i) = n+(i+n*(j-i)-n) by omega] at hfar
  exact visit_earlier step n _ a x hfar

theorem ends_iff [Finite α] (a : α) : (∃ n, visit step n a = none) ↔ ¬Returns step a := by
  constructor
  · rintro ⟨n,hend⟩ hback
    obtain ⟨x,hx⟩ := visit_of_returns step a hback n
    rw [hend] at hx
    cases hx
  · intro hback
    by_contra hends
    have hgo : ∀ n, ∃ x, visit step n a = some x := by
      intro n
      cases hn : visit step n a with
      | none => exact (hends ⟨n,hn⟩).elim
      | some x => exact ⟨x,rfl⟩
    choose f hf using hgo
    obtain ⟨i,j,hne,hsame⟩ := Finite.exists_ne_map_eq_of_infinite f
    rcases Nat.lt_or_gt_of_ne hne with hlt | hlt
    · exact hback ⟨i,j,f j,hlt,hsame ▸ hf i,hf j⟩
    · exact hback ⟨j,i,f j,hlt,hf j,hsame ▸ hf i⟩

/-- A walk over numbers that goes up with every step has gone up by the number of steps. -/
theorem visit_climbs (up : ℕ → Option ℕ) (a : ℕ)
    (h : ∀ n x y, visit up n a = some x → up x = some y → x < y) (n x : ℕ)
    (hx : visit up n a = some x) : a+n ≤ x := by
  induction n generalizing x with
  | zero =>
    cases hx
    exact Nat.le_refl a
  | succ n ih =>
    rw [visit_succ] at hx
    obtain ⟨y,hy,hstep⟩ := Option.bind_eq_some_iff.mp hx
    have hle := ih y hy
    have hlt := h n y x hy hstep
    omega

theorem visit_map {β : Type*} (image : α → β) (step' : β → Option β)
    (h : ∀ a, (step a).map image = step' (image a)) (n : ℕ) (a : α) :
    (visit step n a).map image = visit step' n (image a) := by
  induction n generalizing a with
  | zero => rfl
  | succ n ih =>
    rw [visit,visit,← h]
    cases step a with
    | none => rfl
    | some a' => exact ih a'

end Walk

inductive Turn (α β : Type*) where
  | stop (result : β)
  | go (next : α)

section Loop
variable {α β : Type*} (body : α → Turn α β)

/-- The loop; `none` when the fuel runs out. -/
def run : ℕ → α → Option β
  | 0, _ => none
  | fuel+1, a =>
    match body a with
    | .stop result => some result
    | .go next => run fuel next

def next (a : α) : Option α :=
  match body a with
  | .stop _ => none
  | .go next => some next

theorem next_eq_some {a a' : α} : next body a = some a' ↔ body a = .go a' := by
  unfold next
  cases body a with
  | stop result => simp
  | go b => simp

theorem run_of_visit (n : ℕ) (a x : α) (b : β) (hx : visit (next body) n a = some x)
    (hstop : body x = .stop b) : run body (n+1) a = some b := by
  induction n generalizing a with
  | zero =>
    cases hx
    rw [run,hstop]
  | succ n ih =>
    obtain ⟨a',ha,hx⟩ := Option.bind_eq_some_iff.mp hx
    rw [run,(next_eq_some body).mp ha]
    exact ih a' hx

theorem run_iff (a : α) (b : β) :
    (∃ fuel, run body fuel a = some b) ↔
      ∃ n x, visit (next body) n a = some x ∧ body x = .stop b := by
  constructor
  · rintro ⟨fuel,h⟩
    induction fuel generalizing a with
    | zero => cases h
    | succ fuel ih =>
      rw [run] at h
      cases hbody : body a with
      | stop result =>
        rw [hbody] at h
        cases h
        exact ⟨0,a,rfl,hbody⟩
      | go a' =>
        rw [hbody] at h
        obtain ⟨n,x,hx,hstop⟩ := ih a' h
        refine ⟨n+1,x,?_,hstop⟩
        rw [visit,(next_eq_some body).mpr hbody]
        exact hx
  · rintro ⟨n,x,hx,hstop⟩
    exact ⟨n+1,run_of_visit body n a x b hx hstop⟩

theorem run_eq_none_iff (fuel : ℕ) (a : α) :
    run body fuel a = none ↔ ∃ x, visit (next body) fuel a = some x := by
  induction fuel generalizing a with
  | zero => exact ⟨fun _ => ⟨a,rfl⟩,fun _ => rfl⟩
  | succ fuel ih =>
    rw [run,visit]
    cases hbody : body a with
    | stop result => simp [next,hbody]
    | go a' => simpa [next,hbody] using ih a'

theorem run_mono (fuel fuel' : ℕ) (a : α) (b : β) (h : run body fuel a = some b)
    (hle : fuel ≤ fuel') : run body fuel' a = some b := by
  induction fuel generalizing a fuel' with
  | zero => cases h
  | succ fuel ih =>
    obtain ⟨fuel',rfl⟩ : ∃ k, fuel' = k+1 := ⟨fuel'-1,by omega⟩
    rw [run] at h ⊢
    cases hbody : body a with
    | stop result => rwa [hbody] at h
    | go a' =>
      rw [hbody] at h
      exact ih fuel' a' h (by omega)

theorem run_unique (fuel fuel' : ℕ) (a : α) (b b' : β) (h : run body fuel a = some b)
    (h' : run body fuel' a = some b') : b = b' := by
  have h1 := run_mono body fuel (max fuel fuel') a b h (Nat.le_max_left _ _)
  have h2 := run_mono body fuel' (max fuel fuel') a b' h' (Nat.le_max_right _ _)
  exact Option.some.inj (h1.symm.trans h2)

theorem run_ends_iff (a : α) :
    (∃ fuel b, run body fuel a = some b) ↔ ∃ n, visit (next body) n a = none := by
  constructor
  · rintro ⟨fuel,b,h⟩
    obtain ⟨n,x,hx,hstop⟩ := (run_iff body a b).mp ⟨fuel,h⟩
    have hnone : next body x = none := by rw [next,hstop]
    exact ⟨n+1,by rw [visit_add,hx,Option.bind_some,visit,hnone]; rfl⟩
  · rintro ⟨n,hend⟩
    induction n generalizing a with
    | zero => cases hend
    | succ n ih =>
      cases hbody : body a with
      | stop b => exact ⟨1,b,by rw [run,hbody]⟩
      | go a' =>
        rw [visit,(next_eq_some body).mpr hbody] at hend
        obtain ⟨fuel,b,h⟩ := ih a' hend
        exact ⟨fuel+1,b,by rw [run,hbody]; exact h⟩

/-- A loop returns something that is not bad exactly when its walk ends, and no state it
comes to stops it with something bad. -/
theorem run_avoids_iff (bad : β → Prop) (a : α) :
    (∃ fuel b, run body fuel a = some b ∧ ¬bad b) ↔
      (∃ n, visit (next body) n a = none) ∧
        ∀ n x b, visit (next body) n a = some x → body x = .stop b → ¬bad b := by
  constructor
  · rintro ⟨fuel,b,hrun,hgood⟩
    refine ⟨(run_ends_iff body a).mp ⟨fuel,b,hrun⟩,fun n x b' hvisit hstop => ?_⟩
    rwa [run_unique body _ _ a b' b (run_of_visit body n a x b' hvisit hstop) hrun]
  · rintro ⟨hends,hgood⟩
    obtain ⟨fuel,b,hrun⟩ := (run_ends_iff body a).mpr hends
    obtain ⟨n,x,hvisit,hstop⟩ := (run_iff body a b).mp ⟨fuel,hrun⟩
    exact ⟨fuel,b,hrun,hgood n x b hvisit hstop⟩

theorem run_partial (inv : α → Prop) (post : β → Prop) (hgo : ∀ a a', inv a → body a = .go a' → inv a')
    (hstop : ∀ a b, inv a → body a = .stop b → post b) (fuel : ℕ) (a : α) (b : β) (hinv : inv a)
    (h : run body fuel a = some b) : post b := by
  induction fuel generalizing a with
  | zero => cases h
  | succ fuel ih =>
    rw [run] at h
    cases hbody : body a with
    | stop result =>
      rw [hbody] at h
      cases h
      exact hstop a _ hinv hbody
    | go a' =>
      rw [hbody] at h
      exact ih a' (hgo a a' hinv hbody) h

theorem run_total (inv : α → Prop) (measure : α → ℕ)
    (hgo : ∀ a a', inv a → body a = .go a' → inv a' ∧ measure a' < measure a) (fuel : ℕ) (a : α)
    (hinv : inv a) (hfuel : measure a < fuel) : ∃ b, run body fuel a = some b := by
  induction fuel generalizing a with
  | zero => omega
  | succ fuel ih =>
    rw [run]
    cases hbody : body a with
    | stop result => exact ⟨result,rfl⟩
    | go a' =>
      have hnext := hgo a a' hinv hbody
      exact ih a' hnext.1 (by omega)

theorem run_reaches (inv : α → Prop) (measure : α → ℕ) (post : β → Prop)
    (h : ∀ a, inv a → (∃ a', body a = .go a' ∧ inv a' ∧ measure a' < measure a) ∨
      ∃ b, body a = .stop b ∧ post b) (fuel : ℕ) (a : α) (hinv : inv a)
    (hfuel : measure a < fuel) : ∃ b, run body fuel a = some b ∧ post b := by
  induction fuel generalizing a with
  | zero => omega
  | succ fuel ih =>
    rw [run]
    rcases h a hinv with ⟨a',hgo,hinv',hlt⟩|⟨b,hstop,hpost⟩
    · rw [hgo]
      exact ih a' hinv' (by omega)
    · rw [hstop]
      exact ⟨b,rfl,hpost⟩

/-- A loop over finitely many states returns exactly when no state comes twice. -/
theorem run_returns_iff [Finite α] (a : α) :
    (∃ fuel b, run body fuel a = some b) ↔ ¬Returns (next body) a :=
  (run_ends_iff body a).trans (ends_iff (next body) a)

end Loop

section Scan
variable {β : Type*} (width step stop : ℕ) (hit : ℕ → Prop) [DecidablePred hit]

/-- One turn of a scan over the multiples of a step, while a window of the given width is
left. -/
def scanTurn (done : Option ℕ → β) (offset : ℕ) : Turn ℕ β :=
  if offset+width ≤ stop then
    if hit offset then .stop (done (some offset)) else .go (offset+step)
  else .stop (done none)

def Place (offset : ℕ) : Prop := step∣offset ∧ offset+width ≤ stop ∧ hit offset

/-- The first number with a property, or none where no number has it. -/
def Finds (p : ℕ → Prop) : Option ℕ → Prop
  | some o => p o ∧ ∀ o' < o, ¬p o'
  | none => ∀ o, ¬p o

theorem finds_some_iff {p : ℕ → Prop} {r : Option ℕ} (h : Finds p r) (o : ℕ) :
    r = some o ↔ p o ∧ ∀ o' < o, ¬p o' := by
  constructor
  · intro hr
    subst hr
    exact h
  · intro ho
    cases r with
    | none => exact (h o ho.1).elim
    | some o' =>
      rcases Nat.lt_trichotomy o' o with hlt | heq | hlt
      · exact (ho.2 o' hlt h.1).elim
      · rw [heq]
      · exact (h.2 o hlt ho.1).elim

theorem finds_none_iff {p : ℕ → Prop} {r : Option ℕ} (h : Finds p r) :
    r = none ↔ ∀ o, ¬p o := by
  constructor
  · intro hr
    subst hr
    exact h
  · intro hnone
    cases r with
    | none => rfl
    | some o => exact (hnone o h.1).elim

theorem Finds.congr {p q : ℕ → Prop} {r : Option ℕ} (h : Finds p r) (hiff : ∀ o, p o ↔ q o) :
    Finds q r := by
  cases r with
  | none => exact fun o ho => h o ((hiff o).mpr ho)
  | some o => exact ⟨(hiff o).mp h.1,fun o' hlt ho => h.2 o' hlt ((hiff o').mpr ho)⟩

omit [DecidablePred hit] in
theorem scan_next {offset : ℕ} (hdvd : step∣offset)
    (hbefore : ∀ o < offset, ¬Place width step stop hit o) (hmiss : ¬hit offset) :
    ∀ o < offset+step, ¬Place width step stop hit o := by
  intro o ho hplace
  obtain ⟨k,rfl⟩ := hplace.1
  obtain ⟨j,rfl⟩ := hdvd
  have hlt : step*k < step*(j+1) := by
    rw [Nat.mul_succ]
    exact ho
  have hk : k ≤ j := Nat.le_of_lt_succ (Nat.lt_of_mul_lt_mul_left hlt)
  rcases Nat.lt_or_eq_of_le (Nat.mul_le_mul_left step hk) with hlt | heq
  · exact hbefore _ hlt hplace
  · exact hmiss (heq ▸ hplace.2.2)

/-- What a turn of a scan does: it goes on past a miss, stops at a hit, or is through. -/
theorem scanTurn_cases (done : Option ℕ → β) (offset : ℕ) :
    (offset+width ≤ stop ∧ hit offset ∧
      scanTurn width step stop hit done offset = .stop (done (some offset))) ∨
    (offset+width ≤ stop ∧ ¬hit offset ∧
      scanTurn width step stop hit done offset = .go (offset+step)) ∨
    (stop < offset+width ∧ scanTurn width step stop hit done offset = .stop (done none)) := by
  unfold scanTurn
  by_cases hw : offset+width ≤ stop
  · by_cases hh : hit offset
    · exact .inl ⟨hw,hh,by rw [if_pos hw,if_pos hh]⟩
    · exact .inr (.inl ⟨hw,hh,by rw [if_pos hw,if_neg hh]⟩)
  · exact .inr (.inr ⟨by omega,by rw [if_neg hw]⟩)

/-- What a scan returns is the first place: those in front of the offset have been missed. -/
theorem scan_partial (done : Option ℕ → β) (fuel : ℕ) (b : β)
    (h : run (scanTurn width step stop hit done) fuel 0 = some b) :
    ∃ r, b = done r ∧ Finds (Place width step stop hit) r := by
  refine run_partial (scanTurn width step stop hit done)
    (fun a => step∣a ∧ ∀ o < a, ¬Place width step stop hit o)
    (fun b => ∃ r, b = done r ∧ Finds (Place width step stop hit) r) ?_ ?_ fuel 0 b
    ⟨Nat.dvd_zero step,fun o ho => (Nat.not_lt_zero o ho).elim⟩ h
  · rintro a a' ⟨hdvd,hbefore⟩ hturn
    rcases scanTurn_cases width step stop hit done a with ⟨_,_,h⟩ | ⟨_,hmiss,h⟩ | ⟨_,h⟩ <;>
      rw [h] at hturn <;> cases hturn
    exact ⟨Nat.dvd_add hdvd (Nat.dvd_refl step),scan_next width step stop hit hdvd hbefore hmiss⟩
  · rintro a b ⟨hdvd,hbefore⟩ hturn
    rcases scanTurn_cases width step stop hit done a with ⟨hw,hh,h⟩ | ⟨_,_,h⟩ | ⟨hw,h⟩ <;>
      rw [h] at hturn <;> cases hturn
    · exact ⟨some a,rfl,⟨hdvd,hw,hh⟩,hbefore⟩
    · refine ⟨none,rfl,fun o hplace => ?_⟩
      rcases Nat.lt_or_ge o a with hlt | hge
      · exact hbefore o hlt hplace
      · have := hplace.2.1
        omega

theorem scan_finds (done : Option ℕ → β) (hstep : 0 < step) (hwidth : 0 < width) :
    ∃ r, Finds (Place width step stop hit) r ∧
      ∀ fuel, stop < fuel → run (scanTurn width step stop hit done) fuel 0 = some (done r) := by
  have htotal : ∃ b, run (scanTurn width step stop hit done) (stop+1) 0 = some b := by
    refine run_total _ (fun _ => True) (fun a => stop-a) ?_ (stop+1) 0 trivial (by omega)
    intro a a' _ hturn
    rcases scanTurn_cases width step stop hit done a with ⟨_,_,h⟩ | ⟨hw,_,h⟩ | ⟨_,h⟩ <;>
      rw [h] at hturn <;> cases hturn
    exact ⟨trivial,by omega⟩
  obtain ⟨b,hb⟩ := htotal
  obtain ⟨r,rfl,hr⟩ := scan_partial width step stop hit done _ b hb
  exact ⟨r,hr,fun fuel hfuel => run_mono _ _ fuel 0 _ hb hfuel⟩

end Scan

section Guard
variable {ε β : Type*}

theorem ok_past_guard {p : Prop} [Decidable p] {error : ε} {rest : Except ε β} {b : β}
    (h : (if p then .error error else rest) = .ok b) : ¬p ∧ rest = .ok b := by
  by_cases hp : p
  · rw [if_pos hp] at h
    cases h
  · rw [if_neg hp] at h
    exact ⟨hp,h⟩

end Guard

section Pass
variable {σ β : Type*} (step : σ → β → Option σ)

/-- A pass over a list gets through when every step does, where the state has no say. -/
theorem foldlM_isSome (Fits : β → Prop) (h : ∀ s b, (step s b).isSome ↔ Fits b) (l : List β)
    (s : σ) : (l.foldlM step s).isSome ↔ ∀ b ∈ l, Fits b := by
  induction l generalizing s with
  | nil => simp
  | cons b l ih =>
    rw [List.foldlM_cons,List.forall_mem_cons,← h s b]
    cases step s b with
    | none =>
      rw [Option.bind_eq_bind,Option.bind_none]
      exact ⟨fun hnone => (Bool.false_ne_true hnone).elim,fun hall => hall.1⟩
    | some next =>
      rw [Option.bind_eq_bind,Option.bind_some,ih next]
      exact ⟨fun hall => ⟨rfl,hall⟩,fun hall => hall.2⟩

end Pass

end Zamak.PartialSteps
