import Mathlib.Logic.Function.Basic

/-! # Retry loops over a shared value

A caller reads a shared value, computes a new one from it and stores that with a compare
and exchange; when another value has been stored in between, it starts over. Callers run
interleaved, one load or one exchange at a time. What they are served is what one caller
alone is served, request by request, in the order of the exchanges that succeed. -/

set_option autoImplicit false

namespace Zamak.RetryLoops

inductive Phase (R S : Type) where
  | idle
  | asking (request : R)
  | holding (request : R) (seen : S)

/-- The shared value, where each caller stands, and what has been served so far. -/
structure System (C R S V : Type) where
  shared : S
  phase : C → Phase R S
  served : List (R × V)

inductive Act (C R : Type) where
  | call (caller : C) (request : R)
  | load (caller : C)
  | exchange (caller : C)

section Histories
variable {R S V : Type} (attempt : R → S → Option (S × V))

/-- Requests served one after the other, each from the value the one before left. -/
def Serves : S → List (R × V) → S → Prop
  | s, [], s' => s' = s
  | s, (request,result)::rest, s' =>
    ∃ next, attempt request s = some (next,result) ∧ Serves next rest s'

def serveAll : S → List R → S × List (R × V)
  | s, [] => (s,[])
  | s, request::requests =>
    match attempt request s with
    | none => serveAll s requests
    | some (next,result) =>
      ((serveAll next requests).1,(request,result)::(serveAll next requests).2)

theorem Serves.snoc {s m n : S} {served : List (R × V)} (h : Serves attempt s served m)
    (request : R) (result : V) (hnext : attempt request m = some (n,result)) :
    Serves attempt s (served++[(request,result)]) n := by
  induction served generalizing s with
  | nil =>
    cases h
    exact ⟨n,hnext,rfl⟩
  | cons first rest ih =>
    obtain ⟨next,hfirst,hrest⟩ := h
    exact ⟨next,hfirst,ih hrest⟩

theorem serveAll_serves (s : S) (requests : List R) :
    Serves attempt s (serveAll attempt s requests).2 (serveAll attempt s requests).1 := by
  induction requests generalizing s with
  | nil => rfl
  | cons request requests ih =>
    rw [serveAll]
    cases hattempt : attempt request s with
    | none => exact ih s
    | some outcome => exact ⟨outcome.1,hattempt,ih outcome.1⟩

/-- What every request keeps, together with its result, holds of all that is served. -/
theorem serves_keeps (inv : S → List (R × V) → Prop)
    (hstep : ∀ s served request next result, inv s served →
      attempt request s = some (next,result) → inv next (served++[(request,result)]))
    (s s' : S) (before served : List (R × V)) (hinv : inv s before)
    (h : Serves attempt s served s') : inv s' (before++served) := by
  induction served generalizing s before with
  | nil =>
    cases h
    rwa [List.append_nil]
  | cons first rest ih =>
    obtain ⟨next,hfirst,hrest⟩ := h
    have hnext := hstep s before first.1 next first.2 hinv hfirst
    have hall := ih next (before++[first]) hnext hrest
    rwa [List.append_assoc] at hall

end Histories

section Steps
variable {C R S V : Type} [DecidableEq C] [DecidableEq S]

def start (s : S) : System C R S V := ⟨s,fun _ => .idle,[]⟩

def System.moveTo (sys : System C R S V) (caller : C) (phase : Phase R S) : System C R S V :=
  { sys with phase := Function.update sys.phase caller phase }

variable (attempt : R → S → Option (S × V))

/-- A load ends in failure when nothing can be computed from the value read. -/
def load (sys : System C R S V) (caller : C) : System C R S V :=
  match sys.phase caller with
  | .asking request =>
    match attempt request sys.shared with
    | none => sys.moveTo caller .idle
    | some _ => sys.moveTo caller (.holding request sys.shared)
  | .idle => sys
  | .holding _ _ => sys

def exchange (sys : System C R S V) (caller : C) : System C R S V :=
  match sys.phase caller with
  | .holding request seen =>
    if sys.shared = seen then
      match attempt request seen with
      | none => sys.moveTo caller .idle
      | some (new,result) =>
        { shared := new
          phase := Function.update sys.phase caller .idle
          served := sys.served++[(request,result)] }
    else sys.moveTo caller (.asking request)
  | .idle => sys
  | .asking _ => sys

def step (sys : System C R S V) : Act C R → System C R S V
  | .call caller request =>
    match sys.phase caller with
    | .idle => sys.moveTo caller (.asking request)
    | .asking _ => sys
    | .holding _ _ => sys
  | .load caller => load attempt sys caller
  | .exchange caller => exchange attempt sys caller

def run (sys : System C R S V) : List (Act C R) → System C R S V
  | [] => sys
  | act::acts => run (step attempt sys act) acts

theorem step_cases (sys : System C R S V) (act : Act C R) :
    ((step attempt sys act).shared = sys.shared ∧ (step attempt sys act).served = sys.served) ∨
    ∃ request new result, attempt request sys.shared = some (new,result) ∧
      (step attempt sys act).shared = new ∧
      (step attempt sys act).served = sys.served++[(request,result)] := by
  cases act with
  | call caller request =>
    rw [step]
    cases sys.phase caller <;> exact Or.inl ⟨rfl,rfl⟩
  | load caller =>
    rw [step,load]
    cases sys.phase caller with
    | idle => exact Or.inl ⟨rfl,rfl⟩
    | holding request seen => exact Or.inl ⟨rfl,rfl⟩
    | asking request =>
      dsimp only
      cases attempt request sys.shared <;> exact Or.inl ⟨rfl,rfl⟩
  | exchange caller =>
    rw [step,exchange]
    cases sys.phase caller with
    | idle => exact Or.inl ⟨rfl,rfl⟩
    | asking request => exact Or.inl ⟨rfl,rfl⟩
    | holding request seen =>
      dsimp only
      by_cases hsame : sys.shared = seen
      · rw [if_pos hsame,← hsame]
        cases hattempt : attempt request sys.shared with
        | none => exact Or.inl ⟨rfl,rfl⟩
        | some outcome => exact Or.inr ⟨request,outcome.1,outcome.2,hattempt,rfl,rfl⟩
      · rw [if_neg hsame]
        exact Or.inl ⟨rfl,rfl⟩

theorem run_serves_from (s : S) (sys : System C R S V)
    (h : Serves attempt s sys.served sys.shared) (acts : List (Act C R)) :
    Serves attempt s (run attempt sys acts).served (run attempt sys acts).shared := by
  induction acts generalizing sys with
  | nil => exact h
  | cons act acts ih =>
    apply ih
    rcases step_cases attempt sys act with
      ⟨hshared,hserved⟩ | ⟨request,new,result,hnew,hshared,hserved⟩
    · rwa [hshared,hserved]
    · rw [hshared,hserved]
      exact Serves.snoc attempt h request result hnew

theorem run_serves (s : S) (acts : List (Act C R)) :
    Serves attempt s (run attempt (start s : System C R S V) acts).served
      (run attempt (start s : System C R S V) acts).shared :=
  run_serves_from attempt s (start s) rfl acts

def alone (caller : C) : List R → List (Act C R)
  | [] => []
  | request::requests => .call caller request::.load caller::.exchange caller::alone caller requests

theorem run_one (sys : System C R S V) (caller : C) (hidle : sys.phase caller = .idle)
    (request : R) (new : S) (result : V)
    (hnew : attempt request sys.shared = some (new,result)) :
    ∃ phase, step attempt (step attempt (step attempt sys (.call caller request)) (.load caller))
      (.exchange caller) = ⟨new,phase,sys.served++[(request,result)]⟩ ∧ phase caller = .idle := by
  have hcall : step attempt sys (.call caller request) = sys.moveTo caller (.asking request) := by
    rw [step,hidle]
  have hload : step attempt (sys.moveTo caller (.asking request)) (.load caller) =
      (sys.moveTo caller (.asking request)).moveTo caller (.holding request sys.shared) := by
    simp only [step,load,System.moveTo,Function.update_self,hnew]
  rw [hcall,hload]
  simp only [step,exchange,System.moveTo,Function.update_self,if_true,hnew]
  exact ⟨_,rfl,Function.update_self _ _ _⟩

theorem run_alone (caller : C) (served : List (R × V)) (s' : S) (sys : System C R S V)
    (hidle : sys.phase caller = .idle) (h : Serves attempt sys.shared served s') :
    (run attempt sys (alone caller (served.map Prod.fst))).shared = s' ∧
    (run attempt sys (alone caller (served.map Prod.fst))).served = sys.served++served := by
  induction served generalizing sys with
  | nil => exact ⟨h.symm,(List.append_nil _).symm⟩
  | cons first rest ih =>
    obtain ⟨request,result⟩ := first
    obtain ⟨next,hfirst,hrest⟩ := h
    obtain ⟨phase,hone,hback⟩ := run_one attempt sys caller hidle request next result hfirst
    have hrun : run attempt sys (alone caller (((request,result)::rest).map Prod.fst)) =
        run attempt ⟨next,phase,sys.served++[(request,result)]⟩
          (alone caller (rest.map Prod.fst)) := by
      rw [← hone]
      rfl
    have hboth := ih ⟨next,phase,sys.served++[(request,result)]⟩ hback hrest
    rw [hrun,hboth.1,hboth.2,List.append_assoc]
    exact ⟨rfl,rfl⟩

theorem exists_run (caller : C) (s s' : S) (served : List (R × V))
    (h : Serves attempt s served s') : ∃ acts : List (Act C R),
      (run attempt (start s : System C R S V) acts).served = served :=
  ⟨_,(run_alone attempt caller served s' (start s) rfl h).2⟩

end Steps

end Zamak.RetryLoops
