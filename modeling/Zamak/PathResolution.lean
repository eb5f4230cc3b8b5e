import Mathlib.Data.List.Basic

/-! # Following a path through directories

An entry may have a directory inside, and a directory answers a name with an entry or
with nothing. A path is followed name by name: it fails where an entry on the way has no
directory inside, and where a name has no answer. -/

set_option autoImplicit false

namespace Zamak.PathResolution

inductive Failure where
  | missing
  | notDirectory
  deriving DecidableEq

structure Directories (E D N : Type) where
  inside : E → Option D
  answer : D → N → Option E

variable {E D N : Type} (s : Directories E D N)

def resolve : E → List N → Except Failure E
  | e, [] => .ok e
  | e, name::names =>
    match s.inside e with
    | none => .error .notDirectory
    | some d =>
      match s.answer d name with
      | none => .error .missing
      | some next => resolve next names

theorem resolve_blocked (e : E) (name : N) (names : List N) (h : s.inside e = none) :
    resolve s e (name::names) = .error .notDirectory := by
  rw [resolve,h]

theorem resolve_missing (e : E) (d : D) (name : N) (names : List N) (h : s.inside e = some d)
    (hanswer : s.answer d name = none) : resolve s e (name::names) = .error .missing := by
  rw [resolve,h]
  simp only [hanswer]

theorem resolve_next (e next : E) (d : D) (name : N) (names : List N) (h : s.inside e = some d)
    (hanswer : s.answer d name = some next) :
    resolve s e (name::names) = resolve s next names := by
  rw [resolve,h]
  simp only [hanswer]

end Zamak.PathResolution
