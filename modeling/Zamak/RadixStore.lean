import Mathlib.Logic.Function.Basic
import Mathlib.Data.List.Basic

/-! # Radix trees in a store of frames

A radix tree of a fixed depth kept in numbered frames. An inner entry holds the
frame below it, a last entry holds a datum, and a frame is taken from an
allocator the first time a path needs it. The allocator may fail at any point
and leave a path half built. -/

set_option autoImplicit false

namespace Zamak.RadixStore

variable {Frame Index Entry σ : Type*}

/-- How inner entries are read and written: `present` is the test made before a
path is extended, `table` the one made when a path is followed. -/
structure Codec (Frame Entry : Type*) where
  present : Entry → Bool
  table : Entry → Bool
  link : Frame → Entry
  follow : Entry → Frame
  empty : Entry

structure Lawful (c : Codec Frame Entry) (Good : Frame → Prop) : Prop where
  empty_absent : c.present c.empty = false
  table_present : ∀ e, c.table e = true → c.present e = true
  link_table : ∀ f, Good f → c.table (c.link f) = true
  follow_link : ∀ f, Good f → c.follow (c.link f) = f

def outcome (alloc : σ → Option Frame × σ) : σ → ℕ → Option Frame
  | a, 0 => (alloc a).1
  | a, n+1 => outcome alloc (alloc a).2 n

structure Honest (alloc : σ → Option Frame × σ) (Good : Frame → Prop) (a : σ) : Prop where
  good : ∀ n f, outcome alloc a n = some f → Good f
  distinct : ∀ m n f, outcome alloc a m = some f → outcome alloc a n = some f → m = n

structure Arena (Frame Index Entry σ : Type*) where
  allocator : σ
  tables : Frame → Index → Entry

theorem honest_tail (alloc : σ → Option Frame × σ) (Good : Frame → Prop) (a : σ)
    (h : Honest alloc Good a) : Honest alloc Good (alloc a).2 := by
  constructor
  · intro n f hf
    exact h.good (n+1) f hf
  · intro m n f hm hn
    have hs := h.distinct (m+1) (n+1) f hm hn
    omega

theorem honest_head (alloc : σ → Option Frame × σ) (Good : Frame → Prop) (a : σ)
    (h : Honest alloc Good a) (f : Frame) (hf : (alloc a).1 = some f) :
    Good f ∧ ∀ n, outcome alloc (alloc a).2 n ≠ some f := by
  constructor
  · exact h.good 0 f hf
  · intro n hn
    have hs := h.distinct 0 (n+1) f hf hn
    omega

variable [DecidableEq Frame]

def clear (c : Codec Frame Entry) (m : Frame → Index → Entry) (t : Frame) :
    Frame → Index → Entry :=
  Function.update m t (fun _ => c.empty)

theorem clear_same (c : Codec Frame Entry) (m : Frame → Index → Entry) (t : Frame)
    (i : Index) : clear c m t t i = c.empty := by
  simp [clear]

theorem clear_frame (c : Codec Frame Entry) (m : Frame → Index → Entry) (t u : Frame)
    (i : Index) (h : u ≠ t) : clear c m t u i = m u i := by
  simp [clear,h]

variable [DecidableEq Index]

def write (m : Frame → Index → Entry) (t : Frame) (i : Index) (e : Entry) :
    Frame → Index → Entry :=
  Function.update m t (Function.update (m t) i e)

theorem write_same (m : Frame → Index → Entry) (t : Frame) (i : Index) (e : Entry) :
    write m t i e t i = e := by
  simp [write]

theorem write_frame (m : Frame → Index → Entry) (t u : Frame) (i j : Index) (e : Entry)
    (h : u ≠ t ∨ j ≠ i) : write m t i e u j = m u j := by
  by_cases hu : u = t
  · subst hu
    have hj : j ≠ i := by
      rcases h with h | h
      · exact absurd rfl h
      · exact h
    simp [write,hj]
  · simp [write,hu]

def descend (c : Codec Frame Entry) (alloc : σ → Option Frame × σ) :
    List Index → Frame → Arena Frame Index Entry σ →
      Option Frame × Arena Frame Index Entry σ
  | [], t, s => (some t,s)
  | i::rest, t, s =>
    if c.present (s.tables t i) then
      descend c alloc rest (c.follow (s.tables t i)) s
    else
      match alloc s.allocator with
      | (none,a) => (none,{ s with allocator := a })
      | (some child,a) =>
        descend c alloc rest child
          { allocator := a, tables := write (clear c s.tables child) t i (c.link child) }

/-- Extends the path and writes the last entry. Frames taken before a failure stay
linked. -/
def install (c : Codec Frame Entry) (alloc : σ → Option Frame × σ) (path : List Index)
    (last : Index) (e : Entry) (root : Frame) (s : Arena Frame Index Entry σ) :
    Option Unit × Arena Frame Index Entry σ :=
  match descend c alloc path root s with
  | (none,s') => (none,s')
  | (some t,s') => (some (),{ s' with tables := write s'.tables t last e })

def lookup (c : Codec Frame Entry) (m : Frame → Index → Entry) :
    List Index → Index → Frame → Option Entry
  | [], last, t => if c.present (m t last) then some (m t last) else none
  | i::rest, last, t =>
    if c.table (m t i) then lookup c m rest last (c.follow (m t i)) else none

end Zamak.RadixStore
