import Mathlib.Algebra.BigOperators.Group.List.Basic
import Mathlib.Algebra.GroupWithZero.Nat

/-! # Outlines

A listing of an outline shows a node in each line and under an open node its children. Whether
a node is open may depend on the line that it is shown in, so a node that moves down may open
or close. The nodes still to be shown are a list, and what the lines before did to it is all
that a line depends on. -/

set_option autoImplicit false

namespace Zamak.Outlines

/-- Nodes with their children, which weigh less together than their parent. -/
structure Outline (N : Type) where
  children : N → List N
  weight : N → ℕ
  lighter : ∀ n, ((children n).map weight).sum < weight n

variable {N : Type} (o : Outline N)

def next (opens : ℕ → N → Bool) (i : ℕ) (n : N) (rest : List N) : List N :=
  if opens i n then o.children n++rest else rest

theorem next_lighter (opens : ℕ → N → Bool) (i : ℕ) (n : N) (rest : List N) :
    ((next o opens i n rest).map o.weight).sum < ((n::rest).map o.weight).sum := by
  have hn := o.lighter n
  rw [List.map_cons,List.sum_cons]
  unfold next
  split
  · rw [List.map_append,List.sum_append]
    omega
  · omega

/-- The lines from a given one on: a node and whether it is open. -/
def listing (opens : ℕ → N → Bool) (i : ℕ) : List N → List (N × Bool)
  | [] => []
  | n::rest => (n,opens i n)::listing opens (i+1) (next o opens i n rest)
termination_by pending => (pending.map o.weight).sum
decreasing_by exact next_lighter o opens i n rest

def pending (opens : ℕ → N → Bool) : ℕ → List N → ℕ → List N
  | _, nodes, 0 => nodes
  | _, [], _+1 => []
  | i, n::rest, j+1 => pending opens (i+1) (next o opens i n rest) j

section Lines
variable (opens opens' : ℕ → N → Bool)

theorem listing_nil (i : ℕ) : listing o opens i [] = [] := by
  rw [listing]

theorem listing_cons (i : ℕ) (n : N) (rest : List N) :
    listing o opens i (n::rest) =
      (n,opens i n)::listing o opens (i+1) (next o opens i n rest) := by
  rw [listing]

theorem listing_append (i : ℕ) (a b : List N) :
    listing o opens i (a++b) =
      listing o opens i a++listing o opens (i+(listing o opens i a).length) b := by
  fun_induction listing o opens i a with
  | case1 i => simp
  | case2 i n rest ih =>
    have hnext : next o opens i n (rest++b) = next o opens i n rest++b := by
      unfold next
      split
      · rw [List.append_assoc]
      · rfl
    rw [List.cons_append,listing_cons,hnext,ih,List.length_cons,List.cons_append,
      Nat.add_assoc i 1,Nat.add_comm 1]

/-- Lines from two places are the same exactly when each node shown is as open in one as in
the other. -/
theorem listing_eq_iff (i k : ℕ) (nodes : List N) :
    listing o opens' k nodes = listing o opens i nodes ↔
      ∀ j line, (listing o opens i nodes)[j]? = some line →
        opens' (k+j) line.1 = opens (i+j) line.1 := by
  fun_induction listing o opens i nodes generalizing k with
  | case1 i => simp [listing_nil]
  | case2 i n rest ih =>
    have hfirst : opens' k n = opens i n →
        next o opens' k n rest = next o opens i n rest := by
      intro h
      rw [next,next,h]
    rw [listing_cons,List.cons.injEq]
    constructor
    · rintro ⟨hline,hrest⟩ j line hj
      have hopen : opens' k n = opens i n := congrArg Prod.snd hline
      rw [hfirst hopen] at hrest
      cases j with
      | zero =>
        rw [← Option.some.inj hj]
        exact hopen
      | succ j =>
        have hlater := (ih (k+1)).mp hrest j line hj
        rwa [Nat.add_assoc,Nat.add_assoc,Nat.add_comm 1 j] at hlater
    · intro h
      have hopen : opens' k n = opens i n := h 0 (n,opens i n) rfl
      refine ⟨by rw [hopen],?_⟩
      rw [hfirst hopen]
      apply (ih (k+1)).mpr
      intro j line hj
      have hlater := h (j+1) line hj
      rwa [Nat.add_assoc,Nat.add_assoc,Nat.add_comm 1 j]

theorem listing_drop (i : ℕ) (nodes : List N) (j : ℕ) :
    (listing o opens i nodes).drop j = listing o opens (i+j) (pending o opens i nodes j) := by
  induction j generalizing i nodes with
  | zero => simp [pending]
  | succ j ih =>
    cases nodes with
    | nil => simp [pending,listing_nil]
    | cons n rest =>
      rw [listing_cons,List.drop_succ_cons,ih,pending,Nat.add_assoc,Nat.add_comm 1 j]

theorem pending_of_line (i : ℕ) (nodes : List N) (j : ℕ) (line : N × Bool)
    (h : (listing o opens i nodes)[j]? = some line) :
    ∃ rest, pending o opens i nodes j = line.1::rest ∧ line.2 = opens (i+j) line.1 := by
  have hdrop := listing_drop o opens i nodes j
  rw [← List.head?_drop,hdrop] at h
  cases hpending : pending o opens i nodes j with
  | nil => simp [hpending,listing_nil] at h
  | cons n rest =>
    rw [hpending,listing_cons] at h
    rw [← Option.some.inj h]
    exact ⟨rest,rfl,rfl⟩

theorem listing_take (i : ℕ) (nodes : List N) (j : ℕ)
    (hsame : ∀ p < i+j, ∀ n, opens' p n = opens p n) :
    (listing o opens' i nodes).take j = (listing o opens i nodes).take j ∧
      pending o opens' i nodes j = pending o opens i nodes j := by
  induction j generalizing i nodes with
  | zero => exact ⟨rfl,rfl⟩
  | succ j ih =>
    cases nodes with
    | nil => exact ⟨by rw [listing_nil,listing_nil],rfl⟩
    | cons n rest =>
      have hn : opens' i n = opens i n := hsame i (by omega) n
      have hnext : next o opens' i n rest = next o opens i n rest := by
        rw [next,next,hn]
      obtain ⟨hlines,hpending⟩ := ih (i+1) (next o opens i n rest)
        (fun p hp => hsame p (by omega))
      rw [listing_cons,listing_cons,List.take_succ_cons,List.take_succ_cons,hn,hnext,hlines,
        pending,pending,hnext,hpending]
      exact ⟨rfl,rfl⟩

theorem pending_keeps (inv : List N → Prop)
    (hstep : ∀ n rest, inv (n::rest) → inv rest ∧ inv (o.children n++rest)) (hnil : inv [])
    (i : ℕ) (nodes : List N) (j : ℕ) (h : inv nodes) : inv (pending o opens i nodes j) := by
  induction j generalizing i nodes with
  | zero => exact h
  | succ j ih =>
    cases nodes with
    | nil => exact hnil
    | cons n rest =>
      apply ih
      unfold next
      split
      · exact (hstep n rest h).2
      · exact (hstep n rest h).1

theorem listing_keeps (p : N → Prop) (hchildren : ∀ n, p n → ∀ c ∈ o.children n, p c) (i : ℕ)
    (nodes : List N) (hnodes : ∀ n ∈ nodes, p n) : ∀ line ∈ listing o opens i nodes, p line.1 := by
  intro line hline
  obtain ⟨j,hj⟩ := List.mem_iff_getElem?.mp hline
  obtain ⟨rest,hpending,-⟩ := pending_of_line o opens i nodes j line hj
  have hkept := pending_keeps o opens (fun nodes => ∀ n ∈ nodes, p n)
    (fun n rest h => ⟨fun m hm => h m (List.mem_cons_of_mem n hm),fun m hm => by
      rcases List.mem_append.mp hm with hm | hm
      · exact hchildren n (h n List.mem_cons_self) m hm
      · exact h m (List.mem_cons_of_mem n hm)⟩) (fun n hn => absurd hn List.not_mem_nil)
    i nodes j hnodes
  apply hkept
  rw [hpending]
  exact List.mem_cons_self

/-- A closed node that is opened shows its children, and what follows moves down. -/
theorem listing_opened (i : ℕ) (nodes : List N) (j : ℕ) (n : N) (rest : List N)
    (hpending : pending o opens i nodes j = n::rest)
    (hsame : ∀ p < i+j, ∀ n, opens' p n = opens p n) (hopen : opens' (i+j) n = true) :
    listing o opens' i nodes = (listing o opens i nodes).take j++(n,true)::
      (listing o opens' (i+j+1) (o.children n)++
        listing o opens' (i+j+1+(listing o opens' (i+j+1) (o.children n)).length) rest) := by
  obtain ⟨htake,hsamePending⟩ := listing_take o opens opens' i nodes j hsame
  rw [← List.take_append_drop j (listing o opens' i nodes),htake,listing_drop,hsamePending,
    hpending,listing_cons,hopen,next,if_pos hopen,listing_append]

theorem listing_closed (i : ℕ) (nodes : List N) (j : ℕ) (n : N) (rest : List N)
    (hpending : pending o opens i nodes j = n::rest) (hclosed : opens (i+j) n = false) :
    (listing o opens i nodes).drop (j+1) = listing o opens (i+j+1) rest := by
  rw [← List.drop_drop,listing_drop,hpending,listing_cons,List.drop_one,List.tail_cons,next,
    if_neg (by simp [hclosed])]

end Lines

/-- Two ways to split a list into items of one kind and a rest that does not begin with one
are the same. -/
theorem split_unique {A : Type} (kind : A → Prop) (a a' b b' : List A) (ha : ∀ x ∈ a, kind x)
    (ha' : ∀ x ∈ a', kind x) (hb : ∀ x ∈ b.head?, ¬kind x) (hb' : ∀ x ∈ b'.head?, ¬kind x)
    (h : a++b = a'++b') : a = a' ∧ b = b' := by
  induction a generalizing a' with
  | nil =>
    cases a' with
    | nil => exact ⟨rfl,h⟩
    | cons x a' =>
      rw [List.nil_append] at h
      exact absurd (ha' x List.mem_cons_self) (hb x (by rw [h]; rfl))
  | cons x a ih =>
    cases a' with
    | nil =>
      rw [List.nil_append] at h
      exact absurd (ha x List.mem_cons_self) (hb' x (by rw [← h]; rfl))
    | cons y a' =>
      obtain ⟨hxy,hrest⟩ := List.cons.inj h
      obtain ⟨haa,hbb⟩ := ih a' (fun z hz => ha z (List.mem_cons_of_mem x hz))
        (fun z hz => ha' z (List.mem_cons_of_mem y hz)) hrest
      exact ⟨by rw [hxy,haa],hbb⟩

end Zamak.Outlines
