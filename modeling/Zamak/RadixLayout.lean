import Zamak.RadixStore

/-! # The directory a radix store realises

The abstract side of a radix store: a directory from paths to frames, and a
table of last entries. Extending a path, failing in the middle of it, and
writing a last entry each keep the layout, and a lookup in the store reads the
table of last entries. Neither the codec nor the store occurs in the directory,
so two codecs over one allocator build the same one. -/

set_option autoImplicit false

namespace Zamak.RadixLayout
open Zamak.RadixStore

variable {Frame Index Entry σ : Type*}

structure Directory (Frame Index σ : Type*) where
  place : List Index → Option Frame
  allocator : σ

/-- A frame stands for at most one path, and is never handed out again. -/
structure Sound (alloc : σ → Option Frame × σ) (Good : Frame → Prop) (root : Frame)
    (d : Directory Frame Index σ) : Prop where
  honest : Honest alloc Good d.allocator
  root_place : d.place [] = some root
  closed : ∀ p i, d.place p = none → d.place (p++[i]) = none
  injective : ∀ p q f, d.place p = some f → d.place q = some f → p = q
  good : ∀ p f, d.place p = some f → Good f
  unused : ∀ p f n, d.place p = some f → outcome alloc d.allocator n ≠ some f

/-- The store realises a directory whose last entries, at depth `depth`, are
`content`. -/
structure Layout (c : Codec Frame Entry) (depth : ℕ) (s : Arena Frame Index Entry σ)
    (d : Directory Frame Index σ) (content : List Index → Entry) : Prop where
  allocator_eq : s.allocator = d.allocator
  inner : ∀ p t i, p.length < depth → d.place p = some t →
    s.tables t i = (d.place (p++[i])).elim c.empty c.link
  leaf : ∀ p t i, p.length = depth → d.place p = some t → s.tables t i = content (p++[i])
  bare : ∀ p i, p.length = depth → d.place p = none → content (p++[i]) = c.empty

section Layout
variable {c : Codec Frame Entry} {alloc : σ → Option Frame × σ} {Good : Frame → Prop}
  {depth : ℕ} {root : Frame} {s : Arena Frame Index Entry σ}
  {d : Directory Frame Index σ} {content : List Index → Entry}

theorem closed_append (h : Sound alloc Good root d) (p q : List Index)
    (hp : d.place p = none) : d.place (p++q) = none := by
  induction q generalizing p with
  | nil => simpa using hp
  | cons i q ih =>
    have hi := ih (p++[i]) (h.closed p i hp)
    simpa using hi

theorem fresh_unplaced (h : Sound alloc Good root d) (child : Frame)
    (hc : (alloc d.allocator).1 = some child) (p : List Index) (t : Frame)
    (hp : d.place p = some t) : t ≠ child := by
  intro ht
  subst ht
  exact h.unused p t 0 hp hc

theorem sound_exhausted (h : Sound alloc Good root d) :
    Sound alloc Good root { d with allocator := (alloc d.allocator).2 } where
  honest := honest_tail alloc Good d.allocator h.honest
  root_place := h.root_place
  closed := h.closed
  injective := h.injective
  good := h.good
  unused := fun p f n hp => h.unused p f (n+1) hp

def rootOnly (root : Frame) (a : σ) : Directory Frame Index σ :=
  { place := fun p => if p = [] then some root else none, allocator := a }

theorem rootOnly_cases (p : List Index) (a : σ) (f : Frame)
    (h : (rootOnly root a).place p = some f) : p = [] ∧ f = root := by
  by_cases hp : p = []
  · subst hp
    have hf : root = f := by simpa [rootOnly] using h
    exact ⟨rfl,hf.symm⟩
  · simp [rootOnly,hp] at h

theorem sound_rootOnly (a : σ) (ha : Honest alloc Good a) (hr : (alloc a).1 = some root) :
    Sound alloc Good root (rootOnly root (alloc a).2 : Directory Frame Index σ) := by
  have hh := honest_head alloc Good a ha root hr
  constructor
  · exact honest_tail alloc Good a ha
  · rfl
  · intro p i _
    simp [rootOnly]
  · intro p q f hp hq
    rw [(rootOnly_cases p _ f hp).1,(rootOnly_cases q _ f hq).1]
  · intro p f hp
    rw [(rootOnly_cases p _ f hp).2]
    exact hh.1
  · intro p f n hp
    rw [(rootOnly_cases p _ f hp).2]
    exact hh.2 n

theorem layout_exhausted (alloc : σ → Option Frame × σ)
    (h : Layout c depth s d content) :
    Layout c depth { s with allocator := (alloc s.allocator).2 }
      { d with allocator := (alloc d.allocator).2 } content where
  allocator_eq := by rw [h.allocator_eq]
  inner := h.inner
  leaf := h.leaf
  bare := h.bare

theorem empty_not_table (hl : Lawful c Good) : c.table c.empty = false := by
  by_contra ht
  have hp := hl.table_present c.empty (by simpa using ht)
  rw [hl.empty_absent] at hp
  exact Bool.noConfusion hp

theorem lookup_content (hl : Lawful c Good) (hs : Sound alloc Good root d)
    (h : Layout c depth s d content) (path p : List Index) (last : Index)
    (t : Frame) (hp : d.place p = some t) (hd : p.length+path.length = depth) :
    lookup c s.tables path last t =
      if c.present (content (p++path++[last])) then some (content (p++path++[last]))
      else none := by
  induction path generalizing p t with
  | nil =>
    have hd' : p.length = depth := by simpa using hd
    rw [lookup,h.leaf p t last hd' hp,List.append_nil]
  | cons i path ih =>
    rw [List.length_cons] at hd
    have hi := h.inner p t i (by omega) hp
    have he : p++i::path = p++[i]++path := by simp
    rw [lookup,hi,he]
    cases hq : d.place (p++[i]) with
    | none =>
      have hc := closed_append hs (p++[i]) path hq
      rw [h.bare (p++[i]++path) last (by simp; omega) hc]
      simp [empty_not_table hl,hl.empty_absent]
    | some f =>
      have hg := hs.good (p++[i]) f hq
      have hr := ih (p++[i]) f hq (by simp; omega)
      simpa [hl.link_table f hg,hl.follow_link f hg] using hr

variable [DecidableEq Index]

def grown (alloc : σ → Option Frame × σ) (d : Directory Frame Index σ)
    (path : List Index) (child : Frame) : Directory Frame Index σ :=
  { place := Function.update d.place path (some child), allocator := (alloc d.allocator).2 }

theorem grown_cases (path p : List Index) (child f : Frame)
    (h : (grown alloc d path child).place p = some f) :
    (p = path ∧ f = child) ∨ (p ≠ path ∧ d.place p = some f) := by
  by_cases hp : p = path
  · subst hp
    have hf : child = f := by simpa [grown] using h
    exact Or.inl ⟨rfl,hf.symm⟩
  · exact Or.inr ⟨hp,by simpa [grown,hp] using h⟩

theorem grown_none (path p : List Index) (child : Frame)
    (h : (grown alloc d path child).place p = none) : p ≠ path ∧ d.place p = none := by
  by_cases hp : p = path
  · subst hp
    simp [grown] at h
  · exact ⟨hp,by simpa [grown,hp] using h⟩

theorem sound_grown (h : Sound alloc Good root d) (p : List Index) (t child : Frame)
    (i : Index) (hp : d.place p = some t) (hc : (alloc d.allocator).1 = some child) :
    Sound alloc Good root (grown alloc d (p++[i]) child) := by
  have hfresh := fresh_unplaced h child hc
  have hhead := honest_head alloc Good d.allocator h.honest child hc
  constructor
  · exact honest_tail alloc Good d.allocator h.honest
  · show Function.update d.place (p++[i]) (some child) [] = some root
    rw [Function.update_of_ne (by simp)]
    exact h.root_place
  · intro q j hq
    have hq' := (grown_none (p++[i]) q child hq).2
    have hne : q++[j] ≠ p++[i] := by
      intro he
      rw [(List.append_inj' he rfl).1,hp] at hq'
      simp at hq'
    show Function.update d.place (p++[i]) (some child) (q++[j]) = none
    rw [Function.update_of_ne hne]
    exact h.closed q j hq'
  · intro q r f hq hr
    rcases grown_cases _ q child f hq with ⟨hq,hf⟩ | ⟨_,hq⟩
    · rcases grown_cases _ r child f hr with ⟨hr,_⟩ | ⟨_,hr⟩
      · rw [hq,hr]
      · exact absurd hf (hfresh r f hr)
    · rcases grown_cases _ r child f hr with ⟨_,hf⟩ | ⟨_,hr⟩
      · exact absurd hf (hfresh q f hq)
      · exact h.injective q r f hq hr
  · intro q f hq
    rcases grown_cases _ q child f hq with ⟨_,hf⟩ | ⟨_,hq⟩
    · rw [hf]
      exact hhead.1
    · exact h.good q f hq
  · intro q f n hq
    rcases grown_cases _ q child f hq with ⟨_,hf⟩ | ⟨_,hq⟩
    · rw [hf]
      exact hhead.2 n
    · exact h.unused q f (n+1) hq

variable [DecidableEq Frame]

def bareRoot (c : Codec Frame Entry) (root : Frame) (a : σ) (m : Frame → Index → Entry) :
    Arena Frame Index Entry σ :=
  { allocator := a, tables := clear c m root }

omit [DecidableEq Index] in
theorem layout_bareRoot (depth : ℕ) (a : σ) (m : Frame → Index → Entry) :
    Layout c depth (bareRoot c root a m) (rootOnly root a) (fun _ => c.empty) := by
  constructor
  · rfl
  · intro p t i _ hp
    obtain ⟨hp,ht⟩ := rootOnly_cases p a t hp
    subst hp ht
    exact clear_same c m t i
  · intro p t i _ hp
    obtain ⟨hp,ht⟩ := rootOnly_cases p a t hp
    subst hp ht
    exact clear_same c m t i
  · intro p i _ _
    rfl

def linked (c : Codec Frame Entry) (alloc : σ → Option Frame × σ)
    (s : Arena Frame Index Entry σ) (t : Frame) (i : Index) (child : Frame) :
    Arena Frame Index Entry σ :=
  { allocator := (alloc s.allocator).2,
    tables := write (clear c s.tables child) t i (c.link child) }

theorem linked_old (h : Sound alloc Good root d) (p q : List Index) (t u child : Frame)
    (i j : Index) (hp : d.place p = some t) (hc : (alloc d.allocator).1 = some child)
    (hq : d.place q = some u) (hne : q++[j] ≠ p++[i]) :
    (linked c alloc s t i child).tables u j = s.tables u j := by
  have hu : u ≠ t ∨ j ≠ i := by
    by_cases hut : u = t
    · right
      intro hj
      subst hut hj
      rw [h.injective q p u hq hp] at hne
      exact hne rfl
    · exact Or.inl hut
  show write (clear c s.tables child) t i (c.link child) u j = s.tables u j
  rw [write_frame _ _ _ _ _ _ hu,clear_frame _ _ _ _ _ (fresh_unplaced h child hc q u hq)]

theorem linked_child (t child : Frame) (i j : Index) (h : t ≠ child) :
    (linked c alloc s t i child).tables child j = c.empty := by
  show write (clear c s.tables child) t i (c.link child) child j = c.empty
  rw [write_frame _ _ _ _ _ _ (Or.inl h.symm),clear_same]

theorem layout_linked (hs : Sound alloc Good root d) (h : Layout c depth s d content)
    (p : List Index) (t child : Frame) (i : Index) (hp : d.place p = some t)
    (hd : p.length < depth) (hn : d.place (p++[i]) = none)
    (hc : (alloc d.allocator).1 = some child) :
    Layout c depth (linked c alloc s t i child) (grown alloc d (p++[i]) child) content := by
  have hfresh := fresh_unplaced hs child hc p t hp
  constructor
  · show (alloc s.allocator).2 = (alloc d.allocator).2
    rw [h.allocator_eq]
  · intro q u j hlen hq
    show _ = (Function.update d.place (p++[i]) (some child) (q++[j])).elim c.empty c.link
    rcases grown_cases _ q child u hq with ⟨hq,hu⟩ | ⟨_,hq⟩
    · subst hq hu
      rw [linked_child t u i j hfresh,Function.update_of_ne (by simp),hs.closed _ j hn]
      rfl
    · by_cases hqi : q++[j] = p++[i]
      · have hpq := List.append_inj' hqi rfl
        have hji : j = i := by simpa using hpq.2
        have hut : t = u := by
          rw [hpq.1,hp] at hq
          exact Option.some.inj hq
        subst hji hut
        rw [hqi,Function.update_self]
        exact write_same _ _ _ _
      · rw [linked_old hs p q t u child i j hp hc hq hqi,Function.update_of_ne hqi]
        exact h.inner q u j hlen hq
  · intro q u j hlen hq
    rcases grown_cases _ q child u hq with ⟨hq,hu⟩ | ⟨_,hq⟩
    · subst hq hu
      rw [linked_child t u i j hfresh]
      exact (h.bare _ j hlen hn).symm
    · have hqi : q++[j] ≠ p++[i] := by
        intro he
        have hlens := congrArg List.length he
        simp at hlens
        omega
      rw [linked_old hs p q t u child i j hp hc hq hqi]
      exact h.leaf q u j hlen hq
  · intro q j hlen hq
    exact h.bare q j hlen (grown_none _ q child hq).2

theorem layout_write (hs : Sound alloc Good root d) (h : Layout c depth s d content)
    (p : List Index) (t : Frame) (i : Index) (e : Entry) (hp : d.place p = some t)
    (hd : p.length = depth) :
    Layout c depth { s with tables := write s.tables t i e } d
      (Function.update content (p++[i]) e) := by
  have hother : ∀ q u j, d.place q = some u → q ≠ p → write s.tables t i e u j = s.tables u j := by
    intro q u j hq hne
    have hut : u ≠ t := by
      intro hut
      subst hut
      exact hne (hs.injective q p u hq hp)
    exact write_frame _ _ _ _ _ _ (Or.inl hut)
  constructor
  · exact h.allocator_eq
  · intro q u j hlen hq
    have hqp : q ≠ p := by
      intro he
      subst he
      omega
    show write s.tables t i e u j = _
    rw [hother q u j hq hqp]
    exact h.inner q u j hlen hq
  · intro q u j hlen hq
    show write s.tables t i e u j = _
    by_cases hqp : q = p
    · subst hqp
      have hut : t = u := Option.some.inj (hp.symm.trans hq)
      subst hut
      by_cases hj : j = i
      · subst hj
        rw [write_same,Function.update_self]
      · rw [write_frame _ _ _ _ _ _ (Or.inr hj),Function.update_of_ne (by simpa using hj)]
        exact h.leaf q t j hlen hq
    · have hne : q++[j] ≠ p++[i] := fun he => hqp (List.append_inj' he rfl).1
      rw [hother q u j hq hqp,Function.update_of_ne hne]
      exact h.leaf q u j hlen hq
  · intro q j hlen hq
    have hne : q++[j] ≠ p++[i] := by
      intro he
      rw [(List.append_inj' he rfl).1,hp] at hq
      simp at hq
    rw [Function.update_of_ne hne]
    exact h.bare q j hlen hq

end Layout

end Zamak.RadixLayout
