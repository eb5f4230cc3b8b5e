import Zamak.ConfigEntries
import Zamak.Enclosures

/-! # The shape of the entry tree

Entries are numbered in pre-order, which is the order of their header lines. A new
entry is placed by level: it descends along the rightmost branch and becomes a child
of the entry that its depth, counted in levels and not in stored depths, leads to. -/

set_option autoImplicit false

namespace Zamak.EntryTree
open Zamak.ConfigText Zamak.ConfigParse Zamak.ConfigEntries Zamak.Enclosures

/-- The parent of each entry of a tree in pre-order, numbering from an offset. -/
def parents (offset : ℕ) (parent : Option ℕ) : List MenuEntry → List (Option ℕ)
  | [] => []
  | .mk _ children::entries =>
    parent::(parents (offset+1) (some offset) children++
      parents (offset+1+(preorder children).length) parent entries)

def rightSpine (offset : ℕ) : List MenuEntry → List ℕ
  | [] => []
  | .mk _ children::entries =>
    match entries with
    | [] => offset::rightSpine (offset+1) children
    | next::entries => rightSpine (offset+1+(preorder children).length) (next::entries)

theorem parents_append (offset : ℕ) (parent : Option ℕ) (xs ys : List MenuEntry) :
    parents offset parent (xs++ys) =
      parents offset parent xs++parents (offset+(preorder xs).length) parent ys := by
  induction xs generalizing offset with
  | nil => simp [parents,preorder]
  | cons x xs ih =>
    obtain ⟨fields,children⟩ := x
    rw [List.cons_append,parents,parents,ih,preorder]
    simp only [List.cons_append,List.append_assoc,List.length_cons,List.length_append]
    simp only [Nat.add_assoc,Nat.add_comm 1]

theorem rightSpine_cons (offset : ℕ) (fields : EntryFields) (children entries : List MenuEntry)
    (h : entries ≠ []) :
    rightSpine offset (.mk fields children::entries) =
      rightSpine (offset+1+(preorder children).length) entries := by
  cases entries with
  | nil => exact absurd rfl h
  | cons next entries => rw [rightSpine]

theorem rightSpine_snoc (offset : ℕ) (entries : List MenuEntry) (fields : EntryFields)
    (children : List MenuEntry) :
    rightSpine offset (entries++[.mk fields children]) =
      (offset+(preorder entries).length)::
        rightSpine (offset+(preorder entries).length+1) children := by
  induction entries generalizing offset with
  | nil => simp [rightSpine,preorder]
  | cons x entries ih =>
    obtain ⟨first,below⟩ := x
    rw [List.cons_append,rightSpine_cons offset first below _ (by simp),ih,preorder]
    simp only [List.length_cons,List.length_append]
    simp only [Nat.add_assoc,Nat.add_comm,Nat.add_left_comm]

theorem split_last (entries : List MenuEntry) (last : MenuEntry)
    (h : entries.getLast? = some last) :
    entries = entries.dropLast++[.mk last.fields last.children] := by
  obtain ⟨fields,children⟩ := last
  exact (List.dropLast_append_getLast? _ h).symm

section Push
variable (entry : MenuEntry) (hleaf : entry.children = [])

include hleaf in
theorem rightSpine_leaf (offset : ℕ) (entries : List MenuEntry) :
    rightSpine offset (entries++[entry]) = [offset+(preorder entries).length] := by
  obtain ⟨fields,below⟩ := entry
  obtain rfl : below = [] := hleaf
  rw [rightSpine_snoc]
  simp [rightSpine]

include hleaf in
theorem rightSpine_push (children : List MenuEntry) (currentDepth offset : ℕ) :
    rightSpine offset (pushEntryRecursive children entry currentDepth) =
      (rightSpine offset children).take (entry.fields.depth-currentDepth)++
        [offset+(preorder children).length] := by
  fun_induction pushEntryRecursive children entry currentDepth generalizing offset with
  | case1 children currentDepth h =>
    rw [rightSpine_leaf entry hleaf,Nat.sub_eq_zero_of_le h]
    rfl
  | case2 children currentDepth h parent hlast ih =>
    have hlevels : entry.fields.depth-currentDepth =
      entry.fields.depth-(currentDepth+1)+1 := by omega
    have hspine := congrArg (rightSpine offset) (split_last children parent hlast)
    rw [rightSpine_snoc] at hspine
    rw [rightSpine_snoc,ih,hspine,hlevels,List.take_succ_cons,preorder_last children parent hlast]
    simp only [List.cons_append,List.length_append,List.length_cons]
    simp only [Nat.add_assoc,Nat.add_comm 1]
  | case3 children currentDepth h hlast =>
    obtain rfl : children = [] := List.getLast?_eq_none_iff.mp hlast
    rw [rightSpine_leaf entry hleaf]
    simp [rightSpine]

include hleaf in
theorem parents_leaf (offset : ℕ) (parent : Option ℕ) (entries : List MenuEntry) :
    parents offset parent (entries++[entry]) = parents offset parent entries++[parent] := by
  obtain ⟨fields,below⟩ := entry
  obtain rfl : below = [] := hleaf
  rw [parents_append]
  simp [parents]

include hleaf in
theorem parents_push (children : List MenuEntry) (currentDepth offset : ℕ) (parent : Option ℕ) :
    parents offset parent (pushEntryRecursive children entry currentDepth) =
      parents offset parent children++
        [(((rightSpine offset children).take (entry.fields.depth-currentDepth)).getLast?).or
          parent] := by
  fun_induction pushEntryRecursive children entry currentDepth generalizing offset parent with
  | case1 children currentDepth h =>
    rw [parents_leaf entry hleaf,Nat.sub_eq_zero_of_le h]
    rfl
  | case2 children currentDepth h last hlast ih =>
    have hlevels : entry.fields.depth-currentDepth =
      entry.fields.depth-(currentDepth+1)+1 := by omega
    have hsplit := split_last children last hlast
    have hspine := congrArg (rightSpine offset) hsplit
    have hparents := congrArg (parents offset parent) hsplit
    rw [rightSpine_snoc] at hspine
    rw [parents_append] at hparents ⊢
    rw [hparents,hspine,hlevels,List.take_succ_cons]
    simp only [parents,ih,List.append_nil,List.cons_append,List.append_assoc]
    rw [List.getLast?_cons,Option.some_or,Option.or_some]
  | case3 children currentDepth h hlast =>
    obtain rfl : children = [] := List.getLast?_eq_none_iff.mp hlast
    rw [parents_leaf entry hleaf]
    simp [rightSpine]

end Push

def depthOf (fields : List EntryFields) (n : ℕ) : ℕ := ((fields[n]?).map EntryFields.depth).getD 1

theorem depthOf_append (fields rest : List EntryFields) (n : ℕ) (h : n < fields.length) :
    depthOf (fields++rest) n = depthOf fields n := by
  unfold depthOf
  rw [List.getElem?_append_left h]

/-- Placed one after the other, entries get the parents and leave the branch that
placing by level gives. -/
theorem places_shape (fields : List EntryFields) :
    rightSpine 0 (fields.foldl place []) = levelSpine (depthOf fields) fields.length ∧
    parents 0 none (fields.foldl place []) =
      (List.range fields.length).map (levelParent (depthOf fields)) := by
  induction fields using List.reverseRecOn with
  | nil => simp [rightSpine,parents,levelSpine]
  | append_singleton fields field ih =>
    have ⟨hspine,hparents⟩ := ih
    have hdepth : depthOf (fields++[field]) fields.length = field.depth := by simp [depthOf]
    have hbefore : levelSpine (depthOf (fields++[field])) fields.length =
        levelSpine (depthOf fields) fields.length :=
      levelSpine_congr _ _ _ fun m hm => depthOf_append fields [field] m hm
    have hsize : (preorder (fields.foldl place [])).length = fields.length := by
      rw [preorder_places]
      simp [preorder]
    rw [List.foldl_append,List.foldl_cons,List.foldl_nil,place,pushEntry_eq,
      rightSpine_push (.mk field []) rfl,parents_push (.mk field []) rfl,hspine,hparents,hsize,
      List.length_append,List.length_singleton,List.range_succ,List.map_append]
    constructor
    · rw [levelSpine,hbefore,hdepth,Nat.zero_add]
      rfl
    · congr 1
      · apply List.map_congr_left
        intro m hm
        have hlt := List.mem_range.mp hm
        unfold levelParent
        rw [depthOf_append fields [field] m hlt,
          levelSpine_congr _ _ m fun k hk => depthOf_append fields [field] k (hk.trans hlt)]
      · simp only [List.map_cons,List.map_nil,levelParent,hbefore,hdepth,Option.or_none]
        rfl

/-- The tree follows the declared depths: an entry is deeper than its parent, its parent
is the nearest preceding entry of smaller depth, and it is top-level exactly when there
is none. Entries go by their number in pre-order. -/
structure FollowsDepths (entries : List MenuEntry) : Prop where
  deeper : ∀ n p, (parents 0 none entries)[n]? = some (some p) →
    depthOf (preorder entries) p < depthOf (preorder entries) n
  nearest : ∀ n < (preorder entries).length,
    (parents 0 none entries)[n]? = some (nearest (depthOf (preorder entries)) n)
  topLevel : ∀ n < (preorder entries).length,
    ((parents 0 none entries)[n]? = some none ↔
      ∀ m < n, depthOf (preorder entries) n ≤ depthOf (preorder entries) m)

theorem followsDepths_places (fields : List EntryFields) :
    FollowsDepths (fields.foldl place []) ↔
      ∀ n < fields.length, levelParent (depthOf fields) n = nearest (depthOf fields) n := by
  have hpre : preorder (fields.foldl place []) = fields := by
    rw [preorder_places]
    simp [preorder]
  have hparents : ∀ n < fields.length, (parents 0 none (fields.foldl place []))[n]? =
      some (levelParent (depthOf fields) n) := by
    intro n hn
    rw [(places_shape fields).2,List.getElem?_map,List.getElem?_range hn]
    rfl
  have hlength : (parents 0 none (fields.foldl place [])).length = fields.length := by
    rw [(places_shape fields).2]
    simp
  constructor
  · intro h n hn
    have hnearest := h.nearest n (hpre.symm ▸ hn)
    rw [hpre,hparents n hn] at hnearest
    exact Option.some.inj hnearest
  · intro h
    constructor
    · intro n p hp
      have hn : n < fields.length := by
        rw [← hlength]
        exact (List.getElem?_eq_some_iff.mp hp).1
      rw [hparents n hn,h n hn] at hp
      rw [hpre]
      exact nearest_lt _ n p (Option.some.inj hp)
    · intro n hn
      rw [hpre] at hn ⊢
      rw [hparents n hn,h n hn]
    · intro n hn
      rw [hpre] at hn ⊢
      rw [hparents n hn,h n hn,Option.some.injEq,nearest_none]

section Parse
variable (platform : Platform)

theorem headerDepth_pos (line : Text) : 1 ≤ headerDepth line := by
  unfold headerDepth
  split
  · rename_i h
    cases line with
    | nil => simp at h
    | cons c line =>
      obtain rfl : c = '/' := by simpa using h
      simp
  · exact Nat.le_refl 1

theorem configLine_depth (line : Text) (depth : ℕ) (expanded : Bool) (title : Text)
    (h : configLine platform line = .header depth expanded title) : 1 ≤ depth := by
  simp only [configLine] at h
  split at h
  · cases h
  · split at h
    · cases h
    · split at h
      · cases h
        exact headerDepth_pos (trim line)
      · split at h
        · cases h
        · cases h

theorem described_depth (macros : StringMap) (content : List Text) :
    ∀ fields ∈ describedEntries platform macros content, 1 ≤ fields.depth := by
  induction content generalizing macros with
  | nil => simp [describedEntries]
  | cons line content ih =>
    unfold describedEntries
    cases hline : configLine platform line with
    | skipped => exact ih macros
    | definition name value => exact ih _
    | header depth expanded title =>
      intro fields hmem
      rcases List.mem_cons.mp hmem with h | h
      · rw [h]
        exact configLine_depth platform line depth expanded title hline
      · exact ih macros fields h
    | option key value => exact ih macros

theorem depthOf_pos (fields : List EntryFields) (h : ∀ f ∈ fields, 1 ≤ f.depth) (n : ℕ) :
    1 ≤ depthOf fields n := by
  unfold depthOf
  cases hn : fields[n]? with
  | none => exact Nat.le_refl 1
  | some f => exact h f (List.mem_of_getElem? hn)

/-- The tree of a configuration follows the declared depths exactly when every header
that is no deeper than the header before it has an enclosing header at each level. -/
theorem followsDepths_iff (content : Text) (env : BootEnvironment) :
    FollowsDepths (parseWithEnv platform content env).entries ↔
      ∀ n < (describedEntries platform (builtinMacros env) (lines content)).length,
        Filled (depthOf (describedEntries platform (builtinMacros env) (lines content))) n := by
  rw [parse_places,followsDepths_places,levelParents_iff]
  exact depthOf_pos _ (described_depth platform _ _)

end Parse

/-- Of two headers of depth two, the second is placed below the first. -/
theorem siblings_nest :
    parents 0 none (parseWithEnv { usizeBits := 64, toUppercase := id } "//A\n//B".toList
      (.default "x86_64".toList)).entries = [none,some 0] ∧
    ¬FollowsDepths (parseWithEnv { usizeBits := 64, toUppercase := id } "//A\n//B".toList
      (.default "x86_64".toList)).entries := by
  rw [parse_places]
  generalize hfields : describedEntries _ _ _ = fields
  have htwo : fields = [givenFields "A".toList 2 false [],givenFields "B".toList 2 false []] := by
    rw [← hfields]
    rfl
  rw [htwo]
  constructor
  · rw [(places_shape _).2]
    rfl
  · rw [followsDepths_places]
    intro h
    exact absurd (h 1 (by decide)) (by decide)

end Zamak.EntryTree
