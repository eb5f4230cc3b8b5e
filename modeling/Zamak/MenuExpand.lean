import Zamak.MenuTree
import Zamak.Outlines

/-! # Opening a directory of the menu

`MenuState.expanded` is kept by the row of the menu, and opening a directory moves the rows
after it. The rows are the listing of an outline, so the other directories stay as they are
exactly when the flags at the rows they move to are those at the rows they leave. -/

set_option autoImplicit false

namespace Zamak.MenuExpand
open Zamak.ConfigText Zamak.ConfigParse Zamak.BootFlow Zamak.MenuTree Zamak.Outlines

structure Item where
  entry : MenuEntry
  place : List ℕ
  depth : ℕ

def items (depth : ℕ) (parent : List ℕ) (pos : ℕ) : List MenuEntry → List Item
  | [] => []
  | entry::entries => ⟨entry,parent++[pos],depth⟩::items depth parent (pos+1) entries

def childItems (item : Item) : List Item :=
  items (item.depth+1) item.place 0 item.entry.children

theorem items_sizeOf (depth : ℕ) (parent : List ℕ) (pos : ℕ) (entries : List MenuEntry) :
    ((items depth parent pos entries).map fun item => sizeOf item.entry).sum ≤ sizeOf entries := by
  induction entries generalizing pos with
  | nil => exact Nat.zero_le _
  | cons entry entries ih =>
    have hrest := ih (pos+1)
    simp only [items,List.map_cons,List.sum_cons,List.cons.sizeOf_spec]
    omega

theorem childItems_lighter (item : Item) :
    ((childItems item).map fun item => sizeOf item.entry).sum < sizeOf item.entry := by
  have hitems := items_sizeOf (item.depth+1) item.place 0 item.entry.children
  have hentry : sizeOf item.entry.children < sizeOf item.entry := by
    cases item.entry with
    | mk fields children =>
      simp only [MenuEntry.children,MenuEntry.mk.sizeOf_spec]
      omega
  exact hitems.trans_lt hentry

noncomputable def menuOutline : Outline Item where
  children := childItems
  weight := fun item => sizeOf item.entry
  lighter := childItems_lighter

def opens (state : MenuState) (flatIdx : ℕ) (item : Item) : Bool :=
  shownExpanded state flatIdx item.entry

noncomputable def lines (state : MenuState) (flatIdx : ℕ) (nodes : List Item) :
    List (Item × Bool) :=
  listing menuOutline (opens state) flatIdx nodes

def toRow (line : Item × Bool) : FlatEntry :=
  { entry := line.1.entry, place := line.1.place, depth := line.1.depth,
    isDirectory := !line.1.entry.children.isEmpty, isExpanded := line.2 }

theorem toRow_injective : Function.Injective toRow := by
  rintro ⟨⟨entry,place,depth⟩,shown⟩ ⟨⟨entry',place',depth'⟩,shown'⟩ h
  simp only [toRow,FlatEntry.mk.injEq] at h
  obtain ⟨rfl,rfl,rfl,-,rfl⟩ := h
  rfl

def addLines (rows : Rows) (added : List (Item × Bool)) : Rows :=
  ⟨rows.flat++added.map toRow,rows.flatIdx+added.length⟩

theorem addLines_append (rows : Rows) (a b : List (Item × Bool)) :
    addLines (addLines rows a) b = addLines rows (a++b) := by
  simp [addLines,Nat.add_assoc]

theorem lines_single (state : MenuState) (flatIdx : ℕ) (item : Item) :
    lines state flatIdx [item] = (item,opens state flatIdx item)::
      if opens state flatIdx item then lines state (flatIdx+1) (childItems item) else [] := by
  rw [lines,listing_cons,next]
  split
  · rw [List.append_nil]
    rfl
  · rw [listing_nil]

theorem lines_cons (state : MenuState) (flatIdx depth : ℕ) (parent : List ℕ) (pos : ℕ)
    (entry : MenuEntry) (entries : List MenuEntry) :
    lines state flatIdx (items depth parent pos (entry::entries)) =
      lines state flatIdx [⟨entry,parent++[pos],depth⟩]++
        lines state (flatIdx+(lines state flatIdx [⟨entry,parent++[pos],depth⟩]).length)
          (items depth parent (pos+1) entries) :=
  listing_append _ _ _ [_] _

mutual
theorem flattenEntry_lines (state : MenuState) (depth : ℕ) (place : List ℕ) (rows : Rows) :
    ∀ entry : MenuEntry, flattenEntry state depth place rows entry =
      addLines rows (lines state rows.flatIdx [⟨entry,place,depth⟩])
  | .mk fields children => by
    rw [lines_single]
    unfold flattenEntry opens
    cases hshown : shownExpanded state rows.flatIdx (.mk fields children) with
    | false =>
      simp only [Bool.and_false,Bool.false_eq_true,if_false]
      rfl
    | true =>
      have hdir : (!children.isEmpty) = true := (Bool.and_eq_true _ _ ▸ hshown).1
      simp only [hdir,Bool.and_self,if_true]
      rw [flattenRecursive_lines state (depth+1) place 0 _ children]
      simp [addLines,toRow,childItems,MenuEntry.children,hdir,Nat.add_assoc,Nat.add_comm 1]

theorem flattenRecursive_lines (state : MenuState) (depth : ℕ) (parent : List ℕ) (pos : ℕ)
    (rows : Rows) : ∀ entries : List MenuEntry,
      flattenRecursive state depth parent pos rows entries =
        addLines rows (lines state rows.flatIdx (items depth parent pos entries))
  | [] => by
    simp [flattenRecursive,items,lines,listing_nil,addLines]
  | entry::entries => by
    unfold flattenRecursive
    rw [flattenEntry_lines state depth (parent++[pos]) rows entry,
      flattenRecursive_lines state depth parent (pos+1) _ entries,addLines_append,lines_cons]
    rfl
end

theorem flattenEntries_lines (entries : List MenuEntry) (state : MenuState) :
    flattenEntries entries state = (lines state 0 (items 0 [] 0 entries)).map toRow := by
  rw [flattenEntries,flattenRecursive_lines]
  rfl

mutual
def shownEntry (expanded : List Bool) (flatIdx : ℕ) : MenuEntry → ℕ
  | .mk fields children =>
    if !children.isEmpty && (fields.expanded || expanded.getD flatIdx false) then
      shownCount expanded (flatIdx+1) children+1
    else 1

def shownCount (expanded : List Bool) (flatIdx : ℕ) : List MenuEntry → ℕ
  | [] => 0
  | entry::entries =>
    shownEntry expanded flatIdx entry+
      shownCount expanded (flatIdx+shownEntry expanded flatIdx entry) entries
end

mutual
theorem shownEntry_eq (state : MenuState) (flatIdx depth : ℕ) (place : List ℕ) :
    ∀ entry : MenuEntry, shownEntry state.expanded flatIdx entry =
      (lines state flatIdx [⟨entry,place,depth⟩]).length
  | .mk fields children => by
    have hchildren := shownCount_eq state (flatIdx+1) (depth+1) place 0 children
    have hopens : opens state flatIdx ⟨.mk fields children,place,depth⟩ =
      (!children.isEmpty && (fields.expanded || state.expanded.getD flatIdx false)) := rfl
    rw [lines_single,List.length_cons,hopens,shownEntry]
    cases !children.isEmpty && (fields.expanded || state.expanded.getD flatIdx false) with
    | true => exact congrArg (·+1) hchildren
    | false => rfl

theorem shownCount_eq (state : MenuState) (flatIdx depth : ℕ) (parent : List ℕ) (pos : ℕ) :
    ∀ entries : List MenuEntry, shownCount state.expanded flatIdx entries =
      (lines state flatIdx (items depth parent pos entries)).length
  | [] => by simp [shownCount,items,lines,listing_nil]
  | entry::entries => by
    rw [lines_cons,List.length_append,shownCount,
      shownEntry_eq state flatIdx depth (parent++[pos]) entry,
      shownCount_eq state _ depth parent (pos+1) entries]
end

section Places

theorem items_place (depth : ℕ) (parent : List ℕ) (pos : ℕ) (entries : List MenuEntry) :
    ∀ item ∈ items depth parent pos entries, ∃ k, item.place = parent++[k] := by
  induction entries generalizing pos with
  | nil => exact fun item hitem => absurd hitem List.not_mem_nil
  | cons entry entries ih =>
    intro item hitem
    rcases List.mem_cons.mp hitem with rfl | hitem
    · exact ⟨pos,rfl⟩
    · exact ih (pos+1) item hitem

def Inside (place : List ℕ) (row : FlatEntry) : Prop := place <+: row.place ∧ row.place ≠ place

theorem inside_lines (state : MenuState) (flatIdx : ℕ) (item : Item) :
    ∀ row ∈ (lines state flatIdx (childItems item)).map toRow, Inside item.place row := by
  intro row hrow
  obtain ⟨line,hline,rfl⟩ := List.mem_map.mp hrow
  have hgrown : item.place <+: line.1.place ∧ item.place.length < line.1.place.length := by
    apply listing_keeps menuOutline (opens state)
      (fun node => item.place <+: node.place ∧ item.place.length < node.place.length) _ flatIdx
      (childItems item) _ line hline
    · rintro node ⟨hbelow,hlonger⟩ child hchild
      obtain ⟨k,hk⟩ := items_place _ _ _ _ child hchild
      rw [hk]
      refine ⟨hbelow.trans (List.prefix_append _ _),?_⟩
      rw [List.length_append]
      omega
    · intro child hchild
      obtain ⟨k,hk⟩ := items_place _ _ _ _ child hchild
      rw [hk]
      refine ⟨List.prefix_append _ _,?_⟩
      simp
  refine ⟨hgrown.1,fun heq => ?_⟩
  have hlength := congrArg List.length heq
  exact absurd hlength hgrown.2.ne'

/-- What is still to be shown stands no deeper than what is shown before it. -/
def Shallower (nodes : List Item) : Prop :=
  nodes.Pairwise fun a b => b.place.length ≤ a.place.length

theorem shallower_items (depth : ℕ) (parent : List ℕ) (pos : ℕ) (entries : List MenuEntry) :
    Shallower (items depth parent pos entries) := by
  apply List.pairwise_of_forall_mem_list
  intro a ha b hb
  obtain ⟨k,hk⟩ := items_place _ _ _ _ a ha
  obtain ⟨l,hl⟩ := items_place _ _ _ _ b hb
  simp [hk,hl]

theorem shallower_step (node : Item) (rest : List Item) (h : Shallower (node::rest)) :
    Shallower rest ∧ Shallower (childItems node++rest) := by
  obtain ⟨hfirst,hrest⟩ := List.pairwise_cons.mp h
  refine ⟨hrest,List.pairwise_append.mpr ⟨shallower_items _ _ _ _,hrest,?_⟩⟩
  intro child hchild other hother
  obtain ⟨k,hk⟩ := items_place _ _ _ _ child hchild
  have hother := hfirst other hother
  rw [hk,List.length_append]
  omega

theorem outside_head (state : MenuState) (flatIdx : ℕ) (node : Item) (rest : List Item)
    (h : Shallower (node::rest)) :
    ∀ row ∈ ((lines state flatIdx rest).map toRow).head?, ¬Inside node.place row := by
  cases rest with
  | nil => simp [lines,listing_nil]
  | cons other rest =>
    rintro row hrow ⟨hbelow,hne⟩
    rw [lines,listing_cons] at hrow
    have hplace : row.place = other.place := by rw [← Option.some.inj hrow]; rfl
    have hshallow : other.place.length ≤ node.place.length :=
      (List.pairwise_cons.mp h).1 other List.mem_cons_self
    rw [hplace] at hbelow hne
    exact hne (hbelow.eq_of_length (le_antisymm hbelow.length_le hshallow)).symm

end Places

/-- `expanded[i]` set, with the vector grown as needed. -/
def setExpanded (expanded : List Bool) (i : ℕ) : List Bool :=
  (expanded++List.replicate (i+1-expanded.length) false).set i true

theorem setExpanded_getD (expanded : List Bool) (i p : ℕ) :
    (setExpanded expanded i).getD p false = if p = i then true else expanded.getD p false := by
  have hlength : i < (expanded++List.replicate (i+1-expanded.length) false).length := by
    rw [List.length_append,List.length_replicate]
    omega
  rw [setExpanded,List.getD_eq_getElem?_getD,List.getElem?_set]
  by_cases hp : p = i
  · rw [if_pos hp.symm,if_pos hlength,if_pos hp]
    rfl
  · rw [if_neg (Ne.symm hp),if_neg hp,List.getD_eq_getElem?_getD]
    by_cases hin : p < expanded.length
    · rw [List.getElem?_append_left hin]
    · rw [List.getElem?_append_right (Nat.le_of_not_lt hin),List.getElem?_replicate,
        List.getElem?_eq_none (Nat.le_of_not_lt hin)]
      split <;> rfl

def opening (state : MenuState) (i : ℕ) : MenuState :=
  { state with expanded := setExpanded state.expanded i }

/-- Opening the directory of a row inserts rows of its descendants after it, and leaves every
other row as it is. -/
def ExpandsLocally (entries : List MenuEntry) (state : MenuState) (i : ℕ) (row : FlatEntry) :
    Prop :=
  ∃ inserted, (∀ r ∈ inserted, Inside row.place r) ∧
    flattenEntries entries (opening state i) = (flattenEntries entries state).take i++
      { row with isExpanded := true }::(inserted++(flattenEntries entries state).drop (i+1))

/-- A directory that is shown open only by its flag. -/
def ByFlag (row : FlatEntry) : Prop :=
  row.isDirectory = true ∧ row.entry.fields.expanded = false

section Opening
variable (state : MenuState) (i : ℕ)

theorem opens_opening (p : ℕ) (hp : p ≠ i) (item : Item) :
    opens (opening state i) p item = opens state p item := by
  rw [opens,opens,shownExpanded,shownExpanded,opening,setExpanded_getD,if_neg hp]

theorem opens_opened (item : Item) (hdir : (toRow (item,false)).isDirectory = true) :
    opens (opening state i) i item = true := by
  have hchildren : (!item.entry.children.isEmpty) = true := hdir
  rw [opens,shownExpanded,opening,setExpanded_getD,if_pos rfl,hchildren,Bool.or_true,Bool.and_self]

/-- Two rows hold a directory in the same state exactly when its flag is the same, where the
flag matters. -/
theorem opens_eq_iff (p q : ℕ) (line : Item × Bool) :
    opens state q line.1 = opens state p line.1 ↔
      (ByFlag (toRow line) → state.expanded.getD q false = state.expanded.getD p false) := by
  have hdir : (toRow line).isDirectory = !line.1.entry.children.isEmpty := rfl
  have hentry : (toRow line).entry = line.1.entry := rfl
  rw [ByFlag,hdir,hentry,opens,opens,shownExpanded,shownExpanded]
  cases !line.1.entry.children.isEmpty with
  | false => simp
  | true =>
    cases line.1.entry.fields.expanded with
    | false => simp
    | true => simp

/-- The rows after the opened directory are kept exactly when the flags are the same at the
rows that they move to. -/
theorem lines_moved_iff (m : ℕ) (rest : List Item) :
    lines (opening state i) (i+1+m) rest = lines state (i+1) rest ↔
      ∀ k line, (lines state (i+1) rest)[k]? = some line → ByFlag (toRow line) →
        state.expanded.getD (i+1+k+m) false = state.expanded.getD (i+1+k) false := by
  rw [lines,lines,listing_eq_iff]
  apply forall_congr'
  intro k
  apply forall_congr'
  intro line
  rw [opens_opening state i _ (by omega),show i+1+m+k = i+1+k+m by omega,opens_eq_iff]

theorem shownCount_opening (node : Item) :
    shownCount state.expanded (i+1) node.entry.children =
      (lines (opening state i) (i+1) (childItems node)).length := by
  have hsame : lines (opening state i) (i+1) (childItems node) =
      lines state (i+1) (childItems node) := by
    apply (listing_eq_iff _ _ _ _ _ _).mpr
    intro k line _
    exact opens_opening state i _ (by omega) line.1
  rw [hsame]
  exact shownCount_eq state (i+1) (node.depth+1) node.place 0 node.entry.children

end Opening

/-- The rows before and after the opening, cut at the directory: what is pending behind it is
shown after it, and after its descendants once it is open. -/
structure Cut (entries : List MenuEntry) (state : MenuState) (i : ℕ) (node : Item)
    (rest : List Item) : Prop where
  shallower : Shallower (node::rest)
  after : (flattenEntries entries state).drop (i+1) = (lines state (i+1) rest).map toRow
  opened : flattenEntries entries (opening state i) = (flattenEntries entries state).take i++
    toRow (node,true)::((lines (opening state i) (i+1) (childItems node)).map toRow++
      (lines (opening state i) (i+1+shownCount state.expanded (i+1) node.entry.children)
        rest).map toRow)

theorem exists_cut (entries : List MenuEntry) (state : MenuState) (i : ℕ) (row : FlatEntry)
    (hrow : (flattenEntries entries state)[i]? = some row) (hdir : row.isDirectory = true)
    (hcollapsed : row.isExpanded = false) :
    ∃ node rest, row = toRow (node,false) ∧ Cut entries state i node rest := by
  rw [flattenEntries_lines,List.getElem?_map] at hrow
  obtain ⟨⟨node,shown⟩,hline,rfl⟩ := Option.map_eq_some_iff.mp hrow
  obtain ⟨rest,hpending,hopens⟩ := pending_of_line _ _ _ _ _ _ hline
  have hclosed : shown = false := hcollapsed
  simp only [Nat.zero_add] at hpending hopens
  subst hclosed
  refine ⟨node,rest,rfl,?_,?_,?_⟩
  · rw [← hpending]
    exact pending_keeps menuOutline (opens state) Shallower shallower_step List.Pairwise.nil 0 _ i
      (shallower_items _ _ _ _)
  · have hdrop := listing_closed _ _ _ _ _ _ _ hpending (by rw [Nat.zero_add]; exact hopens.symm)
    rw [Nat.zero_add] at hdrop
    rw [flattenEntries_lines,← List.map_drop,lines,hdrop]
    rfl
  · have hopened := listing_opened menuOutline (opens state) (opens (opening state i)) 0
      (items 0 [] 0 entries) i node rest hpending
      (fun p hp => opens_opening state i p (by omega))
      (by rw [Nat.zero_add]; exact opens_opened state i node hdir)
    rw [Nat.zero_add] at hopened
    rw [flattenEntries_lines,flattenEntries_lines,lines,hopened,shownCount_opening]
    simp only [List.map_append,List.map_cons,List.map_take]
    rfl

/-- The descendants shown are all that can have been inserted, so the opening is local exactly
when the rest is shown as before. -/
theorem Cut.expandsLocally_iff_moved (entries : List MenuEntry) (state : MenuState) (i : ℕ)
    (node : Item) (rest : List Item) (h : Cut entries state i node rest) :
    ExpandsLocally entries state i (toRow (node,false)) ↔
      lines (opening state i) (i+1+shownCount state.expanded (i+1) node.entry.children) rest =
        lines state (i+1) rest := by
  have hrow : { toRow (node,false) with isExpanded := true } = toRow (node,true) := rfl
  unfold ExpandsLocally
  rw [h.opened,h.after,hrow]
  constructor
  · rintro ⟨inserted,hinside,hlocal⟩
    have htail := (List.cons.inj (List.append_cancel_left hlocal)).2
    have hsplit := split_unique (Inside node.place) _ _ _ _ (inside_lines _ _ node) hinside
      (outside_head _ _ node rest h.shallower) (outside_head _ _ node rest h.shallower) htail
    exact List.map_injective_iff.mpr toRow_injective hsplit.2
  · intro hsame
    refine ⟨(lines (opening state i) (i+1) (childItems node)).map toRow,
      inside_lines (opening state i) (i+1) node,?_⟩
    rw [hsame]

/-- Opening a collapsed directory is local exactly when every directory shown after it, unless
its entry is marked as expanded, has the same flag at its row and at the row that it moves to. -/
theorem expandsLocally_iff (entries : List MenuEntry) (state : MenuState) (i : ℕ)
    (row : FlatEntry) (hrow : (flattenEntries entries state)[i]? = some row)
    (hdir : row.isDirectory = true) (hcollapsed : row.isExpanded = false) :
    ExpandsLocally entries state i row ↔
      ∀ j other, i < j → (flattenEntries entries state)[j]? = some other → ByFlag other →
        state.expanded.getD (j+shownCount state.expanded (i+1) row.entry.children) false =
          state.expanded.getD j false := by
  obtain ⟨node,rest,rfl,hcut⟩ := exists_cut entries state i row hrow hdir hcollapsed
  have hentry : (toRow (node,false)).entry = node.entry := rfl
  rw [hcut.expandsLocally_iff_moved entries state i node rest,lines_moved_iff,hentry]
  have hlater : ∀ k, (flattenEntries entries state)[i+1+k]? =
      ((lines state (i+1) rest)[k]?).map toRow := by
    intro k
    rw [← List.getElem?_map,← hcut.after,List.getElem?_drop]
  constructor
  · intro h j other hj hother hflag
    obtain ⟨k,rfl⟩ := Nat.exists_eq_add_of_le (Nat.succ_le_of_lt hj)
    rw [hlater] at hother
    obtain ⟨line,hline,rfl⟩ := Option.map_eq_some_iff.mp hother
    exact h k line hline hflag
  · intro h k line hline hflag
    apply h (i+1+k) (toRow line) (by omega) _ hflag
    rw [hlater,hline]
    rfl

def twoDirectories : List MenuEntry :=
  [.mk { name := "A".toList, depth := 1 } [.mk { name := "X".toList, depth := 2 } []],
   .mk { name := "B".toList, depth := 1 } [.mk { name := "Y".toList, depth := 2 } []]]

def flagged (expanded : List Bool) : MenuState := { MenuState.new 5 with expanded := expanded }

def firstRow : FlatEntry :=
  { entry := .mk { name := "A".toList, depth := 1 } [.mk { name := "X".toList, depth := 2 } []],
    place := [0], depth := 0, isDirectory := true, isExpanded := false }

/-- With no flag set, opening the first directory shows its entry and moves the second. -/
theorem expandsLocally_first : ExpandsLocally twoDirectories (flagged []) 0 firstRow := by
  apply (expandsLocally_iff twoDirectories (flagged []) 0 firstRow rfl rfl rfl).mpr
  intro j other _ _ _
  rfl

/-- With the second directory open, opening the first one closes it: its flag stays behind. -/
theorem expand_closes_second :
    (flattenEntries twoDirectories (flagged [false,true]))[0]? = some firstRow ∧
    ¬ExpandsLocally twoDirectories (flagged [false,true]) 0 firstRow := by
  refine ⟨rfl,?_⟩
  rintro ⟨inserted,-,hlocal⟩
  have hplaces := congrArg (List.map FlatEntry.place) hlocal
  have hnew : (flattenEntries twoDirectories (opening (flagged [false,true]) 0)).map
      FlatEntry.place = [[0],[0,0],[1]] := rfl
  have hold : ((flattenEntries twoDirectories (flagged [false,true])).drop 1).map
      FlatEntry.place = [[1],[1,0]] := rfl
  rw [hnew,List.map_append,List.map_cons,List.map_append,hold] at hplaces
  have hlast := congrArg List.reverse hplaces
  simp at hlast

end Zamak.MenuExpand
