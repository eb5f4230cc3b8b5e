import Zamak.ByteMemory
import Zamak.MaskRounding

/-! # Tables in a memory

Rows of numbers, each number at its place in the row and one row behind the other, as a C
compiler lays structures and arrays of them out. Tables in blocks of their own are read back
as they were written, with the numbers cut to the width of their fields. -/

set_option autoImplicit false

namespace Zamak.CLayout
open Zamak.ByteMemory Zamak.MaskRounding Zamak.PlacedBlocks

structure Field where
  offset : ℕ
  width : ℕ
  deriving DecidableEq

/-- Where the fields of a row are, in their order, and how far the next row is. -/
structure Layout where
  fields : List Field
  size : ℕ
  apart : fields.Pairwise fun f g => f.offset+f.width ≤ g.offset
  within : ∀ f ∈ fields, f.offset+f.width ≤ size

/-! ## Rows -/

/-- Numbers cut to the width of their fields. -/
def cut : List Field → List ℕ → List ℕ := List.zipWith fun f v => v%256^f.width

def writeFields (m : Memory) (p : ℕ) : List Field → List ℕ → Memory
  | f::fields, v::row => put f.width (writeFields m p fields row) (p+f.offset) v
  | _, _ => m

def readFields (m : Memory) (p : ℕ) (fields : List Field) : List ℕ :=
  fields.map fun f => number f.width m (p+f.offset)

theorem readFields_congr {m m' : Memory} {p n : ℕ} {fields : List Field}
    (hfields : ∀ f ∈ fields, f.offset+f.width ≤ n) (h : ∀ x, Within p n x → m' x = m x) :
    readFields m' p fields = readFields m p fields := by
  apply List.map_congr_left
  intro f hf
  have hle := hfields f hf
  refine congrArg TagStreams.bytesNat (Segments.stretch_congr _ _ _ _ _ fun k hk => ?_)
  exact h _ ⟨by omega,by omega⟩

theorem writeFields_keeps (m : Memory) (p n : ℕ) (fields : List Field) (row : List ℕ)
    (hfields : ∀ f ∈ fields, f.offset+f.width ≤ n) :
    Keeps (Within p n) m (writeFields m p fields row) := by
  induction fields generalizing row with
  | nil => exact Keeps.refl m
  | cons f fields ih =>
    cases row with
    | nil => exact Keeps.refl m
    | cons v row =>
      refine (ih row fun g hg => hfields g (List.mem_cons_of_mem _ hg)).trans (keeps_put ?_)
      rintro x ⟨hlow,hhigh⟩
      have hle := hfields f List.mem_cons_self
      exact ⟨by omega,by omega⟩

theorem readFields_writeFields (m : Memory) (p : ℕ) (fields : List Field) (row : List ℕ)
    (hapart : fields.Pairwise fun f g => f.offset+f.width ≤ g.offset)
    (hlen : row.length = fields.length) :
    readFields (writeFields m p fields row) p fields = cut fields row := by
  induction fields generalizing row with
  | nil =>
    cases List.length_eq_zero_iff.mp hlen
    rfl
  | cons f fields ih =>
    obtain ⟨v,row,rfl⟩ : ∃ v rest, row = v::rest := List.exists_cons_of_length_eq_add_one hlen
    obtain ⟨hhead,hrest⟩ := List.pairwise_cons.mp hapart
    have htail := ih row hrest (Nat.succ.inj hlen)
    have hkept : readFields (writeFields m p (f::fields) (v::row)) p fields =
        readFields (writeFields m p fields row) p fields := by
      apply List.map_congr_left
      intro g hg
      have hle := hhead g hg
      exact number_put_apart _ _ (by omega)
    rw [readFields,List.map_cons,writeFields,number_put]
    exact congrArg (List.cons _) (hkept.trans htail)

/-! ## Tables -/

def Layout.read (L : Layout) (m : Memory) (p : ℕ) : List ℕ := readFields m p L.fields

def writeAll (L : Layout) (m : Memory) (p : ℕ) : List (List ℕ) → Memory
  | [] => m
  | row::rows => writeFields (writeAll L m (p+L.size) rows) p L.fields row

section Table
variable {L : Layout}

theorem writeAll_keeps (m : Memory) (p : ℕ) (rows : List (List ℕ)) :
    Keeps (Within p (rows.length*L.size)) m (writeAll L m p rows) := by
  induction rows generalizing p with
  | nil => exact Keeps.refl m
  | cons row rows ih =>
    have hlen : (row::rows).length*L.size = L.size+rows.length*L.size := by
      rw [List.length_cons,Nat.succ_mul,Nat.add_comm]
    refine ((ih (p+L.size)).mono ?_).trans ((writeFields_keeps _ p L.size _ row L.within).mono ?_)
    · rintro x ⟨hlow,hhigh⟩
      exact ⟨by omega,by omega⟩
    · rintro x ⟨hlow,hhigh⟩
      exact ⟨hlow,by omega⟩

theorem read_writeAll (m : Memory) (p : ℕ) (rows : List (List ℕ))
    (hrows : ∀ row ∈ rows, row.length = L.fields.length) {i : ℕ} (hi : i < rows.length) :
    L.read (writeAll L m p rows) (p+i*L.size) = cut L.fields rows[i] := by
  induction rows generalizing p i with
  | nil => exact absurd hi (Nat.not_lt_zero i)
  | cons row rows ih =>
    cases i with
    | zero =>
      rw [Nat.zero_mul,Nat.add_zero]
      exact readFields_writeFields _ p _ row L.apart (hrows row List.mem_cons_self)
    | succ i =>
      have hplace : p+(i+1)*L.size = p+L.size+i*L.size := by
        rw [Nat.succ_mul]
        omega
      have hrest := ih (p+L.size) (fun r hr => hrows r (List.mem_cons_of_mem _ hr))
        (Nat.lt_of_succ_lt_succ hi)
      rw [hplace]
      refine Eq.trans (readFields_congr L.within fun x hx => ?_) hrest
      refine writeFields_keeps _ p L.size _ row L.within x fun hin => ?_
      have := hin.2
      have := hx.1
      omega

end Table

/-! ## Tables in blocks of their own -/

structure Table where
  layout : Layout
  rows : List (List ℕ)
  full : ∀ row ∈ rows, row.length = layout.fields.length

def Table.extent (t : Table) : ℕ := t.rows.length*t.layout.size

abbrev Blocks := List (ℕ × Table)

def lay (m : Memory) : Blocks → Memory
  | [] => m
  | b::blocks => writeAll b.2.layout (lay m blocks) b.1 b.2.rows

def Covers (b : ℕ × Table) (x : ℕ) : Prop := Within b.1 b.2.extent x

def Apart (blocks : Blocks) : Prop := blocks.Pairwise fun b c => ∀ x, ¬(Covers b x ∧ Covers c x)

theorem lay_append (m : Memory) (blocks more : Blocks) :
    lay m (blocks++more) = lay (lay m more) blocks := by
  induction blocks with
  | nil => rfl
  | cons b blocks ih => rw [List.cons_append,lay,lay,ih]

theorem lay_outside (m : Memory) (blocks : Blocks) {x : ℕ} (h : ∀ b ∈ blocks, ¬Covers b x) :
    lay m blocks x = m x := by
  induction blocks with
  | nil => rfl
  | cons b blocks ih =>
    exact (writeAll_keeps _ b.1 b.2.rows x (h b List.mem_cons_self)).trans
      (ih fun c hc => h c (List.mem_cons_of_mem _ hc))

theorem store_congr {m m' : Memory} {x : ℕ} (h : m' x = m x) (a : ℕ) (items : List UInt8) :
    store m' a items x = store m a items x := by
  rw [store,store,h]

theorem writeFields_congr {m m' : Memory} {x : ℕ} (h : m' x = m x) (p : ℕ) (fields : List Field)
    (row : List ℕ) : writeFields m' p fields row x = writeFields m p fields row x := by
  induction fields generalizing row with
  | nil => exact h
  | cons f fields ih =>
    cases row with
    | nil => exact h
    | cons v row => exact store_congr (ih row) _ _

theorem writeAll_congr {L : Layout} {m m' : Memory} {x : ℕ} (h : m' x = m x) (p : ℕ)
    (rows : List (List ℕ)) : writeAll L m' p rows x = writeAll L m p rows x := by
  induction rows generalizing p with
  | nil => exact h
  | cons row rows ih => exact writeFields_congr (ih _) p _ row

theorem lay_congr {m m' : Memory} {x : ℕ} (h : m' x = m x) (blocks : Blocks) :
    lay m' blocks x = lay m blocks x := by
  induction blocks with
  | nil => exact h
  | cons b blocks ih => exact writeAll_congr ih _ _

theorem lay_read (m : Memory) {blocks : Blocks} (hapart : Apart blocks) {b : ℕ × Table}
    (hb : b ∈ blocks) {i : ℕ} (hi : i < b.2.rows.length) :
    b.2.layout.read (lay m blocks) (b.1+i*b.2.layout.size) = cut b.2.layout.fields b.2.rows[i] := by
  induction blocks with
  | nil => exact absurd hb List.not_mem_nil
  | cons c blocks ih =>
    obtain ⟨hhead,hrest⟩ := List.pairwise_cons.mp hapart
    rcases List.mem_cons.mp hb with rfl|hb
    · exact read_writeAll _ b.1 b.2.rows b.2.full hi
    · refine Eq.trans (readFields_congr b.2.layout.within fun x hx => ?_) (ih hrest hb)
      refine writeAll_keeps _ c.1 c.2.rows x fun hin => hhead b hb x ⟨hin,?_⟩
      have hrow : (i+1)*b.2.layout.size ≤ b.2.extent := Nat.mul_le_mul_right _ hi
      rw [Nat.succ_mul] at hrow
      have hlow := hx.1
      have hhigh := hx.2
      exact ⟨by omega,by omega⟩

/-! ## The layout of a structure -/

/-- What a compiler lays structures out for: the largest alignment of a number, and the bytes
of a pointer. -/
structure Target where
  word : ℕ
  pointer : ℕ
  pos : 0 < pointer

def Target.align (t : Target) (width : ℕ) : ℕ := max 1 (min width t.word)

theorem align_pos (t : Target) (width : ℕ) : 0 < t.align width := Nat.le_max_left 1 _

def fieldsFrom (t : Target) : ℕ → List ℕ → List Field
  | _, [] => []
  | o, width::shape =>
    ⟨roundUp (t.align width) o,width⟩::fieldsFrom t (roundUp (t.align width) o+width) shape

def endFrom (t : Target) : ℕ → List ℕ → ℕ
  | o, [] => o
  | o, width::shape => endFrom t (roundUp (t.align width) o+width) shape

theorem le_endFrom (t : Target) (o : ℕ) (shape : List ℕ) : o ≤ endFrom t o shape := by
  induction shape generalizing o with
  | nil => exact Nat.le_refl o
  | cons width shape ih =>
    have hround := le_roundUp (t.align width) o (align_pos t width)
    exact Nat.le_trans (by omega) (ih (roundUp (t.align width) o+width))

theorem fieldsFrom_bounds (t : Target) (o : ℕ) (shape : List ℕ) :
    ∀ f ∈ fieldsFrom t o shape, o ≤ f.offset ∧ f.offset+f.width ≤ endFrom t o shape := by
  induction shape generalizing o with
  | nil => exact fun f hf => absurd hf List.not_mem_nil
  | cons width shape ih =>
    intro f hf
    have hround := le_roundUp (t.align width) o (align_pos t width)
    rcases List.mem_cons.mp hf with rfl|hf
    · exact ⟨hround,le_endFrom t _ shape⟩
    · obtain ⟨hlow,hhigh⟩ := ih _ f hf
      exact ⟨by omega,hhigh⟩

theorem fieldsFrom_apart (t : Target) (o : ℕ) (shape : List ℕ) :
    (fieldsFrom t o shape).Pairwise fun f g => f.offset+f.width ≤ g.offset := by
  induction shape generalizing o with
  | nil => exact List.Pairwise.nil
  | cons width shape ih =>
    exact List.pairwise_cons.mpr ⟨fun g hg => (fieldsFrom_bounds t _ shape g hg).1,ih _⟩

theorem fieldsFrom_length (t : Target) (o : ℕ) (shape : List ℕ) :
    (fieldsFrom t o shape).length = shape.length := by
  induction shape generalizing o with
  | nil => rfl
  | cons width shape ih => exact congrArg Nat.succ (ih _)

def structAlign (t : Target) (shape : List ℕ) : ℕ := (shape.map t.align).foldr max 1

theorem structAlign_pos (t : Target) (shape : List ℕ) : 0 < structAlign t shape := by
  unfold structAlign
  induction shape with
  | nil => exact Nat.one_pos
  | cons width shape ih => exact Nat.lt_of_lt_of_le ih (Nat.le_max_right _ _)

def structSize (t : Target) (shape : List ℕ) : ℕ :=
  roundUp (structAlign t shape) (endFrom t 0 shape)

theorem end_le_structSize (t : Target) (shape : List ℕ) : endFrom t 0 shape ≤ structSize t shape :=
  le_roundUp _ _ (structAlign_pos t shape)

theorem layout_within (t : Target) (shape : List ℕ) :
    ∀ f ∈ fieldsFrom t 0 shape, f.offset+f.width ≤ structSize t shape := fun f hf =>
  Nat.le_trans (fieldsFrom_bounds t 0 shape f hf).2 (end_le_structSize t shape)

theorem width_le_endFrom (t : Target) (o : ℕ) {shape : List ℕ} {width : ℕ}
    (h : width ∈ shape) : width ≤ endFrom t o shape := by
  induction shape generalizing o with
  | nil => exact absurd h List.not_mem_nil
  | cons first shape ih =>
    rcases List.mem_cons.mp h with rfl|h
    · exact Nat.le_trans (Nat.le_add_left _ _) (le_endFrom t _ shape)
    · exact ih _ h

theorem width_le_structSize (t : Target) {shape : List ℕ} {width : ℕ} (h : width ∈ shape) :
    width ≤ structSize t shape :=
  Nat.le_trans (width_le_endFrom t 0 h) (end_le_structSize t shape)

def layout (t : Target) (shape : List ℕ) : Layout where
  fields := fieldsFrom t 0 shape
  size := structSize t shape
  apart := fieldsFrom_apart t 0 shape
  within := layout_within t shape

/-! ## Records -/

/-- A type of structures: the widths of its fields, and its values as rows of numbers. -/
structure Record (α : Type*) where
  shape : List ℕ
  row : α → List ℕ
  value : List ℕ → α
  full : ∀ x, (row x).length = shape.length
  back : ∀ x, value (row x) = x

section Record
variable {α : Type*} (R : Record α) (t : Target)

def Record.Fits (x : α) : Prop := List.Forall₂ (fun width v => v < 256^width) R.shape (R.row x)

theorem Record.rows_full (l : List α) :
    ∀ row ∈ l.map R.row, row.length = (layout t R.shape).fields.length := by
  intro row hrow
  obtain ⟨x,-,rfl⟩ := List.mem_map.mp hrow
  exact (R.full x).trans (fieldsFrom_length t 0 R.shape).symm

def Record.table (l : List α) : Table := ⟨layout t R.shape,l.map R.row,R.rows_full t l⟩

def Record.readAt (m : Memory) (p : ℕ) : α := R.value ((layout t R.shape).read m p)

def Record.readList (m : Memory) (p n : ℕ) : List α :=
  (List.range n).map fun i => R.readAt t m (p+i*structSize t R.shape)

theorem Record.extent (l : List α) : (R.table t l).extent = l.length*structSize t R.shape :=
  congrArg (·*structSize t R.shape) (List.length_map R.row)

theorem Record.length_le (l : List α) {width : ℕ} (hwidth : width ∈ R.shape) (hpos : 0 < width) :
    l.length ≤ (R.table t l).extent := by
  rw [R.extent t l]
  exact Nat.le_mul_of_pos_right _ (Nat.lt_of_lt_of_le hpos (width_le_structSize t hwidth))

theorem cut_fits {o : ℕ} {shape row : List ℕ}
    (h : List.Forall₂ (fun width v => v < 256^width) shape row) :
    cut (fieldsFrom t o shape) row = row := by
  induction h generalizing o with
  | nil => rfl
  | cons hv _ ih =>
    rw [fieldsFrom,cut,List.zipWith_cons_cons]
    exact congrArg₂ List.cons (Nat.mod_eq_of_lt hv) ih

variable {R t}

section Laid
variable {m : Memory} {blocks : Blocks} {p : ℕ} (hapart : Apart blocks)
include hapart

theorem Record.readAt_cut {l : List α} (hin : (p,R.table t l) ∈ blocks) {i : ℕ}
    (hi : i < l.length) : R.readAt t (lay m blocks) (p+i*structSize t R.shape) =
      R.value (cut (fieldsFrom t 0 R.shape) (R.row l[i])) := by
  have hi' : i < (R.table t l).rows.length := by rwa [Record.table,List.length_map]
  have hread := lay_read m hapart hin hi'
  have hrow : (R.table t l).rows[i] = R.row l[i] := List.getElem_map _
  rw [hrow] at hread
  exact congrArg R.value hread

theorem Record.readAt_index {l : List α} (hin : (p,R.table t l) ∈ blocks) {i : ℕ}
    (hi : i < l.length) (hfits : R.Fits l[i]) :
    R.readAt t (lay m blocks) (p+i*structSize t R.shape) = l[i] := by
  rw [Record.readAt_cut hapart hin hi,cut_fits t hfits,R.back]

theorem Record.readAt_lay {x : α} (hin : (p,R.table t [x]) ∈ blocks) (hfits : R.Fits x) :
    R.readAt t (lay m blocks) p = x := by
  have h := Record.readAt_index (m := m) hapart hin (i := 0) Nat.one_pos hfits
  rwa [Nat.zero_mul,Nat.add_zero] at h

theorem Record.readList_lay {l : List α} (hin : (p,R.table t l) ∈ blocks)
    (hfits : ∀ x ∈ l, R.Fits x) : R.readList t (lay m blocks) p l.length = l := by
  apply List.ext_getElem
  · rw [Record.readList,List.length_map,List.length_range]
  · intro i hi hi'
    simp only [Record.readList,List.getElem_map,List.getElem_range]
    exact Record.readAt_index hapart hin hi' (hfits _ (List.getElem_mem hi'))

end Laid

theorem Record.readAt_target {t' : Target} (m : Memory) (p : ℕ)
    (h : fieldsFrom t 0 R.shape = fieldsFrom t' 0 R.shape) :
    R.readAt t m p = R.readAt t' m p :=
  congrArg R.value (congrArg (readFields m p) h)

theorem Record.readList_target {t' : Target} (m : Memory) (p : ℕ) {n : ℕ} (hn : n ≤ 1)
    (h : fieldsFrom t 0 R.shape = fieldsFrom t' 0 R.shape) :
    R.readList t m p n = R.readList t' m p n := by
  apply List.map_congr_left
  intro i hi
  have hzero : i = 0 := by
    have := List.mem_range.mp hi
    omega
  rw [hzero,Nat.zero_mul,Nat.zero_mul]
  exact Record.readAt_target m _ h

end Record

end Zamak.CLayout
