import Zamak.PageTables

/-! # Applying a plan

`apply` and `apply_one`: every mapping of a plan, one page at a time, stopping at
the first overflow or missing frame. When it returns, the tables are those of a
run of successful `map_page` calls, and a walk goes through the last mapping of
the plan that has a page at its address. -/

set_option autoImplicit false

namespace Zamak.VmmApply
open Zamak.VmmPlan Zamak.RadixStore Zamak.PageFormats Zamak.PageCodecs Zamak.PageTables

variable {A : Type} [FrameAllocator A]

def pageSize : ℕ := 4096

def checkedAdd (x : Word) (n : ℕ) : Option Word :=
  if x.toNat+n < 2^64 then some (BitVec.ofNat 64 (x.toNat+n)) else none

/-- The loop of `apply_one`, with `n` pages left from page `i` on. The product
`i * PAGE_SIZE` cannot overflow: there are at most `2 ^ 52` pages. -/
def applyPages (f : Format) (m : Mapping) (attrs : Word) :
    ℕ → ℕ → PageTableBuilder A → Option Unit × PageTableBuilder A
  | 0, _, b => (some (),b)
  | n+1, i, b =>
    let offset := i*pageSize
    match checkedAdd m.virtBase offset, checkedAdd m.physBase offset with
    | some va, some pa =>
      match mapPage f b va pa attrs with
      | (none,b) => (none,b)
      | (some _,b) => applyPages f m attrs n (i+1) b
    | _, _ => (none,b)

def applyOne (f : Format) (b : PageTableBuilder A) (m : Mapping) :
    Option Unit × PageTableBuilder A :=
  applyPages f m (f.leafAttrs m.perms m.cache) (m.pageCount pageSize) 0 b

def apply (f : Format) : List Mapping → PageTableBuilder A → Option Unit × PageTableBuilder A
  | [], b => (some (),b)
  | m::plan, b =>
    match applyOne f b m with
    | (none,b) => (none,b)
    | (some _,b) => apply f plan b

/-- The physical address a walk gives: its page and the offset in the page. -/
def translateAddress (f : Format) (b : PageTableBuilder A) (v : Word) : Option (Word × Word) :=
  (walk f b v).map fun x => (x.1+(v&&&0xFFF#64),x.2)

def pageCall (f : Format) (m : Mapping) (i : ℕ) : MapCall :=
  { va := BitVec.ofNat 64 (m.virtBase.toNat+i*pageSize),
    pa := BitVec.ofNat 64 (m.physBase.toNat+i*pageSize),
    attrs := f.leafAttrs m.perms m.cache }

def mappingCalls (f : Format) (m : Mapping) : List MapCall :=
  (List.range (m.pageCount pageSize)).map (pageCall f m)

def planCalls (f : Format) (plan : List Mapping) : List MapCall :=
  plan.flatMap (mappingCalls f)

theorem mapPages_append (f : Format) (xs ys : List MapCall) (b : PageTableBuilder A) :
    mapPages f (xs++ys) b =
      ((mapPages f xs b).1++(mapPages f ys (mapPages f xs b).2).1,
        (mapPages f ys (mapPages f xs b).2).2) := by
  induction xs generalizing b with
  | nil => rfl
  | cons x xs ih =>
    rw [List.cons_append,mapPages,ih]
    rfl

def Completes (f : Format) (calls : List MapCall) (b b' : PageTableBuilder A) : Prop :=
  mapPages f calls b = (List.replicate calls.length (some ()),b')

theorem completes_append (f : Format) (xs ys : List MapCall) (b b' b'' : PageTableBuilder A)
    (hx : Completes f xs b b') (hy : Completes f ys b' b'') :
    Completes f (xs++ys) b b'' := by
  unfold Completes at hx hy ⊢
  rw [mapPages_append,hx,hy,List.length_append,List.replicate_add]

theorem completes_cons (f : Format) (c : MapCall) (calls : List MapCall)
    (b b' b'' : PageTableBuilder A) (hc : mapPage f b c.va c.pa c.attrs = (some (),b'))
    (hr : Completes f calls b' b'') : Completes f (c::calls) b b'' := by
  unfold Completes at hr ⊢
  rw [mapPages,hc,hr]
  rfl

theorem checkedAdd_some (x y : Word) (n : ℕ) (h : checkedAdd x n = some y) :
    y = BitVec.ofNat 64 (x.toNat+n) := by
  unfold checkedAdd at h
  by_cases hlt : x.toNat+n < 2^64
  · rw [if_pos hlt] at h
    exact (Option.some.inj h).symm
  · rw [if_neg hlt] at h
    exact absurd h (by simp)

theorem applyPages_completes (f : Format) (m : Mapping) (n i : ℕ) (b b' : PageTableBuilder A)
    (h : applyPages f m (f.leafAttrs m.perms m.cache) n i b = (some (),b')) :
    Completes f ((List.range' i n).map (pageCall f m)) b b' := by
  induction n generalizing i b with
  | zero =>
    have hb : b = b' := (Prod.mk.inj h).2
    subst hb
    rfl
  | succ n ih =>
    rw [List.range'_succ,List.map_cons]
    unfold applyPages at h
    cases hv : checkedAdd m.virtBase (i*pageSize) with
    | none => simp [hv] at h
    | some va =>
      cases hp : checkedAdd m.physBase (i*pageSize) with
      | none => simp [hv,hp] at h
      | some pa =>
        simp only [hv,hp] at h
        cases hm : mapPage f b va pa (f.leafAttrs m.perms m.cache) with
        | mk result next =>
          rw [hm] at h
          cases result with
          | none => simp at h
          | some u =>
            rw [checkedAdd_some _ _ _ hv,checkedAdd_some _ _ _ hp] at hm
            exact completes_cons f _ _ b next b' hm (ih (i+1) next h)

theorem applyOne_completes (f : Format) (m : Mapping) (b b' : PageTableBuilder A)
    (h : applyOne f b m = (some (),b')) : Completes f (mappingCalls f m) b b' := by
  have hc := applyPages_completes f m (m.pageCount pageSize) 0 b b' h
  rw [← List.range_eq_range'] at hc
  exact hc

theorem apply_completes (f : Format) (plan : List Mapping) (b b' : PageTableBuilder A)
    (h : apply f plan b = (some (),b')) : Completes f (planCalls f plan) b b' := by
  induction plan generalizing b with
  | nil =>
    have hb : b = b' := (Prod.mk.inj h).2
    subst hb
    rfl
  | cons m plan ih =>
    unfold apply at h
    cases hm : applyOne f b m with
    | mk result next =>
      rw [hm] at h
      cases result with
      | none => simp at h
      | some u =>
        have hone := applyOne_completes f m b next hm
        exact completes_append f (mappingCalls f m) _ b next b' hone (ih next h)

theorem lastSuccessful_all (calls : List MapCall) (v : Word) :
    lastSuccessful calls (List.replicate calls.length (some ())) v =
      calls.reverse.find? fun c => decide (SamePage c.va v) := by
  unfold lastSuccessful
  have hz : calls.zip (List.replicate calls.length (some ())) =
      calls.map fun c => (c,some ()) := by
    induction calls with
    | nil => rfl
    | cons c calls ih =>
      rw [List.length_cons,List.replicate_succ,List.zip_cons_cons,ih]
      rfl
  rw [hz,← List.map_reverse,List.find?_map,Option.map_map]
  have hid : (Prod.fst ∘ fun c : MapCall => (c,some ())) = id := rfl
  have hpred : ((fun x : MapCall × Option Unit => x.2.isSome && decide (SamePage x.1.va v)) ∘
      fun c : MapCall => (c,some ())) = fun c => decide (SamePage c.va v) := by
    funext c
    simp
  rw [hid,hpred,Option.map_id]
  rfl

/-- The page of a mapping an address falls in, the last one first. -/
def pageOf (f : Format) (v : Word) (m : Mapping) : Option MapCall :=
  (mappingCalls f m).reverse.find? fun c => decide (SamePage c.va v)

theorem planCalls_find (f : Format) (plan : List Mapping) (v : Word) :
    ((planCalls f plan).reverse.find? fun c => decide (SamePage c.va v)) =
      plan.reverse.findSome? (pageOf f v) := by
  unfold planCalls
  rw [List.reverse_flatMap,List.find?_flatMap]
  rfl

/-- After `apply` returns, a walk goes through the last mapping of the plan with a
page at its address. -/
theorem walk_apply (f : Format) (hf : f.Faithful) (allocator : A)
    (physToTable : Word → Fin 512 → Word) (b b' : PageTableBuilder A)
    (hallocator : Honest allocFrame IsFrame allocator)
    (hnew : new allocator physToTable = some b) (plan : List Mapping)
    (hpa : ∀ m ∈ plan, ∀ i < m.pageCount pageSize,
      m.physBase.toNat+i*pageSize < 2^48)
    (happly : apply f plan b = (some (),b')) (v : Word) :
    walk f b' v = (plan.reverse.findSome? (pageOf f v)).map fun c =>
      (pageBase c.pa,c.attrs) := by
  have hc := apply_completes f plan b b' happly
  have hcalls : ∀ c ∈ planCalls f plan, c.pa.toNat < 2^48 ∧ f.Admits c.attrs := by
    intro c hc
    obtain ⟨m,hm,hmc⟩ := List.mem_flatMap.mp hc
    obtain ⟨i,hi,hic⟩ := List.mem_map.mp hmc
    subst hic
    have hlt := hpa m hm i (List.mem_range.mp hi)
    refine ⟨?_,hf.admits_leafAttrs m.perms m.cache⟩
    show (BitVec.ofNat 64 (m.physBase.toNat+i*pageSize)).toNat < 2^48
    rw [BitVec.toNat_ofNat]
    omega
  have hwalk := walk_mapPages allocator physToTable b hallocator hnew (planCalls f plan) f hf
    hcalls v
  rw [hc,lastSuccessful_all,planCalls_find] at hwalk
  exact hwalk

end Zamak.VmmApply
