import Zamak.PageCodecs
import Zamak.RadixRuns

/-! # The page-table builders

`PageTableBuilder` of `arch.rs` over any of the three formats: `new`, `map_page`
and the four-level walk. A frame allocator is any state machine, and
`phys_to_table` is a store that gives each frame its own 512 entries; what the
frames held before is not assumed. -/

set_option autoImplicit false

namespace Zamak.PageTables
open Zamak.VmmPlan Zamak.RadixStore Zamak.RadixLayout Zamak.RadixRuns Zamak.PageFormats
  Zamak.PageCodecs

class FrameAllocator (A : Type) where
  allocFrame : A → Option Word × A

export FrameAllocator (allocFrame)

def indexAt (level : ℕ) (va : Word) : Fin 512 :=
  ⟨((va>>>(39-level*9))&&&0x1FF#64).toNat,by
    have hle : va.toNat>>>(39-level*9)&&&511 ≤ 511 := Nat.and_le_right
    simpa using Nat.lt_succ_of_le hle⟩

structure PageTableBuilder (A : Type) extends Arena Word (Fin 512) Word A where
  root : Word

variable {A : Type} [FrameAllocator A]

def new (allocator : A) (physToTable : Word → Fin 512 → Word) : Option (PageTableBuilder A) :=
  match allocFrame allocator with
  | (none,_) => none
  | (some root,allocator) =>
    some { allocator := allocator,
           tables := Function.update physToTable root (fun _ => 0#64), root := root }

def levels : List ℕ := [0,1,2]

/-- `map_page`. A frame that cannot be had ends the call; the tables it added
before stay linked. -/
def mapPage (f : Format) (b : PageTableBuilder A) (va pa attrs : Word) :
    Option Unit × PageTableBuilder A :=
  let step := install f.codec allocFrame (levels.map fun level => indexAt level va)
    (indexAt 3 va) (f.leafEntry pa attrs) b.root b.toArena
  (step.1,{ b with toArena := step.2 })

/-- The four-level walk: the page and the attribute bits of a valid leaf. -/
def walk (f : Format) (b : PageTableBuilder A) (v : Word) : Option (Word × Word) :=
  (lookup f.codec b.tables (levels.map fun level => indexAt level v) (indexAt 3 v) b.root).map
    fun e => (f.address e,e&&& ~~~f.addressField)

structure MapCall where
  va : Word
  pa : Word
  attrs : Word

/-- Calls of `map_page` one after another, with the result of each. -/
def mapPages (f : Format) : List MapCall → PageTableBuilder A →
    List (Option Unit) × PageTableBuilder A
  | [], b => ([],b)
  | c::calls, b =>
    let step := mapPage f b c.va c.pa c.attrs
    let rest := mapPages f calls step.2
    (step.1::rest.1,rest.2)

def SamePage (x y : Word) : Prop := x.extractLsb 47 12 = y.extractLsb 47 12

instance (x y : Word) : Decidable (SamePage x y) :=
  inferInstanceAs (Decidable (x.extractLsb 47 12 = y.extractLsb 47 12))

/-- The last call of a run that succeeded on the page of an address. -/
def lastSuccessful (calls : List MapCall) (results : List (Option Unit)) (v : Word) :
    Option MapCall :=
  ((calls.zip results).reverse.find? fun x => x.2.isSome && decide (SamePage x.1.va v)).map
    Prod.fst

def keyOf (va : Word) : List (Fin 512) :=
  (levels.map fun level => indexAt level va)++[indexAt 3 va]

theorem indexAt_val (level : ℕ) (va : Word) :
    (indexAt level va).val = va.toNat/2^(39-level*9)%512 := by
  show ((va>>>(39-level*9))&&&0x1FF#64).toNat = _
  rw [BitVec.toNat_and,BitVec.toNat_ushiftRight,Nat.shiftRight_eq_div_pow]
  exact Nat.and_two_pow_sub_one_eq_mod _ 9

theorem samePage_iff (x y : Word) :
    SamePage x y ↔ x.toNat/2^12%2^36 = y.toNat/2^12%2^36 := by
  unfold SamePage
  rw [← BitVec.toNat_inj,BitVec.extractLsb_toNat,BitVec.extractLsb_toNat,
    Nat.shiftRight_eq_div_pow,Nat.shiftRight_eq_div_pow]

theorem keyOf_eq_iff (x y : Word) : keyOf x = keyOf y ↔ SamePage x y := by
  have hkey : keyOf x = keyOf y ↔
      (indexAt 0 x).val = (indexAt 0 y).val ∧ (indexAt 1 x).val = (indexAt 1 y).val ∧
        (indexAt 2 x).val = (indexAt 2 y).val ∧ (indexAt 3 x).val = (indexAt 3 y).val := by
    simp [keyOf,levels,Fin.ext_iff]
  rw [hkey,samePage_iff]
  simp only [indexAt_val]
  have hx := x.isLt
  have hy := y.isLt
  omega

omit [FrameAllocator A] in
theorem walk_samePage (f : Format) (b : PageTableBuilder A) (x y : Word)
    (h : SamePage x y) : walk f b x = walk f b y := by
  have hkey := List.append_inj' ((keyOf_eq_iff x y).mpr h) rfl
  have hlast : indexAt 3 x = indexAt 3 y := by simpa using hkey.2
  unfold walk
  rw [hkey.1,hlast]

def MapCall.request (f : Format) (c : MapCall) : Request (Fin 512) Word :=
  { path := levels.map fun level => indexAt level c.va, last := indexAt 3 c.va,
    entry := f.leafEntry c.pa c.attrs }

theorem mapPages_eq (f : Format) (calls : List MapCall) (b : PageTableBuilder A) :
    (mapPages f calls b).1.map Option.isSome =
        (installAll f.codec allocFrame b.root (calls.map (MapCall.request f)) b.toArena).1 ∧
      (mapPages f calls b).2 =
        { b with toArena :=
          (installAll f.codec allocFrame b.root (calls.map (MapCall.request f)) b.toArena).2 } := by
  induction calls generalizing b with
  | nil => exact ⟨rfl,rfl⟩
  | cons c calls ih =>
    have hrest := ih (mapPage f b c.va c.pa c.attrs).2
    constructor
    · rw [mapPages,List.map_cons,hrest.1]
      rfl
    · rw [mapPages]
      exact hrest.2

theorem latest_request (f : Format) (calls : List MapCall) (results : List (Option Unit))
    (v : Word) :
    latest ((calls.map (MapCall.request f)).zip (results.map Option.isSome)) (keyOf v) =
      (lastSuccessful calls results v).map (MapCall.request f) := by
  unfold latest lastSuccessful
  rw [List.zip_map,← List.map_reverse,List.find?_map,Option.map_map,Option.map_map]
  have hpred : ((fun x : Request (Fin 512) Word × Bool => x.2 && decide (x.1.key = keyOf v)) ∘
      Prod.map (MapCall.request f) Option.isSome) =
      fun x : MapCall × Option Unit => x.2.isSome && decide (SamePage x.1.va v) := by
    funext x
    have hk : (x.1.request f).key = keyOf v ↔ SamePage x.1.va v := keyOf_eq_iff x.1.va v
    simp [hk]
  rw [hpred]
  rfl

theorem lastSuccessful_mem (calls : List MapCall) (results : List (Option Unit)) (v : Word)
    (c : MapCall) (h : lastSuccessful calls results v = some c) :
    c ∈ calls ∧ SamePage c.va v := by
  obtain ⟨x,hx,hc⟩ := Option.map_eq_some_iff.mp h
  have hin := List.mem_of_find?_eq_some hx
  have hp := List.find?_some hx
  rw [List.mem_reverse] at hin
  subst hc
  simp only [Bool.and_eq_true,decide_eq_true_eq] at hp
  exact ⟨(List.of_mem_zip hin).1,hp.2⟩

theorem new_some (f : Format) (allocator : A) (physToTable : Word → Fin 512 → Word)
    (b : PageTableBuilder A) (h : new allocator physToTable = some b) :
    (allocFrame allocator).1 = some b.root ∧
      b.toArena = bareRoot f.codec b.root (allocFrame allocator).2 physToTable := by
  unfold new at h
  cases ha : allocFrame allocator with
  | mk result rest =>
    rw [ha] at h
    cases result with
    | none => simp at h
    | some root =>
      rw [← Option.some.inj h]
      exact ⟨rfl,rfl⟩

section Runs
variable (allocator : A) (physToTable : Word → Fin 512 → Word) (b : PageTableBuilder A)
  (hallocator : Honest allocFrame IsFrame allocator)
  (hnew : new allocator physToTable = some b) (calls : List MapCall)
include hallocator hnew

theorem walk_mapPages (f : Format) (hf : f.Faithful)
    (hcalls : ∀ c ∈ calls, c.pa.toNat < 2^48 ∧ f.Admits c.attrs) (v : Word) :
    walk f (mapPages f calls b).2 v =
      (lastSuccessful calls (mapPages f calls b).1 v).map fun c => (pageBase c.pa,c.attrs) := by
  obtain ⟨hroot,harena⟩ := new_some f allocator physToTable b hnew
  obtain ⟨hresults,hbuilder⟩ := mapPages_eq f calls b
  have hreq : ∀ r ∈ calls.map (MapCall.request f),
      r.path.length = 3 ∧ f.codec.present r.entry = true := by
    intro r hr
    obtain ⟨c,hc,hcr⟩ := List.mem_map.mp hr
    subst hcr
    exact ⟨rfl,hf.leaf_valid c.pa c.attrs (hcalls c hc).2⟩
  have hlookup := lookup_installAll hf.lawful allocator hallocator hroot physToTable
    (calls.map (MapCall.request f)) hreq (levels.map fun level => indexAt level v)
    (indexAt 3 v) rfl
  rw [← harena,← hresults] at hlookup
  unfold walk
  rw [hbuilder]
  show Option.map _ (lookup f.codec (installAll f.codec allocFrame b.root
    (calls.map (MapCall.request f)) b.toArena).2.tables _ _ b.root) = _
  rw [hlookup]
  show Option.map _ (Option.map Request.entry
    (latest ((calls.map (MapCall.request f)).zip
      ((mapPages f calls b).1.map Option.isSome)) (keyOf v))) = _
  rw [latest_request]
  cases hl : lastSuccessful calls (mapPages f calls b).1 v with
  | none => rfl
  | some c =>
    have hc := hcalls c (lastSuccessful_mem calls _ v c hl).1
    show some (f.address (f.leafEntry c.pa c.attrs),
      f.leafEntry c.pa c.attrs&&& ~~~f.addressField) = some (pageBase c.pa,c.attrs)
    rw [hf.leaf_address c.pa c.attrs hc.1 hc.2,hf.leaf_attrs c.pa c.attrs hc.2]

theorem results_mapPages (f : Format) (hf : f.Faithful) :
    (mapPages f calls b).1.map Option.isSome =
      (claimAll allocFrame (calls.map fun c => levels.map fun level => indexAt level c.va)
        (rootOnly b.root (allocFrame allocator).2)).1 := by
  obtain ⟨hroot,harena⟩ := new_some f allocator physToTable b hnew
  have hreq : ∀ r ∈ calls.map (MapCall.request f), r.path.length = 3 := by
    intro r hr
    obtain ⟨c,_,hcr⟩ := List.mem_map.mp hr
    subst hcr
    rfl
  have hres := installAll_results hf.lawful allocator hallocator hroot physToTable
    (calls.map (MapCall.request f)) hreq
  rw [← harena] at hres
  rw [(mapPages_eq f calls b).1,hres,List.map_map]
  rfl

end Runs

theorem results_injective (xs ys : List (Option Unit))
    (h : xs.map Option.isSome = ys.map Option.isSome) : xs = ys := by
  apply List.map_injective_iff.mpr _ h
  intro x y hxy
  cases x <;> cases y <;> simp_all

/-- A walk finds the last successful call on its page. The same calls on a builder
of another format, from the same allocator, succeed at the same places and
translate every address alike. -/
theorem walk_last_successful (arch : Arch) (allocator : A)
    (physToTable : Word → Fin 512 → Word) (b : PageTableBuilder A)
    (hallocator : Honest allocFrame IsFrame allocator)
    (hnew : new allocator physToTable = some b) (calls : List MapCall)
    (hcalls : ∀ c ∈ calls, c.pa.toNat < 2^48 ∧ arch.format.Admits c.attrs) :
    (∀ v, walk arch.format (mapPages arch.format calls b).2 v =
      (lastSuccessful calls (mapPages arch.format calls b).1 v).map fun c =>
        (pageBase c.pa,c.attrs)) ∧
    ∀ (other : Arch) (physToTable' : Word → Fin 512 → Word) (b' : PageTableBuilder A),
      new allocator physToTable' = some b' → (∀ c ∈ calls, other.format.Admits c.attrs) →
      (mapPages other.format calls b').1 = (mapPages arch.format calls b).1 ∧
      ∀ v, walk other.format (mapPages other.format calls b').2 v =
        walk arch.format (mapPages arch.format calls b).2 v := by
  have hwalk := walk_mapPages allocator physToTable b hallocator hnew calls arch.format
    (faithful arch) hcalls
  refine ⟨hwalk,?_⟩
  intro other physToTable' b' hnew' hother
  have hroots : b'.root = b.root := by
    have h := (new_some arch.format allocator physToTable b hnew).1
    have h' := (new_some arch.format allocator physToTable' b' hnew').1
    exact Option.some.inj (h'.symm.trans h)
  have hresults : (mapPages other.format calls b').1 = (mapPages arch.format calls b).1 := by
    apply results_injective
    rw [results_mapPages allocator physToTable' b' hallocator hnew' calls other.format
        (faithful other),
      results_mapPages allocator physToTable b hallocator hnew calls arch.format
        (faithful arch),hroots]
  refine ⟨hresults,?_⟩
  intro v
  rw [hwalk v,walk_mapPages allocator physToTable' b' hallocator hnew' calls other.format
    (faithful other) (fun c hc => ⟨(hcalls c hc).1,hother c hc⟩) v,hresults]

/-- An allocator that hands out a fixed list of frames and then fails. -/
structure FramePool where
  frames : List Word

instance : FrameAllocator FramePool where
  allocFrame := fun pool =>
    match pool.frames with
    | [] => (none,pool)
    | frame::rest => (some frame,⟨rest⟩)

theorem framePool_outcome (frames : List Word) (n : ℕ) :
    outcome allocFrame (FramePool.mk frames) n = frames[n]? := by
  induction n generalizing frames with
  | zero => cases frames <;> rfl
  | succ n ih =>
    cases frames with
    | nil => exact ih []
    | cons frame rest => exact ih rest

theorem framePool_honest (frames : List Word) (hn : frames.Nodup)
    (hf : ∀ f ∈ frames, IsFrame f) : Honest allocFrame IsFrame (FramePool.mk frames) := by
  constructor
  · intro n f h
    rw [framePool_outcome] at h
    exact hf f (List.mem_of_getElem? h)
  · intro m n f hm hk
    rw [framePool_outcome] at hm hk
    have hlt : m < frames.length := by
      by_contra hge
      rw [List.getElem?_eq_none (by omega)] at hm
      exact absurd hm (by simp)
    exact (List.getElem?_inj hlt hn).mp (hm.trans hk.symm)

/-- Five frames: a root, one path, and one table of a path that cannot be finished. -/
def fiveFrames : List Word := [0x1000#64,0x2000#64,0x3000#64,0x4000#64,0x5000#64]

def fiveBuilder : PageTableBuilder FramePool where
  allocator := ⟨[0x2000#64,0x3000#64,0x4000#64,0x5000#64]⟩
  tables := Function.update (fun _ _ => 0xFF#64) 0x1000#64 (fun _ => 0#64)
  root := 0x1000#64

def fiveCalls : List MapCall :=
  [⟨0xFFFFFFFF80000000#64,0x200000#64,0xC7#64⟩,⟨0x400000#64,0x300000#64,0xC7#64⟩,
    ⟨0xFFFFFFFF80000000#64,0x201234#64,0xC3#64⟩]

theorem fiveFrames_honest : Honest allocFrame IsFrame (FramePool.mk fiveFrames) :=
  framePool_honest fiveFrames (by decide) (by simp [fiveFrames,IsFrame])

theorem fiveBuilder_new : new ⟨fiveFrames⟩ (fun _ _ => 0xFF#64) = some fiveBuilder := rfl

theorem walk_last_successful_five :
    (mapPages Riscv64.format fiveCalls fiveBuilder).1 = [some (),none,some ()] ∧
    walk Riscv64.format (mapPages Riscv64.format fiveCalls fiveBuilder).2
      0xFFFFFFFF80000ABC#64 = some (0x201000#64,0xC3#64) ∧
    walk Riscv64.format (mapPages Riscv64.format fiveCalls fiveBuilder).2 0x400000#64 = none ∧
    walk Loongarch64.format (mapPages Loongarch64.format fiveCalls fiveBuilder).2
      0xFFFFFFFF80000ABC#64 = some (0x201000#64,0xC3#64) := by
  have hcalls : ∀ c ∈ fiveCalls,
      c.pa.toNat < 2^48 ∧ Arch.riscv64.format.Admits c.attrs := by decide
  have hother : ∀ c ∈ fiveCalls, Arch.loongarch64.format.Admits c.attrs := by decide
  have h := walk_last_successful .riscv64 ⟨fiveFrames⟩ _ fiveBuilder fiveFrames_honest
    fiveBuilder_new fiveCalls hcalls
  have hsame := (h.2 .loongarch64 _ fiveBuilder fiveBuilder_new hother).2
  have hresults : (mapPages Riscv64.format fiveCalls fiveBuilder).1 = [some (),none,some ()] := by
    decide
  refine ⟨hresults,(h.1 _).trans ?_,(h.1 _).trans ?_,(hsame _).trans ((h.1 _).trans ?_)⟩
  · show Option.map _ (lastSuccessful fiveCalls
      (mapPages Riscv64.format fiveCalls fiveBuilder).1 _) = _
    rw [hresults]
    decide
  · show Option.map _ (lastSuccessful fiveCalls
      (mapPages Riscv64.format fiveCalls fiveBuilder).1 _) = _
    rw [hresults]
    decide
  · show Option.map _ (lastSuccessful fiveCalls
      (mapPages Riscv64.format fiveCalls fiveBuilder).1 _) = _
    rw [hresults]
    decide

end Zamak.PageTables
