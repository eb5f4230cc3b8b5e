import Mathlib.Data.Nat.Bitwise
import Mathlib.Tactic.SplitIfs
import Zamak.RadixLayout

/-! # Page tables of the BIOS loader

`setup_paging` of `zamak-bios` builds three regions of 2 MiB pages under one root: the
first gibibyte as it is, the kernel, and the memory up to the last usable byte. The tables
are a radix store of depth two whose last entries are the huge pages; a walk of the
processor reads exactly those. -/

set_option autoImplicit false

namespace Zamak.BiosPaging
open Zamak.RadixStore Zamak.RadixLayout

def ptePresentWritable : ℕ := 0x3
def pteHuge : ℕ := 0x83
def identityMapPages : ℕ := 512
def kernelMapPages : ℕ := 64
def hugePageSize : ℕ := 2*1024*1024
def gib : ℕ := 1024*1024*1024
def hhdmVirtBase : ℕ := 0xFFFF800000000000
def hhdmPml4Start : ℕ := hhdmVirtBase/2^39%512
def hhdmMaxBytes : ℕ := 16*gib
def kernelVirtBase : ℕ := 0xFFFFFFFF80000000

structure MemmapEntry where
  base : ℕ
  length : ℕ
  typ : ℕ

def memmapUsable : ℕ := 0

/-- The loop of `max_physical_address`; the end of an entry wraps. -/
def maxUsableEnd (mmap : List MemmapEntry) : ℕ :=
  mmap.foldl (fun max e =>
    if e.typ ≠ memmapUsable then max
    else if (e.base+e.length)%2^64 > max then (e.base+e.length)%2^64 else max) 0

def maxPhysicalAddress (mmap : List MemmapEntry) : ℕ :=
  let max := maxUsableEnd mmap
  if max = 0 then gib else if max > hhdmMaxBytes then hhdmMaxBytes else max

def codec : Codec ℕ ℕ where
  present e := e%2 == 1
  table e := e%2 == 1 && e/128%2 == 0
  link table := table ||| ptePresentWritable
  follow e := e/2^12%2^40*2^12
  empty := 0

/-- A page for a table: aligned, and an address an entry can hold. -/
def IsTable (page : ℕ) : Prop := page%4096 = 0 ∧ page < 2^52

section Setup
variable {σ : Type*} (alloc : σ → Option ℕ × σ)

abbrev Tables (σ : Type*) := Arena ℕ (Fin 512) ℕ σ

/-- `allocate_page`: a page of the heap, zeroed. It panics when there is none. -/
def allocatePage (s : Tables σ) : Option (ℕ × Tables σ) :=
  match alloc s.allocator with
  | (none,_) => none
  | (some page,a) => some (page,{ allocator := a, tables := clear codec s.tables page })

/-- A write into a table, `none` outside of its 512 entries. -/
def store (s : Tables σ) (table index entry : ℕ) : Option (Tables σ) :=
  if h : index < 512 then some { s with tables := write s.tables table ⟨index,h⟩ entry } else none

def addTable (s : Tables σ) (parent index : ℕ) : Option (ℕ × Tables σ) := do
  let (child,s) ← allocatePage alloc s
  let s ← store s parent index (child ||| ptePresentWritable)
  some (child,s)

/-- The loop that fills a directory with huge pages from an address on. -/
def fillPages (s : Tables σ) (pd base count : ℕ) : Option (Tables σ) :=
  (List.range count).foldlM (fun s i => store s pd i ((base+i*hugePageSize) ||| pteHuge)) s

/-- The pages in the directory of a gibibyte: all, or up to the last byte. -/
def pagesInPd (maxPhys basePhys : ℕ) : ℕ :=
  if basePhys+gib ≤ maxPhys then 512 else (maxPhys-basePhys+hugePageSize-1)/hugePageSize

/-- The loop over the gibibytes below one table; the index counts them across tables. -/
def fillGib (maxPhys pdpt : ℕ) (state : Tables σ × ℕ) (pdptJ : ℕ) : Option (Tables σ × ℕ) := do
  let (s,pdptIndex) := state
  let (pd,s) ← addTable alloc s pdpt pdptJ
  let basePhys := pdptIndex*gib
  let s ← fillPages s pd basePhys (pagesInPd maxPhys basePhys)
  some (s,pdptIndex+1)

def fillHhdm (pml4 maxPhys totalPdptEntries : ℕ) (state : Tables σ × ℕ) (pml4I : ℕ) :
    Option (Tables σ × ℕ) := do
  let (s,pdptIndex) := state
  let (pdpt,s) ← addTable alloc s pml4 (hhdmPml4Start+pml4I)
  let pdptCountThis := min 512 (totalPdptEntries-pml4I*512)
  (List.range pdptCountThis).foldlM (fillGib alloc maxPhys pdpt) (s,pdptIndex)

/-- `setup_paging`: the root and the tables; `none` is a panic or a write out of bounds. -/
def setupPaging (kernelPhysBase : ℕ) (mmap : List MemmapEntry) (s : Tables σ) :
    Option (ℕ × Tables σ) := do
  let (pml4,s) ← allocatePage alloc s
  let (pdptIdent,s) ← addTable alloc s pml4 0
  let (pdIdent,s) ← addTable alloc s pdptIdent 0
  let s ← fillPages s pdIdent 0 identityMapPages
  let (pdptKernel,s) ← addTable alloc s pml4 511
  let (pdKernel,s) ← addTable alloc s pdptKernel 510
  let s ← fillPages s pdKernel kernelPhysBase kernelMapPages
  let maxPhys := maxPhysicalAddress mmap
  let totalPdptEntries := (maxPhys+(gib-1))%2^64/gib
  let (s,_) ← (List.range ((totalPdptEntries+511)/512)).foldlM
    (fillHhdm alloc pml4 maxPhys totalPdptEntries) (s,0)
  some (pml4,s)

end Setup

def Canonical (v : ℕ) : Prop := v < 2^47 ∨ 2^64-2^47 ≤ v ∧ v < 2^64

instance (v : ℕ) : Decidable (Canonical v) := inferInstanceAs (Decidable (_ ∨ _))

def indexAt (shift v : ℕ) : Fin 512 := ⟨v/2^shift%512,Nat.mod_lt _ (by decide)⟩

/-- The four-level walk of the processor, with pages of 1 GiB, 2 MiB and 4 KiB. -/
def walk (tables : ℕ → Fin 512 → ℕ) (root v : ℕ) : Option ℕ :=
  if ¬Canonical v then none
  else
    let e4 := tables root (indexAt 39 v)
    if ¬codec.table e4 then none
    else
      let e3 := tables (codec.follow e4) (indexAt 30 v)
      if ¬codec.present e3 then none
      else if ¬codec.table e3 then some (e3/2^30%2^22*2^30+v%2^30)
      else
        let e2 := tables (codec.follow e3) (indexAt 21 v)
        if ¬codec.present e2 then none
        else if ¬codec.table e2 then some (e2/2^21%2^31*2^21+v%2^21)
        else
          let e1 := tables (codec.follow e2) (indexAt 12 v)
          if ¬codec.present e1 then none else some (e1/2^12%2^40*2^12+v%2^12)

theorem or_link (page : ℕ) (h : page%4096 = 0) : page ||| ptePresentWritable = page+3 := by
  have hm : page = 2^12*(page/4096) := by omega
  rw [ptePresentWritable,hm,← Nat.two_pow_add_eq_or_of_lt (by decide : 3 < 2^12)]

theorem or_huge (address : ℕ) (h : address%2^21 = 0) :
    address ||| pteHuge = address+0x83 := by
  have hm : address = 2^21*(address/2^21) := by omega
  rw [pteHuge,hm,← Nat.two_pow_add_eq_or_of_lt (by decide : 0x83 < 2^21)]

theorem codec_lawful : Lawful codec IsTable := by
  constructor
  · rfl
  · intro e h
    simp only [codec,Bool.and_eq_true] at h ⊢
    exact h.1
  · intro page h
    have hm := h.1
    simp only [codec,or_link page h.1,Bool.and_eq_true,beq_iff_eq]
    omega
  · intro page h
    have hm := h.1
    have hb := h.2
    simp only [codec,or_link page h.1]
    omega

section Build
variable {σ : Type*} {alloc : σ → Option ℕ × σ} {root : ℕ} {s : Tables σ}
  {place : List (Fin 512) → Option ℕ} {content : List (Fin 512) → ℕ}

def Supplies (alloc : σ → Option ℕ × σ) (a : σ) (calls : ℕ) : Prop :=
  ∀ n, n < calls → (outcome alloc a n).isSome

theorem supplies_succ (a : σ) (calls : ℕ) (h : Supplies alloc a (calls+1)) :
    (∃ page, alloc a = (some page,(alloc a).2)) ∧ Supplies alloc (alloc a).2 calls := by
  constructor
  · obtain ⟨page,hp⟩ := Option.isSome_iff_exists.mp (h 0 (by omega))
    have hf : (alloc a).1 = some page := hp
    exact ⟨page,Prod.ext hf rfl⟩
  · intro n hn
    exact h (n+1) (by omega)

structure Built (alloc : σ → Option ℕ × σ) (root : ℕ) (s : Tables σ)
    (place : List (Fin 512) → Option ℕ) (content : List (Fin 512) → ℕ) : Prop where
  sound : Sound alloc IsTable root ⟨place,s.allocator⟩
  layout : Layout codec 2 s ⟨place,s.allocator⟩ content

theorem allocatePage_root (h : Honest alloc IsTable s.allocator) (calls : ℕ)
    (hs : Supplies alloc s.allocator (calls+1)) :
    ∃ root s', allocatePage alloc s = some (root,s') ∧
      Built alloc root s' (fun p => if p = [] then some root else none) (fun _ => 0) ∧
      Supplies alloc s'.allocator calls := by
  obtain ⟨⟨root,hr⟩,hrest⟩ := supplies_succ s.allocator calls hs
  refine ⟨root,bareRoot codec root (alloc s.allocator).2 s.tables,?_,?_,hrest⟩
  · rw [allocatePage,hr]
    rfl
  · constructor
    · exact sound_rootOnly s.allocator h (by rw [hr])
    · exact layout_bareRoot 2 _ s.tables

theorem addTable_built (h : Built alloc root s place content) (calls : ℕ)
    (hs : Supplies alloc s.allocator (calls+1)) (p : List (Fin 512)) (parent : ℕ) (i : Fin 512)
    (hp : place p = some parent) (hd : p.length < 2) (hn : place (p++[i]) = none) :
    ∃ child s', addTable alloc s parent i.val = some (child,s') ∧
      Built alloc root s' (Function.update place (p++[i]) (some child)) content ∧
      Supplies alloc s'.allocator calls := by
  obtain ⟨⟨child,hc⟩,hrest⟩ := supplies_succ s.allocator calls hs
  have hf : (alloc s.allocator).1 = some child := by rw [hc]
  refine ⟨child,linked codec alloc s parent i child,?_,?_,hrest⟩
  · simp only [addTable,allocatePage]
    rw [hc]
    simp [store,linked,codec]
  · constructor
    · exact sound_grown h.sound p parent child i hp hf
    · exact layout_linked h.sound h.layout p parent child i hp hd hn hf

def filled (content : List (Fin 512) → ℕ) (p : List (Fin 512)) (base count : ℕ) :
    List (Fin 512) → ℕ
  | [a,b,c] =>
    if [a,b] = p ∧ c.val < count then (base+c.val*hugePageSize) ||| pteHuge
    else content [a,b,c]
  | q => content q

theorem filled_zero (p : List (Fin 512)) (base : ℕ) : filled content p base 0 = content := by
  ext q
  unfold filled
  split <;> simp

theorem filled_succ (a b : Fin 512) (base n : ℕ) (hn : n < 512) :
    filled content [a,b] base (n+1) =
      Function.update (filled content [a,b] base n) [a,b,⟨n,hn⟩]
        ((base+n*hugePageSize) ||| pteHuge) := by
  ext q
  match q with
  | [] => rfl
  | [_] => simp [filled,Function.update]
  | [_,_] => simp [filled,Function.update]
  | _::_::_::_::_ => simp [filled,Function.update]
  | [a',b',c'] =>
    by_cases hq : [a',b',c'] = [a,b,⟨n,hn⟩]
    · simp only [List.cons.injEq,and_true] at hq
      obtain ⟨ha,hb,hc⟩ := hq
      subst ha hb hc
      simp [filled]
    · rw [Function.update_of_ne hq]
      have hlt : ([a',b'] = [a,b] ∧ c'.val < n+1) ↔ ([a',b'] = [a,b] ∧ c'.val < n) := by
        constructor
        · intro ⟨hab,hc⟩
          refine ⟨hab,?_⟩
          by_contra hge
          have hcn : c' = ⟨n,hn⟩ := Fin.ext (by simp; omega)
          simp only [List.cons.injEq,and_true] at hab hq
          exact hq ⟨hab.1,hab.2,hcn⟩
        · intro ⟨hab,hc⟩
          exact ⟨hab,by omega⟩
      simp only [filled,hlt]

theorem range_loop_succ {β : Type*} (body : β → ℕ → Option β) (start : β) (n : ℕ) :
    (List.range (n+1)).foldlM body start =
      ((List.range n).foldlM body start).bind fun s => body s n := by
  rw [List.range_succ,List.foldlM_append]
  simp

theorem fillPages_built (h : Built alloc root s place content) (a b : Fin 512) (pd : ℕ)
    (hp : place [a,b] = some pd) (base count : ℕ) (hc : count ≤ 512) :
    ∃ s', fillPages s pd base count = some s' ∧ s'.allocator = s.allocator ∧
      Built alloc root s' place (filled content [a,b] base count) := by
  induction count with
  | zero => exact ⟨s,rfl,rfl,by rw [filled_zero]; exact h⟩
  | succ n ih =>
    obtain ⟨t,hfill,halloc,ht⟩ := ih (by omega)
    have hw := layout_write ht.sound ht.layout [a,b] pd ⟨n,by omega⟩
      ((base+n*hugePageSize) ||| pteHuge) hp rfl
    refine ⟨{ t with tables := write t.tables pd ⟨n,by omega⟩ ((base+n*hugePageSize) ||| pteHuge) },
      ?_,halloc,ht.sound,?_⟩
    · rw [fillPages] at hfill
      rw [fillPages,range_loop_succ,hfill,Option.bind_some,store,dif_pos (show n < 512 by omega)]
    · rw [filled_succ a b base n (by omega)]
      exact hw

theorem pagesInPd_le (maxPhys basePhys : ℕ) : pagesInPd maxPhys basePhys ≤ 512 := by
  unfold pagesInPd
  split
  · exact le_refl _
  · simp only [gib,hugePageSize] at *
    omega

theorem pagesInPd_iff (maxPhys basePhys c : ℕ) (hc : c < 512) :
    c < pagesInPd maxPhys basePhys ↔ basePhys+c*hugePageSize < maxPhys := by
  unfold pagesInPd
  split
  · simp only [gib,hugePageSize] at *
    omega
  · simp only [gib,hugePageSize] at *
    omega

def direct (content : List (Fin 512) → ℕ) (maxPhys n : ℕ) : List (Fin 512) → ℕ
  | [a,b,c] =>
    if a = 256 ∧ b.val < n ∧ c.val < pagesInPd maxPhys (b.val*gib) then
      (b.val*gib+c.val*hugePageSize) ||| pteHuge
    else content [a,b,c]
  | q => content q

theorem direct_zero (maxPhys : ℕ) : direct content maxPhys 0 = content := by
  ext q
  unfold direct
  split <;> simp

theorem direct_succ (maxPhys n : ℕ) (hn : n < 512) :
    filled (direct content maxPhys n) [256,⟨n,hn⟩] (n*gib) (pagesInPd maxPhys (n*gib)) =
      direct content maxPhys (n+1) := by
  ext q
  match q with
  | [] => rfl
  | [_] => rfl
  | [_,_] => rfl
  | _::_::_::_::_ => rfl
  | [a,b,c] =>
    simp only [filled,direct,List.cons.injEq,and_true]
    by_cases hb : b = ⟨n,hn⟩
    · subst hb
      simp
    · have hv : b.val ≠ n := fun h => hb (Fin.ext h)
      have hlt : b.val < n+1 ↔ b.val < n := by omega
      simp [hb,hlt]

theorem fillGib_eq (s : Tables σ) (maxPhys pdpt n j : ℕ) :
    fillGib alloc maxPhys pdpt (s,n) j = (addTable alloc s pdpt j).bind fun x =>
      (fillPages x.2 x.1 (n*gib) (pagesInPd maxPhys (n*gib))).bind fun s => some (s,n+1) := rfl

theorem fillGib_built (h : Built alloc root s place content) (calls : ℕ)
    (hs : Supplies alloc s.allocator (calls+1)) (maxPhys pdpt n : ℕ) (hn : n < 512)
    (hp : place [256] = some pdpt) (hfree : place [256,⟨n,hn⟩] = none) :
    ∃ pd s', fillGib alloc maxPhys pdpt (s,n) n = some (s',n+1) ∧
      Built alloc root s' (Function.update place [256,⟨n,hn⟩] (some pd))
        (filled content [256,⟨n,hn⟩] (n*gib) (pagesInPd maxPhys (n*gib))) ∧
      Supplies alloc s'.allocator calls := by
  obtain ⟨pd,t,hadd,ht,hst⟩ :=
    addTable_built h calls hs [256] pdpt ⟨n,hn⟩ hp (by decide) hfree
  have hplace : Function.update place [256,⟨n,hn⟩] (some pd) [256,⟨n,hn⟩] = some pd := by
    rw [Function.update_self]
  obtain ⟨u,hfill,halloc,hu⟩ :=
    fillPages_built ht 256 ⟨n,hn⟩ pd hplace (n*gib) (pagesInPd maxPhys (n*gib)) (pagesInPd_le _ _)
  refine ⟨pd,u,?_,hu,by rw [halloc]; exact hst⟩
  rw [fillGib_eq]
  exact Option.bind_eq_some_iff.mpr ⟨(pd,t),hadd,Option.bind_eq_some_iff.mpr ⟨u,hfill,rfl⟩⟩

theorem fillGibs_built (h : Built alloc root s place content) (calls maxPhys pdpt n : ℕ)
    (hs : Supplies alloc s.allocator (n+calls)) (hn : n ≤ 512) (hp : place [256] = some pdpt)
    (hfree : ∀ b : Fin 512, place [256,b] = none) :
    ∃ s' place', (List.range n).foldlM (fillGib alloc maxPhys pdpt) (s,0) = some (s',n) ∧
      Built alloc root s' place' (direct content maxPhys n) ∧ place' [256] = some pdpt ∧
      (∀ b : Fin 512, n ≤ b.val → place' [256,b] = none) ∧
      Supplies alloc s'.allocator calls := by
  induction n generalizing calls with
  | zero =>
    rw [direct_zero]
    exact ⟨s,place,rfl,h,hp,fun b _ => hfree b,by simpa using hs⟩
  | succ n ih =>
    obtain ⟨t,place',hrun,ht,hp',hfree',hst⟩ :=
      ih (calls+1) (by rw [show n+(calls+1) = n+1+calls by omega]; exact hs) (by omega)
    obtain ⟨pd,u,hstep,hu,hsu⟩ :=
      fillGib_built ht calls hst maxPhys pdpt n (by omega) hp' (hfree' _ (le_refl n))
    rw [direct_succ maxPhys n (by omega)] at hu
    refine ⟨u,_,?_,hu,?_,?_,hsu⟩
    · rw [range_loop_succ,hrun,Option.bind_some,hstep]
    · rw [Function.update_of_ne (by simp)]
      exact hp'
    · intro b hb
      have hne : [256,b] ≠ [256,⟨n,by omega⟩] := by
        intro he
        simp only [List.cons.injEq,true_and,and_true] at he
        have hbn : b.val = n := congrArg Fin.val he
        omega
      rw [Function.update_of_ne hne]
      exact hfree' b (by omega)

theorem fillHhdm_eq (s : Tables σ) (pml4 maxPhys total n i : ℕ) :
    fillHhdm alloc pml4 maxPhys total (s,n) i =
      (addTable alloc s pml4 (hhdmPml4Start+i)).bind fun x =>
        (List.range (min 512 (total-i*512))).foldlM (fillGib alloc maxPhys x.1) (x.2,n) := rfl

theorem fillHhdms_built (h : Built alloc root s place content) (maxPhys n : ℕ)
    (hs : Supplies alloc s.allocator (n+1)) (hpos : 0 < n) (hn : n ≤ 512)
    (hfree : place [256] = none) :
    ∃ s' place', (List.range ((n+511)/512)).foldlM (fillHhdm alloc root maxPhys n) (s,0) =
        some (s',n) ∧ Built alloc root s' place' (direct content maxPhys n) := by
  obtain ⟨pdpt,t,hadd,ht,hst⟩ :=
    addTable_built h n hs [] root 256 h.sound.root_place (by decide) hfree
  have hbelow : ∀ b : Fin 512,
      Function.update place ([]++[256]) (some pdpt) [256,b] = none := by
    intro b
    rw [Function.update_of_ne (by simp)]
    exact h.sound.closed [256] b hfree
  obtain ⟨u,place',hrun,hu,_⟩ := fillGibs_built ht 0 maxPhys pdpt n hst hn
    (Function.update_self _ _ _) hbelow
  have hone : (n+511)/512 = 1 := by omega
  have hcount : min 512 (n-0*512) = n := by omega
  refine ⟨u,place',?_,hu⟩
  rw [hone,show List.range 1 = [0] from rfl,List.foldlM_cons,fillHhdm_eq]
  refine Option.bind_eq_some_iff.mpr ⟨(u,n),?_,rfl⟩
  refine Option.bind_eq_some_iff.mpr ⟨(pdpt,t),hadd,?_⟩
  rw [hcount]
  exact hrun

theorem setupPaging_eq (kernel : ℕ) (mmap : List MemmapEntry) (s : Tables σ) :
    setupPaging alloc kernel mmap s =
      (allocatePage alloc s).bind fun r =>
      (addTable alloc r.2 r.1 0).bind fun x1 =>
      (addTable alloc x1.2 x1.1 0).bind fun x2 =>
      (fillPages x2.2 x2.1 0 identityMapPages).bind fun s3 =>
      (addTable alloc s3 r.1 511).bind fun x4 =>
      (addTable alloc x4.2 x4.1 510).bind fun x5 =>
      (fillPages x5.2 x5.1 kernel kernelMapPages).bind fun s6 =>
      ((List.range (((maxPhysicalAddress mmap+(gib-1))%2^64/gib+511)/512)).foldlM
        (fillHhdm alloc r.1 (maxPhysicalAddress mmap)
          ((maxPhysicalAddress mmap+(gib-1))%2^64/gib)) (s6,0)).bind fun x7 =>
      some (r.1,x7.1) := rfl

theorem addRegion_built (h : Built alloc root s place content) (calls : ℕ)
    (hs : Supplies alloc s.allocator (calls+2)) (a b : Fin 512) (base count : ℕ)
    (hc : count ≤ 512) (hfree : place [a] = none) :
    ∃ pdpt pd s1 s2 s' place', addTable alloc s root a.val = some (pdpt,s1) ∧
      addTable alloc s1 pdpt b.val = some (pd,s2) ∧ fillPages s2 pd base count = some s' ∧
      Built alloc root s' place' (filled content [a,b] base count) ∧
      (∀ i, i ≠ a → place' [i] = place [i]) ∧ Supplies alloc s'.allocator calls := by
  obtain ⟨pdpt,s1,h1,hb1,hs1⟩ :=
    addTable_built h (calls+1) hs [] root a h.sound.root_place (by decide) hfree
  have hbelow : Function.update place ([]++[a]) (some pdpt) ([a]++[b]) = none := by
    rw [Function.update_of_ne (by simp)]
    exact h.sound.closed [a] b hfree
  obtain ⟨pd,s2,h2,hb2,hs2⟩ :=
    addTable_built hb1 calls hs1 [a] pdpt b (Function.update_self _ _ _) (by simp) hbelow
  obtain ⟨s3,h3,ha3,hb3⟩ :=
    fillPages_built hb2 a b pd (Function.update_self _ _ _) base count hc
  refine ⟨pdpt,pd,s1,s2,s3,_,h1,h2,h3,hb3,?_,by rw [ha3]; exact hs2⟩
  intro i hi
  rw [Function.update_of_ne (by simp),Function.update_of_ne (by simpa using hi)]

def regions (kernel maxPhys n : ℕ) : List (Fin 512) → ℕ :=
  direct (filled (filled (fun _ => 0) [0,0] 0 identityMapPages) [511,510] kernel kernelMapPages)
    maxPhys n

theorem maxPhysicalAddress_pos (mmap : List MemmapEntry) : 0 < maxPhysicalAddress mmap := by
  simp only [maxPhysicalAddress]
  split_ifs with hzero hcap
  · decide
  · decide
  · exact Nat.pos_of_ne_zero hzero

theorem maxPhysicalAddress_le (mmap : List MemmapEntry) :
    maxPhysicalAddress mmap ≤ hhdmMaxBytes := by
  simp only [maxPhysicalAddress]
  split_ifs with hzero hcap
  · decide
  · exact le_refl _
  · exact Nat.le_of_not_lt hcap

def gibibytes (maxPhys : ℕ) : ℕ := (maxPhys+(gib-1))/gib

theorem total_gib (top : ℕ) (h : top ≤ hhdmMaxBytes) :
    (top+(gib-1))%2^64/gib = gibibytes top := by
  simp only [gibibytes,gib,hhdmMaxBytes] at *
  omega

theorem gibibytes_range (top : ℕ) (hpos : 0 < top) (h : top ≤ hhdmMaxBytes) :
    0 < gibibytes top ∧ gibibytes top ≤ 512 := by
  simp only [gibibytes,gib,hhdmMaxBytes] at *
  omega

theorem setupPaging_built (kernel : ℕ) (mmap : List MemmapEntry) (s : Tables σ)
    (h : Honest alloc IsTable s.allocator)
    (hs : Supplies alloc s.allocator (6+gibibytes (maxPhysicalAddress mmap))) :
    ∃ root s' place, setupPaging alloc kernel mmap s = some (root,s') ∧
      Built alloc root s' place
        (regions kernel (maxPhysicalAddress mmap) (gibibytes (maxPhysicalAddress mmap))) := by
  have hpos := maxPhysicalAddress_pos mmap
  have hle := maxPhysicalAddress_le mmap
  have htotal := total_gib (maxPhysicalAddress mmap) hle
  have hn := gibibytes_range (maxPhysicalAddress mmap) hpos hle
  rw [Nat.add_comm] at hs
  obtain ⟨root,s0,h0,hb0,hs0⟩ := allocatePage_root h (gibibytes (maxPhysicalAddress mmap)+5) hs
  obtain ⟨pdptIdent,pdIdent,s1,s2,s3,place3,h1,h2,h3,hb3,ho3,hs3⟩ :=
    addRegion_built hb0 (gibibytes (maxPhysicalAddress mmap)+3) hs0 0 0 0 identityMapPages
      (by decide) rfl
  obtain ⟨pdptKernel,pdKernel,s4,s5,s6,place6,h4,h5,h6,hb6,ho6,hs6⟩ :=
    addRegion_built hb3 (gibibytes (maxPhysicalAddress mmap)+1) hs3 511 510 kernel kernelMapPages
      (by decide) (ho3 511 (by decide))
  have hfree : place6 [256] = none := by
    rw [ho6 256 (by decide),ho3 256 (by decide)]
    rfl
  obtain ⟨s7,place,h7,hb7⟩ :=
    fillHhdms_built hb6 (maxPhysicalAddress mmap) (gibibytes (maxPhysicalAddress mmap)) hs6 hn.1 hn.2 hfree
  refine ⟨root,s7,place,?_,hb7⟩
  rw [setupPaging_eq,htotal]
  refine Option.bind_eq_some_iff.mpr ⟨_,h0,?_⟩
  refine Option.bind_eq_some_iff.mpr ⟨_,h1,?_⟩
  refine Option.bind_eq_some_iff.mpr ⟨_,h2,?_⟩
  refine Option.bind_eq_some_iff.mpr ⟨_,h3,?_⟩
  refine Option.bind_eq_some_iff.mpr ⟨_,h4,?_⟩
  refine Option.bind_eq_some_iff.mpr ⟨_,h5,?_⟩
  refine Option.bind_eq_some_iff.mpr ⟨_,h6,?_⟩
  exact Option.bind_eq_some_iff.mpr ⟨_,h7,rfl⟩

def hugePage (e offset : ℕ) : Option ℕ :=
  if ¬codec.present e then none else some (e/2^21%2^31*2^21+offset)

/-- A walk of built tables reads the last entry of its path, if these are huge pages. -/
theorem walk_built (h : Built alloc root s place content) (v : ℕ) (hv : Canonical v)
    (hhuge : ∀ q, codec.table (content q) = false) :
    walk s.tables root v =
      hugePage (content [indexAt 39 v,indexAt 30 v,indexAt 21 v]) (v%2^21) := by
  have hlaw := codec_lawful
  have hempty := empty_not_table hlaw
  have h4 := h.layout.inner [] root (indexAt 39 v) (by decide) h.sound.root_place
  simp only [walk,hv,not_true_eq_false,if_false,h4]
  cases hp : place ([]++[indexAt 39 v]) with
  | none =>
    have hbare := h.layout.bare [indexAt 39 v,indexAt 30 v] (indexAt 21 v) rfl
      (h.sound.closed [indexAt 39 v] _ hp)
    simp only [List.cons_append,List.nil_append] at hbare
    simp [hugePage,hbare,hempty,hlaw.empty_absent]
  | some pdpt =>
    have hg := h.sound.good _ _ hp
    have h3 := h.layout.inner [indexAt 39 v] pdpt (indexAt 30 v) (by simp) hp
    simp only [Option.elim_some,hlaw.link_table pdpt hg,hlaw.follow_link pdpt hg,h3,
      not_true_eq_false,if_false]
    cases hq : place ([indexAt 39 v]++[indexAt 30 v]) with
    | none =>
      have hbare := h.layout.bare [indexAt 39 v,indexAt 30 v] (indexAt 21 v) rfl hq
      simp only [List.cons_append,List.nil_append] at hbare
      simp [hugePage,hbare,hlaw.empty_absent]
    | some pd =>
      have hgd := h.sound.good _ _ hq
      have h2 := h.layout.leaf [indexAt 39 v,indexAt 30 v] pd (indexAt 21 v) rfl hq
      have hpres := hlaw.table_present _ (hlaw.link_table pd hgd)
      simp only [List.cons_append,List.nil_append] at h2
      simp [hugePage,hlaw.link_table pd hgd,hlaw.follow_link pd hgd,hpres,h2,hhuge]

theorem huge_not_table (address : ℕ) (h : address%2^21 = 0) :
    codec.table (address ||| pteHuge) = false := by
  simp only [codec,or_huge address h,Bool.and_eq_false_iff,beq_eq_false_iff_ne]
  omega

theorem hugePage_huge (address offset : ℕ) (h : address%2^21 = 0) (hb : address < 2^52) :
    hugePage (address ||| pteHuge) offset = some (address+offset) := by
  have hpresent : codec.present (address ||| pteHuge) = true := by
    simp only [codec,or_huge address h,beq_iff_eq]
    omega
  have haddress : (address ||| pteHuge)/2^21%2^31*2^21 = address := by
    rw [or_huge address h]
    omega
  rw [hugePage,if_neg (not_not.mpr hpresent),haddress]

theorem regions_eq (kernel maxPhys n : ℕ) (a b c : Fin 512) :
    regions kernel maxPhys n [a,b,c] =
      if a = 256 ∧ b.val < n ∧ c.val < pagesInPd maxPhys (b.val*gib) then
        (b.val*gib+c.val*hugePageSize) ||| pteHuge
      else if [a,b] = [511,510] ∧ c.val < kernelMapPages then
        (kernel+c.val*hugePageSize) ||| pteHuge
      else if [a,b] = [0,0] ∧ c.val < identityMapPages then
        (0+c.val*hugePageSize) ||| pteHuge
      else 0 := rfl

theorem regions_huge (kernel maxPhys n : ℕ) (hk : kernel%hugePageSize = 0)
    (q : List (Fin 512)) : codec.table (regions kernel maxPhys n q) = false := by
  simp only [hugePageSize] at hk
  match q with
  | [] => rfl
  | [_] => rfl
  | [_,_] => rfl
  | _::_::_::_::_ => rfl
  | [a,b,c] =>
    rw [regions_eq]
    split_ifs
    · exact huge_not_table _ (by simp only [gib,hugePageSize]; omega)
    · exact huge_not_table _ (by simp only [hugePageSize]; omega)
    · exact huge_not_table _ (by simp only [hugePageSize]; omega)
    · rfl

def roundedUp (top : ℕ) : ℕ := (top+hugePageSize-1)/hugePageSize*hugePageSize

def mapped (kernel top v : ℕ) : Option ℕ :=
  if v < gib then some v
  else if hhdmVirtBase ≤ v ∧ v < hhdmVirtBase+roundedUp top then some (v-hhdmVirtBase)
  else if kernelVirtBase ≤ v ∧ v < kernelVirtBase+kernelMapPages*hugePageSize then
    some (kernel+(v-kernelVirtBase))
  else none

theorem indexAt_eq (shift v : ℕ) (i : Fin 512) : indexAt shift v = i ↔ v/2^shift%512 = i.val := by
  rw [Fin.ext_iff]
  rfl

theorem identity_index (v : ℕ) (hv : Canonical v) :
    [indexAt 39 v,indexAt 30 v] = [0,0] ↔ v < gib := by
  simp only [List.cons.injEq,and_true,indexAt_eq]
  show v/2^39%512 = 0 ∧ v/2^30%512 = 0 ↔ v < gib
  simp only [Canonical,gib] at *
  omega

theorem kernel_index (v : ℕ) (hv : Canonical v) :
    ([indexAt 39 v,indexAt 30 v] = [511,510] ∧ (indexAt 21 v).val < kernelMapPages) ↔
      kernelVirtBase ≤ v ∧ v < kernelVirtBase+kernelMapPages*hugePageSize := by
  simp only [List.cons.injEq,and_true,indexAt_eq]
  show (v/2^39%512 = 511 ∧ v/2^30%512 = 510) ∧ v/2^21%512 < kernelMapPages ↔ _
  simp only [Canonical,kernelVirtBase,kernelMapPages,hugePageSize] at *
  omega

theorem direct_index (top v : ℕ) (hv : Canonical v) (hpos : 0 < top)
    (hle : top ≤ hhdmMaxBytes) :
    (indexAt 39 v = 256 ∧ (indexAt 30 v).val < gibibytes top ∧
        (indexAt 21 v).val < pagesInPd top ((indexAt 30 v).val*gib)) ↔
      hhdmVirtBase ≤ v ∧ v < hhdmVirtBase+roundedUp top := by
  rw [indexAt_eq,pagesInPd_iff _ _ _ (indexAt 21 v).isLt]
  show (v/2^39%512 = 256 ∧ v/2^30%512 < gibibytes top ∧
    v/2^30%512*gib+v/2^21%512*hugePageSize < top) ↔ _
  simp only [Canonical,hhdmMaxBytes,hhdmVirtBase,roundedUp,gibibytes,gib,hugePageSize] at *
  omega

theorem mapped_direct (kernel top v : ℕ)
    (hd : hhdmVirtBase ≤ v ∧ v < hhdmVirtBase+roundedUp top) :
    mapped kernel top v = some (v-hhdmVirtBase) := by
  have hi : ¬v < gib := by
    have hlo := hd.1
    simp only [hhdmVirtBase,gib] at *
    omega
  rw [mapped,if_neg hi,if_pos hd]

theorem mapped_kernel (kernel top v : ℕ)
    (hd : ¬(hhdmVirtBase ≤ v ∧ v < hhdmVirtBase+roundedUp top))
    (hk : kernelVirtBase ≤ v ∧ v < kernelVirtBase+kernelMapPages*hugePageSize) :
    mapped kernel top v = some (kernel+(v-kernelVirtBase)) := by
  have hi : ¬v < gib := by
    have hlo := hk.1
    simp only [kernelVirtBase,gib] at *
    omega
  rw [mapped,if_neg hi,if_neg hd,if_pos hk]

theorem walk_direct (top v : ℕ) (hle : top ≤ hhdmMaxBytes)
    (hd : hhdmVirtBase ≤ v ∧ v < hhdmVirtBase+roundedUp top) :
    hugePage (((indexAt 30 v).val*gib+(indexAt 21 v).val*hugePageSize) ||| pteHuge) (v%2^21) =
      some (v-hhdmVirtBase) := by
  have hsum : (indexAt 30 v).val*gib+(indexAt 21 v).val*hugePageSize+v%2^21 =
      v-hhdmVirtBase := by
    simp only [indexAt,hhdmVirtBase,roundedUp,hhdmMaxBytes,gib,hugePageSize] at *
    omega
  have halign : ((indexAt 30 v).val*gib+(indexAt 21 v).val*hugePageSize)%2^21 = 0 := by
    simp only [gib,hugePageSize]
    omega
  have hbound : (indexAt 30 v).val*gib+(indexAt 21 v).val*hugePageSize < 2^52 := by
    simp only [gib,hugePageSize]
    omega
  rw [hugePage_huge _ _ halign hbound,hsum]

theorem walk_kernel (kernel v : ℕ) (hk : kernel%hugePageSize = 0)
    (hb : kernel+kernelMapPages*hugePageSize < 2^52)
    (hr : kernelVirtBase ≤ v ∧ v < kernelVirtBase+kernelMapPages*hugePageSize) :
    hugePage ((kernel+(indexAt 21 v).val*hugePageSize) ||| pteHuge) (v%2^21) =
      some (kernel+(v-kernelVirtBase)) := by
  have hsum : kernel+(indexAt 21 v).val*hugePageSize+v%2^21 = kernel+(v-kernelVirtBase) := by
    simp only [indexAt,kernelVirtBase,kernelMapPages,hugePageSize] at *
    omega
  have halign : (kernel+(indexAt 21 v).val*hugePageSize)%2^21 = 0 := by
    simp only [hugePageSize] at *
    omega
  have hpage : (indexAt 21 v).val < kernelMapPages := by
    simp only [indexAt,kernelVirtBase,kernelMapPages,hugePageSize] at *
    omega
  have hbound : kernel+(indexAt 21 v).val*hugePageSize < 2^52 := by
    have hle := Nat.mul_le_mul_right hugePageSize hpage.le
    omega
  rw [hugePage_huge _ _ halign hbound,hsum]

theorem walk_identity (v : ℕ) (hi : v < gib) :
    hugePage ((0+(indexAt 21 v).val*hugePageSize) ||| pteHuge) (v%2^21) = some v := by
  have hsum : 0+(indexAt 21 v).val*hugePageSize+v%2^21 = v := by
    simp only [indexAt,gib,hugePageSize] at *
    omega
  have halign : (0+(indexAt 21 v).val*hugePageSize)%2^21 = 0 := by
    simp only [hugePageSize]
    omega
  have hbound : 0+(indexAt 21 v).val*hugePageSize < 2^52 := by
    simp only [hugePageSize]
    omega
  rw [hugePage_huge _ _ halign hbound,hsum]

theorem mapped_noncanonical (kernel top v : ℕ) (hle : top ≤ hhdmMaxBytes)
    (hv : ¬Canonical v) : mapped kernel top v = none := by
  simp only [Canonical,hhdmMaxBytes,gib] at hv hle
  rw [mapped,if_neg,if_neg,if_neg]
  · simp only [kernelVirtBase,kernelMapPages,hugePageSize]
    omega
  · simp only [hhdmVirtBase,roundedUp,hugePageSize]
    omega
  · simp only [gib]
    omega

theorem walk_regions (kernel top : ℕ) (hpos : 0 < top) (hle : top ≤ hhdmMaxBytes)
    (hk : kernel%hugePageSize = 0) (hb : kernel+kernelMapPages*hugePageSize < 2^52)
    (h : Built alloc root s place (regions kernel top (gibibytes top))) (v : ℕ) :
    walk s.tables root v = mapped kernel top v := by
  by_cases hv : Canonical v
  · have hc : (indexAt 21 v).val < identityMapPages := (indexAt 21 v).isLt
    rw [walk_built h v hv (regions_huge kernel top _ hk),regions_eq]
    simp only [direct_index top v hv hpos hle,kernel_index v hv,identity_index v hv]
    by_cases hd : hhdmVirtBase ≤ v ∧ v < hhdmVirtBase+roundedUp top
    · rw [if_pos hd,walk_direct top v hle hd,mapped_direct kernel top v hd]
    · rw [if_neg hd]
      by_cases hr : kernelVirtBase ≤ v ∧ v < kernelVirtBase+kernelMapPages*hugePageSize
      · rw [if_pos hr,walk_kernel kernel v hk hb hr,mapped_kernel kernel top v hd hr]
      · rw [if_neg hr,mapped,if_neg hd,if_neg hr]
        by_cases hi : v < gib
        · rw [if_pos ⟨hi,hc⟩,if_pos hi,walk_identity v hi]
        · rw [if_neg (fun h => hi h.1),if_neg hi]
          rfl
  · rw [mapped_noncanonical kernel top v hle hv]
    simp [walk,hv]

theorem setupPaging_walk (kernel : ℕ) (mmap : List MemmapEntry) (s : Tables σ)
    (hk : kernel%hugePageSize = 0) (hb : kernel+kernelMapPages*hugePageSize < 2^52)
    (h : Honest alloc IsTable s.allocator)
    (hs : Supplies alloc s.allocator (6+gibibytes (maxPhysicalAddress mmap))) :
    ∃ root s', setupPaging alloc kernel mmap s = some (root,s') ∧
      ∀ v, walk s'.tables root v = mapped kernel (maxPhysicalAddress mmap) v := by
  obtain ⟨root,s',place,hrun,hbuilt⟩ := setupPaging_built kernel mmap s h hs
  refine ⟨root,s',hrun,?_⟩
  intro v
  exact walk_regions kernel _ (maxPhysicalAddress_pos mmap) (maxPhysicalAddress_le mmap) hk hb
    hbuilt v

end Build

def usableEnds (mmap : List MemmapEntry) : List ℕ :=
  (mmap.filter (fun e => e.typ = memmapUsable)).map (fun e => e.base+e.length)

/-- The end of the direct map: the largest usable end up to the cap, and a gibibyte when
there is none or it is zero. -/
def hhdmTop (mmap : List MemmapEntry) : ℕ :=
  match (usableEnds mmap).max? with
  | none => gib
  | some top => if top = 0 then gib else min top hhdmMaxBytes

theorem maxUsableEnd_foldl (mmap : List MemmapEntry) (acc : ℕ)
    (h : ∀ e ∈ mmap, e.base+e.length < 2^64) :
    mmap.foldl (fun max e =>
      if e.typ ≠ memmapUsable then max
      else if (e.base+e.length)%2^64 > max then (e.base+e.length)%2^64 else max) acc =
      (usableEnds mmap).foldl max acc := by
  induction mmap generalizing acc with
  | nil => rfl
  | cons e rest ih =>
    have hw : (e.base+e.length)%2^64 = e.base+e.length := Nat.mod_eq_of_lt (h e (by simp))
    rw [List.foldl_cons,ih _ (fun e he => h e (by simp [he])),hw]
    by_cases hu : e.typ = memmapUsable
    · have hmax : (if e.base+e.length > acc then e.base+e.length else acc) =
          max acc (e.base+e.length) := by
        split_ifs with hgt
        · exact (max_eq_right hgt.le).symm
        · exact (max_eq_left (Nat.le_of_not_lt hgt)).symm
      simp [usableEnds,hu,hmax]
    · simp [usableEnds,hu]

theorem maxPhysicalAddress_eq (mmap : List MemmapEntry)
    (h : ∀ e ∈ mmap, e.base+e.length < 2^64) : maxPhysicalAddress mmap = hhdmTop mmap := by
  have hfold := maxUsableEnd_foldl mmap 0 h
  rw [← maxUsableEnd] at hfold
  simp only [maxPhysicalAddress,hfold,hhdmTop]
  cases usableEnds mmap with
  | nil => rfl
  | cons first rest =>
    simp only [List.foldl_cons,List.max?_cons',Nat.zero_max]
    split_ifs with hzero hcap
    · rfl
    · exact (min_eq_right (Nat.le_of_lt hcap)).symm
    · exact (min_eq_left (Nat.le_of_not_lt hcap)).symm

/-- Without an entry whose end wraps, the tables map the three regions and nothing else. -/
theorem setupPaging_maps {σ : Type*} (alloc : σ → Option ℕ × σ) (kernel : ℕ)
    (mmap : List MemmapEntry) (s : Tables σ) (hw : ∀ e ∈ mmap, e.base+e.length < 2^64)
    (hk : kernel%hugePageSize = 0) (hb : kernel+kernelMapPages*hugePageSize < 2^52)
    (h : Honest alloc IsTable s.allocator)
    (hs : Supplies alloc s.allocator (6+gibibytes (hhdmTop mmap))) :
    ∃ root s', setupPaging alloc kernel mmap s = some (root,s') ∧
      ∀ v, walk s'.tables root v = mapped kernel (hhdmTop mmap) v := by
  rw [← maxPhysicalAddress_eq mmap hw] at hs ⊢
  exact setupPaging_walk kernel mmap s hk hb h hs

def bump (n : ℕ) : Option ℕ × ℕ :=
  if n < 64 then (some (0x100000+n*4096),n+1) else (none,n)

theorem outcome_bump (n m : ℕ) :
    outcome bump n m = if n+m < 64 then some (0x100000+(n+m)*4096) else none := by
  induction m generalizing n with
  | zero =>
    simp only [outcome,bump,Nat.add_zero]
    split_ifs <;> rfl
  | succ m ih =>
    simp only [outcome,ih]
    by_cases hn : n < 64
    · simp only [bump,hn,if_true,Nat.add_assoc,Nat.add_comm 1]
    · simp [bump,hn,show ¬n+m < 64 by omega,show ¬n+(m+1) < 64 by omega]

theorem bump_honest : Honest bump IsTable 0 := by
  constructor
  · intro n page hp
    rw [outcome_bump] at hp
    split_ifs at hp with hn
    have hpage := Option.some.inj hp
    constructor <;> omega
  · intro m n page hm hn
    rw [outcome_bump] at hm hn
    split_ifs at hm hn with h1 h2
    have hpm := Option.some.inj hm
    have hpn := Option.some.inj hn
    omega

theorem bump_supplies (calls : ℕ) (h : calls ≤ 64) : Supplies bump 0 calls := by
  intro n hn
  rw [outcome_bump,if_pos (by omega)]
  rfl

theorem setupPaging_maps_half :
    ∃ root s', setupPaging bump 0x200000 [⟨0,0x20000000,0⟩] ⟨0,fun _ _ => 0⟩ = some (root,s') ∧
      ∀ v, walk s'.tables root v = mapped 0x200000 0x20000000 v :=
  setupPaging_maps bump 0x200000 [⟨0,0x20000000,0⟩] ⟨0,fun _ _ => 0⟩ (by decide) (by decide)
    (by decide) bump_honest (bump_supplies _ (by decide))

/-- A usable entry that ends at zero gives a gibibyte and not an empty map. -/
theorem empty_entry_mapped :
    Honest bump IsTable 0 ∧ (usableEnds [⟨0,0,0⟩]).max? = some 0 ∧
      ∃ root s', setupPaging bump 0 [⟨0,0,0⟩] ⟨0,fun _ _ => 0⟩ = some (root,s') ∧
        walk s'.tables root hhdmVirtBase = some 0 ∧
        mapped 0 (min 0 hhdmMaxBytes) hhdmVirtBase = none := by
  have hsupply : Supplies bump 0 (6+gibibytes (maxPhysicalAddress [⟨0,0,0⟩])) :=
    bump_supplies _ (by decide)
  obtain ⟨root,s',hrun,hwalk⟩ := setupPaging_walk 0 [⟨0,0,0⟩] ⟨0,fun _ _ => 0⟩
    (by decide) (by decide) bump_honest hsupply
  refine ⟨bump_honest,by decide,root,s',hrun,?_,by decide⟩
  rw [hwalk]
  decide

end Zamak.BiosPaging
