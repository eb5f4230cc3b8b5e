import Zamak.RadixLayout

/-! # Runs of insertions into a radix store

Insertions one after another, some of which fail for want of frames. What
succeeds is decided by the directory alone, and a lookup returns the entry of
the last insertion that succeeded at its path. -/

set_option autoImplicit false

namespace Zamak.RadixRuns
open Zamak.RadixStore Zamak.RadixLayout

variable {Frame Index Entry σ : Type*} [DecidableEq Index]

/-- Extends a path in the directory, from a prefix that is already there. -/
def claim (alloc : σ → Option Frame × σ) :
    List Index → List Index → Directory Frame Index σ →
      Option Frame × Directory Frame Index σ
  | [], p, d => (d.place p,d)
  | i::rest, p, d =>
    match d.place (p++[i]) with
    | some _ => claim alloc rest (p++[i]) d
    | none =>
      match (alloc d.allocator).1 with
      | none => (none,{ d with allocator := (alloc d.allocator).2 })
      | some child => claim alloc rest (p++[i]) (grown alloc d (p++[i]) child)

structure Request (Index Entry : Type*) where
  path : List Index
  last : Index
  entry : Entry

def Request.key (r : Request Index Entry) : List Index := r.path++[r.last]

def claimAll (alloc : σ → Option Frame × σ) :
    List (List Index) → Directory Frame Index σ → List Bool × Directory Frame Index σ
  | [], d => ([],d)
  | path::rest, d =>
    let step := claim alloc path [] d
    let tail := claimAll alloc rest step.2
    (step.1.isSome::tail.1,tail.2)

def settle : (List Index → Entry) → List (Request Index Entry × Bool) → List Index → Entry
  | content, [] => content
  | content, (r,true)::rest => settle (Function.update content r.key r.entry) rest
  | content, (_,false)::rest => settle content rest

def latest (log : List (Request Index Entry × Bool)) (key : List Index) :
    Option (Request Index Entry) :=
  (log.reverse.find? fun x => x.2 && decide (x.1.key = key)).map Prod.fst

theorem latest_cons (r : Request Index Entry) (ok : Bool)
    (log : List (Request Index Entry × Bool)) (key : List Index) :
    latest ((r,ok)::log) key =
      (latest log key).or (if ok && decide (r.key = key) then some r else none) := by
  unfold latest
  rw [List.reverse_cons,List.find?_append]
  cases List.find? (fun x => x.2 && decide (x.1.key = key)) log.reverse with
  | some x => rfl
  | none =>
    by_cases h : (ok && decide (r.key = key)) = true
    · simp [h]
    · simp [h]

theorem settle_latest (content : List Index → Entry)
    (log : List (Request Index Entry × Bool)) (key : List Index) :
    settle content log key = ((latest log key).map Request.entry).getD (content key) := by
  induction log generalizing content with
  | nil => rfl
  | cons x log ih =>
    obtain ⟨r,ok⟩ := x
    rw [latest_cons]
    cases ok with
    | false =>
      rw [settle,ih]
      simp
    | true =>
      rw [settle,ih]
      cases latest log key with
      | some y => rfl
      | none =>
        by_cases h : r.key = key
        · subst h
          simp
        · have h' : key ≠ r.key := Ne.symm h
          simp [h,h']

section Refinement
variable {alloc : σ → Option Frame × σ} {Good : Frame → Prop} {root : Frame}

theorem claim_sound (path p : List Index) (d : Directory Frame Index σ) (t : Frame)
    (hs : Sound alloc Good root d) (hp : d.place p = some t) :
    Sound alloc Good root (claim alloc path p d).2 ∧
      ∀ f, (claim alloc path p d).1 = some f →
        (claim alloc path p d).2.place (p++path) = some f := by
  induction path generalizing p d t with
  | nil =>
    refine ⟨hs,?_⟩
    intro f hf
    simpa [claim] using hf
  | cons i rest ih =>
    have he : p++i::rest = p++[i]++rest := by simp
    rw [he,claim]
    cases hq : d.place (p++[i]) with
    | some u => exact ih (p++[i]) d u hs hq
    | none =>
      cases hc : (alloc d.allocator).1 with
      | none =>
        refine ⟨sound_exhausted hs,?_⟩
        intro f hf
        simp at hf
      | some child =>
        have hg : (grown alloc d (p++[i]) child).place (p++[i]) = some child := by
          simp [grown]
        exact ih (p++[i]) _ child (sound_grown hs p t child i hp hc) hg

variable [DecidableEq Frame] {c : Codec Frame Entry} {depth : ℕ}

theorem descend_refines (hl : Lawful c Good) (content : List Index → Entry)
    (path p : List Index) (s : Arena Frame Index Entry σ) (d : Directory Frame Index σ)
    (t : Frame) (hs : Sound alloc Good root d) (h : Layout c depth s d content)
    (hp : d.place p = some t) (hd : p.length+path.length ≤ depth) :
    (descend c alloc path t s).1 = (claim alloc path p d).1 ∧
      Layout c depth (descend c alloc path t s).2 (claim alloc path p d).2 content := by
  induction path generalizing p s d t with
  | nil => exact ⟨hp.symm,h⟩
  | cons i rest ih =>
    rw [List.length_cons] at hd
    have hlen : (p++[i]).length+rest.length ≤ depth := by
      simp
      omega
    have hi := h.inner p t i (by omega) hp
    rw [descend,claim,hi]
    cases hq : d.place (p++[i]) with
    | some u =>
      have hg := hs.good (p++[i]) u hq
      have hpresent := hl.table_present _ (hl.link_table u hg)
      simp only [Option.elim_some,hpresent,if_true,hl.follow_link u hg]
      exact ih (p++[i]) s d u hs h hq hlen
    | none =>
      simp only [Option.elim_none,hl.empty_absent,Bool.false_eq_true,if_false]
      have ha : alloc s.allocator = ((alloc d.allocator).1,(alloc d.allocator).2) := by
        rw [h.allocator_eq]
      cases hc : (alloc d.allocator).1 with
      | none =>
        have hx := layout_exhausted alloc h
        rw [h.allocator_eq] at hx
        rw [ha,hc]
        exact ⟨rfl,hx⟩
      | some child =>
        have hg : (grown alloc d (p++[i]) child).place (p++[i]) = some child := by
          simp [grown]
        have hn := layout_linked hs h p t child i hp (by omega) hq hc
        have hr := ih (p++[i]) _ _ child (sound_grown hs p t child i hp hc) hn hg hlen
        rw [ha,hc]
        rw [linked,h.allocator_eq] at hr
        exact hr

/-- One insertion: it succeeds when the directory can be extended, and then
replaces the last entry at its path. -/
theorem install_refines (hl : Lawful c Good) (content : List Index → Entry)
    (r : Request Index Entry) (s : Arena Frame Index Entry σ) (d : Directory Frame Index σ)
    (hs : Sound alloc Good root d) (h : Layout c depth s d content)
    (hd : r.path.length = depth) :
    (install c alloc r.path r.last r.entry root s).1.isSome =
        (claim alloc r.path [] d).1.isSome ∧
      Layout c depth (install c alloc r.path r.last r.entry root s).2
        (claim alloc r.path [] d).2
        (settle content [(r,(install c alloc r.path r.last r.entry root s).1.isSome)]) := by
  have hk := descend_refines hl content r.path [] s d root hs h hs.root_place (by simp; omega)
  have hc := claim_sound r.path [] d root hs hs.root_place
  obtain ⟨hfirst,hlay⟩ := hk
  unfold install
  cases hr : descend c alloc r.path root s with
  | mk result s' =>
    rw [hr] at hfirst hlay
    cases result with
    | none => exact ⟨by rw [← hfirst]; rfl,hlay⟩
    | some t =>
      have hplace := hc.2 t hfirst.symm
      rw [List.nil_append] at hplace
      refine ⟨by rw [← hfirst]; rfl,?_⟩
      exact layout_write hc.1 hlay r.path t r.last r.entry hplace hd

def installAll (c : Codec Frame Entry) (alloc : σ → Option Frame × σ) (root : Frame) :
    List (Request Index Entry) → Arena Frame Index Entry σ →
      List Bool × Arena Frame Index Entry σ
  | [], s => ([],s)
  | r::rest, s =>
    let step := install c alloc r.path r.last r.entry root s
    let tail := installAll c alloc root rest step.2
    (step.1.isSome::tail.1,tail.2)

theorem installAll_refines (hl : Lawful c Good) (requests : List (Request Index Entry))
    (content : List Index → Entry) (s : Arena Frame Index Entry σ)
    (d : Directory Frame Index σ) (hs : Sound alloc Good root d)
    (h : Layout c depth s d content) (hd : ∀ r ∈ requests, r.path.length = depth) :
    (installAll c alloc root requests s).1 =
        (claimAll alloc (requests.map Request.path) d).1 ∧
      Sound alloc Good root (claimAll alloc (requests.map Request.path) d).2 ∧
      Layout c depth (installAll c alloc root requests s).2
        (claimAll alloc (requests.map Request.path) d).2
        (settle content (requests.zip (installAll c alloc root requests s).1)) := by
  induction requests generalizing content s d with
  | nil => exact ⟨rfl,hs,h⟩
  | cons r rest ih =>
    have hstep := install_refines hl content r s d hs h (hd r (by simp))
    have hsound := (claim_sound r.path [] d root hs hs.root_place).1
    have hrest := ih _ _ _ hsound hstep.2 (fun q hq => hd q (by simp [hq]))
    refine ⟨?_,hrest.2.1,?_⟩
    · rw [installAll,List.map_cons,claimAll,hstep.1,hrest.1]
    · have hset : settle content ((r::rest).zip (installAll c alloc root (r::rest) s).1) =
          settle (settle content [(r,(install c alloc r.path r.last r.entry root s).1.isSome)])
            (rest.zip (installAll c alloc root rest
              (install c alloc r.path r.last r.entry root s).2).1) := by
        rw [installAll,List.zip_cons_cons]
        cases (install c alloc r.path r.last r.entry root s).1.isSome <;> rfl
      rw [hset]
      exact hrest.2.2

/-- A lookup after a run returns the entry of the last insertion that succeeded at
its path, and nothing where there was none. -/
theorem lookup_installAll (hl : Lawful c Good) (a : σ) (ha : Honest alloc Good a)
    (hr : (alloc a).1 = some root) (m : Frame → Index → Entry)
    (requests : List (Request Index Entry))
    (hreq : ∀ r ∈ requests, r.path.length = depth ∧ c.present r.entry = true)
    (path : List Index) (last : Index) (hd : path.length = depth) :
    lookup c (installAll c alloc root requests (bareRoot c root (alloc a).2 m)).2.tables
        path last root =
      (latest (requests.zip
        (installAll c alloc root requests (bareRoot c root (alloc a).2 m)).1)
        (path++[last])).map Request.entry := by
  have hrun := installAll_refines hl requests _ _ _ (sound_rootOnly a ha hr)
    (layout_bareRoot (c := c) depth (alloc a).2 m) (fun r h => (hreq r h).1)
  rw [lookup_content hl hrun.2.1 hrun.2.2 path [] last root hrun.2.1.root_place
    (by simpa using hd),List.nil_append,settle_latest]
  cases hf : latest (requests.zip
      (installAll c alloc root requests (bareRoot c root (alloc a).2 m)).1)
      (path++[last]) with
  | none => simp [hl.empty_absent]
  | some r =>
    have hmem : r ∈ requests := by
      obtain ⟨x,hx,hxr⟩ := Option.map_eq_some_iff.mp hf
      have hin := List.mem_of_find?_eq_some hx
      rw [List.mem_reverse] at hin
      rw [← hxr]
      exact (List.of_mem_zip hin).1
    simp [(hreq r hmem).2]

theorem installAll_results (hl : Lawful c Good) (a : σ) (ha : Honest alloc Good a)
    (hr : (alloc a).1 = some root) (m : Frame → Index → Entry)
    (requests : List (Request Index Entry)) (hd : ∀ r ∈ requests, r.path.length = depth) :
    (installAll c alloc root requests (bareRoot c root (alloc a).2 m)).1 =
      (claimAll alloc (requests.map Request.path) (rootOnly root (alloc a).2)).1 :=
  (installAll_refines hl requests _ _ _ (sound_rootOnly a ha hr)
    (layout_bareRoot (c := c) depth (alloc a).2 m) hd).1

end Refinement

end Zamak.RadixRuns
