import Mathlib.Data.List.GetD
import Mathlib.Data.List.Pairwise
import Zamak.LeakedHeap
import Zamak.RequestScan

/-! # The loop over the requests

A request in the image of the kernel is read by its id and answered by a pointer that the
loader writes into it. Requests that a scan found lie so far apart that no answer is
written over the id or the answer of another one. -/

set_option autoImplicit false

namespace Zamak.BootRequests
open Zamak.TagStreams Zamak.RequestScan Zamak.LeakedHeap

abbrev Memory := ℕ → UInt8

def bytesFrom (memory : Memory) (a n : ℕ) : List UInt8 := (List.range n).map fun i => memory (a+i)

def readWord (memory : Memory) (a : ℕ) : ℕ := bytesNat (bytesFrom memory a 8)

def writeWord (memory : Memory) (a v : ℕ) : Memory := fun x =>
  if a ≤ x ∧ x < a+8 then (natBytes 8 v).getD (x-a) 0 else memory x

/-- `req.id` of the request at an address. -/
def idAt (memory : Memory) (request : ℕ) : ℕ × ℕ :=
  (readWord memory (request+16),readWord memory (request+24))

def responseAt (memory : Memory) (request : ℕ) : ℕ := readWord memory (request+32)

structure World (Object : Type) where
  memory : Memory
  heap : Heap Object

section Loop
variable {Object : Type}
variable (answer : ℕ × ℕ → Heap Object → Option (Option ℕ × Heap Object))

/-- One pass of the loop; `answer` is the `match` on the id. -/
def fulfill (request : ℕ) (w : World Object) : Option (World Object) := do
  let (response,heap) ← answer (idAt w.memory request) w.heap
  some ⟨response.elim w.memory (writeWord w.memory (request+32)),heap⟩

def fulfillRequests : List ℕ → World Object → Option (World Object)
  | [], w => some w
  | request::rest, w => do
    let w ← fulfill answer request w
    fulfillRequests rest w

theorem fulfillRequests_invariant {inv : Heap Object → Prop}
    (hanswer : ∀ id heap response heap', inv heap →
      answer id heap = some (response,heap') → inv heap')
    (requests : List ℕ) {w w' : World Object} (h : inv w.heap)
    (hrun : fulfillRequests answer requests w = some w') : inv w'.heap := by
  induction requests generalizing w with
  | nil =>
    cases hrun
    exact h
  | cons request rest ih =>
    obtain ⟨middle,hfirst,hrun⟩ := Option.bind_eq_some_iff.mp hrun
    obtain ⟨⟨response,heap⟩,hresponse,hfirst⟩ := Option.bind_eq_some_iff.mp hfirst
    cases hfirst
    exact ih (hanswer _ _ _ _ h hresponse) hrun

end Loop

theorem bytesFrom_length (memory : Memory) (a n : ℕ) : (bytesFrom memory a n).length = n := by
  rw [bytesFrom,List.length_map,List.length_range]

theorem bytesFrom_congr {memory memory' : Memory} {a n : ℕ}
    (h : ∀ i < n, memory' (a+i) = memory (a+i)) : bytesFrom memory' a n = bytesFrom memory a n := by
  apply List.map_congr_left
  intro i hi
  exact h i (List.mem_range.mp hi)

theorem readWord_congr {memory memory' : Memory} {a : ℕ}
    (h : ∀ x, a ≤ x → x < a+8 → memory' x = memory x) :
    readWord memory' a = readWord memory a := by
  rw [readWord,readWord,bytesFrom_congr fun i hi => h (a+i) (by omega) (by omega)]

theorem idAt_congr {memory memory' : Memory} {request : ℕ}
    (h : ∀ x, request+16 ≤ x → x < request+32 → memory' x = memory x) :
    idAt memory' request = idAt memory request := by
  unfold idAt
  rw [readWord_congr fun x hx hx' => h x (by omega) (by omega),
    readWord_congr fun x hx hx' => h x (by omega) (by omega)]

theorem readWord_writeWord (memory : Memory) (a v : ℕ) (h : v < 2^64) :
    readWord (writeWord memory a v) a = v := by
  have hbytes : bytesFrom (writeWord memory a v) a 8 = natBytes 8 v := by
    apply List.ext_getElem
    · rw [bytesFrom_length,natBytes_length]
    · intro i hi hi'
      rw [bytesFrom_length] at hi
      simp only [bytesFrom,List.getElem_map,List.getElem_range,writeWord]
      rw [if_pos (by omega),Nat.add_sub_cancel_left,List.getD_eq_getElem _ _ hi']
  rw [readWord,hbytes,bytesNat_natBytes 8 v (Nat.lt_of_lt_of_eq h (by decide))]

theorem writeWord_apart (memory : Memory) (a v x : ℕ) (h : ¬(a ≤ x ∧ x < a+8)) :
    writeWord memory a v x = memory x := if_neg h

/-! ## What the loop leaves -/

section Answers
variable {Object Reply : Type}
variable (answer : ℕ × ℕ → Heap Object → Option (Option ℕ × Heap Object))
variable (Wanted : Heap Object → ℕ × ℕ → Reply → Prop) (read : Heap Object → ℕ → Option Reply)

/-- An id with an answer; the answer itself may depend on the heap it is made in. -/
def Offered (id : ℕ × ℕ) : Prop := ∃ heap reply, Wanted heap id reply

/-- An answer says what is wanted for the id, where it says anything; what is said once is
said by every later heap. -/
structure Sound : Prop where
  answers : ∀ id heap p heap', answer id heap = some (some p,heap') →
    Extends heap heap' ∧ p < 2^64 ∧ ∃ reply, Wanted heap id reply ∧ read heap' p = some reply
  declines : ∀ id heap heap', answer id heap = some (none,heap') →
    Extends heap heap' ∧ ¬Offered Wanted id
  lasting : ∀ heap heap' p reply, Extends heap heap' → read heap p = some reply →
    read heap' p = some reply

def Written (memory : Memory) (request a : ℕ) : Prop :=
  Offered Wanted (idAt memory request) ∧ request+32 ≤ a ∧ a < request+40

/-- The answer to one request keeps off the id and the answer of another. -/
def Keeps (memory : Memory) (request other : ℕ) : Prop :=
  Offered Wanted (idAt memory request) → request+40 ≤ other+16 ∨ other+40 ≤ request+32

def Clear (memory : Memory) (requests : List ℕ) : Prop :=
  requests.Pairwise fun r s => Keeps Wanted memory r s ∧ Keeps Wanted memory s r

/-- What the kernel finds: its requests answered, each as it was wanted at some point of the
run, and nothing else changed. -/
structure Answered (requests : List ℕ) (w w' : World Object) : Prop where
  kept : Extends w.heap w'.heap
  replies : ∀ r ∈ requests, Offered Wanted (idAt w.memory r) →
    ∃ heap reply, Extends w.heap heap ∧ Extends heap w'.heap ∧
      Wanted heap (idAt w.memory r) reply ∧
      read w'.heap (responseAt w'.memory r) = some reply
  frame : ∀ a, (∀ r ∈ requests, ¬Written Wanted w.memory r a) → w'.memory a = w.memory a

variable {answer Wanted read}

theorem fulfill_answered (hsound : Sound answer Wanted read) {request : ℕ} {w w' : World Object}
    (h : fulfill answer request w = some w') : Answered Wanted read [request] w w' := by
  obtain ⟨⟨response,heap⟩,hanswer,h⟩ := Option.bind_eq_some_iff.mp h
  cases h
  cases response with
  | none =>
    obtain ⟨hkept,hnone⟩ := hsound.declines _ _ _ hanswer
    refine ⟨hkept,?_,fun a _ => rfl⟩
    intro r hr hoffered
    rw [List.mem_singleton.mp hr] at hoffered
    exact absurd hoffered hnone
  | some p =>
    obtain ⟨hkept,hp,reply,hwanted,hread⟩ := hsound.answers _ _ _ _ hanswer
    refine ⟨hkept,?_,?_⟩
    · intro r hr _
      rw [List.mem_singleton.mp hr]
      refine ⟨w.heap,reply,Extends.refl _,hkept,hwanted,?_⟩
      rw [responseAt,Option.elim_some,readWord_writeWord _ _ _ hp]
      exact hread
    · intro a ha
      have hout := ha request (List.mem_singleton_self request)
      exact writeWord_apart _ _ _ _ fun hin => hout ⟨⟨_,reply,hwanted⟩,hin⟩

theorem fulfillRequests_answered (hsound : Sound answer Wanted read) (requests : List ℕ)
    {w w' : World Object} (hclear : Clear Wanted w.memory requests)
    (h : fulfillRequests answer requests w = some w') : Answered Wanted read requests w w' := by
  induction requests generalizing w with
  | nil =>
    cases h
    exact ⟨Extends.refl _,fun r hr => absurd hr List.not_mem_nil,fun a _ => rfl⟩
  | cons request rest ih =>
    obtain ⟨middle,hfirst,h⟩ := Option.bind_eq_some_iff.mp h
    have hone := fulfill_answered hsound hfirst
    obtain ⟨hhead,hrest⟩ := List.pairwise_cons.mp hclear
    -- the pass leaves the ids behind it alone, so the others are as clear as before
    have hids : ∀ r ∈ rest, idAt middle.memory r = idAt w.memory r := by
      intro r hr
      apply idAt_congr
      intro x hlo hhi
      apply hone.frame
      rintro q hq ⟨hoffered,h1,h2⟩
      rw [List.mem_singleton.mp hq] at hoffered h1 h2
      have := (hhead r hr).1 hoffered
      omega
    have hclear' : Clear Wanted middle.memory rest := by
      refine hrest.imp_of_mem ?_
      intro r s hr hs hkeeps
      simpa only [Keeps,hids r hr,hids s hs] using hkeeps
    have hothers := ih hclear' h
    refine ⟨hone.kept.trans hothers.kept,?_,?_⟩
    · intro r hr hoffered
      rcases List.mem_cons.mp hr with rfl | hr
      · obtain ⟨heap,reply,hbefore,hafter,hwanted,hread⟩ :=
          hone.replies r (List.mem_singleton_self r) hoffered
        have hsame : responseAt w'.memory r = responseAt middle.memory r := by
          apply readWord_congr
          intro x hlo hhi
          apply hothers.frame
          rintro q hq ⟨hq',h1,h2⟩
          rw [hids q hq] at hq'
          have := (hhead q hq).2 hq'
          omega
        rw [hsame]
        exact ⟨heap,reply,hbefore,hafter.trans hothers.kept,hwanted,
          hsound.lasting _ _ _ _ hothers.kept hread⟩
      · rw [← hids r hr] at hoffered ⊢
        obtain ⟨heap,reply,hbefore,hrest⟩ := hothers.replies r hr hoffered
        exact ⟨heap,reply,hone.kept.trans hbefore,hrest⟩
    · intro a ha
      rw [hothers.frame,hone.frame]
      · intro r hr
        rw [List.mem_singleton.mp hr]
        exact ha request List.mem_cons_self
      · intro r hr hwritten
        rw [Written,hids r hr] at hwritten
        exact ha r (List.mem_cons_of_mem request hr) hwritten

theorem answered_declined {requests : List ℕ} {w w' : World Object}
    (hclear : Clear Wanted w.memory requests) (h : Answered Wanted read requests w w') :
    ∀ r ∈ requests, ¬Offered Wanted (idAt w.memory r) →
      responseAt w'.memory r = responseAt w.memory r := by
  intro r hr hnot
  apply readWord_congr
  intro x hlo hhi
  apply h.frame
  rintro q hq ⟨hoffered,h1,h2⟩
  have hne : q ≠ r := by
    rintro rfl
    exact hnot hoffered
  have hsymm : Std.Symm fun r s => Keeps Wanted w.memory r s ∧ Keeps Wanted w.memory s r :=
    ⟨fun _ _ hboth => And.symm hboth⟩
  have := (List.Pairwise.forall hclear hq hr hne).1 hoffered
  omega

end Answers

/-! ## Requests that a scan found -/

def requestsIn (memory : Memory) (base size : ℕ) : List ℕ :=
  (scanRequests (bytesFrom memory base size)).map fun j => base+j

def commonMagic : ℕ × ℕ := (0xc7b1dd30df4c8b88,0x0a82e88301126014)

theorem bytesFrom_append (memory : Memory) (a m n : ℕ) :
    bytesFrom memory a (m+n) = bytesFrom memory a m++bytesFrom memory (a+m) n := by
  rw [bytesFrom,List.range_add,List.map_append,List.map_map]
  simp only [bytesFrom,Function.comp_def,Nat.add_assoc]

theorem bytesAt_bytesFrom (memory : Memory) (base size j n : ℕ) (h : j+n ≤ size) :
    bytesAt (bytesFrom memory base size) j n = bytesFrom memory (base+j) n := by
  obtain ⟨rest,rfl⟩ := Nat.exists_eq_add_of_le h
  rw [bytesAt,bytesFrom_append,bytesFrom_append,List.append_assoc,
    List.drop_left' (bytesFrom_length _ _ _),List.take_left' (bytesFrom_length _ _ _)]

theorem magic_words {memory : Memory} {a : ℕ} (h : bytesFrom memory a 16 = commonMagicBytes) :
    (readWord memory a,readWord memory (a+8)) = commonMagic := by
  rw [bytesFrom_append memory a 8 8] at h
  have hparts : commonMagicBytes = natBytes 8 commonMagic.1++natBytes 8 commonMagic.2 := rfl
  rw [hparts] at h
  obtain ⟨hfirst,hsecond⟩ := List.append_inj h (by rw [bytesFrom_length,natBytes_length])
  rw [readWord,readWord,hfirst,hsecond]
  rfl

section Scanned
variable {memory : Memory} {base size r : ℕ}

/-- Where a found request lies: behind a start marker, in whole steps, with the magic. -/
structure Found (memory : Memory) (base size r : ℕ) : Prop where
  behind : base+32 ≤ r
  within : r+32 ≤ base+size
  aligned : (r-base)%8 = 0
  magic : (readWord memory r,readWord memory (r+8)) = commonMagic

theorem requestsIn_found (h : r ∈ requestsIn memory base size) : Found memory base size r := by
  obtain ⟨j,hj,rfl⟩ := List.mem_map.mp h
  obtain ⟨s,⟨k,hs,-⟩,⟨m,hm,-⟩,hmagic,hin⟩ := (mem_scanRequests _ j).mp hj
  rw [bytesFrom_length] at hin
  rw [bytesAt_bytesFrom memory base size j 16 (by omega)] at hmagic
  exact ⟨by omega,by omega,by omega,magic_words hmagic⟩

theorem requestsIn_ascending (memory : Memory) (base size : ℕ) :
    (requestsIn memory base size).Pairwise (· < ·) := by
  apply List.pairwise_map.mpr
  exact (scanRequests_ascending _).imp fun h => Nat.add_lt_add_left h base

variable {Object Reply : Type} {Wanted : Heap Object → ℕ × ℕ → Reply → Prop}

/-- Two requests of one window: the second does not start at the second word of the first,
and where it starts at the id of the first, that id is the magic. -/
theorem keeps_in_window (hmagic : ¬Offered Wanted commonMagic) {s : ℕ}
    (hr : Found memory base size r) (hs : Found memory base size s) (hne : r ≠ s) :
    Keeps Wanted memory r s := by
  intro hoffered
  have h1 := hr.behind
  have h2 := hs.behind
  have h3 := hr.aligned
  have h4 := hs.aligned
  by_contra hclose
  rcases show s = r+8 ∨ s = r+16 by omega with rfl | rfl
  · have hfirst := congrArg Prod.snd hr.magic
    have hsecond := congrArg Prod.fst hs.magic
    exact absurd (hfirst.symm.trans hsecond) (by decide)
  · refine hmagic ?_
    rw [← hs.magic]
    exact hoffered

theorem window_clear (hmagic : ¬Offered Wanted commonMagic) :
    Clear Wanted memory (requestsIn memory base size) := by
  refine (requestsIn_ascending memory base size).imp_of_mem ?_
  intro r s hr hs hlt
  have hr := requestsIn_found hr
  have hs := requestsIn_found hs
  exact ⟨keeps_in_window hmagic hr hs (Nat.ne_of_lt hlt),
    keeps_in_window hmagic hs hr (Nat.ne_of_gt hlt)⟩

/-- Requests of windows that do not meet: an answer may lie behind its window, but no id or
answer lies that near the start of another. -/
theorem keeps_across {base' size' s : ℕ} (hr : Found memory base size r)
    (hs : Found memory base' size' s) (hapart : base+size ≤ base' ∨ base'+size' ≤ base) :
    Keeps Wanted memory r s := by
  intro _
  have := hr.behind
  have := hr.within
  have := hs.behind
  have := hs.within
  omega

def Apart (windows : List (ℕ × ℕ)) : Prop :=
  windows.Pairwise fun v w => v.1+v.2 ≤ w.1 ∨ w.1+w.2 ≤ v.1

theorem windows_clear (hmagic : ¬Offered Wanted commonMagic) {windows : List (ℕ × ℕ)}
    (hapart : Apart windows) :
    Clear Wanted memory (windows.flatMap fun v => requestsIn memory v.1 v.2) := by
  apply List.pairwise_flatMap.mpr
  refine ⟨fun v _ => window_clear hmagic,hapart.imp ?_⟩
  intro v w hvw r hr s hs
  have hr := requestsIn_found hr
  have hs := requestsIn_found hs
  exact ⟨keeps_across hr hs hvw,keeps_across hs hr hvw.symm⟩

end Scanned

end Zamak.BootRequests
