import Zamak.TagStreams

/-! # Limine requests in a kernel image

`scan_requests`: a search for the start marker and behind it for requests, up to the end
marker, in steps of eight bytes. A request is found where its first 32 bytes are in the
image; the structure its address is used as has 40. -/

set_option autoImplicit false

namespace Zamak.RequestScan
open Zamak.TagStreams

def startBytes : List UInt8 :=
  [0xf6b8f4bd9d19a43a,0x4df92cfc92d320b6,0x457497127cc9f6d4,0x5c42f0267c7e527d].flatMap
    (natBytes 8)

def endBytes : List UInt8 := [0x30d74613c7a38753,0x16b04323e0ecbf77].flatMap (natBytes 8)

def commonMagicBytes : List UInt8 := [0xc7b1dd30df4c8b88,0x0a82e88301126014].flatMap (natBytes 8)

section Scan
variable (kernel : List UInt8)

def bytesAt (i n : ℕ) : List UInt8 := (kernel.drop i).take n

/-- How the inner loop ends: at an end marker, or at a position near the end of the image. -/
inductive BlockEnd where
  | marker (requests : List ℕ)
  | ranOut (i : ℕ) (requests : List ℕ)

def BlockEnd.requests : BlockEnd → List ℕ
  | .marker requests => requests
  | .ranOut _ requests => requests

theorem step_left (i j : ℕ) (hroom : i+32 ≤ kernel.length) (hij : i ≤ j) :
    kernel.length-(j+8) < kernel.length-i := by
  omega

def pushRequest (i : ℕ) (requests : List ℕ) : List ℕ :=
  if bytesAt kernel i 16 = commonMagicBytes then requests++[i] else requests

def scanBlock (i : ℕ) (requests : List ℕ) : BlockEnd :=
  if i+32 ≤ kernel.length then
    if bytesAt kernel i 16 = endBytes then .marker requests
    else scanBlock (i+8) (pushRequest kernel i requests)
  else .ranOut i requests
termination_by kernel.length-i
decreasing_by exact step_left kernel i i ‹_› (Nat.le_refl i)

theorem scanBlock_forward (i : ℕ) (requests : List ℕ) (j : ℕ) (requests' : List ℕ)
    (h : scanBlock kernel i requests = .ranOut j requests') :
    i ≤ j ∧ ¬j+32 ≤ kernel.length := by
  induction i, requests using scanBlock.induct kernel with
  | case1 i requests hroom hend =>
    rw [scanBlock,if_pos hroom,if_pos hend] at h
    cases h
  | case2 i requests hroom hend ih =>
    rw [scanBlock,if_pos hroom,if_neg hend] at h
    have hle := ih h
    omega
  | case3 i requests hroom =>
    rw [scanBlock,if_neg hroom] at h
    cases h
    exact ⟨Nat.le_refl j,hroom⟩

theorem block_left (i : ℕ) (requests : List ℕ) (j : ℕ) (requests' : List ℕ)
    (hroom : i+32 ≤ kernel.length)
    (h : scanBlock kernel (i+32) requests = .ranOut j requests') :
    kernel.length-(j+8) < kernel.length-i := by
  have hle := (scanBlock_forward kernel (i+32) requests j requests' h).1
  omega

/-- The outer loop, from a position on with the requests found by then. -/
def scanFrom (i : ℕ) (requests : List ℕ) : List ℕ :=
  if i+32 ≤ kernel.length then
    if bytesAt kernel i 32 = startBytes then
      match hblock : scanBlock kernel (i+32) requests with
      | .marker requests => requests
      | .ranOut j requests => scanFrom (j+8) requests
    else scanFrom (i+8) requests
  else requests
termination_by kernel.length-i
decreasing_by
  · exact block_left kernel i _ j _ ‹_› hblock
  · exact step_left kernel i i ‹_› (Nat.le_refl i)

/-- The offsets of the requests; the source returns their addresses. -/
def scanRequests : List ℕ := scanFrom kernel 0 []

/-! ## What is found behind a marker -/

def blockRequests (i : ℕ) : List ℕ :=
  if i+32 ≤ kernel.length then
    if bytesAt kernel i 16 = endBytes then []
    else pushRequest kernel i []++blockRequests (i+8)
  else []
termination_by kernel.length-i
decreasing_by exact step_left kernel i i ‹_› (Nat.le_refl i)

theorem pushRequest_append (i : ℕ) (requests : List ℕ) :
    pushRequest kernel i requests = requests++pushRequest kernel i [] := by
  unfold pushRequest
  split_ifs
  · rfl
  · rw [List.append_nil]

theorem scanBlock_requests (i : ℕ) (requests : List ℕ) :
    (scanBlock kernel i requests).requests = requests++blockRequests kernel i := by
  induction i, requests using scanBlock.induct kernel with
  | case1 i requests hroom hend =>
    rw [scanBlock,blockRequests,if_pos hroom,if_pos hend,if_pos hroom,if_pos hend,
      List.append_nil]
    rfl
  | case2 i requests hroom hend ih =>
    rw [scanBlock,blockRequests,if_pos hroom,if_neg hend,if_pos hroom,if_neg hend,ih,
      pushRequest_append,List.append_assoc]
  | case3 i requests hroom =>
    rw [scanBlock,blockRequests,if_neg hroom,if_neg hroom,List.append_nil]
    rfl

def Reached (start j : ℕ) : Prop :=
  ∃ k, j = start+8*k ∧ ∀ m ≤ k, bytesAt kernel (start+8*m) 16 ≠ endBytes

theorem reached_self (i : ℕ) (hend : bytesAt kernel i 16 ≠ endBytes) : Reached kernel i i := by
  refine ⟨0,rfl,fun m hm => ?_⟩
  rw [Nat.le_zero.mp hm]
  exact hend

theorem reached_iff (i j : ℕ) (hend : bytesAt kernel i 16 ≠ endBytes) :
    Reached kernel i j ↔ j = i ∨ Reached kernel (i+8) j := by
  constructor
  · rintro ⟨k,rfl,hnone⟩
    cases k with
    | zero => exact Or.inl rfl
    | succ k =>
      refine Or.inr ⟨k,by omega,fun m hm => ?_⟩
      have hnext := hnone (m+1) (by omega)
      rwa [show i+8*(m+1) = i+8+8*m by omega] at hnext
  · rintro (rfl | ⟨k,rfl,hnone⟩)
    · exact reached_self kernel j hend
    · refine ⟨k+1,by omega,fun m hm => ?_⟩
      cases m with
      | zero => exact hend
      | succ m =>
        rw [show i+8*(m+1) = i+8+8*m by omega]
        exact hnone m (by omega)

theorem mem_pushRequest (i j : ℕ) :
    j ∈ pushRequest kernel i [] ↔ j = i ∧ bytesAt kernel i 16 = commonMagicBytes := by
  unfold pushRequest
  split_ifs with hmagic
  · simp [hmagic]
  · simp [hmagic]

/-- Behind a marker, exactly the reached positions with the magic and 32 bytes are found. -/
theorem mem_blockRequests (i j : ℕ) :
    j ∈ blockRequests kernel i ↔
      Reached kernel i j ∧ bytesAt kernel j 16 = commonMagicBytes ∧ j+32 ≤ kernel.length := by
  induction i using blockRequests.induct kernel with
  | case1 i hroom hend =>
    rw [blockRequests,if_pos hroom,if_pos hend]
    refine iff_of_false List.not_mem_nil ?_
    rintro ⟨⟨k,-,hnone⟩,-⟩
    exact hnone 0 (Nat.zero_le k) hend
  | case2 i hroom hend ih =>
    rw [blockRequests,if_pos hroom,if_neg hend,List.mem_append,mem_pushRequest,ih,
      reached_iff kernel i j hend]
    constructor
    · rintro (⟨rfl,hmagic⟩ | ⟨hreached,hrest⟩)
      · exact ⟨Or.inl rfl,hmagic,hroom⟩
      · exact ⟨Or.inr hreached,hrest⟩
    · rintro ⟨rfl | hreached,hmagic,hin⟩
      · exact Or.inl ⟨rfl,hmagic⟩
      · exact Or.inr ⟨hreached,hmagic,hin⟩
  | case3 i hroom =>
    rw [blockRequests,if_neg hroom]
    refine iff_of_false List.not_mem_nil ?_
    rintro ⟨⟨k,rfl,-⟩,-,hin⟩
    omega

theorem blockRequests_ascending (i : ℕ) : (blockRequests kernel i).Pairwise (· < ·) := by
  induction i using blockRequests.induct kernel with
  | case1 i hroom hend =>
    rw [blockRequests,if_pos hroom,if_pos hend]
    exact List.Pairwise.nil
  | case2 i hroom hend ih =>
    rw [blockRequests,if_pos hroom,if_neg hend,List.pairwise_append]
    refine ⟨?_,ih,?_⟩
    · unfold pushRequest
      split_ifs
      · exact List.pairwise_singleton _ _
      · exact List.Pairwise.nil
    · intro a ha b hb
      obtain ⟨rfl,-⟩ := (mem_pushRequest kernel i a).mp ha
      obtain ⟨⟨k,rfl,-⟩,-⟩ := (mem_blockRequests kernel (a+8) b).mp hb
      omega
  | case3 i hroom =>
    rw [blockRequests,if_neg hroom]
    exact List.Pairwise.nil

/-! ## The first start marker -/

theorem scanFrom_past (i : ℕ) (requests : List ℕ) (h : ¬i+32 ≤ kernel.length) :
    scanFrom kernel i requests = requests := by
  rw [scanFrom,if_neg h]

theorem scanFrom_start (i : ℕ) (requests : List ℕ) (hroom : i+32 ≤ kernel.length)
    (hstart : bytesAt kernel i 32 = startBytes) :
    scanFrom kernel i requests = requests++blockRequests kernel (i+32) := by
  have hblock := scanBlock_requests kernel (i+32) requests
  rw [scanFrom,if_pos hroom,if_pos hstart]
  split
  · next found hmarker =>
    rw [hmarker] at hblock
    exact hblock
  · next j found hout =>
    have hpast := (scanBlock_forward kernel (i+32) requests j found hout).2
    rw [hout] at hblock
    rw [scanFrom_past kernel (j+8) found (by omega)]
    exact hblock

/-- The first start marker from a position on, in steps of eight. -/
def FirstStart (i s : ℕ) : Prop :=
  ∃ k, s = i+8*k ∧ s+32 ≤ kernel.length ∧ bytesAt kernel s 32 = startBytes ∧
    ∀ m < k, bytesAt kernel (i+8*m) 32 ≠ startBytes

theorem firstStart_next (i s : ℕ) (hstart : bytesAt kernel i 32 ≠ startBytes) :
    FirstStart kernel i s ↔ FirstStart kernel (i+8) s := by
  constructor
  · rintro ⟨k,rfl,hroom,hfound,hnone⟩
    cases k with
    | zero => exact absurd hfound hstart
    | succ k =>
      refine ⟨k,by omega,hroom,hfound,fun m hm => ?_⟩
      rw [show i+8+8*m = i+8*(m+1) by omega]
      exact hnone (m+1) (by omega)
  · rintro ⟨k,rfl,hroom,hfound,hnone⟩
    refine ⟨k+1,by omega,hroom,hfound,fun m hm => ?_⟩
    cases m with
    | zero => exact hstart
    | succ m =>
      rw [show i+8*(m+1) = i+8+8*m by omega]
      exact hnone m (by omega)

theorem firstStart_unique (i s s' : ℕ) (h : FirstStart kernel i s) (h' : FirstStart kernel i s') :
    s = s' := by
  obtain ⟨k,rfl,-,hfound,hnone⟩ := h
  obtain ⟨k',rfl,-,hfound',hnone'⟩ := h'
  rcases Nat.lt_trichotomy k k' with hlt | rfl | hlt
  · exact absurd hfound (hnone' k hlt)
  · rfl
  · exact absurd hfound' (hnone k' hlt)

theorem scanFrom_eq (n i : ℕ) (hn : kernel.length-i < n) :
    (∃ s, FirstStart kernel i s ∧ scanFrom kernel i [] = blockRequests kernel (s+32)) ∨
      ((∀ s, ¬FirstStart kernel i s) ∧ scanFrom kernel i [] = []) := by
  induction n generalizing i with
  | zero => omega
  | succ n ih =>
    by_cases hroom : i+32 ≤ kernel.length
    · by_cases hstart : bytesAt kernel i 32 = startBytes
      · refine Or.inl ⟨i,⟨0,rfl,hroom,hstart,fun m hm => absurd hm (Nat.not_lt_zero m)⟩,?_⟩
        rw [scanFrom_start kernel i [] hroom hstart,List.nil_append]
      · have hnext : scanFrom kernel i [] = scanFrom kernel (i+8) [] := by
          rw [scanFrom,if_pos hroom,if_neg hstart]
        simp only [firstStart_next kernel i _ hstart,hnext]
        exact ih (i+8) (by omega)
    · refine Or.inr ⟨?_,scanFrom_past kernel i [] hroom⟩
      rintro s ⟨k,rfl,hin,-⟩
      omega

/-- Size of `RawRequest`: its magic, its id and its response pointer. -/
def rawRequestSize : ℕ := 40

/-- A request of the image: a position behind the first start marker, in steps of eight and
before any end marker, with the common magic and so many bytes of the image from it on. -/
def Requested (size j : ℕ) : Prop :=
  ∃ s, FirstStart kernel 0 s ∧ Reached kernel (s+32) j ∧
    bytesAt kernel j 16 = commonMagicBytes ∧ j+size ≤ kernel.length

theorem mem_scanRequests (j : ℕ) : j ∈ scanRequests kernel ↔ Requested kernel 32 j := by
  unfold scanRequests Requested
  rcases scanFrom_eq kernel (kernel.length+1) 0 (by omega) with ⟨s,hs,hscan⟩ | ⟨hnone,hscan⟩
  · rw [hscan,mem_blockRequests]
    constructor
    · intro h
      exact ⟨s,hs,h⟩
    · rintro ⟨s',hs',h⟩
      rwa [firstStart_unique kernel 0 s s' hs hs']
  · rw [hscan]
    refine iff_of_false List.not_mem_nil ?_
    rintro ⟨s,hs,-⟩
    exact hnone s hs

theorem scanRequests_ascending : (scanRequests kernel).Pairwise (· < ·) := by
  unfold scanRequests
  rcases scanFrom_eq kernel (kernel.length+1) 0 (by omega) with ⟨s,-,hscan⟩ | ⟨-,hscan⟩
  · rw [hscan]
    exact blockRequests_ascending kernel (s+32)
  · rw [hscan]
    exact List.Pairwise.nil

/-- The scan finds, in ascending order, exactly the requests that are whole. -/
structure FindsWhole : Prop where
  ascending : (scanRequests kernel).Pairwise (· < ·)
  exactly : ∀ j, j ∈ scanRequests kernel ↔ Requested kernel rawRequestSize j

/-- For every image, the scan finds exactly the whole requests if and only if none that it
comes to is cut off between its 32nd and its 40th byte. -/
theorem scanRequests_findsWhole_iff :
    FindsWhole kernel ↔
      ∀ j, Requested kernel 32 j → ¬kernel.length < j+rawRequestSize := by
  constructor
  · intro h j hj
    obtain ⟨s,-,-,-,hin⟩ := (h.exactly j).mp ((mem_scanRequests kernel j).mpr hj)
    exact Nat.not_lt.mpr hin
  · intro h
    refine ⟨scanRequests_ascending kernel,fun j => ?_⟩
    rw [mem_scanRequests]
    constructor
    · intro hj
      have hwhole := Nat.le_of_not_lt (h j hj)
      obtain ⟨s,hs,hreached,hmagic,-⟩ := hj
      exact ⟨s,hs,hreached,hmagic,hwhole⟩
    · rintro ⟨s,hs,hreached,hmagic,hin⟩
      unfold rawRequestSize at hin
      exact ⟨s,hs,hreached,hmagic,by omega⟩

end Scan

def cutRequest : List UInt8 := startBytes++commonMagicBytes++List.replicate 16 0

/-- The request is found, and its response pointer is past the end of the image. -/
theorem cut_request_found : 32 ∈ scanRequests cutRequest ∧ ¬FindsWhole cutRequest := by
  have hrequest : Requested cutRequest 32 32 := by
    refine ⟨0,⟨0,rfl,by decide,by decide,fun m hm => absurd hm (Nat.not_lt_zero m)⟩,?_,
      by decide,by decide⟩
    exact reached_self cutRequest 32 (by decide)
  have hfound := (mem_scanRequests cutRequest 32).mpr hrequest
  refine ⟨hfound,fun h => ?_⟩
  obtain ⟨s,-,-,-,hin⟩ := (h.exactly 32).mp hfound
  exact absurd hin (by decide)

end Zamak.RequestScan
