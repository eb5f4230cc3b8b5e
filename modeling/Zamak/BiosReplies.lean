import Zamak.BiosHeap
import Zamak.ReplyLayout

/-! # The replies of the BIOS loader

A run over the requests, in memory: the loader boxes its answers in blocks of its heap, in
the layout of its own target, and the replies are there when the run has ended. The heap may
be that of the loader, a counter that goes up. -/

set_option autoImplicit false

namespace Zamak.BiosReplies
open Zamak.LeakedHeap Zamak.BootRequests Zamak.BootAnswers Zamak.CLayout Zamak.ReplyLayout
open Zamak.ByteMemory hiding Memory Keeps

/-! ## What the answers do to the heap -/

section Leaks
variable {place : Heap Object → Object → Option ℕ} {inv : Heap Object → Prop}
  (hinv : ∀ heap x p heap', inv heap → leak place x heap = some (p,heap') → inv heap')
  {heap heap' : Heap Object} (h : inv heap)
include hinv h

theorem respondBootloaderInfo_invariant {name version p : ℕ}
    (hr : respondBootloaderInfo place name version heap = some (p,heap')) : inv heap' := by
  obtain ⟨⟨a,first⟩,ha,hr⟩ := Option.bind_eq_some_iff.mp hr
  obtain ⟨⟨b,second⟩,hb,hr⟩ := Option.bind_eq_some_iff.mp hr
  exact hinv _ _ _ _ (hinv _ _ _ _ (hinv _ _ _ _ h ha) hb) hr

theorem respondMemmap_invariant {entries : List MemmapEntry} {p : ℕ}
    (hr : respondMemmap place entries heap = some (p,heap')) : inv heap' := by
  obtain ⟨⟨q,middle⟩,hentries,hr⟩ := Option.bind_eq_some_iff.mp hr
  refine hinv _ _ _ _ ?_ hr
  unfold leakEntries at hentries
  by_cases hnil : entries = []
  · rw [if_pos hnil] at hentries
    cases hentries
    exact h
  · rw [if_neg hnil] at hentries
    exact hinv _ _ _ _ h hentries

theorem respondFramebuffer_invariant {fb : Framebuffer} {p : ℕ}
    (hr : respondFramebuffer place fb heap = some (p,heap')) : inv heap' := by
  obtain ⟨⟨a,first⟩,ha,hr⟩ := Option.bind_eq_some_iff.mp hr
  obtain ⟨⟨b,second⟩,hb,hr⟩ := Option.bind_eq_some_iff.mp hr
  exact hinv _ _ _ _ (hinv _ _ _ _ (hinv _ _ _ _ h ha) hb) hr

theorem respondModules_invariant {modules : List File} {p : ℕ}
    (hr : respondModules place modules heap = some (p,heap')) : inv heap' := by
  obtain ⟨⟨pointers,first⟩,hfiles,hr⟩ := Option.bind_eq_some_iff.mp hr
  obtain ⟨⟨b,second⟩,hb,hr⟩ := Option.bind_eq_some_iff.mp hr
  exact hinv _ _ _ _ (hinv _ _ _ _ (leakEach_invariant hinv h hfiles) hb) hr

omit hinv in
theorem given_invariant {α : Type} {value : Option α}
    {respond : α → Heap Object → Option (ℕ × Heap Object)} {response : Option ℕ}
    (hrespond : ∀ x p, respond x heap = some (p,heap') → inv heap')
    (hr : given value respond heap = some (response,heap')) : inv heap' := by
  cases response with
  | none => exact (given_none hr).2 ▸ h
  | some p =>
    obtain ⟨x,-,hx⟩ := given_some hr
    exact hrespond x p hx

theorem biosAnswer_invariant (boot : BiosBoot) {id : ℕ × ℕ} {response : Option ℕ}
    (hr : biosAnswer place boot id heap = some (response,heap')) : inv heap' := by
  unfold biosAnswer at hr
  split_ifs at hr
  case neg =>
    cases hr
    exact h
  · exact given_invariant h (fun _ _ hx => respondBootloaderInfo_invariant hinv h hx) hr
  · exact given_invariant h (fun _ _ hx => hinv _ _ _ _ h hx) hr
  · exact given_invariant h (fun _ _ hx => respondMemmap_invariant hinv h hx) hr
  · exact given_invariant h (fun _ _ hx => respondFramebuffer_invariant hinv h hx) hr
  · exact given_invariant h (fun _ _ hx => hinv _ _ _ _ h hx) hr
  · exact given_invariant h (fun _ _ hx => hinv _ _ _ _ h hx) hr
  · exact given_invariant h (fun _ _ hx => respondModules_invariant hinv h hx) hr
  · exact given_invariant h (fun _ _ hx => hinv _ _ _ _ h hx) hr

end Leaks

section Grown
variable {t : Target} {place : Heap Object → Object → Option ℕ} {limit : ℕ} {used : ℕ → Prop}
  {heap heap' : Heap Object}

def Grown (t : Target) (limit : ℕ) (used : ℕ → Prop) (before heap : Heap Object) : Prop :=
  Laid t limit used heap ∧ ∃ fresh, heap = fresh++before

theorem laid_nil (t : Target) (limit : ℕ) (used : ℕ → Prop) : Laid t limit used [] :=
  ⟨List.Pairwise.nil,fun _ hb => absurd hb List.not_mem_nil,
    fun _ hb => absurd hb List.not_mem_nil⟩

theorem leak_grown (hplace : Apportions t place limit used) (before : Heap Object)
    (heap : Heap Object) (x : Object) (p : ℕ) (heap' : Heap Object)
    (h : Grown t limit used before heap)
    (hleak : leak place x heap = some (p,heap')) : Grown t limit used before heap' := by
  obtain ⟨q,hq,hpair⟩ := Option.map_eq_some_iff.mp hleak
  cases hpair
  obtain ⟨hlaid,fresh,rfl⟩ := h
  refine ⟨⟨?_,?_,?_⟩,(p,x)::fresh,rfl⟩
  · exact List.pairwise_cons.mpr ⟨hplace.apart _ _ _ hq,hlaid.apart⟩
  · intro b hb
    rcases List.mem_cons.mp hb with rfl|hb
    · exact hplace.room _ _ _ hq
    · exact hlaid.room b hb
  · intro b hb
    rcases List.mem_cons.mp hb with rfl|hb
    · exact hplace.unused _ _ _ hq
    · exact hlaid.unused b hb

theorem memoryOf_used {w : World Object} (hlaid : Laid t limit used w.heap) {x : ℕ}
    (hx : used x) : memoryOf t w x = w.memory x :=
  lay_outside _ _ fun b hb hin => hlaid.unused b hb x hin hx

end Grown

/-! ## Runs of the BIOS loader -/

structure BootFits (boot : BiosBoot) : Prop where
  name : boot.name < 256^8
  version : boot.version < 256^8
  mmap : ∀ e ∈ boot.mmap, entryRecord.Fits e
  fb : ∀ fb, boot.fb = some fb → framebufferRecord.Fits fb
  kernelFile : ∀ kf, boot.kernelFile = some kf → kf < 256^8
  modules : ∀ f ∈ boot.modules, fileRecord.Fits f
  rsdp : ∀ a, boot.rsdp = some a → a < 256^8
  smp : ∀ s, boot.smp = some s → smpRecord.Fits s

theorem twoWords_fits {α : Type} {make : ℕ → ℕ → α} {first second : α → ℕ}
    {back : ∀ x, make (first x) (second x) = x} {x : α} (hfirst : first x < 256^8)
    (hsecond : second x < 256^8) : (twoWords make first second back).Fits x :=
  List.Forall₂.cons hfirst (List.Forall₂.cons hsecond List.Forall₂.nil)

theorem wanted_fits {boot : BiosBoot} (hboot : BootFits boot) {id : ℕ × ℕ} {reply : Reply}
    (h : BiosWanted boot id reply) : ReplyFits reply ∧ replyId reply = id := by
  cases h with
  | bootloaderInfo => exact ⟨twoWords_fits hboot.name hboot.version,rfl⟩
  | hhdm => exact ⟨twoWords_fits (by decide : 0 < 256^8) (by decide : hhdmOffset < 256^8),rfl⟩
  | memmap => exact ⟨⟨by decide,hboot.mmap⟩,rfl⟩
  | framebuffer fb hfb =>
    refine ⟨⟨by decide,fun x hx => ?_⟩,rfl⟩
    cases List.mem_singleton.mp hx
    exact hboot.fb fb hfb
  | rsdp a ha => exact ⟨twoWords_fits (by decide : 0 < 256^8) (hboot.rsdp a ha),rfl⟩
  | kernelFile kf hkf => exact ⟨twoWords_fits (by decide : 0 < 256^8) (hboot.kernelFile kf hkf),rfl⟩
  | modules hne => exact ⟨⟨by decide,hboot.modules⟩,rfl⟩
  | smp s hs => exact ⟨hboot.smp s hs,rfl⟩

theorem memmap_wanted {boot : BiosBoot} {reply : Reply} (h : BiosWanted boot memmapId reply) :
    reply = .memmap 0 boot.mmap := by
  generalize hid : memmapId = id at h
  cases h with
  | memmap => rfl
  | _ => exact absurd hid (by decide)

/-- What a kernel finds in memory behind its requests. One of the loader's own target reads
what it is promised; one of 64 bits does where no table is involved, and of a memory map with
more than one entry it does not read the second one. -/
structure Replied (boot : BiosBoot) (requests : List ℕ) (memory : Memory) (w : World Object) :
    Prop where
  replies : ∀ r ∈ requests, Offered (biosOffer boot) (idAt memory r) →
    ∃ reply, BiosWanted boot (idAt memory r) reply ∧
      replyAt i686 (memoryOf i686 w) (idAt memory r) (responseAt (memoryOf i686 w) r) =
        some reply ∧
      (Flat reply → replyAt x86_64 (memoryOf i686 w) (idAt memory r)
        (responseAt (memoryOf i686 w) r) = some reply)
  longMap : ∀ r ∈ requests, idAt memory r = memmapId → ∀ first second rest,
    boot.mmap = first::second::rest →
    ∃ entries, replyAt x86_64 (memoryOf i686 w) memmapId (responseAt (memoryOf i686 w) r) =
        some (.memmap 0 entries) ∧ entries.length = boot.mmap.length ∧
      entries[1]?.map MemmapEntry.base = some (second.base/2^32+second.length%2^32*2^32)

/-- What a run comes to: the replies, requests without one as they were, and no other byte
changed but in new boxes. -/
structure ServedInMemory (boot : BiosBoot) (requests : List ℕ) (w w' : World Object) : Prop where
  replied : Replied boot requests w.memory w'
  declined : ∀ r ∈ requests, ¬Offered (biosOffer boot) (idAt w.memory r) →
    responseAt (memoryOf i686 w') r = responseAt (memoryOf i686 w) r
  frame : ∃ fresh, w'.heap = fresh++w.heap ∧ ∀ a, (∀ b ∈ blocks i686 fresh, ¬Covers b a) →
    (∀ r ∈ requests, ¬Written (biosOffer boot) w.memory r a) →
    memoryOf i686 w' a = memoryOf i686 w a

section Runs
variable {place : Heap Object → Object → Option ℕ} {used : ℕ → Prop} {boot : BiosBoot}
  {requests : List ℕ} {w w' : World Object}

theorem responseAt_used {limit : ℕ} (hlaid : Laid i686 limit used w.heap) {r : ℕ}
    (hused : ∀ x, Within r 40 x → used x) :
    responseAt (memoryOf i686 w) r = responseAt w.memory r := by
  refine readWord_congr fun x hx hx' => memoryOf_used hlaid (hused x ?_)
  exact ⟨by omega,by omega⟩

theorem replied_of_boxes {memory : Memory} (hboot : BootFits boot)
    (hlaid : Laid i686 (2^32) used w.heap) (hused : ∀ r ∈ requests, ∀ x, Within r 40 x → used x)
    (h : ∀ r ∈ requests, Offered (biosOffer boot) (idAt memory r) →
      ∃ reply, BiosWanted boot (idAt memory r) reply ∧
        readReply w.heap (responseAt w.memory r) = some reply) :
    Replied boot requests memory w := by
  have hreplies : ∀ r ∈ requests, Offered (biosOffer boot) (idAt memory r) →
      ∃ reply, BiosWanted boot (idAt memory r) reply ∧ replyId reply = idAt memory r ∧
        replyAt i686 (memoryOf i686 w) (idAt memory r)
          (responseAt (memoryOf i686 w) r) = some reply := by
    intro r hr hoffered
    obtain ⟨reply,hwanted,hread⟩ := h r hr hoffered
    obtain ⟨hfits,hid⟩ := wanted_fits hboot hwanted
    have hbytes := replyAt_readReply hlaid (by decide) (by decide) hfits hread
    rw [hid,← responseAt_used hlaid (hused r hr)] at hbytes
    exact ⟨reply,hwanted,hid,hbytes⟩
  constructor
  · intro r hr hoffered
    obtain ⟨reply,hwanted,hid,hbytes⟩ := hreplies r hr hoffered
    refine ⟨reply,hwanted,hbytes,fun hflat => ?_⟩
    rw [← hid] at hbytes ⊢
    exact replyAt_flat hflat hbytes
  · intro r hr hid first second rest hmmap
    obtain ⟨reply,hwanted,-,hbytes⟩ := hreplies r hr ⟨w.heap,_,hid ▸ BiosWanted.memmap⟩
    rw [hid] at hwanted hbytes
    rw [memmap_wanted hwanted,hmmap] at hbytes
    rw [hmmap]
    exact second_entry hbytes

theorem fulfillRequests_grown (hplace : Apportions i686 place (2^32) used)
    (hlaid : Laid i686 (2^32) used w.heap)
    (h : fulfillRequests (biosAnswer place boot) requests w = some w') :
    Grown i686 (2^32) used w.heap w'.heap :=
  fulfillRequests_invariant (biosAnswer place boot)
    (fun _ _ _ _ hheap hr => biosAnswer_invariant (leak_grown hplace w.heap) hheap boot hr)
    requests ⟨hlaid,[],rfl⟩ h

theorem fulfillRequests_served (hplace : Apportions i686 place (2^32) used)
    (hboot : BootFits boot) (hclear : Clear (biosOffer boot) w.memory requests)
    (hlaid : Laid i686 (2^32) used w.heap) (hused : ∀ r ∈ requests, ∀ x, Within r 40 x → used x)
    (h : fulfillRequests (biosAnswer place boot) requests w = some w') :
    ServedInMemory boot requests w w' := by
  obtain ⟨hlaid',fresh,hfresh⟩ := fulfillRequests_grown hplace hlaid h
  have hsound := bios_sound (hplace.toAllocates.mono (by decide : 2^32 ≤ 2^64)) boot
  have hanswered := fulfillRequests_answered hsound requests hclear h
  constructor
  · refine replied_of_boxes hboot hlaid' hused fun r hr hoffered => ?_
    obtain ⟨_,reply,_,_,hwanted,hread⟩ := hanswered.replies r hr hoffered
    exact ⟨reply,hwanted,hread⟩
  · intro r hr hnot
    rw [responseAt_used hlaid' (hused r hr),responseAt_used hlaid (hused r hr)]
    exact answered_declined hclear hanswered r hr hnot
  · refine ⟨fresh,hfresh,fun a hout hwritten => ?_⟩
    have hmem := hanswered.frame a hwritten
    rw [memoryOf,memoryOf,hfresh,blocks,List.map_append,lay_append]
    exact (lay_outside _ _ hout).trans (lay_congr hmem _)

/-- The windows of a scan; the last answer may lie eight bytes behind. -/
def Windows (segments : List (ℕ × ℕ)) (x : ℕ) : Prop :=
  ∃ seg ∈ segments, Within seg.1 (seg.2+8) x

theorem windows_used {segments : List (ℕ × ℕ)} {memory : Memory} {r : ℕ}
    (hr : r ∈ segments.flatMap fun seg => requestsIn memory seg.1 seg.2) {x : ℕ}
    (hx : Within r 40 x) : Windows segments x := by
  obtain ⟨seg,hseg,hin⟩ := List.mem_flatMap.mp hr
  have hfound := requestsIn_found hin
  have hbehind := hfound.behind
  have hwithin := hfound.within
  obtain ⟨hlow,hhigh⟩ := hx
  exact ⟨seg,hseg,by omega,by omega⟩

/-- The BIOS loader scans the loaded segments one after the other, then answers. -/
theorem bios_requests_answered (segments : List (ℕ × ℕ)) (hapart : BootRequests.Apart segments)
    (hplace : Apportions i686 place (2^32) (Windows segments)) (hboot : BootFits boot)
    (hlaid : Laid i686 (2^32) (Windows segments) w.heap)
    (h : fulfillRequests (biosAnswer place boot)
      (segments.flatMap fun seg => requestsIn w.memory seg.1 seg.2) w = some w') :
    ServedInMemory boot (segments.flatMap fun seg => requestsIn w.memory seg.1 seg.2) w w' :=
  fulfillRequests_served hplace hboot (windows_clear (bios_magic boot) hapart) hlaid
    (fun _ hr _ hx => windows_used hr hx) h

end Runs

/-! ## The allocator of the loader -/

section Allocator
open Zamak.BiosHeap Zamak.MaskRounding

def loaderHeap : BumpAllocator := ⟨0x100000,0x400000⟩

def heapEnd (heap : Heap Object) : ℕ :=
  (blocks i686 heap).foldr (fun b top => max (b.1+max 1 b.2.extent) top) 0x100000

theorem loaderLayout_fits {n : ℕ} (h : n+2^2 ≤ 2^31) : (UInt32.ofNat n).toNat+2^2 ≤ 2^31 := by
  rw [UInt32.toNat_ofNat']
  omega

def loaderPlace (heap : Heap Object) (x : Object) : Option ℕ :=
  if h : (objectTable i686 x).extent+2^2 ≤ 2^31 then
    if heapEnd heap ≤ 0x500000 then
      (attempt loaderHeap ⟨UInt32.ofNat (objectTable i686 x).extent,2,loaderLayout_fits h⟩
        (UInt32.ofNat (heapEnd heap-0x100000))).map fun s => s.2.toNat
    else none
  else none

theorem loaderPlace_extent (heap : Heap Object) {x y : Object}
    (h : (objectTable i686 x).extent = (objectTable i686 y).extent) :
    loaderPlace heap x = loaderPlace heap y := by
  unfold loaderPlace
  simp only [h]

theorem le_heapEnd (heap : Heap Object) : 0x100000 ≤ heapEnd heap ∧
    ∀ b ∈ blocks i686 heap, b.1+max 1 b.2.extent ≤ heapEnd heap := by
  unfold heapEnd
  induction blocks i686 heap with
  | nil => exact ⟨Nat.le_refl _,fun b hb => absurd hb List.not_mem_nil⟩
  | cons c rest ih =>
    refine ⟨Nat.le_trans ih.1 (Nat.le_max_right _ _),fun b hb => ?_⟩
    rcases List.mem_cons.mp hb with rfl|hb
    · exact Nat.le_max_left _ _
    · exact Nat.le_trans (ih.2 b hb) (Nat.le_max_right _ _)

theorem loaderPlace_some {heap : Heap Object} {x : Object} {p : ℕ}
    (h : loaderPlace heap x = some p) :
    heapEnd heap ≤ p ∧ p+(objectTable i686 x).extent ≤ 0x500000 := by
  obtain ⟨hsize,h⟩ := Option.dite_none_right_eq_some.mp h
  obtain ⟨hend,h⟩ := Option.ite_none_right_eq_some.mp h
  obtain ⟨⟨next,start⟩,hattempt,rfl⟩ := Option.map_eq_some_iff.mp h
  have hlow := (le_heapEnd heap).1
  have hcounter : (UInt32.ofNat (heapEnd heap-0x100000)).toNat = heapEnd heap-0x100000 := by
    rw [UInt32.toNat_ofNat']
    omega
  have hextent : (UInt32.ofNat (objectTable i686 x).extent).toNat =
      (objectTable i686 x).extent := by
    rw [UInt32.toNat_ofNat']
    omega
  have hheap : loaderHeap.heapSize.toNat = 0x400000 := rfl
  obtain ⟨hstart,-,hstop⟩ := attempt_some loaderHeap (by decide) _ _ next start
    (by rw [hcounter,hheap]; omega) hattempt
  have hup := le_roundUp (2^2) (loaderHeap.heapStart.toNat+(heapEnd heap-0x100000)) (by decide)
  have hbase : loaderHeap.heapStart.toNat = 0x100000 := rfl
  rw [hcounter] at hstart
  rw [hextent,hbase,hheap] at hstop
  dsimp only
  rw [← hstart] at hup
  exact ⟨by omega,hstop⟩

/-- With nothing in use between one and five mebibytes, the loader's allocator keeps what is
asked of one. -/
theorem loaderPlace_apportions {used : ℕ → Prop}
    (hused : ∀ x, used x → x < 0x100000 ∨ 0x500000 ≤ x) :
    Apportions i686 loaderPlace (2^32) used := by
  refine ⟨⟨?_,?_⟩,?_,?_,?_⟩
  · intro heap x p h
    obtain ⟨hend,-⟩ := loaderPlace_some h
    cases hlook : heap.lookup p with
    | none => rfl
    | some y =>
      have hle := (le_heapEnd heap).2 _ (lookup_block (t := i686) hlook)
      dsimp only at hle
      omega
  · intro heap x p h
    have := (loaderPlace_some h).2
    omega
  · rintro heap x p h b hb y ⟨hin,hin'⟩
    have hend := (loaderPlace_some h).1
    have hle := (le_heapEnd heap).2 b hb
    have hlow := hin.1
    have hhigh := hin'.2
    dsimp only at hlow
    omega
  · intro heap x p h
    exact Nat.le_trans (loaderPlace_some h).2 (by decide)
  · intro heap x p h y hin hy
    obtain ⟨hend,hstop⟩ := loaderPlace_some h
    have hbase := (le_heapEnd heap).1
    have hlow := hin.1
    have hhigh := hin.2
    dsimp only at hlow hhigh
    have := hused y hy
    omega

end Allocator

/-! ## A kernel with one request -/

section Example

def kernelWorld : World Object := ⟨fun a => mapRequest.getD (a-0x600000) 0,[]⟩

theorem kernelWorld_requests : requestsIn kernelWorld.memory 0x600000 72 = [0x600020] := by
  have hbytes : bytesFrom kernelWorld.memory 0x600000 72 = mapRequest := by decide +kernel
  rw [requestsIn,hbytes,mapRequest_scan]
  rfl

def mapBios : BiosBoot :=
  ⟨0,0,[⟨0,0x9FC00,0⟩,⟨0x100000,0x7F00000,0⟩],none,none,[],none,none⟩

theorem mapBios_fits : BootFits mapBios := by
  refine ⟨by decide,by decide,fun e he => ?_,fun _ h => ?_,fun _ h => ?_,fun _ h => ?_,
    fun _ h => ?_,fun _ h => ?_⟩
  · have hall : ∀ e ∈ mapBios.mmap, e.base < 256^8 ∧ e.length < 256^8 ∧ e.typ < 256^4 := by
      decide
    obtain ⟨h1,h2,h3⟩ := hall e he
    exact .cons h1 (.cons h2 (.cons h3 .nil))
  · cases h
  · cases h
  · exact absurd h List.not_mem_nil
  · cases h
  · cases h

theorem bios_requests_answered_map : ∃ w',
    fulfillRequests (biosAnswer loaderPlace mapBios) [0x600020] kernelWorld = some w' ∧
      ServedInMemory mapBios [0x600020] kernelWorld w' := by
  have hsome :
      (fulfillRequests (biosAnswer loaderPlace mapBios) [0x600020] kernelWorld).isSome = true := by
    decide
  obtain ⟨w',hrun⟩ := Option.isSome_iff_exists.mp hsome
  have hplace : Apportions i686 loaderPlace (2^32) (Windows [(0x600000,72)]) := by
    refine loaderPlace_apportions fun x hx => ?_
    obtain ⟨seg,hseg,hlow,-⟩ := hx
    cases List.mem_singleton.mp hseg
    omega
  have hlaid : Laid i686 (2^32) (Windows [(0x600000,72)]) kernelWorld.heap := laid_nil _ _ _
  have hrequests : [0x600020] =
      [(0x600000,72)].flatMap fun seg => requestsIn kernelWorld.memory seg.1 seg.2 := by
    rw [List.flatMap_singleton,kernelWorld_requests]
  rw [hrequests] at hrun ⊢
  exact ⟨w',hrun,bios_requests_answered [(0x600000,72)] (List.pairwise_singleton _ _) hplace
    mapBios_fits hlaid hrun⟩

end Example

end Zamak.BiosReplies
