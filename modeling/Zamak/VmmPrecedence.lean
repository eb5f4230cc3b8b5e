import Zamak.VmmCoverage

/-! # The last mapping of a plan wins

Kernel headers, direct-map regions and framebuffers may overlap, within and
between the lists. With page-aligned bases, an address is translated by the last
mapping in plan order whose pages contain it; framebuffers come last, so their
pages keep the write-combining encoding. -/

set_option autoImplicit false

namespace Zamak.VmmPrecedence
open Zamak.VmmPlan Zamak.RadixStore Zamak.PageFormats Zamak.PageCodecs Zamak.PageTables
  Zamak.VmmApply Zamak.VmmCoverage

def Covers (m : Mapping) (v : Word) : Prop :=
  m.virtBase.toNat ≤ v.toNat ∧ v.toNat < m.virtBase.toNat+4096*m.pageCount pageSize

instance (m : Mapping) (v : Word) : Decidable (Covers m v) :=
  inferInstanceAs (Decidable (_ ∧ _))

def lastCovering (plan : List Mapping) (v : Word) : Option Mapping :=
  plan.reverse.find? fun m => decide (Covers m v)

structure Aligned (m : Mapping) : Prop where
  virt : m.virtBase.toNat%4096 = 0
  phys : m.physBase.toNat%4096 = 0
  phys_end : m.physBase.toNat+m.length.toNat < 2^47
  canonical : ∀ o < m.length.toNat, IsCanonical (m.virtBase.toNat+o)

structure Regular (kernelPhdrs : List KernelPhdr) (hhdmRegions : List HhdmRegion)
    (framebuffers : List FramebufferRegion) : Prop where
  phdr : ∀ p ∈ kernelPhdrs, p.virtAddr.toNat%4096 = 0 ∧ p.physAddr.toNat%4096 = 0 ∧
    p.physAddr.toNat+p.length.toNat < 2^47 ∧
    ∀ o < p.length.toNat, IsCanonical (p.virtAddr.toNat+o)
  hhdm : ∀ r ∈ hhdmRegions, r.physBase.toNat%4096 = 0 ∧
    r.physBase.toNat+r.length.toNat < 2^47
  framebuffer : ∀ r ∈ framebuffers, r.physBase.toNat%4096 = 0 ∧
    r.physBase.toNat+r.length.toNat < 2^47

theorem hhdm_toNat (p : Word) (h : p.toNat < 2^47) :
    (hhdmVirtBase+p).toNat = 2^64-2^47+p.toNat := by
  unfold hhdmVirtBase
  rw [BitVec.toNat_add]
  have hb : (0xFFFF800000000000#64).toNat = 2^64-2^47 := by decide
  rw [hb]
  omega

theorem aligned_direct (m : Mapping) (hv : m.virtBase = hhdmVirtBase+m.physBase)
    (hp : m.physBase.toNat%4096 = 0) (he : m.physBase.toNat+m.length.toNat < 2^47) :
    Aligned m := by
  have hn := hhdm_toNat m.physBase (by omega)
  rw [← hv] at hn
  constructor
  · omega
  · exact hp
  · exact he
  · intro o ho
    right
    omega

theorem build_aligned (kernelPhdrs : List KernelPhdr) (hhdmRegions : List HhdmRegion)
    (framebuffers : List FramebufferRegion)
    (h : Regular kernelPhdrs hhdmRegions framebuffers) :
    ∀ m ∈ build kernelPhdrs hhdmRegions framebuffers, Aligned m := by
  intro m hm
  unfold build at hm
  rw [List.mem_append,List.mem_append] at hm
  rcases hm with (hm | hm) | hm
  · obtain ⟨p,hp,hpm⟩ := List.mem_map.mp hm
    obtain ⟨hv,hpa,he,hc⟩ := h.phdr p hp
    subst hpm
    exact ⟨hv,hpa,he,hc⟩
  · obtain ⟨r,hr,hrm⟩ := List.mem_map.mp hm
    subst hrm
    exact aligned_direct _ rfl (h.hhdm r hr).1 (h.hhdm r hr).2
  · obtain ⟨r,hr,hrm⟩ := List.mem_map.mp hm
    subst hrm
    exact aligned_direct _ rfl (h.framebuffer r hr).1 (h.framebuffer r hr).2

theorem pageOf_covers (f : Format) (m : Mapping) (hm : Aligned m) (v : Word)
    (hv : IsCanonical v.toNat) :
    pageOf f v m = if Covers m v then
      some (pageCall f m (v.toNat/4096-m.virtBase.toNat/4096)) else none := by
  rw [pageOf_eq f m v hv fun i hi => hm.canonical (i*4096) (page_start m i hi)]
  have halign := hm.virt
  have hiff : m.virtBase.toNat/4096 ≤ v.toNat/4096 ∧
      v.toNat/4096 < m.virtBase.toNat/4096+m.pageCount pageSize ↔ Covers m v := by
    unfold Covers
    omega
  by_cases hc : Covers m v
  · rw [if_pos hc,if_pos (hiff.mpr hc)]
  · rw [if_neg hc,if_neg fun h => hc (hiff.mp h)]

theorem findSome_find {α β : Type} (g : α → Option β) (p : α → Prop) [DecidablePred p]
    (k : α → β) (l : List α) (h : ∀ x ∈ l, g x = if p x then some (k x) else none) :
    l.findSome? g = (l.find? fun x => decide (p x)).map k := by
  induction l with
  | nil => rfl
  | cons x l ih =>
    have hx := h x (by simp)
    have hl := ih fun y hy => h y (by simp [hy])
    by_cases hp : p x
    · rw [if_pos hp] at hx
      simp [hx,hp]
    · rw [if_neg hp] at hx
      simp [hx,hp,hl]

theorem page_translation (f : Format) (m : Mapping) (hm : Aligned m) (v : Word)
    (hc : Covers m v) :
    pageBase (pageCall f m (v.toNat/4096-m.virtBase.toNat/4096)).pa+(v&&&0xFFF#64) =
      m.physBase+(v-m.virtBase) := by
  obtain ⟨hl,hh⟩ := hc
  obtain ⟨hv,hp,he,_⟩ := hm
  have hb := pageCount_bounds m
  apply BitVec.eq_of_toNat_eq
  have hpn : (pageCall f m (v.toNat/4096-m.virtBase.toNat/4096)).pa.toNat =
      m.physBase.toNat+(v.toNat/4096-m.virtBase.toNat/4096)*4096 := by
    show (BitVec.ofNat 64 (m.physBase.toNat+_*4096)).toNat = _
    rw [BitVec.toNat_ofNat]
    omega
  have hsub : (v-m.virtBase).toNat = v.toNat-m.virtBase.toNat :=
    BitVec.toNat_sub_of_le hl
  rw [pageBase_add,hpn,BitVec.toNat_add,hsub]
  omega

/-- The memory type each format gives to write-combining pages: the MAIR slot of
normal non-cacheable memory, `PBMT_NC`, and weakly ordered uncached. -/
def writeCombiningType : Arch → Word
  | .aarch64 => 1#64
  | .riscv64 => 1#64
  | .loongarch64 => 2#64

theorem framebuffer_attrs (arch : Arch) :
    arch.format.noExecute (arch.format.leafAttrs mmio .writeCombining) = true ∧
      arch.format.memoryType (arch.format.leafAttrs mmio .writeCombining) =
        writeCombiningType arch := by
  cases arch <;> decide

/-- Framebuffers stand last in a plan, so one of them translates every address of a
framebuffer page. -/
theorem lastCovering_framebuffer (kernelPhdrs : List KernelPhdr)
    (hhdmRegions : List HhdmRegion) (framebuffers : List FramebufferRegion)
    (fb : FramebufferRegion) (hfb : fb ∈ framebuffers) (v : Word)
    (hv : Covers fb.mapping v) :
    ∃ other ∈ framebuffers,
      lastCovering (build kernelPhdrs hhdmRegions framebuffers) v = some other.mapping := by
  unfold lastCovering build
  rw [List.reverse_append,List.find?_append]
  cases hf : (framebuffers.map FramebufferRegion.mapping).reverse.find?
      (fun m => decide (Covers m v)) with
  | none =>
    have hno := List.find?_eq_none.mp hf fb.mapping
      (by
        rw [List.mem_reverse]
        exact List.mem_map.mpr ⟨fb,hfb,rfl⟩)
    exact absurd (decide_eq_true hv) hno
  | some m =>
    have hmem := List.mem_of_find?_eq_some hf
    rw [List.mem_reverse] at hmem
    obtain ⟨other,ho,hom⟩ := List.mem_map.mp hmem
    exact ⟨other,ho,by rw [hom]; rfl⟩

section Apply
variable {A : Type} [FrameAllocator A]

theorem translate_lastCovering (f : Format) (hf : f.Faithful) (allocator : A)
    (physToTable : Word → Fin 512 → Word) (b b' : PageTableBuilder A)
    (hallocator : Honest allocFrame IsFrame allocator)
    (hnew : new allocator physToTable = some b) (plan : List Mapping)
    (hplan : ∀ m ∈ plan, Aligned m) (happly : apply f plan b = (some (),b')) (v : Word)
    (hv : IsCanonical v.toNat) :
    translateAddress f b' v = (lastCovering plan v).map fun m =>
      (m.physBase+(v-m.virtBase),f.leafAttrs m.perms m.cache) := by
  have hpa : ∀ m ∈ plan, ∀ i < m.pageCount pageSize,
      m.physBase.toNat+i*pageSize < 2^48 := by
    intro m hm i hi
    have hstart := page_start m i hi
    have hend := (hplan m hm).phys_end
    show m.physBase.toNat+i*4096 < 2^48
    omega
  have hfind := findSome_find (pageOf f v) (fun m => Covers m v)
    (fun m => pageCall f m (v.toNat/4096-m.virtBase.toNat/4096)) plan.reverse
    (fun m hm => pageOf_covers f m (hplan m (List.mem_reverse.mp hm)) v hv)
  unfold translateAddress
  rw [walk_apply f hf allocator physToTable b b' hallocator hnew plan hpa happly v,hfind]
  show _ = Option.map _ (lastCovering plan v)
  unfold lastCovering
  cases hl : plan.reverse.find? (fun m => decide (Covers m v)) with
  | none => rfl
  | some m =>
    have hmem := List.mem_reverse.mp (List.mem_of_find?_eq_some hl)
    have hc : Covers m v := by simpa using List.find?_some hl
    have hpage := page_translation f m (hplan m hmem) v hc
    simp only [Option.map_some,hpage]
    rfl

omit [FrameAllocator A] in
theorem translate_low (f : Format) (b : PageTableBuilder A) (v w : Word)
    (h : v.setWidth 48 = w.setWidth 48) : translateAddress f b v = translateAddress f b w := by
  have hn : v.toNat%2^48 = w.toNat%2^48 := by
    have ht := congrArg BitVec.toNat h
    rw [BitVec.toNat_setWidth,BitVec.toNat_setWidth] at ht
    exact ht
  have hsame : SamePage v w := by
    rw [samePage_iff]
    omega
  have hlow : v&&&0xFFF#64 = w&&&0xFFF#64 := by
    apply BitVec.eq_of_toNat_eq
    rw [BitVec.toNat_and,BitVec.toNat_and]
    show v.toNat&&&(2^12-1) = w.toNat&&&(2^12-1)
    rw [Nat.and_two_pow_sub_one_eq_mod,Nat.and_two_pow_sub_one_eq_mod]
    omega
  unfold translateAddress
  rw [walk_samePage f b v w hsame,hlow]

/-- When `apply` returns on a built plan, every address goes through the last
mapping whose pages contain it, and a framebuffer page is mapped to itself,
non-executable and write-combining, whatever else covers it. -/
theorem plan_precedence (arch : Arch) (allocator : A)
    (physToTable : Word → Fin 512 → Word) (b b' : PageTableBuilder A)
    (hallocator : Honest allocFrame IsFrame allocator)
    (hnew : new allocator physToTable = some b) (kernelPhdrs : List KernelPhdr)
    (hhdmRegions : List HhdmRegion) (framebuffers : List FramebufferRegion)
    (hregular : Regular kernelPhdrs hhdmRegions framebuffers)
    (happly : apply arch.format (build kernelPhdrs hhdmRegions framebuffers) b =
      (some (),b')) :
    (∀ v : Word, IsCanonical v.toNat → translateAddress arch.format b' v =
      (lastCovering (build kernelPhdrs hhdmRegions framebuffers) v).map fun m =>
        (m.physBase+(v-m.virtBase),arch.format.leafAttrs m.perms m.cache)) ∧
    (∀ v w : Word, v.setWidth 48 = w.setWidth 48 →
      translateAddress arch.format b' v = translateAddress arch.format b' w) ∧
    ∀ fb ∈ framebuffers, ∀ p : Word, fb.physBase.toNat ≤ p.toNat →
      p.toNat < fb.physBase.toNat+4096*fb.mapping.pageCount pageSize →
      ∃ attrs, translateAddress arch.format b' (hhdmVirtBase+p) = some (p,attrs) ∧
        arch.format.noExecute attrs = true ∧
        arch.format.memoryType attrs = writeCombiningType arch := by
  have hlast := translate_lastCovering arch.format (faithful arch) allocator physToTable b b'
    hallocator hnew _ (build_aligned kernelPhdrs hhdmRegions framebuffers hregular) happly
  refine ⟨hlast,fun v w h => translate_low arch.format b' v w h,?_⟩
  intro fb hfb p hl hh
  have hb := pageCount_bounds fb.mapping
  have hlen : fb.mapping.length = fb.length := rfl
  rw [hlen] at hb
  obtain ⟨hal,hend⟩ := hregular.framebuffer fb hfb
  have hp : p.toNat < 2^47 := by omega
  have hv := hhdm_toNat p hp
  have hbase := hhdm_toNat fb.physBase (by omega)
  have hcover : Covers fb.mapping (hhdmVirtBase+p) := by
    show (hhdmVirtBase+fb.physBase).toNat ≤ _ ∧ _ < (hhdmVirtBase+fb.physBase).toNat+_
    rw [hv,hbase]
    omega
  obtain ⟨other,_,hother⟩ :=
    lastCovering_framebuffer kernelPhdrs hhdmRegions framebuffers fb hfb _ hcover
  refine ⟨arch.format.leafAttrs mmio .writeCombining,?_,framebuffer_attrs arch⟩
  rw [hlast (hhdmVirtBase+p) (Or.inr (by omega)),hother]
  show some (other.physBase+(hhdmVirtBase+p-(hhdmVirtBase+other.physBase)),_) = some (p,_)
  have hcancel : other.physBase+(hhdmVirtBase+p-(hhdmVirtBase+other.physBase)) = p := by
    bv_omega
  rw [hcancel]
  rfl

end Apply

/-- A kernel header, a direct-map region and a framebuffer, all on one page. -/
def overlappingPhdr : KernelPhdr :=
  ⟨0xFFFF800000001000#64,0x200000#64,0x2000#64,⟨true,false,true,false⟩⟩

def overlappingRegion : HhdmRegion := ⟨0#64,0x2000#64⟩

def overlappingFramebuffer : FramebufferRegion := ⟨0x1000#64,0x800#64⟩

/-- The framebuffer wins its page, the header keeps the one after it, the region the
one before it, and the next page faults. -/
theorem plan_precedence_overlapping :
    translateAddress Loongarch64.format (apply Loongarch64.format
        (build [overlappingPhdr] [overlappingRegion] [overlappingFramebuffer]) fiveBuilder).2
      0xFFFF800000001ABC#64 = some (0x1ABC#64,0x4000000000000063#64) ∧
    translateAddress Loongarch64.format (apply Loongarch64.format
        (build [overlappingPhdr] [overlappingRegion] [overlappingFramebuffer]) fiveBuilder).2
      0xFFFF800000002004#64 = some (0x201004#64,0x51#64) ∧
    translateAddress Loongarch64.format (apply Loongarch64.format
        (build [overlappingPhdr] [overlappingRegion] [overlappingFramebuffer]) fiveBuilder).2
      0xFFFF800000000008#64 = some (0x8#64,0x4000000000000053#64) ∧
    translateAddress Loongarch64.format (apply Loongarch64.format
        (build [overlappingPhdr] [overlappingRegion] [overlappingFramebuffer]) fiveBuilder).2
      0xFFFF800000003000#64 = none := by
  have happly : apply Loongarch64.format
        (build [overlappingPhdr] [overlappingRegion] [overlappingFramebuffer]) fiveBuilder =
      (some (),(apply Loongarch64.format
        (build [overlappingPhdr] [overlappingRegion] [overlappingFramebuffer])
        fiveBuilder).2) := Prod.ext (by decide) rfl
  have hregular : Regular [overlappingPhdr] [overlappingRegion] [overlappingFramebuffer] := by
    constructor
    · simp [overlappingPhdr,IsCanonical]
      omega
    · simp [overlappingRegion]
    · simp [overlappingFramebuffer]
  have h := plan_precedence .loongarch64 _ _ fiveBuilder _ fiveFrames_honest fiveBuilder_new
    [overlappingPhdr] [overlappingRegion] [overlappingFramebuffer] hregular happly
  exact ⟨(h.1 _ (Or.inr (by decide))).trans (by decide),
    (h.1 _ (Or.inr (by decide))).trans (by decide),
    (h.1 _ (Or.inr (by decide))).trans (by decide),
    (h.1 _ (Or.inr (by decide))).trans (by decide)⟩

end Zamak.VmmPrecedence
