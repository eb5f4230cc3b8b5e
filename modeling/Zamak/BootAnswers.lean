import Zamak.BootRequests

/-! # What the loaders answer

The answers of the BIOS loader and of the UEFI loader to the requests of a kernel. Each
response is a structure in the heap of the loader, some of them with pointers to further
ones. A kernel with the layout of the loader, as one of the UEFI loader is, reads a reply by
following them; what the bytes are for another kernel is in `ReplyLayout`. -/

set_option autoImplicit false

namespace Zamak.BootAnswers
open Zamak.LeakedHeap Zamak.BootRequests

/-! ## The protocol -/

def bootloaderInfoId : ℕ × ℕ := (0xf55038b8e257417e,0x5f596395b05872df)
def hhdmId : ℕ × ℕ := (0x48d12d4d805f4581,0xedc1274043b447b2)
def memmapId : ℕ × ℕ := (0x67cf3d3d3876527d,0xe30d74b883031260)
def framebufferId : ℕ × ℕ := (0x9d582c31e21b777a,0x54af621df608145a)
def moduleId : ℕ × ℕ := (0x3e7e279702ece32d,0x4dca2a803f2601ee)
def rsdpId : ℕ × ℕ := (0xc5e728f5b803f261,0x82b2d32e2601dfa5)
def smbiosId : ℕ × ℕ := (0x9e3005603972627e,0x4f6a2a0b3f2601ee)
def kernelFileId : ℕ × ℕ := (0xad97e30e1e2d777a,0x24ef2cd0a8e77b21)
def smpId : ℕ × ℕ := (0x95a1aed3e22b777a,0xa5a1aed3e22b777a)

structure BootloaderInfoResponse where
  name : ℕ
  version : ℕ
  deriving DecidableEq

structure HhdmResponse where
  revision : ℕ
  offset : ℕ
  deriving DecidableEq

structure MemmapEntry where
  base : ℕ
  length : ℕ
  typ : ℕ
  deriving DecidableEq

structure MemmapResponse where
  revision : ℕ
  entryCount : ℕ
  entries : ℕ
  deriving DecidableEq

structure Framebuffer where
  address : ℕ
  width : ℕ
  height : ℕ
  pitch : ℕ
  bpp : ℕ
  memoryModel : ℕ
  redMaskSize : ℕ
  redMaskShift : ℕ
  greenMaskSize : ℕ
  greenMaskShift : ℕ
  blueMaskSize : ℕ
  blueMaskShift : ℕ
  edidSize : ℕ
  edid : ℕ
  deriving DecidableEq

structure FramebufferResponse where
  revision : ℕ
  framebufferCount : ℕ
  framebuffers : ℕ
  deriving DecidableEq

structure File where
  revision : ℕ
  address : ℕ
  size : ℕ
  path : ℕ
  cmdline : ℕ
  deriving DecidableEq

structure ModuleResponse where
  revision : ℕ
  moduleCount : ℕ
  modules : ℕ
  deriving DecidableEq

structure RsdpResponse where
  revision : ℕ
  address : ℕ
  deriving DecidableEq

structure SmbiosResponse where
  revision : ℕ
  address : ℕ
  deriving DecidableEq

structure KernelFileResponse where
  revision : ℕ
  kernelFile : ℕ
  deriving DecidableEq

structure SmpResponse where
  revision : ℕ
  flags : ℕ
  bspLapicId : ℕ
  cpuCount : ℕ
  cpus : ℕ
  deriving DecidableEq

inductive Object where
  | text (address : ℕ)
  | bootloaderInfo (r : BootloaderInfoResponse)
  | hhdm (r : HhdmResponse)
  | entries (l : List MemmapEntry)
  | memmap (r : MemmapResponse)
  | framebuffer (fb : Framebuffer)
  | pointers (l : List ℕ)
  | framebuffers (r : FramebufferResponse)
  | file (f : File)
  | modules (r : ModuleResponse)
  | rsdp (r : RsdpResponse)
  | smbios (r : SmbiosResponse)
  | kernelFile (r : KernelFileResponse)
  | smp (r : SmpResponse)
  deriving DecidableEq

/-! ## The responses -/

section Respond
variable (place : Heap Object → Object → Option ℕ)

def dangling : ℕ := 8

/-- A `&str` is boxed, but the response points to its text. -/
def respondBootloaderInfo (name version : ℕ) (heap : Heap Object) : Option (ℕ × Heap Object) := do
  let (_,heap) ← leak place (.text name) heap
  let (_,heap) ← leak place (.text version) heap
  leak place (.bootloaderInfo ⟨name,version⟩) heap

def leakEntries (entries : List MemmapEntry) (heap : Heap Object) : Option (ℕ × Heap Object) :=
  if entries = [] then some (dangling,heap) else leak place (.entries entries) heap

def respondMemmap (entries : List MemmapEntry) (heap : Heap Object) :
    Option (ℕ × Heap Object) := do
  let (entriesPtr,heap) ← leakEntries place entries heap
  leak place (.memmap ⟨0,entries.length,entriesPtr⟩) heap

def respondFramebuffer (fb : Framebuffer) (heap : Heap Object) : Option (ℕ × Heap Object) := do
  let (fbPtr,heap) ← leak place (.framebuffer fb) heap
  let (fbList,heap) ← leak place (.pointers [fbPtr]) heap
  leak place (.framebuffers ⟨0,1,fbList⟩) heap

def respondModules (modules : List File) (heap : Heap Object) : Option (ℕ × Heap Object) := do
  let (filePtrs,heap) ← leakEach place (modules.map Object.file) heap
  let (fileList,heap) ← leak place (.pointers filePtrs) heap
  leak place (.modules ⟨0,filePtrs.length,fileList⟩) heap

def given {α : Type} (value : Option α) (respond : α → Heap Object → Option (ℕ × Heap Object))
    (heap : Heap Object) : Option (Option ℕ × Heap Object) :=
  value.elim (some (none,heap)) fun x => (respond x heap).map fun r => (some r.1,r.2)

def nonempty (modules : List File) : Option (List File) :=
  if modules = [] then none else some modules

/-! ## The BIOS loader -/

/-- The arguments of `fulfill_requests`; the texts of the loader are at fixed addresses. -/
structure BiosBoot where
  name : ℕ
  version : ℕ
  mmap : List MemmapEntry
  fb : Option Framebuffer
  kernelFile : Option ℕ
  modules : List File
  rsdp : Option ℕ
  smp : Option SmpResponse

def hhdmOffset : ℕ := 0xffff800000000000

def biosAnswer (boot : BiosBoot) (id : ℕ × ℕ) (heap : Heap Object) :
    Option (Option ℕ × Heap Object) :=
  if id = bootloaderInfoId then
    given (some ()) (fun _ => respondBootloaderInfo place boot.name boot.version) heap
  else if id = hhdmId then
    given (some ()) (fun _ => leak place (.hhdm ⟨0,hhdmOffset⟩)) heap
  else if id = memmapId then given (some boot.mmap) (respondMemmap place) heap
  else if id = framebufferId then given boot.fb (respondFramebuffer place) heap
  else if id = rsdpId then given boot.rsdp (fun addr => leak place (.rsdp ⟨0,addr⟩)) heap
  else if id = kernelFileId then
    given boot.kernelFile (fun kf => leak place (.kernelFile ⟨0,kf⟩)) heap
  else if id = moduleId then given (nonempty boot.modules) (respondModules place) heap
  else if id = smpId then given boot.smp (fun s => leak place (.smp s)) heap
  else some (none,heap)

/-! ## The UEFI loader -/

structure UefiDescriptor where
  ty : ℕ
  physStart : ℕ
  pageCount : ℕ

structure GopMode where
  width : ℕ
  height : ℕ
  stride : ℕ
  frameBuffer : ℕ

inductive ConfigGuid where
  | acpi2
  | acpi
  | smbios3
  | smbios
  | other (guid : ℕ)
  deriving DecidableEq

/-- What the UEFI loader has: the firmware's tables and services and its own files. The
firmware has a memory map of its own for every state of the heap; a graphics output that
is there may still fail to open. -/
structure UefiBoot where
  name : ℕ
  version : ℕ
  memoryMap : Heap Object → Option (List UefiDescriptor)
  graphics : Option (Option GopMode)
  configTable : List (ConfigGuid × ℕ)
  kernelFile : Option ℕ
  modules : List File
  smp : Option SmpResponse

def memmapType (ty : ℕ) : ℕ :=
  if ty = 7 then 0
  else if ty = 1 ∨ ty = 2 then 5
  else if ty = 9 then 2
  else if ty = 10 then 3
  else if ty = 8 then 4
  else 1

def memmapEntry (desc : UefiDescriptor) : MemmapEntry :=
  ⟨desc.physStart,desc.pageCount*4096%2^64,memmapType desc.ty⟩

def gopFramebuffer (mode : GopMode) : Framebuffer :=
  ⟨mode.frameBuffer,mode.width,mode.height,mode.stride*4%2^64,32,1,8,0,8,8,8,16,0,0⟩

def getConfigTableAddr (table : List (ConfigGuid × ℕ)) (guid : ConfigGuid) : Option ℕ :=
  table.lookup guid

def UefiBoot.rsdp (boot : UefiBoot) : Option ℕ :=
  (getConfigTableAddr boot.configTable .acpi2).or (getConfigTableAddr boot.configTable .acpi)

def UefiBoot.smbios (boot : UefiBoot) : Option ℕ :=
  (getConfigTableAddr boot.configTable .smbios3).or (getConfigTableAddr boot.configTable .smbios)

def uefiAnswer (boot : UefiBoot) (id : ℕ × ℕ) (heap : Heap Object) :
    Option (Option ℕ × Heap Object) :=
  if id = bootloaderInfoId then
    given (some ()) (fun _ => respondBootloaderInfo place boot.name boot.version) heap
  else if id = hhdmId then
    given (some ()) (fun _ => leak place (.hhdm ⟨0,hhdmOffset⟩)) heap
  else if id = memmapId then
    (boot.memoryMap heap).bind fun mmap =>
      given (some (mmap.map memmapEntry)) (respondMemmap place) heap
  else if id = framebufferId then
    given boot.graphics (fun gop heap =>
      gop.bind fun mode => respondFramebuffer place (gopFramebuffer mode) heap) heap
  else if id = rsdpId then given boot.rsdp (fun a => leak place (.rsdp ⟨0,a⟩)) heap
  else if id = smbiosId then given boot.smbios (fun a => leak place (.smbios ⟨0,a⟩)) heap
  else if id = kernelFileId then
    given boot.kernelFile (fun kf => leak place (.kernelFile ⟨0,kf⟩)) heap
  else if id = moduleId then given (nonempty boot.modules) (respondModules place) heap
  else if id = smpId then given boot.smp (fun s => leak place (.smp s)) heap
  else some (none,heap)

end Respond

/-! ## What a kernel reads -/

inductive Reply where
  | bootloaderInfo (name version : ℕ)
  | hhdm (revision offset : ℕ)
  | memmap (revision : ℕ) (entries : List MemmapEntry)
  | framebuffers (revision : ℕ) (fbs : List Framebuffer)
  | rsdp (revision address : ℕ)
  | smbios (revision address : ℕ)
  | kernelFile (revision address : ℕ)
  | modules (revision : ℕ) (files : List File)
  | smp (r : SmpResponse)
  deriving DecidableEq

section Read
variable (heap : Heap Object)

def entriesAt (count p : ℕ) : Option (List MemmapEntry) :=
  if count = 0 then some []
  else match heap.lookup p with
    | some (.entries l) => if l.length = count then some l else none
    | _ => none

def pointersAt (count p : ℕ) : Option (List ℕ) :=
  match heap.lookup p with
  | some (.pointers l) => if l.length = count then some l else none
  | _ => none

def framebufferAt (p : ℕ) : Option Framebuffer :=
  match heap.lookup p with
  | some (.framebuffer fb) => some fb
  | _ => none

def fileAt (p : ℕ) : Option File :=
  match heap.lookup p with
  | some (.file f) => some f
  | _ => none

def readReply (p : ℕ) : Option Reply :=
  match heap.lookup p with
  | some (.bootloaderInfo r) => some (.bootloaderInfo r.name r.version)
  | some (.hhdm r) => some (.hhdm r.revision r.offset)
  | some (.memmap r) => (entriesAt heap r.entryCount r.entries).map (.memmap r.revision)
  | some (.framebuffers r) =>
    ((pointersAt heap r.framebufferCount r.framebuffers).bind fun l =>
      l.mapM (framebufferAt heap)).map (.framebuffers r.revision)
  | some (.rsdp r) => some (.rsdp r.revision r.address)
  | some (.smbios r) => some (.smbios r.revision r.address)
  | some (.kernelFile r) => some (.kernelFile r.revision r.kernelFile)
  | some (.modules r) =>
    ((pointersAt heap r.moduleCount r.modules).bind fun l =>
      l.mapM (fileAt heap)).map (.modules r.revision)
  | some (.smp r) => some (.smp r)
  | _ => none

end Read

section Lasting
variable {heap heap' : Heap Object} (hext : Extends heap heap')
include hext

theorem entriesAt_lasts {count p : ℕ} {l : List MemmapEntry}
    (h : entriesAt heap count p = some l) : entriesAt heap' count p = some l := by
  unfold entriesAt at h ⊢
  by_cases hzero : count = 0
  · rwa [if_pos hzero] at h ⊢
  · rw [if_neg hzero] at h ⊢
    cases hlook : heap.lookup p with
    | none =>
      rw [hlook] at h
      cases h
    | some x =>
      rw [hlook] at h
      rwa [hext p x hlook]

theorem pointersAt_lasts {count p : ℕ} {l : List ℕ} (h : pointersAt heap count p = some l) :
    pointersAt heap' count p = some l := by
  unfold pointersAt at h ⊢
  cases hlook : heap.lookup p with
  | none =>
    rw [hlook] at h
    cases h
  | some x =>
    rw [hlook] at h
    rwa [hext p x hlook]

theorem framebufferAt_lasts {p : ℕ} {fb : Framebuffer} (h : framebufferAt heap p = some fb) :
    framebufferAt heap' p = some fb := by
  unfold framebufferAt at h ⊢
  cases hlook : heap.lookup p with
  | none =>
    rw [hlook] at h
    cases h
  | some x =>
    rw [hlook] at h
    rwa [hext p x hlook]

theorem fileAt_lasts {p : ℕ} {f : File} (h : fileAt heap p = some f) :
    fileAt heap' p = some f := by
  unfold fileAt at h ⊢
  cases hlook : heap.lookup p with
  | none =>
    rw [hlook] at h
    cases h
  | some x =>
    rw [hlook] at h
    rwa [hext p x hlook]

omit hext in
theorem mapM_lasts {α : Type} {f g : ℕ → Option α} (hfg : ∀ p x, f p = some x → g p = some x)
    {l : List ℕ} {xs : List α} (h : l.mapM f = some xs) : l.mapM g = some xs := by
  induction l generalizing xs with
  | nil => exact h
  | cons p l ih =>
    rw [List.mapM_cons] at h ⊢
    obtain ⟨x,hx,h⟩ := Option.bind_eq_some_iff.mp h
    obtain ⟨rest,hrest,h⟩ := Option.bind_eq_some_iff.mp h
    rw [hfg p x hx,ih hrest]
    exact h

theorem readReply_lasts {p : ℕ} {reply : Reply} (h : readReply heap p = some reply) :
    readReply heap' p = some reply := by
  unfold readReply at h ⊢
  cases hlook : heap.lookup p with
  | none =>
    rw [hlook] at h
    cases h
  | some x =>
    rw [hlook] at h
    rw [hext p x hlook]
    cases x with
    | memmap r =>
      obtain ⟨l,hl,heq⟩ := Option.map_eq_some_iff.mp h
      exact Option.map_eq_some_iff.mpr ⟨l,entriesAt_lasts hext hl,heq⟩
    | framebuffers r =>
      obtain ⟨fbs,hfbs,heq⟩ := Option.map_eq_some_iff.mp h
      obtain ⟨l,hl,hfbs⟩ := Option.bind_eq_some_iff.mp hfbs
      refine Option.map_eq_some_iff.mpr ⟨fbs,Option.bind_eq_some_iff.mpr ⟨l,?_,?_⟩,heq⟩
      · exact pointersAt_lasts hext hl
      · exact mapM_lasts (fun _ _ => framebufferAt_lasts hext) hfbs
    | modules r =>
      obtain ⟨files,hfiles,heq⟩ := Option.map_eq_some_iff.mp h
      obtain ⟨l,hl,hfiles⟩ := Option.bind_eq_some_iff.mp hfiles
      refine Option.map_eq_some_iff.mpr ⟨files,Option.bind_eq_some_iff.mpr ⟨l,?_,?_⟩,heq⟩
      · exact pointersAt_lasts hext hl
      · exact mapM_lasts (fun _ _ => fileAt_lasts hext) hfiles
    | _ => exact h

end Lasting

/-! ## Each response reads back -/

section Responses
variable {place : Heap Object → Object → Option ℕ} (hplace : Allocates place (2^64))

def Responds (heap : Heap Object) (p : ℕ) (heap' : Heap Object) (reply : Reply) : Prop :=
  Extends heap heap' ∧ p < 2^64 ∧ readReply heap' p = some reply

variable {heap heap' : Heap Object} {p : ℕ}
include hplace

theorem leak_responds {x : Object} {reply : Reply} (h : leak place x heap = some (p,heap'))
    (hread : ∀ heap : Heap Object, heap.lookup p = some x → readReply heap p = some reply) :
    Responds heap p heap' reply := by
  obtain ⟨hext,hp,hlt⟩ := leak_placed hplace h
  exact ⟨hext,hlt,hread heap' hp⟩

theorem bootloaderInfo_responds {name version : ℕ}
    (h : respondBootloaderInfo place name version heap = some (p,heap')) :
    Responds heap p heap' (.bootloaderInfo name version) := by
  obtain ⟨⟨a,first⟩,ha,h⟩ := Option.bind_eq_some_iff.mp h
  obtain ⟨⟨b,second⟩,hb,h⟩ := Option.bind_eq_some_iff.mp h
  have hlast : Responds second p heap' (.bootloaderInfo name version) :=
    leak_responds hplace h fun _ hp => by rw [readReply,hp]
  exact ⟨((leak_placed hplace ha).1.trans (leak_placed hplace hb).1).trans hlast.1,hlast.2⟩

theorem leakEntries_placed {entries : List MemmapEntry}
    (h : leakEntries place entries heap = some (p,heap')) :
    Extends heap heap' ∧ entriesAt heap' entries.length p = some entries := by
  unfold leakEntries at h
  unfold entriesAt
  by_cases hnil : entries = []
  · rw [if_pos hnil] at h
    cases h
    exact ⟨Extends.refl _,by rw [if_pos (List.length_eq_zero_iff.mpr hnil),hnil]⟩
  · rw [if_neg hnil] at h
    obtain ⟨hext,hp,-⟩ := leak_placed hplace h
    refine ⟨hext,?_⟩
    rw [if_neg (mt List.length_eq_zero_iff.mp hnil),hp]
    exact if_pos rfl

theorem memmap_responds {entries : List MemmapEntry}
    (h : respondMemmap place entries heap = some (p,heap')) :
    Responds heap p heap' (.memmap 0 entries) := by
  obtain ⟨⟨entriesPtr,middle⟩,hentries,h⟩ := Option.bind_eq_some_iff.mp h
  obtain ⟨hfirst,hread⟩ := leakEntries_placed hplace hentries
  obtain ⟨hsecond,hp,hlt⟩ := leak_placed hplace h
  refine ⟨hfirst.trans hsecond,hlt,?_⟩
  rw [readReply,hp]
  exact Option.map_eq_some_iff.mpr ⟨entries,entriesAt_lasts hsecond hread,rfl⟩

theorem pointers_placed {l : List ℕ} (h : leak place (.pointers l) heap = some (p,heap')) :
    Extends heap heap' ∧ pointersAt heap' l.length p = some l := by
  obtain ⟨hext,hp,-⟩ := leak_placed hplace h
  refine ⟨hext,?_⟩
  rw [pointersAt,hp]
  exact if_pos rfl

theorem framebuffer_responds {fb : Framebuffer}
    (h : respondFramebuffer place fb heap = some (p,heap')) :
    Responds heap p heap' (.framebuffers 0 [fb]) := by
  obtain ⟨⟨fbPtr,first⟩,hfb,h⟩ := Option.bind_eq_some_iff.mp h
  obtain ⟨⟨fbList,second⟩,hlist,h⟩ := Option.bind_eq_some_iff.mp h
  obtain ⟨hext1,hread,-⟩ := leak_placed hplace hfb
  obtain ⟨hext2,hpointers⟩ := pointers_placed hplace hlist
  obtain ⟨hext3,hp,hlt⟩ := leak_placed hplace h
  have hfbAt : framebufferAt heap' fbPtr = some fb := by
    rw [framebufferAt,hext3 _ _ (hext2 _ _ hread)]
  refine ⟨(hext1.trans hext2).trans hext3,hlt,?_⟩
  rw [readReply,hp]
  refine Option.map_eq_some_iff.mpr ⟨[fb],Option.bind_eq_some_iff.mpr ⟨[fbPtr],?_,?_⟩,rfl⟩
  · exact pointersAt_lasts hext3 hpointers
  · rw [List.mapM_cons,hfbAt]
    rfl

omit hplace in
theorem files_read {heap : Heap Object} {pointers : List ℕ} {files : List File}
    (h : List.Forall₂ (fun p x => heap.lookup p = some x) pointers (files.map Object.file)) :
    pointers.mapM (fileAt heap) = some files := by
  induction files generalizing pointers with
  | nil =>
    cases h
    rfl
  | cons f files ih =>
    cases h with
    | cons hp hrest =>
      rw [List.mapM_cons,fileAt,hp,ih hrest]
      rfl

theorem modules_responds {modules : List File}
    (h : respondModules place modules heap = some (p,heap')) :
    Responds heap p heap' (.modules 0 modules) := by
  obtain ⟨⟨filePtrs,first⟩,hfiles,h⟩ := Option.bind_eq_some_iff.mp h
  obtain ⟨⟨fileList,second⟩,hlist,h⟩ := Option.bind_eq_some_iff.mp h
  obtain ⟨hext1,heach⟩ := leakEach_placed hplace hfiles
  obtain ⟨hext2,hpointers⟩ := pointers_placed hplace hlist
  obtain ⟨hext3,hp,hlt⟩ := leak_placed hplace h
  refine ⟨(hext1.trans hext2).trans hext3,hlt,?_⟩
  rw [readReply,hp]
  refine Option.map_eq_some_iff.mpr ⟨modules,Option.bind_eq_some_iff.mpr ⟨filePtrs,?_,?_⟩,rfl⟩
  · exact pointersAt_lasts hext3 hpointers
  · exact mapM_lasts (fun _ _ => fileAt_lasts (hext2.trans hext3)) (files_read heach)

end Responses

section Given
variable {α : Type} {value : Option α}
variable {respond : α → Heap Object → Option (ℕ × Heap Object)} {heap heap' : Heap Object}

theorem given_some {p : ℕ} (h : given value respond heap = some (some p,heap')) :
    ∃ x, value = some x ∧ respond x heap = some (p,heap') := by
  cases value with
  | none => cases h
  | some x =>
    obtain ⟨⟨q,last⟩,hr,heq⟩ := Option.map_eq_some_iff.mp h
    cases heq
    exact ⟨x,rfl,hr⟩

theorem given_none (h : given value respond heap = some (none,heap')) :
    value = none ∧ heap' = heap := by
  cases value with
  | none =>
    cases h
    exact ⟨rfl,rfl⟩
  | some x =>
    obtain ⟨r,-,heq⟩ := Option.map_eq_some_iff.mp h
    cases heq

theorem nonempty_eq {modules l : List File} (h : nonempty modules = some l) :
    modules ≠ [] ∧ l = modules := by
  unfold nonempty at h
  by_cases hnil : modules = []
  · rw [if_pos hnil] at h
    cases h
  · rw [if_neg hnil] at h
    cases h
    exact ⟨hnil,rfl⟩

end Given

/-! ## What a kernel is promised -/

inductive BiosWanted (boot : BiosBoot) : ℕ × ℕ → Reply → Prop where
  | bootloaderInfo : BiosWanted boot bootloaderInfoId (.bootloaderInfo boot.name boot.version)
  | hhdm : BiosWanted boot hhdmId (.hhdm 0 hhdmOffset)
  | memmap : BiosWanted boot memmapId (.memmap 0 boot.mmap)
  | framebuffer (fb : Framebuffer) (h : boot.fb = some fb) :
      BiosWanted boot framebufferId (.framebuffers 0 [fb])
  | rsdp (addr : ℕ) (h : boot.rsdp = some addr) : BiosWanted boot rsdpId (.rsdp 0 addr)
  | kernelFile (kf : ℕ) (h : boot.kernelFile = some kf) :
      BiosWanted boot kernelFileId (.kernelFile 0 kf)
  | modules (h : boot.modules ≠ []) : BiosWanted boot moduleId (.modules 0 boot.modules)
  | smp (s : SmpResponse) (h : boot.smp = some s) : BiosWanted boot smpId (.smp s)

/-- The memory map is the one the firmware has in the heap the answer is made in. -/
inductive UefiWanted (boot : UefiBoot) (heap : Heap Object) : ℕ × ℕ → Reply → Prop where
  | bootloaderInfo : UefiWanted boot heap bootloaderInfoId (.bootloaderInfo boot.name boot.version)
  | hhdm : UefiWanted boot heap hhdmId (.hhdm 0 hhdmOffset)
  | memmap (mmap : List UefiDescriptor) (h : boot.memoryMap heap = some mmap) :
      UefiWanted boot heap memmapId (.memmap 0 (mmap.map memmapEntry))
  | framebuffer (mode : GopMode) (h : boot.graphics = some (some mode)) :
      UefiWanted boot heap framebufferId (.framebuffers 0 [gopFramebuffer mode])
  | rsdp (a : ℕ) (h : boot.rsdp = some a) : UefiWanted boot heap rsdpId (.rsdp 0 a)
  | smbios (a : ℕ) (h : boot.smbios = some a) : UefiWanted boot heap smbiosId (.smbios 0 a)
  | kernelFile (kf : ℕ) (h : boot.kernelFile = some kf) :
      UefiWanted boot heap kernelFileId (.kernelFile 0 kf)
  | modules (h : boot.modules ≠ []) : UefiWanted boot heap moduleId (.modules 0 boot.modules)
  | smp (s : SmpResponse) (h : boot.smp = some s) : UefiWanted boot heap smpId (.smp s)

section Sound
variable {place : Heap Object → Object → Option ℕ} (hplace : Allocates place (2^64))

/-- The BIOS loader's answers do not depend on the heap. -/
def biosOffer (boot : BiosBoot) (_ : Heap Object) : ℕ × ℕ → Reply → Prop := BiosWanted boot

theorem bios_magic (boot : BiosBoot) : ¬Offered (biosOffer boot) commonMagic := by
  rintro ⟨heap,reply,h⟩
  unfold biosOffer at h
  generalize hid : commonMagic = id at h
  cases h <;> exact absurd hid (by decide)

theorem uefi_magic (boot : UefiBoot) : ¬Offered (UefiWanted boot) commonMagic := by
  rintro ⟨heap,reply,h⟩
  generalize hid : commonMagic = id at h
  cases h <;> exact absurd hid (by decide)

variable {id : ℕ × ℕ} {heap heap' : Heap Object}

include hplace in
theorem biosAnswer_answers (boot : BiosBoot) {p : ℕ}
    (h : biosAnswer place boot id heap = some (some p,heap')) :
    ∃ reply, BiosWanted boot id reply ∧ Responds heap p heap' reply := by
  unfold biosAnswer at h
  split_ifs at h with hid hid hid hid hid hid hid hid
  case neg => cases h
  all_goals
    obtain ⟨x,hx,hr⟩ := given_some h
    subst hid
  · exact ⟨_,BiosWanted.bootloaderInfo,bootloaderInfo_responds hplace hr⟩
  · exact ⟨_,BiosWanted.hhdm,leak_responds hplace hr fun _ hp => by rw [readReply,hp]⟩
  · cases hx
    exact ⟨_,BiosWanted.memmap,memmap_responds hplace hr⟩
  · exact ⟨_,BiosWanted.framebuffer x hx,framebuffer_responds hplace hr⟩
  · exact ⟨_,BiosWanted.rsdp x hx,leak_responds hplace hr fun _ hp => by rw [readReply,hp]⟩
  · exact ⟨_,BiosWanted.kernelFile x hx,leak_responds hplace hr fun _ hp => by rw [readReply,hp]⟩
  · obtain ⟨hne,rfl⟩ := nonempty_eq hx
    exact ⟨_,BiosWanted.modules hne,modules_responds hplace hr⟩
  · exact ⟨_,BiosWanted.smp x hx,leak_responds hplace hr fun _ hp => by rw [readReply,hp]⟩

theorem biosAnswer_offered (boot : BiosBoot) {reply : Reply} (hwanted : BiosWanted boot id reply) :
    biosAnswer place boot id heap ≠ some (none,heap') := by
  intro h
  cases hwanted with
  | bootloaderInfo =>
    rw [biosAnswer,if_pos rfl] at h
    have hnone := (given_none h).1
    cases hnone
  | hhdm =>
    rw [biosAnswer,if_neg (by decide),if_pos rfl] at h
    have hnone := (given_none h).1
    cases hnone
  | memmap =>
    rw [biosAnswer,if_neg (by decide),if_neg (by decide),if_pos rfl] at h
    have hnone := (given_none h).1
    cases hnone
  | framebuffer fb hfb =>
    rw [biosAnswer,if_neg (by decide),if_neg (by decide),if_neg (by decide),if_pos rfl] at h
    have hnone := (given_none h).1.symm.trans hfb
    cases hnone
  | rsdp addr haddr =>
    rw [biosAnswer,if_neg (by decide),if_neg (by decide),if_neg (by decide),if_neg (by decide),
      if_pos rfl] at h
    have hnone := (given_none h).1.symm.trans haddr
    cases hnone
  | kernelFile kf hkf =>
    rw [biosAnswer,if_neg (by decide),if_neg (by decide),if_neg (by decide),if_neg (by decide),
      if_neg (by decide),if_pos rfl] at h
    have hnone := (given_none h).1.symm.trans hkf
    cases hnone
  | modules hne =>
    rw [biosAnswer,if_neg (by decide),if_neg (by decide),if_neg (by decide),if_neg (by decide),
      if_neg (by decide),if_neg (by decide),if_pos rfl] at h
    have hnone := (given_none h).1
    rw [nonempty,if_neg hne] at hnone
    cases hnone
  | smp s hs =>
    rw [biosAnswer,if_neg (by decide),if_neg (by decide),if_neg (by decide),if_neg (by decide),
      if_neg (by decide),if_neg (by decide),if_neg (by decide),if_pos rfl] at h
    have hnone := (given_none h).1.symm.trans hs
    cases hnone

theorem biosAnswer_declined (boot : BiosBoot)
    (h : biosAnswer place boot id heap = some (none,heap')) : heap' = heap := by
  unfold biosAnswer at h
  split_ifs at h
  case neg =>
    cases h
    rfl
  all_goals exact (given_none h).2

include hplace in
theorem bios_sound (boot : BiosBoot) :
    Sound (biosAnswer place boot) (biosOffer boot) readReply where
  answers := by
    intro id heap p heap' h
    obtain ⟨reply,hwanted,hext,hlt,hread⟩ := biosAnswer_answers hplace boot h
    exact ⟨hext,hlt,reply,hwanted,hread⟩
  declines := by
    intro id heap heap' h
    refine ⟨biosAnswer_declined boot h ▸ Extends.refl heap,?_⟩
    rintro ⟨heap,reply,hwanted⟩
    exact biosAnswer_offered boot hwanted h
  lasting := fun _ _ _ _ hext => readReply_lasts hext

include hplace in
theorem uefiAnswer_answers (boot : UefiBoot) {p : ℕ}
    (h : uefiAnswer place boot id heap = some (some p,heap')) :
    ∃ reply, UefiWanted boot heap id reply ∧ Responds heap p heap' reply := by
  unfold uefiAnswer at h
  split_ifs at h with hid hid hid hid hid hid hid hid hid
  case neg => cases h
  all_goals subst hid
  · obtain ⟨x,-,hr⟩ := given_some h
    exact ⟨_,UefiWanted.bootloaderInfo,bootloaderInfo_responds hplace hr⟩
  · obtain ⟨x,-,hr⟩ := given_some h
    exact ⟨_,UefiWanted.hhdm,leak_responds hplace hr fun _ hp => by rw [readReply,hp]⟩
  · obtain ⟨mmap,hmap,h⟩ := Option.bind_eq_some_iff.mp h
    obtain ⟨x,hx,hr⟩ := given_some h
    cases hx
    exact ⟨_,UefiWanted.memmap mmap hmap,memmap_responds hplace hr⟩
  · obtain ⟨gop,hgop,hr⟩ := given_some h
    obtain ⟨mode,rfl,hr⟩ := Option.bind_eq_some_iff.mp hr
    exact ⟨_,UefiWanted.framebuffer mode hgop,framebuffer_responds hplace hr⟩
  · obtain ⟨x,hx,hr⟩ := given_some h
    exact ⟨_,UefiWanted.rsdp x hx,leak_responds hplace hr fun _ hp => by rw [readReply,hp]⟩
  · obtain ⟨x,hx,hr⟩ := given_some h
    exact ⟨_,UefiWanted.smbios x hx,leak_responds hplace hr fun _ hp => by rw [readReply,hp]⟩
  · obtain ⟨x,hx,hr⟩ := given_some h
    exact ⟨_,UefiWanted.kernelFile x hx,leak_responds hplace hr fun _ hp => by rw [readReply,hp]⟩
  · obtain ⟨x,hx,hr⟩ := given_some h
    obtain ⟨hne,rfl⟩ := nonempty_eq hx
    exact ⟨_,UefiWanted.modules hne,modules_responds hplace hr⟩
  · obtain ⟨x,hx,hr⟩ := given_some h
    exact ⟨_,UefiWanted.smp x hx,leak_responds hplace hr fun _ hp => by rw [readReply,hp]⟩

theorem uefiAnswer_offered (boot : UefiBoot) {reply : Reply} {earlier : Heap Object}
    (hwanted : UefiWanted boot earlier id reply) :
    uefiAnswer place boot id heap ≠ some (none,heap') := by
  intro h
  cases hwanted with
  | bootloaderInfo =>
    rw [uefiAnswer,if_pos rfl] at h
    have hnone := (given_none h).1
    cases hnone
  | hhdm =>
    rw [uefiAnswer,if_neg (by decide),if_pos rfl] at h
    have hnone := (given_none h).1
    cases hnone
  | memmap mmap hmap =>
    rw [uefiAnswer,if_neg (by decide),if_neg (by decide),if_pos rfl] at h
    obtain ⟨mmap',-,h⟩ := Option.bind_eq_some_iff.mp h
    have hnone := (given_none h).1
    cases hnone
  | framebuffer mode hmode =>
    rw [uefiAnswer,if_neg (by decide),if_neg (by decide),if_neg (by decide),if_pos rfl] at h
    have hnone := (given_none h).1.symm.trans hmode
    cases hnone
  | rsdp a ha =>
    rw [uefiAnswer,if_neg (by decide),if_neg (by decide),if_neg (by decide),if_neg (by decide),
      if_pos rfl] at h
    have hnone := (given_none h).1.symm.trans ha
    cases hnone
  | smbios a ha =>
    rw [uefiAnswer,if_neg (by decide),if_neg (by decide),if_neg (by decide),if_neg (by decide),
      if_neg (by decide),if_pos rfl] at h
    have hnone := (given_none h).1.symm.trans ha
    cases hnone
  | kernelFile kf hkf =>
    rw [uefiAnswer,if_neg (by decide),if_neg (by decide),if_neg (by decide),if_neg (by decide),
      if_neg (by decide),if_neg (by decide),if_pos rfl] at h
    have hnone := (given_none h).1.symm.trans hkf
    cases hnone
  | modules hne =>
    rw [uefiAnswer,if_neg (by decide),if_neg (by decide),if_neg (by decide),if_neg (by decide),
      if_neg (by decide),if_neg (by decide),if_neg (by decide),if_pos rfl] at h
    have hnone := (given_none h).1
    rw [nonempty,if_neg hne] at hnone
    cases hnone
  | smp s hs =>
    rw [uefiAnswer,if_neg (by decide),if_neg (by decide),if_neg (by decide),if_neg (by decide),
      if_neg (by decide),if_neg (by decide),if_neg (by decide),if_neg (by decide),if_pos rfl] at h
    have hnone := (given_none h).1.symm.trans hs
    cases hnone

theorem uefiAnswer_declined (boot : UefiBoot)
    (h : uefiAnswer place boot id heap = some (none,heap')) : heap' = heap := by
  unfold uefiAnswer at h
  split_ifs at h
  all_goals try exact (given_none h).2
  · obtain ⟨mmap,-,h⟩ := Option.bind_eq_some_iff.mp h
    exact (given_none h).2
  · cases h
    rfl

include hplace in
theorem uefi_sound (boot : UefiBoot) :
    Sound (uefiAnswer place boot) (UefiWanted boot) readReply where
  answers := by
    intro id heap p heap' h
    obtain ⟨reply,hwanted,hext,hlt,hread⟩ := uefiAnswer_answers hplace boot h
    exact ⟨hext,hlt,reply,hwanted,hread⟩
  declines := by
    intro id heap heap' h
    refine ⟨uefiAnswer_declined boot h ▸ Extends.refl heap,?_⟩
    rintro ⟨earlier,reply,hwanted⟩
    exact uefiAnswer_offered boot hwanted h
  lasting := fun _ _ _ _ hext => readReply_lasts hext

end Sound

/-! ## Whole runs -/

section Runs
variable {place : Heap Object → Object → Option ℕ}

/-- What a run over requests comes to: those with an answer get it, the others keep the
response they came with. -/
def Served (Wanted : Heap Object → ℕ × ℕ → Reply → Prop) (requests : List ℕ)
    (w w' : World Object) : Prop :=
  Answered Wanted readReply requests w w' ∧
    ∀ r ∈ requests, ¬Offered Wanted (idAt w.memory r) →
      responseAt w'.memory r = responseAt w.memory r

/-- The UEFI loader scans the window of the kernel. Whatever the image holds there, every
request it finds whose id it has an answer for is answered so that the kernel reads what
the firmware and the loader have, and no other byte of memory changes. -/
theorem uefi_requests_answered (hplace : Allocates place (2^64)) (boot : UefiBoot)
    (base size : ℕ) (w w' : World Object)
    (h : fulfillRequests (uefiAnswer place boot) (requestsIn w.memory base size) w = some w') :
    Served (UefiWanted boot) (requestsIn w.memory base size) w w' := by
  have hclear : Clear (UefiWanted boot) w.memory (requestsIn w.memory base size) :=
    window_clear (uefi_magic boot)
  have hanswered := fulfillRequests_answered (uefi_sound hplace boot) _ hclear h
  exact ⟨hanswered,answered_declined hclear hanswered⟩

end Runs

/-! ## A kernel with one request -/

section Example
open Zamak.TagStreams Zamak.RequestScan

def bump (heap : Heap Object) (_ : Object) : Option ℕ :=
  if heap.lookup (16*(heap.length+1)) = none ∧ 16*(heap.length+1) < 2^64 then
    some (16*(heap.length+1))
  else none

theorem bump_allocates : Allocates bump (2^64) := by
  constructor
  · intro heap x p h
    obtain ⟨⟨hfresh,-⟩,hp⟩ := Option.ite_none_right_eq_some.mp h
    rwa [← Option.some.inj hp]
  · intro heap x p h
    obtain ⟨⟨-,hlt⟩,hp⟩ := Option.ite_none_right_eq_some.mp h
    rwa [← Option.some.inj hp]

def mapRequest : List UInt8 :=
  startBytes++commonMagicBytes++natBytes 8 memmapId.1++natBytes 8 memmapId.2++natBytes 8 0

def mapWorld : World Object := ⟨fun a => mapRequest.getD (a-0x200000) 0,[]⟩

theorem mapWorld_bytes : bytesFrom mapWorld.memory 0x200000 72 = mapRequest := by decide +kernel

theorem mapRequest_scan : scanRequests mapRequest = [32] := by
  rw [scanRequests,scanFrom_start _ _ _ (by decide) (by decide),blockRequests,
    if_pos (by decide),if_neg (by decide),blockRequests,if_pos (by decide),
    if_neg (by decide),blockRequests,if_neg (by decide)]
  decide

theorem mapWorld_requests : requestsIn mapWorld.memory 0x200000 72 = [0x200020] := by
  rw [requestsIn,mapWorld_bytes,mapRequest_scan]
  rfl

def mapUefi : UefiBoot := ⟨0,0,fun _ => some [⟨7,0x100000,4⟩],none,[],none,[],none⟩

theorem uefi_requests_answered_map : ∃ w',
    fulfillRequests (uefiAnswer bump mapUefi) [0x200020] mapWorld = some w' ∧
      Served (UefiWanted mapUefi) [0x200020] mapWorld w' := by
  have hsome : (fulfillRequests (uefiAnswer bump mapUefi) [0x200020] mapWorld).isSome = true := by
    decide +kernel
  obtain ⟨w',hrun⟩ := Option.isSome_iff_exists.mp hsome
  have hserved := uefi_requests_answered bump_allocates mapUefi 0x200000 72 mapWorld w'
  rw [mapWorld_requests] at hserved
  exact ⟨w',hrun,hserved hrun⟩

end Example

end Zamak.BootAnswers
