import Zamak.BootAnswers
import Zamak.CLayout

/-! # Replies in memory

The boxes of a loader as bytes, in the layout of the target it is compiled for, and what a
kernel of the same or another target reads in them. The loader of the BIOS is a program of
32 bits, where an entry of the memory map has twenty bytes and a pointer four; the kernels
it starts have 64 bits. -/

set_option autoImplicit false

namespace Zamak.ReplyLayout
open Zamak.LeakedHeap Zamak.BootRequests Zamak.BootAnswers Zamak.CLayout
open Zamak.ByteMemory hiding Memory Keeps

theorem i686_pos : 0 < 4 := by decide

def i686 : Target := ⟨4,4,i686_pos⟩

theorem x86_64_pos : 0 < 8 := by decide

def x86_64 : Target := ⟨8,8,x86_64_pos⟩

/-! ## The structures of the protocol -/

def twoWords {α : Type} (make : ℕ → ℕ → α) (first second : α → ℕ)
    (back : ∀ x, make (first x) (second x) = x) : Record α where
  shape := [8,8]
  row x := [first x,second x]
  value v := make (v.getD 0 0) (v.getD 1 0)
  full _ := rfl
  back := back

/-- A structure of three words: a revision, a count and the address of a list. -/
def threeWords {α : Type} (make : ℕ → ℕ → ℕ → α) (first second third : α → ℕ)
    (back : ∀ x, make (first x) (second x) (third x) = x) : Record α where
  shape := [8,8,8]
  row x := [first x,second x,third x]
  value v := make (v.getD 0 0) (v.getD 1 0) (v.getD 2 0)
  full _ := rfl
  back := back

def bootloaderInfoRecord : Record BootloaderInfoResponse :=
  twoWords .mk BootloaderInfoResponse.name BootloaderInfoResponse.version fun _ => rfl

def hhdmRecord : Record HhdmResponse :=
  twoWords .mk HhdmResponse.revision HhdmResponse.offset fun _ => rfl

def rsdpRecord : Record RsdpResponse :=
  twoWords .mk RsdpResponse.revision RsdpResponse.address fun _ => rfl

def smbiosRecord : Record SmbiosResponse :=
  twoWords .mk SmbiosResponse.revision SmbiosResponse.address fun _ => rfl

def kernelFileRecord : Record KernelFileResponse :=
  twoWords .mk KernelFileResponse.revision KernelFileResponse.kernelFile fun _ => rfl

def memmapRecord : Record MemmapResponse :=
  threeWords .mk MemmapResponse.revision MemmapResponse.entryCount MemmapResponse.entries
    fun _ => rfl

def framebuffersRecord : Record FramebufferResponse :=
  threeWords .mk FramebufferResponse.revision FramebufferResponse.framebufferCount
    FramebufferResponse.framebuffers fun _ => rfl

def modulesRecord : Record ModuleResponse :=
  threeWords .mk ModuleResponse.revision ModuleResponse.moduleCount ModuleResponse.modules
    fun _ => rfl

def entryRecord : Record MemmapEntry where
  shape := [8,8,4]
  row e := [e.base,e.length,e.typ]
  value v := ⟨v.getD 0 0,v.getD 1 0,v.getD 2 0⟩
  full _ := rfl
  back _ := rfl

/-- Seven bytes in front of the last two fields are not used. -/
def framebufferRecord : Record Framebuffer where
  shape := [8,8,8,8,2,1,1,1,1,1,1,1,1,1,1,1,1,1,1,8,8]
  row fb := [fb.address,fb.width,fb.height,fb.pitch,fb.bpp,fb.memoryModel,fb.redMaskSize,
    fb.redMaskShift,fb.greenMaskSize,fb.greenMaskShift,fb.blueMaskSize,fb.blueMaskShift,
    0,0,0,0,0,0,0,fb.edidSize,fb.edid]
  value v := ⟨v.getD 0 0,v.getD 1 0,v.getD 2 0,v.getD 3 0,v.getD 4 0,v.getD 5 0,v.getD 6 0,
    v.getD 7 0,v.getD 8 0,v.getD 9 0,v.getD 10 0,v.getD 11 0,v.getD 19 0,v.getD 20 0⟩
  full _ := rfl
  back _ := rfl

def pointerRecord (t : Target) : Record ℕ where
  shape := [t.pointer]
  row p := [p]
  value v := v.getD 0 0
  full _ := rfl
  back _ := rfl

/-- What is behind the command line is zero in every file of the loaders. -/
def fileRecord : Record File where
  shape := [8,8,8,8,8,4,4,4,4,4,4,8,8,8,8,8,8]
  row f := [f.revision,f.address,f.size,f.path,f.cmdline,0,0,0,0,0,0,0,0,0,0,0,0]
  value v := ⟨v.getD 0 0,v.getD 1 0,v.getD 2 0,v.getD 3 0,v.getD 4 0⟩
  full _ := rfl
  back _ := rfl

def smpRecord : Record SmpResponse where
  shape := [8,4,4,8,8]
  row s := [s.revision,s.flags,s.bspLapicId,s.cpuCount,s.cpus]
  value v := ⟨v.getD 0 0,v.getD 1 0,v.getD 2 0,v.getD 3 0,v.getD 4 0⟩
  full _ := rfl
  back _ := rfl

example : structSize i686 entryRecord.shape = 20 ∧ structSize x86_64 entryRecord.shape = 24 ∧
    structSize i686 framebufferRecord.shape = 64 ∧ structSize x86_64 fileRecord.shape = 112 := by
  decide

/-! ## Boxes as tables -/

theorem text_apart (t : Target) : [(⟨0,t.pointer⟩ : Field)].Pairwise
    fun f g => f.offset+f.width ≤ g.offset := List.pairwise_singleton _ _

theorem text_within (t : Target) : ∀ f ∈ [(⟨0,t.pointer⟩ : Field)],
    f.offset+f.width ≤ 2*t.pointer := by
  intro f hf
  cases List.mem_singleton.mp hf
  show 0+t.pointer ≤ 2*t.pointer
  omega

/-- A `&str` is the address of a text and its length, which is not kept here. -/
def textLayout (t : Target) : Layout := ⟨[⟨0,t.pointer⟩],2*t.pointer,text_apart t,text_within t⟩

theorem text_full (t : Target) (address : ℕ) :
    ∀ row ∈ [[address]], row.length = (textLayout t).fields.length := by
  intro row hrow
  cases List.mem_singleton.mp hrow
  rfl

def objectTable (t : Target) : Object → Table
  | .text address => ⟨textLayout t,[[address]],text_full t address⟩
  | .bootloaderInfo r => bootloaderInfoRecord.table t [r]
  | .hhdm r => hhdmRecord.table t [r]
  | .entries l => entryRecord.table t l
  | .memmap r => memmapRecord.table t [r]
  | .framebuffer fb => framebufferRecord.table t [fb]
  | .pointers l => (pointerRecord t).table t l
  | .framebuffers r => framebuffersRecord.table t [r]
  | .file f => fileRecord.table t [f]
  | .modules r => modulesRecord.table t [r]
  | .rsdp r => rsdpRecord.table t [r]
  | .smbios r => smbiosRecord.table t [r]
  | .kernelFile r => kernelFileRecord.table t [r]
  | .smp r => smpRecord.table t [r]

def blocks (t : Target) (heap : Heap Object) : Blocks := heap.map fun b => (b.1,objectTable t b.2)

def memoryOf (t : Target) (w : World Object) : Memory := lay w.memory (blocks t w.heap)

/-- The boxes have blocks of their own, below a limit and outside of what is in use. -/
structure Laid (t : Target) (limit : ℕ) (used : ℕ → Prop) (heap : Heap Object) : Prop where
  apart : CLayout.Apart (blocks t heap)
  room : ∀ b ∈ blocks t heap, b.1+b.2.extent ≤ limit
  unused : ∀ b ∈ blocks t heap, ∀ y, Covers b y → ¬used y

/-- What an allocator promises: blocks apart from the boxes and from what is in use. -/
structure Apportions (t : Target) (place : Heap Object → Object → Option ℕ) (limit : ℕ)
    (used : ℕ → Prop) : Prop extends Allocates place limit where
  apart : ∀ heap x p, place heap x = some p → ∀ b ∈ blocks t heap, ∀ y,
    ¬(Covers (p,objectTable t x) y ∧ Covers b y)
  room : ∀ heap x p, place heap x = some p → p+(objectTable t x).extent ≤ limit
  unused : ∀ heap x p, place heap x = some p → ∀ y, Covers (p,objectTable t x) y → ¬used y

/-! ## What a kernel reads in memory -/

section Read
variable (t : Target) (m : Memory)

def replyAt (id : ℕ × ℕ) (p : ℕ) : Option Reply :=
  if id = bootloaderInfoId then
    let r := bootloaderInfoRecord.readAt t m p
    some (.bootloaderInfo r.name r.version)
  else if id = hhdmId then
    let r := hhdmRecord.readAt t m p
    some (.hhdm r.revision r.offset)
  else if id = memmapId then
    let r := memmapRecord.readAt t m p
    some (.memmap r.revision (entryRecord.readList t m r.entries r.entryCount))
  else if id = framebufferId then
    let r := framebuffersRecord.readAt t m p
    let l := (pointerRecord t).readList t m r.framebuffers r.framebufferCount
    some (.framebuffers r.revision (l.map (framebufferRecord.readAt t m)))
  else if id = rsdpId then
    let r := rsdpRecord.readAt t m p
    some (.rsdp r.revision r.address)
  else if id = smbiosId then
    let r := smbiosRecord.readAt t m p
    some (.smbios r.revision r.address)
  else if id = kernelFileId then
    let r := kernelFileRecord.readAt t m p
    some (.kernelFile r.revision r.kernelFile)
  else if id = moduleId then
    let r := modulesRecord.readAt t m p
    let l := (pointerRecord t).readList t m r.modules r.moduleCount
    some (.modules r.revision (l.map (fileRecord.readAt t m)))
  else if id = smpId then some (.smp (smpRecord.readAt t m p))
  else none

end Read

def replyId : Reply → ℕ × ℕ
  | .bootloaderInfo _ _ => bootloaderInfoId
  | .hhdm _ _ => hhdmId
  | .memmap _ _ => memmapId
  | .framebuffers _ _ => framebufferId
  | .rsdp _ _ => rsdpId
  | .smbios _ _ => smbiosId
  | .kernelFile _ _ => kernelFileId
  | .modules _ _ => moduleId
  | .smp _ => smpId

def ReplyFits : Reply → Prop
  | .bootloaderInfo name version => bootloaderInfoRecord.Fits ⟨name,version⟩
  | .hhdm revision offset => hhdmRecord.Fits ⟨revision,offset⟩
  | .memmap revision entries => revision < 256^8 ∧ ∀ e ∈ entries, entryRecord.Fits e
  | .framebuffers revision fbs => revision < 256^8 ∧ ∀ fb ∈ fbs, framebufferRecord.Fits fb
  | .rsdp revision address => rsdpRecord.Fits ⟨revision,address⟩
  | .smbios revision address => smbiosRecord.Fits ⟨revision,address⟩
  | .kernelFile revision address => kernelFileRecord.Fits ⟨revision,address⟩
  | .modules revision files => revision < 256^8 ∧ ∀ f ∈ files, fileRecord.Fits f
  | .smp r => smpRecord.Fits r

/-! ## The bytes mean what the boxes do -/

section Bytes
variable {t : Target} {limit : ℕ} {used : ℕ → Prop} {w : World Object}

theorem lookup_block {heap : Heap Object} {p : ℕ} {x : Object} (h : heap.lookup p = some x) :
    (p,objectTable t x) ∈ blocks t heap := by
  obtain ⟨before,after,rfl,-⟩ := List.lookup_eq_some_iff.mp h
  rw [blocks,List.map_append,List.map_cons]
  exact List.mem_append_right _ List.mem_cons_self

theorem mapM_forall {α : Type} {f : ℕ → Option α} {l : List ℕ} {xs : List α}
    (h : l.mapM f = some xs) : List.Forall₂ (fun p x => f p = some x) l xs := by
  induction l generalizing xs with
  | nil =>
    cases h
    exact List.Forall₂.nil
  | cons p l ih =>
    rw [List.mapM_cons] at h
    obtain ⟨x,hx,h⟩ := Option.bind_eq_some_iff.mp h
    obtain ⟨rest,hrest,h⟩ := Option.bind_eq_some_iff.mp h
    cases h
    exact List.Forall₂.cons hx (ih hrest)

theorem fileAt_some {heap : Heap Object} {p : ℕ} {f : File} (h : fileAt heap p = some f) :
    heap.lookup p = some (.file f) := by
  unfold fileAt at h
  cases hlook : heap.lookup p with
  | none =>
    rw [hlook] at h
    cases h
  | some x =>
    rw [hlook] at h
    cases x with
    | file f' =>
      cases h
      rfl
    | _ => cases h

theorem framebufferAt_some {heap : Heap Object} {p : ℕ} {fb : Framebuffer}
    (h : framebufferAt heap p = some fb) : heap.lookup p = some (.framebuffer fb) := by
  unfold framebufferAt at h
  cases hlook : heap.lookup p with
  | none =>
    rw [hlook] at h
    cases h
  | some x =>
    rw [hlook] at h
    cases x with
    | framebuffer fb' =>
      cases h
      rfl
    | _ => cases h

theorem pointersAt_some {heap : Heap Object} {count p : ℕ} {l : List ℕ}
    (h : pointersAt heap count p = some l) :
    heap.lookup p = some (.pointers l) ∧ l.length = count := by
  unfold pointersAt at h
  cases hlook : heap.lookup p with
  | none =>
    rw [hlook] at h
    cases h
  | some x =>
    rw [hlook] at h
    cases x with
    | pointers l' =>
      obtain ⟨hlen,heq⟩ := Option.ite_none_right_eq_some.mp h
      cases heq
      exact ⟨rfl,hlen⟩
    | _ => cases h

theorem entriesAt_some {heap : Heap Object} {count p : ℕ} {l : List MemmapEntry}
    (h : entriesAt heap count p = some l) :
    l.length = count ∧ (l = [] ∨ heap.lookup p = some (.entries l)) := by
  unfold entriesAt at h
  by_cases hzero : count = 0
  · rw [if_pos hzero] at h
    cases h
    exact ⟨hzero.symm,Or.inl rfl⟩
  · rw [if_neg hzero] at h
    cases hlook : heap.lookup p with
    | none =>
      rw [hlook] at h
      cases h
    | some x =>
      rw [hlook] at h
      cases x with
      | entries l' =>
        obtain ⟨hlen,heq⟩ := Option.ite_none_right_eq_some.mp h
        cases heq
        exact ⟨hlen,Or.inr rfl⟩
      | _ => cases h

variable (hlaid : Laid t limit used w.heap)
include hlaid

theorem record_reads {α : Type} {R : Record α} {p : ℕ} {x : Object} {r : α}
    (hlook : w.heap.lookup p = some x) (htable : objectTable t x = R.table t [r])
    (hfits : R.Fits r) : R.readAt t (memoryOf t w) p = r := by
  have hin := lookup_block (t := t) hlook
  rw [htable] at hin
  exact Record.readAt_lay hlaid.apart hin hfits

theorem address_le {p : ℕ} {x : Object} (hlook : w.heap.lookup p = some x) :
    p+(objectTable t x).extent ≤ limit := hlaid.room _ (lookup_block hlook)

theorem address_lt {α : Type} {R : Record α} {p : ℕ} {x : Object} {r : α} {width : ℕ}
    (hlook : w.heap.lookup p = some x) (htable : objectTable t x = R.table t [r])
    (hwidth : width ∈ R.shape) (hpos : 0 < width) : p < limit := by
  have hroom := address_le hlaid hlook
  rw [htable] at hroom
  have hlen := R.length_le (t := t) [r] hwidth hpos
  rw [List.length_singleton] at hlen
  omega

theorem words_read {α : Type} {make : ℕ → ℕ → ℕ → α} {first second third : α → ℕ}
    {back : ∀ x, make (first x) (second x) (third x) = x} {p : ℕ} {x : Object} {r : α}
    (hlook : w.heap.lookup p = some x)
    (htable : objectTable t x = (threeWords make first second third back).table t [r]) :
    (threeWords make first second third back).readAt t (memoryOf t w) p =
      make (first r%256^8) (second r%256^8) (third r%256^8) := by
  have hin := lookup_block (t := t) hlook
  rw [htable] at hin
  have hread := Record.readAt_cut (m := w.memory) hlaid.apart hin (i := 0) Nat.one_pos
  rw [Nat.zero_mul,Nat.add_zero] at hread
  exact hread

section Lists
variable (hlimit : limit < 256^8)
include hlimit

theorem array_reads {α : Type} {R : Record α} {p : ℕ} {x : Object} {l : List α} {width : ℕ}
    (hlook : w.heap.lookup p = some x) (htable : objectTable t x = R.table t l)
    (hwidth : width ∈ R.shape) (hpos : 0 < width) (hfits : ∀ y ∈ l, R.Fits y) :
    R.readList t (memoryOf t w) (p%256^8) (l.length%256^8) = l := by
  have hin := lookup_block (t := t) hlook
  have hroom := address_le hlaid hlook
  rw [htable] at hin hroom
  have hlen := R.length_le (t := t) l hwidth hpos
  rw [Nat.mod_eq_of_lt (by omega),Nat.mod_eq_of_lt (by omega)]
  exact Record.readList_lay hlaid.apart hin hfits

theorem entries_read {count p : ℕ} {l : List MemmapEntry}
    (h : entriesAt w.heap count p = some l) (hfits : ∀ e ∈ l, entryRecord.Fits e) :
    entryRecord.readList t (memoryOf t w) (p%256^8) (count%256^8) = l := by
  obtain ⟨hlen,hnil|hlook⟩ := entriesAt_some h
  · rw [← hlen,hnil]
    rfl
  · rw [← hlen]
    exact array_reads hlaid hlimit hlook rfl List.mem_cons_self (by decide : 0 < 8) hfits

theorem pointed_read {α : Type} {R : Record α} {box : α → Object}
    {get : Heap Object → ℕ → Option α} {count p : ℕ} {l : List ℕ} {xs : List α} {width : ℕ}
    (hpointer : limit ≤ 256^t.pointer)
    (hget : ∀ q x, get w.heap q = some x → w.heap.lookup q = some (box x))
    (htable : ∀ x, objectTable t (box x) = R.table t [x]) (hwidth : width ∈ R.shape)
    (hpos : 0 < width) (h : pointersAt w.heap count p = some l)
    (hxs : l.mapM (get w.heap) = some xs) (hfits : ∀ x ∈ xs, R.Fits x) :
    ((pointerRecord t).readList t (memoryOf t w) (p%256^8) (count%256^8)).map
      (R.readAt t (memoryOf t w)) = xs := by
  obtain ⟨hlook,hlen⟩ := pointersAt_some h
  have hall := mapM_forall hxs
  have hpointers : ∀ q ∈ l, (pointerRecord t).Fits q := by
    intro q hq
    obtain ⟨i,hi,rfl⟩ := List.mem_iff_getElem.mp hq
    have hx := hget _ _ (hall.get hi (hall.length_eq ▸ hi))
    have hlt := address_lt hlaid hx (htable _) hwidth hpos
    exact List.Forall₂.cons (Nat.lt_of_lt_of_le hlt hpointer) List.Forall₂.nil
  rw [← hlen,array_reads hlaid hlimit hlook rfl List.mem_cons_self t.pos hpointers]
  clear h hlook hlen hpointers hxs
  induction hall with
  | nil => rfl
  | cons hx _ ih =>
    rw [List.map_cons,ih fun y hy => hfits y (List.mem_cons_of_mem _ hy),
      record_reads hlaid (hget _ _ hx) (htable _) (hfits _ List.mem_cons_self)]

theorem replyAt_readReply (hpointer : limit ≤ 256^t.pointer) {p : ℕ} {reply : Reply}
    (hfits : ReplyFits reply) (h : readReply w.heap p = some reply) :
    replyAt t (memoryOf t w) (replyId reply) p = some reply := by
  unfold readReply at h
  cases hlook : w.heap.lookup p with
  | none =>
    rw [hlook] at h
    cases h
  | some x =>
    rw [hlook] at h
    cases x with
    | bootloaderInfo r =>
      cases h
      exact congrArg (fun r => some (Reply.bootloaderInfo r.name r.version))
        (record_reads hlaid hlook rfl hfits)
    | hhdm r =>
      cases h
      exact congrArg (fun r => some (Reply.hhdm r.revision r.offset))
        (record_reads hlaid hlook rfl hfits)
    | rsdp r =>
      cases h
      exact congrArg (fun r => some (Reply.rsdp r.revision r.address))
        (record_reads hlaid hlook rfl hfits)
    | smbios r =>
      cases h
      exact congrArg (fun r => some (Reply.smbios r.revision r.address))
        (record_reads hlaid hlook rfl hfits)
    | kernelFile r =>
      cases h
      exact congrArg (fun r => some (Reply.kernelFile r.revision r.kernelFile))
        (record_reads hlaid hlook rfl hfits)
    | smp r =>
      cases h
      exact congrArg (fun r => some (Reply.smp r)) (record_reads hlaid hlook rfl hfits)
    | memmap r =>
      obtain ⟨l,hl,rfl⟩ := Option.map_eq_some_iff.mp h
      have hwords : memmapRecord.readAt t (memoryOf t w) p =
          ⟨r.revision%256^8,r.entryCount%256^8,r.entries%256^8⟩ := words_read hlaid hlook rfl
      show some (Reply.memmap _ _) = _
      rw [hwords,entries_read hlaid hlimit hl hfits.2,Nat.mod_eq_of_lt hfits.1]
    | framebuffers r =>
      obtain ⟨fbs,hfbs,rfl⟩ := Option.map_eq_some_iff.mp h
      obtain ⟨l,hl,hfbs⟩ := Option.bind_eq_some_iff.mp hfbs
      have hwords : framebuffersRecord.readAt t (memoryOf t w) p =
          ⟨r.revision%256^8,r.framebufferCount%256^8,r.framebuffers%256^8⟩ :=
        words_read hlaid hlook rfl
      have hlist := pointed_read hlaid hlimit hpointer (fun _ _ => framebufferAt_some)
        (fun _ => rfl) (R := framebufferRecord) List.mem_cons_self (by decide : 0 < 8) hl hfbs
        hfits.2
      show some (Reply.framebuffers _ _) = _
      rw [hwords,hlist,Nat.mod_eq_of_lt hfits.1]
    | modules r =>
      obtain ⟨files,hfiles,rfl⟩ := Option.map_eq_some_iff.mp h
      obtain ⟨l,hl,hfiles⟩ := Option.bind_eq_some_iff.mp hfiles
      have hwords : modulesRecord.readAt t (memoryOf t w) p =
          ⟨r.revision%256^8,r.moduleCount%256^8,r.modules%256^8⟩ := words_read hlaid hlook rfl
      have hlist := pointed_read hlaid hlimit hpointer (fun _ _ => fileAt_some)
        (fun _ => rfl) (R := fileRecord) List.mem_cons_self (by decide : 0 < 8) hl hfiles hfits.2
      show some (Reply.modules _ _) = _
      rw [hwords,hlist,Nat.mod_eq_of_lt hfits.1]
    | _ => cases h

end Lists

end Bytes

/-! ## A kernel of 64 bits -/

/-- A reply without tables, or with a memory map of one entry at most. -/
def Flat : Reply → Prop
  | .memmap _ entries => entries.length ≤ 1
  | .framebuffers _ _ => False
  | .modules _ _ => False
  | _ => True

section Kernel
variable {m : Memory} {p : ℕ}

theorem two_target {α : Type} {make : ℕ → ℕ → α} {first second : α → ℕ}
    {back : ∀ x, make (first x) (second x) = x} :
    (twoWords make first second back).readAt x86_64 m p =
      (twoWords make first second back).readAt i686 m p :=
  Record.readAt_target m p (by decide : fieldsFrom x86_64 0 [8,8] = fieldsFrom i686 0 [8,8])

theorem replyAt_flat {reply : Reply} (hflat : Flat reply)
    (h : replyAt i686 m (replyId reply) p = some reply) :
    replyAt x86_64 m (replyId reply) p = some reply := by
  cases reply with
  | memmap revision entries =>
    have hwords : memmapRecord.readAt x86_64 m p = memmapRecord.readAt i686 m p :=
      Record.readAt_target m p (by decide)
    have hreply : Reply.memmap (memmapRecord.readAt i686 m p).revision
        (entryRecord.readList i686 m (memmapRecord.readAt i686 m p).entries
          (memmapRecord.readAt i686 m p).entryCount) = .memmap revision entries := Option.some.inj h
    obtain ⟨hrevision,hentries⟩ := Reply.memmap.inj hreply
    have hcount : (memmapRecord.readAt i686 m p).entryCount ≤ 1 := by
      have hlen := congrArg List.length hentries
      rw [Record.readList,List.length_map,List.length_range] at hlen
      rw [hlen]
      exact hflat
    have hfields : fieldsFrom x86_64 0 entryRecord.shape = fieldsFrom i686 0 entryRecord.shape := by
      decide
    have hlist := (Record.readList_target m (memmapRecord.readAt i686 m p).entries hcount
      hfields).trans hentries
    show some (Reply.memmap _ _) = _
    rw [hwords,hrevision,hlist]
  | framebuffers revision fbs => exact hflat.elim
  | modules revision files => exact hflat.elim
  | smp r =>
    exact (congrArg (fun r : SmpResponse => some (Reply.smp r))
      (Record.readAt_target m p (by decide))).trans h
  | bootloaderInfo name version =>
    exact (congrArg (fun r : BootloaderInfoResponse => some (Reply.bootloaderInfo r.name r.version))
      two_target).trans h
  | hhdm revision offset =>
    exact (congrArg (fun r : HhdmResponse => some (Reply.hhdm r.revision r.offset))
      two_target).trans h
  | rsdp revision address =>
    exact (congrArg (fun r : RsdpResponse => some (Reply.rsdp r.revision r.address))
      two_target).trans h
  | smbios revision address =>
    exact (congrArg (fun r : SmbiosResponse => some (Reply.smbios r.revision r.address))
      two_target).trans h
  | kernelFile revision address =>
    exact (congrArg (fun r : KernelFileResponse => some (Reply.kernelFile r.revision r.kernelFile))
      two_target).trans h

theorem entryRecord_base (a : ℕ) :
    (entryRecord.readAt i686 m a).base = number 8 m a ∧
    (entryRecord.readAt i686 m a).length = number 8 m (a+8) ∧
    (entryRecord.readAt x86_64 m a).base = number 8 m a := ⟨rfl,rfl,rfl⟩

theorem number_halves (a : ℕ) :
    number 8 m (a+4) = number 8 m a/2^32+number 8 m (a+8)%2^32*2^32 := by
  have hfirst := number_add m 4 4 a
  have hmiddle := number_add m 4 4 (a+4)
  have hlast := number_add m 4 4 (a+8)
  have h1 := number_lt m 4 a
  have h2 := number_lt m 4 (a+8)
  simp only [Nat.add_assoc,Nat.reduceAdd,Nat.reducePow] at *
  omega

/-- Of a longer memory map, a kernel of 64 bits finds the second entry four bytes too late:
its base has halves of the base and of the length. -/
theorem second_entry {revision : ℕ} {first second : MemmapEntry} {rest : List MemmapEntry}
    (h : replyAt i686 m memmapId p = some (.memmap revision (first::second::rest))) :
    ∃ entries, replyAt x86_64 m memmapId p = some (.memmap revision entries) ∧
      entries.length = rest.length+2 ∧
      entries[1]?.map MemmapEntry.base = some (second.base/2^32+second.length%2^32*2^32) := by
  have hwords : memmapRecord.readAt x86_64 m p = memmapRecord.readAt i686 m p :=
    Record.readAt_target m p (by decide)
  obtain ⟨r,hr⟩ : ∃ r, r = memmapRecord.readAt i686 m p := ⟨_,rfl⟩
  have hreply : Reply.memmap (memmapRecord.readAt i686 m p).revision
      (entryRecord.readList i686 m (memmapRecord.readAt i686 m p).entries
        (memmapRecord.readAt i686 m p).entryCount) =
      .memmap revision (first::second::rest) := Option.some.inj h
  rw [← hr] at hwords hreply
  obtain ⟨hrevision,hentries⟩ := Reply.memmap.inj hreply
  have hcount : r.entryCount = rest.length+2 := by
    have hlen := congrArg List.length hentries
    rwa [Record.readList,List.length_map,List.length_range] at hlen
  have hsecond : entryRecord.readAt i686 m (r.entries+20) = second := by
    have hget := congrArg (·[1]?) hentries
    rw [Record.readList,List.getElem?_map,List.getElem?_range (by omega)] at hget
    exact Option.some.inj hget
  obtain ⟨hbase,hlength,-⟩ := entryRecord_base (m := m) (r.entries+20)
  rw [hsecond] at hbase hlength
  refine ⟨entryRecord.readList x86_64 m r.entries r.entryCount,?_,?_,?_⟩
  · show some (Reply.memmap _ _) = _
    rw [hwords,hrevision]
  · rw [Record.readList,List.length_map,List.length_range,hcount]
  · rw [Record.readList,List.getElem?_map,List.getElem?_range (by omega)]
    refine congrArg some ?_
    show (entryRecord.readAt x86_64 m (r.entries+24)).base = _
    rw [(entryRecord_base _).2.2,hbase,hlength]
    exact number_halves (r.entries+20)

end Kernel

end Zamak.ReplyLayout
