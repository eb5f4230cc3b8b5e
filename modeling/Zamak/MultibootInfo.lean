import Zamak.ConfigText
import Zamak.TagStreams

/-! # The Multiboot 2 boot information

`BootInfoBuilder`: a buffer to which each `add_*` call appends its tag, and `finish`.
Sizes are computed in a `u32`, which wraps. Every call writes the size it declares
except the framebuffer's, whose colour information lies past its declared end. -/

set_option autoImplicit false

namespace Zamak.MultibootInfo
open Zamak.ConfigText Zamak.TagStreams

structure MmapEntry where
  addr : UInt64
  len : UInt64
  entryType : UInt32

inductive Call where
  | cmdline (cmdline : Text)
  | bootLoaderName (name : Text)
  | basicMeminfo (memLowerKb memUpperKb : UInt32)
  | module (modStart modEnd : UInt32) (cmdline : Text)
  | mmap (entries : List MmapEntry)
  | framebuffer (addr : UInt64) (pitch width height : UInt32) (bpp : UInt8)
  | acpiOld (rsdp : List UInt8)
  | acpiNew (xsdp : List UInt8)

def tagTypeEnd : ℕ := 0
def tagTypeCmdline : ℕ := 1
def tagTypeBootLoaderName : ℕ := 2
def tagTypeModule : ℕ := 3
def tagTypeBasicMeminfo : ℕ := 4
def tagTypeMmap : ℕ := 6
def tagTypeFramebuffer : ℕ := 8
def tagTypeAcpiOld : ℕ := 14
def tagTypeAcpiNew : ℕ := 15

def asBytes (s : Text) : List UInt8 := s.flatMap String.utf8EncodeChar

def u32 (n : ℕ) : List UInt8 := natBytes 4 n

def u64 (n : ℕ) : List UInt8 := natBytes 8 n

def wrap (n : ℕ) : ℕ := n%2^32

def align8 (buf : List UInt8) : List UInt8 :=
  if buf.length%8 = 0 then buf else align8 (buf++[0])
termination_by (8-buf.length%8)%8
decreasing_by
  simp only [List.length_append,List.length_singleton]
  omega

/-- A tag with one string, as `add_cmdline` and `add_boot_loader_name` write it. -/
def addString (tagType : ℕ) (buf : List UInt8) (s : Text) : List UInt8 :=
  let buf := align8 buf
  let size := wrap (8+wrap (asBytes s).length+1)
  buf++u32 tagType++u32 size++asBytes s++[0]

def addCmdline (buf : List UInt8) (cmdline : Text) : List UInt8 :=
  addString tagTypeCmdline buf cmdline

def addBootLoaderName (buf : List UInt8) (name : Text) : List UInt8 :=
  addString tagTypeBootLoaderName buf name

def addBasicMeminfo (buf : List UInt8) (memLowerKb memUpperKb : UInt32) : List UInt8 :=
  let buf := align8 buf
  let size := 16
  buf++u32 tagTypeBasicMeminfo++u32 size++u32 memLowerKb.toNat++u32 memUpperKb.toNat

def addModule (buf : List UInt8) (modStart modEnd : UInt32) (cmdline : Text) : List UInt8 :=
  let buf := align8 buf
  let size := wrap (16+wrap (asBytes cmdline).length+1)
  buf++u32 tagTypeModule++u32 size++u32 modStart.toNat++u32 modEnd.toNat++asBytes cmdline++[0]

def mmapEntryBytes (entry : MmapEntry) : List UInt8 :=
  u64 entry.addr.toNat++u64 entry.len.toNat++u32 entry.entryType.toNat++u32 0

def addMmap (buf : List UInt8) (entries : List MmapEntry) : List UInt8 :=
  let buf := align8 buf
  let entrySize := 24
  let size := wrap (16+wrap (wrap entries.length*entrySize))
  buf++u32 tagTypeMmap++u32 size++u32 entrySize++u32 0++entries.flatMap mmapEntryBytes

def addFramebuffer (buf : List UInt8) (addr : UInt64) (pitch width height : UInt32)
    (bpp : UInt8) : List UInt8 :=
  let buf := align8 buf
  let size := 32
  buf++u32 tagTypeFramebuffer++u32 size++u64 addr.toNat++u32 pitch.toNat++u32 width.toNat++
    u32 height.toNat++[bpp]++[1]++[0,0]++[8,0,8,8,8,16,0,0]

/-- A table copied whole, as `add_acpi_old` and `add_acpi_new` write it. -/
def addTable (tagType : ℕ) (buf table : List UInt8) : List UInt8 :=
  let buf := align8 buf
  let size := wrap (8+wrap table.length)
  buf++u32 tagType++u32 size++table

def addAcpiOld (buf rsdp : List UInt8) : List UInt8 := addTable tagTypeAcpiOld buf rsdp

def addAcpiNew (buf xsdp : List UInt8) : List UInt8 := addTable tagTypeAcpiNew buf xsdp

def add (buf : List UInt8) : Call → List UInt8
  | .cmdline cmdline => addCmdline buf cmdline
  | .bootLoaderName name => addBootLoaderName buf name
  | .basicMeminfo memLowerKb memUpperKb => addBasicMeminfo buf memLowerKb memUpperKb
  | .module modStart modEnd cmdline => addModule buf modStart modEnd cmdline
  | .mmap entries => addMmap buf entries
  | .framebuffer addr pitch width height bpp => addFramebuffer buf addr pitch width height bpp
  | .acpiOld rsdp => addAcpiOld buf rsdp
  | .acpiNew xsdp => addAcpiNew buf xsdp

def new : List UInt8 := u32 0++u32 0

def finish (buf : List UInt8) : List UInt8 :=
  let buf := align8 buf++u32 tagTypeEnd++u32 8
  u32 (wrap buf.length)++buf.drop 4

def build (calls : List Call) : List UInt8 := finish (calls.foldl add new)

def payload : Call → List UInt8
  | .cmdline cmdline => asBytes cmdline++[0]
  | .bootLoaderName name => asBytes name++[0]
  | .basicMeminfo memLowerKb memUpperKb => u32 memLowerKb.toNat++u32 memUpperKb.toNat
  | .module modStart modEnd cmdline => u32 modStart.toNat++u32 modEnd.toNat++asBytes cmdline++[0]
  | .mmap entries => u32 24++u32 0++entries.flatMap mmapEntryBytes
  | .framebuffer addr pitch width height bpp =>
    u64 addr.toNat++u32 pitch.toNat++u32 width.toNat++u32 height.toNat++[bpp,1,0,0]++
      [8,0,8,8,8,16,0,0]
  | .acpiOld rsdp => rsdp
  | .acpiNew xsdp => xsdp

def tagType : Call → ℕ
  | .cmdline _ => tagTypeCmdline
  | .bootLoaderName _ => tagTypeBootLoaderName
  | .basicMeminfo _ _ => tagTypeBasicMeminfo
  | .module _ _ _ => tagTypeModule
  | .mmap _ => tagTypeMmap
  | .framebuffer _ _ _ _ _ => tagTypeFramebuffer
  | .acpiOld _ => tagTypeAcpiOld
  | .acpiNew _ => tagTypeAcpiNew

def IsFramebuffer : Call → Prop
  | .framebuffer _ _ _ _ _ => True
  | _ => False

/-- The record of a call: only the framebuffer's declares less than it holds. -/
def record (call : Call) : Record where
  kind := tagType call
  declared := match call with
    | .framebuffer _ _ _ _ _ => 32
    | call => 8+(payload call).length
  payload := payload call

theorem fill_aligned (n : ℕ) (h : n%8 = 0) : fill n = [] := by
  have hnone : roundUp8 n-n = 0 := by
    unfold roundUp8
    omega
  rw [fill,hnone]
  rfl

theorem fill_succ (n : ℕ) (h : ¬n%8 = 0) : fill n = 0::fill (n+1) := by
  have hone : roundUp8 n-n = roundUp8 (n+1)-(n+1)+1 := by
    unfold roundUp8
    omega
  rw [fill,hone]
  rfl

theorem align8_eq (buf : List UInt8) : align8 buf = buf++fill buf.length := by
  fun_induction align8 buf with
  | case1 buf h => rw [fill_aligned buf.length h,List.append_nil]
  | case2 buf h ih =>
    rw [ih,fill_succ buf.length h,List.length_append,List.append_assoc]
    rfl

theorem wrap_eq (n : ℕ) (h : n < 2^32) : wrap n = n := Nat.mod_eq_of_lt h

theorem mmapEntryBytes_length (entry : MmapEntry) : (mmapEntryBytes entry).length = 24 := by
  simp only [mmapEntryBytes,u32,u64,List.length_append,natBytes_length]

theorem entries_length (entries : List MmapEntry) :
    (entries.flatMap mmapEntryBytes).length = entries.length*24 := by
  induction entries with
  | nil => rfl
  | cons entry entries ih =>
    rw [List.flatMap_cons,List.length_append,mmapEntryBytes_length,ih,List.length_cons]
    omega

theorem addString_eq (tagType : ℕ) (buf : List UInt8) (s : Text)
    (h : (addString tagType buf s).length < 2^32) :
    addString tagType buf s =
      align8 buf++(Record.mk tagType (8+(asBytes s++[0]).length) (asBytes s++[0])).bytes := by
  have hfits : 8+(asBytes s).length+1 < 2^32 := by
    simp only [addString,u32,List.length_append,natBytes_length,List.length_singleton] at h
    omega
  have hsize : wrap (8+wrap (asBytes s).length+1) = 8+(asBytes s++[0]).length := by
    rw [wrap_eq (asBytes s).length (by omega),wrap_eq _ hfits,List.length_append]
    rfl
  simp only [addString,hsize,Record.bytes,u32,List.append_assoc]

theorem addTable_eq (tagType : ℕ) (buf table : List UInt8)
    (h : (addTable tagType buf table).length < 2^32) :
    addTable tagType buf table =
      align8 buf++(Record.mk tagType (8+table.length) table).bytes := by
  have hfits : 8+table.length < 2^32 := by
    simp only [addTable,u32,List.length_append,natBytes_length] at h
    omega
  have hsize : wrap (8+wrap table.length) = 8+table.length := by
    rw [wrap_eq table.length (by omega),wrap_eq _ hfits]
  simp only [addTable,hsize,Record.bytes,u32,List.append_assoc]

theorem addModule_eq (buf : List UInt8) (modStart modEnd : UInt32) (cmdline : Text)
    (h : (addModule buf modStart modEnd cmdline).length < 2^32) :
    addModule buf modStart modEnd cmdline =
      align8 buf++(record (.module modStart modEnd cmdline)).bytes := by
  have hfits : 16+(asBytes cmdline).length+1 < 2^32 := by
    simp only [addModule,u32,List.length_append,natBytes_length,List.length_singleton] at h
    omega
  have hsize : wrap (16+wrap (asBytes cmdline).length+1) =
      8+(payload (.module modStart modEnd cmdline)).length := by
    rw [wrap_eq (asBytes cmdline).length (by omega),wrap_eq _ hfits]
    simp only [payload,u32,List.length_append,natBytes_length,List.length_singleton]
    omega
  simp only [addModule,hsize,record,tagType,Record.bytes,u32,payload,List.append_assoc]

theorem addMmap_eq (buf : List UInt8) (entries : List MmapEntry)
    (h : (addMmap buf entries).length < 2^32) :
    addMmap buf entries = align8 buf++(record (.mmap entries)).bytes := by
  have hfits : 16+entries.length*24 < 2^32 := by
    simp only [addMmap,u32,List.length_append,natBytes_length,entries_length] at h
    omega
  have hsize : wrap (16+wrap (wrap entries.length*24)) =
      8+(payload (.mmap entries)).length := by
    rw [wrap_eq entries.length (by omega),wrap_eq (entries.length*24) (by omega),wrap_eq _ hfits]
    simp only [payload,u32,List.length_append,natBytes_length,entries_length]
    omega
  simp only [addMmap,hsize,record,tagType,Record.bytes,u32,payload,List.append_assoc]

theorem addFramebuffer_eq (buf : List UInt8) (addr : UInt64) (pitch width height : UInt32)
    (bpp : UInt8) :
    addFramebuffer buf addr pitch width height bpp =
      align8 buf++(record (.framebuffer addr pitch width height bpp)).bytes := by
  simp only [addFramebuffer,record,tagType,Record.bytes,u32,payload,List.append_assoc]
  rfl

theorem add_eq (buf : List UInt8) (call : Call) (h : (add buf call).length < 2^32) :
    add buf call = align8 buf++(record call).bytes := by
  cases call with
  | cmdline cmdline => exact addString_eq tagTypeCmdline buf cmdline h
  | bootLoaderName name => exact addString_eq tagTypeBootLoaderName buf name h
  | basicMeminfo memLowerKb memUpperKb =>
    simp only [add,addBasicMeminfo,record,tagType,Record.bytes,u32,payload,List.append_assoc]
    rfl
  | module modStart modEnd cmdline => exact addModule_eq buf modStart modEnd cmdline h
  | mmap entries => exact addMmap_eq buf entries h
  | framebuffer addr pitch width height bpp =>
    exact addFramebuffer_eq buf addr pitch width height bpp
  | acpiOld rsdp => exact addTable_eq tagTypeAcpiOld buf rsdp h
  | acpiNew xsdp => exact addTable_eq tagTypeAcpiNew buf xsdp h

theorem add_grows (buf : List UInt8) (call : Call) : buf.length ≤ (add buf call).length := by
  cases call <;>
    simp only [add,addCmdline,addBootLoaderName,addString,addBasicMeminfo,addModule,addMmap,
      addFramebuffer,addAcpiOld,addAcpiNew,addTable,align8_eq,List.length_append] <;>
    omega

theorem calls_grow (calls : List Call) (buf : List UInt8) :
    buf.length ≤ (calls.foldl add buf).length := by
  induction calls generalizing buf with
  | nil => exact Nat.le_refl _
  | cons call calls ih => exact (add_grows buf call).trans (ih (add buf call))

theorem calls_eq (calls : List Call) (buf : List UInt8)
    (h : (calls.foldl add buf).length < 2^32) :
    align8 (calls.foldl add buf)++endTag = buf++body buf.length (calls.map record) := by
  induction calls generalizing buf with
  | nil =>
    rw [List.foldl_nil,align8_eq,List.append_assoc]
    rfl
  | cons call calls ih =>
    rw [List.foldl_cons] at h ⊢
    have hadd := add_eq buf call (Nat.lt_of_le_of_lt (calls_grow calls (add buf call)) h)
    have hlen : (add buf call).length = roundUp8 buf.length+(record call).bytes.length := by
      rw [hadd,align8_eq,List.length_append,List.length_append,fill_length]
    rw [ih (add buf call) h,hlen,hadd,align8_eq,List.map_cons,body]
    simp only [List.append_assoc]

theorem finish_length (buf : List UInt8) :
    (finish buf).length = (align8 buf++endTag).length := by
  simp only [finish,u32,endTag,List.length_append,List.length_drop,natBytes_length]
  omega

/-- The finished buffer: its own length, a reserved word and the stream of the calls. -/
theorem build_eq (calls : List Call) (h : (build calls).length < 2^32) :
    build calls = u32 (build calls).length++u32 0++body 8 (calls.map record) := by
  have hlen := finish_length (calls.foldl add new)
  have hbuf : (calls.foldl add new).length < 2^32 := by
    rw [build,hlen,align8_eq] at h
    simp only [List.length_append] at h
    omega
  have hcalls : align8 (calls.foldl add new)++u32 tagTypeEnd++u32 8 =
      u32 0++(u32 0++body 8 (calls.map record)) := by
    have := calls_eq calls new hbuf
    rw [new,List.append_assoc] at this
    rw [List.append_assoc]
    exact this
  have htotal : (u32 0++(u32 0++body 8 (calls.map record))).length = (build calls).length := by
    rw [← hcalls,List.append_assoc]
    exact hlen.symm
  have hpatch : build calls = u32 (wrap (build calls).length)++
      (u32 0++(u32 0++body 8 (calls.map record))).drop 4 := by
    rw [← htotal,← hcalls]
    rfl
  have hdrop : (u32 0++(u32 0++body 8 (calls.map record))).drop 4 =
      u32 0++body 8 (calls.map record) := List.drop_left' (natBytes_length 4 0)
  rw [wrap_eq _ h,hdrop] at hpatch
  rw [List.append_assoc]
  exact hpatch

theorem record_kind (call : Call) : (record call).kind < 2^32 := by
  have hsmall : tagType call < 16 := by
    cases call <;> exact Nat.le_of_ble_eq_true rfl
  exact Nat.lt_trans hsmall (by decide)

theorem framebuffer_payload (addr : UInt64) (pitch width height : UInt32) (bpp : UInt8) :
    (payload (.framebuffer addr pitch width height bpp)).length = 32 := by
  simp only [payload,u32,u64,List.length_append,natBytes_length]
  rfl

theorem record_declared (call : Call) :
    (record call).declared ≤ 8+(record call).payload.length := by
  cases call with
  | framebuffer addr pitch width height bpp =>
    have := framebuffer_payload addr pitch width height bpp
    simp only [record,this]
    decide
  | _ => exact Nat.le_refl _

theorem record_honest (call : Call) : (record call).Honest ↔ ¬IsFramebuffer call := by
  cases call with
  | framebuffer addr pitch width height bpp =>
    have := framebuffer_payload addr pitch width height bpp
    simp only [Record.Honest,record,this,IsFramebuffer]
    decide
  | _ => exact iff_of_true rfl id

/-- A reader of the finished buffer finds its length in the first word and then, tag by
tag from offset 8, the calls with their payloads, and the end tag at its very end. -/
def RoundTrip (calls : List Call) : Prop :=
  wordAt (build calls) 0 = (build calls).length ∧
  Visits (build calls) 8 (calls.map record)

/-- The calls are read back exactly when none of them adds a framebuffer. -/
theorem roundTrip_iff (calls : List Call) (h : (build calls).length < 2^32) :
    RoundTrip calls ↔ ∀ call ∈ calls, ¬IsFramebuffer call := by
  have hbuild := build_eq calls h
  have htotal : wordAt (build calls) 0 = (build calls).length := by
    rw [hbuild]
    conv_rhs => rw [← hbuild]
    rw [List.append_assoc]
    exact wordAt_append [] _ (build calls).length h
  have hhead : (u32 (build calls).length++u32 0).length = 8 := by
    simp only [u32,List.length_append,natBytes_length]
  have hvisits := visits_iff (u32 (build calls).length++u32 0) (calls.map record)
    (List.forall_mem_map.mpr fun call _ => record_kind call)
    (List.forall_mem_map.mpr fun call _ => record_declared call)
    (by rw [hhead,← hbuild]; exact h)
  rw [hhead,← hbuild] at hvisits
  have hround : RoundTrip calls ↔ Visits (build calls) (roundUp8 8) (calls.map record) :=
    ⟨fun hr => hr.2,fun hv => ⟨htotal,hv⟩⟩
  rw [hround,hvisits,List.forall_mem_map]
  exact forall_congr' fun call => imp_congr_right fun _ => record_honest call

theorem roundTrip_meminfo :
    RoundTrip [.bootLoaderName [ 'Z', 'A'],.basicMeminfo 640 130048] := by
  have hlen : (build [.bootLoaderName [ 'Z', 'A'],.basicMeminfo 640 130048]).length < 2^32 := by
    simp only [build,finish,List.foldl,add,addBootLoaderName,addString,addBasicMeminfo,align8_eq]
    decide
  exact (roundTrip_iff _ hlen).mpr (by simp [IsFramebuffer])

/-- After a framebuffer of 32 declared bytes the reader stands on its colour
information, where the end tag should be. -/
theorem framebuffer_unread :
    (build [.framebuffer 0xFD000000 4096 1024 768 32]).length < 2^32 ∧
    ¬RoundTrip [.framebuffer 0xFD000000 4096 1024 768 32] ∧
    wordAt (build [.framebuffer 0xFD000000 4096 1024 768 32]) 40 = 0x08080008 ∧
    wordAt (build [.framebuffer 0xFD000000 4096 1024 768 32]) 44 = 0x1008 := by
  simp only [RoundTrip,build,finish,List.foldl,add,addFramebuffer,align8_eq]
  refine ⟨by decide,?_,by decide,by decide⟩
  rintro ⟨-,-,hdeclared,-⟩
  exact absurd hdeclared (by decide)

end Zamak.MultibootInfo
