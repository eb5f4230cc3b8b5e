import Zamak.Fat32Image
import Zamak.TagStreams

/-! # The minimal ELF parser of the BIOS loader

`parse_elf_minimal` on its target, where a `usize` has 32 bits. The 64-bit fields of the
file are narrowed as they are read, the offset of the table before it is compared with the
length of the file. -/

set_option autoImplicit false

namespace Zamak.BiosElf
open Zamak.Fat32Image Zamak.TagStreams

/-- A segment: `usize` fields below `2^32`, addresses below `2^64`. -/
structure ElfSegment where
  offset : ℕ
  vaddr : ℕ
  paddr : ℕ
  fileSize : ℕ
  memSize : ℕ
  deriving DecidableEq, Repr

structure ElfInfo where
  entry : ℕ
  segments : List ElfSegment
  isPie : Bool
  deriving DecidableEq, Repr

inductive Fault where
  | overflow
  | outOfBounds
  deriving DecidableEq, Repr

def asUsize (n : ℕ) : ℕ := n%2^32

def addUsize (a b : ℕ) : Except Fault ℕ :=
  match checkedAdd 32 a b with
  | some sum => .ok sum
  | none => .error .overflow

def mulUsize (a b : ℕ) : Except Fault ℕ :=
  match checkedMul 32 a b with
  | some product => .ok product
  | none => .error .overflow

def readAt (width : ℕ) (buf : List UInt8) (ofs : ℕ) : Except Fault ℕ :=
  if ofs+width ≤ buf.length then .ok (numberAt width buf ofs) else .error .outOfBounds

def readU16LeAt (buf : List UInt8) (ofs : ℕ) : Except Fault ℕ := readAt 2 buf ofs

def readU32LeAt (buf : List UInt8) (ofs : ℕ) : Except Fault ℕ := readAt 4 buf ofs

def readU64LeAt (buf : List UInt8) (ofs : ℕ) : Except Fault ℕ := do
  let lo ← readU32LeAt buf ofs
  let hi ← readU32LeAt buf (ofs+4)
  .ok (lo+2^32*hi)

def ptLoad : ℕ := 1

def readSegment (bytes : List UInt8) (ofs : ℕ) : Except Fault ElfSegment := do
  let offset ← readU64LeAt bytes (ofs+8)
  let vaddr ← readU64LeAt bytes (ofs+16)
  let paddr ← readU64LeAt bytes (ofs+24)
  let fileSize ← readU64LeAt bytes (ofs+32)
  let memSize ← readU64LeAt bytes (ofs+40)
  .ok {
    offset := asUsize offset
    vaddr := vaddr
    paddr := paddr
    fileSize := asUsize fileSize
    memSize := asUsize memSize }

/-- The loop over the table, from the `i`-th header on, with some left. -/
def readHeaders (bytes : List UInt8) (ePhoff ePhentsize : ℕ) :
    ℕ → ℕ → List ElfSegment → Except Fault (Option (List ElfSegment))
  | 0, _, segments => .ok (some segments)
  | left+1, i, segments => do
    let skip ← mulUsize i ePhentsize
    let ofs ← addUsize ePhoff skip
    let stop ← addUsize ofs 56
    if stop > bytes.length then .ok none
    else
      let pType ← readU32LeAt bytes ofs
      if pType = ptLoad then
        let segment ← readSegment bytes ofs
        readHeaders bytes ePhoff ePhentsize left (i+1) (segments++[segment])
      else readHeaders bytes ePhoff ePhentsize left (i+1) segments

def elfMagic : List UInt8 := [0x7F,0x45,0x4C,0x46]

def parseElfMinimal (bytes : List UInt8) : Except Fault (Option ElfInfo) :=
  if bytes.length < 64 then .ok none
  else if bytes.take 4 ≠ elfMagic then .ok none
  else if bytes.getD 4 0 ≠ 2 then .ok none
  else do
    let entry ← readU64LeAt bytes 0x18
    let ePhoff ← readU64LeAt bytes 0x20
    let eType ← readU16LeAt bytes 0x10
    let ePhentsize ← readU16LeAt bytes 0x36
    let ePhnum ← readU16LeAt bytes 0x38
    let segments ← readHeaders bytes (asUsize ePhoff) ePhentsize ePhnum 0 []
    .ok (segments.map fun segments =>
      { entry := entry, segments := segments, isPie := decide (eType = 3) })

/-! ## The program headers of a file -/

structure ProgramHeader where
  pType : ℕ
  pOffset : ℕ
  pVaddr : ℕ
  pPaddr : ℕ
  pFilesz : ℕ
  pMemsz : ℕ

def programHeaderAt (bytes : List UInt8) (ofs : ℕ) : ProgramHeader where
  pType := numberAt 4 bytes ofs
  pOffset := numberAt 8 bytes (ofs+8)
  pVaddr := numberAt 8 bytes (ofs+16)
  pPaddr := numberAt 8 bytes (ofs+24)
  pFilesz := numberAt 8 bytes (ofs+32)
  pMemsz := numberAt 8 bytes (ofs+40)

section File
variable (bytes : List UInt8)

def phoff : ℕ := numberAt 8 bytes 0x20

def phentsize : ℕ := numberAt 2 bytes 0x36

def phnum : ℕ := numberAt 2 bytes 0x38

def InFile (table : ℕ) : Prop := ∀ i < phnum bytes, table+i*phentsize bytes+56 ≤ bytes.length

instance (table : ℕ) : Decidable (InFile bytes table) :=
  inferInstanceAs (Decidable (∀ i < phnum bytes, _))

def headersAt (table : ℕ) : List ProgramHeader :=
  (List.range (phnum bytes)).map fun i => programHeaderAt bytes (table+i*phentsize bytes)

/-- The program headers at the offset the file gives, if they are in the file. -/
def programHeaders : Option (List ProgramHeader) :=
  if InFile bytes (phoff bytes) then some (headersAt bytes (phoff bytes)) else none

/-- The identification of a 64-bit ELF file with room for a header. -/
def Accepted : Prop := 64 ≤ bytes.length ∧ bytes.take 4 = elfMagic ∧ bytes.getD 4 0 = 2

instance : Decidable (Accepted bytes) := inferInstanceAs (Decidable (_ ∧ _))

end File

def ProgramHeader.segment (ph : ProgramHeader) : ElfSegment where
  offset := ph.pOffset
  vaddr := ph.pVaddr
  paddr := ph.pPaddr
  fileSize := ph.pFilesz
  memSize := ph.pMemsz

/-- The segment with the `usize` fields narrowed. -/
def ProgramHeader.narrowed (ph : ProgramHeader) : ElfSegment where
  offset := asUsize ph.pOffset
  vaddr := ph.pVaddr
  paddr := ph.pPaddr
  fileSize := asUsize ph.pFilesz
  memSize := asUsize ph.pMemsz

def loads (headers : List ProgramHeader) : List ProgramHeader :=
  headers.filter fun ph => ph.pType = ptLoad

/-- The parser comes back, and a result has the loadable segments of the file as they are. -/
def Right (bytes : List UInt8) : Prop :=
  (∃ result, parseElfMinimal bytes = .ok result) ∧
    ∀ info, parseElfMinimal bytes = .ok (some info) →
      ∃ headers, programHeaders bytes = some headers ∧
        info.segments = (loads headers).map ProgramHeader.segment

section Reading
variable (bytes : List UInt8)

theorem addUsize_ok (a b : ℕ) (h : a+b < 2^32) : addUsize a b = .ok (a+b) := by
  rw [addUsize,checkedAdd,if_pos h]

theorem addUsize_overflows (a b : ℕ) (h : ¬a+b < 2^32) : addUsize a b = .error .overflow := by
  rw [addUsize,checkedAdd,if_neg h]

theorem mulUsize_ok (a b : ℕ) (h : a*b < 2^32) : mulUsize a b = .ok (a*b) := by
  rw [mulUsize,checkedMul,if_pos h]

theorem readAt_inside (width ofs : ℕ) (h : ofs+width ≤ bytes.length) :
    readAt width bytes ofs = .ok (numberAt width bytes ofs) := if_pos h

theorem readU64LeAt_inside (ofs : ℕ) (h : ofs+8 ≤ bytes.length) :
    readU64LeAt bytes ofs = .ok (numberAt 8 bytes ofs) := by
  have hlo := readAt_inside bytes 4 ofs (by omega)
  have hhi := readAt_inside bytes 4 (ofs+4) (by omega)
  have hparts := numberAt_add 4 4 bytes ofs (by omega)
  unfold readU64LeAt readU32LeAt
  rw [hlo,hhi,hparts]
  rfl

theorem readSegment_inside (ofs : ℕ) (h : ofs+56 ≤ bytes.length) :
    readSegment bytes ofs = .ok (programHeaderAt bytes ofs).narrowed := by
  unfold readSegment
  rw [readU64LeAt_inside bytes (ofs+8) (by omega),readU64LeAt_inside bytes (ofs+16) (by omega),
    readU64LeAt_inside bytes (ofs+24) (by omega),readU64LeAt_inside bytes (ofs+32) (by omega),
    readU64LeAt_inside bytes (ofs+40) (by omega)]
  rfl

end Reading

/-! ## The loop over the table -/

theorem loads_singleton (ph : ProgramHeader) :
    loads [ph] = if ph.pType = ptLoad then [ph] else [] := by
  rw [loads,List.filter_cons,List.filter_nil]
  simp only [decide_eq_true_iff]

theorem loads_cons (ph : ProgramHeader) (headers : List ProgramHeader) :
    loads (ph::headers) = loads [ph]++loads headers := by
  rw [← List.singleton_append,loads,List.filter_append]
  rfl

section Table
variable (bytes : List UInt8) (hlen : bytes.length < 2^31) (table entsize : ℕ)
  (hentsize : entsize < 2^16)

def headersFrom (left i : ℕ) : List ProgramHeader :=
  (List.range' i left).map fun j => programHeaderAt bytes (table+j*entsize)

theorem headersFrom_succ (left i : ℕ) :
    headersFrom bytes table entsize (left+1) i =
      programHeaderAt bytes (table+i*entsize)::headersFrom bytes table entsize left (i+1) := by
  rw [headersFrom,List.range'_succ,List.map_cons,headersFrom]

include hentsize in
theorem skip_lt (i : ℕ) (hi : i < 2^16) : i*entsize < 2^32 := by
  calc i*entsize ≤ i*2^16 := Nat.mul_le_mul_left i (Nat.le_of_lt hentsize)
    _ < 2^32 := by omega

include hentsize in
theorem readHeaders_succ (left i : ℕ) (hi : i < 2^16) (segments : List ElfSegment)
    (hfits : table+i*entsize+56 < 2^32) :
    readHeaders bytes table entsize (left+1) i segments =
      if table+i*entsize+56 ≤ bytes.length then
        readHeaders bytes table entsize left (i+1)
          (segments++(loads [programHeaderAt bytes (table+i*entsize)]).map
            ProgramHeader.narrowed)
      else .ok none := by
  have hskip := skip_lt entsize hentsize i hi
  rw [readHeaders,mulUsize_ok _ _ hskip]
  simp only [bind,Except.bind]
  rw [addUsize_ok _ _ (by omega)]
  simp only
  rw [addUsize_ok _ _ hfits]
  simp only
  by_cases hroom : table+i*entsize+56 ≤ bytes.length
  · have htype : readU32LeAt bytes (table+i*entsize) =
        .ok (programHeaderAt bytes (table+i*entsize)).pType :=
      readAt_inside bytes 4 _ (by omega)
    rw [if_neg (Nat.not_lt.mpr hroom),if_pos hroom,htype,readSegment_inside bytes _ hroom,
      loads_singleton]
    by_cases hload : (programHeaderAt bytes (table+i*entsize)).pType = ptLoad
    · simp only [if_pos hload]
      rfl
    · simp only [if_neg hload,List.map_nil,List.append_nil]
  · rw [if_pos (Nat.lt_of_not_le hroom),if_neg hroom]

include hlen hentsize in
theorem readHeaders_eq (left i : ℕ) (hi : i+left ≤ 2^16) (segments : List ElfSegment)
    (hfits : table+i*entsize+56 < 2^32) :
    readHeaders bytes table entsize left i segments =
      .ok (if ∀ j < left, table+(i+j)*entsize+56 ≤ bytes.length then
        some (segments++(loads (headersFrom bytes table entsize left i)).map
          ProgramHeader.narrowed)
      else none) := by
  induction left generalizing i segments with
  | zero =>
    rw [readHeaders,if_pos fun j hj => absurd hj (Nat.not_lt_zero j)]
    exact congrArg (fun l => Except.ok (some l)) (List.append_nil segments).symm
  | succ left ih =>
    rw [readHeaders_succ bytes table entsize hentsize left i (by omega) segments hfits]
    by_cases hroom : table+i*entsize+56 ≤ bytes.length
    · have hnext : table+(i+1)*entsize+56 < 2^32 := by
        rw [Nat.succ_mul]
        omega
      rw [if_pos hroom,ih (i+1) (by omega) _ hnext,headersFrom_succ,
        loads_cons _ (headersFrom bytes table entsize left (i+1)),List.map_append,
        List.append_assoc]
      congr 1
      apply if_congr _ rfl rfl
      rw [Nat.forall_lt_succ_left]
      simp only [Nat.add_zero,hroom,true_and,Nat.add_comm,Nat.add_left_comm]
    · have hout : ¬∀ j < left+1, table+(i+j)*entsize+56 ≤ bytes.length := by
        intro h
        exact hroom (h 0 (Nat.succ_pos left))
      rw [if_neg hroom,if_neg hout]

end Table

section Parse
variable (bytes : List UInt8)

theorem parseElfMinimal_rejected (h : ¬Accepted bytes) : parseElfMinimal bytes = .ok none := by
  unfold parseElfMinimal
  split_ifs with hlen hmagic hclass
  · rfl
  · rfl
  · rfl
  · exact absurd ⟨Nat.le_of_not_lt hlen,not_not.mp hmagic,not_not.mp hclass⟩ h

theorem parseElfMinimal_accepted (h : Accepted bytes) :
    parseElfMinimal bytes =
      (readHeaders bytes (asUsize (phoff bytes)) (phentsize bytes) (phnum bytes) 0 []).map
        (Option.map fun segments =>
          { entry := numberAt 8 bytes 0x18
            segments := segments
            isPie := decide (numberAt 2 bytes 0x10 = 3) }) := by
  have hroom := h.1
  unfold parseElfMinimal
  rw [if_neg (Nat.not_lt.mpr hroom),if_neg (not_not.mpr h.2.1),if_neg (not_not.mpr h.2.2),
    readU64LeAt_inside bytes 0x18 (by omega),readU64LeAt_inside bytes 0x20 (by omega)]
  unfold readU16LeAt
  rw [readAt_inside bytes 2 0x10 (by omega),readAt_inside bytes 2 0x36 (by omega),
    readAt_inside bytes 2 0x38 (by omega)]
  simp only [bind,Except.bind,phoff,phentsize,phnum]
  cases readHeaders bytes (asUsize (numberAt 8 bytes 0x20)) (numberAt 2 bytes 0x36)
    (numberAt 2 bytes 0x38) 0 [] with
  | error fault => rfl
  | ok segments => rfl

theorem headersFrom_zero (table : ℕ) :
    headersFrom bytes table (phentsize bytes) (phnum bytes) 0 = headersAt bytes table := by
  rw [headersFrom,headersAt,List.range_eq_range']

/-- A table whose offset, once narrowed, leaves room for a header in a `usize`. -/
theorem readHeaders_table (hlen : bytes.length < 2^31)
    (hfits : asUsize (phoff bytes)+56 < 2^32) :
    readHeaders bytes (asUsize (phoff bytes)) (phentsize bytes) (phnum bytes) 0 [] =
      .ok (if InFile bytes (asUsize (phoff bytes)) then
        some ((loads (headersAt bytes (asUsize (phoff bytes)))).map ProgramHeader.narrowed)
      else none) := by
  have hnum : phnum bytes < 2^16 := numberAt_lt 2 bytes 0x38
  have hsize : phentsize bytes < 2^16 := numberAt_lt 2 bytes 0x36
  rw [readHeaders_eq bytes hlen _ _ hsize _ 0 (by omega) [] (by omega),headersFrom_zero,
    List.nil_append]
  congr 1
  apply if_congr _ rfl rfl
  unfold InFile
  simp only [Nat.zero_add]

theorem readHeaders_overflows (hnum : 0 < phnum bytes)
    (hfits : ¬asUsize (phoff bytes)+56 < 2^32) :
    readHeaders bytes (asUsize (phoff bytes)) (phentsize bytes) (phnum bytes) 0 [] =
      .error .overflow := by
  obtain ⟨left,hleft⟩ : ∃ left, phnum bytes = left+1 := ⟨phnum bytes-1,by omega⟩
  have hlow : asUsize (phoff bytes) < 2^32 := Nat.mod_lt _ (by decide)
  rw [hleft,readHeaders,mulUsize_ok _ _ (by rw [Nat.zero_mul]; decide),Nat.zero_mul]
  simp only [bind,Except.bind]
  rw [addUsize_ok _ _ (by omega)]
  simp only
  rw [addUsize_overflows _ _ (by omega)]

end Parse

/-! ## Where narrowing changes nothing -/

def Fits (ph : ProgramHeader) : Prop := ph.pOffset < 2^32 ∧ ph.pFilesz < 2^32 ∧ ph.pMemsz < 2^32

instance (ph : ProgramHeader) : Decidable (Fits ph) := inferInstanceAs (Decidable (_ ∧ _))

theorem narrowed_iff (ph : ProgramHeader) : ph.narrowed = ph.segment ↔ Fits ph := by
  unfold ProgramHeader.narrowed ProgramHeader.segment Fits asUsize
  simp only [ElfSegment.mk.injEq,true_and,Nat.mod_eq_iff_lt (show 2^32 ≠ 0 by decide)]

/-- The table of an accepted file with program headers: its offset leaves room for a header
once it is narrowed, and when the narrowed offset has the table in the file, neither it nor
a loadable header has lost anything. -/
def Unnarrowed (bytes : List UInt8) : Prop :=
  Accepted bytes → 0 < phnum bytes →
    asUsize (phoff bytes)+56 < 2^32 ∧
      (InFile bytes (asUsize (phoff bytes)) →
        phoff bytes < 2^32 ∧ ∀ ph ∈ loads (headersAt bytes (phoff bytes)), Fits ph)

theorem asUsize_of_lt (n : ℕ) (h : n < 2^32) : asUsize n = n := Nat.mod_eq_of_lt h

theorem programHeaders_none (bytes : List UInt8) (hnum : phnum bytes = 0) :
    programHeaders bytes = some [] := by
  have hin : InFile bytes (phoff bytes) := by
    intro i hi
    omega
  rw [programHeaders,if_pos hin,headersAt,hnum]
  rfl

section Result
variable (bytes : List UInt8) (haccepted : Accepted bytes)

include haccepted in
theorem right_of_no_headers (hnum : phnum bytes = 0) : Right bytes := by
  have hresult := parseElfMinimal_accepted bytes haccepted
  rw [hnum,readHeaders] at hresult
  refine ⟨⟨_,hresult⟩,?_⟩
  intro info hinfo
  rw [hresult] at hinfo
  cases hinfo
  exact ⟨[],programHeaders_none bytes hnum,rfl⟩

include haccepted in
theorem right_table_iff (hlen : bytes.length < 2^31) (hnum : 0 < phnum bytes)
    (hfits : asUsize (phoff bytes)+56 < 2^32) :
    Right bytes ↔ (InFile bytes (asUsize (phoff bytes)) →
      phoff bytes < 2^32 ∧ ∀ ph ∈ loads (headersAt bytes (phoff bytes)), Fits ph) := by
  have hresult := parseElfMinimal_accepted bytes haccepted
  rw [readHeaders_table bytes hlen hfits] at hresult
  by_cases hin : InFile bytes (asUsize (phoff bytes))
  · rw [if_pos hin] at hresult
    constructor
    · rintro ⟨-,hsegments⟩ -
      obtain ⟨headers,hheaders,hsame⟩ := hsegments _ hresult
      unfold programHeaders at hheaders
      split_ifs at hheaders with htable
      cases hheaders
      have hfirst := htable 0 hnum
      have hlow : phoff bytes < 2^32 := by omega
      rw [asUsize_of_lt _ hlow] at hsame
      refine ⟨hlow,fun ph hph => ?_⟩
      exact (narrowed_iff ph).mp (List.map_inj_left.mp hsame ph hph)
    · intro h
      obtain ⟨hlow,hheaders⟩ := h hin
      rw [asUsize_of_lt _ hlow] at hresult hin
      refine ⟨⟨_,hresult⟩,?_⟩
      intro info hinfo
      rw [hresult] at hinfo
      cases hinfo
      refine ⟨_,if_pos hin,?_⟩
      exact List.map_congr_left fun ph hph => (narrowed_iff ph).mpr (hheaders ph hph)
  · rw [if_neg hin] at hresult
    refine iff_of_true ⟨⟨_,hresult⟩,?_⟩ fun h => absurd h hin
    intro info hinfo
    rw [hresult] at hinfo
    cases hinfo

end Result

/-- For every file, the parser is right exactly when narrowing the offset of the table and
the sizes and offsets of its loadable headers changes nothing. -/
theorem parseElfMinimal_right_iff (bytes : List UInt8) (hlen : bytes.length < 2^31) :
    Right bytes ↔ Unnarrowed bytes := by
  by_cases haccepted : Accepted bytes
  · by_cases hnum : phnum bytes = 0
    · refine iff_of_true (right_of_no_headers bytes haccepted hnum) fun _ hpos => ?_
      omega
    · have hpos : 0 < phnum bytes := Nat.pos_of_ne_zero hnum
      by_cases hfits : asUsize (phoff bytes)+56 < 2^32
      · rw [right_table_iff bytes haccepted hlen hpos hfits]
        exact ⟨fun h _ _ => ⟨hfits,h⟩,fun h => (h haccepted hpos).2⟩
      · refine iff_of_false ?_ fun h => hfits (h haccepted hpos).1
        rintro ⟨⟨result,hresult⟩,-⟩
        rw [parseElfMinimal_accepted bytes haccepted,readHeaders_overflows bytes hpos hfits]
          at hresult
        cases hresult
  · refine iff_of_true ⟨⟨none,parseElfMinimal_rejected bytes haccepted⟩,?_⟩
      fun h => absurd h haccepted
    intro info hinfo
    rw [parseElfMinimal_rejected bytes haccepted] at hinfo
    cases hinfo

/-- A file with a table of one loadable program header behind its header. -/
def oneHeaderFile (ePhoff pOffset pVaddr pPaddr pFilesz pMemsz : ℕ) : List UInt8 :=
  elfMagic++[2]++List.replicate 11 0++natBytes 2 2++List.replicate 6 0++natBytes 8 0++
    natBytes 8 ePhoff++List.replicate 14 0++natBytes 2 56++natBytes 2 1++List.replicate 6 0++
    natBytes 4 ptLoad++natBytes 4 7++natBytes 8 pOffset++natBytes 8 pVaddr++natBytes 8 pPaddr++
    natBytes 8 pFilesz++natBytes 8 pMemsz++natBytes 8 4096

theorem parseElfMinimal_right_small : Right (oneHeaderFile 64 0 0 0x600000 120 4096) := by
  apply (parseElfMinimal_right_iff _ (by decide)).mpr
  intro _ _
  refine ⟨by decide +kernel,fun _ => ⟨by decide +kernel,?_⟩⟩
  intro ph hph
  have hall : ∀ ph ∈ headersAt (oneHeaderFile 64 0 0 0x600000 120 4096)
      (phoff (oneHeaderFile 64 0 0 0x600000 120 4096)), Fits ph := by decide +kernel
  exact hall ph (List.mem_of_mem_filter hph)

/-- A file size of 4 GiB comes back as zero, and a table at the end of the address space
overflows. -/
theorem narrowed_file_size :
    parseElfMinimal (oneHeaderFile 64 0 0 0x600000 0x100000000 4096) =
      .ok (some ⟨0,[⟨0,0,0x600000,0,4096⟩],false⟩) ∧
      parseElfMinimal (oneHeaderFile 0xFFFFFFF8 0 0 0 0 0) = .error .overflow ∧
      ¬Right (oneHeaderFile 64 0 0 0x600000 0x100000000 4096) := by
  have hparse : parseElfMinimal (oneHeaderFile 64 0 0 0x600000 0x100000000 4096) =
      .ok (some ⟨0,[⟨0,0,0x600000,0,4096⟩],false⟩) := by decide +kernel
  have hread : (programHeaders (oneHeaderFile 64 0 0 0x600000 0x100000000 4096)).map
      (fun headers => (loads headers).map ProgramHeader.segment) =
      some [⟨0,0,0x600000,0x100000000,4096⟩] := by decide +kernel
  refine ⟨hparse,by decide +kernel,fun h => ?_⟩
  obtain ⟨headers,hheaders,hsame⟩ := h.2 _ hparse
  rw [hheaders,Option.map_some,← hsame] at hread
  exact absurd hread (by decide)

end Zamak.BiosElf
