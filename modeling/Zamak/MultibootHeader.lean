import Zamak.Fat32Image
import Zamak.PartialSteps
import Zamak.TagStreams

/-! # The Multiboot 2 header

`parse_header`: the walk over the tags a kernel says with what it needs. The walk goes by
the size every tag declares. A header written as the specification has it is read back
whole, at any place of an image; on other bytes the walk comes back exactly when every tag
it comes to declares a size it can go by. -/

set_option autoImplicit false

namespace Zamak.MultibootHeader
open Zamak.Fat32Image Zamak.PartialSteps Zamak.TagStreams

def headerTagEnd : ℕ := 0
def headerTagInformationRequest : ℕ := 1
def headerTagAddress : ℕ := 2
def headerTagEntryAddress : ℕ := 3
def headerTagConsoleFlags : ℕ := 4
def headerTagFramebuffer : ℕ := 5
def headerTagModuleAlign : ℕ := 6
def headerTagEfiBs : ℕ := 7
def headerTagEntryAddressEfi32 : ℕ := 8
def headerTagEntryAddressEfi64 : ℕ := 9
def headerTagRelocatable : ℕ := 10

/-- `ParsedHeader`; its `u32` fields are numbers below `2^32`. -/
structure ParsedHeader where
  architecture : ℕ
  headerLength : ℕ
  requestedTags : List ℕ
  framebufferRequested : Bool
  preferredWidth : ℕ
  preferredHeight : ℕ
  preferredBpp : ℕ
  moduleAlign : Bool
  efiBs : Bool
  entryAddress : Option ℕ
  entryAddressEfi64 : Option ℕ
  deriving DecidableEq, Repr

/-- What the arithmetic of `parse_header` can end with besides a result. -/
inductive Fault where
  | overflow
  | underflow
  deriving DecidableEq, Repr

def pushRequests (kernel : List UInt8) (pos count : ℕ) (requestedTags : List ℕ) : List ℕ :=
  (List.range count).foldl
    (fun tags i =>
      let reqOffset := pos+8+i*4
      if reqOffset+4 ≤ kernel.length then tags++[wordAt kernel reqOffset] else tags)
    requestedTags

/-- The `match` on the tag type. -/
def applyTag (kernel : List UInt8) (pos tagType tagSize : ℕ) (parsed : ParsedHeader) :
    Except Fault ParsedHeader :=
  if tagType = headerTagInformationRequest then
    if tagSize < 8 then .error .underflow
    else .ok { parsed with
      requestedTags := pushRequests kernel pos ((tagSize-8)/4) parsed.requestedTags }
  else if tagType = headerTagFramebuffer then
    if pos+20 ≤ kernel.length then
      .ok { parsed with
        framebufferRequested := true
        preferredWidth := wordAt kernel (pos+8)
        preferredHeight := wordAt kernel (pos+12)
        preferredBpp := wordAt kernel (pos+16) }
    else .ok { parsed with framebufferRequested := true }
  else if tagType = headerTagModuleAlign then .ok { parsed with moduleAlign := true }
  else if tagType = headerTagEfiBs then .ok { parsed with efiBs := true }
  else if tagType = headerTagEntryAddress ∧ pos+12 ≤ kernel.length then
    .ok { parsed with entryAddress := some (wordAt kernel (pos+8)) }
  else if tagType = headerTagEntryAddressEfi64 ∧ pos+12 ≤ kernel.length then
    .ok { parsed with entryAddressEfi64 := some (wordAt kernel (pos+8)) }
  else .ok parsed

/-- One turn of the tag loop. The position stays within `2^32` of the image, so its sums
are exact in a 64-bit `usize`. -/
def tagTurn (kernel : List UInt8) (tagsEnd : ℕ) :
    ℕ × ParsedHeader → Turn (ℕ × ParsedHeader) (Except Fault ParsedHeader)
  | (pos,parsed) =>
    if pos+8 ≤ tagsEnd ∧ pos+8 ≤ kernel.length then
      let tagType := numberAt 2 kernel pos
      let tagSize := wordAt kernel (pos+4)
      if tagType = headerTagEnd then .stop (.ok parsed)
      else
        match applyTag kernel pos tagType tagSize parsed with
        | .error fault => .stop (.error fault)
        | .ok parsed => .go (pos+roundUp8 tagSize,parsed)
    else .stop (.ok parsed)

def startParsed (architecture headerLength : ℕ) : ParsedHeader where
  architecture := architecture
  headerLength := headerLength
  requestedTags := []
  framebufferRequested := false
  preferredWidth := 0
  preferredHeight := 0
  preferredBpp := 0
  moduleAlign := false
  efiBs := false
  entryAddress := none
  entryAddressEfi64 := none

def declaredEnd (kernel : List UInt8) (offset : ℕ) : ℕ := offset+wordAt kernel (offset+8)

/-- `parse_header`; no result when the fuel of the tag loop runs out. -/
def parseHeader (fuel : ℕ) (kernel : List UInt8) (offset : ℕ) :
    Option (Except Fault (Option ParsedHeader)) :=
  match checkedAdd 64 offset 16 with
  | none => some (.error .overflow)
  | some tagsStart =>
    if tagsStart > kernel.length then some (.ok none)
    else
      (run (tagTurn kernel (declaredEnd kernel offset)) fuel
        (tagsStart,startParsed (wordAt kernel (offset+4)) (wordAt kernel (offset+8)))).map
        (Except.map some)

/-! ## Headers as the specification writes them -/

/-- A tag of the specification. Every payload is a sequence of 32-bit words. -/
inductive HeaderTag where
  | informationRequest (requests : List UInt32)
  | address (headerAddr loadAddr loadEndAddr bssEndAddr : UInt32)
  | entryAddress (entryAddr : UInt32)
  | consoleFlags (flags : UInt32)
  | framebuffer (width height depth : UInt32)
  | moduleAlign
  | efiBs
  | entryAddressEfi32 (entryAddr : UInt32)
  | entryAddressEfi64 (entryAddr : UInt32)
  | relocatable (minAddr maxAddr align preference : UInt32)
  deriving DecidableEq

namespace HeaderTag

def kind : HeaderTag → ℕ
  | .informationRequest _ => headerTagInformationRequest
  | .address .. => headerTagAddress
  | .entryAddress _ => headerTagEntryAddress
  | .consoleFlags _ => headerTagConsoleFlags
  | .framebuffer .. => headerTagFramebuffer
  | .moduleAlign => headerTagModuleAlign
  | .efiBs => headerTagEfiBs
  | .entryAddressEfi32 _ => headerTagEntryAddressEfi32
  | .entryAddressEfi64 _ => headerTagEntryAddressEfi64
  | .relocatable .. => headerTagRelocatable

def words : HeaderTag → List UInt32
  | .informationRequest requests => requests
  | .address headerAddr loadAddr loadEndAddr bssEndAddr =>
    [headerAddr,loadAddr,loadEndAddr,bssEndAddr]
  | .entryAddress entryAddr => [entryAddr]
  | .consoleFlags flags => [flags]
  | .framebuffer width height depth => [width,height,depth]
  | .moduleAlign => []
  | .efiBs => []
  | .entryAddressEfi32 entryAddr => [entryAddr]
  | .entryAddressEfi64 entryAddr => [entryAddr]
  | .relocatable minAddr maxAddr align preference => [minAddr,maxAddr,align,preference]

def size (tag : HeaderTag) : ℕ := 8+4*tag.words.length

def requests : HeaderTag → List ℕ
  | .informationRequest requests => requests.map UInt32.toNat
  | _ => []

def mode : HeaderTag → Option (ℕ × ℕ × ℕ)
  | .framebuffer width height depth => some (width.toNat,height.toNat,depth.toNat)
  | _ => none

def entry : HeaderTag → Option ℕ
  | .entryAddress entryAddr => some entryAddr.toNat
  | _ => none

def entryEfi64 : HeaderTag → Option ℕ
  | .entryAddressEfi64 entryAddr => some entryAddr.toNat
  | _ => none

end HeaderTag

/-- A tag in its place: any flags, and any bytes up to the next multiple of eight. -/
structure PaddedTag where
  tag : HeaderTag
  flags : UInt16
  padding : List UInt8
  padded : tag.size+padding.length = roundUp8 tag.size

def wordBytes (words : List UInt32) : List UInt8 := words.flatMap fun w => natBytes 4 w.toNat

def PaddedTag.bytes (t : PaddedTag) : List UInt8 :=
  natBytes 2 t.tag.kind++(natBytes 2 t.flags.toNat++(natBytes 4 t.tag.size++
    (wordBytes t.tag.words++t.padding)))

def tagBytes (tags : List PaddedTag) : List UInt8 := tags.flatMap PaddedTag.bytes

def endTagBytes (flags : UInt16) : List UInt8 :=
  natBytes 2 headerTagEnd++(natBytes 2 flags.toNat++natBytes 4 8)

def multiboot2HeaderMagic : ℕ := 0xE85250D6

/-- A well-formed header: its length covers the fixed part, the tags and the end tag. -/
structure Header where
  architecture : UInt32
  headerLength : UInt32
  tags : List PaddedTag
  endFlags : UInt16
  covers : 16+(tagBytes tags).length+8 ≤ headerLength.toNat

namespace Header

def checksum (h : Header) : UInt32 :=
  0-UInt32.ofNat multiboot2HeaderMagic-h.architecture-h.headerLength

def fixedBytes (h : Header) : List UInt8 :=
  natBytes 4 multiboot2HeaderMagic++(natBytes 4 h.architecture.toNat++
    (natBytes 4 h.headerLength.toNat++natBytes 4 h.checksum.toNat))

def bytes (h : Header) : List UInt8 := h.fixedBytes++(tagBytes h.tags++endTagBytes h.endFlags)

def tagList (h : Header) : List HeaderTag := h.tags.map PaddedTag.tag

end Header

/-- What a header says with its tags: all requests in order, the last mode and the last
entry points, and whether modules are aligned and boot services kept. -/
def declared (architecture headerLength : ℕ) (tags : List HeaderTag) : ParsedHeader :=
  let mode := (tags.filterMap HeaderTag.mode).getLast?
  { architecture := architecture
    headerLength := headerLength
    requestedTags := tags.flatMap HeaderTag.requests
    framebufferRequested := mode.isSome
    preferredWidth := (mode.getD (0,0,0)).1
    preferredHeight := (mode.getD (0,0,0)).2.1
    preferredBpp := (mode.getD (0,0,0)).2.2
    moduleAlign := decide (.moduleAlign ∈ tags)
    efiBs := decide (.efiBs ∈ tags)
    entryAddress := (tags.filterMap HeaderTag.entry).getLast?
    entryAddressEfi64 := (tags.filterMap HeaderTag.entryEfi64).getLast? }

def absorb (parsed : ParsedHeader) (tag : HeaderTag) : ParsedHeader :=
  match tag with
  | .informationRequest requests =>
    { parsed with requestedTags := parsed.requestedTags++requests.map UInt32.toNat }
  | .framebuffer width height depth =>
    { parsed with
      framebufferRequested := true
      preferredWidth := width.toNat
      preferredHeight := height.toNat
      preferredBpp := depth.toNat }
  | .moduleAlign => { parsed with moduleAlign := true }
  | .efiBs => { parsed with efiBs := true }
  | .entryAddress entryAddr => { parsed with entryAddress := some entryAddr.toNat }
  | .entryAddressEfi64 entryAddr => { parsed with entryAddressEfi64 := some entryAddr.toNat }
  | .address .. => parsed
  | .consoleFlags _ => parsed
  | .entryAddressEfi32 _ => parsed
  | .relocatable .. => parsed

theorem wordBytes_length (words : List UInt32) : (wordBytes words).length = 4*words.length :=
  flatMap_natBytes_length 4 UInt32.toNat words

theorem tag_length (t : PaddedTag) : t.bytes.length = roundUp8 t.tag.size := by
  rw [← t.padded]
  simp only [PaddedTag.bytes,List.length_append,natBytes_length,wordBytes_length,HeaderTag.size]
  omega

theorem words_at (before rest : List UInt8) (words : List UInt32) :
    (List.range words.length).map
        (fun i => wordAt (before++(wordBytes words++rest)) (before.length+i*4)) =
      words.map UInt32.toNat := by
  induction words generalizing before with
  | nil => rfl
  | cons w words ih =>
    have hfirst : before++(wordBytes (w::words)++rest) =
        before++(natBytes 4 w.toNat++(wordBytes words++rest)) := by
      rw [wordBytes,List.flatMap_cons,← wordBytes,List.append_assoc]
    have hrest := ih (before++natBytes 4 w.toNat)
    rw [List.length_append,natBytes_length,List.append_assoc] at hrest
    rw [List.length_cons,List.range_succ_eq_map,List.map_cons,List.map_map,hfirst,List.map_cons,
      Nat.zero_mul,Nat.add_zero,wordAt_append before _ _ w.toNat_lt,← hrest]
    congr 1
    apply List.map_congr_left
    intro i _
    simp only [Function.comp_apply]
    congr 1
    omega

section Placed
variable (before rest : List UInt8) (t : PaddedTag) (hsize : t.tag.size < 2^32)

theorem kind_lt (tag : HeaderTag) : tag.kind < 256^2 := by
  cases tag <;> exact of_decide_eq_true rfl

theorem kind_ne_end (tag : HeaderTag) : tag.kind ≠ headerTagEnd := by
  cases tag <;> exact of_decide_eq_true rfl

theorem type_at : numberAt 2 (before++(t.bytes++rest)) before.length = t.tag.kind := by
  rw [PaddedTag.bytes,List.append_assoc]
  exact numberAt_append 2 before _ _ (kind_lt t.tag)

include hsize in
theorem size_at : wordAt (before++(t.bytes++rest)) (before.length+4) = t.tag.size := by
  have hword := numberAt_within 4 before (natBytes 2 t.tag.kind++natBytes 2 t.flags.toNat)
    (wordBytes t.tag.words++(t.padding++rest)) t.tag.size hsize
  rw [PaddedTag.bytes]
  simp only [List.append_assoc] at hword ⊢
  exact hword

theorem payload_at :
    (List.range t.tag.words.length).map
        (fun i => wordAt (before++(t.bytes++rest)) (before.length+8+i*4)) =
      t.tag.words.map UInt32.toNat := by
  have hlen : before.length+8 = (before++(natBytes 2 t.tag.kind++(natBytes 2 t.flags.toNat++
      natBytes 4 t.tag.size))).length := by
    simp only [List.length_append,natBytes_length]
  have hwords := words_at (before++(natBytes 2 t.tag.kind++(natBytes 2 t.flags.toNat++
    natBytes 4 t.tag.size))) (t.padding++rest) t.tag.words
  rw [← hlen] at hwords
  rw [PaddedTag.bytes]
  simp only [List.append_assoc] at hwords ⊢
  exact hwords

end Placed

theorem pushRequests_inside (kernel : List UInt8) (pos count : ℕ) (tags : List ℕ)
    (h : pos+8+4*count ≤ kernel.length) :
    pushRequests kernel pos count tags =
      tags++(List.range count).map fun i => wordAt kernel (pos+8+i*4) := by
  induction count with
  | zero => exact (List.append_nil tags).symm
  | succ count ih =>
    have hbefore := ih (by omega)
    unfold pushRequests at hbefore ⊢
    rw [List.range_succ,List.foldl_append,hbefore,List.foldl_cons,List.foldl_nil,
      if_pos (by omega),List.map_append,List.append_assoc]
    rfl

theorem applyTag_words (kernel : List UInt8) (pos : ℕ) (tag : HeaderTag) (parsed : ParsedHeader)
    (hroom : pos+tag.size ≤ kernel.length)
    (hwords : (List.range tag.words.length).map (fun i => wordAt kernel (pos+8+i*4)) =
      tag.words.map UInt32.toNat) :
    applyTag kernel pos tag.kind tag.size parsed = .ok (absorb parsed tag) := by
  cases tag with
  | informationRequest requests =>
    have hsize : (HeaderTag.informationRequest requests).size = 8+4*requests.length := rfl
    have hcount : (8+4*requests.length-8)/4 = requests.length := by omega
    have happly : applyTag kernel pos headerTagInformationRequest (8+4*requests.length) parsed =
        if 8+4*requests.length < 8 then .error .underflow
        else .ok { parsed with
          requestedTags :=
            pushRequests kernel pos ((8+4*requests.length-8)/4) parsed.requestedTags } := rfl
    rw [if_neg (by omega),hcount,pushRequests_inside _ _ _ _ (by omega)] at happly
    exact happly.trans (congrArg (fun tags => Except.ok { parsed with
      requestedTags := parsed.requestedTags++tags }) hwords)
  | framebuffer width height depth =>
    have hroom' : pos+20 ≤ kernel.length := hroom
    have hread : [wordAt kernel (pos+8),wordAt kernel (pos+12),wordAt kernel (pos+16)] =
      [width.toNat,height.toNat,depth.toNat] := hwords
    injection hread with hwidth hread
    injection hread with hheight hread
    injection hread with hdepth
    have happly : applyTag kernel pos headerTagFramebuffer 20 parsed =
        if pos+20 ≤ kernel.length then
          .ok { parsed with
            framebufferRequested := true
            preferredWidth := wordAt kernel (pos+8)
            preferredHeight := wordAt kernel (pos+12)
            preferredBpp := wordAt kernel (pos+16) }
        else .ok { parsed with framebufferRequested := true } := rfl
    rw [if_pos hroom',hwidth,hheight,hdepth] at happly
    exact happly
  | entryAddress entryAddr =>
    have hroom' : pos+12 ≤ kernel.length := hroom
    have hread : [wordAt kernel (pos+8)] = [entryAddr.toNat] := hwords
    injection hread with hentry
    have happly : applyTag kernel pos headerTagEntryAddress 12 parsed =
        if headerTagEntryAddress = headerTagEntryAddress ∧ pos+12 ≤ kernel.length then
          .ok { parsed with entryAddress := some (wordAt kernel (pos+8)) }
        else .ok parsed := rfl
    rw [if_pos ⟨rfl,hroom'⟩,hentry] at happly
    exact happly
  | entryAddressEfi64 entryAddr =>
    have hroom' : pos+12 ≤ kernel.length := hroom
    have hread : [wordAt kernel (pos+8)] = [entryAddr.toNat] := hwords
    injection hread with hentry
    have happly : applyTag kernel pos headerTagEntryAddressEfi64 12 parsed =
        if headerTagEntryAddressEfi64 = headerTagEntryAddressEfi64 ∧ pos+12 ≤ kernel.length then
          .ok { parsed with entryAddressEfi64 := some (wordAt kernel (pos+8)) }
        else .ok parsed := rfl
    rw [if_pos ⟨rfl,hroom'⟩,hentry] at happly
    exact happly
  | moduleAlign => rfl
  | efiBs => rfl
  | address headerAddr loadAddr loadEndAddr bssEndAddr => rfl
  | consoleFlags flags => rfl
  | entryAddressEfi32 entryAddr => rfl
  | relocatable minAddr maxAddr align preference => rfl

theorem tagTurn_tag (before rest : List UInt8) (t : PaddedTag) (tagsEnd : ℕ)
    (parsed : ParsedHeader) (hend : before.length+t.bytes.length ≤ tagsEnd)
    (hsize : t.tag.size < 2^32) :
    tagTurn (before++(t.bytes++rest)) tagsEnd (before.length,parsed) =
      .go ((before++t.bytes).length,absorb parsed t.tag) := by
  have hlen := tag_length t
  have hle := le_roundUp8 t.tag.size
  have hroom : before.length+t.tag.size ≤ (before++(t.bytes++rest)).length := by
    simp only [List.length_append]
    omega
  have hmin : 8 ≤ t.tag.size := Nat.le_add_right 8 _
  have happly := applyTag_words (before++(t.bytes++rest)) before.length t.tag parsed hroom
    (payload_at before rest t)
  unfold tagTurn
  simp only [type_at,size_at before rest t hsize,happly]
  rw [if_pos ⟨by omega,by omega⟩,if_neg (kind_ne_end t.tag),List.length_append,hlen]

theorem tagTurn_end (before rest : List UInt8) (flags : UInt16) (tagsEnd : ℕ)
    (parsed : ParsedHeader) :
    tagTurn (before++(endTagBytes flags++rest)) tagsEnd (before.length,parsed) =
      .stop (.ok parsed) := by
  have htype : numberAt 2 (before++(endTagBytes flags++rest)) before.length = headerTagEnd := by
    rw [endTagBytes,List.append_assoc]
    exact numberAt_append 2 before _ _ (by decide)
  unfold tagTurn
  simp only [htype,if_true,ite_self]

theorem run_tags (before rest : List UInt8) (tags : List PaddedTag) (flags : UInt16)
    (tagsEnd : ℕ) (parsed : ParsedHeader)
    (hend : before.length+(tagBytes tags).length ≤ tagsEnd)
    (hsize : (tagBytes tags).length < 2^32) :
    run (tagTurn (before++(tagBytes tags++(endTagBytes flags++rest))) tagsEnd) (tags.length+1)
        (before.length,parsed) =
      some (.ok ((tags.map PaddedTag.tag).foldl absorb parsed)) := by
  induction tags generalizing before parsed with
  | nil =>
    rw [run,tagBytes,List.flatMap_nil,List.nil_append,tagTurn_end]
    rfl
  | cons t tags ih =>
    have hcons : tagBytes (t::tags) = t.bytes++tagBytes tags := rfl
    have hlen := tag_length t
    have hle := le_roundUp8 t.tag.size
    rw [hcons,List.length_append] at hend hsize
    have hnext := ih (before++t.bytes) (absorb parsed t.tag)
      (by rw [List.length_append]; omega) (by omega)
    rw [List.append_assoc] at hnext
    rw [hcons,List.append_assoc,List.length_cons,run,tagTurn_tag _ _ _ _ _ (by omega) (by omega)]
    exact hnext

theorem last_snoc {α β : Type} (f : α → Option β) (l : List α) (a : α) :
    ((l++[a]).filterMap f).getLast? = (f a).or (l.filterMap f).getLast? := by
  rw [List.filterMap_append,List.getLast?_append]
  cases h : f a <;> simp [h]

theorem decide_mem_snoc (tags : List HeaderTag) (tag t : HeaderTag) :
    decide (t ∈ tags++[tag]) = (decide (t ∈ tags)||decide (t = tag)) := by
  rw [← Bool.decide_or]
  simp only [List.mem_append,List.mem_singleton]

theorem absorb_declared (architecture headerLength : ℕ) (tags : List HeaderTag)
    (tag : HeaderTag) :
    absorb (declared architecture headerLength tags) tag =
      declared architecture headerLength (tags++[tag]) := by
  unfold declared
  rw [last_snoc,last_snoc,last_snoc,decide_mem_snoc,decide_mem_snoc,List.flatMap_append,
    List.flatMap_singleton]
  cases tag <;>
    simp [absorb,HeaderTag.mode,HeaderTag.entry,HeaderTag.entryEfi64,HeaderTag.requests]

theorem foldl_absorb (architecture headerLength : ℕ) (tags : List HeaderTag) :
    tags.foldl absorb (startParsed architecture headerLength) =
      declared architecture headerLength tags := by
  induction tags using List.reverseRecOn with
  | nil => rfl
  | append_singleton tags tag ih =>
    rw [List.foldl_append,List.foldl_cons,List.foldl_nil,ih,absorb_declared]

section Image
variable (before after : List UInt8) (h : Header)

theorem fixed_length : h.fixedBytes.length = 16 := by
  simp only [Header.fixedBytes,List.length_append,natBytes_length]

theorem architecture_at :
    wordAt (before++(h.bytes++after)) (before.length+4) = h.architecture.toNat := by
  rw [Header.bytes,Header.fixedBytes]
  simp only [List.append_assoc]
  exact numberAt_within 4 before (natBytes 4 multiboot2HeaderMagic) _ _ h.architecture.toNat_lt

theorem headerLength_at :
    wordAt (before++(h.bytes++after)) (before.length+8) = h.headerLength.toNat := by
  have hword := numberAt_within 4 before (natBytes 4 multiboot2HeaderMagic++
    natBytes 4 h.architecture.toNat) (natBytes 4 h.checksum.toNat++(tagBytes h.tags++
      (endTagBytes h.endFlags++after))) h.headerLength.toNat h.headerLength.toNat_lt
  rw [Header.bytes,Header.fixedBytes]
  simp only [List.append_assoc] at hword ⊢
  exact hword

/-- Every well-formed header, at any offset of an image, is read as what it says. -/
theorem parseHeader_declared (hlen : (before++(h.bytes++after)).length < 2^63) :
    parseHeader (h.tags.length+1) (before++(h.bytes++after)) before.length =
      some (.ok (some (declared h.architecture.toNat h.headerLength.toNat h.tagList))) := by
  have hcovers := h.covers
  have hfixed : (before++h.fixedBytes).length = before.length+16 := by
    rw [List.length_append,fixed_length]
  have hlt := h.headerLength.toNat_lt
  have himage : before++(h.bytes++after) =
      before++h.fixedBytes++(tagBytes h.tags++(endTagBytes h.endFlags++after)) := by
    rw [Header.bytes]
    simp only [List.append_assoc]
  have hroom : before.length+16 ≤ (before++(h.bytes++after)).length := by
    rw [himage,List.length_append,hfixed]
    omega
  have hadd : checkedAdd 64 before.length 16 = some (before.length+16) := if_pos (by omega)
  have hrun := run_tags (before++h.fixedBytes) after h.tags h.endFlags
    (before.length+h.headerLength.toNat)
    (startParsed h.architecture.toNat h.headerLength.toNat) (by omega) (by omega)
  rw [← himage,hfixed] at hrun
  unfold parseHeader
  rw [hadd]
  simp only [declaredEnd,architecture_at,headerLength_at,hrun]
  rw [if_neg (by omega),Header.tagList,← foldl_absorb]
  rfl

end Image

theorem request_padded :
    (HeaderTag.informationRequest [4]).size+[0xCC,0xCC,0xCC,(0xCC : UInt8)].length =
      roundUp8 (HeaderTag.informationRequest [4]).size := rfl

theorem mode_padded : (HeaderTag.framebuffer 1024 768 32).size+[0,0,0,(0 : UInt8)].length =
    roundUp8 (HeaderTag.framebuffer 1024 768 32).size := rfl

def sampleTags : List PaddedTag :=
  [⟨.informationRequest [4],0,[0xCC,0xCC,0xCC,0xCC],request_padded⟩,
    ⟨.framebuffer 1024 768 32,1,[0,0,0,0],mode_padded⟩]

theorem sampleTags_covered : 16+(tagBytes sampleTags).length+8 ≤ (64 : UInt32).toNat := by
  decide

def sampleHeader : Header := ⟨0,64,sampleTags,0,sampleTags_covered⟩

theorem parseHeader_sample :
    parseHeader 3 ([0x7F,0x45]++(sampleHeader.bytes++[0x90])) 2 =
      some (.ok (some { startParsed 0 64 with
        requestedTags := [4]
        framebufferRequested := true
        preferredWidth := 1024
        preferredHeight := 768
        preferredBpp := 32 })) :=
  parseHeader_declared [0x7F,0x45] [0x90] sampleHeader (by decide)

/-! ## Sizes the walk can go by -/

section Sizes
variable (kernel : List UInt8) (tagsEnd : ℕ)

/-- The walk takes a tag at a position: both ends leave room for its head, and it is not the
end tag. -/
def TakesTag (pos : ℕ) : Prop :=
  (pos+8 ≤ tagsEnd ∧ pos+8 ≤ kernel.length) ∧ numberAt 2 kernel pos ≠ headerTagEnd

instance (pos : ℕ) : Decidable (TakesTag kernel tagsEnd pos) :=
  inferInstanceAs (Decidable (_ ∧ _))

def nextTag (pos : ℕ) : Option ℕ :=
  if TakesTag kernel tagsEnd pos then some (pos+roundUp8 (wordAt kernel (pos+4))) else none

/-- The declared size is not zero, and covers the head of an information request. -/
def Sized (pos : ℕ) : Prop :=
  wordAt kernel (pos+4) ≠ 0 ∧
    (numberAt 2 kernel pos = headerTagInformationRequest → 8 ≤ wordAt kernel (pos+4))

instance (pos : ℕ) : Decidable (Sized kernel pos) := inferInstanceAs (Decidable (_ ∧ _))

/-- Every tag the walk comes to from a position on declares a size it can go by. -/
def AllSized (start : ℕ) : Prop :=
  ∀ n pos, visit (nextTag kernel tagsEnd) n start = some pos → TakesTag kernel tagsEnd pos →
    Sized kernel pos

theorem applyTag_error_iff (pos tagType tagSize : ℕ) (parsed : ParsedHeader) (fault : Fault) :
    applyTag kernel pos tagType tagSize parsed = .error fault ↔
      tagType = headerTagInformationRequest ∧ tagSize < 8 ∧ fault = .underflow := by
  unfold applyTag
  by_cases hrequest : tagType = headerTagInformationRequest
  · by_cases hsmall : tagSize < 8
    · simp [hrequest,hsmall,eq_comm]
    · simp [hrequest,hsmall]
  · simp only [hrequest,if_false,false_and,iff_false]
    split_ifs <;> exact not_false

theorem tagTurn_untaken (pos : ℕ) (parsed : ParsedHeader) (h : ¬TakesTag kernel tagsEnd pos) :
    tagTurn kernel tagsEnd (pos,parsed) = .stop (.ok parsed) := by
  unfold tagTurn
  simp only
  split_ifs with hroom hend
  · rfl
  · exact absurd ⟨hroom,hend⟩ h
  · rfl

theorem tagTurn_taken (pos : ℕ) (parsed : ParsedHeader) (h : TakesTag kernel tagsEnd pos) :
    tagTurn kernel tagsEnd (pos,parsed) =
      match applyTag kernel pos (numberAt 2 kernel pos) (wordAt kernel (pos+4)) parsed with
      | .error fault => .stop (.error fault)
      | .ok parsed => .go (pos+roundUp8 (wordAt kernel (pos+4)),parsed) := by
  unfold tagTurn
  simp only
  rw [if_pos h.1,if_neg h.2]

/-- A tag is either an information request too short for its head, or the walk goes on. -/
theorem tagTurn_cases (pos : ℕ) (parsed : ParsedHeader) (h : TakesTag kernel tagsEnd pos) :
    (numberAt 2 kernel pos = headerTagInformationRequest ∧ wordAt kernel (pos+4) < 8 ∧
      tagTurn kernel tagsEnd (pos,parsed) = .stop (.error .underflow)) ∨
    ∃ parsed', tagTurn kernel tagsEnd (pos,parsed) =
      .go (pos+roundUp8 (wordAt kernel (pos+4)),parsed') := by
  rw [tagTurn_taken kernel tagsEnd pos parsed h]
  cases happly : applyTag kernel pos (numberAt 2 kernel pos) (wordAt kernel (pos+4)) parsed with
  | error fault =>
    obtain ⟨hrequest,hsmall,rfl⟩ := (applyTag_error_iff kernel _ _ _ _ _).mp happly
    exact Or.inl ⟨hrequest,hsmall,rfl⟩
  | ok parsed' => exact Or.inr ⟨parsed',rfl⟩

theorem allSized_next (start : ℕ) (h : TakesTag kernel tagsEnd start)
    (hall : AllSized kernel tagsEnd start) :
    AllSized kernel tagsEnd (start+roundUp8 (wordAt kernel (start+4))) := by
  intro n pos hvisit
  apply hall (n+1) pos
  rw [visit,nextTag,if_pos h,Option.bind_some,hvisit]

theorem roundUp8_pos (n : ℕ) (h : n ≠ 0) : 0 < roundUp8 n := by
  unfold roundUp8
  omega

theorem run_sized (start : ℕ) (parsed : ParsedHeader) (hall : AllSized kernel tagsEnd start) :
    ∃ fuel result, run (tagTurn kernel tagsEnd) fuel (start,parsed) = some result ∧
      result ≠ .error .underflow := by
  have hgo : ∀ a a' : ℕ × ParsedHeader, AllSized kernel tagsEnd a.1 →
      tagTurn kernel tagsEnd a = .go a' →
      AllSized kernel tagsEnd a'.1 ∧ kernel.length-a'.1 < kernel.length-a.1 := by
    intro a a' ha hturn
    by_cases htakes : TakesTag kernel tagsEnd a.1
    · rcases tagTurn_cases kernel tagsEnd a.1 a.2 htakes with ⟨-,-,hstop⟩ | ⟨parsed',hgo⟩
      · rw [hstop] at hturn
        cases hturn
      · rw [hgo] at hturn
        cases hturn
        have hpos := roundUp8_pos _ (ha 0 a.1 rfl htakes).1
        have hroom := htakes.1.2
        exact ⟨allSized_next kernel tagsEnd a.1 htakes ha,by simp only; omega⟩
    · rw [tagTurn_untaken kernel tagsEnd a.1 a.2 htakes] at hturn
      cases hturn
  have hstop : ∀ (a : ℕ × ParsedHeader) result, AllSized kernel tagsEnd a.1 →
      tagTurn kernel tagsEnd a = .stop result → result ≠ .error .underflow := by
    intro a result ha hturn
    by_cases htakes : TakesTag kernel tagsEnd a.1
    · rcases tagTurn_cases kernel tagsEnd a.1 a.2 htakes with ⟨hrequest,hsmall,-⟩ | ⟨parsed',hgo⟩
      · have hsized := (ha 0 a.1 rfl htakes).2 hrequest
        omega
      · rw [hgo] at hturn
        cases hturn
    · rw [tagTurn_untaken kernel tagsEnd a.1 a.2 htakes] at hturn
      cases hturn
      simp
  obtain ⟨result,hrun⟩ := run_total (tagTurn kernel tagsEnd) (fun a => AllSized kernel tagsEnd a.1)
    (fun a => kernel.length-a.1) hgo (kernel.length-start+1) (start,parsed) hall
    (Nat.lt_succ_self _)
  have hgood := run_partial (tagTurn kernel tagsEnd) (fun a => AllSized kernel tagsEnd a.1)
    (· ≠ .error .underflow) (fun a a' ha h => (hgo a a' ha h).1) hstop _ _ result hall hrun
  exact ⟨_,result,hrun,hgood⟩

theorem run_stuck (pos : ℕ) (h : TakesTag kernel tagsEnd pos)
    (hkind : numberAt 2 kernel pos ≠ headerTagInformationRequest)
    (hzero : wordAt kernel (pos+4) = 0) (fuel : ℕ) (parsed : ParsedHeader) :
    run (tagTurn kernel tagsEnd) fuel (pos,parsed) = none := by
  induction fuel generalizing parsed with
  | zero => rfl
  | succ fuel ih =>
    rcases tagTurn_cases kernel tagsEnd pos parsed h with ⟨hrequest,-,-⟩ | ⟨parsed',hgo⟩
    · exact absurd hrequest hkind
    · rw [run,hgo,hzero]
      exact ih parsed'

theorem run_unsized (n start pos : ℕ) (hvisit : visit (nextTag kernel tagsEnd) n start = some pos)
    (htakes : TakesTag kernel tagsEnd pos) (hsized : ¬Sized kernel pos) (fuel : ℕ)
    (parsed : ParsedHeader) (result : Except Fault ParsedHeader)
    (hrun : run (tagTurn kernel tagsEnd) fuel (start,parsed) = some result) :
    result = .error .underflow := by
  induction n generalizing start fuel parsed with
  | zero =>
    cases hvisit
    by_cases hrequest : numberAt 2 kernel pos = headerTagInformationRequest
    · have hsmall : wordAt kernel (pos+4) < 8 := by
        by_contra hlarge
        exact hsized ⟨by omega,fun _ => by omega⟩
      have hturn : tagTurn kernel tagsEnd (pos,parsed) = .stop (.error .underflow) := by
        rw [tagTurn_taken kernel tagsEnd pos parsed htakes,
          (applyTag_error_iff kernel _ _ _ _ .underflow).mpr ⟨hrequest,hsmall,rfl⟩]
      cases fuel with
      | zero => cases hrun
      | succ fuel =>
        rw [run,hturn] at hrun
        exact (Option.some.inj hrun).symm
    · have hzero : wordAt kernel (pos+4) = 0 := by
        by_contra hsize
        exact hsized ⟨hsize,fun h => absurd h hrequest⟩
      rw [run_stuck kernel tagsEnd pos htakes hrequest hzero] at hrun
      cases hrun
  | succ n ih =>
    have hstart : TakesTag kernel tagsEnd start := by
      by_contra hnot
      rw [visit,nextTag,if_neg hnot] at hvisit
      cases hvisit
    rw [visit,nextTag,if_pos hstart,Option.bind_some] at hvisit
    cases fuel with
    | zero => cases hrun
    | succ fuel =>
      rw [run] at hrun
      rcases tagTurn_cases kernel tagsEnd start parsed hstart with ⟨-,-,hturn⟩ | ⟨parsed',hturn⟩
      · rw [hturn] at hrun
        exact (Option.some.inj hrun).symm
      · rw [hturn] at hrun
        exact ih _ hvisit fuel parsed' hrun

end Sizes

/-- `parse_header` comes back, and without an underflow. -/
def ComesBack (kernel : List UInt8) (offset : ℕ) : Prop :=
  ∃ fuel result, parseHeader fuel kernel offset = some result ∧ result ≠ .error .underflow

/-- For every image and offset, `parse_header` comes back without an underflow exactly when
every tag it comes to declares a size other than zero, an information request one of at
least eight. -/
theorem parseHeader_comesBack_iff (kernel : List UInt8) (offset : ℕ)
    (hlen : kernel.length < 2^63) :
    ComesBack kernel offset ↔ AllSized kernel (declaredEnd kernel offset) (offset+16) := by
  by_cases hroom : offset+16 ≤ kernel.length
  · have hadd : checkedAdd 64 offset 16 = some (offset+16) := if_pos (by omega)
    have hparse : ∀ fuel, parseHeader fuel kernel offset =
        (run (tagTurn kernel (declaredEnd kernel offset)) fuel (offset+16,
          startParsed (wordAt kernel (offset+4)) (wordAt kernel (offset+8)))).map
          (Except.map some) := by
      intro fuel
      unfold parseHeader
      rw [hadd]
      exact if_neg (Nat.not_lt.mpr hroom)
    constructor
    · rintro ⟨fuel,result,hresult,hgood⟩ n pos hvisit htakes
      by_contra hsized
      rw [hparse] at hresult
      obtain ⟨parsed,hrun,rfl⟩ := Option.map_eq_some_iff.mp hresult
      rw [run_unsized kernel _ n _ pos hvisit htakes hsized fuel _ parsed hrun] at hgood
      exact hgood rfl
    · intro hall
      obtain ⟨fuel,result,hrun,hgood⟩ := run_sized kernel _ _
        (startParsed (wordAt kernel (offset+4)) (wordAt kernel (offset+8))) hall
      refine ⟨fuel,result.map some,by rw [hparse,hrun]; rfl,?_⟩
      cases result with
      | ok parsed => exact fun h => by cases h
      | error fault =>
        intro h
        cases h
        exact hgood rfl
  · have huntaken : ¬TakesTag kernel (declaredEnd kernel offset) (offset+16) := by
      intro h
      have := h.1.2
      omega
    constructor
    · rintro - n pos hvisit htakes
      cases n with
      | zero =>
        cases hvisit
        exact absurd htakes huntaken
      | succ n =>
        rw [visit,nextTag,if_neg huntaken] at hvisit
        cases hvisit
    · intro _
      unfold ComesBack parseHeader
      cases hadd : checkedAdd 64 offset 16 with
      | none => exact ⟨0,_,rfl,by simp⟩
      | some tagsStart =>
        have hsum : tagsStart = offset+16 := by
          unfold checkedAdd at hadd
          split_ifs at hadd
          exact (Option.some.inj hadd).symm
        exact ⟨0,.ok none,if_pos (by omega),by simp⟩

def oneTag (tagType tagSize : ℕ) : List UInt8 :=
  natBytes 4 multiboot2HeaderMagic++natBytes 4 0++natBytes 4 24++natBytes 4 0x17ADAF12++
    natBytes 2 tagType++natBytes 2 0++natBytes 4 tagSize

theorem parseHeader_oneTag : ComesBack (oneTag headerTagModuleAlign 8) 0 := by
  apply (parseHeader_comesBack_iff _ 0 (by decide)).mpr
  intro n pos hvisit htakes
  cases n with
  | zero =>
    cases hvisit
    decide
  | succ n =>
    have hrest : visit (nextTag (oneTag headerTagModuleAlign 8) 24) n 24 = some pos := hvisit
    cases n with
    | zero =>
      cases hrest
      exact absurd htakes (by decide)
    | succ n => cases hrest

/-- A tag without a size is taken again and again. -/
theorem sizeless_tag_endless :
    (∀ fuel, parseHeader fuel (oneTag headerTagModuleAlign 0) 0 = none) ∧
      parseHeader 1 (oneTag headerTagInformationRequest 4) 0 = some (.error .underflow) ∧
      ¬ComesBack (oneTag headerTagModuleAlign 0) 0 := by
  have hendless : ∀ fuel, parseHeader fuel (oneTag headerTagModuleAlign 0) 0 = none := by
    intro fuel
    have hstuck := run_stuck (oneTag headerTagModuleAlign 0) 24 16 (by decide) (by decide)
      (by decide) fuel (startParsed 0 24)
    show Option.map (Except.map some) (run (tagTurn (oneTag headerTagModuleAlign 0) 24) fuel
      (16,startParsed 0 24)) = none
    rw [hstuck]
    rfl
  refine ⟨hendless,by decide,?_⟩
  rintro ⟨fuel,result,hresult,-⟩
  rw [hendless] at hresult
  cases hresult

end Zamak.MultibootHeader
