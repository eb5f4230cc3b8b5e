import Zamak.IsoVolume

/-! # The driver finds what the volume holds

One record is tried as the volume asks it, so the scan of a sector is a search among its
records, the scan of a directory a search among its sectors, and the walk along a path a
resolution in the volume. -/

set_option autoImplicit false

namespace Zamak.IsoLookup
open Zamak.ConfigText Zamak.PackedRecords Zamak.PathResolution Zamak.IsoDriver Zamak.IsoVolume
open Zamak.BootFlow (fromUtf8)

def tryRecord (name : Text) (record : List UInt8) : Option FileEntry :=
  (parseDirectoryRecord record).filter fun entry =>
    eqIgnoreAsciiCase (trimEndVersions entry.name) name

theorem scanSector_eq (buf : List UInt8) (name : Text) (offset : ℕ) :
    scanSector buf name offset = scan sectorSize (tryRecord name) buf offset := by
  fun_induction scanSector buf name offset with
  | case1 offset hlt recordLen hzero =>
    rw [scan,if_pos hlt]
    exact (if_pos hzero).symm
  | case2 offset hlt recordLen hzero hout =>
    rw [scan,if_pos hlt]
    exact ((if_neg hzero).trans (if_pos hout)).symm
  | case3 offset hlt recordLen hzero hout record entry hentry =>
    have htry : tryRecord name record = some entry := hentry
    rw [scan,if_pos hlt]
    refine ((if_neg hzero).trans ((if_neg hout).trans ?_)).symm
    rw [htry]
  | case4 offset hlt recordLen hzero hout record hnone ih =>
    have htry : tryRecord name record = none := hnone
    rw [ih,scan.eq_def sectorSize _ buf offset,if_pos hlt]
    refine ((if_neg hzero).trans ((if_neg hout).trans ?_)).symm
    rw [htry]
  | case5 offset hlt =>
    rw [scan,if_neg hlt]

theorem record_framed (r : Record) : Framed r.bytes := by
  have := r.long
  exact ⟨by omega,r.length⟩

theorem parse_record (r : Record) :
    parseDirectoryRecord r.bytes =
      if (r.bytes.getD 32 0).toNat = 0 ∨ r.IsDot then none else some r.entry := by
  have hlong : ¬(r.bytes.getD 0 0).toNat < 34 := by
    have := r.long
    rw [r.length]
    omega
  have hinside : ¬33+(r.bytes.getD 32 0).toNat > (r.bytes.getD 0 0).toNat := by
    rw [r.length]
    exact Nat.not_lt.mpr r.inside
  unfold parseDirectoryRecord
  rw [if_neg hlong]
  by_cases hzero : (r.bytes.getD 32 0).toNat = 0
  · rw [if_pos (Or.inl hzero)]
    exact (if_pos (Or.inl hzero)).symm
  · rw [if_neg (not_or.mpr ⟨hzero,hinside⟩)]
    by_cases hdot : r.IsDot
    · rw [if_pos (Or.inr hdot)]
      exact if_pos hdot
    · rw [if_neg (not_or.mpr ⟨hzero,hdot⟩)]
      refine (if_neg hdot).trans ?_
      rw [r.utf8]
      rfl

theorem nameless (r : Record) (h : (r.bytes.getD 32 0).toNat = 0) : r.name = [] := by
  have hname := r.utf8
  have hempty : fromUtf8 [] = some [] := by decide
  rw [nameBytes,h,List.take_zero,hempty] at hname
  exact (Option.some.inj hname).symm

theorem tryRecord_record (r : Record) (name : Text) (h : name ≠ []) :
    tryRecord name r.bytes = if r.Answers name then some r.entry else none := by
  unfold tryRecord
  rw [parse_record]
  by_cases hzero : (r.bytes.getD 32 0).toNat = 0
  · have hno : ¬r.Answers name := by
      rw [answers_iff,nameless r hzero]
      rintro ⟨-,hsame⟩
      have hmap : [] = name.map Char.toLower := eq_of_beq hsame
      exact h (List.map_eq_nil_iff.mp hmap.symm)
    rw [if_pos (Or.inl hzero),if_neg hno]
    rfl
  · by_cases hdot : r.IsDot
    · rw [if_pos (Or.inr hdot),if_neg fun ha => ha.1 hdot]
      rfl
    · rw [if_neg (not_or.mpr ⟨hzero,hdot⟩)]
      have hiff : r.Answers name ↔ eqIgnoreAsciiCase (trimEndVersions r.entry.name) name = true :=
        (answers_iff r name).trans (and_iff_right hdot)
      rw [Option.filter_some]
      exact if_congr hiff.symm rfl rfl

theorem findSome?_answers (name : Text) (sector : List Record) :
    (sector.findSome? fun r => if r.Answers name then some r.entry else none) =
      (sector.find? fun r => decide (r.Answers name)).map Record.entry := by
  induction sector with
  | nil => rfl
  | cons r sector ih =>
    by_cases h : r.Answers name
    · simp only [List.findSome?_cons,if_pos h,List.find?_cons,decide_eq_true h,Option.map_some]
    · simp only [List.findSome?_cons,if_neg h,List.find?_cons,decide_eq_false h]
      exact ih

theorem scanSector_sector (sector : List Record) (name : Text) (h : name ≠ [])
    (hfits : (sector.map Record.bytes).flatten.length ≤ 2048) :
    scanSector (sectorBytes sector) name 0 =
      (sector.find? fun r => decide (r.Answers name)).map Record.entry := by
  have hframed : ∀ record ∈ sector.map Record.bytes, Framed record :=
    List.forall_mem_map.mpr fun r _ => record_framed r
  rw [scanSector_eq,sectorBytes,scan_pack sectorSize (tryRecord name) _ hframed hfits,
    List.findSome?_map,← findSome?_answers]
  exact congrArg (fun f => sector.findSome? f) (funext fun r => tryRecord_record r name h)

theorem find_cons (sector : List Record) (d : Directory) (name : Text) :
    Directory.find (sector::d) name =
      (sector.find? fun r => decide (r.Answers name)).or (Directory.find d name) := by
  rw [Directory.find,List.flatten_cons,List.find?_append]
  rfl

theorem find_mem (d : Directory) (name : Text) (r : Record) (h : Directory.find d name = some r) :
    r.Answers name ∧ ∃ sector ∈ d, r ∈ sector := by
  have hfind : d.flatten.find? (fun r => decide (r.Answers name)) = some r := h
  exact ⟨by simpa using List.find?_some hfind,
    List.mem_flatten.mp (List.mem_of_find?_eq_some hfind)⟩

theorem sectorBytes_length (sector : List Record)
    (h : (sector.map Record.bytes).flatten.length ≤ 2048) :
    (sectorBytes sector).length = 2048 := pack_length sectorSize _ h

section
variable (fs : Iso9660) (v : Volume) (hdvd : fs.deviceSectorSize ∣ 2048)
include hdvd

theorem readSectors_sector (lba i : ℕ) (sector : List Record) (buf : List UInt8)
    (hbuf : buf.length = 2048) (hfits : (sector.map Record.bytes).flatten.length ≤ 2048)
    (hreads : Reads fs.device fs.deviceSectorSize (2048*(lba+i)) (sectorBytes sector)) :
    fs.device.readSectors ((lba+i)*(sectorSize/fs.deviceSectorSize))
      (sectorSize/fs.deviceSectorSize) buf = .ok (sectorBytes sector) := by
  have hlen := sectorBytes_length sector hfits
  have hwhole : sectorSize/fs.deviceSectorSize*fs.deviceSectorSize = 2048 :=
    Nat.div_mul_cancel hdvd
  apply hreads
  · rw [Nat.mul_assoc,hwhole,Nat.mul_comm]
  · rw [hwhole,hlen]
  · rw [hbuf,hlen]

theorem findInSectors_eq (lba : UInt32) (name : Text) (hname : name ≠ []) (d : Directory)
    (hfits : ∀ sector ∈ d, (sector.map Record.bytes).flatten.length ≤ 2048) (i : ℕ)
    (hreads : ∀ j sector, d[j]? = some sector →
      Reads fs.device fs.deviceSectorSize (2048*(lba.toNat+(i+j))) (sectorBytes sector))
    (buf : List UInt8) (hbuf : buf.length = 2048) :
    findInSectors fs lba name i d.length buf =
      match Directory.find d name with
      | some r => .ok r.entry
      | none => .error .fileNotFound := by
  induction d generalizing i buf with
  | nil => rfl
  | cons sector d ih =>
    have hsector := hfits sector List.mem_cons_self
    have hread := readSectors_sector fs hdvd lba.toNat i sector buf hbuf hsector
      (hreads 0 sector rfl)
    have hrest := ih (fun s hs => hfits s (List.mem_cons_of_mem sector hs)) (i+1)
      (fun j s hs => by
        have hplace : i+1+j = i+(j+1) := by omega
        rw [hplace]
        exact hreads (j+1) s hs)
      (sectorBytes sector) (sectorBytes_length sector hsector)
    rw [List.length_cons,findInSectors]
    simp only [hread,scanSector_sector sector name hname hsector]
    rw [find_cons]
    cases sector.find? fun r => decide (r.Answers name) with
    | some r => rfl
    | none => exact hrest

variable (hholds : Holds fs.device fs.deviceSectorSize v)
include hholds

theorem findInDirectory_eq (extent : Extent) (d : Directory)
    (h : v.directory extent = some d) (name : Text) (hname : name ≠ []) :
    findInDirectory fs extent.lba extent.size name =
      match Directory.find d name with
      | some r => .ok r.entry
      | none => .error .fileNotFound := by
  have hcount : (extent.size.toNat+(sectorSize-1))/sectorSize = d.length :=
    (v.sectors extent d h).symm
  unfold findInDirectory
  rw [hcount]
  apply findInSectors_eq fs hdvd extent.lba name hname d (v.fits extent d h) 0
  · intro j sector hj
    rw [Nat.zero_add]
    exact hholds extent d h j sector hj
  · exact List.length_replicate

theorem findParts_cons (extent : Extent) (d : Directory) (h : v.directory extent = some d)
    (part : Text) (hpart : part ≠ []) (rest : List Text) :
    findParts fs extent.lba extent.size (part::rest) =
      match Directory.find d part with
      | none => .error .fileNotFound
      | some r =>
        if rest = [] then .ok r.entry
        else if r.IsDirectory then findParts fs r.extent.lba r.extent.size rest
        else .error .notADirectory := by
  rw [findParts,findInDirectory_eq fs v hdvd hholds extent d h part hpart]
  cases Directory.find d part with
  | none => rfl
  | some r =>
    have hlba : r.entry.opaqueId.toUInt32 = r.extent.lba := UInt32.toUInt32_toUInt64 _
    have hsize : r.entry.size.toUInt32 = r.extent.size := UInt32.toUInt32_toUInt64 _
    have htype : r.entry.fileType = if r.IsDirectory then .directory else .file := rfl
    by_cases hdir : r.IsDirectory
    · rw [if_pos hdir] at htype
      simp only [htype,hlba,hsize,hdir,ne_eq,not_true_eq_false,if_true,if_false]
    · rw [if_neg hdir] at htype
      simp [htype,hdir]

theorem findParts_eq (names : List Text) (hnames : ∀ name ∈ names, name ≠ []) (part : Text)
    (hpart : part ≠ []) (node : Node) (extent : Extent) (d : Directory)
    (hd : v.directory extent = some d) (hinside : v.directories.inside node = some d) :
    findParts fs extent.lba extent.size (part::names) = v.reached node (part::names) := by
  induction names generalizing part node extent d with
  | nil =>
    rw [findParts_cons fs v hdvd hholds extent d hd part hpart,
      reached_cons v node d hinside part []]
    cases Directory.find d part with
    | none => rfl
    | some r => rfl
  | cons next names ih =>
    rw [findParts_cons fs v hdvd hholds extent d hd part hpart,
      reached_cons v node d hinside part (next::names)]
    cases hfind : Directory.find d part with
    | none => rfl
    | some r =>
      simp only [if_neg (List.cons_ne_nil next names)]
      by_cases hdir : r.IsDirectory
      · have ⟨hanswers,sector,hsector,hr⟩ := find_mem d part r hfind
        have ⟨inner,hinner⟩ := v.closed extent d hd sector hsector r hr hanswers.1 hdir
        have hwithin : v.directories.inside (.record r) = some inner :=
          (if_pos hdir).trans hinner
        rw [if_pos hdir]
        exact ih (fun name hn => hnames name (List.mem_cons_of_mem next hn)) next
          (hnames next List.mem_cons_self) (.record r) r.extent inner hinner hwithin
      · rw [if_neg hdir,reached_file v r hdir next names]

end

theorem components_trim (path : Text) :
    components (path.dropWhile (· == '/')) = components path := by
  induction path with
  | nil => rfl
  | cons c path ih =>
    by_cases hc : c = '/'
    · have hsplit : components (c::path) = components path := by
        rw [components,List.splitOn,List.splitOnP_cons_eq_if_modifyHead,if_pos (by simp [hc])]
        rfl
      rw [hsplit,List.dropWhile_cons_of_pos (by simp [hc]),ih]
    · rw [List.dropWhile_cons_of_neg (by simp [hc])]

/-- On a device that holds a volume, a path is found, or refused, as in the volume. -/
theorem findFile_resolves (fs : Iso9660) (v : Volume) (hroot : v.root = ⟨fs.rootLba,fs.rootSize⟩)
    (hdvd : fs.deviceSectorSize ∣ 2048) (hholds : Holds fs.device fs.deviceSectorSize v)
    (path : Text) : findFile fs path = v.resolved path := by
  have hparts : findFile fs path = findParts fs v.root.lba v.root.size (components path) := by
    rw [hroot,← components_trim]
    rfl
  have hnames : ∀ name ∈ components path, name ≠ [] := by
    intro name hn
    simpa using (List.mem_filter.mp hn).2
  have ⟨d,hd⟩ := v.root_present
  rw [hparts,Volume.resolved]
  cases hcomponents : components path with
  | nil =>
    have hentry : rootEntry fs = v.entry .root := by
      rw [Volume.entry,hroot]
      rfl
    rw [findParts,hentry]
    rfl
  | cons part names =>
    rw [hcomponents] at hnames
    exact findParts_eq fs v hdvd hholds names (fun name hn => hnames name (List.mem_cons_of_mem _ hn))
      part (hnames part List.mem_cons_self) .root v.root d hd hd

def imageDevice (deviceSectorSize : ℕ) (image : List UInt8) : BlockDevice where
  readSectors start count _ :=
    if (start+count)*deviceSectorSize ≤ image.length then
      .ok ((image.drop (start*deviceSectorSize)).take (count*deviceSectorSize))
    else .error .ioError

theorem imageDevice_reads (deviceSectorSize : ℕ) (before bytes after : List UInt8) :
    Reads (imageDevice deviceSectorSize (before++(bytes++after))) deviceSectorSize
      before.length bytes := by
  intro start count buf hstart hcount _
  have hfits : (start+count)*deviceSectorSize ≤ (before++(bytes++after)).length := by
    rw [Nat.add_mul,hstart,hcount]
    simp only [List.length_append]
    omega
  simp only [imageDevice,if_pos hfits]
  rw [hstart,hcount,List.drop_left,List.take_left]

def smallRecord (lba flags : UInt8) (name : List UInt8) : List UInt8 :=
  [36,0,lba,0,0,0,0,0,0,0,0,8]++List.replicate 13 0++[flags]++List.replicate 6 0++
    [UInt8.ofNat name.length]++name++List.replicate (3-name.length) 0

def docs : Record where
  bytes := smallRecord 1 2 [68,79,67]
  name := [ 'D', 'O', 'C']
  long := by decide
  length := by decide
  inside := by decide
  utf8 := by decide

def notes : Record where
  bytes := smallRecord 9 0 [65,59,49]
  name := [ 'A', ';', '1']
  long := by decide
  length := by decide
  inside := by decide
  utf8 := by decide

def smallDirectory (extent : Extent) : Option Directory :=
  if extent = ⟨0,2048⟩ then some [[docs]]
  else if extent = ⟨1,2048⟩ then some [[notes]]
  else none

theorem smallDirectory_cases (extent : Extent) (d : Directory)
    (h : smallDirectory extent = some d) :
    (extent = ⟨0,2048⟩ ∧ d = [[docs]]) ∨ (extent = ⟨1,2048⟩ ∧ d = [[notes]]) := by
  unfold smallDirectory at h
  split at h
  · exact Or.inl ⟨‹_›,(Option.some.inj h).symm⟩
  · split at h
    · exact Or.inr ⟨‹_›,(Option.some.inj h).symm⟩
    · cases h

def smallVolume : Volume where
  root := ⟨0,2048⟩
  directory := smallDirectory
  root_present := ⟨[[docs]],rfl⟩
  closed := by
    intro extent d h sector hsector r hr _ hdir
    rcases smallDirectory_cases extent d h with ⟨-,rfl⟩ | ⟨-,rfl⟩
    · obtain rfl := List.mem_singleton.mp hsector
      obtain rfl := List.mem_singleton.mp hr
      exact ⟨[[notes]],rfl⟩
    · obtain rfl := List.mem_singleton.mp hsector
      obtain rfl := List.mem_singleton.mp hr
      exact absurd hdir (by decide)
  sectors := by
    intro extent d h
    rcases smallDirectory_cases extent d h with ⟨rfl,rfl⟩ | ⟨rfl,rfl⟩ <;> rfl
  fits := by
    intro extent d h sector hsector
    rcases smallDirectory_cases extent d h with ⟨-,rfl⟩ | ⟨-,rfl⟩
    · obtain rfl := List.mem_singleton.mp hsector
      decide
    · obtain rfl := List.mem_singleton.mp hsector
      decide

def smallDevice : BlockDevice := imageDevice 512 (sectorBytes [docs]++sectorBytes [notes])

theorem smallDevice_holds : Holds smallDevice 512 smallVolume := by
  intro extent d h i sector hi
  have hdocs : (sectorBytes [docs]).length = 2048 := sectorBytes_length [docs] (by decide)
  have hfirst := imageDevice_reads 512 [] (sectorBytes [docs]) (sectorBytes [notes])
  have hsecond := imageDevice_reads 512 (sectorBytes [docs]) (sectorBytes [notes]) []
  rw [List.append_nil,hdocs] at hsecond
  rcases smallDirectory_cases extent d h with ⟨rfl,rfl⟩ | ⟨rfl,rfl⟩
  · cases i with
    | zero => cases hi; exact hfirst
    | succ i => cases hi
  · cases i with
    | zero => cases hi; exact hsecond
    | succ i => cases hi

/-- A file below a directory, asked for in the other letter case and without a version. -/
theorem findFile_resolves_notes :
    findFile ⟨smallDevice,0,2048,512⟩ "/doc/a".toList = .ok notes.entry := by
  rw [findFile_resolves ⟨smallDevice,0,2048,512⟩ smallVolume rfl (by decide) smallDevice_holds]
  rfl

end Zamak.IsoLookup
