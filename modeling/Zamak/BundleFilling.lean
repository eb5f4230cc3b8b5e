import Zamak.RealMode

/-! # What the real-mode routines leave

One lemma for each loop: the rows of the memory map stand one behind the other in the
bundle, the sectors of the partition stand behind each other in high memory. Nothing but
the scratch addresses changes besides. -/

set_option autoImplicit false

namespace Zamak.BundleFilling
open Zamak.ByteMemory Zamak.BiosServices Zamak.PartialSteps Zamak.PlacedBlocks Zamak.Segments
open Zamak.TagStreams Zamak.RealMode

def Used (x : ℕ) : Prop :=
  Within 0x400 0x40 x ∨ Within 0x500 0x220 x ∨ Within bundlePhys 0x1E00 x ∨
    Within bounce 0x2000 x ∨ Within 0xE0000 0x20000 x ∨ Within imagePhys 0x800000 x

def Quiet (own : ℕ → Prop) : Prop := ∀ x, own x → ¬Used x

theorem quiet_nothing : Quiet fun _ => False := fun _ => False.elim

section Quiet
variable {own : ℕ → Prop} (hquiet : Quiet own) {m m' : Memory}
include hquiet

theorem kept_number {written : ℕ → Prop} (h : Keeps (fun x => own x ∨ written x) m m')
    {width a : ℕ} (hused : ∀ x, Within a width x → Used x ∧ ¬written x) :
    number width m' a = number width m a :=
  h.number fun x hx hfree =>
    hfree.elim (fun hown => hquiet x hown (hused x hx).1) (hused x hx).2

theorem kept_own {width a : ℕ} (h : Keeps own m m') (hused : ∀ x, Within a width x → Used x) :
    number width m' a = number width m a :=
  h.number fun x hx hown => hquiet x hown (hused x hx)

end Quiet

/-! ## The memory map -/

structure RowAt (m : Memory) (a : ℕ) (row : Row) : Prop where
  base : number 8 m a = row.base.toNat
  len : number 8 m (a+8) = row.len.toNat
  typ : number 4 m (a+16) = row.typ.toNat

theorem written_length (row : Row) : row.written.length ≤ 24 := by
  unfold Row.written
  cases row.acpi <;> simp [natBytes_length]

theorem rowAt_written {m : Memory} {a : ℕ} {row : Row}
    (h : stretch m a row.written.length = row.written) : RowAt m a row where
  base := by
    have hsplit : row.written = []++(natBytes 8 row.base.toNat++(natBytes 8 row.len.toNat++
        (natBytes 4 row.typ.toNat++row.acpi.elim [] fun a => natBytes 4 a.toNat))) := by
      simp only [Row.written,List.append_assoc,List.nil_append]
    have hat := number_inside m h hsplit row.base.isLt
    rwa [List.length_nil,Nat.add_zero] at hat
  len := by
    have hsplit : row.written = natBytes 8 row.base.toNat++(natBytes 8 row.len.toNat++
        (natBytes 4 row.typ.toNat++row.acpi.elim [] fun a => natBytes 4 a.toNat)) := by
      simp only [Row.written,List.append_assoc]
    have hat := number_inside m h hsplit row.len.isLt
    rwa [natBytes_length] at hat
  typ := by
    have hsplit : row.written = (natBytes 8 row.base.toNat++natBytes 8 row.len.toNat)++
        (natBytes 4 row.typ.toNat++row.acpi.elim [] fun a => natBytes 4 a.toNat) := by
      simp only [Row.written,List.append_assoc]
    have hat := number_inside m h hsplit row.typ.isLt
    rwa [List.length_append,natBytes_length,natBytes_length] at hat

theorem RowAt.kept {m m' : Memory} {a : ℕ} {row : Row} (h : RowAt m a row)
    (hkept : ∀ b width, a ≤ b → b+width ≤ a+20 → number width m' b = number width m b) :
    RowAt m' a row :=
  ⟨(hkept _ _ (by omega) (by omega)).trans h.base,(hkept _ _ (by omega) (by omega)).trans h.len,
    (hkept _ _ (by omega) (by omega)).trans h.typ⟩

def rowsBase : ℕ := 0x100C

def MapScratch (k x : ℕ) : Prop := Within e820Count 12 x ∨ Within rowsBase (24*k) x

section MemoryMap
variable {σ : Type} {int : Interrupts σ} {own : ℕ → Prop} {rows : List Row}
  {place : ℕ → BitVec 32}

/-- The first rows are in the bundle, and the next one will go behind them. -/
structure Told (own : ℕ → Prop) (rows : List Row) (place : ℕ → BitVec 32) (start : World σ)
    (k : ℕ) (w : World σ) : Prop where
  count : number 4 w.memory e820Count = k
  di : number 2 w.memory e820Di = rowsBase+24*k
  continuation : number 4 w.memory e820Continuation = (place k).toNat
  row : ∀ i (hi : i < rows.length), i < k → RowAt w.memory (rowsBase+24*i) rows[i]
  com1 : w.com1 = start.com1
  keeps : Keeps (fun x => own x ∨ MapScratch k x) start.memory w.memory

theorem noteRow_count (ebx : BitVec 32) (w : World σ) :
    number 4 (noteRow ebx w).memory e820Count = (number 4 w.memory e820Count+1)%2^32 := by
  simp only [noteRow,World.put_memory,number_put]
  unfold e820Count e820Di e820Continuation
  rw [number_put_apart _ _ (by omega),number_put_apart _ _ (by omega)]
  rfl

theorem noteRow_di (ebx : BitVec 32) (w : World σ) :
    number 2 (noteRow ebx w).memory e820Di = (number 2 w.memory e820Di+24)%2^16 := by
  unfold noteRow e820Count e820Di e820Continuation
  simp only [World.put_memory]
  rw [number_put_apart _ _ (by omega),number_put,number_put_apart _ _ (by omega)]
  rfl

theorem noteRow_continuation (ebx : BitVec 32) (w : World σ) :
    number 4 (noteRow ebx w).memory e820Continuation = ebx.toNat := by
  unfold noteRow e820Count e820Di e820Continuation
  simp only [World.put_memory]
  rw [number_put_apart _ _ (by omega),number_put_apart _ _ (by omega),
    number_put_of_lt _ _ ebx.isLt]

theorem noteRow_keeps (ebx : BitVec 32) (w : World σ) :
    Keeps (Within e820Count 12) w.memory (noteRow ebx w).memory := by
  unfold noteRow e820Count e820Di e820Continuation
  refine ((keeps_put ?_).trans (keeps_put ?_)).trans (keeps_put ?_) <;>
  · intro x hx
    unfold Within at *
    omega

theorem told_next (hquiet : Quiet own) {start w w' : World σ} {k : ℕ} (hk : k < e820MaxEntries)
    (hlt : k < rows.length) (h : Told own rows place start k w) (hcom1 : w'.com1 = w.com1)
    (hw : Writes own w.memory w'.memory (rowsBase+24*k) rows[k].written) :
    Told own rows place start (k+1) (noteRow (place (k+1)) w') := by
  have hrow := written_length rows[k]
  have hnote := noteRow_keeps (place (k+1)) w'
  unfold e820MaxEntries at hk
  have hscratch : ∀ a width, e820Count ≤ a → a+width ≤ e820Count+12 →
      number width w'.memory a = number width w.memory a := by
    intro a width ha hw'
    refine kept_number hquiet hw.keeps fun x hx => ?_
    unfold Within e820Count rowsBase at *
    unfold Used Within
    omega
  have hrows : ∀ a width, rowsBase ≤ a → a+width ≤ rowsBase+24*(k+1) →
      number width (noteRow (place (k+1)) w').memory a = number width w'.memory a := by
    intro a width ha hw'
    refine hnote.number fun x hx => ?_
    unfold Within e820Count rowsBase at *
    omega
  constructor
  · rw [noteRow_count,hscratch _ _ (by unfold e820Count; omega) (by unfold e820Count; omega),
      h.count]
    omega
  · rw [noteRow_di,hscratch _ _ (by unfold e820Count e820Di; omega)
      (by unfold e820Count e820Di; omega),h.di]
    unfold rowsBase
    omega
  · exact noteRow_continuation _ _
  · intro i hi hik
    refine RowAt.kept (m := w'.memory) ?_ fun b width hb hb' =>
      hrows b width (by omega) (by omega)
    rcases Nat.lt_or_eq_of_le (Nat.le_of_lt_succ hik) with hbefore|heq
    · refine (h.row i hi hbefore).kept fun b width hb hb' => ?_
      refine kept_number hquiet hw.keeps fun x hx => ?_
      unfold Within rowsBase at *
      unfold Used Within bundlePhys
      omega
    · subst heq
      exact rowAt_written hw.there
  · exact hcom1.trans h.com1
  · refine ((h.keeps.mono ?_).trans (hw.keeps.mono ?_)).trans (hnote.mono ?_)
    · rintro x (hown|hscr|hmap)
      · exact Or.inl hown
      · exact Or.inr (Or.inl hscr)
      · exact Or.inr (Or.inr (hmap.mono (by omega)))
    · rintro x (hown|⟨hlow,hhigh⟩)
      · exact Or.inl hown
      · exact Or.inr (Or.inr ⟨by omega,by omega⟩)
    · exact fun x hx => Or.inr (Or.inl hx)

/-- The loop ends with as many rows as there are, and at most with what the bundle holds. -/
theorem e820Loop_told (hquiet : Quiet own) (henum : Enumerates int own rows place)
    {start : World σ} (h : Told own rows place start 0 start) (r : Regs) (fuel : ℕ)
    (hfuel : e820MaxEntries < fuel) :
    ∃ s, run (e820Turn int) fuel (r,start) = some s ∧
      Told own rows place start (min rows.length e820MaxEntries) s.2 := by
  refine run_reaches (e820Turn int)
    (fun s => ∃ k, k < e820MaxEntries ∧ k ≤ rows.length ∧ (0 < k → place k ≠ 0) ∧
      Told own rows place start k s.2)
    (fun s => e820MaxEntries-number 4 s.2.memory e820Count) _ ?_ fuel (r,start)
    ⟨0,by decide,Nat.zero_le _,fun hpos => absurd hpos (Nat.lt_irrefl 0),h⟩ (by
      have := h.count
      omega)
  rintro ⟨r,w⟩ ⟨k,hk,hle,hplace,htold⟩
  obtain ⟨r1,hr1⟩ : ∃ r1, r1 = { r with
      eax := 0xE820, edx := smap, ecx := 24,
      ebx := BitVec.ofNat 32 (number 4 w.memory e820Continuation),
      edi := setLow16 r.edi (number 2 w.memory e820Di) } := ⟨_,rfl⟩
  obtain ⟨⟨r2,w2⟩,hint⟩ : ∃ s, int 0x15 r1 w = s := ⟨_,rfl⟩
  have hebx : r1.ebx = place k := by
    rw [hr1,htold.continuation,BitVec.ofNat_toNat,BitVec.setWidth_eq]
  have hedi : low16 r1.edi = rowsBase+24*k := by
    rw [hr1,low16_setLow16,htold.di]
    unfold rowsBase e820MaxEntries at *
    omega
  have hroom : low16 r1.edi+24 ≤ 0x10000 := by
    rw [hedi]
    unfold rowsBase e820MaxEntries at *
    omega
  have hturn : e820Turn int (r,w) =
      if r2.eax ≠ smap then .stop (r2,w2)
      else if r2.ebx = 0 then .stop (r2,noteRow r2.ebx w2)
      else if number 4 (noteRow r2.ebx w2).memory e820Count < e820MaxEntries then
        .go (r2,noteRow r2.ebx w2)
      else .stop (r2,noteRow r2.ebx w2) := by
    rw [e820Turn,rmE820Next]
    dsimp only
    rw [← hr1,hint]
  rcases Nat.lt_or_eq_of_le hle with hlt|heq
  · obtain ⟨heax,hnext,hcom1,hw⟩ := henum.row k hlt r1 w (by rw [hr1]) (by rw [hr1])
      (by rw [hr1]) hebx hroom
    rw [hint] at heax hnext hcom1 hw
    rw [hedi] at hw
    dsimp only at heax hnext hcom1 hw
    have hmore := told_next hquiet hk hlt htold hcom1 hw
    rw [hturn,if_neg (not_not.mpr heax),hnext]
    by_cases hzero : place (k+1) = 0
    · have hall : k+1 = rows.length := by
        by_contra hne
        exact henum.inside (k+1) (by omega) (by omega) hzero
      right
      refine ⟨_,if_pos hzero,?_⟩
      rw [← hall,Nat.min_eq_left (by omega)]
      exact hmore
    · rw [if_neg hzero]
      by_cases hfull : k+1 < e820MaxEntries
      · left
        rw [hmore.count,if_pos hfull]
        refine ⟨_,rfl,⟨k+1,hfull,hlt,fun _ => hzero,hmore⟩,?_⟩
        dsimp only
        rw [hmore.count,htold.count]
        omega
      · right
        rw [hmore.count,if_neg hfull]
        refine ⟨_,rfl,?_⟩
        rw [Nat.min_eq_right (by omega),show e820MaxEntries = k+1 by omega]
        exact hmore
  · obtain ⟨heax,hcom1,hkeeps⟩ := henum.past r1 w (by rw [hr1]) (by rw [hr1]) (by rw [hr1])
      (heq ▸ hebx) (by
        intro hzero
        rw [hebx] at hzero
        rcases Nat.eq_zero_or_pos k with hk0|hpos
        · exact List.eq_nil_of_length_eq_zero (heq.symm.trans hk0)
        · exact absurd hzero (hplace hpos)) hroom
    rw [hint] at heax hcom1 hkeeps
    right
    rw [hturn,if_pos heax]
    refine ⟨_,rfl,?_⟩
    rw [← heq,Nat.min_eq_left (Nat.le_of_lt hk)]
    have hscratch : ∀ a width, e820Count ≤ a → a+width ≤ e820Count+12 →
        number width w2.memory a = number width w.memory a := by
      intro a width ha hw'
      refine kept_own hquiet hkeeps fun x hx => ?_
      unfold Within e820Count at *
      unfold Used Within
      omega
    constructor
    · rw [hscratch _ _ (by unfold e820Count; omega) (by unfold e820Count; omega)]
      exact htold.count
    · rw [hscratch _ _ (by unfold e820Count e820Di; omega) (by unfold e820Count e820Di; omega)]
      exact htold.di
    · rw [hscratch _ _ (by unfold e820Count e820Continuation; omega)
        (by unfold e820Count e820Continuation; omega)]
      exact htold.continuation
    · intro i hi hik
      refine (htold.row i hi hik).kept fun b width hb hb' => ?_
      refine kept_own hquiet hkeeps fun x hx => ?_
      unfold Within rowsBase e820MaxEntries at *
      unfold Used Within bundlePhys
      omega
    · exact hcom1.trans htold.com1
    · exact htold.keeps.trans (hkeeps.mono fun _ => Or.inl)

end MemoryMap

/-! ## The image of the partition -/

def ChunkScratch (x : ℕ) : Prop := Within dapScratch 0x14 x ∨ Within bounce 0x2000 x

theorem movsb_writes (n : ℕ) (m : Memory) (src dest : ℕ) (h : src+n ≤ dest) :
    Writes (fun _ => False) m (movsb n src dest m) dest (stretch m src n) := by
  induction n generalizing m src dest with
  | zero => exact Writes.none (Keeps.refl m)
  | succ n ih =>
    have hfirst : Writes (fun _ => False) m (Function.update m dest (m src)) dest [m src] := by
      constructor
      · show [Function.update m dest (m src) (dest+0)] = [m src]
        rw [Nat.add_zero,Function.update_self]
      · intro x hx
        refine Function.update_of_ne ?_ _ _
        rintro rfl
        exact hx (Or.inr ⟨Nat.le_refl _,Nat.lt_succ_self _⟩)
    have hrest := ih (Function.update m dest (m src)) (src+1) (dest+1) (by omega)
    have hsame : stretch (Function.update m dest (m src)) (src+1) n = stretch m (src+1) n := by
      refine stretch_congr _ _ _ _ n fun k hk => Function.update_of_ne ?_ _ _
      omega
    rw [hsame] at hrest
    have hall := hfirst.append hrest fun _ _ => id
    have hcons : [m src]++stretch m (src+1) n = stretch m src (n+1) := by
      rw [Nat.add_comm n 1,← stretch_append]
      rfl
    rwa [hcons] at hall

section Chunk
variable {σ : Type} {int : Interrupts σ} {own : ℕ → Prop} {drive : UInt8} {disk : Disk}

/-- The packet of a chunk, with the number of its bytes behind it. -/
def chunkPacket (c lba : ℕ) (w : World σ) : World σ :=
  ((((((w.put 2 dapScratch 0x0010).put 2 (dapScratch+2) c).put 2 (dapScratch+4) bounce).put 2
    (dapScratch+6) 0).put 4 (dapScratch+8) lba).put 4 (dapScratch+12) 0).put 4 chunkBytes (c*2^9)

theorem chunkPacket_keeps (c lba : ℕ) (w : World σ) :
    Keeps (Within dapScratch 0x14) w.memory (chunkPacket c lba w).memory := by
  unfold chunkPacket dapScratch chunkBytes
  refine ((((((keeps_put ?_).trans (keeps_put ?_)).trans (keeps_put ?_)).trans
    (keeps_put ?_)).trans (keeps_put ?_)).trans (keeps_put ?_)).trans (keeps_put ?_) <;>
  · intro x hx
    unfold Within at *
    omega

theorem number_two {m : Memory} {a v : ℕ} (h : number 2 m a = v) (hv : v < 256) :
    number 1 m a = v ∧ number 1 m (a+1) = 0 := by
  have hadd := number_add m 1 1 a
  have hlow := number_lt m 1 a
  rw [h] at hadd
  omega

theorem chunkPacket_dap {c lba : ℕ} (hc : c < 2^16) (hlba : lba < 2^32) (w : World σ) :
    dapAt (chunkPacket c lba w).memory dapScratch = ⟨16,0,c,bounce,0,lba⟩ := by
  have hsize : number 2 (chunkPacket c lba w).memory dapScratch = 16 := by
    unfold chunkPacket dapScratch chunkBytes
    simp only [World.put_memory]
    rw [number_put_apart _ _ (by omega),number_put_apart _ _ (by omega),
      number_put_apart _ _ (by omega),number_put_apart _ _ (by omega),
      number_put_apart _ _ (by omega),number_put_apart _ _ (by omega),number_put]
    rfl
  have hcount : number 2 (chunkPacket c lba w).memory (dapScratch+2) = c := by
    unfold chunkPacket dapScratch chunkBytes
    simp only [World.put_memory]
    rw [number_put_apart _ _ (by omega),number_put_apart _ _ (by omega),
      number_put_apart _ _ (by omega),number_put_apart _ _ (by omega),
      number_put_apart _ _ (by omega),number_put_of_lt _ _ hc]
  have hoffset : number 2 (chunkPacket c lba w).memory (dapScratch+4) = bounce := by
    unfold chunkPacket dapScratch chunkBytes
    simp only [World.put_memory]
    rw [number_put_apart _ _ (by omega),number_put_apart _ _ (by omega),
      number_put_apart _ _ (by omega),number_put_apart _ _ (by omega),number_put]
    rfl
  have hsegment : number 2 (chunkPacket c lba w).memory (dapScratch+6) = 0 := by
    unfold chunkPacket dapScratch chunkBytes
    simp only [World.put_memory]
    rw [number_put_apart _ _ (by omega),number_put_apart _ _ (by omega),
      number_put_apart _ _ (by omega),number_put]
    rfl
  have hplace : number 8 (chunkPacket c lba w).memory (dapScratch+8) = lba := by
    rw [number_add _ 4 4]
    unfold chunkPacket dapScratch chunkBytes
    simp only [World.put_memory]
    rw [number_put_apart _ _ (by omega),number_put_apart _ _ (by omega),
      number_put_of_lt _ _ hlba,number_put_apart _ _ (by omega),number_put]
    omega
  obtain ⟨hone,hzero⟩ := number_two hsize (by omega)
  rw [dapAt,hone,hzero,hcount,hoffset,hsegment,hplace]

theorem chunkPacket_bytes {c : ℕ} (hc : c ≤ 16) (lba : ℕ) (w : World σ) :
    number 4 (chunkPacket c lba w).memory chunkBytes = c*512 := by
  unfold chunkPacket
  rw [World.put_memory,number_put]
  omega

theorem rmLoadChunk_eq (r : Regs) (w : World σ) {c lba : ℕ} (hax : low16 r.eax = c)
    (hebx : r.ebx.toNat = lba) {r1 r2 : Regs} {w2 : World σ}
    (hr1 : r1 = { r with esi := setLow16 r.esi dapScratch, eax := setHigh8 r.eax 0x42 })
    (hint : int 0x13 r1 (chunkPacket c lba w) = (r2,w2)) {eax : BitVec 32}
    (heax : eax = setHigh8 (setLow8 r2.eax (high8 r2.eax)) 0) :
    rmLoadChunk int r w =
      if high8 r2.eax ≠ 0 then ({ r2 with eax := eax },w2)
      else ({ r2 with eax := setLow8 eax 0 },
        { w2 with memory := movsb (number 4 w2.memory chunkBytes) bounce r2.edi.toNat
                              w2.memory }) := by
  subst hax hebx hr1
  have hread : rmDiskReadExt int { r with esi := setLow16 r.esi dapScratch }
      (chunkPacket (low16 r.eax) r.ebx.toNat w) = ({ r2 with eax := eax },w2) := by
    rw [rmDiskReadExt,hint,heax]
  have hstatus : low8 eax = high8 r2.eax := by
    rw [heax,low8_setHigh8,low8_setLow8]
  unfold chunkPacket at hread
  rw [rmLoadChunk]
  dsimp only
  rw [hread]
  dsimp only
  rw [hstatus]

theorem rmLoadChunk_cases (hquiet : Quiet own) (hread : Reads int own drive disk) (r : Regs)
    (w : World σ) {c lba dest : ℕ} (hax : low16 r.eax = c) (hpos : 0 < c) (hc : c ≤ 16)
    (hdl : low8 r.edx = drive) (hebx : r.ebx.toNat = lba) (hedi : r.edi.toNat = dest)
    (hdest : imagePhys ≤ dest) (hend : dest+c*512 ≤ imagePhys+0x800000) :
    (rmLoadChunk int r w).2.com1 = w.com1 ∧
    ((low8 (rmLoadChunk int r w).1.eax = 0 ∧ lba+c ≤ disk.sectors ∧
        Writes (fun x => own x ∨ ChunkScratch x) w.memory (rmLoadChunk int r w).2.memory dest
          (disk.read lba c)) ∨
      (low8 (rmLoadChunk int r w).1.eax ≠ 0 ∧
        Keeps (fun x => own x ∨ ChunkScratch x) w.memory (rmLoadChunk int r w).2.memory ∧
        ¬(Reliable int drive disk ∧ lba+c ≤ disk.sectors))) := by
  obtain ⟨r1,hr1⟩ : ∃ r1, r1 = { r with
      esi := setLow16 r.esi dapScratch, eax := setHigh8 r.eax 0x42 } := ⟨_,rfl⟩
  obtain ⟨⟨r2,w2⟩,hint⟩ : ∃ s, int 0x13 r1 (chunkPacket c lba w) = s := ⟨_,rfl⟩
  have hlba : lba < 2^32 := hebx ▸ r.ebx.isLt
  have hsi : low16 r1.esi = dapScratch := by
    rw [hr1,low16_setLow16]
    rfl
  have hpacket : dapAt (chunkPacket c lba w).memory (low16 r1.esi) = ⟨16,0,c,bounce,0,lba⟩ := by
    rw [hsi]
    exact chunkPacket_dap (by omega) hlba w
  have hallowed : (dapAt (chunkPacket c lba w).memory (low16 r1.esi)).Allowed := by
    rw [hpacket]
    constructor <;> simp only [Dap.buffer,bounce] <;> omega
  have hah : high8 r1.eax = 0x42 := by rw [hr1,high8_setHigh8]
  have hdl1 : low8 r1.edx = drive := by rw [hr1,hdl]
  have hanswer := hread r1 _ hah hdl1 hallowed
  have hcall := rmLoadChunk_eq r w hax hebx hr1 hint rfl
  rw [hpacket,hint] at hanswer
  have hfirst : Keeps (fun x => own x ∨ ChunkScratch x) w.memory (chunkPacket c lba w).memory :=
    (chunkPacket_keeps c lba w).mono fun _ hx => Or.inr (Or.inl hx)
  have hbuffer : Dap.buffer ⟨16,0,c,bounce,0,lba⟩ = bounce := by
    show 0*16+bounce = bounce
    omega
  dsimp only at hanswer
  rw [hbuffer] at hanswer
  obtain ⟨hcom1,hedi2,⟨-,hstatus,hdisk,hw⟩|⟨hcarry,hstatus,hkeeps⟩⟩ := hanswer
  · rw [hcall,if_neg (not_not.mpr hstatus)]
    refine ⟨hcom1,Or.inl ⟨low8_setLow8 _ _,hdisk,?_⟩⟩
    have hlen := read_length disk lba c
    have hbytes : number 4 w2.memory chunkBytes = c*512 := by
      rw [kept_number hquiet hw.keeps,chunkPacket_bytes hc]
      intro x hx
      rw [hlen]
      unfold Within chunkBytes bounce at *
      unfold Used Within
      omega
    have hdest2 : r2.edi.toNat = dest := by
      rw [← hedi,hedi2,hr1]
    have hcopied : stretch w2.memory bounce (c*512) = disk.read lba c := by
      have hthere := hw.there
      rwa [hlen] at hthere
    have hmove := movsb_writes (c*512) w2.memory bounce dest (by
      unfold bounce imagePhys at *
      omega)
    rw [hcopied] at hmove
    rw [hbytes,hdest2]
    refine ((hmove.mono fun _ => False.elim).before ?_)
    refine hfirst.trans (hw.keeps.mono ?_)
    rintro x (hown|hin)
    · exact Or.inl hown
    · rw [hlen] at hin
      exact Or.inr (Or.inr (hin.mono (by omega)))
  · rw [hcall,if_pos hstatus]
    refine ⟨hcom1,Or.inr ⟨?_,?_,?_⟩⟩
    · rw [low8_setHigh8,low8_setLow8]
      exact hstatus
    · refine hfirst.trans (hkeeps.mono ?_)
      rintro x (hown|hin)
      · exact Or.inl hown
      · exact Or.inr (Or.inr (hin.mono (by omega)))
    · rintro ⟨hreliable,hon⟩
      have hfine := hreliable r1 _ hah hdl1 hallowed (by rw [hpacket]; exact hon)
      rw [hint] at hfine
      exact Bool.false_ne_true (hfine.symm.trans hcarry)

def LoadScratch (x : ℕ) : Prop := Within remainingSectors 12 x ∨ ChunkScratch x

theorem noteChunk_dest (chunk : ℕ) (w : World σ) :
    number 4 (noteChunk chunk w).memory destPhys = (number 4 w.memory destPhys+chunk*512)%2^32 := by
  unfold noteChunk destPhys currentLba remainingSectors
  simp only [World.put_memory]
  rw [number_put_apart _ _ (by omega),number_put_apart _ _ (by omega),number_put]
  rfl

theorem noteChunk_lba (chunk : ℕ) (w : World σ) :
    number 4 (noteChunk chunk w).memory currentLba = (number 4 w.memory currentLba+chunk)%2^32 := by
  unfold noteChunk destPhys currentLba remainingSectors
  simp only [World.put_memory]
  rw [number_put_apart _ _ (by omega),number_put,number_put_apart _ _ (by omega)]
  rfl

theorem noteChunk_remaining (chunk : ℕ) (w : World σ) :
    number 4 (noteChunk chunk w).memory remainingSectors =
      (number 4 w.memory remainingSectors+(2^32-chunk))%2^32 := by
  unfold noteChunk destPhys currentLba remainingSectors
  simp only [World.put_memory]
  rw [number_put,number_put_apart _ _ (by omega),number_put_apart _ _ (by omega)]
  rfl

theorem noteChunk_keeps (chunk : ℕ) (w : World σ) :
    Keeps (Within remainingSectors 12) w.memory (noteChunk chunk w).memory := by
  unfold noteChunk destPhys currentLba remainingSectors
  refine ((keeps_put ?_).trans (keeps_put ?_)).trans (keeps_put ?_) <;>
  · intro x hx
    unfold Within at *
    omega

/-- The first sectors are in the image, and the cursors stand behind them. -/
structure Copied (own : ℕ → Prop) (drive : UInt8) (disk : Disk) (start : World σ) (lba k : ℕ)
    (w : World σ) : Prop where
  remaining : number 4 w.memory remainingSectors = imageSectors-k
  current : number 4 w.memory currentLba = lba+k
  dest : number 4 w.memory destPhys = imagePhys+k*512
  drive : w.memory driveByte = drive
  com1 : w.com1 = start.com1
  there : Writes (fun x => own x ∨ LoadScratch x) start.memory w.memory imagePhys (disk.read lba k)
  onDisk : k = 0 ∨ lba+k ≤ disk.sectors

theorem image_not_free (hquiet : Quiet own) {n : ℕ} (hn : n ≤ 0x800000) :
    ∀ x, Within imagePhys n x → ¬(own x ∨ LoadScratch x) := by
  rintro x hx (hown|hscratch)
  · exact hquiet x hown (by
      unfold Used
      exact Or.inr (Or.inr (Or.inr (Or.inr (Or.inr (hx.mono hn))))))
  · unfold LoadScratch ChunkScratch Within imagePhys remainingSectors dapScratch bounce at *
    omega

theorem copied_next (hquiet : Quiet own) {start w w' : World σ} {lba k c : ℕ}
    (h : Copied own drive disk start lba k w) (hle : k+c ≤ imageSectors)
    (hlba : lba+imageSectors < 2^32) (hcom1 : w'.com1 = w.com1) (hdisk : lba+k+c ≤ disk.sectors)
    (hw : Writes (fun x => own x ∨ ChunkScratch x) w.memory w'.memory (imagePhys+k*512)
      (disk.read (lba+k) c)) :
    Copied own drive disk start lba (k+c) (noteChunk c w') := by
  have hlen := read_length disk (lba+k) c
  have hnote := noteChunk_keeps c w'
  unfold imageSectors at hle hlba
  have hsame : ∀ a width, 0x400 ≤ a → a+width ≤ 0x440 →
      number width w'.memory a = number width w.memory a := by
    intro a width ha hw'
    refine hw.keeps.number ?_
    rintro x hx ((hown|hscratch)|hin)
    · refine hquiet x hown (Or.inl ?_)
      unfold Within at *
      omega
    · unfold ChunkScratch Within dapScratch bounce at *
      omega
    · unfold Within imagePhys at *
      omega
  constructor
  · rw [noteChunk_remaining,hsame _ _ (by unfold remainingSectors; omega)
      (by unfold remainingSectors; omega),h.remaining]
    unfold imageSectors
    omega
  · rw [noteChunk_lba,hsame _ _ (by unfold currentLba; omega) (by unfold currentLba; omega),
      h.current]
    omega
  · rw [noteChunk_dest,hsame _ _ (by unfold destPhys; omega) (by unfold destPhys; omega),h.dest]
    unfold imagePhys
    omega
  · have hdrive := hsame driveByte 1 (by unfold driveByte; omega) (by unfold driveByte; omega)
    rw [number_one,number_one] at hdrive
    rw [hnote _ (by unfold Within remainingSectors driveByte; omega),UInt8.toNat_inj.mp hdrive,
      h.drive]
  · exact hcom1.trans h.com1
  · have hlen' := read_length disk lba k
    have hpiece : Writes (fun x => own x ∨ LoadScratch x) w.memory w'.memory
        (imagePhys+(disk.read lba k).length) (disk.read (lba+k) c) := by
      rw [hlen']
      exact hw.mono fun x hx => hx.imp_right Or.inr
    have hall := h.there.append hpiece (image_not_free hquiet (by omega))
    rw [read_append] at hall
    refine hall.after (hnote.mono fun x hx => Or.inr (Or.inl hx)) (image_not_free hquiet ?_)
    rw [read_length]
    omega
  · exact Or.inr (by omega)

theorem loadLoop_copied (hquiet : Quiet own) (hread : Reads int own drive disk) {start : World σ}
    {lba : ℕ} (hlba : lba+imageSectors < 2^32) (h : Copied own drive disk start lba 0 start)
    (r : Regs) (fuel : ℕ) (hfuel : imageSectors < fuel) :
    ∃ result, run (loadTurn int) fuel (r,start) = some result ∧
      (∀ s, result = .ok s → Copied own drive disk start lba imageSectors s.2) ∧
      (∀ e, result = .error e → e.2.com1 = start.com1 ∧
        Keeps (fun x => own x ∨ LoadScratch x ∨ Within imagePhys 0x800000 x) start.memory
          e.2.memory) ∧
      (Reliable int drive disk → lba+imageSectors ≤ disk.sectors → ∃ s, result = .ok s) := by
  refine run_reaches (loadTurn int)
    (fun s => ∃ k, k ≤ imageSectors ∧ Copied own drive disk start lba k s.2)
    (fun s => number 4 s.2.memory remainingSectors) _ ?_ fuel (r,start) ⟨0,Nat.zero_le _,h⟩ (by
      have := h.remaining
      dsimp only
      omega)
  rintro ⟨r,w⟩ ⟨k,hk,hcopied⟩
  dsimp only at hcopied ⊢
  have hremaining := hcopied.remaining
  by_cases hzero : imageSectors-k = 0
  · obtain rfl : k = imageSectors := by omega
    right
    refine ⟨.ok (r,w),if_pos (hremaining.trans hzero),?_,?_,fun _ _ => ⟨_,rfl⟩⟩
    · intro s hs
      cases hs
      exact hcopied
    · intro e he
      cases he
  · obtain ⟨c,hc⟩ : ∃ c, c = if imageSectors-k ≤ 16 then imageSectors-k else 16 := ⟨_,rfl⟩
    have hrange : 0 < c ∧ c ≤ 16 ∧ k+c ≤ imageSectors := by
      split_ifs at hc <;> omega
    obtain ⟨hpos,hmost,hle⟩ := hrange
    obtain ⟨r1,hr1⟩ : ∃ r1, r1 = { r with
        eax := BitVec.ofNat 32 c,
        edx := setLow8 r.edx (w.memory driveByte),
        ebx := BitVec.ofNat 32 (lba+k),
        edi := BitVec.ofNat 32 (imagePhys+k*512) } := ⟨_,rfl⟩
    unfold imageSectors at hle hlba
    have hend : imagePhys+k*512+c*512 ≤ imagePhys+0x800000 := by omega
    have hax : low16 r1.eax = c := by
      rw [hr1,low16,BitVec.toNat_ofNat]
      omega
    have hebx : r1.ebx.toNat = lba+k := by
      rw [hr1,BitVec.toNat_ofNat,Nat.mod_eq_of_lt (by omega)]
    have hedi : r1.edi.toNat = imagePhys+k*512 := by
      rw [hr1,BitVec.toNat_ofNat,Nat.mod_eq_of_lt (by unfold imagePhys at *; omega)]
    have hdl : low8 r1.edx = drive := by rw [hr1,low8_setLow8,hcopied.drive]
    obtain ⟨hcom1,hcases⟩ := rmLoadChunk_cases hquiet hread r1 w hax hpos hmost hdl hebx hedi
      (Nat.le_add_right _ _) hend
    obtain ⟨⟨r2,w2⟩,hload⟩ : ∃ s, rmLoadChunk int r1 w = s := ⟨_,rfl⟩
    have hturn : loadTurn int (r,w) =
        if low8 r2.eax ≠ 0 then .stop (.error (low8 r2.eax,w2))
        else .go (r2,noteChunk c w2) := by
      rw [loadTurn]
      dsimp only
      rw [hremaining,if_neg hzero,← hc,hcopied.current,hcopied.dest,← hr1,hload]
    rw [hload] at hcom1 hcases
    dsimp only at hcom1 hcases
    rcases hcases with ⟨hstatus,hdisk,hw⟩|⟨hstatus,hkeeps,hnot⟩
    · left
      rw [hturn,if_neg (not_not.mpr hstatus)]
      have hmore := copied_next hquiet hcopied hle hlba hcom1 hdisk hw
      refine ⟨_,rfl,⟨k+c,hle,hmore⟩,?_⟩
      rw [hmore.remaining,hremaining]
      omega
    · right
      rw [hturn,if_pos hstatus]
      refine ⟨_,rfl,?_,?_,?_⟩
      · intro s hs
        cases hs
      · intro e he
        cases he
        refine ⟨hcom1.trans hcopied.com1,(hcopied.there.keeps.mono ?_).trans (hkeeps.mono ?_)⟩
        · rintro x ((hown|hscratch)|hin)
          · exact Or.inl hown
          · exact Or.inr (Or.inl hscratch)
          · rw [read_length] at hin
            exact Or.inr (Or.inr (hin.mono (by unfold imageSectors at hk; omega)))
        · rintro x (hown|hscratch)
          · exact Or.inl hown
          · exact Or.inr (Or.inl (Or.inr hscratch))
      · intro hreliable hon
        unfold imageSectors at hon
        exact (hnot ⟨hreliable,by omega⟩).elim

end Chunk

end Zamak.BundleFilling
