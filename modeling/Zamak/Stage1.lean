import Zamak.BiosServices
import Zamak.Install
import Zamak.PartialSteps

/-! # The boot record

The 512 bytes that the BIOS loads at `0x7C00` and starts. They read stage 2 to `0x8000`, as
much as the installer said and from where it said, and jump there. What was installed on a
disk is what is started from it. -/

set_option autoImplicit false

namespace Zamak.Stage1
open Zamak.ByteMemory Zamak.BiosServices Zamak.PartialSteps Zamak.Segments Zamak.TagStreams
open Zamak.Install Zamak.WindowSearch

def ascii (s : String) : List UInt8 := s.toList.map fun c => UInt8.ofNat c.toNat

def msgWelcome : List UInt8 := ascii "ZAMAK Stage 1\r\n"
def msgDrive : List UInt8 := ascii "DL="
def msgJumping : List UInt8 := ascii "Loading Stage 2...\r\n"
def msgErrRead : List UInt8 := ascii "Disk Read Error!\r\nAH="
def msgNoExt : List UInt8 := ascii "INT 13h extensions NOT supported!\r\n"

def mbrBase : ℕ := 0x7C00
def stage2Base : ℕ := 0x8000

/-- Where the assembler puts the saved drive and the disk address packet: in front of the
fields that the installer patches. -/
structure Layout where
  bootDrive : ℕ
  dap : ℕ
  drive_in : mbrBase ≤ bootDrive ∧ bootDrive < mbrBase+mbrStage2LbaOffset
  dap_in : mbrBase ≤ dap ∧ dap+16 ≤ mbrBase+mbrStage2LbaOffset
  apart : bootDrive < dap ∨ dap+16 ≤ bootDrive

/-- Control goes to stage 2, with the drive in `DL`, or the processor halts. -/
inductive Ending (σ : Type) where
  | stage2 (dl : UInt8) (w : World σ)
  | halted (w : World σ)

section Code
variable {σ : Type} (int : Interrupts σ) (l : Layout)

def printString : List UInt8 → Regs × World σ → Regs × World σ
  | [], s => s
  | b::bytes, (r,w) =>
    let (r,w) := int 0x10 { r with eax := setHigh8 (setLow8 r.eax b) 0x0E,
                                   ebx := setLow16 r.ebx 0x0007 } w
    printString bytes (r,w.out (low8 r.eax))

def hexNibble (b : UInt8) : UInt8 :=
  let b := (b &&& 0x0F)+0x30
  if b ≤ 0x39 then b else b+7

def printHexByte (b : UInt8) (w : World σ) : World σ :=
  (w.out (hexNibble (b >>> 4))).out (hexNibble (b &&& 0x0F))

/-- One turn of `read_loop`, with `CX` in front. The carry of a read stops it. -/
def readTurn : ℕ × Regs × World σ → Turn (ℕ × Regs × World σ) (Except (Regs × World σ) (Regs × World σ))
  | (cx,r,w) =>
    if cx = 0 then .stop (.ok (r,w))
    else
      let ax := if 64 ≤ cx then 64 else cx
      let w := w.put 2 (l.dap+2) ax
      let (r,w) := int 0x13 { r with eax := setHigh8 (setLow16 r.eax ax) 0x42,
                                     edx := setLow8 r.edx (w.memory l.bootDrive),
                                     esi := setLow16 r.esi l.dap } w
      if r.carry then .stop (.error (r,w))
      else
        let count := number 2 w.memory (l.dap+2)
        let w := w.put 4 (l.dap+8) (number 4 w.memory (l.dap+8)+count)
        let w := w.put 2 (l.dap+6) (number 2 w.memory (l.dap+6)+count*2^5%2^16)
        .go ((cx+(2^16-number 2 w.memory (l.dap+2)))%2^16,r,w)

def finish : Except (Regs × World σ) (Regs × World σ) → Ending σ
  | .error s =>
    -- the status of the read is gone by now: printing the message has changed `AH`
    let s := printString int msgErrRead s
    .halted (((printHexByte (high8 s.1.eax) s.2).out 0x0D).out 0x0A)
  | .ok s =>
    let s := printString int msgJumping s
    .stage2 (s.2.memory l.bootDrive) s.2

def prepare (w : World σ) : World σ :=
  let w := w.put 4 (l.dap+8) (number 4 w.memory (mbrBase+mbrStage2LbaOffset))
  let w := w.put 2 (l.dap+4) 0
  w.put 2 (l.dap+6) 0x0800

def mbrStart (fuel : ℕ) (dl : UInt8) (r : Regs) (w : World σ) : Option (Ending σ) :=
  let w := w.put 1 l.bootDrive dl.toNat
  let s := printString int msgWelcome (r,w)
  let (r,w) := printString int msgDrive s
  let w := ((printHexByte (w.memory l.bootDrive) w).out 0x0D).out 0x0A
  let (r,w) := int 0x13 { r with eax := setHigh8 r.eax 0x41, ebx := setLow16 r.ebx 0x55AA,
                                 edx := setLow8 r.edx (w.memory l.bootDrive) } w
  if r.carry ∨ low16 r.ebx ≠ 0xAA55 then some (.halted (printString int msgNoExt (r,w)).2)
  else
    let cx := number 2 w.memory (mbrBase+mbrStage2SizeOffset)
    (run (readTurn int l) fuel (cx,r,prepare l w)).map (finish int l)

end Code

/-! ## The read loop -/

/-- What a boot record holds for its own packet: the size, and no high half of the place. -/
structure Template (l : Layout) (memory : Memory) : Prop where
  size : number 1 memory l.dap = 16
  reserved : number 1 memory (l.dap+1) = 0
  high : number 4 memory (l.dap+12) = 0

section Loop
variable {σ : Type} {int : Interrupts σ} {l : Layout} {own : ℕ → Prop} {drive : UInt8}
  {disk : Disk}

def Free (own : ℕ → Prop) (l : Layout) (x : ℕ) : Prop := own x ∨ Within l.dap 16 x

/-- The first sectors are in place, and the packet is set for the next ones. -/
structure Loaded (l : Layout) (own : ℕ → Prop) (drive : UInt8) (disk : Disk) (start : World σ)
    (lba k : ℕ) (w : World σ) : Prop where
  template : Template l w.memory
  offset : number 2 w.memory (l.dap+4) = 0
  segment : number 2 w.memory (l.dap+6) = 0x800+32*k
  low : number 4 w.memory (l.dap+8) = lba+k
  drive : w.memory l.bootDrive = drive
  com1 : w.com1 = start.com1
  there : Writes (Free own l) start.memory w.memory stage2Base (disk.read lba k)

/-- The firmware stays out of the boot record and out of the place of stage 2, which ends below
the memory of the screen: 1216 sectors at most, where the installer takes up to 65535. -/
structure Room (own : ℕ → Prop) (n : ℕ) : Prop where
  record : ∀ x, Within mbrBase 512 x → ¬own x
  stage2 : ∀ x, Within stage2Base (n*512) x → ¬own x
  low : stage2Base+n*512 ≤ 0xA0000

theorem dap_not_own {n : ℕ} (hroom : Room own n) {a width : ℕ} (ha : l.dap ≤ a)
    (hw : a+width ≤ l.dap+16) : ∀ x, Within a width x → ¬own x := by
  rintro x ⟨hlow,hhigh⟩
  have hdap := l.dap_in
  unfold mbrBase mbrStage2LbaOffset at hdap
  exact hroom.record x ⟨by unfold mbrBase; omega,by unfold mbrBase; omega⟩

/-- A number in the packet is not touched by what is written behind the boot record. -/
theorem dap_number {m m' : Memory} {n dest : ℕ} {items : List UInt8} (hroom : Room own n)
    (h : Writes own m m' dest items) (hdest : stage2Base ≤ dest) {a width : ℕ} (ha : l.dap ≤ a)
    (hw : a+width ≤ l.dap+16) : number width m' a = number width m a := by
  refine h.number fun x hx => ⟨dap_not_own hroom ha hw x hx,?_⟩
  rintro ⟨hlow,-⟩
  have hdap := l.dap_in
  have hhigh := hx.2
  unfold mbrBase mbrStage2LbaOffset stage2Base at *
  omega

theorem packet {start w : World σ} {lba k : ℕ} (h : Loaded l own drive disk start lba k w) (c : ℕ)
    (hc : c < 2^16) :
    dapAt (w.put 2 (l.dap+2) c).memory l.dap = ⟨16,0,c,0,0x800+32*k,lba+k⟩ := by
  have hlba : number 8 w.memory (l.dap+8) = lba+k := by
    rw [number_add w.memory 4 4,h.low,h.template.high,Nat.mul_zero,Nat.add_zero]
  rw [dapAt,World.put_memory,number_put_of_lt w.memory _ hc,
    number_put_apart w.memory _ (Or.inl (by omega)),number_put_apart w.memory _ (Or.inl (by omega)),
    number_put_apart w.memory _ (Or.inr (by omega)),number_put_apart w.memory _ (Or.inr (by omega)),
    number_put_apart w.memory _ (Or.inr (by omega)),h.template.size,h.template.reserved,h.offset,
    h.segment,hlba]

theorem packet_allowed {n k c : ℕ} (lba : ℕ) (hroom : Room own n) (hk : k%64 = 0) (hc : 0 < c)
    (hmost : c ≤ 64) (hle : k+c ≤ n) : Dap.Allowed ⟨16,0,c,0,0x800+32*k,lba⟩ := by
  have hlow := hroom.low
  unfold stage2Base at hlow
  constructor <;> simp only [Dap.buffer] <;> omega

theorem moved {start w : World σ} {lba k c n : ℕ} (h : Loaded l own drive disk start lba k w)
    (hroom : Room own n) (hlba : lba+n < 2^32) (hle : k+c ≤ n) (hc : c ≤ 64)
    (w' : World σ) (hcom1 : w'.com1 = w.com1)
    (hw : Writes own (w.put 2 (l.dap+2) c).memory w'.memory (stage2Base+k*512)
      (disk.read (lba+k) c)) :
    number 2 w'.memory (l.dap+2) = c ∧
    Loaded l own drive disk start lba (k+c)
      ((w'.put 4 (l.dap+8) (number 4 w'.memory (l.dap+8)+c)).put 2 (l.dap+6)
        (number 2 (w'.put 4 (l.dap+8) (number 4 w'.memory (l.dap+8)+c)).memory (l.dap+6)+
          c*2^5%2^16)) := by
  have hlow := hroom.low
  have hdap := l.dap_in
  have hdrive := l.drive_in
  have happ := l.apart
  have hdest : stage2Base ≤ stage2Base+k*512 := Nat.le_add_right _ _
  have hkept : ∀ a width, l.dap ≤ a → a+width ≤ l.dap+16 →
      number width w'.memory a = number width (w.put 2 (l.dap+2) c).memory a :=
    fun a width ha hw' => dap_number hroom hw hdest ha hw'
  have hcount : number 2 w'.memory (l.dap+2) = c := by
    rw [hkept _ _ (by omega) (by omega),World.put_memory,number_put_of_lt _ _ (by omega)]
  have hsame : ∀ a width, l.dap ≤ a → a+width ≤ l.dap+16 → a+width ≤ l.dap+2 ∨ l.dap+4 ≤ a →
      number width w'.memory a = number width w.memory a := by
    intro a width ha hw' hside
    rw [hkept a width ha hw',World.put_memory,number_put_apart _ _ (by omega)]
  have hother : ∀ a width v v', l.dap ≤ a → a+width ≤ l.dap+16 → a+width ≤ l.dap+2 ∨ l.dap+4 ≤ a →
      a+width ≤ l.dap+6 ∨ l.dap+12 ≤ a →
      number width ((w'.put 4 (l.dap+8) v).put 2 (l.dap+6) v').memory a =
        number width w.memory a := by
    intro a width v v' ha hw' hside hside'
    rw [World.put_memory,number_put_apart _ _ (by omega),World.put_memory,
      number_put_apart _ _ (by omega),hsame a width ha hw' hside]
  have hsegment : number 2 w'.memory (l.dap+6) = 0x800+32*k :=
    (hsame _ _ (by omega) (by omega) (Or.inr (by omega))).trans h.segment
  have hplace : number 4 w'.memory (l.dap+8) = lba+k :=
    (hsame _ _ (by omega) (by omega) (Or.inr (by omega))).trans h.low
  have hin : ∀ a width, l.dap ≤ a → a+width ≤ l.dap+16 → ∀ x, Within a width x → Free own l x :=
    fun a width ha hw' x hx => Or.inr ⟨le_trans ha hx.1,lt_of_lt_of_le hx.2 hw'⟩
  have hnot : ∀ x, Within stage2Base (n*512) x → ¬Free own l x := by
    rintro x hx (hown|⟨-,hhigh⟩)
    · exact hroom.stage2 x hx hown
    · have hx' := hx.1
      unfold mbrBase mbrStage2LbaOffset stage2Base at *
      omega
  unfold stage2Base at hlow
  refine ⟨hcount,⟨⟨?_,?_,?_⟩,?_,?_,?_,?_,?_,?_⟩⟩
  · rw [hother _ _ _ _ (by omega) (by omega) (by omega) (by omega)]
    exact h.template.size
  · rw [hother _ _ _ _ (by omega) (by omega) (by omega) (by omega)]
    exact h.template.reserved
  · rw [hother _ _ _ _ (by omega) (by omega) (by omega) (by omega)]
    exact h.template.high
  · rw [hother _ _ _ _ (by omega) (by omega) (by omega) (by omega)]
    exact h.offset
  · rw [World.put_memory,number_put,World.put_memory,number_put_apart _ _ (by omega),hsegment]
    omega
  · rw [World.put_memory,number_put_apart _ _ (by omega),World.put_memory,number_put,hplace]
    omega
  · have hdest' : ¬Within (stage2Base+k*512) (disk.read (lba+k) c).length l.bootDrive := by
      rintro ⟨hge,-⟩
      unfold mbrBase mbrStage2LbaOffset stage2Base at *
      omega
    have hown : ¬own l.bootDrive := by
      unfold mbrBase mbrStage2LbaOffset at *
      exact hroom.record _ ⟨by unfold mbrBase; omega,by unfold mbrBase; omega⟩
    rw [World.put_memory,put_apart _ _ (by unfold Within; omega),World.put_memory,
      put_apart _ _ (by unfold Within; omega),
      hw.keeps _ (fun hfree => hfree.elim hown hdest'),World.put_memory,
      put_apart _ _ (by unfold Within; omega),h.drive]
  · exact hcom1.trans h.com1
  · have hlen := read_length disk lba k
    have hpiece : Writes (Free own l) w.memory w'.memory (stage2Base+(disk.read lba k).length)
        (disk.read (lba+k) c) := by
      rw [hlen]
      exact (hw.mono fun _ => Or.inl).before (keeps_put (hin _ _ (by omega) (by omega)))
    have hle' : k*512 ≤ n*512 ∧ (k+c)*512 ≤ n*512 := by omega
    have hall := h.there.append hpiece fun x hx => hnot x (hx.mono (hlen.trans_le hle'.1))
    rw [read_append] at hall
    have hnew : ∀ x, Within stage2Base (disk.read lba (k+c)).length x → ¬Free own l x :=
      fun x hx => hnot x (hx.mono ((read_length disk lba (k+c)).trans_le hle'.2))
    exact (hall.after (keeps_put (hin _ _ (by omega) (by omega))) hnew).after
      (keeps_put (hin _ _ (by omega) (by omega))) hnew

/-- A turn with sectors left reads the next ones, or ends with an error that the firmware
reported. -/
theorem readTurn_cases {start w : World σ} {lba k n : ℕ} (hread : Reads int own drive disk)
    (hroom : Room own n) (hlba : lba+n < 2^32) (h : Loaded l own drive disk start lba k w)
    (hk : k < n) (hmult : k%64 = 0) (r : Regs) :
    (∃ c r' w', 0 < c ∧ k+c ≤ n ∧ ((k+c)%64 = 0 ∨ k+c = n) ∧
      readTurn int l (n-k,r,w) = .go (n-(k+c),r',w') ∧
      Loaded l own drive disk start lba (k+c) w') ∨
    ((∃ s, readTurn int l (n-k,r,w) = .stop (.error s)) ∧
      ¬(Reliable int drive disk ∧ lba+n ≤ disk.sectors)) := by
  have hlow := hroom.low
  have hdap := l.dap_in
  unfold stage2Base at hlow
  unfold mbrBase mbrStage2LbaOffset at hdap
  obtain ⟨c,hc⟩ : ∃ c, c = if 64 ≤ n-k then 64 else n-k := ⟨_,rfl⟩
  have hpos : 0 < c ∧ c ≤ 64 ∧ k+c ≤ n ∧ ((k+c)%64 = 0 ∨ k+c = n) := by
    split_ifs at hc <;> omega
  obtain ⟨hpos,hmost,hle,hnext⟩ := hpos
  obtain ⟨r1,hr1⟩ : ∃ r1, r1 = { r with
      eax := setHigh8 (setLow16 r.eax c) 0x42,
      edx := setLow8 r.edx ((w.put 2 (l.dap+2) c).memory l.bootDrive),
      esi := setLow16 r.esi l.dap } := ⟨_,rfl⟩
  have hdrive : (w.put 2 (l.dap+2) c).memory l.bootDrive = drive := by
    have happ := l.apart
    rw [World.put_memory,put_apart _ _ (by unfold Within; omega),h.drive]
  have hsi : low16 r1.esi = l.dap := by
    rw [hr1,low16_setLow16]
    omega
  have hpacket : dapAt (w.put 2 (l.dap+2) c).memory (low16 r1.esi) =
      ⟨16,0,c,0,0x800+32*k,lba+k⟩ := by
    rw [hsi]
    exact packet h c (by omega)
  have hallowed : (dapAt (w.put 2 (l.dap+2) c).memory (low16 r1.esi)).Allowed := by
    rw [hpacket]
    exact packet_allowed _ hroom hmult hpos hmost hle
  have hah : high8 r1.eax = 0x42 := by rw [hr1,high8_setHigh8]
  have hdl : low8 r1.edx = drive := by rw [hr1,low8_setLow8,hdrive]
  have hanswer := hread r1 _ hah hdl hallowed
  obtain ⟨⟨r2,w2⟩,hint⟩ : ∃ s, int 0x13 r1 (w.put 2 (l.dap+2) c) = s := ⟨_,rfl⟩
  have hturn : readTurn int l (n-k,r,w) =
      if r2.carry then .stop (.error (r2,w2))
      else
        let count := number 2 w2.memory (l.dap+2)
        let w' := w2.put 4 (l.dap+8) (number 4 w2.memory (l.dap+8)+count)
        let w' := w'.put 2 (l.dap+6) (number 2 w'.memory (l.dap+6)+count*2^5%2^16)
        .go ((n-k+(2^16-number 2 w'.memory (l.dap+2)))%2^16,r2,w') := by
    rw [readTurn,if_neg (by omega),← hc]
    dsimp only
    rw [← hr1,hint]
  rw [hpacket,hint] at hanswer
  obtain ⟨hcom1,-,⟨hcarry,-,-,hw⟩|⟨hcarry,-,-⟩⟩ := hanswer
  · left
    have hbuffer : Dap.buffer ⟨16,0,c,0,0x800+32*k,lba+k⟩ = stage2Base+k*512 := by
      show (0x800+32*k)*16+0 = 0x8000+k*512
      omega
    rw [hbuffer] at hw
    obtain ⟨hcount,hloaded⟩ := moved h hroom hlba hle hmost w2 hcom1 hw
    have hleft : number 2 ((w2.put 4 (l.dap+8) (number 4 w2.memory (l.dap+8)+c)).put 2 (l.dap+6)
        (number 2 (w2.put 4 (l.dap+8) (number 4 w2.memory (l.dap+8)+c)).memory (l.dap+6)+
          c*2^5%2^16)).memory (l.dap+2) = c := by
      rw [World.put_memory,number_put_apart _ _ (by omega),World.put_memory,
        number_put_apart _ _ (by omega),hcount]
    refine ⟨c,r2,_,hpos,hle,hnext,?_,hloaded⟩
    rw [hturn,if_neg (Bool.not_eq_true _ ▸ hcarry)]
    simp only [hcount,hleft]
    congr 2
    omega
  · right
    refine ⟨⟨_,by rw [hturn,if_pos hcarry]⟩,?_⟩
    rintro ⟨hreliable,hon⟩
    have hfine := hreliable r1 _ hah hdl hallowed (by
      rw [hpacket]
      show lba+k+c ≤ _
      omega)
    rw [hint] at hfine
    exact Bool.false_ne_true (hfine.symm.trans hcarry)

theorem readLoop_loaded {start : World σ} {lba n : ℕ} (hread : Reads int own drive disk)
    (hroom : Room own n) (hlba : lba+n < 2^32) (h : Loaded l own drive disk start lba 0 start)
    (r : Regs) (fuel : ℕ) (hfuel : n < fuel) :
    ∃ result, run (readTurn int l) fuel (n,r,start) = some result ∧
      (∀ s, result = .ok s → Loaded l own drive disk start lba n s.2) ∧
      (Reliable int drive disk → lba+n ≤ disk.sectors → ∃ s, result = .ok s) := by
  -- `CX` counts the sectors that are left, and only the last turn reads fewer than 64
  refine run_reaches (readTurn int l)
    (fun s => ∃ k, k ≤ n ∧ s.1 = n-k ∧ (k%64 = 0 ∨ k = n) ∧
      Loaded l own drive disk start lba k s.2.2) (fun s => s.1) _ ?_ fuel (n,r,start)
    ⟨0,Nat.zero_le n,rfl,Or.inl rfl,h⟩ hfuel
  rintro ⟨cx,r,w⟩ ⟨k,hk,hcx,hmult,hloaded⟩
  dsimp only at hcx hloaded
  subst hcx
  by_cases hlt : k < n
  · rcases readTurn_cases hread hroom hlba hloaded hlt (hmult.resolve_right (by omega)) r with
      ⟨c,r',w',hpos,hle,hnext,hturn,hmore⟩|⟨⟨e,hturn⟩,hnot⟩
    · exact Or.inl ⟨_,hturn,⟨k+c,hle,rfl,hnext,hmore⟩,by dsimp only; omega⟩
    · refine Or.inr ⟨_,hturn,?_,fun hrel hon => (hnot ⟨hrel,hon⟩).elim⟩
      intro s hs
      cases hs
  · obtain rfl : k = n := by omega
    refine Or.inr ⟨.ok (r,w),if_pos (Nat.sub_self k),?_,fun _ _ => ⟨_,rfl⟩⟩
    intro s hs
    cases hs
    exact hloaded

end Loop

/-! ## From the start to the jump -/

section Start
variable {σ : Type} {int : Interrupts σ} {l : Layout} {own : ℕ → Prop} {drive : UInt8}
  {disk : Disk}

theorem printString_prints (htty : Teletype int own) (bytes : List UInt8) (r : Regs)
    (w : World σ) : (printString int bytes (r,w)).2.com1 = w.com1++bytes ∧
      Keeps own w.memory (printString int bytes (r,w)).2.memory := by
  induction bytes generalizing r w with
  | nil => exact ⟨(List.append_nil _).symm,Keeps.refl _⟩
  | cons b bytes ih =>
    obtain ⟨r1,hr1⟩ : ∃ r1, r1 = { r with eax := setHigh8 (setLow8 r.eax b) 0x0E,
                                           ebx := setLow16 r.ebx 0x0007 } := ⟨_,rfl⟩
    obtain ⟨hal,hcom1,hkeeps⟩ := htty r1 w (by rw [hr1,high8_setHigh8])
    obtain ⟨hrest,hrest'⟩ := ih (int 0x10 r1 w).1 ((int 0x10 r1 w).2.out (low8 (int 0x10 r1 w).1.eax))
    have hstep : printString int (b::bytes) (r,w) =
        printString int bytes ((int 0x10 r1 w).1,
          (int 0x10 r1 w).2.out (low8 (int 0x10 r1 w).1.eax)) := by
      rw [hr1]
      rfl
    have hb : low8 r1.eax = b := by rw [hr1,low8_setHigh8,low8_setLow8]
    rw [hstep]
    constructor
    · rw [hrest,World.out_com1,hcom1,hal,hb,List.append_assoc]
      rfl
    · exact hkeeps.trans hrest'

def log (dl : UInt8) : List UInt8 :=
  msgWelcome++msgDrive++[hexNibble (dl >>> 4),hexNibble (dl &&& 0x0F),0x0D,0x0A]++msgJumping

structure Started (disk : Disk) (lba n : ℕ) (before : World σ) (drive dl : UInt8)
    (after : World σ) : Prop where
  inDl : dl = drive
  there : stretch after.memory stage2Base (n*512) = disk.read lba n
  com1 : after.com1 = before.com1++log drive

theorem prepared {lba n : ℕ} (hroom : Room own n) {w w' : World σ} (htemplate : Template l w.memory)
    (hplace : number 4 w.memory (mbrBase+mbrStage2LbaOffset) = lba)
    (hkeeps : Keeps (fun x => own x ∨ Within l.bootDrive 1 x) w.memory w'.memory)
    (hdrive : w'.memory l.bootDrive = drive) :
    Loaded l own drive disk (prepare l w') lba 0 (prepare l w') := by
  have hdap := l.dap_in
  have hboot := l.drive_in
  have happ := l.apart
  have hlt : lba < 256^4 := hplace ▸ number_lt w.memory 4 _
  unfold mbrBase mbrStage2LbaOffset at *
  have hsame : ∀ a width, mbrBase ≤ a → a+width ≤ mbrBase+512 →
      a+width ≤ l.bootDrive ∨ l.bootDrive < a →
      number width w'.memory a = number width w.memory a := by
    intro a width ha hw hside
    refine hkeeps.number ?_
    rintro x ⟨hx,hx'⟩ (hown|⟨hge,hle⟩)
    · exact hroom.record x ⟨by omega,by omega⟩ hown
    · omega
  have hlba : number 4 w'.memory (0x7C00+440) = lba := by
    rw [hsame _ _ (by unfold mbrBase; omega) (by unfold mbrBase; omega) (by omega)]
    exact hplace
  have hother : ∀ a width, l.dap ≤ a → a+width ≤ l.dap+16 → a+width ≤ l.dap+4 ∨ l.dap+12 ≤ a →
      number width (prepare l w').memory a = number width w.memory a := by
    intro a width ha hw hside
    rw [prepare,World.put_memory,number_put_apart _ _ (by omega),World.put_memory,
      number_put_apart _ _ (by omega),World.put_memory,number_put_apart _ _ (by omega),
      hsame a width (by unfold mbrBase; omega) (by unfold mbrBase; omega) (by omega)]
  refine ⟨⟨?_,?_,?_⟩,?_,?_,?_,?_,rfl,?_⟩
  · rw [hother _ _ (by omega) (by omega) (by omega)]
    exact htemplate.size
  · rw [hother _ _ (by omega) (by omega) (by omega)]
    exact htemplate.reserved
  · rw [hother _ _ (by omega) (by omega) (by omega)]
    exact htemplate.high
  · rw [prepare,World.put_memory,number_put_apart _ _ (by omega),World.put_memory,number_put]
    rfl
  · rw [prepare,World.put_memory,number_put]
    rfl
  · rw [prepare,World.put_memory,number_put_apart _ _ (by omega),World.put_memory,
      number_put_apart _ _ (by omega),World.put_memory,number_put]
    unfold mbrBase mbrStage2LbaOffset
    rw [hlba,Nat.mod_eq_of_lt hlt]
    rfl
  · rw [prepare,World.put_memory,put_apart _ _ (by unfold Within; omega),World.put_memory,
      put_apart _ _ (by unfold Within; omega),World.put_memory,
      put_apart _ _ (by unfold Within; omega),hdrive]
  · rw [Disk.read,Nat.zero_mul,stretch_zero]
    exact Writes.none (Keeps.refl _)

theorem mbrStart_starts (hread : Reads int own drive disk) (hext : HasExtensions int own drive)
    (htty : Teletype int own) {lba n : ℕ} (hroom : Room own n) (hlba : lba+n < 2^32) (r : Regs)
    (w : World σ) (htemplate : Template l w.memory)
    (hplace : number 4 w.memory (mbrBase+mbrStage2LbaOffset) = lba)
    (hsize : number 2 w.memory (mbrBase+mbrStage2SizeOffset) = n) (fuel : ℕ) (hfuel : n < fuel) :
    ∃ ending, mbrStart int l fuel drive r w = some ending ∧
      (∀ dl after, ending = .stage2 dl after → Started disk lba n w drive dl after) ∧
      (Reliable int drive disk → lba+n ≤ disk.sectors → ∃ after, ending = .stage2 drive after) := by
  have hboot := l.drive_in
  have hlow := hroom.low
  obtain ⟨w0,hw0⟩ : ∃ w0, w0 = w.put 1 l.bootDrive drive.toNat := ⟨_,rfl⟩
  obtain ⟨⟨r1,w1⟩,hs1⟩ : ∃ s, printString int msgWelcome (r,w0) = s := ⟨_,rfl⟩
  obtain ⟨⟨r2,w2⟩,hs2⟩ : ∃ s, printString int msgDrive (r1,w1) = s := ⟨_,rfl⟩
  obtain ⟨w3,hw3⟩ : ∃ w3, w3 =
      ((printHexByte (w2.memory l.bootDrive) w2).out 0x0D).out 0x0A := ⟨_,rfl⟩
  obtain ⟨r3,hr3⟩ : ∃ r3, r3 = { r2 with
      eax := setHigh8 r2.eax 0x41, ebx := setLow16 r2.ebx 0x55AA,
      edx := setLow8 r2.edx (w3.memory l.bootDrive) } := ⟨_,rfl⟩
  obtain ⟨⟨r4,w4⟩,hs4⟩ : ∃ s, int 0x13 r3 w3 = s := ⟨_,rfl⟩
  obtain ⟨hcom1,hkeeps1⟩ := printString_prints htty msgWelcome r w0
  obtain ⟨hcom2,hkeeps2⟩ := printString_prints htty msgDrive r1 w1
  rw [hs1] at hcom1 hkeeps1
  rw [hs2] at hcom2 hkeeps2
  have hnotOwn : ¬own l.bootDrive := by
    unfold mbrBase mbrStage2LbaOffset at hboot
    exact hroom.record _ ⟨by unfold mbrBase; omega,by unfold mbrBase; omega⟩
  have hsaved : w0.memory l.bootDrive = drive := by
    rw [hw0,World.put_memory,put_byte]
  have hdrive2 : w2.memory l.bootDrive = drive :=
    (hkeeps2 _ hnotOwn).trans ((hkeeps1 _ hnotOwn).trans hsaved)
  have hmem3 : w3.memory = w2.memory := by rw [hw3]; rfl
  have hcom3 : w3.com1 = w.com1++msgWelcome++msgDrive++
      [hexNibble (drive >>> 4),hexNibble (drive &&& 0x0F),0x0D,0x0A] := by
    have hprint : w3.com1 = w2.com1++[hexNibble (drive >>> 4)]++[hexNibble (drive &&& 0x0F)]++
        [0x0D]++[0x0A] := by
      rw [hw3,hdrive2]
      rfl
    rw [hprint,hcom2,hcom1,hw0,World.put_com1]
    simp only [List.append_assoc,List.cons_append,List.nil_append]
  obtain ⟨hcarry,hbx,hcom4,hkeeps4⟩ := hext r3 w3 (by rw [hr3,high8_setHigh8])
    (by rw [hr3,low16_setLow16]) (by rw [hr3,low8_setLow8,hmem3,hdrive2])
  rw [hs4] at hcarry hbx hcom4 hkeeps4
  have hdrive4 : w4.memory l.bootDrive = drive :=
    (hkeeps4 _ hnotOwn).trans ((congrFun hmem3 _).trans hdrive2)
  have hkeeps : Keeps (fun x => own x ∨ Within l.bootDrive 1 x) w.memory w4.memory := by
    have hfirst : Keeps (fun x => own x ∨ Within l.bootDrive 1 x) w.memory w0.memory := by
      rw [hw0]
      exact keeps_put fun _ => Or.inr
    have hrest : Keeps own w0.memory w4.memory :=
      (hkeeps1.trans hkeeps2).trans (hmem3 ▸ hkeeps4)
    exact hfirst.trans (hrest.mono fun _ => Or.inl)
  have hcx : number 2 w4.memory (mbrBase+mbrStage2SizeOffset) = n := by
    rw [← hsize]
    refine hkeeps.number ?_
    unfold mbrBase mbrStage2LbaOffset mbrStage2SizeOffset at *
    rintro x ⟨hx,hx'⟩ (hown|⟨hge,hle⟩)
    · exact hroom.record x ⟨by unfold mbrBase; omega,by unfold mbrBase; omega⟩ hown
    · omega
  have hloaded : Loaded l own drive disk (prepare l w4) lba 0 (prepare l w4) :=
    prepared hroom htemplate hplace hkeeps hdrive4
  obtain ⟨result,hrun,hok,hfine⟩ := readLoop_loaded hread hroom hlba hloaded r4 fuel hfuel
  have hstart : mbrStart int l fuel drive r w = some (finish int l result) := by
    have hgo : ¬(r4.carry ∨ low16 r4.ebx ≠ 0xAA55) := by
      rw [hcarry,hbx]
      decide
    rw [mbrStart]
    dsimp only
    rw [← hw0,hs1,hs2]
    dsimp only
    rw [← hw3,← hr3,hs4]
    dsimp only
    rw [if_neg hgo,hcx,hrun]
    rfl
  refine ⟨_,hstart,?_,?_⟩
  · intro dl after hending
    cases result with
    | error s => cases hending
    | ok s =>
      obtain ⟨r5,w5⟩ := s
      have hin := hok _ rfl
      obtain ⟨hcom,hkept⟩ := printString_prints htty msgJumping r5 w5
      cases hending
      refine ⟨(hkept _ hnotOwn).trans hin.drive,?_,?_⟩
      · rw [hkept.stretch hroom.stage2]
        have hthere := hin.there.there
        rwa [read_length] at hthere
      · rw [hcom,hin.com1]
        show w4.com1++_ = _
        rw [hcom4,hcom3,log]
        simp only [List.append_assoc]
  · intro hreliable hon
    obtain ⟨⟨r5,w5⟩,rfl⟩ := hfine hreliable hon
    have hin := hok _ rfl
    obtain ⟨-,hkept⟩ := printString_prints htty msgJumping r5 w5
    refine ⟨(printString int msgJumping (r5,w5)).2,?_⟩
    show Ending.stage2 _ _ = _
    rw [(hkept _ hnotOwn).trans hin.drive]

end Start

/-! ## What was installed -/

section Installed
variable {inp : Inputs} {target : Option (List UInt8)} {content : List UInt8}

theorem valid_of_run {data : Report} {after : Option (List UInt8)}
    (h : Install.run inp target = (.ok data,after)) : ValidInputs inp := by
  unfold Install.run at h
  by_cases hlba : inp.stage2Lba < 1 ∨ inp.stage2Lba > 0x7FFFFFFF
  · rw [if_pos hlba] at h
    cases h
  rw [if_neg hlba] at h
  by_cases hsize : inp.mbr.length ≠ Install.sectorSize
  · rw [if_pos hsize] at h
    cases h
  rw [if_neg hsize] at h
  by_cases hsign : inp.mbr.getD mbrSignatureOffset 0 ≠ 0x55 ∨
      inp.mbr.getD (mbrSignatureOffset+1) 0 ≠ 0xAA
  · rw [if_pos hsign] at h
    cases h
  rw [if_neg hsign] at h
  by_cases hnil : inp.stage2 = []
  · rw [if_pos hnil] at h
    cases h
  rw [if_neg hnil] at h
  by_cases hsectors : stage2Sectors inp > 0xFFFF
  · rw [if_pos hsectors] at h
    cases h
  obtain ⟨hfirst,hsecond⟩ := not_or.mp hsign
  obtain ⟨hlow,hhigh⟩ := not_or.mp hlba
  exact ⟨⟨Nat.le_of_not_lt hlow,Nat.le_of_not_lt hhigh⟩,not_not.mp hsize,
    ⟨not_not.mp hfirst,not_not.mp hsecond⟩,hnil,Nat.le_of_not_lt hsectors⟩

theorem content_of_run {data : Report} (h : Install.run inp target = (.ok data,some content))
    (hdry : inp.dryRun = false) (hnew : matchesMbr inp target = false) :
    content = image inp target := by
  rw [run_valid inp target (valid_of_run h) hdry,hnew,if_neg Bool.false_ne_true] at h
  cases hconfirm : confirmDestructive inp with
  | error error =>
    rw [hconfirm] at h
    cases h
  | ok _ =>
    rw [hconfirm] at h
    cases h
    rfl

theorem patchedMbr_front (h : ValidInputs inp) :
    (patchedMbr inp).take mbrStage2LbaOffset = inp.mbr.take mbrStage2LbaOffset := by
  have hsize : inp.mbr.length = 512 := h.size
  have hfirst : (splice inp.mbr 440 (natBytes 4 inp.stage2Lba)).length = 512 := by
    rw [splice_length,hsize]
    rw [natBytes_length,hsize]
    decide
  have hbehind := splice_window (splice inp.mbr 440 (natBytes 4 inp.stage2Lba))
    (natBytes 2 (stage2Sectors inp)) 444 (by rw [hfirst]; decide) 0 440 (by decide)
  rw [List.drop_zero,List.drop_zero] at hbehind
  rw [patchedMbr,mbrStage2LbaOffset,mbrStage2SizeOffset,hbehind,splice_take]
  rw [hsize]
  decide

variable {σ : Type} {int : Interrupts σ} {l : Layout} {own : ℕ → Prop} {drive : UInt8}
  {disk : Disk}

def Begins (disk : Disk) (content : List UInt8) : Prop :=
  stretch disk.bytes 0 content.length = content

theorem begins_getD (sectors : ℕ) (content : List UInt8) :
    Begins ⟨sectors,fun i => content.getD i 0⟩ content := by
  have h := stretch_stored 0 [] content []
  rwa [List.nil_append,List.append_nil] at h

theorem begins_window (h : Begins disk content) (a n : ℕ) (hle : a+n ≤ content.length) :
    stretch disk.bytes a n = (content.drop a).take n := by
  have hwindow := stretch_window disk.bytes 0 content.length a n hle
  rw [h,Nat.zero_add] at hwindow
  exact hwindow.symm

/-- What is written to a disk is what is started from it: the BIOS loads the boot record, and
this puts all of stage 2 in its place and jumps there. -/
theorem install_boots {data : Report} (hrun : Install.run inp target = (.ok data,some content))
    (hdry : inp.dryRun = false) (hnew : matchesMbr inp target = false)
    (htemplate : Template l fun x => inp.mbr.getD (x-mbrBase) 0)
    (hdisk : Begins disk content) (hread : Reads int own drive disk)
    (hext : HasExtensions int own drive) (htty : Teletype int own)
    (hroom : Room own (stage2Sectors inp)) (r : Regs) (w : World σ)
    (hrecord : stretch w.memory mbrBase 512 = disk.read 0 1) (fuel : ℕ)
    (hfuel : stage2Sectors inp < fuel) :
    ∃ ending, mbrStart int l fuel drive r w = some ending ∧
      (∀ dl after, ending = .stage2 dl after → dl = drive ∧
        stretch after.memory stage2Base inp.stage2.length = inp.stage2 ∧
        after.com1 = w.com1++log drive) ∧
      (Reliable int drive disk → content.length ≤ disk.sectors*512 →
        ∃ after, ending = .stage2 drive after) := by
  have hvalid := valid_of_run hrun
  obtain rfl := content_of_run hrun hdry hnew
  obtain ⟨hfront,hstored⟩ := image_installed inp target hvalid
  obtain ⟨hfieldLba,hfieldSize⟩ := patchedMbr_fields inp hvalid
  have hlen := patchedMbr_length inp hvalid
  have hlba := hvalid.lba
  have hsectors : stage2Sectors inp = (inp.stage2.length+511)/512 := rfl
  have hpos : 0 < inp.stage2.length := List.length_pos_iff.mpr hvalid.nonempty
  have hfull : 512 ≤ (image inp target).length := by
    have h := congrArg List.length hfront
    rw [hlen,List.length_take] at h
    unfold Install.sectorSize at h
    omega
  have hend : inp.stage2Lba*512+inp.stage2.length ≤ (image inp target).length := by
    have h := congrArg List.length hstored
    rw [List.length_take,List.length_drop] at h
    unfold Install.sectorSize at h
    omega
  have hloaded : stretch w.memory mbrBase 512 = patchedMbr inp := by
    rw [hrecord,← hfront]
    exact begins_window hdisk 0 512 hfull
  have hfield : ∀ a width, a+width ≤ 512 → number width w.memory (mbrBase+a) =
      bytesNat (((patchedMbr inp).drop a).take width) := by
    intro a width hle
    rw [number,← hloaded,stretch_window w.memory mbrBase 512 a width hle]
  have hbyte : ∀ x, mbrBase ≤ x → x < mbrBase+440 → w.memory x = inp.mbr.getD (x-mbrBase) 0 := by
    intro x hx hx'
    have hi : x-mbrBase < 512 := by omega
    have hread := stretch_getD w.memory (a := mbrBase) hi
    rw [hloaded,Nat.add_sub_cancel' hx] at hread
    have htake := congrArg (fun record => record.getD (x-mbrBase) 0) (patchedMbr_front hvalid)
    simp only [mbrStage2LbaOffset,List.getD_eq_getElem?_getD,
      List.getElem?_take_of_lt (show x-mbrBase < 440 by omega)] at htake
    rw [← hread,List.getD_eq_getElem?_getD,List.getD_eq_getElem?_getD,htake]
  have hfields : ∀ a width, l.dap ≤ a → a+width ≤ l.dap+16 → number width w.memory a =
      number width (fun x => inp.mbr.getD (x-mbrBase) 0) a := by
    intro a width ha hw
    have hdap := l.dap_in
    unfold mbrStage2LbaOffset at hdap
    refine congrArg bytesNat (stretch_congr _ _ a a width fun k hk => ?_)
    exact hbyte (a+k) (by omega) (by omega)
  have hpacket : Template l w.memory :=
    ⟨(hfields _ _ (by omega) (by omega)).trans htemplate.size,
      (hfields _ _ (by omega) (by omega)).trans htemplate.reserved,
      (hfields _ _ (by omega) (by omega)).trans htemplate.high⟩
  obtain ⟨ending,hstart,hthere,hfine⟩ := mbrStart_starts hread hext htty hroom (by have := hroom.low; unfold stage2Base at this; omega) r w hpacket
    ((hfield _ _ (by decide)).trans hfieldLba) ((hfield _ _ (by decide)).trans hfieldSize) fuel
    hfuel
  refine ⟨ending,hstart,?_,fun hreliable hsize => hfine hreliable (by omega)⟩
  intro dl after hending
  obtain ⟨hdl,hin,hcom⟩ := hthere dl after hending
  refine ⟨hdl,?_,hcom⟩
  have hcount : inp.stage2.length ≤ stage2Sectors inp*512 := by omega
  have htake := congrArg (List.take inp.stage2.length) hin
  rw [stretch_take after.memory _ _ _ hcount,Disk.read,stretch_take disk.bytes _ _ _ hcount,
    begins_window hdisk _ _ hend] at htake
  exact htake.trans hstored

end Installed

/-! ## Two bytes of stage 2 -/

section Example

/-- A boot record of nothing but a packet and the signature. -/
def bareRecord : List UInt8 :=
  List.replicate 64 0++[0x10]++List.replicate 445 0++[0x55,0xAA]

def bareLayout : Layout where
  bootDrive := 0x7C20
  dap := 0x7C40
  drive_in := by decide
  dap_in := by decide
  apart := by decide

def twoBytes : Inputs :=
  { mbr := bareRecord, stage2 := [0xAB,0xCD], stage2Lba := 1, dryRun := false, yes := true,
    force := false, stdinIsTty := false, answer := [] }

theorem twoBytes_valid : ValidInputs twoBytes where
  lba := by decide
  size := by decide +kernel
  signature := by decide +kernel
  nonempty := List.cons_ne_nil _ _
  sectors := by decide

def twoBytesDisk : Disk := ⟨2,fun i => (image twoBytes none).getD i 0⟩

def justLoaded (disk : Disk) : World Unit := ⟨fun x => disk.bytes (x-mbrBase),[],()⟩

theorem first_sector (disk : Disk) :
    stretch (justLoaded disk).memory mbrBase 512 = disk.read 0 1 := by
  refine stretch_congr _ _ mbrBase (0*512) (1*512) fun k _ => congrArg disk.bytes ?_
  rw [Nat.add_sub_cancel_left,Nat.zero_mul,Nat.zero_add]

def zeroRegs : Regs := ⟨0,0,0,0,0,0,false⟩

theorem install_boots_two_bytes : ∃ after,
    mbrStart (plainBios twoBytesDisk []) bareLayout 2 0x80 zeroRegs (justLoaded twoBytesDisk) =
      some (.stage2 0x80 after) ∧ stretch after.memory stage2Base 2 = [0xAB,0xCD] := by
  have hrun : Install.run twoBytes none = (.ok (written twoBytes),some (image twoBytes none)) := by
    rw [run_valid _ _ twoBytes_valid rfl]
    rfl
  have hdisk : Begins twoBytesDisk (image twoBytes none) := begins_getD 2 _
  obtain ⟨ending,hstart,hthere,hfine⟩ := install_boots (l := bareLayout) hrun rfl rfl
    ⟨by decide +kernel,by decide +kernel,by decide +kernel⟩ hdisk
    (plainBios_reads twoBytesDisk [] (fun _ => False) 0x80)
    (plainBios_extensions twoBytesDisk [] (fun _ => False) 0x80)
    (plainBios_teletype twoBytesDisk [] (fun _ => False))
    ⟨fun _ _ => id,fun _ _ => id,by decide⟩ zeroRegs _ (first_sector twoBytesDisk)
    2 (by decide)
  obtain ⟨after,rfl⟩ := hfine (plainBios_reliable twoBytesDisk [] 0x80) (by decide +kernel)
  exact ⟨after,hstart,(hthere 0x80 after rfl).2.1⟩

end Example

end Zamak.Stage1
