import Zamak.PlacedBlocks
import Zamak.TagStreams

/-! # Numbers and runs of bytes in a memory

Little-endian numbers at addresses of a byte memory, and what a write leaves as it was. A
set of addresses is free to change; a run of bytes that is written piece by piece is there
as a whole in the end when its place is not free. -/

set_option autoImplicit false

namespace Zamak.ByteMemory
open Zamak.PlacedBlocks Zamak.Segments Zamak.TagStreams

abbrev Memory := ℕ → UInt8

def number (width : ℕ) (memory : Memory) (a : ℕ) : ℕ := bytesNat (stretch memory a width)

def put (width : ℕ) (memory : Memory) (a v : ℕ) : Memory := store memory a (natBytes width v)

def Keeps (free : ℕ → Prop) (memory memory' : Memory) : Prop :=
  ∀ x, ¬free x → memory' x = memory x

def Within (a n x : ℕ) : Prop := a ≤ x ∧ x < a+n

theorem Within.mono {a n n' x : ℕ} (h : Within a n x) (hle : n ≤ n') : Within a n' x :=
  ⟨h.1,Nat.lt_of_lt_of_le h.2 (Nat.add_le_add_left hle a)⟩

/-- Items written to a place, and nothing else but what is free. -/
structure Writes (free : ℕ → Prop) (memory memory' : Memory) (dest : ℕ) (items : List UInt8) :
    Prop where
  there : stretch memory' dest items.length = items
  keeps : Keeps (fun x => free x ∨ Within dest items.length x) memory memory'

section Keeps
variable {free free' : ℕ → Prop} {m m' m'' : Memory}

theorem Keeps.refl (m : Memory) : Keeps free m m := fun _ _ => rfl

theorem Keeps.trans (h : Keeps free m m') (h' : Keeps free m' m'') : Keeps free m m'' :=
  fun x hx => (h' x hx).trans (h x hx)

theorem Keeps.mono (h : Keeps free m m') (hle : ∀ x, free x → free' x) : Keeps free' m m' :=
  fun x hx => h x fun hfree => hx (hle x hfree)

theorem Keeps.stretch (h : Keeps free m m') {a n : ℕ} (hin : ∀ x, Within a n x → ¬free x) :
    stretch m' a n = stretch m a n :=
  stretch_congr m' m a a n fun k hk => h (a+k) (hin (a+k) ⟨by omega,by omega⟩)

theorem Keeps.number (h : Keeps free m m') {width a : ℕ}
    (hin : ∀ x, Within a width x → ¬free x) : number width m' a = number width m a :=
  congrArg bytesNat (h.stretch hin)

theorem keeps_store {a : ℕ} {items : List UInt8} (hin : ∀ x, Within a items.length x → free x) :
    Keeps free m (store m a items) := by
  intro x hx
  apply store_outside
  by_contra hwithin
  exact hx (hin x ⟨by omega,by omega⟩)

theorem keeps_put {width a v : ℕ} (hin : ∀ x, Within a width x → free x) :
    Keeps free m (put width m a v) :=
  keeps_store (by rwa [natBytes_length])

end Keeps

theorem stretch_getD (m : Memory) {a n i : ℕ} (h : i < n) : (stretch m a n).getD i 0 = m (a+i) := by
  rw [List.getD_eq_getElem _ _ (by rw [stretch_length]; exact h)]
  simp only [stretch,List.getElem_map,List.getElem_range]

section Numbers
variable (m : Memory)

theorem number_lt (width a : ℕ) : number width m a < 256^width := by
  have h := bytesNat_lt (stretch m a width)
  rwa [stretch_length] at h

theorem number_one (a : ℕ) : number 1 m a = (m a).toNat := rfl

theorem number_put (width a v : ℕ) : number width (put width m a v) a = v%256^width := by
  have h := stretch_store m a (natBytes width v)
  rw [natBytes_length] at h
  rw [number,put,h,bytesNat_natBytes_mod]

theorem number_put_of_lt {width v : ℕ} (a : ℕ) (h : v < 256^width) :
    number width (put width m a v) a = v := by
  rw [number_put,Nat.mod_eq_of_lt h]

theorem put_byte (a : ℕ) (b : UInt8) : put 1 m a b.toNat a = b := by
  have hlt : b.toNat < 256^1 := b.toNat_lt
  exact UInt8.toNat_inj.mp ((number_put m 1 a b.toNat).trans (Nat.mod_eq_of_lt hlt))

theorem put_keeps (width a v : ℕ) : Keeps (Within a width) m (put width m a v) :=
  keeps_put fun _ hx => hx

theorem put_apart {width a x : ℕ} (v : ℕ) (h : ¬Within a width x) : put width m a v x = m x :=
  put_keeps m width a v x h

theorem number_put_apart {width a width' b : ℕ} (v : ℕ) (h : b+width' ≤ a ∨ a+width ≤ b) :
    number width' (put width m a v) b = number width' m b := by
  refine (put_keeps m width a v).number ?_
  rintro x ⟨hb,hb'⟩ ⟨ha,ha'⟩
  omega

theorem number_add (width more a : ℕ) :
    number (width+more) m a = number width m a+256^width*number more m (a+width) := by
  rw [number,← stretch_append,bytesNat_append,stretch_length]
  rfl

theorem number_zero {width a : ℕ} (h : ∀ x, Within a width x → m x = 0) :
    number width m a = 0 := by
  induction width generalizing a with
  | zero => rfl
  | succ width ih =>
    have hfirst : m a = 0 := h a ⟨Nat.le_refl _,Nat.lt_add_of_pos_right (Nat.succ_pos _)⟩
    rw [Nat.add_comm,number_add,number_one,hfirst,ih fun x hx => h x ⟨by
      have := hx.1
      omega,by
      have := hx.2
      omega⟩]
    rfl

theorem store_zeros {a n x : ℕ} (h : Within a n x) : store m a (List.replicate n 0) x = 0 := by
  have hlt : x-a < (List.replicate n (0 : UInt8)).length := by
    have hlow := h.1
    have hhigh := h.2
    rw [List.length_replicate]
    omega
  rw [store,if_pos h.1,List.getD_eq_getElem _ _ hlt,List.getElem_replicate]

theorem number_inside {a width v : ℕ} {items before after : List UInt8}
    (h : stretch m a items.length = items) (hsplit : items = before++(natBytes width v++after))
    (hv : v < 256^width) : number width m (a+before.length) = v := by
  have hlen : items.length = before.length+(width+after.length) := by
    rw [hsplit,List.length_append,List.length_append,natBytes_length]
  have hwindow := stretch_window m a items.length before.length width (by omega)
  rw [h,hsplit,List.drop_left,List.take_left' (natBytes_length width v)] at hwindow
  rw [number,← hwindow,bytesNat_natBytes width v hv]

end Numbers

section Writes
variable {free : ℕ → Prop} {m m' m'' : Memory} {dest : ℕ} {items more : List UInt8}

theorem Writes.none (h : Keeps free m m') : Writes free m m' dest [] :=
  ⟨rfl,h.mono fun _ hx => .inl hx⟩

theorem Writes.mono {free' : ℕ → Prop} (h : Writes free m m' dest items)
    (hle : ∀ x, free x → free' x) : Writes free' m m' dest items :=
  ⟨h.there,h.keeps.mono fun x hx => hx.imp_left (hle x)⟩

theorem Writes.before (h : Keeps free m m') (h' : Writes free m' m'' dest items) :
    Writes free m m'' dest items :=
  ⟨h'.there,(h.mono fun _ hx => .inl hx).trans h'.keeps⟩

theorem Writes.after (h : Writes free m m' dest items) (h' : Keeps free m' m'')
    (hin : ∀ x, Within dest items.length x → ¬free x) : Writes free m m'' dest items :=
  ⟨(h'.stretch hin).trans h.there,h.keeps.trans (h'.mono fun _ hx => .inl hx)⟩

theorem Writes.append (h : Writes free m m' dest items)
    (h' : Writes free m' m'' (dest+items.length) more)
    (hin : ∀ x, Within dest items.length x → ¬free x) :
    Writes free m m'' dest (items++more) := by
  constructor
  · have hfirst : stretch m'' dest items.length = items := by
      refine Eq.trans (h'.keeps.stretch ?_) h.there
      rintro x hx (hfree|⟨hlow,-⟩)
      · exact hin x hx hfree
      · exact Nat.not_lt.mpr hlow hx.2
    rw [List.length_append,← stretch_append,hfirst,h'.there]
  · have hlen : (items++more).length = items.length+more.length := List.length_append
    refine Keeps.trans (h.keeps.mono ?_) (h'.keeps.mono ?_)
    · rintro x (hfree|⟨hlow,hhigh⟩)
      · exact .inl hfree
      · exact .inr ⟨hlow,by omega⟩
    · rintro x (hfree|⟨hlow,hhigh⟩)
      · exact .inl hfree
      · exact .inr ⟨by omega,by omega⟩

theorem Writes.number (h : Writes free m m' dest items) {width a : ℕ}
    (hin : ∀ x, Within a width x → ¬free x ∧ ¬Within dest items.length x) :
    number width m' a = number width m a :=
  h.keeps.number fun x hx hfree => hfree.elim (hin x hx).1 (hin x hx).2

end Writes

end Zamak.ByteMemory
