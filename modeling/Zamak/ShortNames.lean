import Zamak.Fat32Lookup

/-! # Short names and what a search name collapses to

`name_to_8_3` fills the eleven bytes of a name field with one cursor: a dot moves it to the
extension, wherever it stands. So a long base runs into the extension, and of several
extensions each writes over the one before. A name that is itself of the form `base` or
`base.ext` fills the field of just that entry; any other name that collapses to an
entry's field is taken for it. -/

set_option autoImplicit false

namespace Zamak.ShortNames
open Zamak.Fat32Directory Zamak.Fat32Lookup Zamak.WindowSearch

def upperByte (ch : UInt8) : UInt8 := if 0x61 ≤ ch ∧ ch ≤ 0x7A then ch-32 else ch

/-- A character of a short name: no space, no dot, no lower-case letter. -/
def ShortChar (c : UInt8) : Prop := c ≠ 0x20 ∧ c ≠ 0x2E ∧ ¬(0x61 ≤ c ∧ c ≤ 0x7A)

instance (c : UInt8) : Decidable (ShortChar c) := inferInstanceAs (Decidable (_ ∧ _))

structure ShortName where
  base : List UInt8
  extension : List UInt8
  base_nonempty : 1 ≤ base.length
  base_le : base.length ≤ 8
  extension_le : extension.length ≤ 3
  base_chars : ∀ c ∈ base, ShortChar c
  extension_chars : ∀ c ∈ extension, ShortChar c

def ShortName.field (n : ShortName) : List UInt8 :=
  n.base++List.replicate (8-n.base.length) 0x20++
    (n.extension++List.replicate (3-n.extension.length) 0x20)

def ShortName.display (n : ShortName) : List UInt8 :=
  if n.extension = [] then n.base else n.base++0x2E::n.extension

/-- A name of the form `base` or `base.ext`, within the lengths of an 8.3 entry. -/
def InShortForm (s : List UInt8) : Prop :=
  ∃ base extension : List UInt8, 1 ≤ base.length ∧ base.length ≤ 8 ∧ extension.length ≤ 3 ∧
    (∀ c ∈ base++extension, c ≠ 0x20 ∧ c ≠ 0x2E) ∧
    s = if extension = [] then base else base++0x2E::extension

/-- Each further extension writes over the front of the one before, and one that is too
long ends the name. -/
def overlay : List UInt8 → List (List UInt8) → List UInt8
  | extension, [] => extension
  | extension, part::parts =>
    if part.length ≤ 3 then overlay (splice extension 0 (part.map upperByte)) parts
    else (part.map upperByte).take 3

/-- What the parts of a name between dots collapse to: eight bytes of the first, and the
extension its ninth to eleventh byte and the other parts leave. -/
def collapsed : List (List UInt8) → List UInt8
  | [] => List.replicate 11 0x20
  | first::parts =>
    let name := first.map upperByte
    name.take 8++List.replicate (8-name.length) 0x20++
      if name.length ≤ 11 then
        overlay (name.drop 8++List.replicate (3-(name.length-8)) 0x20) parts
      else (name.drop 8).take 3

theorem shortNameFrom_dot (rest : List UInt8) (idx : ℕ) (out : List UInt8) :
    shortNameFrom (0x2E::rest) idx out = shortNameFrom rest 8 out := if_pos rfl

/-- The characters up to a dot or the end are written side by side, as far as there is room. -/
theorem shortNameFrom_part (part rest : List UInt8) (hdot : 0x2E ∉ part) (idx : ℕ)
    (hidx : idx ≤ 11) (out : List UInt8) (hout : out.length = 11) :
    shortNameFrom (part++rest) idx out =
      if idx+part.length ≤ 11 then
        shortNameFrom rest (idx+part.length) (splice out idx (part.map upperByte))
      else splice out idx ((part.map upperByte).take (11-idx)) := by
  induction part generalizing idx out with
  | nil =>
    rw [List.length_nil,Nat.add_zero,if_pos hidx,List.map_nil,splice_nil]
    rfl
  | cons ch part ih =>
    have hch : ¬ch = 0x2E := fun h => hdot (h ▸ List.mem_cons_self)
    rw [List.cons_append,shortNameFrom,if_neg hch,List.length_cons]
    by_cases hfull : idx ≥ 11
    · rw [if_pos hfull,if_neg (by omega),show 11-idx = 0 by omega,List.take_zero,splice_nil]
    · rw [if_neg hfull,ih (fun h => hdot (List.mem_cons_of_mem ch h)) (idx+1) (by omega) _
        (by rw [List.length_set]; exact hout)]
      have hset : ∀ l, splice (out.set idx (if 0x61 ≤ ch ∧ ch ≤ 0x7A then ch-32 else ch)) (idx+1) l =
          splice out idx (upperByte ch::l) := fun l => splice_cons out l idx _ (by omega)
      rw [hset,hset,List.map_cons,show idx+1+part.length = idx+(part.length+1) by omega,
        show 11-idx = 11-(idx+1)+1 by omega,List.take_succ_cons]

theorem part_or_split (s : List UInt8) :
    (0x2E ∉ s ∧ s.splitOn 0x2E = [s]) ∨
      ∃ part rest, s = part++0x2E::rest ∧ 0x2E ∉ part ∧
        s.splitOn 0x2E = part::rest.splitOn 0x2E := by
  by_cases h : (0x2E : UInt8) ∈ s
  · obtain ⟨part,rest,rfl,hpart⟩ := List.eq_append_cons_of_mem h
    exact Or.inr ⟨part,rest,rfl,hpart,List.splitOn_append_cons_self_of_not_mem hpart rest⟩
  · exact Or.inl ⟨h,List.splitOn_eq_singleton h⟩

theorem splice_extension (base extension new : List UInt8) (hbase : base.length = 8) :
    splice (base++extension) 8 new = base++splice extension 0 new := by
  rw [← hbase,splice,splice,List.take_left,List.append_assoc,List.drop_length_add_append,
    List.take_zero,List.nil_append,Nat.zero_add]

theorem splice_whole (old new : List UInt8) (h : old.length ≤ new.length) :
    splice old 0 new = new := by
  rw [splice,List.take_zero,List.nil_append,Nat.zero_add,List.drop_of_length_le h,List.append_nil]

theorem shortNameFrom_extension (s : List UInt8) (base extension : List UInt8)
    (hbase : base.length = 8) (hext : extension.length = 3) :
    shortNameFrom s 8 (base++extension) = base++overlay extension (s.splitOn 0x2E) := by
  induction hn : s.length using Nat.strongRecOn generalizing s extension with
  | ind n ih =>
    have hlen : (base++extension).length = 11 := by rw [List.length_append,hbase,hext]
    have hlong : ∀ part : List UInt8, ¬part.length ≤ 3 →
        splice (base++extension) 8 ((part.map upperByte).take (11-8)) =
          base++(part.map upperByte).take 3 := by
      intro part hpart
      rw [splice_extension _ _ _ hbase,splice_whole]
      rw [List.length_take,List.length_map]
      omega
    rcases part_or_split s with ⟨hdot,hsplit⟩ | ⟨part,rest,rfl,hdot,hsplit⟩
    · have hpart := shortNameFrom_part s [] hdot 8 (by omega) _ hlen
      rw [List.append_nil] at hpart
      rw [hpart,hsplit,overlay,overlay]
      by_cases hfit : s.length ≤ 3
      · rw [if_pos hfit,if_pos (by omega),splice_extension _ _ _ hbase]
        rfl
      · rw [if_neg hfit,if_neg (by omega),hlong s hfit]
    · rw [shortNameFrom_part part _ hdot 8 (by omega) _ hlen,hsplit,overlay]
      by_cases hfit : part.length ≤ 3
      · rw [if_pos hfit,if_pos (by omega),shortNameFrom_dot,splice_extension _ _ _ hbase]
        refine ih rest.length ?_ rest _ ?_ rfl
        · rw [← hn,List.length_append,List.length_cons]
          omega
        · rw [splice_length _ _ _ (by rw [List.length_map]; omega),hext]
      · rw [if_neg hfit,if_neg (by omega),hlong part hfit]

theorem padded_cut (name : List UInt8) (h : name.length ≤ 11) :
    name++List.replicate (11-name.length) 0x20 =
      name.take 8++List.replicate (8-name.length) 0x20++
        (name.drop 8++List.replicate (3-(name.length-8)) 0x20) := by
  by_cases hshort : name.length ≤ 8
  · rw [List.take_of_length_le hshort,List.drop_of_length_le hshort,List.nil_append,
      show 11-name.length = 8-name.length+(3-(name.length-8)) by omega,List.replicate_add,
      List.append_assoc]
  · rw [show 8-name.length = 0 by omega,show 11-name.length = 3-(name.length-8) by omega,
      List.replicate_zero,List.append_nil,← List.append_assoc,List.take_append_drop]

theorem nameTo83_collapsed (s : List UInt8) : nameTo83 s = collapsed (s.splitOn 0x2E) := by
  have hspaces : (List.replicate 11 (0x20 : UInt8)).length = 11 := List.length_replicate
  -- the field after the first part, whole or cut
  have hfirst : ∀ first : List UInt8, first.length ≤ 11 →
      splice (List.replicate 11 0x20) 0 (first.map upperByte) =
        (first.map upperByte).take 8++List.replicate (8-(first.map upperByte).length) 0x20++
          ((first.map upperByte).drop 8++
            List.replicate (3-((first.map upperByte).length-8)) 0x20) := by
    intro first h
    rw [← padded_cut _ (by rw [List.length_map]; exact h),splice,List.take_zero,List.nil_append,
      Nat.zero_add,List.drop_replicate]
  have hcut : ∀ (first : List UInt8) (parts : List (List UInt8)), ¬first.length ≤ 11 →
      splice (List.replicate 11 0x20) 0 ((first.map upperByte).take (11-0)) =
        collapsed (first::parts) := by
    intro first parts h
    have hname : (first.map upperByte).length = first.length := List.length_map _
    rw [splice_whole _ _ (by rw [List.length_replicate,List.length_take]; omega),collapsed,
      if_neg (by omega),show 8-(first.map upperByte).length = 0 by omega,List.replicate_zero,
      List.append_nil,Nat.sub_zero,show (11 : ℕ) = 8+3 from rfl,List.take_add]
  rcases part_or_split s with ⟨hdot,hsplit⟩ | ⟨part,rest,rfl,hdot,hsplit⟩
  · have hpart := shortNameFrom_part s [] hdot 0 (by omega) _ hspaces
    rw [List.append_nil] at hpart
    rw [nameTo83,hpart,hsplit]
    by_cases hfit : s.length ≤ 11
    · rw [if_pos (by omega),hfirst s hfit,collapsed,if_pos (by rw [List.length_map]; exact hfit)]
      rfl
    · rw [if_neg (by omega),hcut s [] hfit]
  · rw [nameTo83,shortNameFrom_part part _ hdot 0 (by omega) _ hspaces,hsplit]
    by_cases hfit : part.length ≤ 11
    · have hname : (part.map upperByte).length = part.length := List.length_map _
      rw [if_pos (by omega),hfirst part hfit,shortNameFrom_dot,shortNameFrom_extension,collapsed,
        if_pos (by omega)]
      · rw [List.length_append,List.length_take,List.length_replicate]
        omega
      · rw [List.length_append,List.length_drop,List.length_replicate]
        omega
    · rw [if_neg (by omega),hcut part _ hfit]

theorem upperByte_lower (b : UInt8) :
    upperByte (asciiLower b) = upperByte b ∧ asciiLower (upperByte b) = asciiLower b := by
  have hall : ∀ n < 256, upperByte (asciiLower (UInt8.ofNat n)) = upperByte (UInt8.ofNat n) ∧
      asciiLower (upperByte (UInt8.ofNat n)) = asciiLower (UInt8.ofNat n) := by decide +kernel
  have hb := hall b.toNat b.toNat_lt
  rwa [UInt8.ofNat_toNat] at hb

/-- Ignoring case, a name equals an upper-case one exactly when its upper-case form does. -/
theorem equal_iff_upper (s t : List UInt8) (ht : ∀ c ∈ t, ¬(0x61 ≤ c ∧ c ≤ 0x7A)) :
    asciiEqIgnoreCase s t = true ↔ s.map upperByte = t := by
  have hupper : t.map upperByte = t := by
    refine (List.map_congr_left fun c hc => ?_).trans (List.map_id t)
    exact if_neg (ht c hc)
  have hlow : ∀ l : List UInt8, (l.map asciiLower).map upperByte = l.map upperByte := by
    intro l
    rw [List.map_map]
    exact List.map_congr_left fun c _ => (upperByte_lower c).1
  have hup : ∀ l : List UInt8, (l.map upperByte).map asciiLower = l.map asciiLower := by
    intro l
    rw [List.map_map]
    exact List.map_congr_left fun c _ => (upperByte_lower c).2
  simp only [asciiEqIgnoreCase,Bool.and_eq_true,beq_iff_eq]
  constructor
  · rintro ⟨-,h⟩
    rw [← hlow s,h,hlow,hupper]
  · intro h
    refine ⟨by rw [← h,List.length_map],?_⟩
    rw [← hup s,h]

theorem upperByte_facts (b : UInt8) :
    (upperByte b = 0x20 ↔ b = 0x20) ∧ (upperByte b = 0x2E ↔ b = 0x2E) ∧
      ¬(0x61 ≤ upperByte b ∧ upperByte b ≤ 0x7A) := by
  have hall : ∀ n < 256, (upperByte (UInt8.ofNat n) = 0x20 ↔ UInt8.ofNat n = 0x20) ∧
      (upperByte (UInt8.ofNat n) = 0x2E ↔ UInt8.ofNat n = 0x2E) ∧
      ¬(0x61 ≤ upperByte (UInt8.ofNat n) ∧ upperByte (UInt8.ofNat n) ≤ 0x7A) := by decide +kernel
  have hb := hall b.toNat b.toNat_lt
  rwa [UInt8.ofNat_toNat] at hb

theorem shortChar_upper (b : UInt8) : ShortChar (upperByte b) ↔ b ≠ 0x20 ∧ b ≠ 0x2E := by
  obtain ⟨hspace,hdot,hlower⟩ := upperByte_facts b
  simp only [ShortChar,ne_eq,hspace,hdot,hlower,not_false_eq_true,and_true]

theorem display_upper (n : ShortName) : ∀ c ∈ n.display, ¬(0x61 ≤ c ∧ c ≤ 0x7A) := by
  intro c hc
  unfold ShortName.display at hc
  split at hc
  · exact (n.base_chars c hc).2.2
  · rcases List.mem_append.mp hc with hc | hc
    · exact (n.base_chars c hc).2.2
    · rcases List.mem_cons.mp hc with rfl | hc
      · decide
      · exact (n.extension_chars c hc).2.2

/-- A name shown by an entry is that entry's base and extension, letter by letter. -/
theorem shown_parts (s : List UInt8) (n : ShortName) (h : s.map upperByte = n.display) :
    ∃ base extension, base.map upperByte = n.base ∧ extension.map upperByte = n.extension ∧
      s = if extension = [] then base else base++0x2E::extension := by
  unfold ShortName.display at h
  by_cases hext : n.extension = []
  · rw [if_pos hext] at h
    exact ⟨s,[],h,hext.symm,rfl⟩
  · rw [if_neg hext] at h
    obtain ⟨base,rest,rfl,hbase,hrest⟩ := List.map_eq_append_iff.mp h
    obtain ⟨dot,extension,rfl,hdot,hextension⟩ := List.map_eq_cons_iff.mp hrest
    refine ⟨base,extension,hbase,hextension,?_⟩
    rw [(upperByte_facts dot).2.1.mp hdot,if_neg]
    rintro rfl
    exact hext hextension.symm

theorem no_dot (l : List UInt8) (h : ∀ c ∈ l.map upperByte, ShortChar c) : 0x2E ∉ l := by
  intro hmem
  exact (h _ (List.mem_map_of_mem hmem)).2.1 rfl

theorem nameTo83_shown (s : List UInt8) (n : ShortName)
    (h : asciiEqIgnoreCase s n.display = true) : nameTo83 s = n.field := by
  obtain ⟨base,extension,hbase,hextension,rfl⟩ :=
    shown_parts s n ((equal_iff_upper s n.display (display_upper n)).mp h)
  have hdot : 0x2E ∉ base := no_dot base (by rw [hbase]; exact n.base_chars)
  have hdot' : 0x2E ∉ extension := no_dot extension (by rw [hextension]; exact n.extension_chars)
  have hle := n.base_le
  have hle' := n.extension_le
  have hlen : extension.length = n.extension.length := by rw [← hextension,List.length_map]
  have hcollapsed : ∀ parts, collapsed (base::parts) =
      n.base++List.replicate (8-n.base.length) 0x20++
        overlay (List.replicate 3 0x20) parts := by
    intro parts
    rw [collapsed,hbase,if_pos (by omega),List.take_of_length_le hle,List.drop_of_length_le hle,
      show n.base.length-8 = 0 by omega]
    rfl
  rw [nameTo83_collapsed,ShortName.field]
  by_cases hnone : extension = []
  · have hempty : n.extension = [] := by rw [← hextension,hnone,List.map_nil]
    rw [if_pos hnone,List.splitOn_eq_singleton hdot,hcollapsed,hempty]
    rfl
  · rw [if_neg hnone,List.splitOn_append_cons_self_of_not_mem hdot,
      List.splitOn_eq_singleton hdot',hcollapsed,overlay,if_pos (by omega),overlay,hextension,
      splice,List.take_zero,List.nil_append,Nat.zero_add,List.drop_replicate]

theorem unpadded (l : List UInt8) (h : ∀ c ∈ l, ShortChar c) (k : ℕ) :
    (l++List.replicate k 0x20).takeWhile (fun c => c ≠ 0x20) = l := by
  rw [List.takeWhile_append_of_pos (fun c hc => by simpa using (h c hc).1)]
  cases k with
  | zero => simp
  | succ k => simp [List.replicate_succ]

theorem field_injective (n m : ShortName) (h : n.field = m.field) : n = m := by
  have hlen : ∀ k : ShortName, (k.base++List.replicate (8-k.base.length) 0x20).length = 8 := by
    intro k
    have := k.base_le
    rw [List.length_append,List.length_replicate]
    omega
  obtain ⟨hfirst,hsecond⟩ := List.append_inj h ((hlen n).trans (hlen m).symm)
  have hbase := congrArg (List.takeWhile fun c => c ≠ 0x20) hfirst
  have hext := congrArg (List.takeWhile fun c => c ≠ 0x20) hsecond
  rw [unpadded _ n.base_chars,unpadded _ m.base_chars] at hbase
  rw [unpadded _ n.extension_chars,unpadded _ m.extension_chars] at hext
  cases n
  cases m
  simp only at hbase hext
  subst hbase hext
  rfl

theorem inShortForm_iff (s : List UInt8) :
    InShortForm s ↔ ∃ n : ShortName, asciiEqIgnoreCase s n.display = true := by
  constructor
  · rintro ⟨base,extension,hpos,hle,hext,hchars,rfl⟩
    have hshort : ∀ c ∈ (base++extension).map upperByte, ShortChar c := by
      intro c hc
      obtain ⟨b,hb,rfl⟩ := List.mem_map.mp hc
      exact (shortChar_upper b).mpr (hchars b hb)
    rw [List.map_append] at hshort
    refine ⟨⟨base.map upperByte,extension.map upperByte,by rwa [List.length_map],
      by rwa [List.length_map],by rwa [List.length_map],
      fun c hc => hshort c (List.mem_append_left _ hc),
      fun c hc => hshort c (List.mem_append_right _ hc)⟩,?_⟩
    rw [equal_iff_upper _ _ (display_upper _)]
    by_cases hnone : extension = []
    · simp [ShortName.display,hnone]
    · have hmap : extension.map upperByte ≠ [] := fun hm => hnone (List.map_eq_nil_iff.mp hm)
      simp only [ShortName.display,if_neg hnone,if_neg hmap,List.map_append,List.map_cons]
      rfl
  · rintro ⟨n,h⟩
    obtain ⟨base,extension,hbase,hextension,hs⟩ :=
      shown_parts s n ((equal_iff_upper s n.display (display_upper n)).mp h)
    have hpos := n.base_nonempty
    have hle := n.base_le
    have hext := n.extension_le
    rw [← hbase,List.length_map] at hpos hle
    rw [← hextension,List.length_map] at hext
    refine ⟨base,extension,hpos,hle,hext,fun c hc => (shortChar_upper c).mp ?_,hs⟩
    rcases List.mem_append.mp hc with hc | hc
    · exact n.base_chars _ (hbase ▸ List.mem_map_of_mem hc)
    · exact n.extension_chars _ (hextension ▸ List.mem_map_of_mem hc)

/-- The short-name test picks out the entry that shows the name, unless the name is not
of short form and collapses to the entry's field all the same. -/
theorem shortNameTest_iff (s : List UInt8) (n : ShortName) :
    (n.field = nameTo83 s ↔ asciiEqIgnoreCase s n.display = true) ↔
      (InShortForm s ∨ n.field ≠ collapsed (s.splitOn 0x2E)) := by
  rw [← nameTo83_collapsed]
  constructor
  · intro h
    by_cases hfield : n.field = nameTo83 s
    · exact Or.inl ((inShortForm_iff s).mpr ⟨n,h.mp hfield⟩)
    · exact Or.inr hfield
  · rintro (hform | hother)
    · obtain ⟨m,hm⟩ := (inShortForm_iff s).mp hform
      have hfield := nameTo83_shown s m hm
      constructor
      · intro hn
        rw [field_injective n m (hn.trans hfield)]
        exact hm
      · intro hn
        exact (nameTo83_shown s n hn).symm
    · exact ⟨fun hn => (hother hn).elim,fun hn => (hother (nameTo83_shown s n hn).symm).elim⟩

def longfile : ShortName where
  base := asciiBytes "LONGFILE"
  extension := asciiBytes "NAM"
  base_nonempty := by decide
  base_le := by decide
  extension_le := by decide
  base_chars := by decide +kernel
  extension_chars := by decide +kernel

/-- A name of eleven letters is taken for one of eight and three. -/
theorem longfile_taken :
    longfile.field = nameTo83 (asciiBytes "longfilenam") ∧
    ¬asciiEqIgnoreCase (asciiBytes "longfilenam") longfile.display = true := by
  refine ⟨by decide +kernel,by decide +kernel⟩

end Zamak.ShortNames
