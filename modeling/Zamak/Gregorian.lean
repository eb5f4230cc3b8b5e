import Mathlib.Order.Monotone.Basic

/-! # The proleptic Gregorian calendar

Dates from the year 0 on, as the calendar's own rules have them: the leap years, the
lengths of the months, the days in front of a year and of a month counted up one by one.
The number of a date is the count of days since the first of January of the year 0. It
orders the dates as they are written, and goes up by one from a day to the next. -/

set_option autoImplicit false

namespace Zamak.Gregorian

/-- Every fourth year is a leap year; of the hundredth years, every fourth. -/
def IsLeap (y : ℕ) : Prop := 4∣y ∧ (100∣y → 400∣y)

instance (y : ℕ) : Decidable (IsLeap y) := inferInstanceAs (Decidable (_ ∧ _))

def yearLength (y : ℕ) : ℕ := if IsLeap y then 366 else 365

def monthLength (y : ℕ) : ℕ → ℕ
  | 1 => 31
  | 2 => if IsLeap y then 29 else 28
  | 3 => 31
  | 4 => 30
  | 5 => 31
  | 6 => 30
  | 7 => 31
  | 8 => 31
  | 9 => 30
  | 10 => 31
  | 11 => 30
  | 12 => 31
  | _ => 0

def daysBeforeYear : ℕ → ℕ
  | 0 => 0
  | y+1 => daysBeforeYear y+yearLength y

def daysBeforeMonth (y : ℕ) : ℕ → ℕ
  | 0 => 0
  | m+1 => daysBeforeMonth y m+monthLength y m

structure Date where
  year : ℕ
  month : ℕ
  day : ℕ
  month_pos : 1 ≤ month
  month_le : month ≤ 12
  day_pos : 1 ≤ day
  day_le : day ≤ monthLength year month

namespace Date

def number (d : Date) : ℕ := daysBeforeYear d.year+daysBeforeMonth d.year d.month+(d.day-1)

def Earlier (d d' : Date) : Prop :=
  d.year < d'.year ∨ d.year = d'.year ∧
    (d.month < d'.month ∨ d.month = d'.month ∧ d.day < d'.day)

end Date

theorem monthLength_pos (y m : ℕ) (h : 1 ≤ m) (h' : m ≤ 12) : 28 ≤ monthLength y m := by
  have hm : m = 1 ∨ m = 2 ∨ m = 3 ∨ m = 4 ∨ m = 5 ∨ m = 6 ∨ m = 7 ∨ m = 8 ∨ m = 9 ∨ m = 10 ∨
      m = 11 ∨ m = 12 := by
    omega
  rcases hm with rfl | rfl | rfl | rfl | rfl | rfl | rfl | rfl | rfl | rfl | rfl | rfl
  case inr.inl =>
    rw [monthLength]
    split <;> omega
  all_goals exact Nat.le_of_ble_eq_true rfl

theorem daysBeforeMonth_end (y : ℕ) : daysBeforeMonth y 13 = yearLength y := by
  simp only [daysBeforeMonth,monthLength,yearLength]
  split <;> rfl

theorem daysBeforeYear_eq (y : ℕ) :
    daysBeforeYear y+(y+99)/100 = 365*y+(y+3)/4+(y+399)/400 := by
  induction y with
  | zero => rfl
  | succ y ih =>
    rw [daysBeforeYear,yearLength]
    by_cases h : IsLeap y
    · rw [if_pos h]
      obtain ⟨h4,h400⟩ := h
      omega
    · rw [if_neg h]
      unfold IsLeap at h
      omega

theorem yearLength_era (y k : ℕ) : yearLength (y+400*k) = yearLength y := by
  have hleap : IsLeap (y+400*k) ↔ IsLeap y := by
    unfold IsLeap
    omega
  simp only [yearLength,hleap]

theorem march_month (y k : ℕ) (h : k < 10) :
    (153*k+2)/5+monthLength y (k+3) = (153*(k+1)+2)/5 := by
  have hk : k = 0 ∨ k = 1 ∨ k = 2 ∨ k = 3 ∨ k = 4 ∨ k = 5 ∨ k = 6 ∨ k = 7 ∨ k = 8 ∨ k = 9 := by
    omega
  rcases hk with rfl | rfl | rfl | rfl | rfl | rfl | rfl | rfl | rfl | rfl <;> rfl

/-- The days from March on, counted back from the end of the year, do not depend on the
year. -/
theorem daysBeforeMonth_march (y k : ℕ) (h : k < 10) :
    daysBeforeMonth y (k+3)+306 = yearLength y+(153*k+2)/5 := by
  induction k with
  | zero =>
    simp only [daysBeforeMonth,monthLength,yearLength]
    split <;> rfl
  | succ k ih =>
    have hlength := march_month y k (by omega)
    have hbefore := ih (by omega)
    rw [show k+1+3 = k+3+1 by omega,daysBeforeMonth]
    omega

theorem daysBeforeMonth_mono (y : ℕ) : Monotone (daysBeforeMonth y) :=
  monotone_nat_of_le_succ fun m => Nat.le_add_right _ (monthLength y m)

theorem daysBeforeYear_mono : Monotone daysBeforeYear :=
  monotone_nat_of_le_succ fun y => Nat.le_add_right _ (yearLength y)

namespace Date

theorem within_month (d : Date) :
    daysBeforeMonth d.year d.month+(d.day-1) < daysBeforeMonth d.year (d.month+1) := by
  rw [daysBeforeMonth]
  have := d.day_pos
  have := d.day_le
  omega

theorem within_year (d : Date) : d.number < daysBeforeYear (d.year+1) := by
  have hmonth := d.within_month
  have hend : daysBeforeMonth d.year (d.month+1) ≤ yearLength d.year := by
    rw [← daysBeforeMonth_end]
    exact daysBeforeMonth_mono d.year (Nat.succ_le_succ d.month_le)
  rw [number,daysBeforeYear]
  omega

theorem number_lt_of_earlier {d d' : Date} (h : d.Earlier d') : d.number < d'.number := by
  rcases h with hyear | ⟨hyear,hmonth | ⟨hmonth,hday⟩⟩
  · have hend := d.within_year
    have hmono : daysBeforeYear (d.year+1) ≤ daysBeforeYear d'.year := daysBeforeYear_mono hyear
    rw [number.eq_1 d']
    omega
  · have hend := d.within_month
    have hmono : daysBeforeMonth d.year (d.month+1) ≤ daysBeforeMonth d.year d'.month :=
      daysBeforeMonth_mono d.year hmonth
    rw [number,number,← hyear]
    omega
  · have := d.day_pos
    rw [number,number,← hyear,← hmonth]
    omega

theorem eq_of_fields {d d' : Date} (hy : d.year = d'.year) (hm : d.month = d'.month)
    (hd : d.day = d'.day) : d = d' := by
  cases d
  cases d'
  subst hy hm hd
  rfl

theorem earlier_trichotomy (d d' : Date) : d.Earlier d' ∨ d = d' ∨ d'.Earlier d := by
  rcases Nat.lt_trichotomy d.year d'.year with hy | hy | hy
  · exact .inl (.inl hy)
  · rcases Nat.lt_trichotomy d.month d'.month with hm | hm | hm
    · exact .inl (.inr ⟨hy,.inl hm⟩)
    · rcases Nat.lt_trichotomy d.day d'.day with hd | hd | hd
      · exact .inl (.inr ⟨hy,.inr ⟨hm,hd⟩⟩)
      · exact .inr (.inl (eq_of_fields hy hm hd))
      · exact .inr (.inr (.inr ⟨hy.symm,.inr ⟨hm.symm,hd⟩⟩))
    · exact .inr (.inr (.inr ⟨hy.symm,.inl hm⟩))
  · exact .inr (.inr (.inl hy))

theorem earlier_iff (d d' : Date) : d.Earlier d' ↔ d.number < d'.number := by
  constructor
  · exact number_lt_of_earlier
  · intro h
    rcases earlier_trichotomy d d' with he | rfl | he
    · exact he
    · exact (Nat.lt_irrefl _ h).elim
    · exact (Nat.lt_asymm h (number_lt_of_earlier he)).elim

theorem number_inj {d d' : Date} (h : d.number = d'.number) : d = d' := by
  rcases earlier_trichotomy d d' with he | heq | he
  · have := number_lt_of_earlier he
    omega
  · exact heq
  · have := number_lt_of_earlier he
    omega

def ofParts (y m k : ℕ) (h : 1 ≤ m ∧ m ≤ 12 ∧ 1 ≤ k ∧ k ≤ monthLength y m) : Date :=
  ⟨y,m,k,h.1,h.2.1,h.2.2.1,h.2.2.2⟩

theorem newYear_parts (y : ℕ) : 1 ≤ 1 ∧ 1 ≤ 12 ∧ 1 ≤ 1 ∧ 1 ≤ monthLength y 1 := by
  refine ⟨by decide,by decide,by decide,?_⟩
  show 1 ≤ 31
  decide

def next (d : Date) : Date :=
  if hday : d.day < monthLength d.year d.month then
    ofParts d.year d.month (d.day+1) ⟨d.month_pos,d.month_le,Nat.succ_pos _,hday⟩
  else if hmonth : d.month < 12 then
    ofParts d.year (d.month+1) 1 ⟨Nat.succ_pos _,hmonth,Nat.le_refl 1,
      Nat.le_trans (by decide) (monthLength_pos d.year (d.month+1) (Nat.succ_pos _) hmonth)⟩
  else ofParts (d.year+1) 1 1 (newYear_parts (d.year+1))

theorem number_next (d : Date) : d.next.number = d.number+1 := by
  have hpos := d.day_pos
  have hle := d.day_le
  unfold next
  split
  · simp only [number,ofParts]
    omega
  · split
    · simp only [number,ofParts,daysBeforeMonth]
      omega
    · have hm : d.month = 12 := by
        have := d.month_le
        omega
      have hend := daysBeforeMonth_end d.year
      rw [daysBeforeMonth,← hm] at hend
      simp only [number,ofParts,daysBeforeYear,daysBeforeMonth,monthLength]
      omega

end Date

/-- The date of the day `doy` of the year from the first of March of `y`, when `k` is the
number of its month from March on. -/
theorem march_date (y k d doy : ℕ) (hk : k < 12) (hd : 1 ≤ d) (hdoy : doy < yearLength (y+1))
    (hday : doy+1 = (153*k+2)/5+d) (hmonth : doy < (153*(k+1)+2)/5) :
    ∃ date : Date, date.year = (if k < 10 then y else y+1) ∧
      date.month = (if k < 10 then k+3 else k-9) ∧ date.day = d ∧
      date.number+306 = daysBeforeYear (y+1)+doy := by
  by_cases h : k < 10
  · have hlength := march_month y k h
    have hbefore := daysBeforeMonth_march y k h
    rw [if_pos h,if_pos h]
    refine ⟨⟨y,k+3,d,by omega,by omega,hd,by omega⟩,rfl,rfl,rfl,?_⟩
    simp only [Date.number,daysBeforeYear]
    omega
  · rw [if_neg h,if_neg h]
    have hlast : k = 10 ∨ k = 11 := by omega
    rcases hlast with rfl | rfl
    · refine ⟨⟨y+1,1,d,by omega,by omega,hd,?_⟩,rfl,rfl,rfl,?_⟩
      · show d ≤ 31
        omega
      · simp only [Date.number,daysBeforeMonth,monthLength]
        omega
    · -- February ends with the year from March, so it is as long as that leaves it
      have hfebruary : d ≤ monthLength (y+1) 2 := by
        rw [monthLength]
        by_cases hleap : IsLeap (y+1)
        · rw [yearLength,if_pos hleap] at hdoy
          rw [if_pos hleap]
          omega
        · rw [yearLength,if_neg hleap] at hdoy
          rw [if_neg hleap]
          omega
      refine ⟨⟨y+1,2,d,by omega,by omega,hd,hfebruary⟩,rfl,rfl,rfl,?_⟩
      simp only [Date.number,daysBeforeMonth,monthLength]
      omega

end Zamak.Gregorian
