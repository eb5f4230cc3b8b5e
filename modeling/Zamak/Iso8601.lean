import Zamak.ConfigText
import Zamak.Fat32Image
import Zamak.Gregorian
import Zamak.PieLoading
import Zamak.Trimming

/-! # Timestamps of the command line

`format_iso8601` of `time.rs`: the seconds since the epoch as a date and a time. The date
is computed by eras of 400 years that start in March, so that the leap day is the last of
its year and the months fall in fives of 153 days. The arithmetic is checked; no number of
seconds makes it fail, and the text is that of the calendar's own date. -/

set_option autoImplicit false

namespace Zamak.Iso8601
open Zamak.ConfigText Zamak.Fat32Image Zamak.PieLoading Zamak.Gregorian Zamak.Trimming

def checkedI64 (x : ℤ) : Option ℤ := if -2^63 ≤ x ∧ x < 2^63 then some x else none

def asU64 (x : ℤ) : ℕ := (x%2^64).toNat

def eraBase (z : ℤ) : Option ℤ := if 0 ≤ z then some z else checkedI64 (z-146096)

/-- The era of a day and the day in it; `days` are counted from the epoch. -/
def eraOf (days : ℤ) : Option (ℤ × ℕ) := do
  let z ← checkedI64 (days+719468)
  let base ← eraBase z
  let era := base.tdiv 146097
  let eraDays ← checkedI64 (era*146097)
  let rest ← checkedI64 (z-eraDays)
  pure (era,asU64 rest)

/-- The year of an era and the day in it, from the first of March. -/
def yearOfEra (doe : ℕ) : Option (ℕ × ℕ) := do
  let short ← checkedSub doe (doe/1460)
  let long ← checkedAdd 64 short (doe/36524)
  let even ← checkedSub long (doe/146096)
  let yoe := even/365
  let plain ← checkedMul 64 365 yoe
  let fourth ← checkedAdd 64 plain (yoe/4)
  let before ← checkedSub fourth (yoe/100)
  let doy ← checkedSub doe before
  pure (yoe,doy)

def monthDay (doy : ℕ) : Option (ℕ × ℕ) := do
  let fives ← checkedMul 64 5 doy
  let shifted ← checkedAdd 64 fives 2
  let mp := shifted/153
  let months ← checkedMul 64 153 mp
  let rounded ← checkedAdd 64 months 2
  let left ← checkedSub doy (rounded/5)
  let d ← checkedAdd 64 left 1
  pure (mp,d)

def monthOf (mp : ℕ) : Option ℕ := if mp < 10 then checkedAdd 64 mp 3 else checkedSub mp 9

def yearOf (y : ℤ) (m : ℕ) : Option ℤ := if m ≤ 2 then checkedI64 (y+1) else some y

def civil (days : ℤ) : Option (ℤ × ℕ × ℕ) := do
  let era ← eraOf days
  let inEra ← yearOfEra era.2
  let eraYears ← checkedI64 (era.1*400)
  let y ← checkedI64 (inEra.1+eraYears)
  let inYear ← monthDay inEra.2
  let m ← monthOf inYear.1
  let year ← yearOf y m
  pure (year,m,inYear.2)

def padNat (width n : ℕ) : Text :=
  List.replicate (width-(Nat.toDigits 10 n).length) '0' ++ Nat.toDigits 10 n

/-- `{:0width}` of a signed number: the zeros go behind the sign. -/
def padInt (width : ℕ) (x : ℤ) : Text :=
  if x < 0 then '-' :: padNat (width-1) x.natAbs else padNat width x.natAbs

def isoText (year : ℤ) (m d hh mm ss : ℕ) : Text :=
  padInt 4 year ++ '-' :: (padNat 2 m ++ '-' :: (padNat 2 d ++ 'T' :: (padNat 2 hh ++
    ':' :: (padNat 2 mm ++ ':' :: (padNat 2 ss ++ [ 'Z'])))))

def formatIso8601 (secs : UInt64) : Option Text := do
  let days : ℤ := (secs.toNat/86400 : ℕ)
  let tod := secs.toNat%86400
  let hh := tod/3600
  let mm := tod%3600/60
  let ss := tod%60
  let date ← civil days
  pure (isoText date.1 date.2.1 date.2.2 hh mm ss)

structure Time where
  hour : ℕ
  minute : ℕ
  second : ℕ
  hour_lt : hour < 24
  minute_lt : minute < 60
  second_lt : second < 60

def Time.seconds (t : Time) : ℕ := 3600*t.hour+60*t.minute+t.second

def Time.ofSeconds (n : ℕ) (h : n < 86400) : Time :=
  ⟨n/3600,n%3600/60,n%60,by omega,by omega,by omega⟩

def printed (date : Date) (time : Time) : Text :=
  isoText date.year date.month date.day time.hour time.minute time.second

def epoch : Date := .ofParts 1970 1 1 (Date.newYear_parts 1970)

theorem checkedI64_nat (n : ℕ) (h : n < 2^63) : checkedI64 n = some (n : ℤ) :=
  if_pos (by omega)

theorem checkedSub_le {a b : ℕ} (h : b ≤ a) : checkedSub a b = some (a-b) := if_pos h

theorem checkedAdd_lt {a b : ℕ} (h : a+b < 2^64) : checkedAdd 64 a b = some (a+b) := if_pos h

theorem checkedMul_lt {a b : ℕ} (h : a*b < 2^64) : checkedMul 64 a b = some (a*b) := if_pos h

theorem asU64_nat (n : ℕ) (h : n < 2^64) : asU64 n = n := by
  rw [asU64]
  omega

/-- A day from the epoch on lies in the era and at the day that division gives. -/
theorem eraOf_nat (n : ℕ) (h : n < 2^62) :
    eraOf n = some ((((n+719468)/146097 : ℕ) : ℤ),(n+719468)%146097) := by
  obtain ⟨z,hz⟩ : ∃ z, z = n+719468 := ⟨_,rfl⟩
  have hsum : (n : ℤ)+719468 = (z : ℤ) := by omega
  have hbase : eraBase z = some (z : ℤ) := if_pos (Int.natCast_nonneg z)
  have hera : (z : ℤ).tdiv 146097 = (z/146097 : ℕ) := by
    rw [Int.tdiv_eq_ediv_of_nonneg (Int.natCast_nonneg z)]
    omega
  have hdays : ((z/146097 : ℕ) : ℤ)*146097 = (z/146097*146097 : ℕ) := by omega
  have hrest : (z : ℤ)-(z/146097*146097 : ℕ) = (z%146097 : ℕ) := by omega
  rw [← hz,eraOf,hsum,checkedI64_nat z (by omega),Option.bind_eq_bind,Option.bind_some,hbase,
    Option.bind_some,hera]
  show (checkedI64 (((z/146097 : ℕ) : ℤ)*146097)).bind _ = _
  rw [hdays,checkedI64_nat _ (by omega),Option.bind_some,hrest,checkedI64_nat _ (by omega),
    Option.bind_some,asU64_nat _ (by omega),Option.pure_def]

/-- A century of an era, a cycle of four years in it and a day of the cycle. Only the last
century has a day more, which `doe / 146096` takes off again. -/
theorem era_parts (doe : ℕ) (h : doe < 146096) :
    ∃ c q s, doe = 36524*c+1461*q+s ∧ c ≤ 3 ∧ q ≤ 24 ∧ s ≤ 1460 ∧ (q = 24 → s < 1460) :=
  ⟨doe/36524,doe%36524/1461,doe%36524%1461,by omega,by omega,by omega,by omega,by omega⟩

/-- The divisions of `format_iso8601` find the year of a cycle: the day they take for a
cycle that is not full comes off where it cannot change the year. -/
theorem year_of_parts (c q s : ℕ) (hc : c ≤ 3) (hq : q ≤ 24) (hs : s ≤ 1460)
    (hlast : q = 24 → s < 1460) :
    ((36524*c+1461*q+s)-(36524*c+1461*q+s)/1460+(36524*c+1461*q+s)/36524-
      (36524*c+1461*q+s)/146096)/365 = 100*c+4*q+min (s/365) 3 := by
  have hcycle : (36524*c+1461*q+s)/1460 = 25*c+q+(24*c+q+s)/1460 := by omega
  have hcentury : (36524*c+1461*q+s)/36524 = c := by omega
  have hera : (36524*c+1461*q+s)/146096 = 0 := by omega
  have hshort : (24*c+q+s)/1460 = 0 ∨ (24*c+q+s)/1460 = 1 := by omega
  rw [hcycle,hcentury,hera]
  omega

theorem years_of_parts (c q t : ℕ) (hq : q ≤ 24) (ht : t ≤ 3) :
    365*(100*c+4*q+t)+(100*c+4*q+t)/4-(100*c+4*q+t)/100 = 36524*c+1461*q+365*t := by
  omega

/-- Where a day of an era falls: into a year from March, which has a last day more if the
February at its end has. -/
theorem yearOfEra_spec (doe : ℕ) (h : doe < 146097) :
    ∃ yoe doy, yearOfEra doe = some (yoe,doy) ∧ yoe < 400 ∧
      doe = 365*yoe+yoe/4-yoe/100+doy ∧ doy < yearLength (yoe+1) := by
  obtain ⟨yoe,hyoe⟩ : ∃ yoe, yoe = (doe-doe/1460+doe/36524-doe/146096)/365 := ⟨_,rfl⟩
  have hyear : yoe < 400 ∧ 365*yoe+yoe/4-yoe/100 ≤ doe ∧
      doe-(365*yoe+yoe/4-yoe/100) < yearLength (yoe+1) := by
    rcases Nat.lt_or_eq_of_le (Nat.le_of_lt_succ h) with hlt | rfl
    · obtain ⟨c,q,s,rfl,hc,hq,hs,hlast⟩ := era_parts doe hlt
      have ht : min (s/365) 3 ≤ 3 := Nat.min_le_right _ _
      rw [year_of_parts c q s hc hq hs hlast] at hyoe
      subst hyoe
      rw [years_of_parts c q _ hq ht,yearLength]
      refine ⟨by omega,by omega,?_⟩
      -- the year is full only at the end of a cycle, where the next year is a leap year
      by_cases hfull : s = 1460
      · have hleap : IsLeap (100*c+4*q+min (s/365) 3+1) := ⟨by omega,by omega⟩
        rw [if_pos hleap]
        omega
      · have : 365 ≤ if IsLeap (100*c+4*q+min (s/365) 3+1) then 366 else 365 := by
          split <;> omega
        omega
    · rw [hyoe]
      decide
  obtain ⟨hlt,hle,hdoy⟩ := hyear
  refine ⟨yoe,doe-(365*yoe+yoe/4-yoe/100),?_,hlt,by omega,hdoy⟩
  rw [yearOfEra,checkedSub_le (by omega)]
  simp only [Option.bind_eq_bind,Option.bind_some,Option.pure_def]
  rw [checkedAdd_lt (by omega),Option.bind_some,checkedSub_le (by omega),Option.bind_some,
    ← hyoe,checkedMul_lt (by omega),Option.bind_some,checkedAdd_lt (by omega),Option.bind_some,
    checkedSub_le (by omega),Option.bind_some,checkedSub_le hle,Option.bind_some]

/-- Where a day of a year from March falls: into one of twelve months, the first eleven of
which are full. -/
theorem monthDay_spec (doy : ℕ) (h : doy < 366) :
    ∃ mp d, monthDay doy = some (mp,d) ∧ mp < 12 ∧ 1 ≤ d ∧ doy+1 = (153*mp+2)/5+d ∧
      doy < (153*(mp+1)+2)/5 := by
  obtain ⟨mp,hmp⟩ : ∃ mp, mp = (5*doy+2)/153 := ⟨_,rfl⟩
  have hle : (153*mp+2)/5 ≤ doy := by omega
  refine ⟨mp,doy-(153*mp+2)/5+1,?_,by omega,by omega,by omega,by omega⟩
  rw [monthDay,checkedMul_lt (by omega)]
  simp only [Option.bind_eq_bind,Option.bind_some,Option.pure_def]
  rw [checkedAdd_lt (by omega),Option.bind_some,← hmp,checkedMul_lt (by omega),Option.bind_some,
    checkedAdd_lt (by omega),Option.bind_some,checkedSub_le hle,Option.bind_some,
    checkedAdd_lt (by omega),Option.bind_some]

theorem civil_spec (n : ℕ) (h : n < 2^62) :
    ∃ date : Date, civil n = some ((date.year : ℤ),date.month,date.day) ∧
      date.number = n+719528 := by
  obtain ⟨era,hera⟩ : ∃ era, era = (n+719468)/146097 := ⟨_,rfl⟩
  have hdoe : (n+719468)%146097 < 146097 := Nat.mod_lt _ (by decide)
  obtain ⟨yoe,doy,hyear,hyoe,hin,hdoy⟩ := yearOfEra_spec _ hdoe
  obtain ⟨mp,d,hmonth,hmp,hd,hday,hend⟩ := monthDay_spec doy (by
    rw [yearLength] at hdoy
    split at hdoy <;> omega)
  rw [← yearLength_era (yoe+1) era,Nat.add_right_comm] at hdoy
  obtain ⟨date,hy,hm,hd',hnumber⟩ := march_date (yoe+400*era) mp d doy hmp hd hdoy hday hend
  have hbefore := daysBeforeYear_eq (yoe+400*era+1)
  rw [show (yoe+400*era+1+99)/100 = yoe/100+4*era+1 by omega,
    show (yoe+400*era+1+3)/4 = yoe/4+100*era+1 by omega,
    show (yoe+400*era+1+399)/400 = era+1 by omega] at hbefore
  refine ⟨date,?_,by omega⟩
  have hcast : (yoe : ℤ)+(era : ℤ)*400 = (yoe+400*era : ℕ) := by omega
  have hmul : ((era : ℤ)*400) = (era*400 : ℕ) := by omega
  have hmonthOf : monthOf mp = some date.month := by
    rw [monthOf,hm]
    split
    · exact checkedAdd_lt (by omega)
    · exact checkedSub_le (by omega)
  have hyearOf : yearOf ((yoe+400*era : ℕ) : ℤ) date.month = some (date.year : ℤ) := by
    rw [yearOf,hy,hm]
    by_cases hk : mp < 10
    · rw [if_pos hk,if_pos hk,if_neg (by omega)]
    · rw [if_neg hk,if_neg hk,if_pos (by omega)]
      exact checkedI64_nat (yoe+400*era+1) (by omega)
  rw [civil,eraOf_nat n h,Option.bind_eq_bind,Option.bind_some]
  dsimp only
  rw [hyear,Option.bind_eq_bind,Option.bind_some,← hera]
  dsimp only
  rw [hmul,checkedI64_nat _ (by omega),Option.bind_eq_bind,Option.bind_some,← hmul,hcast,
    checkedI64_nat _ (by omega),Option.bind_some,hmonth,Option.bind_eq_bind,Option.bind_some]
  dsimp only
  rw [hmonthOf,Option.bind_some,hyearOf,Option.bind_some,hd',Option.pure_def]

theorem padNat_digits (width n : ℕ) : ∀ c ∈ padNat width n, c.isDigit = true := by
  intro c hc
  rcases List.mem_append.mp hc with hzero | hdigit
  · rw [List.eq_of_mem_replicate hzero]
    decide
  · exact Nat.isDigit_of_mem_toDigits (by decide) (by decide) hdigit

theorem padNat_inj {width n n' : ℕ} (h : padNat width n = padNat width n') : n = n' := by
  have hread : ∀ k, Nat.ofDigitChars 10 (padNat width k) 0 = k := by
    intro k
    rw [padNat,Nat.ofDigitChars_append,Nat.ofDigitChars_replicate_zero,Nat.mul_zero,
      Nat.ofDigitChars_ten_toDigits]
  rw [← hread n,h,hread n']

theorem padInt_nat (width n : ℕ) : padInt width n = padNat width n := by
  rw [padInt,if_neg (Int.not_lt.mpr (Int.natCast_nonneg n)),Int.natAbs_natCast]

theorem padNat_sep_inj {width n n' : ℕ} {c : Char} {rest rest' : Text}
    (hc : c.isDigit = false) (h : padNat width n++c::rest = padNat width n'++c::rest') :
    n = n' ∧ rest = rest' := by
  have hcut := cut_inj Char.isDigit (padNat_digits width n) (padNat_digits width n') hc hc h
  exact ⟨padNat_inj hcut.1,hcut.2.2⟩

theorem Time.eq_of_fields {t t' : Time} (hh : t.hour = t'.hour) (hm : t.minute = t'.minute)
    (hs : t.second = t'.second) : t = t' := by
  cases t
  cases t'
  subst hh hm hs
  rfl

theorem printed_inj {date date' : Date} {time time' : Time}
    (h : printed date time = printed date' time') : date = date' ∧ time = time' := by
  simp only [printed,isoText,padInt_nat] at h
  obtain ⟨hyear,h⟩ := padNat_sep_inj (by decide) h
  obtain ⟨hmonth,h⟩ := padNat_sep_inj (by decide) h
  obtain ⟨hday,h⟩ := padNat_sep_inj (by decide) h
  obtain ⟨hhour,h⟩ := padNat_sep_inj (by decide) h
  obtain ⟨hminute,h⟩ := padNat_sep_inj (by decide) h
  obtain ⟨hsecond,-⟩ := padNat_sep_inj (by decide) h
  exact ⟨Date.eq_of_fields hyear hmonth hday,Time.eq_of_fields hhour hminute hsecond⟩

theorem epoch_number : epoch.number = 719528 := by
  have hyear : daysBeforeYear epoch.year+(1970+99)/100 = 365*1970+(1970+3)/4+(1970+399)/400 :=
    daysBeforeYear_eq 1970
  have hmonth : daysBeforeMonth epoch.year epoch.month+(epoch.day-1) = 0 := rfl
  rw [Date.number]
  omega

theorem seconds_ofSeconds (n : ℕ) (h : n < 86400) : (Time.ofSeconds n h).seconds = n := by
  simp only [Time.seconds,Time.ofSeconds]
  omega

theorem formatIso8601_prints (secs : UInt64) :
    ∃ date, formatIso8601 secs =
        some (printed date (Time.ofSeconds (secs.toNat%86400) (Nat.mod_lt _ (by decide)))) ∧
      date.number = epoch.number+secs.toNat/86400 := by
  have hlt := secs.toNat_lt
  obtain ⟨date,hcivil,hnumber⟩ := civil_spec (secs.toNat/86400) (by omega)
  refine ⟨date,?_,by rw [hnumber,epoch_number,Nat.add_comm]⟩
  rw [formatIso8601,hcivil]
  rfl

/-- The printed text is that of the calendar's date, `secs / 86400` days from the epoch, and
of the time of day; a later instant has no earlier date. -/
theorem format_iso8601_utc (secs : UInt64) :
    ∃ date time, formatIso8601 secs = some (printed date time) ∧
      date.number = epoch.number+secs.toNat/86400 ∧ time.seconds = secs.toNat%86400 ∧
      ∀ later date' time', secs ≤ later → formatIso8601 later = some (printed date' time') →
        ¬date'.Earlier date := by
  obtain ⟨date,hprints,hnumber⟩ := formatIso8601_prints secs
  refine ⟨date,_,hprints,hnumber,seconds_ofSeconds _ _,?_⟩
  intro later date' time' hle hlater hearlier
  obtain ⟨date'',hprints',hnumber'⟩ := formatIso8601_prints later
  have hsame : date' = date'' := by
    rw [hlater] at hprints'
    exact (printed_inj (Option.some.inj hprints')).1
  have hlt := (Date.earlier_iff date' date).mp hearlier
  have hdays : secs.toNat/86400 ≤ later.toNat/86400 :=
    Nat.div_le_div_right (UInt64.le_iff_toNat_le.mp hle)
  rw [hsame] at hlt
  omega

theorem day_later (secs : UInt64) (date : Date) (time : Time) (hroom : secs.toNat+86400 < 2^64)
    (h : formatIso8601 secs = some (printed date time)) :
    formatIso8601 (secs+86400) = some (printed date.next time) := by
  obtain ⟨date₀,hprints,hnumber⟩ := formatIso8601_prints secs
  obtain ⟨date₁,hprints',hnumber'⟩ := formatIso8601_prints (secs+86400)
  have hadd : (secs+86400).toNat = secs.toNat+86400 := by
    rw [UInt64.toNat_add]
    exact Nat.mod_eq_of_lt hroom
  rw [h] at hprints
  obtain ⟨rfl,rfl⟩ := printed_inj (Option.some.inj hprints)
  have hnext : date₁ = date.next := by
    apply Date.number_inj
    rw [Date.number_next,hnumber,hnumber',hadd]
    omega
  have htod : (secs+86400).toNat%86400 = secs.toNat%86400 := by omega
  rw [hprints',hnext]
  simp only [htod]

end Zamak.Iso8601
