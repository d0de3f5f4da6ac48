import Mathlib.Data.Int.ConditionallyCompleteOrder
import Flagship.Billing.Meter

namespace Flagship.Billing.Proofs
open Lib Billing

/-- Days cut into spans that follow one another: where each starts, and which one holds a day. -/
structure Spans (start span : Int → Int) : Prop where
  mono : StrictMono start
  bounds : ∀ d,start (span d) ≤ d ∧ d < start (span d + 1)

namespace Spans

variable {start span : Int → Int} (spans : Spans start span)
include spans

theorem span_eq {d i : Int} (hle : start i ≤ d) (hlt : d < start (i + 1)) : span d = i := by
  have hlow := spans.mono.lt_iff_lt.mp (hle.trans_lt (spans.bounds d).2)
  have hhigh := spans.mono.lt_iff_lt.mp ((spans.bounds d).1.trans_lt hlt)
  omega

theorem span_start (i : Int) : span (start i) = i :=
  spans.span_eq (Int.le_refl _) (spans.mono (by omega))

theorem span_mono {a b : Int} (h : a ≤ b) : span a ≤ span b := by
  have hlt := spans.mono.lt_iff_lt.mp ((spans.bounds a).1.trans_lt (h.trans_lt (spans.bounds b).2))
  omega

end Spans

/-- The day the year from March on starts, in a count of the days from March of the year 0. -/
def yearStart (y : Int) : Int := 365 * y + y / 4 - y / 100 + y / 400

/-- The day a month starts, from the first of March on. -/
def monthStart (mp : Int) : Int := (153 * mp + 2) / 5

/-- The days of an era without those that are the leap days of its years. -/
def leapless (doe : Int) : Int := doe - doe / 1460 + doe / 36524 - doe / 146096

theorem leapless_mono {a b : Int} (h0 : 0 ≤ a) (hab : a ≤ b) (hb : b ≤ 146096) :
    leapless a ≤ leapless b := by
  have hfour : b / 1460 - a / 1460 ≤ b - a := by omega
  have hcentury : b / 146096 - a / 146096 ≤ b / 36524 - a / 36524 := by omega
  unfold leapless
  omega

theorem leapless_years : ∀ y < 400,
    365 * ((y : Nat) : Int) ≤ leapless (yearStart y) ∧
      (1 ≤ y → leapless (yearStart y - 1) < 365 * ((y : Nat) : Int)) := by
  decide +kernel

theorem yearStart_eq (y : Int) :
    yearStart y = y / 400 * 146097 + ((y % 400) * 365 + (y % 400) / 4 - (y % 400) / 100) := by
  unfold yearStart
  omega

theorem yearStart_lt {y y' : Int} (h : y < y') : yearStart y + 365 ≤ yearStart y' := by
  unfold yearStart
  omega

theorem yearStart_succ (y : Int) : yearStart (y + 1) ≤ yearStart y + 366 := by
  unfold yearStart
  omega

/-- The year of an era that a day falls in. -/
theorem year_of_era {doe : Int} (h0 : 0 ≤ doe) (h1 : doe < 146097) :
    0 ≤ leapless doe / 365 ∧ leapless doe / 365 < 400 ∧
      yearStart (leapless doe / 365) ≤ doe ∧ doe < yearStart (leapless doe / 365 + 1) := by
  have hlow : 0 ≤ leapless doe := leapless_mono (Int.le_refl 0) h0 (by omega)
  have hhigh : leapless doe ≤ leapless 146096 := leapless_mono h0 (by omega) (Int.le_refl _)
  have htop : leapless 146096 = 365 * 399 + 364 := by decide
  obtain ⟨y,hy⟩ : ∃ y : Nat,leapless doe / 365 = y := ⟨(leapless doe / 365).toNat,by omega⟩
  have hy400 : y < 400 := by omega
  rw [hy]
  refine ⟨by omega,by omega,?_,?_⟩
  · by_contra hbefore
    have hpos : 1 ≤ y := by
      rcases Nat.eq_zero_or_pos y with rfl | hpos
      · exact absurd h0 (by simpa [yearStart] using hbefore)
      · exact hpos
    have hend := (leapless_years y hy400).2 hpos
    have hstart : yearStart y ≤ 146097 := by
      unfold yearStart
      omega
    have hmono : leapless doe ≤ leapless (yearStart y - 1) := leapless_mono h0 (by omega) (by omega)
    omega
  · by_contra hafter
    by_cases hlast : y + 1 < 400
    · have hstart := (leapless_years (y + 1) hlast).1
      have hnonneg : 0 ≤ yearStart ((y + 1 : Nat) : Int) := by
        unfold yearStart
        omega
      have hmono : leapless (yearStart ((y + 1 : Nat) : Int)) ≤ leapless doe :=
        leapless_mono hnonneg (by push_cast; omega) (by omega)
      push_cast at hstart hmono
      omega
    · have hy399 : y = 399 := by omega
      subst hy399
      have hend : yearStart (((399 : Nat) : Int) + 1) = 146097 := by decide
      omega

/-- A date by the year from March on, the months since and the days of the month since. -/
structure Dated (days y mp dd : Int) : Prop where
  month : 0 ≤ mp ∧ mp ≤ 11
  day : 0 ≤ dd ∧ monthStart mp + dd < monthStart (mp + 1)
  days_eq : days + 719468 = yearStart y + monthStart mp + dd
  within : days + 719468 < yearStart (y + 1)
  date : civilDate days = ⟨y + (if mp < 10 then 0 else 1),if mp < 10 then mp + 3 else mp - 9,dd + 1⟩

theorem dated (days : Int) : ∃ y mp dd,Dated days y mp dd := by
  obtain ⟨era,hera⟩ : ∃ era,(days + 719468) / 146097 = era := ⟨_,rfl⟩
  obtain ⟨doe,hdoe⟩ : ∃ doe,(days + 719468) % 146097 = doe := ⟨_,rfl⟩
  obtain ⟨h0,h400,hle,hlt⟩ := year_of_era (show 0 ≤ doe by omega) (by omega)
  obtain ⟨yoe,hyoe⟩ : ∃ yoe,leapless doe / 365 = yoe := ⟨_,rfl⟩
  rw [hyoe] at h0 h400 hle hlt
  have hyear : ∀ r,0 ≤ r → r ≤ 1 →
      yearStart (yoe + era * 400 + r) = era * 146097 + yearStart (yoe + r) := by
    intro r _ _
    unfold yearStart
    omega
  have hstart : yearStart yoe = 365 * yoe + yoe / 4 - yoe / 100 := by
    unfold yearStart
    omega
  have hlong := yearStart_succ yoe
  obtain ⟨doy,hdoy⟩ : ∃ doy,doe - (365 * yoe + yoe / 4 - yoe / 100) = doy := ⟨_,rfl⟩
  obtain ⟨mp,hmp⟩ : ∃ mp,(5 * doy + 2) / 153 = mp := ⟨_,rfl⟩
  have hmonth : 0 ≤ mp ∧ mp ≤ 11 := by omega
  have hy := hyear 0 (by omega) (by omega)
  have hy1 := hyear 1 (by omega) (by omega)
  rw [Int.add_zero,Int.add_zero] at hy
  refine ⟨yoe + era * 400,mp,doy - monthStart mp,hmonth,?_,?_,?_,?_⟩
  · unfold monthStart
    omega
  · rw [hy]
    omega
  · rw [hy1]
    omega
  · have hcivil : civilDate days = ⟨yoe + era * 400 + (if (if mp < 10 then mp + 3 else mp - 9) ≤ 2
        then 1 else 0),if mp < 10 then mp + 3 else mp - 9,doy - (153 * mp + 2) / 5 + 1⟩ := by
      unfold leapless at hyoe
      simp only [civilDate,hera,hdoe,hyoe,hdoy,hmp]
    rw [hcivil,monthStart]
    split
    · rw [if_neg (by omega)]
    · rw [if_pos (by omega)]

/-- The months since March of the year 0 start where the year and the month say. -/
theorem civilDay_eq (y : Int) {mp : Int} (dd : Int) (hmp : 0 ≤ mp ∧ mp ≤ 11) :
    civilDay ⟨y + (if mp < 10 then 0 else 1),if mp < 10 then mp + 3 else mp - 9,dd + 1⟩ =
      yearStart y + monthStart mp + dd - 719468 := by
  have hyear : (if (if mp < 10 then mp + 3 else mp - 9) ≤ 2 then
      y + (if mp < 10 then 0 else 1) - 1 else y + if mp < 10 then 0 else 1) = y := by
    split_ifs <;> omega
  have hmonth : (if (if mp < 10 then mp + 3 else mp - 9) ≤ 2 then
      (if mp < 10 then mp + 3 else mp - 9) + 9 else (if mp < 10 then mp + 3 else mp - 9) - 3) =
        mp := by
    split_ifs <;> omega
  simp only [civilDay,hyear,hmonth]
  rw [yearStart_eq,monthStart]
  omega

theorem civilDay_civilDate (days : Int) : civilDay (civilDate days) = days := by
  obtain ⟨y,mp,dd,h⟩ := dated days
  rw [h.date,civilDay_eq y dd h.month,← h.days_eq]
  omega

/-- The months of a date's year and month, counted from January of the year 0. -/
def monthIndex (days : Int) : Int := 12 * (civilDate days).year + (civilDate days).month - 1

/-- The first day of a month so counted. -/
def firstOf (c : Int) : Int := civilDay ⟨c / 12,c % 12 + 1,1⟩

theorem firstOf_eq (y : Int) {mp : Int} (hmp : 0 ≤ mp ∧ mp ≤ 11) :
    firstOf (12 * y + mp + 2) = yearStart y + monthStart mp - 719468 := by
  have hyear : (12 * y + mp + 2) / 12 = y + if mp < 10 then 0 else 1 := by split_ifs <;> omega
  have hmonth : (12 * y + mp + 2) % 12 + 1 = if mp < 10 then mp + 3 else mp - 9 := by
    split_ifs <;> omega
  have h := civilDay_eq y 0 hmp
  rw [Int.add_zero,Int.zero_add] at h
  rw [firstOf,hyear,hmonth,h]

theorem firstOf_lt_succ (c : Int) : firstOf c < firstOf (c + 1) := by
  obtain ⟨y,mp,hmp,rfl⟩ : ∃ y mp,(0 ≤ mp ∧ mp ≤ 11) ∧ c = 12 * y + mp + 2 :=
    ⟨(c - 2) / 12,(c - 2) % 12,by omega,by omega⟩
  by_cases hlast : mp = 11
  · have hnext := firstOf_eq (y + 1) (show (0 : Int) ≤ 0 ∧ (0 : Int) ≤ 11 by omega)
    rw [show 12 * y + mp + 2 + 1 = 12 * (y + 1) + 0 + 2 by omega,hnext,firstOf_eq y hmp,hlast]
    have hyear := yearStart_lt (show y < y + 1 by omega)
    unfold monthStart
    omega
  · have hnext := firstOf_eq y (show 0 ≤ mp + 1 ∧ mp + 1 ≤ 11 by omega)
    rw [show 12 * y + mp + 2 + 1 = 12 * y + (mp + 1) + 2 by omega,hnext,firstOf_eq y hmp]
    unfold monthStart
    omega

theorem firstOf_mono : StrictMono firstOf := strictMono_int_of_lt_succ firstOf_lt_succ

theorem Dated.monthIndex_eq {days y mp dd : Int} (h : Dated days y mp dd) :
    monthIndex days = 12 * y + mp + 2 := by
  rw [monthIndex,h.date]
  dsimp only
  split_ifs <;> omega

/-- A day lies in its month. -/
theorem month_bounds (days : Int) :
    firstOf (monthIndex days) ≤ days ∧ days < firstOf (monthIndex days + 1) := by
  obtain ⟨y,mp,dd,h⟩ := dated days
  have hdays := h.days_eq
  have hday := h.day
  rw [h.monthIndex_eq,firstOf_eq y h.month]
  refine ⟨by omega,?_⟩
  by_cases hlast : mp = 11
  · have hnext := firstOf_eq (y + 1) (show (0 : Int) ≤ 0 ∧ (0 : Int) ≤ 11 by omega)
    have hwithin := h.within
    have hzero : monthStart 0 = 0 := by decide
    rw [show 12 * y + mp + 2 + 1 = 12 * (y + 1) + 0 + 2 by omega,hnext]
    omega
  · have hmonth := h.month
    have hnext := firstOf_eq y (show 0 ≤ mp + 1 ∧ mp + 1 ≤ 11 by omega)
    rw [show 12 * y + mp + 2 + 1 = 12 * y + (mp + 1) + 2 by omega,hnext]
    omega

theorem monthSpans : Spans firstOf monthIndex := ⟨firstOf_mono,month_bounds⟩

theorem date_bounds (days : Int) : 1 ≤ (civilDate days).month ∧ (civilDate days).month ≤ 12 ∧
    1 ≤ (civilDate days).day ∧ (civilDate days).day ≤ 31 := by
  obtain ⟨y,mp,dd,h⟩ := dated days
  have hmonth := h.month
  have hday := h.day
  unfold monthStart at hday
  rw [h.date]
  dsimp only
  refine ⟨?_,?_,?_,?_⟩
  · split_ifs <;> omega
  · split_ifs <;> omega
  · omega
  · omega

theorem year_eq (days : Int) : (civilDate days).year = monthIndex days / 12 ∧
    (civilDate days).month = monthIndex days % 12 + 1 := by
  have hmonth := date_bounds days
  unfold monthIndex
  omega

theorem year_nonneg {days : Int} (h : 0 ≤ days) : 0 ≤ (civilDate days).year := by
  have hmono := monthSpans.span_mono h
  have hzero : monthIndex 0 = 12 * 1970 := by decide
  rw [(year_eq days).1]
  omega

/-- A year is at most 366 days long. -/
theorem year_length (y : Int) : firstOf (12 * (y + 1)) ≤ firstOf (12 * y) + 366 := by
  have hthis := firstOf_eq (y - 1) (show (0 : Int) ≤ 10 ∧ (10 : Int) ≤ 11 by omega)
  have hnext := firstOf_eq y (show (0 : Int) ≤ 10 ∧ (10 : Int) ≤ 11 by omega)
  rw [show 12 * (y - 1) + 10 + 2 = 12 * y by omega] at hthis
  rw [show 12 * y + 10 + 2 = 12 * (y + 1) by omega] at hnext
  have hlong := yearStart_succ (y - 1)
  rw [Int.sub_add_cancel] at hlong
  omega

end Flagship.Billing.Proofs
