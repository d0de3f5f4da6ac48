import Flagship.Billing.Proofs.Calendar

namespace Flagship.Billing.Proofs
open Lib Billing

theorem daySpans : Spans id id := ⟨strictMono_id,fun d => ⟨Int.le_refl d,by simp only [id]; omega⟩⟩

/-- The Monday of a week so counted that its Thursday is a multiple of seven. -/
def mondayOf (w : Int) : Int := 7 * w - 3

def weekIndex (d : Int) : Int := (d + 3) / 7

theorem weekSpans : Spans mondayOf weekIndex := by
  refine ⟨strictMono_int_of_lt_succ fun w => ?_,fun d => ?_⟩
  · unfold mondayOf
    omega
  · unfold mondayOf weekIndex
    omega

/-- The day a period's span starts, by the kind of the period. -/
def periodStart : MeterPeriod → Int → Int
  | .month => firstOf
  | .week => mondayOf
  | _ => id

/-- The span of a period that holds a day. -/
def periodSpan : MeterPeriod → Int → Int
  | .month => monthIndex
  | .week => weekIndex
  | _ => id

theorem periodSpans (period : MeterPeriod) : Spans (periodStart period) (periodSpan period) := by
  cases period with
  | month => exact monthSpans
  | week => exact weekSpans
  | day => exact daySpans
  | lifetime => exact daySpans

theorem dayMs_pos : 0 < dayMs := by decide

theorem isoWeekStart_eq (t : Int) : isoWeekStart t = mondayOf (weekIndex (t / dayMs)) * dayMs := by
  have hday : civilDay (utcDate t) = t / dayMs := civilDay_civilDate _
  rw [isoWeekStart,hday,utcDay,← Int.sub_mul]
  congr 1
  unfold mondayOf weekIndex
  omega

theorem intText_eq {n : Int} (h : 0 ≤ n) : intText n = Nat.toDigits 10 n.toNat := by
  obtain ⟨n,rfl⟩ := Int.eq_ofNat_of_zero_le h
  change (Nat.repr n).toList = Nat.toDigits 10 n
  simp

theorem intText_inj {n m : Int} (hn : 0 ≤ n) (hm : 0 ≤ m) (h : intText n = intText m) : n = m := by
  rw [intText_eq hn,intText_eq hm] at h
  have := toDigits_inj h
  omega

theorem dash_not_mem_intText {n : Int} (h : 0 ≤ n) : '-' ∉ intText n := by
  rw [intText_eq h]
  exact not_mem_digits (by decide)

/-- Two digits that can be read back. -/
theorem pad2_digits : ∀ n < 100,'-' ∉ pad2 ((n : Nat) : Int) ∧
    Nat.ofDigitChars 10 (pad2 ((n : Nat) : Int)) 0 = n := by
  decide +kernel

theorem dash_not_mem_pad2 {n : Int} (h0 : 0 ≤ n) (h1 : n < 100) : '-' ∉ pad2 n := by
  obtain ⟨n,rfl⟩ := Int.eq_ofNat_of_zero_le h0
  exact (pad2_digits n (by omega)).1

theorem pad2_inj {n m : Int} (hn : 0 ≤ n ∧ n < 100) (hm : 0 ≤ m ∧ m < 100) (h : pad2 n = pad2 m) :
    n = m := by
  obtain ⟨n,rfl⟩ := Int.eq_ofNat_of_zero_le hn.1
  obtain ⟨m,rfl⟩ := Int.eq_ofNat_of_zero_le hm.1
  have hn' := (pad2_digits n (by omega)).2
  rw [h,(pad2_digits m (by omega)).2] at hn'
  omega

/-- The year of a week's Thursday. -/
def weekYear (w : Int) : Int := (civilDate (7 * w)).year

/-- The number of a week in its year: week 1 holds the fourth of January. -/
def weekNumber (w : Int) : Int := 1 + (w - weekIndex (firstOf (12 * weekYear w) + 3))

theorem mathRound_weeks (n : Int) : mathRound (n * (7 * dayMs)) (7 * dayMs) = n := by
  unfold mathRound dayMs
  omega

theorem isoWeekKey_eq (t : Int) : isoWeekKey t =
    intText (weekYear (weekIndex (t / dayMs))) ++
      ['-','W'] ++ pad2 (weekNumber (weekIndex (t / dayMs))) := by
  obtain ⟨w,hw⟩ : ∃ w,weekIndex (t / dayMs) = w := ⟨_,rfl⟩
  have hthursday : (mondayOf w * dayMs + 3 * dayMs) / dayMs = 7 * w := by
    unfold mondayOf dayMs
    omega
  have hyear : (utcDate (isoWeekStart t + 3 * dayMs)).year = weekYear w := by
    rw [isoWeekStart_eq,hw,utcDate,hthursday,weekYear]
  have hjanuary : civilDay ⟨weekYear w,1,4⟩ = firstOf (12 * weekYear w) + 3 := by
    unfold firstOf
    rw [Int.mul_ediv_cancel_left _ (by decide),Int.mul_emod_right]
    simp only [civilDay]
    omega
  have hfirst : isoWeekStart (civilDay ⟨weekYear w,1,4⟩ * dayMs) =
      mondayOf (weekIndex (firstOf (12 * weekYear w) + 3)) * dayMs := by
    rw [isoWeekStart_eq,hjanuary,Int.mul_ediv_cancel _ (by decide)]
  have hweeks : mondayOf w * dayMs + 3 * dayMs - 3 * dayMs -
      mondayOf (weekIndex (firstOf (12 * weekYear w) + 3)) * dayMs =
        (w - weekIndex (firstOf (12 * weekYear w) + 3)) * (7 * dayMs) := by
    unfold mondayOf dayMs
    omega
  rw [isoWeekKey]
  simp only [hyear,hfirst]
  rw [isoWeekStart_eq,hw,hweeks,mathRound_weeks,weekNumber]

/-- A Thursday lies in its year, so its week is one of at most 53. -/
theorem weekNumber_bounds (w : Int) : 1 ≤ weekNumber w ∧ weekNumber w ≤ 53 := by
  obtain ⟨hle,hlt⟩ := month_bounds (7 * w)
  have hyear := year_eq (7 * w)
  have hlow : firstOf (12 * weekYear w) ≤ firstOf (monthIndex (7 * w)) :=
    firstOf_mono.monotone (by rw [weekYear]; omega)
  have hhigh : firstOf (monthIndex (7 * w) + 1) ≤ firstOf (12 * (weekYear w + 1)) :=
    firstOf_mono.monotone (by rw [weekYear]; omega)
  have hlong := year_length (weekYear w)
  unfold weekNumber weekIndex
  omega

/-- What the dashes of a key separate. -/
def keyParts (period : MeterPeriod) (d : Int) : List Text :=
  match period with
  | .lifetime => [['a','l','l']]
  | .week => [intText (weekYear (weekIndex d)),'W' :: pad2 (weekNumber (weekIndex d))]
  | .month => [intText (civilDate d).year,pad2 (civilDate d).month]
  | .day => [intText (civilDate d).year,pad2 (civilDate d).month,pad2 (civilDate d).day]

theorem key_parts (period : MeterPeriod) (t : Int) :
    '-' :: meterPeriodKey period t = (keyParts period (t / dayMs)).flatMap ('-' :: ·) := by
  cases period with
  | lifetime => rfl
  | week => simp [meterPeriodKey,keyParts,isoWeekKey_eq]
  | month => simp [meterPeriodKey,keyParts,utcDate]
  | day => simp [meterPeriodKey,keyParts,utcDate]

theorem dash_not_mem_keyParts (period : MeterPeriod) {d : Int} (h : 0 ≤ d) :
    ∀ p ∈ keyParts period d,'-' ∉ p := by
  have hdate := date_bounds d
  have hyear := dash_not_mem_intText (year_nonneg h)
  have hmonth := dash_not_mem_pad2 (show 0 ≤ (civilDate d).month by omega) (by omega)
  have hday := dash_not_mem_pad2 (show 0 ≤ (civilDate d).day by omega) (by omega)
  cases period with
  | lifetime => simp [keyParts]
  | week =>
    have hnumber := weekNumber_bounds (weekIndex d)
    have hthursday : 0 ≤ 7 * weekIndex d := by
      unfold weekIndex
      omega
    have hname := dash_not_mem_intText (year_nonneg hthursday)
    have hweek := dash_not_mem_pad2 (show 0 ≤ weekNumber (weekIndex d) by omega) (by omega)
    simp [keyParts,weekYear,hname,hweek]
  | month => simp [keyParts,hyear,hmonth]
  | day => simp [keyParts,hyear,hmonth,hday]

theorem date_of_texts {d e : Int} (hd : 0 ≤ d) (he : 0 ≤ e)
    (hyear : intText (civilDate d).year = intText (civilDate e).year)
    (hmonth : pad2 (civilDate d).month = pad2 (civilDate e).month) :
    (civilDate d).year = (civilDate e).year ∧ (civilDate d).month = (civilDate e).month := by
  have hd' := date_bounds d
  have he' := date_bounds e
  exact ⟨intText_inj (year_nonneg hd) (year_nonneg he) hyear,
    pad2_inj (by omega) (by omega) hmonth⟩

theorem span_of_keyParts {period : MeterPeriod} (hp : period ≠ .lifetime) {d e : Int} (hd : 0 ≤ d)
    (he : 0 ≤ e) (h : keyParts period d = keyParts period e) :
    periodSpan period d = periodSpan period e := by
  cases period with
  | lifetime => exact absurd rfl hp
  | week =>
    simp only [keyParts,List.cons.injEq,true_and,and_true] at h
    obtain ⟨hyear,hweek⟩ := h
    have hnumber := weekNumber_bounds (weekIndex d)
    have hnumber' := weekNumber_bounds (weekIndex e)
    have hyear' : weekYear (weekIndex d) = weekYear (weekIndex e) :=
      intText_inj (year_nonneg (by unfold weekIndex; omega))
        (year_nonneg (by unfold weekIndex; omega)) hyear
    have hweek' := pad2_inj (by omega) (by omega) hweek
    simp only [weekNumber,hyear'] at hweek'
    change weekIndex d = weekIndex e
    omega
  | month =>
    simp only [keyParts,List.cons.injEq,and_true] at h
    obtain ⟨hyear,hmonth⟩ := date_of_texts hd he h.1 h.2
    change monthIndex d = monthIndex e
    rw [monthIndex,monthIndex,hyear,hmonth]
  | day =>
    simp only [keyParts,List.cons.injEq,and_true] at h
    obtain ⟨hyear,hmonth⟩ := date_of_texts hd he h.1 h.2.1
    have hd' := date_bounds d
    have he' := date_bounds e
    have hday := pad2_inj (by omega) (by omega) h.2.2
    have hdate : civilDate d = civilDate e := by
      cases hcd : civilDate d
      cases hce : civilDate e
      simp_all
    change d = e
    rw [← civilDay_civilDate d,hdate,civilDay_civilDate]

theorem keyParts_of_span {period : MeterPeriod} {d e : Int}
    (h : periodSpan period d = periodSpan period e) : keyParts period d = keyParts period e := by
  cases period with
  | lifetime => rfl
  | week =>
    change weekIndex d = weekIndex e at h
    rw [keyParts,keyParts,h]
  | month =>
    change monthIndex d = monthIndex e at h
    simp only [keyParts,year_eq,h]
  | day =>
    change d = e at h
    rw [h]

/-- Two times have one key exactly if one span of the period holds them. -/
theorem key_eq_iff {period : MeterPeriod} (hp : period ≠ .lifetime) {t u : Int} (ht : 0 ≤ t)
    (hu : 0 ≤ u) : meterPeriodKey period t = meterPeriodKey period u ↔
      periodSpan period (t / dayMs) = periodSpan period (u / dayMs) := by
  have hd := Int.ediv_nonneg ht (show 0 ≤ dayMs by decide)
  have he := Int.ediv_nonneg hu (show 0 ≤ dayMs by decide)
  constructor
  · intro h
    refine span_of_keyParts hp hd he ?_
    refine separated_inj (dash_not_mem_keyParts period hd) (dash_not_mem_keyParts period he) ?_
    rw [← key_parts,← key_parts,h]
  · intro h
    have hparts := key_parts period t
    rw [keyParts_of_span h,← key_parts] at hparts
    exact (List.cons.inj hparts).2

/-- Where a period ends, were there no last time a date can hold. -/
def periodEnd (period : MeterPeriod) (t : Int) : Int :=
  periodStart period (periodSpan period (t / dayMs) + 1) * dayMs

theorem lt_periodEnd (period : MeterPeriod) (t : Int) : t < periodEnd period t := by
  have hlt := ((periodSpans period).bounds (t / dayMs)).2
  exact Int.lt_mul_of_ediv_lt dayMs_pos hlt

theorem dateUtc_eq {year month day time : Int}
    (h : (firstOf (12 * year + month) + day - 1) * dayMs = time) (h0 : 0 ≤ time)
    (hmax : time ≤ maxTime) : dateUtc year month day = some time := by
  have hyear : (12 * year + month) / 12 = year + month / 12 := by omega
  have hmonth : (12 * year + month) % 12 = month % 12 := by omega
  rw [firstOf,hyear,hmonth] at h
  rw [dateUtc,h,if_pos]
  unfold maxTime at hmax ⊢
  omega

/-- A day by its month's first. -/
theorem firstOf_add_day (d : Int) : firstOf (monthIndex d) + (civilDate d).day = d + 1 := by
  have hday := civilDay_civilDate d
  have hfirst : firstOf (monthIndex d) = civilDay ⟨(civilDate d).year,(civilDate d).month,1⟩ := by
    rw [firstOf,(year_eq d).1,(year_eq d).2]
  have hlinear : ∀ c : CivilDate,civilDay ⟨c.year,c.month,1⟩ + c.day = civilDay c + 1 := by
    intro c
    simp only [civilDay]
    omega
  rw [hfirst,hlinear,hday]

theorem resetsAt_eq {period : MeterPeriod} (hp : period ≠ .lifetime) {t : Int} (ht : 0 ≤ t)
    (hend : periodEnd period t ≤ maxTime) :
    meterResetsAt period t = .at (periodEnd period t) := by
  have h0 : 0 ≤ periodEnd period t := ht.trans (Int.le_of_lt (lt_periodEnd period t))
  cases period with
  | lifetime => exact absurd rfl hp
  | week =>
    rw [meterResetsAt]
    congr 1
    rw [isoWeekStart_eq]
    simp only [periodEnd,periodStart,periodSpan,mondayOf]
    ring
  | month =>
    have hmonth : 12 * (utcDate t).year + ((utcDate t).month - 1 + 1) =
        monthIndex (t / dayMs) + 1 := by
      unfold monthIndex utcDate
      omega
    have htime : (firstOf (12 * (utcDate t).year + ((utcDate t).month - 1 + 1)) + 1 - 1) * dayMs =
        periodEnd .month t := by
      rw [hmonth,Int.add_sub_cancel]
      rfl
    rw [meterResetsAt,dateUtc_eq htime h0 hend]
    rfl
  | day =>
    have hmonth : 12 * (utcDate t).year + ((utcDate t).month - 1) = monthIndex (t / dayMs) := by
      unfold monthIndex utcDate
      omega
    have htime : (firstOf (12 * (utcDate t).year + ((utcDate t).month - 1)) +
        ((utcDate t).day + 1) - 1) * dayMs = periodEnd .day t := by
      rw [hmonth,← Int.add_assoc,Int.add_sub_cancel,utcDate,firstOf_add_day]
      rfl
    rw [meterResetsAt,dateUtc_eq htime h0 hend]
    rfl

/-- A period other than the one of the last time a date can hold ends by then. -/
theorem periodEnd_le {period : MeterPeriod} (hp : period ≠ .lifetime) {t : Int} (ht : 0 ≤ t)
    (hmax : t ≤ maxTime) (hkey : meterPeriodKey period t ≠ meterPeriodKey period maxTime) :
    periodEnd period t ≤ maxTime := by
  have hspans := periodSpans period
  have hmono := hspans.span_mono (Int.ediv_le_ediv dayMs_pos hmax)
  have hne := mt (key_eq_iff hp ht (show 0 ≤ maxTime by decide)).mpr hkey
  have hnext : periodSpan period (t / dayMs) + 1 ≤ periodSpan period (maxTime / dayMs) := by omega
  have hstart := (hspans.mono.monotone hnext).trans (hspans.bounds (maxTime / dayMs)).1
  calc periodEnd period t
      ≤ maxTime / dayMs * dayMs := Int.mul_le_mul_of_nonneg_right hstart (by decide)
    _ = maxTime := by decide

/-- The key is one until the period ends, and another from then on. -/
theorem key_until_end {period : MeterPeriod} (hp : period ≠ .lifetime) {t : Int} (ht : 0 ≤ t) :
    (∀ u,t ≤ u → u < periodEnd period t → meterPeriodKey period u = meterPeriodKey period t) ∧
      meterPeriodKey period (periodEnd period t) ≠ meterPeriodKey period t := by
  have hspans := periodSpans period
  have hlt := lt_periodEnd period t
  constructor
  · intro u htu hu
    rw [key_eq_iff hp (ht.trans htu) ht]
    refine hspans.span_eq ?_ (Int.ediv_lt_of_lt_mul dayMs_pos hu)
    exact (hspans.bounds (t / dayMs)).1.trans (Int.ediv_le_ediv dayMs_pos htu)
  · rw [ne_eq,key_eq_iff hp (ht.trans (Int.le_of_lt hlt)) ht,periodEnd,
      Int.mul_ediv_cancel _ (by decide),hspans.span_start]
    omega

/-- Periods partition time: a period that ends by the last time a date can hold has one key from
each of its times on until its reset, which is later, and the key changes there; the last one has
one key to the end. A lifetime counter has one key and no reset. -/
theorem meter_periods_partition {t : Int} (ht : 0 ≤ t) (hmax : t ≤ maxTime) :
    (meterResetsAt .lifetime t = .never ∧
      ∀ u,meterPeriodKey .lifetime u = meterPeriodKey .lifetime t) ∧
    ∀ period,period ≠ .lifetime →
      (meterPeriodKey period t ≠ meterPeriodKey period maxTime →
        ∃ r,meterResetsAt period t = .at r ∧ t < r ∧ r ≤ maxTime ∧
          (∀ u,t ≤ u → u < r → meterPeriodKey period u = meterPeriodKey period t) ∧
          meterPeriodKey period r ≠ meterPeriodKey period t) ∧
      (meterPeriodKey period t = meterPeriodKey period maxTime →
        ∀ u,t ≤ u → u ≤ maxTime → meterPeriodKey period u = meterPeriodKey period t) := by
  refine ⟨⟨rfl,fun _ => rfl⟩,?_⟩
  intro period hp
  constructor
  · intro hkey
    have hend := periodEnd_le hp ht hmax hkey
    obtain ⟨hsame,hother⟩ := key_until_end hp ht
    exact ⟨_,resetsAt_eq hp ht hend,lt_periodEnd period t,hend,hsame,hother⟩
  · intro hkey u htu hu
    have hspans := periodSpans period
    have hmono := hspans.span_mono (Int.ediv_le_ediv dayMs_pos htu)
    have hmono' := hspans.span_mono (Int.ediv_le_ediv dayMs_pos hu)
    rw [key_eq_iff hp ht (show 0 ≤ maxTime by decide)] at hkey
    rw [key_eq_iff hp (ht.trans htu) ht]
    omega

/-- The 53rd week of 2020 goes on into January and ends on its Monday. -/
theorem week_over_new_year_partition :
    meterPeriodKey .week 1609459200000 = ['2','0','2','0','-','W','5','3'] ∧
      ∃ r,meterResetsAt .week 1609459200000 = .at r ∧ 1609459200000 < r ∧ r ≤ maxTime ∧
        (∀ u,1609459200000 ≤ u → u < r →
          meterPeriodKey .week u = meterPeriodKey .week 1609459200000) ∧
        meterPeriodKey .week r ≠ meterPeriodKey .week 1609459200000 :=
  ⟨by decide +kernel,((meter_periods_partition (by decide) (by decide)).2 .week (by decide)).1
    (by decide +kernel)⟩

/-- A lifetime counter has no reset, nor has the month of the last time a date can hold. -/
theorem lifetime_and_last_month_without_reset :
    (meterResetsAt .lifetime 0 = .never ∧ meterResetsAt .month maxTime = .notATime) ∧
    ¬ ∀ period t,0 ≤ t → ∃ r,meterResetsAt period t = .at r ∧ t < r ∧
      (∀ u,t ≤ u → u < r → meterPeriodKey period u = meterPeriodKey period t) ∧
      meterPeriodKey period r ≠ meterPeriodKey period t := by
  refine ⟨⟨rfl,by decide⟩,?_⟩
  intro h
  obtain ⟨r,hr,-⟩ := h .lifetime 0 (by decide)
  cases hr

end Flagship.Billing.Proofs
