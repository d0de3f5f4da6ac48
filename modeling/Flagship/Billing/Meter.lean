import Mathlib.Data.Rat.Floor
import Flagship.Lib.OrdMap
import Flagship.Lib.Text

namespace Flagship.Billing
open Lib

inductive MeterPeriod
  | month
  | week
  | day
  | lifetime
  deriving DecidableEq

inductive OverAllowancePolicy
  | allow
  | throttle
  | stop
  deriving DecidableEq

abbrev MeterAction := OverAllowancePolicy

def dayMs : Int := 86400000

/-- A UTC calendar date; months and days count from one. -/
structure CivilDate where
  year : Int
  month : Int
  day : Int
  deriving DecidableEq

/-- The date of a day counted from 1970-01-01, in the proleptic Gregorian calendar;
years are counted from March within eras of 400. -/
def civilDate (days : Int) : CivilDate :=
  let z := days + 719468
  let era := z / 146097
  let doe := z % 146097
  let yoe := (doe - doe / 1460 + doe / 36524 - doe / 146096) / 365
  let doy := doe - (365 * yoe + yoe / 4 - yoe / 100)
  let mp := (5 * doy + 2) / 153
  let month := if mp < 10 then mp + 3 else mp - 9
  ⟨yoe + era * 400 + (if month ≤ 2 then 1 else 0),month,doy - (153 * mp + 2) / 5 + 1⟩

/-- The day of a date, counted from 1970-01-01. -/
def civilDay (d : CivilDate) : Int :=
  let y := if d.month ≤ 2 then d.year - 1 else d.year
  let era := y / 400
  let yoe := y % 400
  let doy := (153 * (if d.month ≤ 2 then d.month + 9 else d.month - 3) + 2) / 5 + d.day - 1
  era * 146097 + (yoe * 365 + yoe / 4 - yoe / 100 + doy) - 719468

def utcDate (now : Int) : CivilDate := civilDate (now / dayMs)

def utcDay (now : Int) : Int := (now / dayMs + 4) % 7

/-- 00:00 UTC on the Monday of the ISO week. -/
def isoWeekStart (now : Int) : Int :=
  civilDay (utcDate now) * dayMs - (utcDay now + 6) % 7 * dayMs

def intText (n : Int) : Text := (toString n).toList

def pad2 (n : Int) : Text :=
  let digits := intText n
  List.replicate (2 - digits.length) '0' ++ digits

/-- `num / den` to the nearest whole number, halves up. -/
def mathRound (num den : Int) : Int := (2 * num + den) / (2 * den)

/-- The ISO week, named by the year that holds its Thursday. -/
def isoWeekKey (now : Int) : Text :=
  let thursday := isoWeekStart now + 3 * dayMs
  let year := (utcDate thursday).year
  let week1Monday := isoWeekStart (civilDay ⟨year,1,4⟩ * dayMs)
  let week := 1 + mathRound (thursday - 3 * dayMs - week1Monday) (7 * dayMs)
  intText year ++ ['-','W'] ++ pad2 week

/-- The counter key for a period (UTC). -/
def meterPeriodKey (period : MeterPeriod) (now : Int) : Text :=
  let d := utcDate now
  let ym := intText d.year ++ ['-'] ++ pad2 d.month
  match period with
  | .lifetime => ['a','l','l']
  | .week => isoWeekKey now
  | .month => ym
  | .day => ym ++ ['-'] ++ pad2 d.day

/-- The last time a date can hold, in milliseconds: 100,000,000 days from 1970 on. -/
def maxTime : Int := 8640000000000000

/-- `Date.UTC` of a month counted from zero, which may lie past the year's end, as may the
day past the month's; `none` is not a number, for a time no date can hold. -/
def dateUtc (year month day : Int) : Option Int :=
  let time := (civilDay ⟨year + month / 12,month % 12 + 1,1⟩ + day - 1) * dayMs
  if -maxTime ≤ time ∧ time ≤ maxTime then some time else none

inductive ResetTime
  | never
  | at (time : Int)
  | notATime
  deriving DecidableEq

def ResetTime.ofDate : Option Int → ResetTime
  | some time => .at time
  | none => .notATime

/-- When the period ends (UTC); a lifetime counter never does. -/
def meterResetsAt (period : MeterPeriod) (now : Int) : ResetTime :=
  let d := utcDate now
  -- the calendar's month counts from one, `getUTCMonth` from zero
  match period with
  | .lifetime => .never
  | .week => .at (isoWeekStart now + 7 * dayMs)
  | .month => .ofDate (dateUtc d.year (d.month - 1 + 1) 1)
  | .day => .ofDate (dateUtc d.year (d.month - 1) (d.day + 1))

/-- A cumulative usage counter. -/
structure MeterCounter where
  account : Text
  resource : Text
  period : Text
  amount : Rat
  updatedAt : Int
  deriving DecidableEq

/-- One counter delta inside an idempotent batch. -/
structure MeterBatchEntry where
  account : Text
  resource : Text
  period : Text
  amount : Rat
  deriving DecidableEq

/-- What a batch did: added every entry, with the new totals, or nothing, because
its id was on record. -/
inductive MeterBatchResult
  | added (totals : List Rat)
  | duplicate
  deriving DecidableEq

abbrev Counters := OrdMap (Text × Text × Text) MeterCounter

namespace Counters

def amount (rows : Counters) (account resource period : Text) : Rat :=
  ((rows.get? (account,resource,period)).map MeterCounter.amount).getD 0

def add (rows : Counters) (account resource period : Text) (amount : Rat) (now : Int) :
    Counters × Rat :=
  let next := rows.amount account resource period + max 0 ⌊amount⌋
  (rows.set (account,resource,period) ⟨account,resource,period,next,now⟩,next)

def addAll (rows : Counters) (now : Int) : List MeterBatchEntry → Counters × List Rat
  | [] => (rows,[])
  | e :: entries =>
    let (rows,total) := rows.add e.account e.resource e.period e.amount now
    let (rows,totals) := addAll rows now entries
    (rows,total :: totals)

end Counters

/-- Where counters live. -/
class MeterStore (σ : Type) where
  empty : σ
  counters : σ → Counters
  setCounters : σ → Counters → σ
  addBatch : σ → Text → List MeterBatchEntry → Int → Int → σ × MeterBatchResult
  /-- The batch id is on record and did not lapse. -/
  remembers : σ → Text → Int → Bool

/-- Process-local store. -/
structure InMemoryMeterStore where
  rows : Counters
  /-- Until when each batch id is kept, in the order they came. -/
  batches : OrdMap Text Int
  deriving DecidableEq

namespace InMemoryMeterStore

/-- Forget the lapsed ids in front of the first which did not lapse. -/
def forgetLapsed (batches : OrdMap Text Int) (now : Int) : OrdMap Text Int where
  entries := batches.entries.dropWhile (fun e => e.2 < now)
  nodup := batches.nodup.sublist ((List.dropWhile_sublist _).map Prod.fst)

def addBatch (s : InMemoryMeterStore) (batchId : Text) (entries : List MeterBatchEntry)
    (now keepUntil : Int) : InMemoryMeterStore × MeterBatchResult :=
  let batches := forgetLapsed s.batches now
  if (batches.get? batchId).any (fun seen => now ≤ seen) then ({ s with batches := batches },.duplicate)
  else
    let (rows,totals) := s.rows.addAll now entries
    (⟨rows,(batches.erase batchId).set batchId keepUntil⟩,.added totals)

instance : MeterStore InMemoryMeterStore where
  empty := ⟨∅,∅⟩
  counters := rows
  setCounters s rows := { s with rows := rows }
  addBatch := addBatch
  remembers s batchId now := (s.batches.get? batchId).any (fun seen => now ≤ seen)

end InMemoryMeterStore

/-- The SQL store: one table of counters and one of batch ids. -/
structure SqliteMeterStore where
  counters : Counters
  batches : OrdMap Text Int
  deriving DecidableEq

namespace SqliteMeterStore

/-- The ids one batch prunes. SQL leaves open which rows a limit keeps; the first
ones stand for them. -/
def lapsed (batches : OrdMap Text Int) (batchId : Text) (now : Int) : List Text :=
  ((batches.entries.filter (fun e => e.2 < now && e.1 != batchId)).take 32).map Prod.fst

def addBatch (s : SqliteMeterStore) (batchId : Text) (entries : List MeterBatchEntry)
    (now keepUntil : Int) : SqliteMeterStore × MeterBatchResult :=
  let gone := lapsed s.batches batchId now
  let batches := s.batches.filterMapVals (fun id kept => if id ∈ gone then none else some kept)
  let claimed := match batches.get? batchId with
    | none => true
    | some kept => kept < now
  if claimed then
    let (counters,totals) := s.counters.addAll now entries
    (⟨counters,batches.set batchId keepUntil⟩,.added totals)
  else ({ s with batches := batches },.duplicate)

instance : MeterStore SqliteMeterStore where
  empty := ⟨∅,∅⟩
  counters := counters
  setCounters s counters := { s with counters := counters }
  addBatch := addBatch
  remembers s batchId now := (s.batches.get? batchId).any (fun kept => now ≤ kept)

end SqliteMeterStore

structure MeterReportItem where
  account : Text
  resource : Text
  amount : Rat
  deriving DecidableEq

structure MeterReport where
  batchId : Option Text
  items : List MeterReportItem
  deriving DecidableEq

inductive ReportError
  | batchId
  | resource (name : Text)
  | amount
  deriving DecidableEq

def ReportError.message : ReportError → Text
  | .batchId => "batchId must be 16–128 characters of [A-Za-z0-9_-]".toList
  | .resource name => "unknown metered resource: ".toList ++ name
  | .amount => "amount must be a finite non-negative number".toList

/-- Whether the batch was on record already, and the totals now, one for each
account and resource. -/
structure MeterReportResult where
  duplicate : Bool
  totals : List Rat
  deriving DecidableEq

def meterBatchIdOk (id : Text) : Bool :=
  16 ≤ id.length && id.length ≤ 128 && id.all (fun c => c.isAlphanum || c == '_' || c == '-')

def defaultBatchKeepMs : Int := 60 * 60 * 1000

def wholeNonNegative (n : Rat) : Except ReportError Rat :=
  if n < 0 then .error .amount else .ok ⌊n⌋

/-- The items of a report, with those of one account and resource summed. -/
def mergeItems (catalog : Text → Option MeterPeriod) (now : Int)
    (merged : OrdMap (Text × Text) MeterBatchEntry) :
    List MeterReportItem → Except ReportError (OrdMap (Text × Text) MeterBatchEntry)
  | [] => .ok merged
  | it :: items =>
    match catalog it.resource with
    | none => .error (.resource it.resource)
    | some period =>
      match wholeNonNegative it.amount with
      | .error e => .error e
      | .ok amount =>
        let e := match merged.get? (it.account,it.resource) with
          | some prev => { prev with amount := prev.amount + amount }
          | none => ⟨it.account,it.resource,meterPeriodKey period now,amount⟩
        mergeItems catalog now (merged.set (it.account,it.resource) e) items

/-- Record a batch of usage. -/
def meterReport {σ : Type} [MeterStore σ] (catalog : Text → Option MeterPeriod) (keepMs : Int)
    (store : σ) (report : MeterReport) (now : Int) : Except ReportError (σ × MeterReportResult) :=
  if report.batchId.any (fun id => !meterBatchIdOk id) then .error .batchId
  else
    match mergeItems catalog now ∅ report.items with
    | .error e => .error e
    | .ok merged =>
      let entries := merged.entries.map Prod.snd
      match report.batchId with
      | none =>
        let (counters,totals) := (MeterStore.counters store).addAll now entries
        .ok (MeterStore.setCounters store counters,⟨false,totals⟩)
      | some id =>
        match MeterStore.addBatch store id entries now (now + keepMs) with
        | (store,.added totals) => .ok (store,⟨false,totals⟩)
        | (store,.duplicate) =>
          .ok (store,⟨true,entries.map (fun e =>
            (MeterStore.counters store).amount e.account e.resource e.period)⟩)

end Flagship.Billing
