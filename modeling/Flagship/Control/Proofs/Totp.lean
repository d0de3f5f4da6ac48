import Flagship.Control.Totp

namespace Flagship.Control.Proofs
open Lib Control

/-- A wrong code of the same account, counted before the window of another is over. -/
def inPeriod (e c : CountedCode) : Bool :=
  decide (c.key = e.key) && decide (c.at < e.reading + verifyWindowMs)

/-- From a code that opened a window on, no more are counted before it is over than the limit. -/
def WithinLimit (history : List CountedCode) : Prop :=
  ∀ before e after,history = before ++ e :: after → e.count = 1 →
    (e :: after).countP (inPeriod e) ≤ verifyLimit

/-- The window of each account, with its count. -/
def windows (store : AttemptStore) (key : Text) : Option (Int × Nat) :=
  (store.get? key).map fun a => (a.windowStart,a.count)

/-- The window that is not over at a time. -/
def activeAt (w : Option (Int × Nat)) (now : Int) : Option (Int × Nat) :=
  w.filter fun w => decide (now - w.1 < verifyWindowMs)

/-- A window after one more wrong code. -/
def counted (w : Option (Int × Nat)) (t : Int) : Int × Nat :=
  match activeAt w t with
  | none => (t,1)
  | some (start,n) => (start,n + 1)

section
variable [Lowercase]

theorem activeAttempts_eq (store : AttemptStore) (username : Text) (now : Int) :
    (activeAttempts store username now).map (fun a => (a.windowStart,a.count)) =
      activeAt (windows store (toLowercase username)) now := by
  unfold activeAttempts activeAt windows
  cases store.get? (toLowercase username) with
  | none => rfl
  | some a => by_cases h : now - a.windowStart < verifyWindowMs <;> simp [Option.filter,h]

theorem peek_tripped (store : AttemptStore) (username : Text) (now : Int) :
    (peekVerifyAttempts store username now).tripped =
      (activeAt (windows store (toLowercase username)) now).any fun w => decide (verifyLimit ≤ w.2) := by
  rw [← activeAttempts_eq]
  unfold peekVerifyAttempts
  cases activeAttempts store username now <;> rfl

omit [Lowercase] in
theorem windows_set (store : AttemptStore) (key k : Text) (a : VerifyAttempts) :
    windows (store.set key a) k = if k = key then some (a.windowStart,a.count) else windows store k := by
  unfold windows
  rw [OrdMap.get?_set]
  split <;> rfl

/-- The alert's slot is no part of the count. -/
theorem windows_claim (store : AttemptStore) (username : Text) (now : Int) (k : Text) :
    windows (claimFailedRateAlertSlot store username now).1 k = windows store k := by
  unfold claimFailedRateAlertSlot
  cases hactive : activeAttempts store username now with
  | none => rfl
  | some a =>
    have hget : store.get? (toLowercase username) = some a :=
      (Option.filter_eq_some_iff.mp hactive).1
    dsimp only
    split
    · rfl
    · split
      · rfl
      · rw [windows_set]
        split
        · rename_i hk
          rw [hk,windows,hget]
          rfl
        · rfl

theorem windows_record (store : AttemptStore) (username : Text) (t : Int) (k : Text) :
    windows (recordVerifyAttempt store username t).1 k =
      if k = toLowercase username then some (counted (windows store k) t) else windows store k := by
  have hactive := activeAttempts_eq store username t
  unfold recordVerifyAttempt counted
  cases h : activeAttempts store username t with
  | none =>
    rw [h] at hactive
    dsimp only
    rw [windows_set]
    split
    · rename_i hk
      rw [hk,← hactive]
      rfl
    · rfl
  | some a =>
    rw [h] at hactive
    dsimp only
    rw [windows_set]
    split
    · rename_i hk
      rw [hk,← hactive]
      rfl
    · rfl

theorem record_count (store : AttemptStore) (username : Text) (t : Int) :
    (recordVerifyAttempt store username t).2.count =
      (counted (windows store (toLowercase username)) t).2 := by
  unfold recordVerifyAttempt counted
  rw [← activeAttempts_eq]
  cases activeAttempts store username t <;> rfl

end

/-- The windows are what the history says. -/
structure Tallied (w : Text → Option (Int × Nat)) (history : List CountedCode) (clock : Int) :
    Prop where
  past : ∀ c ∈ history,c.at ≤ clock
  opened : ∀ key start n,w key = some (start,n) → ∃ before e after,
    history = before ++ e :: after ∧ e.key = key ∧ e.count = 1 ∧ e.reading = start ∧
      n = (e :: after).countP fun c => decide (c.key = key)
  still : ∀ before e after,history = before ++ e :: after → e.count = 1 →
    clock < e.reading + verifyWindowMs →
      w e.key = some (e.reading,(e :: after).countP fun c => decide (c.key = e.key))

section
variable {w w' : Text → Option (Int × Nat)} {history : List CountedCode} {clock now t : Int}
  {key : Text}

theorem Tallied.later (h : Tallied w history clock) (hle : clock ≤ now) : Tallied w history now where
  past c hc := (h.past c hc).trans hle
  opened := h.opened
  still before e after heq hone hnow := h.still before e after heq hone (by omega)

theorem Tallied.pos (h : Tallied w history clock) {start : Int} {n : Nat}
    (hw : w key = some (start,n)) : 1 ≤ n := by
  obtain ⟨before,e,after,-,hkey,-,-,rfl⟩ := h.opened key start n hw
  exact List.countP_pos_iff.mpr ⟨e,List.mem_cons_self,decide_eq_true hkey⟩

/-- All of the account's codes from one on were counted in its period, while that lasts. -/
theorem Tallied.countP_eq (h : Tallied w history clock) {before after : List CountedCode}
    {e : CountedCode} (heq : history = before ++ e :: after)
    (hnow : clock < e.reading + verifyWindowMs) :
    (e :: after).countP (inPeriod e) = (e :: after).countP fun c => decide (c.key = e.key) := by
  refine List.countP_congr fun c hc => ?_
  have hat := h.past c (by rw [heq]; exact List.mem_append_right _ hc)
  have hlt : c.at < e.reading + verifyWindowMs := by omega
  simp [inPeriod,hlt]

/-- The windows after one more wrong code of an account. -/
def tick (w : Text → Option (Int × Nat)) (key : Text) (t : Int) (k : Text) : Option (Int × Nat) :=
  if k = key then some (counted (w k) t) else w k

theorem countP_append_one (p : CountedCode → Bool) (codes : List CountedCode) (c : CountedCode) :
    (codes ++ [c]).countP p = codes.countP p + if p c then 1 else 0 := by
  rw [List.countP_append,List.countP_singleton]

/-- The new code is in no period but its own window's. -/
theorem Tallied.not_inPeriod (h : Tallied w history clock) (hclock : clock ≤ now) (ht : t ≤ now)
    (hover : activeAt (w key) t = none) {before after : List CountedCode} {e : CountedCode}
    (heq : history = before ++ e :: after) (hone : e.count = 1) :
    inPeriod e ⟨key,t,now,1⟩ = false := by
  by_contra hin
  rw [Bool.not_eq_false,inPeriod,Bool.and_eq_true,decide_eq_true_eq,decide_eq_true_eq] at hin
  obtain ⟨hkey,hnow⟩ := hin
  dsimp only at hkey hnow
  have hw := h.still before e after heq hone (by omega)
  rw [hkey,hw,activeAt,Option.filter_eq_none_iff] at hover
  have hend := hover _ rfl
  rw [decide_eq_true_eq] at hend
  dsimp only at hend
  omega

/-- A wrong code that opens a window. -/
theorem Tallied.fresh (h : Tallied w history clock) (hclock : clock ≤ now) (ht : t ≤ now)
    (hover : activeAt (w key) t = none) :
    Tallied (tick w key t) (history ++ [⟨key,t,now,1⟩]) now ∧
      (WithinLimit (history ++ [⟨key,t,now,1⟩]) ↔ WithinLimit history) := by
  have hcounted : counted (w key) t = (t,1) := by rw [counted,hover]
  refine ⟨⟨?_,?_,?_⟩,?_,?_⟩
  · exact List.forall_mem_append.mpr ⟨(h.later hclock).past,by simp⟩
  · intro k start n hk
    by_cases hkey : k = key
    · subst hkey
      rw [tick,if_pos rfl,hcounted,Option.some.injEq,Prod.mk.injEq] at hk
      exact ⟨history,⟨k,t,now,1⟩,[],rfl,rfl,rfl,hk.1,by simp [← hk.2]⟩
    · rw [tick,if_neg hkey] at hk
      obtain ⟨before,e,after,heq,hek,hone,hread,hn⟩ := h.opened k start n hk
      refine ⟨before,e,after ++ [⟨key,t,now,1⟩],?_,hek,hone,hread,?_⟩
      · rw [heq,List.append_assoc,List.cons_append]
      · have hne : ¬ key = k := Ne.symm hkey
        rw [← List.cons_append,countP_append_one,hn]
        simp [hne]
  · intro before e after heq hone hnow
    rcases append_singleton_cases heq with ⟨rest,hrest,rfl⟩ | ⟨-,rfl,rfl⟩
    · have hout := h.not_inPeriod hclock ht hover hrest hone
      have hne : ¬ key = e.key := by
        intro hkey
        simp [inPeriod,hkey,hnow] at hout
      rw [tick,if_neg (Ne.symm hne),h.still before e rest hrest hone (by omega),← List.cons_append,
        countP_append_one]
      simp [hne]
    · rw [tick,if_pos rfl,hcounted]
      simp
  · intro hall before e after heq hone
    have hle := hall before e (after ++ [⟨key,t,now,1⟩])
      (by rw [heq,List.append_assoc,List.cons_append]) hone
    rw [← List.cons_append,countP_append_one] at hle
    omega
  · intro hall before e after heq hone
    rcases append_singleton_cases heq with ⟨rest,hrest,rfl⟩ | ⟨-,rfl,rfl⟩
    · rw [← List.cons_append,countP_append_one,h.not_inPeriod hclock ht hover hrest hone]
      exact hall before e rest hrest hone
    · have hlimit : 1 ≤ verifyLimit := by decide
      exact List.countP_le_length.trans hlimit

/-- A wrong code of a window that is not over. -/
theorem Tallied.again (h : Tallied w history clock) (hclock : clock ≤ now) {start : Int} {n : Nat}
    (hactive : activeAt (w key) t = some (start,n)) :
    Tallied (tick w key t) (history ++ [⟨key,t,now,n + 1⟩]) now ∧
      (WithinLimit (history ++ [⟨key,t,now,n + 1⟩]) ↔
        WithinLimit history ∧ ¬ (now - start < verifyWindowMs ∧ verifyLimit ≤ n)) := by
  have hcounted : counted (w key) t = (start,n + 1) := by rw [counted,hactive]
  have hw : w key = some (start,n) := (Option.filter_eq_some_iff.mp hactive).1
  have hpos := h.pos hw
  refine ⟨⟨?_,?_,?_⟩,?_,?_⟩
  · exact List.forall_mem_append.mpr ⟨(h.later hclock).past,by simp⟩
  · intro k start' n' hk
    by_cases hkey : k = key
    · subst hkey
      rw [tick,if_pos rfl,hcounted,Option.some.injEq,Prod.mk.injEq] at hk
      obtain ⟨before,e,after,heq,hek,hone,hread,hn⟩ := h.opened k start n hw
      refine ⟨before,e,after ++ [⟨k,t,now,n + 1⟩],?_,hek,hone,hread.trans hk.1,?_⟩
      · rw [heq,List.append_assoc,List.cons_append]
      · rw [← List.cons_append,countP_append_one,← hn,← hk.2]
        simp
    · rw [tick,if_neg hkey] at hk
      obtain ⟨before,e,after,heq,hek,hone,hread,hn⟩ := h.opened k start' n' hk
      refine ⟨before,e,after ++ [⟨key,t,now,n + 1⟩],?_,hek,hone,hread,?_⟩
      · rw [heq,List.append_assoc,List.cons_append]
      · have hne : ¬ key = k := Ne.symm hkey
        rw [← List.cons_append,countP_append_one,hn]
        simp [hne]
  · intro before e after heq hone hnow
    rcases append_singleton_cases heq with ⟨rest,hrest,rfl⟩ | ⟨-,rfl,rfl⟩
    · have hstill := h.still before e rest hrest hone (by omega)
      rw [← List.cons_append,countP_append_one]
      by_cases hkey : e.key = key
      · rw [hkey,hw,Option.some.injEq,Prod.mk.injEq] at hstill
        rw [tick,if_pos hkey,hkey,hcounted,← hstill.1,← hstill.2]
        simp
      · have hne : ¬ key = e.key := Ne.symm hkey
        rw [tick,if_neg hkey,hstill]
        simp [hne]
    · dsimp only at hone
      omega
  · intro hall
    refine ⟨fun before e after heq hone => ?_,fun ⟨hnow,hfull⟩ => ?_⟩
    · have hle := hall before e (after ++ [⟨key,t,now,n + 1⟩])
        (by rw [heq,List.append_assoc,List.cons_append]) hone
      rw [← List.cons_append,countP_append_one] at hle
      omega
    · obtain ⟨before,e,after,heq,hek,hone,hread,hn⟩ := h.opened key start n hw
      have hle := hall before e (after ++ [⟨key,t,now,n + 1⟩])
        (by rw [heq,List.append_assoc,List.cons_append]) hone
      have hin : inPeriod e ⟨key,t,now,n + 1⟩ = true := by
        simp only [inPeriod,hek,hread,decide_true,Bool.true_and,decide_eq_true_eq]
        omega
      rw [← List.cons_append,countP_append_one,hin,if_pos rfl,h.countP_eq heq (by omega),hek,← hn]
        at hle
      omega
  · intro ⟨hall,hroom⟩ before e after heq hone
    rcases append_singleton_cases heq with ⟨rest,hrest,rfl⟩ | ⟨-,rfl,rfl⟩
    · rw [← List.cons_append,countP_append_one]
      by_cases hin : inPeriod e ⟨key,t,now,n + 1⟩ = true
      · rw [if_pos hin]
        rw [inPeriod,Bool.and_eq_true,decide_eq_true_eq,decide_eq_true_eq] at hin
        obtain ⟨hkey,hnow⟩ := hin
        dsimp only at hkey hnow
        have hstill := h.still before e rest hrest hone (by omega)
        rw [← hkey,hw,Option.some.injEq,Prod.mk.injEq] at hstill
        rw [h.countP_eq hrest (by omega),← hkey,← hstill.2]
        have hless : ¬ verifyLimit ≤ n := fun hle => hroom ⟨by omega,hle⟩
        omega
      · rw [if_neg hin]
        exact hall before e rest hrest hone
    · dsimp only at hone
      omega

/-- A wrong code counted where the window does not stand at the limit. -/
theorem Tallied.count (h : Tallied w history clock) (key : Text) (hclock : clock ≤ now)
    (ht : t ≤ now) :
    Tallied (tick w key t) (history ++ [⟨key,t,now,(counted (w key) t).2⟩]) now ∧
      (WithinLimit (history ++ [⟨key,t,now,(counted (w key) t).2⟩]) ↔ WithinLimit history ∧
        (activeAt (w key) now).any (fun w => decide (verifyLimit ≤ w.2)) = false) := by
  cases hactive : activeAt (w key) t with
  | none =>
    obtain ⟨hnext,hlimit⟩ := h.fresh hclock ht hactive
    have hnone : activeAt (w key) now = none := by
      rw [activeAt,Option.filter_eq_none_iff] at hactive ⊢
      intro a ha
      have hover := hactive a ha
      rw [decide_eq_true_eq] at hover ⊢
      omega
    rw [counted,hactive]
    exact ⟨hnext,by rw [hlimit,hnone]; simp⟩
  | some a =>
    obtain ⟨start,n⟩ := a
    obtain ⟨hnext,hlimit⟩ := h.again hclock hactive
    have hw : w key = some (start,n) := (Option.filter_eq_some_iff.mp hactive).1
    have hany : (activeAt (w key) now).any (fun w => decide (verifyLimit ≤ w.2)) =
        decide (now - start < verifyWindowMs ∧ verifyLimit ≤ n) := by
      rw [hw,activeAt,Option.filter]
      by_cases hin : now - start < verifyWindowMs <;> simp [hin]
    rw [counted,hactive,hany,decide_eq_false_iff_not]
    exact ⟨hnext,hlimit⟩

end

section
variable [Lowercase] {deps : TotpDeps}

/-- The windows are what the history says. -/
def Counting (s : Shared AttemptStore CountedCode) : Prop :=
  Tallied (windows s.tables) s.history s.clock

def readingOf : VerifyProgress → Option Int
  | .readsUser _ _ _ t => some t
  | .checks _ _ _ t _ => some t
  | _ => none

/-- A request read the clock before now. -/
def ReadBefore (p : VerifyProgress) (s : Shared AttemptStore CountedCode) : Prop :=
  ∀ t,readingOf p = some t → t ≤ s.clock

theorem countWrong_eq (store : AttemptStore) (username : Text) (t now : Int) :
    windows (countWrong store username t now).2.1 =
        tick (windows store) (toLowercase username) t ∧
      (countWrong store username t now).2.2 = [⟨toLowercase username,t,now,
        (counted (windows store (toLowercase username)) t).2⟩] := by
  constructor
  · funext k
    rw [countWrong,windows_claim,windows_record]
    rfl
  · rw [← record_count]
    rfl

/-- A request goes on: it counts a wrong code, or leaves the table alone. -/
theorem advanceVerify_cases (deps : TotpDeps) (now : Int) (outside : VerifyOutside)
    (store : AttemptStore) (p : VerifyProgress) :
    (∃ username code kek t user,p = .checks username code kek t user ∧ outside.rejects = false ∧
      deps.validateTotpCode code user kek t = none ∧
      advanceVerify deps now outside store p = countWrong store username t now) ∨
    ((advanceVerify deps now outside store p).2 = (store,[]) ∧
      (∀ t,readingOf (advanceVerify deps now outside store p).1 = some t →
        t = now ∨ readingOf p = some t) ∧
      ∀ username code kek t user,p = .checks username code kek t user →
        outside.rejects = true ∨ (deps.validateTotpCode code user kek t).isSome) := by
  cases p with
  | arrived r =>
    refine .inr ⟨rfl,fun t ht => .inl ?_,nofun⟩
    simp only [advanceVerify,startVerify] at ht
    split at ht
    · cases ht
    · cases ht
    · split at ht
      · cases ht
      · split at ht <;> cases ht
        rfl
  | readsUser username code kek t =>
    simp only [advanceVerify]
    split
    · exact .inr ⟨rfl,nofun,nofun⟩
    · cases outside.userRec with
      | none => exact .inr ⟨rfl,nofun,nofun⟩
      | some user => exact .inr ⟨rfl,fun t' ht => .inr ht,nofun⟩
  | checks username code kek t user =>
    simp only [advanceVerify]
    cases hrejects : outside.rejects with
    | true =>
      exact .inr ⟨rfl,nofun,fun _ _ _ _ _ _ => .inl rfl⟩
    | false =>
      cases hvalid : deps.validateTotpCode code user kek t with
      | none => exact .inl ⟨username,code,kek,t,user,rfl,rfl,hvalid,rfl⟩
      | some method =>
        refine .inr ⟨rfl,nofun,fun _ _ _ _ _ heq => .inr ?_⟩
        cases heq
        rw [hvalid]
        rfl
  | alerts remaining =>
    simp only [advanceVerify]
    split <;> exact .inr ⟨rfl,nofun,nofun⟩
  | answered answer => exact .inr ⟨rfl,nofun,nofun⟩
  | failed => exact .inr ⟨rfl,nofun,nofun⟩

omit [Lowercase] in
theorem clock_le_after (s : Shared AttemptStore CountedCode) (ticks : List Nat)
    (tables : AttemptStore) (events : List CountedCode) :
    s.clock ≤ (s.after ticks tables events).clock :=
  Int.le_add_of_nonneg_right (Int.natCast_nonneg _)

omit [Lowercase] in
theorem readBefore_after {p : VerifyProgress} {s : Shared AttemptStore CountedCode}
    {tables : AttemptStore} {events : List CountedCode} (h : ReadBefore p s) (ticks : List Nat) :
    ReadBefore p (s.after ticks tables events) :=
  fun t ht => (h t ht).trans (clock_le_after s ticks tables events)

/-- A request that goes on keeps the tally, and the limit exactly where it counts below it. -/
theorem advance_counting {s : Shared AttemptStore CountedCode} {p p' : VerifyProgress}
    {ticks : List Nat} {outside : VerifyOutside} {tables : AttemptStore}
    {events : List CountedCode} (hs : Counting s) (hp : ReadBefore p s)
    (hadv : advanceVerify deps (reading s.clock ticks 0) outside s.tables p = (p',tables,events)) :
    Counting (s.after ticks tables events) ∧ ReadBefore p' (s.after ticks tables events) ∧
      (WithinLimit (s.history ++ events) ↔ WithinLimit s.history ∧
        countsBelowLimit deps ⟨s,[p]⟩ (.resume 0 ticks outside) = true) := by
  have hclock := clock_le_reading s.clock ticks 0
  have hend := reading_le s.clock ticks 0
  rcases advanceVerify_cases deps (reading s.clock ticks 0) outside s.tables p with
    ⟨username,code,kek,t,user,rfl,hrejects,hvalid,hcount⟩ | ⟨hsame,hreading,hnot⟩
  · rw [hcount] at hadv
    have hread := (hp t rfl).trans hclock
    obtain ⟨hwindows,hevents⟩ := countWrong_eq s.tables username t (reading s.clock ticks 0)
    obtain ⟨hnext,hlimit⟩ := Tallied.count hs (toLowercase username) hclock hread
    rw [← hwindows,← hevents,hadv] at hnext
    rw [← hevents,hadv] at hlimit
    refine ⟨hnext.later hend,?_,?_⟩
    · have hp' : p' = (countWrong s.tables username t (reading s.clock ticks 0)).1 := by rw [hadv]
      rw [hp']
      exact nofun
    · simp only [countsBelowLimit,List.getElem?_cons_zero,hrejects,hvalid,Option.isSome_none,
        Bool.false_or,peek_tripped,Bool.not_eq_true']
      exact hlimit
  · rw [hadv] at hsame hreading
    cases hsame
    refine ⟨?_,?_,?_⟩
    · rw [← Shared.later_eq]
      exact Tallied.later hs (clock_le_after s ticks s.tables [])
    · intro t ht
      rcases hreading t ht with rfl | ht
      · exact hend
      · exact readBefore_after hp ticks t ht
    · rw [List.append_nil]
      refine ⟨fun h => ⟨h,?_⟩,fun h => h.1⟩
      cases p with
      | checks username code kek t user =>
        rcases hnot username code kek t user rfl with h | h <;>
          simp [countsBelowLimit,h]
      | _ => rfl

/-- A move keeps the tally, and the limit exactly where it counts below it. -/
theorem step_counting (deps : TotpDeps) (w : Served AttemptStore CountedCode VerifyProgress)
    (move : Move VerifyRequest VerifyOutside) (hw : w.Holds Counting ReadBefore) :
    ((handleTotpVerify deps).step w move).Holds Counting ReadBefore ∧
      (WithinLimit ((handleTotpVerify deps).step w move).shared.history ↔
        WithinLimit w.shared.history ∧ countsBelowLimit deps w move = true) := by
  obtain ⟨hs,hall⟩ := hw
  cases move with
  | receive request ticks outside =>
    refine ⟨⟨Tallied.later hs (clock_le_after w.shared ticks w.shared.tables []),?_⟩,?_⟩
    · refine List.forall_mem_append.mpr ⟨fun p hp => ?_,?_⟩
      · rw [Handlers.step,Shared.later_eq]
        exact readBefore_after (hall p hp) ticks
      · intro p hp
        rw [List.mem_singleton.mp hp]
        intro t ht
        cases ht
    · exact ⟨fun h => ⟨h,rfl⟩,fun h => h.1⟩
  | resume i ticks outside =>
    cases hi : w.requests[i]? with
    | none =>
      simp only [Handlers.step,countsBelowLimit,hi]
      exact ⟨⟨hs,hall⟩,fun h => ⟨h,trivial⟩,fun h => h.1⟩
    | some p =>
      rcases hadv : advanceVerify deps (reading w.shared.clock ticks 0) outside w.shared.tables p
        with ⟨p',tables,events⟩
      obtain ⟨hnext,hread,hlimit⟩ := advance_counting hs (hall p (List.mem_of_getElem? hi)) hadv
      have hstep : (handleTotpVerify deps).step w (.resume i ticks outside) =
          ⟨w.shared.after ticks tables events,w.requests.set i p'⟩ := by
        simp only [Handlers.step,hi,handleTotpVerify,hadv]
      have hcond : countsBelowLimit deps w (.resume i ticks outside) =
          countsBelowLimit deps ⟨w.shared,[p]⟩ (.resume 0 ticks outside) := by
        simp only [countsBelowLimit,hi,List.getElem?_cons_zero]
      rw [hstep,hcond]
      refine ⟨⟨hnext,fun q hq => ?_⟩,hlimit⟩
      rcases List.mem_or_eq_of_mem_set hq with hq | rfl
      · exact readBefore_after (hall q hq) ticks
      · exact hread

end

/-- A service to which every code is wrong. -/
def noCodeRight : TotpDeps := ⟨some ['k'],fun _ _ _ _ => none⟩

/-- Six requests, each at the same await before any goes on to the next. -/
def sixAtOnce : List (Move VerifyRequest VerifyOutside) :=
  let outside : VerifyOutside := ⟨false,some ⟨none,none⟩⟩
  List.replicate 6 (.receive ⟨['a'],some ['1']⟩ [] outside) ++
    (List.replicate 3 (List.range 6)).flatten.map fun i => .resume i [] outside

end Flagship.Control.Proofs
