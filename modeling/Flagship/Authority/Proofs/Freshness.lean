import Flagship.Authority.Freshness
import Flagship.Authority.Proofs.StateFiles

namespace Flagship.Authority
open Lib

/-- Marks that are at or above a checkpoint; at its revision and term they have its digest. -/
def Covers (marks : FreshnessMarks) (cp : FreshnessCheckpoint) : Prop :=
  ∃ mark,marks.get? cp.app = some mark ∧ cp.policyRevision ≤ mark.policyRevision ∧
    cp.leaderTerm ≤ mark.leaderTerm ∧ cp.authorityEpoch ≤ mark.authorityEpoch ∧
    (mark.policyRevision = cp.policyRevision → mark.leaderTerm = cp.leaderTerm →
      mark.digest = cp.revocationDigest)

/-- A checkpoint that is not behind another one of its app. -/
structure Follows (cp cp' : FreshnessCheckpoint) : Prop where
  revision : cp.policyRevision ≤ cp'.policyRevision
  term : cp.leaderTerm ≤ cp'.leaderTerm
  epoch : cp.authorityEpoch ≤ cp'.authorityEpoch
  digest : cp'.policyRevision = cp.policyRevision → cp'.leaderTerm = cp.leaderTerm →
    cp'.revocationDigest = cp.revocationDigest

namespace FreshnessLeases
variable {l l' : FreshnessLeases} {maxMs : Int} {now : Option Int} {cp : FreshnessCheckpoint}

theorem behind_none {mark : FreshnessMark} (h : behind mark cp = none) :
    mark.policyRevision ≤ cp.policyRevision ∧ mark.leaderTerm ≤ cp.leaderTerm ∧
      mark.authorityEpoch ≤ cp.authorityEpoch ∧
      (cp.policyRevision = mark.policyRevision → cp.leaderTerm = mark.leaderTerm →
        cp.revocationDigest = mark.digest) := by
  unfold behind at h
  split_ifs at h with hepoch hterm hrevision hdigest
  refine ⟨by omega,by omega,by omega,fun hr ht => ?_⟩
  by_contra hne
  exact hdigest ⟨hr,hne,ht⟩

/-- What `accept` takes, and what it makes of it. -/
theorem accept_ok (h : l.accept maxMs now cp = .ok l') :
    ∃ t,now = some t ∧ (∀ mark,l.marks.get? cp.app = some mark → behind mark cp = none) ∧
      t < min cp.freshUntil (t + maxMs) ∧
      l' = ⟨l.current.set cp.app { cp with freshUntil := min cp.freshUntil (t + maxMs) },
        l.marks.set cp.app (raised (l.marks.get? cp.app) cp)⟩ := by
  unfold accept at h
  cases now with
  | none => cases h
  | some t =>
    simp only at h
    split at h
    · cases h
    next hnone =>
      split_ifs at h with hle
      refine ⟨t,rfl,fun mark hmark => ?_,Int.not_le.mp hle,(Except.ok.inj h).symm⟩
      rwa [hmark,Option.bind_some] at hnone

/-- A checkpoint that is taken follows every one that the marks cover. -/
theorem accept_follows {cp' : FreshnessCheckpoint} (h : l.accept maxMs now cp' = .ok l')
    (hc : Covers l.marks cp) (happ : cp.app = cp'.app) : Follows cp cp' := by
  obtain ⟨mark,hmark,hrevision,hterm,hepoch,hdigest⟩ := hc
  obtain ⟨t,_,hbehind,_⟩ := accept_ok h
  obtain ⟨h1,h2,h3,h4⟩ := behind_none (hbehind mark (happ ▸ hmark))
  refine ⟨by omega,by omega,by omega,fun hr ht => ?_⟩
  exact (h4 (by omega) (by omega)).trans (hdigest (by omega) (by omega))

theorem covers_accepted (h : l.accept maxMs now cp = .ok l') : Covers l'.marks cp := by
  obtain ⟨t,_,_,_,rfl⟩ := accept_ok h
  refine ⟨_,OrdMap.get?_set_self _ _ _,?_,?_,?_,fun _ _ => rfl⟩
  · exact Int.le_max_left _ _
  · exact Int.le_max_left _ _
  · exact Int.le_max_left _ _

/-- What the marks cover stays covered. -/
theorem covers_accept {cp' : FreshnessCheckpoint} (h : l.accept maxMs now cp' = .ok l')
    (hc : Covers l.marks cp) : Covers l'.marks cp := by
  by_cases happ : cp.app = cp'.app
  · have hf := accept_follows h hc happ
    obtain ⟨mark,hmark,hrevision,hterm,hepoch,_⟩ := hc
    obtain ⟨t,_,hbehind,_,rfl⟩ := accept_ok h
    obtain ⟨h1,h2,h3,_⟩ := behind_none (hbehind mark (happ ▸ hmark))
    rw [happ] at hmark
    refine ⟨raised (some mark) cp',by rw [happ,OrdMap.get?_set_self,hmark],?_⟩
    simp only [raised,Option.map_some,Option.getD_some]
    refine ⟨by omega,by omega,by omega,fun hr ht => hf.digest (by omega) (by omega)⟩
  · obtain ⟨mark,hmark,hrest⟩ := hc
    obtain ⟨t,_,_,_,rfl⟩ := accept_ok h
    exact ⟨mark,by rw [OrdMap.get?_set_ne happ]; exact hmark,hrest⟩

end FreshnessLeases

namespace FreshBox
variable {maxMs : Int} {b : FreshBox}

/-- What was answered for stays covered, in memory and in whatever a start may find. -/
structure Covered (b : FreshBox) : Prop where
  bound : b.file.known ≤ b.file.writes.length
  taken : ∀ cp ∈ b.taken,Covers b.leases.marks cp
  asked : ∀ call ∈ b.asked,Covers b.leases.marks call.2 ∧ call.1 < b.file.writes.length ∧
    b.file.Since call.1 (Covers · call.2)
  told : ∀ cp ∈ b.told,Covers b.leases.marks cp ∧ 0 < b.file.known ∧
    ∀ c,b.file.Possible c → Covers c cp

theorem Covered.accept (h : Covered b) (cp : FreshnessCheckpoint) :
    Covered (b.accept maxMs cp) := by
  unfold FreshBox.accept
  split
  · exact h
  next leases hok =>
    have hkeep : ∀ {x : FreshnessCheckpoint},Covers b.leases.marks x → Covers leases.marks x :=
      fun hx => FreshnessLeases.covers_accept hok hx
    refine ⟨h.bound,fun x hx => ?_,fun call hcall => ?_,fun x hx => ?_⟩
    · rcases List.mem_append.mp hx with hx | hx
      · exact hkeep (h.taken x hx)
      · obtain rfl := List.mem_singleton.mp hx
        exact FreshnessLeases.covers_accepted hok
    · exact (h.asked call hcall).imp_left hkeep
    · exact (h.told x hx).imp_left hkeep

theorem Covered.asks (h : Covered b) (i : Nat) : Covered (b.asks i) := by
  unfold FreshBox.asks
  split
  · exact h
  next cp hcp =>
    have hbody := h.taken cp (List.mem_of_getElem? hcp)
    have hlen : (b.file.ask b.leases.marks).writes.length = b.file.writes.length + 1 := by
      simp [StateFile.ask]
    refine ⟨hlen ▸ Nat.le_succ_of_le h.bound,fun x hx => h.taken x (List.mem_of_mem_eraseIdx hx),fun call hcall => ?_,
      fun x hx => ?_⟩
    · rcases List.mem_append.mp hcall with hold | hnew
      · obtain ⟨hmarks,hlt,hsince⟩ := h.asked call hold
        refine ⟨hmarks,hlen ▸ Nat.lt_succ_of_lt hlt,fun m c hm hc => ?_⟩
        rcases getElem?_append_one hc with hc | ⟨_,rfl⟩
        · exact hsince m c hm hc
        · exact hmarks
      · obtain rfl := List.mem_singleton.mp hnew
        refine ⟨hbody,hlen ▸ Nat.lt_succ_self _,fun m c hm hc => ?_⟩
        rcases getElem?_append_one hc with hc | ⟨_,rfl⟩
        · exact absurd (List.getElem?_eq_some_iff.mp hc).1 (Nat.not_lt.mpr hm)
        · exact hbody
    · obtain ⟨hmarks,hknown,hall⟩ := h.told x hx
      refine ⟨hmarks,hknown,fun c hc => ?_⟩
      rcases StateFile.possible_ask hc with hc | rfl
      · exact hall c hc
      · exact hmarks

theorem Covered.writes (h : Covered b) (i : Nat) : Covered (b.writes i) := by
  unfold FreshBox.writes
  split
  · exact h
  next ticket cp hcall =>
    obtain ⟨hmarks,hlt,hsince⟩ := h.asked _ (List.mem_of_getElem? hcall)
    refine ⟨?_,h.taken,fun call hc => h.asked call (List.mem_of_mem_eraseIdx hc),fun x hx => ?_⟩
    · exact Nat.max_le.mpr ⟨h.bound,hlt⟩
    · rcases List.mem_append.mp hx with hx | hx
      · obtain ⟨hold,hknown,hall⟩ := h.told x hx
        exact ⟨hold,Nat.lt_of_lt_of_le hknown (Nat.le_max_left _ _),
          fun c hc => hall c (StateFile.possible_settle hc)⟩
      · obtain rfl := List.mem_singleton.mp hx
        exact ⟨hmarks,Nat.lt_of_lt_of_le (Nat.succ_pos ticket) (Nat.le_max_right _ _),
          fun c hc => hsince.of_settle hc⟩

theorem Covered.restarts (h : Covered b) (made : Nat) (mono : Int) :
    Covered (b.restarts made mono) := by
  refine ⟨StateFile.bound_crash b.file made,fun x hx => (nomatch hx),fun x hx => (nomatch hx),
    fun x hx => ?_⟩
  obtain ⟨_,hknown,hall⟩ := h.told x hx
  cases hcontent : (b.file.crash made).content with
  | none => exact absurd (StateFile.known_of_content h.bound hcontent) (Nat.ne_of_gt hknown)
  | some c =>
    have hc := hall c (StateFile.possible_of_content h.bound hcontent)
    refine ⟨?_,?_,fun c' hc' => ?_⟩
    · simp only [FreshBox.restarts,hcontent,FreshnessLeases.load,Option.getD_some]
      exact hc
    · refine Nat.pos_of_ne_zero fun hzero => ?_
      have hzero : (b.file.crash made).known = 0 := hzero
      simp [StateFile.content,hzero] at hcontent
    · rw [Option.some.inj (hcontent.symm.trans (StateFile.possible_crash hc'))] at hc
      exact hc

theorem Covered.step (h : Covered b) (move : Move) : Covered (b.step maxMs move) := by
  cases move with
  | passes ms => exact ⟨h.bound,h.taken,h.asked,h.told⟩
  | observe authMs => exact ⟨h.bound,h.taken,h.asked,h.told⟩
  | accept cp => exact h.accept cp
  | asks call => exact h.asks call
  | writes call => exact h.writes call
  | fails call =>
    exact ⟨h.bound,fun x hx => h.taken x (List.mem_of_mem_eraseIdx hx),h.asked,h.told⟩
  | writeFails call =>
    exact ⟨h.bound,h.taken,fun x hx => h.asked x (List.mem_of_mem_eraseIdx hx),h.told⟩
  | restarts made mono => exact h.restarts made mono

theorem Covered.boot (mono : Int) : Covered (boot mono) :=
  ⟨Nat.le_refl _,fun _ hx => (nomatch hx),fun _ hx => (nomatch hx),fun _ hx => (nomatch hx)⟩

/-- A checkpoint is taken only where it follows every checkpoint of its app that was ever
answered for, whatever processes started in between; at one revision and term they have one
digest. -/
theorem taken_follows_told (maxMs mono : Int) (moves : List Move) (cp cp' : FreshnessCheckpoint)
    (leases : FreshnessLeases) (hold : cp ∈ (run (step maxMs) (boot mono) moves).told)
    (happ : cp.app = cp'.app)
    (htaken : (run (step maxMs) (boot mono) moves).leases.accept maxMs
      (run (step maxMs) (boot mono) moves).now cp' = .ok leases) : Follows cp cp' := by
  have hcovered : Covered (run (step maxMs) (boot mono) moves) :=
    run_invariant (fun b move hb => hb.step move) (Covered.boot mono) moves
  exact FreshnessLeases.accept_follows htaken (hcovered.told cp hold).1 happ

/-- A checkpoint of an app that a box with trusted time takes. -/
def checkpointAt (revision freshUntil : Int) : FreshnessCheckpoint :=
  ⟨"notes".toList,3,revision,"d".toList,1,freshUntil⟩

/-- The box answers for a revision, starts again, and takes the next one. -/
theorem taken_follows_told_again :
    let b := run (step 900000) (boot 0) [.observe 50000,.accept (checkpointAt 7 60000),.asks 0,
      .writes 0,.restarts 0 20,.observe 51000]
    b.told = [checkpointAt 7 60000] ∧ Follows (checkpointAt 7 60000) (checkpointAt 8 60000) := by
  refine ⟨by decide,?_⟩
  exact taken_follows_told 900000 0 [.observe 50000,.accept (checkpointAt 7 60000),.asks 0,
    .writes 0,.restarts 0 20,.observe 51000] _ _ _ (by decide) rfl rfl

/-- An observation does not lower the trusted time. -/
def Steady (b : FreshBox) : Move → Prop
  | .observe authMs => ∀ estimate,b.now = some estimate → estimate ≤ authMs
  | _ => True

/-- A move that takes no checkpoint of the app. -/
def Without (maxMs : Int) (app : Text) (b : FreshBox) : Move → Prop
  | .accept cp => cp.app = app → ∃ refusal,b.leases.accept maxMs b.now cp = .error refusal
  | _ => True

/-- Where there is a checkpoint there is trusted time. -/
def Anchored (b : FreshBox) : Prop :=
  ∀ app cp,b.leases.current.get? app = some cp → ∃ t,b.now = some t

/-- The checkpoint of the app, where there is one, is past its deadline. -/
def Lapsed (app : Text) (b : FreshBox) : Prop :=
  ∀ cp,b.leases.current.get? app = some cp → ∃ t,b.now = some t ∧ cp.freshUntil ≤ t

theorem now_observe (maxMs : Int) (b : FreshBox) (authMs : Int) :
    (b.step maxMs (.observe authMs)).now = b.now ∨
      (b.step maxMs (.observe authMs)).now = some authMs := by
  simp only [step,now,AuthClock.observe]
  split_ifs
  · exact .inl rfl
  · exact .inl rfl
  · exact .inr (by simp [AuthClock.now])

theorem now_passes (b : FreshBox) (ms : Nat) :
    (b.step maxMs (.passes ms)).now = b.now.map fun t => t + (ms : Int) := by
  simp only [step,now,AuthClock.now,Option.map_map]
  congr 1
  funext anchor
  simp only [Function.comp_apply]
  omega

/-- What a call of `accept` does to the checkpoint of an app. -/
theorem current_accept (maxMs : Int) (b : FreshBox) (cp : FreshnessCheckpoint) (app : Text) :
    (b.accept maxMs cp).leases.current.get? app = b.leases.current.get? app ∨
      (cp.app = app ∧ ∃ leases,b.leases.accept maxMs b.now cp = .ok leases) := by
  unfold FreshBox.accept
  split
  · exact .inl rfl
  next leases hok =>
    by_cases happ : cp.app = app
    · exact .inr ⟨happ,leases,hok⟩
    · obtain ⟨t,_,_,_,rfl⟩ := FreshnessLeases.accept_ok hok
      exact .inl (OrdMap.get?_set_ne fun heq => happ heq.symm)

@[simp] theorem now_accept (b : FreshBox) (cp : FreshnessCheckpoint) :
    (b.accept maxMs cp).now = b.now := by
  unfold FreshBox.accept
  split <;> rfl

/-- Where an app has a checkpoint after a move, the process ran on, and the move took the
checkpoint or left it alone; only an observation moves the trusted time back. -/
theorem current_step {app : Text} {cp : FreshnessCheckpoint} {move : Move}
    (h : (b.step maxMs move).leases.current.get? app = some cp) :
    (∀ made mono,move ≠ .restarts made mono) ∧
    ((b.leases.current.get? app = some cp ∧ ∀ t,b.now = some t →
        ∃ t',(b.step maxMs move).now = some t' ∧ (t ≤ t' ∨ move = .observe t')) ∨
      ∃ cp' leases,move = .accept cp' ∧ cp'.app = app ∧
        b.leases.accept maxMs b.now cp' = .ok leases) := by
  have hsame : (b.step maxMs move).now = b.now → ∀ t,b.now = some t →
      ∃ t',(b.step maxMs move).now = some t' ∧ (t ≤ t' ∨ move = .observe t') :=
    fun heq t ht => ⟨t,heq.trans ht,.inl (Int.le_refl t)⟩
  cases move with
  | passes ms =>
    refine ⟨by simp,.inl ⟨h,fun t ht => ⟨t + ms,?_,.inl (by omega)⟩⟩⟩
    rw [now_passes,ht,Option.map_some]
  | observe authMs =>
    refine ⟨by simp,.inl ⟨h,?_⟩⟩
    rcases now_observe maxMs b authMs with heq | heq
    · exact hsame heq
    · exact fun _ _ => ⟨authMs,heq,.inr rfl⟩
  | accept cp' =>
    refine ⟨by simp,?_⟩
    rcases current_accept maxMs b cp' app with heq | ⟨happ,leases,hok⟩
    · exact .inl ⟨heq.symm.trans h,hsame (now_accept b cp')⟩
    · exact .inr ⟨cp',leases,rfl,happ,hok⟩
  | asks call =>
    have hkept : (b.asks call).leases = b.leases ∧ (b.asks call).now = b.now := by
      unfold FreshBox.asks
      split <;> exact ⟨rfl,rfl⟩
    exact ⟨by simp,.inl ⟨hkept.1 ▸ h,hsame hkept.2⟩⟩
  | writes call =>
    have hkept : (b.writes call).leases = b.leases ∧ (b.writes call).now = b.now := by
      unfold FreshBox.writes
      split <;> exact ⟨rfl,rfl⟩
    exact ⟨by simp,.inl ⟨hkept.1 ▸ h,hsame hkept.2⟩⟩
  | fails call => exact ⟨by simp,.inl ⟨h,hsame rfl⟩⟩
  | writeFails call => exact ⟨by simp,.inl ⟨h,hsame rfl⟩⟩
  | restarts made mono => cases h

theorem Anchored.step (h : Anchored b) (move : Move) : Anchored (b.step maxMs move) := by
  intro app cp hcp
  rcases (current_step hcp).2 with ⟨hold,hnow⟩ | ⟨cp',leases,rfl,_,hok⟩
  · obtain ⟨t,ht⟩ := h app cp hold
    obtain ⟨t',ht',_⟩ := hnow t ht
    exact ⟨t',ht'⟩
  · obtain ⟨t,ht,_⟩ := FreshnessLeases.accept_ok hok
    exact ⟨t,(now_accept b cp').trans ht⟩

theorem Lapsed.step {app : Text} (h : Lapsed app b) {move : Move} (hs : Steady b move)
    (hw : Without maxMs app b move) : Lapsed app (b.step maxMs move) := by
  intro cp hcp
  rcases (current_step hcp).2 with ⟨hold,hnow⟩ | ⟨cp',leases,rfl,happ,hok⟩
  · obtain ⟨t,ht,hle⟩ := h cp hold
    obtain ⟨t',ht',honward | rfl⟩ := hnow t ht
    · exact ⟨t',ht',Int.le_trans hle honward⟩
    · exact ⟨t',ht',Int.le_trans hle (hs t ht)⟩
  · obtain ⟨refusal,herror⟩ := hw happ
    rw [hok] at herror
    cases herror

theorem Lapsed.not_allowed {app : Text} (h : Lapsed app b) (r : Int) : b.allowed app r = false := by
  unfold FreshBox.allowed FreshnessLeases.externalAccessAllowed
  split
  next now cp hnow hcp =>
    obtain ⟨t,ht,hle⟩ := h cp hcp
    rw [hnow] at ht
    obtain rfl := Option.some.inj ht
    simp [Int.not_lt.mpr hle]
  · rfl

theorem Anchored.lapsed (h : Anchored b) {app : Text} (hf : b.fresh app = false) :
    Lapsed app b := by
  intro cp hcp
  obtain ⟨t,ht⟩ := h app cp hcp
  refine ⟨t,ht,?_⟩
  simpa [FreshBox.fresh,FreshnessLeases.fresh,ht,hcp] using hf

/-- Access that lapsed stays lapsed until another checkpoint of the app is taken, whatever else
happens and whatever processes start, while no observation lowers the trusted time. -/
theorem lapsed_stays_lapsed (maxMs mono : Int) (before after : List Move) (app : Text)
    (hlapsed : (run (step maxMs) (boot mono) before).fresh app = false)
    (hafter : Along (step maxMs) (fun b move => Steady b move ∧ Without maxMs app b move)
      (run (step maxMs) (boot mono) before) after) (r : Int) :
    (run (step maxMs) (boot mono) (before ++ after)).allowed app r = false := by
  have hanchored : Anchored (run (step maxMs) (boot mono) before) :=
    run_invariant (fun b move hb => hb.step move) (fun app cp hcp => nomatch hcp) before
  have hend : Lapsed app (run (step maxMs) (run (step maxMs) (boot mono) before) after) :=
    Along.invariant (I := Lapsed app) (fun b move hb hc => hb.step hc.1 hc.2)
      (hanchored.lapsed hlapsed) hafter
  rw [run_append]
  exact hend.not_allowed r

/-- A box takes a checkpoint, and its deadline passes. -/
def lapsing : List Move := [.observe 50000,.accept (checkpointAt 7 60000),.passes 10500]

/-- Time is observed, and the box starts again. -/
theorem lapsed_stays_lapsed_restarted :
    (run (step 900000) (boot 0) lapsing).fresh "notes".toList = false ∧
    (run (step 900000) (boot 0) (lapsing ++ [.observe 62000,.restarts 0 9])).allowed
      "notes".toList 7 = false := by
  have hnow : (run (step 900000) (boot 0) lapsing).now = some 60500 := by decide
  have hafter : Along (step 900000)
      (fun b move => Steady b move ∧ Without 900000 "notes".toList b move)
      (run (step 900000) (boot 0) lapsing) [.observe 62000,.restarts 0 9] := by
    refine ⟨⟨fun estimate he => ?_,trivial⟩,⟨trivial,trivial⟩,trivial⟩
    obtain rfl := Option.some.inj (he.symm.trans hnow)
    decide
  exact ⟨by decide,lapsed_stays_lapsed 900000 0 lapsing _ _ (by decide) hafter 7⟩

/-- A call of `accept` in a run took this checkpoint at this moment, and the process runs on. -/
structure Took (maxMs mono : Int) (moves : List Move) (cp : FreshnessCheckpoint) (t : Int) :
    Prop where
  call : ∃ before after,moves = before ++ .accept cp :: after ∧
    (∀ made m,.restarts made m ∉ after) ∧ (run (step maxMs) (boot mono) before).now = some t ∧
    ∃ leases,(run (step maxMs) (boot mono) before).leases.accept maxMs (some t) cp = .ok leases

theorem Took.append {mono : Int} {moves : List Move} {cp : FreshnessCheckpoint} {t : Int}
    (h : Took maxMs mono moves cp t) {move : Move} (hr : ∀ made m,move ≠ .restarts made m) :
    Took maxMs mono (moves ++ [move]) cp t := by
  obtain ⟨before,after,rfl,hnone,hrest⟩ := h.call
  refine ⟨before,after ++ [move],by simp,fun made m hin => ?_,hrest⟩
  rcases List.mem_append.mp hin with hin | hin
  · exact hnone made m hin
  · exact hr made m (List.mem_singleton.mp hin).symm

/-- Every current checkpoint was taken in this process, with its deadline capped. -/
theorem current_took (maxMs mono : Int) (moves : List Move) (app : Text) (cur : FreshnessCheckpoint)
    (h : (run (step maxMs) (boot mono) moves).leases.current.get? app = some cur) :
    ∃ cp t,Took maxMs mono moves cp t ∧ cp.app = app ∧
      cur = { cp with freshUntil := min cp.freshUntil (t + maxMs) } := by
  induction moves using List.reverseRecOn with
  | nil => cases h
  | append_singleton moves move ih =>
    rw [run_append,run_cons,run_nil] at h
    obtain ⟨hr,⟨hold,_⟩ | ⟨cp,leases,rfl,happ,hok⟩⟩ := current_step h
    · obtain ⟨cp,t,htook,hrest⟩ := ih hold
      exact ⟨cp,t,htook.append hr,hrest⟩
    · obtain ⟨t,ht,_,_,hleases⟩ := FreshnessLeases.accept_ok hok
      have hcur : leases.current.get? app = some cur := by
        rw [FreshBox.step,FreshBox.accept,hok] at h
        exact h
      rw [hleases,← happ,OrdMap.get?_set_self] at hcur
      exact ⟨cp,t,⟨moves,[],rfl,fun _ _ hin => absurd hin List.not_mem_nil,ht,leases,ht ▸ hok⟩,happ,
        (Option.some.inj hcur).symm⟩

/-- Access is allowed only on a checkpoint that this process took, at or above the revision that
is asked for, before its own deadline and less than `maxMs` of trusted time after it was taken. -/
theorem allowed_on_recent_checkpoint (maxMs mono : Int) (moves : List Move) (app : Text) (r : Int)
    (h : (run (step maxMs) (boot mono) moves).allowed app r = true) :
    ∃ cp t now,Took maxMs mono moves cp t ∧ cp.app = app ∧ r ≤ cp.policyRevision ∧
      (run (step maxMs) (boot mono) moves).now = some now ∧ now < cp.freshUntil ∧
      now < t + maxMs := by
  unfold FreshBox.allowed FreshnessLeases.externalAccessAllowed at h
  split at h
  next now cur hnow hcur =>
    obtain ⟨cp,t,htook,happ,rfl⟩ := current_took maxMs mono moves app cur hcur
    rw [Bool.and_eq_true,decide_eq_true_iff,decide_eq_true_iff] at h
    obtain ⟨hown,hcap⟩ := Int.lt_min.mp h.2
    exact ⟨cp,t,now,htook,happ,h.1,hnow,hown,hcap⟩
  · cases h

/-- A box that took a checkpoint with a deadline far ahead. -/
theorem allowed_on_recent_checkpoint_once :
    let moves := [Move.observe 50000,.accept (checkpointAt 7 99000000),.passes 600000]
    (run (step 900000) (boot 0) moves).allowed "notes".toList 7 = true ∧
    ∃ cp t now,Took 900000 0 moves cp t ∧ cp.app = "notes".toList ∧ 7 ≤ cp.policyRevision ∧
      (run (step 900000) (boot 0) moves).now = some now ∧ now < cp.freshUntil ∧
      now < t + 900000 :=
  ⟨by decide,allowed_on_recent_checkpoint 900000 0 _ _ _ (by decide)⟩

end FreshBox
end Flagship.Authority
