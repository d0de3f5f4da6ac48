import Flagship.Authority.Proofs.Attempts
import Flagship.Authority.Proofs.StateFiles
import Flagship.Authority.Proofs.Transitions

namespace Flagship.Authority
open Lib Mesh

theorem keyOf_moved {op next : Operation} (h : Moved op next) : keyOf next = keyOf op := by
  rw [keyOf,h.requester,h.idempotencyKey,keyOf]

section
variable [Sha256]

/-- The ledger of one order. An operation that is not requested any more is found
by its key. -/
structure Tried (order : OrderOperationInput) (l : OperationLedger) : Prop where
  keyed : Keyed l
  line : Line order l.values
  byKeys : ∀ key id,l.byKey.get? key = some id → ∃ op ∈ l.values,op.id = id ∧ key = keyOf op
  led : ∀ op ∈ l.values,op.state ≠ .requested → l.byKey.get? (keyOf op) = some op.id

variable {order : OrderOperationInput} {l l' : OperationLedger} {op next : Operation}

/-- An operation that is not over moves on. -/
theorem Tried.moves (h : Tried order l) (hops : l'.ops = l.ops.set next.id next)
    (hbyKey : l'.byKey = l.byKey) (hop : l.ops.get? op.id = some op)
    (hled : l.byKey.get? (keyOf op) = some op.id) (hopen : isRetired op = false)
    (hmoved : Moved op next) : Tried order l' := by
  have hget : l.ops.get? next.id = some op := hmoved.id ▸ hop
  have hvalues := values_set_of_some hops h.keyed hget
  have hmem : op ∈ l.values := (mem_values h.keyed).mpr hop
  refine ⟨keyed_set hops h.keyed,?_,?_,?_⟩
  · rw [hvalues]
    exact h.line.replaced hmem hopen hmoved
  · intro key id hkey
    rw [hbyKey] at hkey
    obtain ⟨a,ha,hid,hk⟩ := h.byKeys key id hkey
    rw [hvalues]
    by_cases hsame : a.id = next.id
    · have heq := h.line.eq_of_id hmem ha (hsame.trans hmoved.id)
      subst heq
      refine ⟨next,List.mem_map.mpr ⟨a,ha,by simp [hsame]⟩,hsame.symm.trans hid,?_⟩
      rw [keyOf_moved hmoved,hk]
    · exact ⟨a,List.mem_map.mpr ⟨a,ha,by simp [hsame]⟩,hid,hk⟩
  · intro a ha hstate
    rw [hbyKey]
    rw [hvalues] at ha
    rcases mem_replaced ha with rfl | ⟨ha,_⟩
    · rw [keyOf_moved hmoved,hmoved.id]
      exact hled
    · exact h.led a ha hstate

/-- Another try, once all are over. -/
theorem Tried.tries (h : Tried order l) (hops : l'.ops = l.ops.set next.id next)
    (hbyKey : l'.byKey = l.byKey) (hover : ∀ op ∈ l.values,isRetired op = true)
    (hnone : l.ops.get? next.id = none) (hnext : IsTry order l.values.length next)
    (hstate : next.state = .requested) : Tried order l' := by
  have hvalues := values_set_of_none hops hnone
  refine ⟨keyed_set hops h.keyed,?_,?_,?_⟩
  · rw [hvalues]
    refine h.line.append hover hnext ?_
    intro op hop hid
    rw [mem_values h.keyed,hid,hnone] at hop
    cases hop
  · intro key id hkey
    rw [hbyKey] at hkey
    obtain ⟨a,ha,hid⟩ := h.byKeys key id hkey
    exact ⟨a,by rw [hvalues]; exact List.mem_append_left _ ha,hid⟩
  · intro a ha hne
    rw [hbyKey]
    rw [hvalues] at ha
    rcases List.mem_append.mp ha with ha | ha
    · exact h.led a ha hne
    · cases List.mem_singleton.mp ha
      exact absurd hstate hne

/-- The key of an operation leads to it from now on. -/
theorem Tried.leads (h : Tried order l) (hop : op ∈ l.values) : Tried order (indexed op l) := by
  refine ⟨h.keyed,h.line,?_,?_⟩
  · intro key id hkey
    by_cases hk : key = keyOf op
    · have hset : (l.byKey.set (keyOf op) op.id).get? key = some id := hkey
      rw [hk,OrdMap.get?_set_self] at hset
      exact ⟨op,hop,Option.some.inj hset,hk⟩
    · have hset : (l.byKey.set (keyOf op) op.id).get? key = some id := hkey
      rw [OrdMap.get?_set_ne hk] at hset
      exact h.byKeys key id hset
  · intro a ha hstate
    change (l.byKey.set (keyOf op) op.id).get? (keyOf a) = some a.id
    by_cases hk : keyOf a = keyOf op
    · have heq := List.inj_on_of_nodup_map h.line.keys_nodup ha hop hk
      rw [heq,OrdMap.get?_set_self]
    · rw [OrdMap.get?_set_ne hk]
      exact h.led a ha hstate

/-- What a file that holds a line of tries is read as. -/
theorem tried_ofFile {ops : List Operation} (h : Line order ops) :
    Tried order (.ofFile ops) ∧ ∀ op ∈ ops,
      (OperationLedger.ofFile ops).byKey.get? (keyOf op) = some op.id := by
  have hled : ∀ op ∈ ops,(OperationLedger.ofFile ops).byKey.get? (keyOf op) = some op.id :=
    fun op hop => led_foldl_enter ops .empty h.keys_nodup hop
  have hvalues := values_ofFile h.nodup
  refine ⟨⟨keyed_ofFile ops,?_,?_,?_⟩,hled⟩
  · rw [hvalues]
    exact h
  · intro key id hkey
    rw [hvalues]
    rcases byKey_foldl_enter ops .empty hkey with hnone | hsome
    · simp [OperationLedger.empty] at hnone
    · exact hsome
  · intro op hop _
    rw [hvalues] at hop
    exact hled op hop

end

/-- The order took effect, or may have. -/
def Concluded (history : List Event) : Prop := ∃ e ∈ history,concludes e = true

/-- No callback is started after the order was concluded. -/
def LastStarts (history : List Event) : Prop :=
  ∀ before e after,history = before ++ e :: after → concludes e = true →
    ∀ i id,.execStarts i id ∉ after

/-- An operation that may have been carried out. -/
def mayBeDone (op : Operation) : Bool :=
  decide (op.state = .executing) || decide (op.state = .applied) ||
    decide (op.state = .outcomeUnknown)

theorem mayBeDone_of_rank {op : Operation} (hrank : 3 ≤ op.state.rank)
    (hopen : isRetired op = false) : mayBeDone op = true := by
  unfold mayBeDone
  unfold isRetired at hopen
  cases hstate : op.state <;> simp_all [OperationState.rank]

theorem concluded_append {history events : List Event} :
    Concluded (history ++ events) ↔ Concluded history ∨ ∃ e ∈ events,concludes e = true := by
  simp only [Concluded,List.mem_append]
  constructor
  · intro h
    obtain ⟨e,he | he,hc⟩ := h
    · exact Or.inl ⟨e,he,hc⟩
    · exact Or.inr ⟨e,he,hc⟩
  · intro h
    rcases h with ⟨e,he,hc⟩ | ⟨e,he,hc⟩
    · exact ⟨e,Or.inl he,hc⟩
    · exact ⟨e,Or.inr he,hc⟩

/-- What is noted next starts a callback only where nothing was concluded. -/
theorem LastStarts.note {history : List Event} (h : LastStarts history) (e : Event)
    (he : (∃ i id,e = .execStarts i id) → ¬ Concluded history) : LastStarts (history ++ [e]) := by
  intro before e' after heq hconcludes i id hmem
  rcases List.eq_nil_or_concat after with rfl | ⟨after',b,rfl⟩
  · cases hmem
  · rw [List.concat_eq_append,← List.cons_append,← List.append_assoc] at heq
    obtain ⟨hhistory,hlast⟩ := List.append_inj' heq rfl
    rw [List.concat_eq_append] at hmem
    rcases List.mem_append.mp hmem with hmem | hmem
    · exact h before e' after' hhistory hconcludes i id hmem
    · cases List.mem_singleton.mp hmem
      cases hlast
      exact he ⟨i,id,rfl⟩ ⟨e',by rw [hhistory]; simp,hconcludes⟩

theorem open_of_live {op : Operation} (h : op.state ∉ terminal) : isRetired op = false := by
  unfold isRetired
  cases hstate : op.state <;> simp_all [terminal]

theorem getLast?_replaced {next : Operation} {ops : List Operation} {a : Operation} (h : ops.getLast? = some a) :
    (replaced next ops).getLast? = some (if a.id = next.id then next else a) := by
  rw [replaced,List.getLast?_map,h]
  rfl

theorem executing_of_live {op : Operation} (hlive : op.state ∉ terminal)
    (h : mayBeDone op = true) : op.state = .executing := by
  unfold mayBeDone at h
  cases hstate : op.state <;> simp_all [terminal]

theorem concluded_commits {history : List Event} {i : Nat} {prior : Option Operation}
    {next : Operation} (h : Concluded (history ++ [.commits i prior next])) :
    Concluded history ∨ next.state = .applied ∨ next.state = .outcomeUnknown := by
  rcases concluded_append.mp h with h | ⟨e,he,hc⟩
  · exact Or.inl h
  · cases List.mem_singleton.mp he
    exact Or.inr (by simpa [concludes] using hc)

theorem LastStarts.append {history events : List Event} (h : LastStarts history)
    (hevents : ∀ e ∈ events,∀ i id,e ≠ .execStarts i id) : LastStarts (history ++ events) := by
  induction events generalizing history with
  | nil => simpa using h
  | cons e events ih =>
    rw [List.append_cons]
    refine ih (h.note e ?_) fun e' he' => hevents e' (List.mem_cons_of_mem _ he')
    intro hstarts
    obtain ⟨i,id,heq⟩ := hstarts
    exact absurd heq (hevents e (by simp) i id)

theorem restart_ops {r : Restart} (hr : r.opsReadable = true) (d : Daemon) :
    (restart r d).operationsFile = d.operationsFile.crash r.opsMade ∧
      (restart r d).hub.ops = match (d.operationsFile.crash r.opsMade).content with
        | none => .empty
        | some ops => .ofFile ops := by
  have hfile : d.operationsFile.restart r.opsMade r.opsReadable =
      d.operationsFile.crash r.opsMade := by
    rw [hr]
    rfl
  refine ⟨hfile,?_⟩
  change OperationLedger.load (d.operationsFile.restart r.opsMade r.opsReadable) r.opsReadable = _
  rw [hfile,hr]
  rfl

theorem mem_of_restart {d : Daemon} {r : Restart} {e : Event} (h : e ∈ (restart r d).history) :
    e ∈ d.history ∨ ∃ id ∈ d.interrupted,e = .interrupts id := by
  rcases List.mem_append.mp h with h | h
  · exact Or.inl h
  · obtain ⟨id,hid,rfl⟩ := List.mem_map.mp h
    exact Or.inr ⟨id,hid,rfl⟩

/-- Every process that starts from here finds that the operation had begun. -/
def StateFile.HasBegun (f : StateFile (List Operation)) (id : Text) : Prop :=
  f.known ≠ 0 ∧ ∀ c,f.Possible c → ∃ op ∈ c,op.id = id ∧ 3 ≤ op.state.rank

theorem StateFile.HasBegun.ask {f : StateFile (List Operation)} {id : Text} (h : f.HasBegun id)
    {ops : List Operation} (hops : ∃ op ∈ ops,op.id = id ∧ 3 ≤ op.state.rank) :
    (f.ask ops).HasBegun id := by
  refine ⟨h.1,?_⟩
  intro c hc
  rcases StateFile.possible_ask hc with hold | rfl
  · exact h.2 c hold
  · exact hops

theorem StateFile.HasBegun.settle {f : StateFile (List Operation)} {id : Text}
    (h : f.HasBegun id) (ticket : Nat) : (f.settle ticket).HasBegun id := by
  refine ⟨?_,fun c hc => h.2 c (StateFile.possible_settle hc)⟩
  intro hzero
  have hle : f.known ≤ max f.known (ticket + 1) := Nat.le_max_left _ _
  have hmax : max f.known (ticket + 1) = 0 := hzero
  exact h.1 (by omega)

section
variable [Sha256]

/-- What a process that starts may find in the file. -/
structure Content (order : OrderOperationInput) (d : Daemon) (c : List Operation) : Prop where
  line : Line order c
  behind : ∀ op ∈ c,∃ op',d.hub.ops.ops.get? op.id = some op' ∧
    (isRetired op = true → isRetired op' = true)
  started : ∀ i id,.execStarts i id ∈ d.history → ∃ op ∈ c,op.id = id ∧ 3 ≤ op.state.rank
  concluded : Concluded d.history → ∃ op,c.getLast? = some op ∧ mayBeDone op = true

/-- What holds of the daemon between two stretches of its calls. -/
structure Once (order : OrderOperationInput) (d : Daemon) : Prop where
  ledger : Tried order d.hub.ops
  bound : d.operationsFile.known ≤ d.operationsFile.writes.length
  contents : ∀ c,d.operationsFile.Possible c → Content order d c
  missing : d.operationsFile.known = 0 → (∀ i id,.execStarts i id ∉ d.history) ∧
    ¬ Concluded d.history
  hands : ∀ i id,(i,id) ∈ d.hands → ∃ op,d.hub.ops.ops.get? id = some op ∧
    d.hub.ops.byKey.get? (keyOf op) = some id
  oneHand : ∀ i j id,(i,id) ∈ d.hands → (j,id) ∈ d.hands → i = j
  running : ∀ i id,(i,id) ∈ d.running → ((i,id) ∈ d.hands ∧ .execStarts i id ∈ d.history) ∧
    ∃ op,d.hub.ops.values.getLast? = some op ∧ op.id = id
  alone : d.running.length ≤ 1
  started : ∀ i id,.execStarts i id ∈ d.history →
    ∃ op,d.hub.ops.ops.get? id = some op ∧ 3 ≤ op.state.rank
  concluded : Concluded d.history → ∃ op,d.hub.ops.values.getLast? = some op ∧
    mayBeDone op = true ∧ (d.phase = .opened → op.state ≠ .executing)
  last : LastStarts d.history
  creators : ∀ i j op op',.commits i none op ∈ d.history → .commits j none op' ∈ d.history →
    op.id = op'.id → i = j
  closed : d.phase ≠ .opened → d.hands = [] ∧ d.running = [] ∧
    ∀ op ∈ d.hub.ops.values,d.hub.ops.byKey.get? (keyOf op) = some op.id
  begun : d.phase ≠ .opened → ∀ op ∈ d.hub.ops.values,op.state = .executing →
    d.operationsFile.HasBegun op.id

variable {order : OrderOperationInput} {d : Daemon} {op next : Operation} {i : Nat}

theorem Content.of_eq {c : List Operation} (h : Content order d c) {d' : Daemon}
    (hops : d'.hub.ops.ops = d.hub.ops.ops) (hhistory : d'.history = d.history) :
    Content order d' c :=
  ⟨h.line,hops ▸ h.behind,hhistory ▸ h.started,hhistory ▸ h.concluded⟩

/-- What is noted that neither starts a callback nor concludes the order changes
nothing. -/
theorem Content.note {c : List Operation} (h : Content order d c) {d' : Daemon}
    {e : Event} (hops : d'.hub.ops.ops = d.hub.ops.ops) (hhistory : d'.history = d.history ++ [e])
    (hstarts : ∀ i id,e ≠ .execStarts i id) (hconcludes : concludes e = false) :
    Content order d' c := by
  refine ⟨h.line,?_,?_,?_⟩
  · rw [hops]
    exact h.behind
  · intro i id hmem
    rw [hhistory] at hmem
    rcases List.mem_append.mp hmem with hmem | hmem
    · exact h.started i id hmem
    · exact absurd (List.mem_singleton.mp hmem).symm (hstarts i id)
  · intro hdone
    rw [hhistory,concluded_append] at hdone
    rcases hdone with hdone | ⟨e',he',hdone⟩
    · exact h.concluded hdone
    · cases List.mem_singleton.mp he'
      rw [hconcludes] at hdone
      cases hdone

/-- Where the operation that is not over stands in the ledger. -/
theorem Once.last_of_open (h : Once order d) (hop : d.hub.ops.ops.get? op.id = some op)
    (hopen : isRetired op = false) : d.hub.ops.values.getLast? = some op :=
  h.ledger.line.last_of_open ((mem_values h.ledger.keyed).mpr hop) hopen

/-- The move of an operation that is not over, from what the ledger holds. -/
structure Advances (d : Daemon) (op next : Operation) : Prop where
  held : d.hub.ops.ops.get? op.id = some op
  led : d.hub.ops.byKey.get? (keyOf op) = some op.id
  live : op.state ∉ terminal
  moved : Moved op next
  rank : op.state.rank ≤ next.state.rank
  requested : next.state ≠ .requested
  phase : d.phase ≠ .opened → next.state ≠ .executing ∧
    (op.state = .executing → next.state = .outcomeUnknown)
  done : next.state = .applied ∨ next.state = .outcomeUnknown → d.operationsFile.HasBegun op.id

theorem Once.advances (h : Once order d) (ha : Advances d op next) (i : Nat) :
    Once order (d.commits i next) := by
  have hget : d.hub.ops.ops.get? next.id = some op := ha.moved.id ▸ ha.held
  have hopen := open_of_live ha.live
  have hvalues : (d.commits i next).hub.ops.values = replaced next d.hub.ops.values :=
    values_set_of_some rfl h.ledger.keyed hget
  have hlast := h.last_of_open ha.held hopen
  have hlast' : (d.commits i next).hub.ops.values.getLast? = some next := by
    rw [hvalues,getLast?_replaced hlast,if_pos ha.moved.id.symm]
  -- another operation is what it was, and this one has moved on
  have hother : ∀ id a,d.hub.ops.ops.get? id = some a → ∃ a',
      (d.commits i next).hub.ops.ops.get? id = some a' ∧ keyOf a' = keyOf a ∧
        a.state.rank ≤ a'.state.rank ∧ (isRetired a = true → isRetired a' = true) := by
    intro id a hid
    by_cases hsame : id = next.id
    · subst hsame
      rw [hget] at hid
      cases hid
      refine ⟨next,by simp [Daemon.commits],keyOf_moved ha.moved,ha.rank,?_⟩
      intro hretired
      rw [hopen] at hretired
      cases hretired
    · refine ⟨a,?_,rfl,Nat.le_refl _,fun hr => hr⟩
      rw [← hid]
      exact OrdMap.get?_set_ne hsame
  refine ⟨h.ledger.moves rfl rfl ha.held ha.led hopen ha.moved,h.bound,?_,?_,?_,h.oneHand,?_,
    h.alone,?_,?_,?_,?_,?_,?_⟩
  · intro c hc
    have hcontent := h.contents c hc
    refine ⟨hcontent.line,?_,?_,?_⟩
    · intro a hmem
      obtain ⟨a',hget',hretired⟩ := hcontent.behind a hmem
      obtain ⟨a'',hget'',_,_,hretired'⟩ := hother a.id a' hget'
      exact ⟨a'',hget'',fun hr => hretired' (hretired hr)⟩
    · intro j id hmem
      rcases List.mem_append.mp hmem with hmem | hmem
      · exact hcontent.started j id hmem
      · cases List.mem_singleton.mp hmem
    · intro hdone
      rcases concluded_commits hdone with hdone | hdone
      · exact hcontent.concluded hdone
      · -- what is in the file of it had begun as well, and is not over there either
        obtain ⟨a,hmem,hid,hrank⟩ := (ha.done hdone).2 c hc
        have haopen : isRetired a = false := by
          obtain ⟨a',hget',hretired⟩ := hcontent.behind a hmem
          rw [hid,ha.held] at hget'
          cases hget'
          cases hr : isRetired a with
          | false => rfl
          | true => rw [hretired hr] at hopen; cases hopen
        exact ⟨a,hcontent.line.last_of_open hmem haopen,mayBeDone_of_rank hrank haopen⟩
  · intro hknown
    obtain ⟨hstarts,hdone⟩ := h.missing hknown
    refine ⟨?_,?_⟩
    · intro j id hmem
      rcases List.mem_append.mp hmem with hmem | hmem
      · exact hstarts j id hmem
      · cases List.mem_singleton.mp hmem
    · intro hdone'
      rcases concluded_commits hdone' with hdone' | hdone'
      · exact hdone hdone'
      · exact (ha.done hdone').1 hknown
  · intro j id hmem
    obtain ⟨a,hid,hled⟩ := h.hands j id hmem
    obtain ⟨a',hid',hkey,_⟩ := hother id a hid
    exact ⟨a',hid',by rw [hkey]; exact hled⟩
  · intro j id hmem
    obtain ⟨⟨hhand,hstarts⟩,a,hwas,hid⟩ := h.running j id hmem
    rw [hlast] at hwas
    cases hwas
    exact ⟨⟨hhand,List.mem_append_left _ hstarts⟩,next,hlast',ha.moved.id.trans hid⟩
  · intro j id hmem
    rcases List.mem_append.mp hmem with hmem | hmem
    · obtain ⟨a,hid,hrank⟩ := h.started j id hmem
      obtain ⟨a',hid',_,hrank',_⟩ := hother id a hid
      exact ⟨a',hid',Nat.le_trans hrank hrank'⟩
    · cases List.mem_singleton.mp hmem
  · intro hdone
    refine ⟨next,hlast',?_⟩
    rcases concluded_commits hdone with hdone | hdone
    · obtain ⟨a,hwas,hmay,hphase⟩ := h.concluded hdone
      rw [hlast] at hwas
      cases hwas
      -- it was executing, which it is only while the daemon is not open
      have hexec := executing_of_live ha.live hmay
      have hnot : d.phase ≠ .opened := fun hopened => hphase hopened hexec
      have hunknown := (ha.phase hnot).2 hexec
      exact ⟨by simp [mayBeDone,hunknown],fun hopened => absurd hopened hnot⟩
    · rcases hdone with hdone | hdone <;> simp [mayBeDone,hdone]
  · exact h.last.note _ (fun hstarts => by obtain ⟨_,_,h⟩ := hstarts; cases h)
  · intro j k a b hmem hmem' hid
    rw [Daemon.commits,hget] at hmem hmem'
    rcases List.mem_append.mp hmem with hmem | hmem
    · rcases List.mem_append.mp hmem' with hmem' | hmem'
      · exact h.creators j k a b hmem hmem' hid
      · cases List.mem_singleton.mp hmem'
    · cases List.mem_singleton.mp hmem
  · intro hphase
    obtain ⟨hhands,hrunning,hled⟩ := h.closed hphase
    refine ⟨hhands,hrunning,?_⟩
    intro a hmem
    rw [hvalues] at hmem
    rcases mem_replaced hmem with rfl | ⟨hmem,_⟩
    · rw [keyOf_moved ha.moved,ha.moved.id]
      exact ha.led
    · exact hled a hmem
  · intro hphase a hmem hexec
    rw [hvalues] at hmem
    rcases mem_replaced hmem with rfl | ⟨hmem,_⟩
    · exact absurd hexec (ha.phase hphase).1
    · exact h.begun hphase a hmem hexec

/-- Another try is put in the ledger, once all are over and none is at it. -/
theorem Once.tries (h : Once order d) (hphase : d.phase = .opened)
    (hover : ∀ op ∈ d.hub.ops.values,isRetired op = true)
    (hidle : ∀ op ∈ d.hub.ops.values,∀ j,(j,op.id) ∉ d.running)
    (hnone : d.hub.ops.ops.get? next.id = none)
    (hnever : ∀ j prior op,.commits j prior op ∈ d.history → op.id ≠ next.id)
    (hnext : IsTry order d.hub.ops.values.length next) (hstate : next.state = .requested)
    (i : Nat) : Once order (d.commits i next) := by
  have hvalues : (d.commits i next).hub.ops.values = d.hub.ops.values ++ [next] :=
    values_set_of_none rfl hnone
  have hdone : ¬ Concluded (d.commits i next).history := by
    intro hdone
    rcases concluded_commits hdone with hdone | hdone
    · obtain ⟨a,hlast,hmay,_⟩ := h.concluded hdone
      have hretired := hover a (List.mem_of_getLast? hlast)
      unfold isRetired at hretired
      unfold mayBeDone at hmay
      cases ha : a.state <;> simp_all
    · rw [hstate] at hdone
      rcases hdone with hdone | hdone <;> cases hdone
  have hrunning : ∀ j id,(j,id) ∉ d.running := by
    intro j id hmem
    obtain ⟨_,a,hlast,rfl⟩ := h.running j id hmem
    exact hidle a (List.mem_of_getLast? hlast) j hmem
  have hother : ∀ id a,d.hub.ops.ops.get? id = some a →
      (d.commits i next).hub.ops.ops.get? id = some a := by
    intro id a hid
    have hne : id ≠ next.id := by
      intro heq
      rw [heq,hnone] at hid
      cases hid
    exact (OrdMap.get?_set_ne hne).trans hid
  have hstarts : ∀ {j id},.execStarts j id ∈ (d.commits i next).history →
      .execStarts j id ∈ d.history := by
    intro j id hmem
    rcases List.mem_append.mp hmem with hmem | hmem
    · exact hmem
    · cases List.mem_singleton.mp hmem
  refine ⟨h.ledger.tries rfl rfl hover hnone hnext hstate,h.bound,?_,?_,?_,h.oneHand,?_,h.alone,
    ?_,fun hd => absurd hd hdone,?_,?_,fun hnot => absurd hphase hnot,
    fun hnot => absurd hphase hnot⟩
  · intro c hc
    have hcontent := h.contents c hc
    refine ⟨hcontent.line,?_,fun j id hmem => hcontent.started j id (hstarts hmem),
      fun hd => absurd hd hdone⟩
    intro a hmem
    obtain ⟨a',hget,hretired⟩ := hcontent.behind a hmem
    exact ⟨a',hother a.id a' hget,hretired⟩
  · intro hknown
    exact ⟨fun j id hmem => (h.missing hknown).1 j id (hstarts hmem),hdone⟩
  · intro j id hmem
    obtain ⟨a,hid,hled⟩ := h.hands j id hmem
    exact ⟨a,hother id a hid,hled⟩
  · intro j id hmem
    exact absurd hmem (hrunning j id)
  · intro j id hmem
    obtain ⟨a,hid,hrank⟩ := h.started j id (hstarts hmem)
    exact ⟨a,hother id a hid,hrank⟩
  · exact h.last.note _ (fun hs => by obtain ⟨_,_,h⟩ := hs; cases h)
  · intro j k a b hmem hmem' hid
    rw [Daemon.commits] at hmem hmem'
    rcases List.mem_append.mp hmem with hin | hin <;>
      rcases List.mem_append.mp hmem' with hin' | hin'
    · exact h.creators j k a b hin hin' hid
    · obtain ⟨_,_,rfl⟩ := Event.commits.inj (List.mem_singleton.mp hin')
      exact absurd hid (hnever j none a hin)
    · obtain ⟨_,_,rfl⟩ := Event.commits.inj (List.mem_singleton.mp hin)
      exact absurd hid.symm (hnever k none b hin')
    · obtain ⟨rfl,_⟩ := Event.commits.inj (List.mem_singleton.mp hin)
      obtain ⟨rfl,_⟩ := Event.commits.inj (List.mem_singleton.mp hin')
      rfl

theorem Once.asks (h : Once order d) : Once order d.asks := by
  refine { h with
    bound := ?_
    contents := ?_
    begun := fun hphase op hop hexec =>
      (h.begun hphase op hop hexec).ask ⟨op,hop,rfl,by simp [hexec,OperationState.rank]⟩ }
  · simp only [Daemon.asks,StateFile.ask,List.length_append,List.length_singleton]
    exact Nat.le_succ_of_le h.bound
  · intro c hc
    rcases StateFile.possible_ask hc with hold | rfl
    · exact (h.contents c hold).of_eq rfl rfl
    · refine ⟨h.ledger.line,?_,?_,?_⟩
      · intro op hop
        exact ⟨op,(mem_values h.ledger.keyed).mp hop,fun hr => hr⟩
      · intro j id hmem
        obtain ⟨op,hop,hrank⟩ := h.started j id hmem
        have hid := h.ledger.keyed id op hop
        exact ⟨op,(mem_values h.ledger.keyed).mpr (hid.symm ▸ hop),hid,hrank⟩
      · intro hdone
        obtain ⟨op,hlast,hmay,_⟩ := h.concluded hdone
        exact ⟨op,hlast,hmay⟩

/-- What is noted that neither starts a callback nor concludes the order. -/
theorem Once.note (h : Once order d) {d' : Daemon} (e : Event) (hops : d'.hub.ops = d.hub.ops)
    (hfile : d'.operationsFile = d.operationsFile) (hphase : d'.phase = d.phase)
    (hhands : d'.hands = d.hands) (hrunning : d'.running = d.running)
    (hhistory : d'.history = d.history ++ [e]) (hstarts : ∀ i id,e ≠ .execStarts i id)
    (hcommits : ∀ i prior op,e ≠ .commits i prior op) (hconcludes : concludes e = false) :
    Once order d' := by
  have hdone : Concluded d'.history → Concluded d.history := by
    intro hd
    rw [hhistory] at hd
    rcases concluded_append.mp hd with hd | ⟨e',he',hc⟩
    · exact hd
    · cases List.mem_singleton.mp he'
      rw [hconcludes] at hc
      cases hc
  have hwas : ∀ {e'},e' ∈ d'.history → e' ≠ e → e' ∈ d.history := by
    intro e' hmem hne
    rw [hhistory] at hmem
    rcases List.mem_append.mp hmem with hmem | hmem
    · exact hmem
    · exact absurd (List.mem_singleton.mp hmem) hne
  refine ⟨hops ▸ h.ledger,hfile ▸ h.bound,?_,?_,?_,hhands ▸ h.oneHand,?_,hrunning ▸ h.alone,?_,?_,
    ?_,?_,?_,?_⟩
  · intro c hc
    rw [hfile] at hc
    exact (h.contents c hc).note (by rw [hops]) hhistory hstarts hconcludes
  · intro hknown
    rw [hfile] at hknown
    obtain ⟨hnone,hnot⟩ := h.missing hknown
    exact ⟨fun j id hmem => hnone j id (hwas hmem (hstarts j id).symm),fun hd => hnot (hdone hd)⟩
  · rw [hops,hhands]
    exact h.hands
  · intro j id hmem
    rw [hrunning] at hmem
    obtain ⟨⟨hhand,hstart⟩,hlast⟩ := h.running j id hmem
    rw [hops,hhands,hhistory]
    exact ⟨⟨hhand,List.mem_append_left _ hstart⟩,hlast⟩
  · intro j id hmem
    rw [hops]
    exact h.started j id (hwas hmem (hstarts j id).symm)
  · intro hd
    rw [hops,hphase]
    exact h.concluded (hdone hd)
  · rw [hhistory]
    exact h.last.note e fun hs => by
      obtain ⟨j,id,heq⟩ := hs
      exact absurd heq (hstarts j id)
  · intro j k a b hmem hmem'
    exact h.creators j k a b (hwas hmem (hcommits _ _ _).symm) (hwas hmem' (hcommits _ _ _).symm)
  · rw [hops,hphase,hhands,hrunning]
    exact h.closed
  · rw [hops,hphase,hfile]
    exact h.begun

/-- The replacement with this number is known to be made. -/
theorem Once.settles (h : Once order d) {ticket : Nat}
    (hticket : ticket < d.operationsFile.writes.length) :
    Once order { d with operationsFile := d.operationsFile.settle ticket } := by
  refine { h with
    bound := Nat.max_le.mpr ⟨h.bound,hticket⟩
    contents := ?_
    missing := ?_
    begun := fun hphase op hop hexec => (h.begun hphase op hop hexec).settle ticket }
  · intro c hc
    exact (h.contents c (StateFile.possible_settle hc)).of_eq rfl rfl
  · intro hknown
    have hpos : ticket + 1 ≤ max d.operationsFile.known (ticket + 1) := Nat.le_max_right _ _
    have hzero : max d.operationsFile.known (ticket + 1) = 0 := hknown
    omega

/-- An operation is found by its key from now on. -/
theorem Once.leads (h : Once order d) (hop : d.hub.ops.ops.get? op.id = some op) :
    Once order { d with hub := { d.hub with ops := indexed op d.hub.ops } } := by
  have hmem : op ∈ d.hub.ops.values := (mem_values h.ledger.keyed).mpr hop
  have hkept : ∀ a ∈ d.hub.ops.values,d.hub.ops.byKey.get? (keyOf a) = some a.id →
      (d.hub.ops.byKey.set (keyOf op) op.id).get? (keyOf a) = some a.id := by
    intro a ha hled
    by_cases hk : keyOf a = keyOf op
    · have heq := List.inj_on_of_nodup_map h.ledger.line.keys_nodup ha hmem hk
      rw [heq,OrdMap.get?_set_self]
    · rw [OrdMap.get?_set_ne hk]
      exact hled
  refine { h with
    ledger := h.ledger.leads hmem
    contents := fun c hc => (h.contents c hc).of_eq rfl rfl
    hands := ?_
    closed := ?_ }
  · intro j id hhand
    obtain ⟨a,ha,hled⟩ := h.hands j id hhand
    have hid := h.ledger.keyed id a ha
    have hled' := hkept a ((mem_values h.ledger.keyed).mpr (hid.symm ▸ ha)) (hid.symm ▸ hled)
    exact ⟨a,ha,hid ▸ hled'⟩
  · intro hphase
    obtain ⟨hhands,hrunning,hled⟩ := h.closed hphase
    exact ⟨hhands,hrunning,fun a ha => hkept a ha (hled a ha)⟩

/-- A call takes an operation that nobody has. -/
theorem Once.takes (h : Once order d) (hphase : d.phase = .opened)
    (hop : d.hub.ops.ops.get? op.id = some op)
    (hled : d.hub.ops.byKey.get? (keyOf op) = some op.id) (hfree : ∀ j,(j,op.id) ∉ d.hands)
    (i : Nat) : Once order { d with hands := d.hands ++ [(i,op.id)] } := by
  refine { h with
    contents := fun c hc => (h.contents c hc).of_eq rfl rfl
    hands := ?_
    oneHand := ?_
    running := ?_
    closed := fun hnot => absurd hphase hnot }
  · intro j id hmem
    rcases List.mem_append.mp hmem with hmem | hmem
    · exact h.hands j id hmem
    · cases List.mem_singleton.mp hmem
      exact ⟨op,hop,hled⟩
  · intro j k id hmem hmem'
    rcases List.mem_append.mp hmem with hin | hin <;>
      rcases List.mem_append.mp hmem' with hin' | hin'
    · exact h.oneHand j k id hin hin'
    · cases List.mem_singleton.mp hin'
      exact absurd hin (hfree j)
    · cases List.mem_singleton.mp hin
      exact absurd hin' (hfree k)
    · cases List.mem_singleton.mp hin
      cases List.mem_singleton.mp hin'
      rfl
  · intro j id hmem
    obtain ⟨⟨hhand,hstarts⟩,hlast⟩ := h.running j id hmem
    exact ⟨⟨List.mem_append_left _ hhand,hstarts⟩,hlast⟩

/-- A call that carries nothing out lets go of what it had. -/
theorem Once.letsGo (h : Once order d) (hidle : ∀ id,(i,id) ∉ d.running) :
    Once order { d with hands := d.hands.filter (·.1 ≠ i) } := by
  refine { h with
    contents := fun c hc => (h.contents c hc).of_eq rfl rfl
    hands := fun j id hmem => h.hands j id (List.mem_of_mem_filter hmem)
    oneHand := fun j k id hmem hmem' =>
      h.oneHand j k id (List.mem_of_mem_filter hmem) (List.mem_of_mem_filter hmem')
    running := ?_
    closed := ?_ }
  · intro j id hmem
    obtain ⟨⟨hhand,hstarts⟩,hlast⟩ := h.running j id hmem
    refine ⟨⟨List.mem_filter.mpr ⟨hhand,?_⟩,hstarts⟩,hlast⟩
    simp only [ne_eq,decide_not,Bool.not_eq_eq_eq_not,Bool.not_true,decide_eq_false_iff_not]
    intro hj
    exact hidle id (hj ▸ hmem)
  · intro hphase
    obtain ⟨hhands,hrest⟩ := h.closed hphase
    exact ⟨by simp [hhands],hrest⟩

/-- A callback starts: it is the only one, and nothing was concluded. -/
theorem Once.starts (h : Once order d) {id : Text} (hphase : d.phase = .opened)
    (hhand : (i,id) ∈ d.hands) (hidle : ∀ id,(i,id) ∉ d.running)
    (hop : d.hub.ops.ops.get? id = some op) (hexec : op.state = .executing)
    (hbegun : d.operationsFile.HasBegun id) :
    Once order { d with
      running := d.running ++ [(i,id)]
      history := d.history ++ [.execStarts i id] } := by
  have hid := h.ledger.keyed id op hop
  have hlast : d.hub.ops.values.getLast? = some op :=
    h.last_of_open (hid.symm ▸ hop) (open_of_live (by simp [hexec,terminal]))
  have hdone : ¬ Concluded d.history := by
    intro hdone
    obtain ⟨a,hwas,_,hnot⟩ := h.concluded hdone
    rw [hlast] at hwas
    cases hwas
    exact hnot hphase hexec
  have hdone' : ¬ Concluded (d.history ++ [.execStarts i id]) := by
    intro hd
    rcases concluded_append.mp hd with hd | ⟨e,he,hc⟩
    · exact hdone hd
    · cases List.mem_singleton.mp he
      cases hc
  have hrunning : d.running = [] := by
    cases hrun : d.running with
    | nil => rfl
    | cons order rest =>
      obtain ⟨j,id'⟩ := order
      have hmem : (j,id') ∈ d.running := by rw [hrun]; simp
      obtain ⟨⟨hhand',_⟩,a,hwas,rfl⟩ := h.running j id' hmem
      rw [hlast] at hwas
      cases hwas
      rw [hid] at hhand' hmem
      rw [h.oneHand j i id hhand' hhand] at hmem
      exact absurd hmem (hidle id)
  refine { h with
    contents := ?_
    missing := fun hzero => absurd hzero hbegun.1
    running := ?_
    alone := by simp [hrunning]
    started := ?_
    concluded := fun hd => absurd hd hdone'
    last := h.last.note _ fun _ => hdone
    creators := ?_
    closed := fun hnot => absurd hphase hnot }
  · intro c hc
    have hcontent := h.contents c hc
    refine ⟨hcontent.line,hcontent.behind,?_,fun hd => absurd hd hdone'⟩
    intro j id' hmem
    rcases List.mem_append.mp hmem with hmem | hmem
    · exact hcontent.started j id' hmem
    · cases List.mem_singleton.mp hmem
      exact hbegun.2 c hc
  · intro j id' hmem
    rw [hrunning,List.nil_append] at hmem
    cases List.mem_singleton.mp hmem
    exact ⟨⟨hhand,by simp⟩,op,hlast,hid⟩
  · intro j id' hmem
    rcases List.mem_append.mp hmem with hmem | hmem
    · exact h.started j id' hmem
    · cases List.mem_singleton.mp hmem
      exact ⟨op,hop,by simp [hexec,OperationState.rank]⟩
  · intro j k a b hmem hmem'
    have hwas : ∀ {m c},.commits m none c ∈ d.history ++ [.execStarts i id] →
        .commits m none c ∈ d.history := by
      intro m c hin
      rcases List.mem_append.mp hin with hin | hin
      · exact hin
      · cases List.mem_singleton.mp hin
    exact h.creators j k a b (hwas hmem) (hwas hmem')

theorem Once.ends (h : Once order d) (i : Nat) :
    Once order { d with running := d.running.filter (·.1 ≠ i) } := by
  refine { h with
    contents := fun c hc => (h.contents c hc).of_eq rfl rfl
    running := fun j id hmem => h.running j id (List.mem_of_mem_filter hmem)
    alone := Nat.le_trans (List.length_filter_le _ _) h.alone
    closed := ?_ }
  · intro hphase
    obtain ⟨hhands,hrunning,hled⟩ := h.closed hphase
    exact ⟨hhands,by simp [hrunning],hled⟩

theorem Once.opening (h : Once order d) (hphase : d.phase ≠ .opened) (i : Nat) :
    Once order { d with phase := .opening i } := by
  refine { h with
    contents := fun c hc => (h.contents c hc).of_eq rfl rfl
    concluded := ?_
    closed := fun _ => h.closed hphase
    begun := fun _ => h.begun hphase }
  · intro hdone
    obtain ⟨a,hlast,hmay,_⟩ := h.concluded hdone
    exact ⟨a,hlast,hmay,fun hopened => by cases hopened⟩

/-- The daemon opens once nothing is left as it was interrupted. -/
theorem Once.opens (h : Once order d)
    (hnone : ∀ op ∈ d.hub.ops.values,op.state ≠ .executing) :
    Once order { d with phase := .opened } := by
  refine { h with
    contents := fun c hc => (h.contents c hc).of_eq rfl rfl
    concluded := ?_
    closed := fun hnot => absurd rfl hnot
    begun := fun hnot => absurd rfl hnot }
  · intro hdone
    obtain ⟨a,hlast,hmay,_⟩ := h.concluded hdone
    exact ⟨a,hlast,hmay,fun _ => hnone a (List.mem_of_getLast? hlast)⟩

/-- What was running when the process died had begun in every file it may find. -/
theorem Content.of_interrupted {c : List Operation} (h : Once order d) (hc : Content order d c)
    {id : Text} (hid : id ∈ d.interrupted) :
    ∃ a,c.getLast? = some a ∧ mayBeDone a = true := by
  simp only [Daemon.interrupted,List.mem_filter,List.mem_map,Option.any_eq_true,
    decide_eq_true_eq] at hid
  obtain ⟨⟨⟨i,id'⟩,hrun,rfl⟩,op,hop,hexec⟩ := hid
  obtain ⟨⟨_,hstarts⟩,_⟩ := h.running i id' hrun
  obtain ⟨a,hmem,haid,hrank⟩ := hc.started i id' hstarts
  obtain ⟨op',hop',hretired⟩ := hc.behind a hmem
  rw [haid,hop] at hop'
  cases hop'
  have haopen : isRetired a = false := by
    cases hr : isRetired a with
    | false => rfl
    | true =>
      have hopen := hretired hr
      simp [isRetired,hexec] at hopen
  exact ⟨a,hc.line.last_of_open hmem haopen,mayBeDone_of_rank hrank haopen⟩

theorem Once.restarts (h : Once order d) {r : Restart} (hr : r.opsReadable = true) :
    Once order (restart r d) := by
  obtain ⟨hfile,hops⟩ := restart_ops hr d
  have hstarts : ∀ {j id},.execStarts j id ∈ (restart r d).history →
      .execStarts j id ∈ d.history := by
    intro j id hmem
    rcases mem_of_restart hmem with hmem | ⟨_,_,heq⟩
    · exact hmem
    · cases heq
  have hcreates : ∀ {j op},.commits j none op ∈ (restart r d).history →
      .commits j none op ∈ d.history := by
    intro j op hmem
    rcases mem_of_restart hmem with hmem | ⟨_,_,heq⟩
    · exact hmem
    · cases heq
  have hlast : LastStarts (restart r d).history := by
    refine h.last.append ?_
    intro e he i id heq
    obtain ⟨_,_,rfl⟩ := List.mem_map.mp he
    cases heq
  cases hcontent : (d.operationsFile.crash r.opsMade).content with
  | none =>
    rw [hcontent] at hops
    obtain ⟨hnone,hnot⟩ := h.missing (StateFile.known_of_content h.bound hcontent)
    have hinterrupted : d.interrupted = [] := by
      refine List.eq_nil_iff_forall_not_mem.mpr ?_
      intro id hid
      simp only [Daemon.interrupted,List.mem_filter,List.mem_map] at hid
      obtain ⟨⟨⟨i,id'⟩,hrun,_⟩,_⟩ := hid
      exact hnone i id' (h.running i id' hrun).1.2
    have hdone : ¬ Concluded (restart r d).history := by
      intro hdone
      obtain ⟨e,he,hc⟩ := hdone
      rcases mem_of_restart he with he | ⟨id,hid,_⟩
      · exact hnot ⟨e,he,hc⟩
      · rw [hinterrupted] at hid
        cases hid
    refine ⟨?_,?_,?_,?_,?_,?_,?_,?_,?_,?_,hlast,?_,?_,?_⟩
    · rw [hops]
      exact ⟨keyed_empty,Line.nil order,fun key id hkey => by simp [OperationLedger.empty] at hkey,
        fun op hop => by cases hop⟩
    · rw [hfile]
      exact StateFile.bound_crash _ _
    · intro c hc
      rw [hfile] at hc
      rw [StateFile.possible_crash hc] at hcontent
      cases hcontent
    · intro _
      exact ⟨fun j id hmem => hnone j id (hstarts hmem),hdone⟩
    · intro j id hmem
      cases hmem
    · intro j k id hmem
      cases hmem
    · intro j id hmem
      cases hmem
    · exact Nat.zero_le _
    · intro j id hmem
      exact absurd (hstarts hmem) (hnone j id)
    · intro hd
      exact absurd hd hdone
    · intro j k a b hmem hmem'
      exact h.creators j k a b (hcreates hmem) (hcreates hmem')
    · intro _
      refine ⟨rfl,rfl,?_⟩
      rw [hops]
      intro op hop
      cases hop
    · intro _ op hop
      rw [hops] at hop
      cases hop
  | some c =>
    rw [hcontent] at hops
    have hwas := h.contents c (StateFile.possible_of_content h.bound hcontent)
    obtain ⟨htried,hled⟩ := tried_ofFile hwas.line
    have hvalues : (restart r d).hub.ops.values = c := by
      rw [hops]
      exact values_ofFile hwas.line.nodup
    have hget : ∀ op ∈ c,(restart r d).hub.ops.ops.get? op.id = some op := by
      intro op hop
      rw [hops]
      exact (mem_values htried.keyed).mp (by rw [values_ofFile hwas.line.nodup]; exact hop)
    have hmade : (restart r d).operationsFile.known ≠ 0 := by
      rw [hfile]
      intro hknown
      rw [StateFile.content_crash,List.getLast?_eq_getElem?] at hcontent
      have hlt := (List.getElem?_eq_some_iff.mp hcontent).1
      have hzero : (d.operationsFile.writes.take (max d.operationsFile.known r.opsMade)).length = 0 :=
        hknown
      omega
    have hdone : Concluded (restart r d).history →
        ∃ op,c.getLast? = some op ∧ mayBeDone op = true := by
      intro hdone
      obtain ⟨e,he,hc⟩ := hdone
      rcases mem_of_restart he with he | ⟨id,hid,_⟩
      · exact hwas.concluded ⟨e,he,hc⟩
      · exact hwas.of_interrupted h hid
    refine ⟨?_,?_,?_,?_,?_,?_,?_,?_,?_,?_,hlast,?_,?_,?_⟩
    · rw [hops]
      exact htried
    · rw [hfile]
      exact StateFile.bound_crash _ _
    · intro c' hc'
      rw [hfile] at hc'
      rw [StateFile.possible_crash hc'] at hcontent
      cases hcontent
      exact ⟨hwas.line,fun op hop => ⟨op,hget op hop,fun hr => hr⟩,
        fun j id hmem => hwas.started j id (hstarts hmem),hdone⟩
    · exact fun hknown => absurd hknown hmade
    · intro j id hmem
      cases hmem
    · intro j k id hmem
      cases hmem
    · intro j id hmem
      cases hmem
    · exact Nat.zero_le _
    · intro j id hmem
      obtain ⟨op,hop,hid,hrank⟩ := hwas.started j id (hstarts hmem)
      exact ⟨op,hid ▸ hget op hop,hrank⟩
    · intro hd
      obtain ⟨op,hop,hmay⟩ := hdone hd
      rw [hvalues]
      exact ⟨op,hop,hmay,fun hopened => by cases hopened⟩
    · intro j k a b hmem hmem'
      exact h.creators j k a b (hcreates hmem) (hcreates hmem')
    · intro _
      refine ⟨rfl,rfl,?_⟩
      rw [hvalues,hops]
      exact hled
    · intro _ op hop hexec
      refine ⟨hmade,?_⟩
      intro c' hc'
      rw [hfile] at hc'
      rw [StateFile.possible_crash hc'] at hcontent
      cases hcontent
      rw [hvalues] at hop
      exact ⟨op,hop,rfl,by simp [hexec,OperationState.rank]⟩

end
end Flagship.Authority
