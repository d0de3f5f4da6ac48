import Flagship.Core.Controller
import Flagship.Apps.Proofs.Passes

namespace Flagship.Core
open Lib Apps

section
variable {I : Controller → Prop} {x : Answer} {s₀ s : Controller}

theorem wp_writes {post : Answer → Controller → Except CoreError Unit → Controller → Prop}
    (f : Journal → Journal) : (writes f).wp (Terms.alone I) post x s₀ s ↔
      I s ∧ ∀ y,post y s (.ok ()) { s with journal := f s.journal } := by
  simp only [writes,wp_bind,wp_awaits_alone,wp_modify]

theorem wp_notes {post : Answer → Controller → Except CoreError Unit → Controller → Prop}
    (e : Event) : (notes e).wp (Terms.alone I) post x s₀ s ↔
      post x s₀ (.ok ()) { s with history := s.history ++ [e] } := by
  simp only [notes,wp_modify]

end

section
variable {history : List Event} {e : Event} {op : Nat} {kind : OpKind} {installation : Text}
  {answer : Answer}

/-- What is open after one more event. -/
theorem unresolved_append (h : Unresolved (history ++ [e]) op kind installation answer) :
    (Unresolved history op kind installation answer ∧ e ≠ .reviewed op ∧
      (e = .journalled op → isUnknown answer = true) ∧
      ∀ seen,e = .observed seen → shownDone kind (seen.get? installation) = false) ∨
      e = .called op kind installation answer := by
  obtain ⟨hkind,before,since,heq,hopen,hunseen,hreviewed⟩ := h
  rcases append_singleton_cases heq with ⟨rest,hrest,rfl⟩ | ⟨_,hcalled,_⟩
  · left
    simp only [List.mem_append,List.mem_singleton,not_or] at hopen hunseen hreviewed
    refine ⟨⟨hkind,before,rest,hrest,?_,fun seen hmem => hunseen seen (Or.inl hmem),hreviewed.1⟩,
      fun heq => hreviewed.2 heq.symm,?_,fun seen heq => hunseen seen (Or.inr heq.symm)⟩
    · exact hopen.imp_right And.left
    · intro heq
      rcases hopen with hunknown | ⟨_,hne⟩
      · exact hunknown
      · exact absurd heq.symm hne
  · exact Or.inr hcalled.symm

theorem Unresolved.called (h : Unresolved history op kind installation answer) :
    .called op kind installation answer ∈ history := by
  obtain ⟨_,before,since,heq,_⟩ := h
  rw [heq]
  simp

end

/-- What the journal knows of the engine: every call is of an operation, at most one
operation is an intent, and what is open is an intent or stands for review. -/
structure Sound (c : Controller) : Prop where
  numbered : ∀ (i : Nat) op,c.journal.ops[i]? = some op → op.id = i + 1
  one : ∀ a ∈ c.journal.ops,∀ b ∈ c.journal.ops,a.state = .intent → b.state = .intent → a = b
  called : ∀ op kind installation answer,.called op kind installation answer ∈ c.history →
    ∃ row ∈ c.journal.ops,row.id = op ∧ row.installation = installation ∧ row.kind = kind
  held : ∀ op kind installation answer,Unresolved c.history op kind installation answer →
    ∃ row ∈ c.journal.ops,row.id = op ∧ row.installation = installation ∧ row.kind = kind ∧
      (row.state = .intent ∨ row.state = .needsReview)
  careful : Careful c.history

/-- No operation is an intent, and those that stand for review are of these
installations. -/
def Calm (held : List Text) (c : Controller) : Prop :=
  ∀ op ∈ c.journal.ops,op.state ≠ .intent ∧ (op.state = .needsReview → op.installation ∈ held)

section
variable {c : Controller} {held : List Text} {inst : Text}

theorem Calm.mono {held' : List Text} (h : Calm held c) (hsub : ∀ i ∈ held,i ∈ held') :
    Calm held' c := by
  intro op hop
  exact ⟨(h op hop).1,fun hreview => hsub _ ((h op hop).2 hreview)⟩

theorem Sound.op_ext (h : Sound c) {a b : Op} (ha : a ∈ c.journal.ops) (hb : b ∈ c.journal.ops)
    (hid : a.id = b.id) : a = b := by
  obtain ⟨i,hi⟩ := List.mem_iff_getElem?.mp ha
  obtain ⟨k,hk⟩ := List.mem_iff_getElem?.mp hb
  have hai := h.numbered i a hi
  have hbk := h.numbered k b hk
  have hik : i = k := by omega
  subst hik
  rw [hi] at hk
  exact Option.some.inj hk

theorem Sound.id_le (h : Sound c) {a : Op} (ha : a ∈ c.journal.ops) :
    a.id ≤ c.journal.ops.length := by
  obtain ⟨i,hi⟩ := List.mem_iff_getElem?.mp ha
  have hlt := (List.getElem?_eq_some_iff.mp hi).1
  have hid := h.numbered i a hi
  omega

/-- Nothing is open of an installation that is not held. -/
theorem Sound.free (h : Sound c) (hcalm : Calm held c) (hinst : inst ∉ held) :
    ∀ op kind answer,¬ Unresolved c.history op kind inst answer := by
  intro op kind answer hopen
  obtain ⟨row,hrow,_,rfl,_,hstate⟩ := h.held op kind inst answer hopen
  rcases hstate with hintent | hreview
  · exact (hcalm row hrow).1 hintent
  · exact hinst ((hcalm row hrow).2 hreview)

/-- Something that is no call has happened. -/
theorem Sound.note (h : Sound c) {e : Event}
    (hcall : ∀ op kind installation answer,e ≠ .called op kind installation answer) :
    Sound { c with history := c.history ++ [e] } := by
  refine ⟨h.numbered,h.one,?_,?_,h.careful.append ?_⟩
  · intro op kind installation answer hmem
    rcases List.mem_append.mp hmem with hmem | hmem
    · exact h.called op kind installation answer hmem
    · exact absurd (List.mem_singleton.mp hmem).symm (hcall op kind installation answer)
  · intro op kind installation answer hopen
    rcases unresolved_append hopen with ⟨hold,_⟩ | heq
    · exact h.held op kind installation answer hold
    · exact absurd heq (hcall op kind installation answer)
  · intro op kind installation answer heq
    exact absurd heq (hcall op kind installation answer)

/-- An operation is settled; what is open of it stands for review. -/
theorem Sound.settle (h : Sound c) (id : Nat) {state : OpState} (rid detail : Option Text)
    (hstate : state ≠ .intent)
    (hopen : ∀ kind installation answer,Unresolved c.history id kind installation answer →
      state = .needsReview) :
    Sound { c with journal := c.journal.settle id state rid detail } := by
  have hrow : ∀ row ∈ c.journal.ops,row.id ≠ id →
      row ∈ (c.journal.settle id state rid detail).ops := by
    intro row hmem hne
    exact List.mem_map.mpr ⟨row,hmem,if_neg hne⟩
  have hsettled : ∀ row ∈ c.journal.ops,row.id = id →
      { row with state := state,runtimeId := rid.or row.runtimeId,detail := detail } ∈
        (c.journal.settle id state rid detail).ops := by
    intro row hmem heq
    exact List.mem_map.mpr ⟨row,hmem,if_pos heq⟩
  refine ⟨?_,?_,?_,?_,h.careful⟩
  · intro i op hop
    simp only [Journal.settle,List.getElem?_map,Option.map_eq_some_iff] at hop
    obtain ⟨row,hrow,rfl⟩ := hop
    have hid := h.numbered i row hrow
    split <;> exact hid
  · intro a ha b hb hia hib
    obtain ⟨a',ha',rfl⟩ := List.mem_map.mp ha
    obtain ⟨b',hb',rfl⟩ := List.mem_map.mp hb
    split at hia
    · exact absurd hia hstate
    next hne =>
      split at hib
      · exact absurd hib hstate
      next hne' =>
        rw [if_neg hne,if_neg hne']
        exact h.one a' ha' b' hb' hia hib
  · intro op kind installation answer hmem
    obtain ⟨row,hmem,hid,hinst,hkind⟩ := h.called op kind installation answer hmem
    by_cases heq : row.id = id
    · exact ⟨_,hsettled row hmem heq,hid,hinst,hkind⟩
    · exact ⟨row,hrow row hmem heq,hid,hinst,hkind⟩
  · intro op kind installation answer hun
    obtain ⟨row,hmem,hid,hinst,hkind,hstate'⟩ := h.held op kind installation answer hun
    by_cases heq : row.id = id
    · have hop : op = id := hid.symm.trans heq
      subst hop
      exact ⟨_,hsettled row hmem heq,hid,hinst,hkind,Or.inr (hopen kind installation answer hun)⟩
    · exact ⟨row,hrow row hmem heq,hid,hinst,hkind,hstate'⟩

/-- The intent of an effect, where no other is open. -/
theorem Sound.intent (h : Sound c) (hcalm : Calm held c) (inst : Text) (generation : Nat)
    (kind : OpKind) (plan : Option Text) :
    Sound { c with journal := c.journal.intent inst generation kind plan } := by
  refine ⟨?_,?_,?_,?_,h.careful⟩
  · intro i op hop
    rcases getElem?_append_one hop with hold | ⟨rfl,rfl⟩
    · exact h.numbered i op hold
    · rfl
  · intro a ha b hb hia hib
    rcases List.mem_append.mp ha with ha | ha
    · exact absurd hia (hcalm a ha).1
    · rcases List.mem_append.mp hb with hb | hb
      · exact absurd hib (hcalm b hb).1
      · rw [List.mem_singleton] at ha hb
        rw [ha,hb]
  · intro op kind installation answer hmem
    obtain ⟨row,hrow,hsame⟩ := h.called op kind installation answer hmem
    exact ⟨row,List.mem_append_left _ hrow,hsame⟩
  · intro op kind installation answer hun
    obtain ⟨row,hrow,hsame⟩ := h.held op kind installation answer hun
    exact ⟨row,List.mem_append_left _ hrow,hsame⟩

/-- The engine is called for an intent, where nothing of its installation is open. -/
theorem Sound.call (h : Sound c) {row : Op} (hrow : row ∈ c.journal.ops)
    (hintent : row.state = .intent) (answer : Answer)
    (hfree : ∀ op kind answer,¬ Unresolved c.history op kind row.installation answer) :
    Sound { c with
      history := c.history ++ [.called row.id row.kind row.installation answer] } := by
  refine ⟨h.numbered,h.one,?_,?_,h.careful.append ?_⟩
  · intro op kind installation answer hmem
    rcases List.mem_append.mp hmem with hmem | hmem
    · exact h.called op kind installation answer hmem
    · cases List.mem_singleton.mp hmem
      exact ⟨row,hrow,rfl,rfl,rfl⟩
  · intro op kind installation answer hun
    rcases unresolved_append hun with ⟨hold,_⟩ | heq
    · exact h.held op kind installation answer hold
    · cases heq
      exact ⟨row,hrow,rfl,rfl,rfl,Or.inl hintent⟩
  · intro op kind installation answer heq
    cases heq
    exact hfree

end

section
variable {s s₀ : Controller} {x : Answer} {held : List Text} {inst : Text} {kind : OpKind}

/-- What has come of an effect that was carried out. -/
def Performed (held : List Text) (inst : Text) (result : Except CoreError (Except EffectError Unit))
    (t : Controller) : Prop :=
  ∃ outcome,result = .ok outcome ∧ Sound t ∧ match outcome with
    | .ok _ => Calm held t
    | .error _ => Calm (inst :: held) t

/-- The answer of the engine is journalled. -/
theorem settles_calm (h : Sound s) (hcalm : Calm held s) (kind : OpKind) (generation : Nat)
    (plan : Option Text) (answer : Answer) (state : OpState) (rid detail : Option Text)
    (hstate : state ≠ .intent)
    (hopen : isUnknown answer = true → kind.destructive = true → state = .needsReview)
    (hinst : inst ∉ held) :
    let op := s.journal.ops.length + 1
    let t : Controller := ⟨(s.journal.intent inst generation kind plan).settle op state rid detail,
      s.mode,s.history ++ [.called op kind inst answer] ++ [.journalled op]⟩
    Sound t ∧ Calm (inst :: held) t ∧ (state ≠ .needsReview → Calm held t) := by
  intro op t
  have hintent := h.intent hcalm inst generation kind plan
  have hcalled := hintent.call (List.mem_append_right _ (List.mem_singleton_self _)) rfl answer
    (h.free hcalm hinst)
  have hnoted := hcalled.note (e := .journalled op) (by intros; simp)
  have hnew : ∀ row ∈ s.journal.ops,row.id ≠ op := by
    intro row hrow heq
    have hle := h.id_le hrow
    omega
  have hrows : ∀ row ∈ t.journal.ops,row ∈ s.journal.ops ∨
      row.state = state ∧ row.installation = inst := by
    intro row hrow
    obtain ⟨old,hold,rfl⟩ := List.mem_map.mp hrow
    rcases List.mem_append.mp hold with hold | hold
    · rw [if_neg (hnew old hold)]
      exact Or.inl hold
    · rw [List.mem_singleton] at hold
      subst hold
      rw [if_pos rfl]
      exact Or.inr ⟨rfl,rfl⟩
  refine ⟨?_,?_,?_⟩
  · refine hnoted.settle op rid detail hstate ?_
    intro kind' installation answer' hun
    rcases unresolved_append hun with ⟨hun',_,hunknown,_⟩ | heq
    · rcases unresolved_append hun' with ⟨hold,_⟩ | heq
      · obtain ⟨row,hrow,hid,_⟩ := h.called op kind' installation answer' hold.called
        exact absurd hid (hnew row hrow)
      · cases heq
        exact hopen (hunknown rfl) hun.1
    · cases heq
  · intro row hrow
    rcases hrows row hrow with hold | ⟨hsame,rfl⟩
    · exact ⟨(hcalm row hold).1,fun hreview => List.mem_cons_of_mem _ ((hcalm row hold).2 hreview)⟩
    · exact ⟨hsame ▸ hstate,fun _ => List.mem_cons_self⟩
  · intro hdone row hrow
    rcases hrows row hrow with hold | ⟨hsame,_⟩
    · exact hcalm row hold
    · exact ⟨hsame ▸ hstate,fun hreview => absurd (hsame.symm.trans hreview) hdone⟩

/-- An effect: its intent, the call and what came back. -/
theorem effect_spec (h : Sound s) (hcalm : Calm held s) (hinst : inst ∉ held) (generation : Nat)
    (plan : Option Text) (f : Text → Option Text) :
    Async.wp (Terms.alone Sound) (do
      let op ← journals inst generation kind plan
      let answer ← calls op kind inst
      settleEffect op kind (answer.map f)) (fun _ _ r t => Performed held inst r t) x s₀ s := by
  have hlength : (s.journal.intent inst generation kind plan).ops.length =
      s.journal.ops.length + 1 := by
    simp [Journal.intent]
  have hintent := h.intent hcalm inst generation kind plan
  have hcalled := fun answer => hintent.call (List.mem_append_right _ (List.mem_singleton_self _))
    rfl answer (h.free hcalm hinst)
  simp only [wp_bind,journals,calls,wp_writes,wp_get,wp_pure,wp_awaits_alone,wp_read,wp_notes,
    hlength]
  refine ⟨h,?_⟩
  intro _
  refine ⟨hintent,?_⟩
  intro answer
  cases answer with
  | ok rid =>
    simp only [Except.map,settleEffect,wp_bind,wp_writes,wp_notes,wp_pure]
    refine ⟨hcalled (.ok rid),?_⟩
    intro _
    obtain ⟨hsound,_,hdone⟩ := settles_calm h hcalm kind generation plan (.ok rid) .done (f rid)
      none (by simp) (by simp [isUnknown]) hinst
    exact ⟨.ok (),rfl,hsound,hdone (by simp)⟩
  | error e =>
    simp only [Except.map,settleEffect,wp_bind,wp_writes,wp_notes,wp_pure]
    refine ⟨hcalled (.error e),?_⟩
    intro _
    have hsettled := fun state hstate hopen => settles_calm h hcalm kind generation plan (.error e)
      state none (some e.display) hstate hopen hinst
    refine ⟨.error e,rfl,(hsettled _ ?closed ?review).1,(hsettled _ ?closed ?review).2.1⟩
    case closed => split <;> simp
    case review =>
      intro hunknown hdestroys
      cases e with
      | definite m => cases hunknown
      | unknown m => rw [hdestroys]

/-- Nothing else of the journal matters. -/
theorem Sound.of_ops (h : Sound s) {j : Journal} (hops : j.ops = s.journal.ops) :
    Sound { s with journal := j } := by
  refine ⟨?_,?_,?_,?_,h.careful⟩
  · rw [hops]
    exact h.numbered
  · rw [hops]
    exact h.one
  · rw [hops]
    exact h.called
  · rw [hops]
    exact h.held

theorem Calm.of_ops (h : Calm held s) {j : Journal} (hops : j.ops = s.journal.ops) :
    Calm held { s with journal := j } := by
  rw [Calm,hops]
  exact h

/-- How a loop of a pass leaves the controller; without effects nothing is settled
before it. -/
def Leaves (effects : Bool) (held : List Text) (t : Controller) : Prop :=
  Sound t ∧ (effects = true → Calm held t)

theorem Leaves.mono {effects : Bool} {held' : List Text} (h : Leaves effects held s)
    (hsub : ∀ i ∈ held,i ∈ held') : Leaves effects held' s :=
  ⟨h.1,fun heffects => (h.2 heffects).mono hsub⟩

theorem Leaves.of_ops {effects : Bool} (h : Leaves effects held s) {j : Journal}
    (hops : j.ops = s.journal.ops) : Leaves effects held { s with journal := j } :=
  ⟨h.1.of_ops hops,fun heffects => (h.2 heffects).of_ops hops⟩

theorem closesGap_spec {effects : Bool} {d : Desired} {adopted : Option Adopted}
    {steps : List OpKind} {pass : Report × OrdMap Text ObservedWorkload}
    (h : Leaves effects held s) (hinst : effects = true → d.plan.installation ∉ held) :
    (closesGap effects d adopted steps pass).wp (Terms.alone Sound)
      (fun _ _ _ t => Leaves effects (d.plan.installation :: held) t) x s₀ s := by
  have hwider : ∀ {t : Controller},Leaves effects held t →
      Leaves effects (d.plan.installation :: held) t :=
    fun ht => ht.mono fun i hi => List.mem_cons_of_mem _ hi
  induction steps generalizing pass s s₀ x with
  | nil =>
    simp only [closesGap,wp_pure]
    exact hwider h
  | cons kind rest ih =>
    obtain ⟨report,seen⟩ := pass
    rw [closesGap]
    cases effects with
    | false =>
      simp only [Bool.not_false,↓reduceIte,wp_bind,wp_writes]
      refine ⟨h.1,?_⟩
      intro _
      exact ih (h.of_ops rfl)
    | true =>
      simp only [Bool.not_true,Bool.false_eq_true,↓reduceIte,wp_bind]
      refine (effect_spec h.1 (h.2 rfl) (hinst rfl) _ _ _).mono ?_
      intro y t₀ result t hperformed
      obtain ⟨outcome,rfl,hsound,hcalm⟩ := hperformed
      cases outcome with
      | ok u =>
        dsimp only at hcalm ⊢
        split
        next =>
          split
          · simp only [wp_bind,wp_writes]
            refine ⟨hsound,?_⟩
            intro _
            exact ih ⟨hsound.of_ops rfl,fun _ => hcalm.of_ops rfl⟩
          · exact ih ⟨hsound,fun _ => hcalm⟩
        next => exact ih ⟨hsound,fun _ => hcalm⟩
      | error e =>
        dsimp only at hcalm ⊢
        cases e with
        | definite m =>
          rw [wp_pure]
          exact ⟨hsound,fun _ => hcalm⟩
        | unknown m =>
          dsimp only
          split
          · rw [wp_pure]
            exact ⟨hsound,fun _ => hcalm⟩
          · rw [wp_pure]
            exact ⟨hsound,fun _ => hcalm⟩

theorem reconcileDesired_spec {effects : Bool} {blocked : List Text} {list : List Desired}
    {pass : Report × OrdMap Text ObservedWorkload} (h : Leaves effects held s)
    (hnodup : (list.map (·.plan.installation)).Nodup)
    (hfree : ∀ d ∈ list,d.plan.installation ∉ blocked → d.plan.installation ∉ held) :
    (reconcileDesired effects blocked list pass).wp (Terms.alone Sound)
      (fun _ _ _ t => Leaves effects (held ++ list.map (·.plan.installation)) t) x s₀ s := by
  induction list generalizing pass held s s₀ x with
  | nil =>
    simp only [reconcileDesired,wp_pure,List.map_nil,List.append_nil]
    exact h
  | cons d rest ih =>
    obtain ⟨report,seen⟩ := pass
    rw [List.map_cons,List.nodup_cons] at hnodup
    have hrest : ∀ d' ∈ rest,d'.plan.installation ∉ blocked → d'.plan.installation ∉ held :=
      fun d' hd' => hfree d' (List.mem_cons_of_mem _ hd')
    have hwider : ∀ {t : Controller},
        Leaves effects (held ++ rest.map (·.plan.installation)) t →
        Leaves effects (held ++ (d :: rest).map (·.plan.installation)) t := by
      intro t ht
      refine ht.mono ?_
      intro i hi
      rw [List.map_cons]
      exact (List.mem_append.mp hi).elim (List.mem_append_left _)
        fun hi => List.mem_append_right _ (List.mem_cons_of_mem _ hi)
    rw [reconcileDesired]
    dsimp only
    split
    next => exact (ih h hnodup.2 hrest).mono fun _ _ _ _ ht => hwider ht
    next hblocked =>
      simp only [wp_bind,wp_get]
      refine (closesGap_spec h fun _ => hfree d List.mem_cons_self (by simpa using hblocked)).mono ?_
      intro y t₀ result t ht
      cases result with
      | error e =>
        refine ht.mono ?_
        intro i hi
        rw [List.map_cons]
        rcases List.mem_cons.mp hi with rfl | hi
        · simp
        · exact List.mem_append_left _ hi
      | ok pass =>
        refine (ih ht hnodup.2 ?_).mono ?_
        · intro d' hd' hfree'
          rw [List.mem_cons,not_or]
          refine ⟨?_,hrest d' hd' hfree'⟩
          intro heq
          exact hnodup.1 (List.mem_map.mpr ⟨d',hd',heq⟩)
        · intro _ _ _ t' ht'
          refine ht'.mono ?_
          intro i hi
          rw [List.map_cons]
          rcases List.mem_append.mp hi with hi | hi
          · rcases List.mem_cons.mp hi with rfl | hi
            · simp
            · exact List.mem_append_left _ hi
          · exact List.mem_append_right _ (List.mem_cons_of_mem _ hi)

theorem removesAll_spec {effects : Bool} {o : ObservedWorkload} {steps : List OpKind}
    {report : Report} (h : Leaves effects held s) (hinst : effects = true → inst ∉ held) :
    (removesAll effects inst o steps report).wp (Terms.alone Sound)
      (fun _ _ _ t => Leaves effects (inst :: held) t) x s₀ s := by
  induction steps generalizing report s s₀ x with
  | nil =>
    simp only [removesAll,wp_pure]
    exact h.mono fun i hi => List.mem_cons_of_mem _ hi
  | cons kind rest ih =>
    rw [removesAll]
    cases effects with
    | false =>
      simp only [Bool.not_false,↓reduceIte,wp_bind,wp_writes]
      refine ⟨h.1,?_⟩
      intro _
      exact ih (h.of_ops rfl)
    | true =>
      simp only [Bool.not_true,Bool.false_eq_true,↓reduceIte,wp_bind]
      refine (effect_spec h.1 (h.2 rfl) (hinst rfl) _ _ _).mono ?_
      intro y t₀ result t hperformed
      obtain ⟨outcome,rfl,hsound,hcalm⟩ := hperformed
      cases outcome with
      | ok u => exact ih ⟨hsound,fun _ => hcalm⟩
      | error e =>
        simp only [wp_pure]
        exact ⟨hsound,fun _ => hcalm⟩

theorem reconcileOthers_spec {effects : Bool} {blocked wanted : List Text}
    {list : List (Text × ObservedWorkload)} {report : Report} (h : Leaves effects held s)
    (hnodup : (list.map Prod.fst).Nodup)
    (hfree : ∀ e ∈ list,e.1 ∉ wanted → e.1 ∉ blocked → e.1 ∉ held) :
    (reconcileOthers effects blocked wanted list report).wp (Terms.alone Sound)
      (fun _ _ _ t => Sound t) x s₀ s := by
  induction list generalizing report held s s₀ x with
  | nil =>
    simp only [reconcileOthers,wp_pure]
    exact h.1
  | cons e rest ih =>
    obtain ⟨inst,o⟩ := e
    rw [List.map_cons,List.nodup_cons] at hnodup
    have hrest : ∀ e ∈ rest,e.1 ∉ wanted → e.1 ∉ blocked → e.1 ∉ held :=
      fun e he => hfree e (List.mem_cons_of_mem _ he)
    rw [reconcileOthers]
    split
    · exact ih h hnodup.2 hrest
    next hwanted =>
      split
      · exact ih h hnodup.2 hrest
      next hblocked =>
        split
        · exact ih h hnodup.2 hrest
        next =>
          simp only [wp_bind]
          refine (removesAll_spec h fun _ => hfree (inst,o) List.mem_cons_self
            (by simpa using hwanted) (by simpa using hblocked)).mono ?_
          intro y t₀ result t ht
          cases result with
          | error e => exact ht.1
          | ok report =>
            refine ih ht hnodup.2 ?_
            intro e he hnot hfree'
            rw [List.mem_cons,not_or]
            refine ⟨?_,hrest e he hnot hfree'⟩
            intro heq
            exact hnodup.1 (List.mem_map.mpr ⟨e,he,heq⟩)

theorem settleFromObservation_ne (op : Op) (obs : Option ObservedWorkload) :
    (settleFromObservation op obs).1 ≠ .intent := by
  unfold settleFromObservation
  repeat' split
  all_goals simp

/-- What was left open is settled from what the engine shows. -/
theorem recover_spec {seen : OrdMap Text ObservedWorkload} {list : List Op} (h : Sound s)
    (hall : ∀ op ∈ s.journal.ops,op.state = .intent → op.id ∈ list.map (·.id))
    (hopen : ∀ op ∈ list,∀ kind installation answer,
      Unresolved s.history op.id kind installation answer →
        (settleFromObservation op (seen.get? op.installation)).1 = .needsReview) :
    (recover seen list).wp (Terms.alone Sound)
      (fun _ _ _ t => Sound t ∧ ∀ op ∈ t.journal.ops,op.state ≠ .intent) x s₀ s := by
  induction list generalizing s s₀ x with
  | nil =>
    simp only [recover,wp_pure]
    exact ⟨h,fun op hop hintent => by simpa using hall op hop hintent⟩
  | cons op rest ih =>
    simp only [recover,wp_bind,wp_writes]
    refine ⟨h,?_⟩
    intro _
    have hstate := settleFromObservation_ne op (seen.get? op.installation)
    refine ih (h.settle op.id _ _ hstate (hopen op List.mem_cons_self)) ?_
      fun op' hop' => hopen op' (List.mem_cons_of_mem _ hop')
    intro row hrow hintent
    obtain ⟨old,hold,rfl⟩ := List.mem_map.mp hrow
    split at hintent
    · exact absurd hintent hstate
    next hne =>
      rw [if_neg hne]
      have hin := hall old hold hintent
      rw [List.map_cons,List.mem_cons] at hin
      exact hin.resolve_left hne

/-- What a pass finds open and the engine does not show done stands for review. -/
theorem recovers_open (list : List ObservedWorkload) (h : Sound s)
    (hpaused : ∀ op ∈ s.journal.pending,op.kind = .stop →
      ∀ o,(byInstallation list).get? op.installation = some o → o.state ≠ .paused) :
    ∀ op ∈ s.journal.pending,∀ kind installation answer,
      Unresolved (s.history ++ [.observed (byInstallation list)]) op.id kind installation answer →
        (settleFromObservation op ((byInstallation list).get? op.installation)).1 =
          .needsReview := by
  intro op hop kind installation answer hun
  rcases unresolved_append hun with ⟨hold,_,_,hunseen⟩ | heq
  · obtain ⟨row,hrow,hid,rfl,rfl,_⟩ := h.held _ _ _ _ hold
    have hsame := h.op_ext hrow (List.mem_of_mem_filter hop) hid
    subst hsame
    have hshown := hunseen _ rfl
    have hkind := hun.1
    unfold settleFromObservation
    cases hobs : (byInstallation list).get? row.installation with
    | none =>
      rw [hobs] at hshown
      cases hshown
    | some o =>
      rw [hobs] at hshown
      cases hk : row.kind with
      | pull => rw [hk] at hkind; cases hkind
      | create => rw [hk] at hkind; cases hkind
      | start => rw [hk] at hkind; cases hkind
      | delete => rfl
      | stop =>
        have hnot := hpaused row hop hk o hobs
        rw [hk] at hshown
        cases ho : o.state <;> simp_all [shownDone]
  · cases heq

theorem desiredPlans_nodup (j : Journal) : (j.desiredPlans.map (·.plan.installation)).Nodup := by
  have hsame : j.desiredPlans.map (·.plan.installation) = (ascending j.desired).map Prod.fst := by
    rw [Journal.desiredPlans,List.map_map]
    refine List.map_congr_left ?_
    intro e he
    exact j.keyed e.1 e.2 (mem_ascending.mp he)
  rw [hsame]
  exact ascending_nodup j.desired

/-- Both loops of a pass. -/
theorem passes_spec (effects : Bool) (seen : OrdMap Text ObservedWorkload) (h : Sound s)
    (hcalm : effects = true → ∀ op ∈ s.journal.ops,op.state ≠ .intent) :
    (reconcileDesired effects (s.journal.needsReview.map (·.installation)) s.journal.desiredPlans
      (⟨[],effects,[],[],[]⟩,seen) >>= fun pass =>
        reconcileOthers effects (s.journal.needsReview.map (·.installation))
          (s.journal.desiredPlans.map (·.plan.installation)) (ascending pass.2) pass.1).wp
      (Terms.alone Sound) (fun _ _ _ t => Sound t) x s₀ s := by
  have hleaves : Leaves effects (s.journal.needsReview.map (·.installation)) s := by
    refine ⟨h,?_⟩
    intro heffects op hop
    refine ⟨hcalm heffects op hop,?_⟩
    intro hreview
    exact List.mem_map.mpr ⟨op,List.mem_filter.mpr ⟨hop,by simpa using hreview⟩,rfl⟩
  rw [wp_bind]
  refine (reconcileDesired_spec hleaves (desiredPlans_nodup _) fun d _ hfree => hfree).mono ?_
  intro y t₀ result t ht
  cases result with
  | error e => exact ht.1
  | ok pass =>
    refine reconcileOthers_spec ht (ascending_nodup _) ?_
    intro e _ hwanted hblocked hin
    exact (List.mem_append.mp hin).elim hblocked hwanted

theorem reconcile_spec {observation : Except EffectError (List ObservedWorkload)} (h : Sound s)
    {answers : List Answer} (hseen : seesNoPausedStop s (.reconcile observation,answers) = true) :
    (reconcile observation).wp (Terms.alone Sound) (fun _ _ _ t => Sound t) x s₀ s := by
  rw [reconcile]
  simp only [wp_bind,wp_get]
  cases observation with
  | error e =>
    simp only [wp_throw]
    exact h
  | ok list =>
    dsimp only
    cases heffects : s.effectsActive with
    | false =>
      simp only [Bool.false_eq_true,↓reduceIte,wp_bind,wp_get]
      exact (wp_bind _ _).mp (passes_spec false (byInstallation list) h (by simp))
    | true =>
      simp only [↓reduceIte,wp_bind,wp_notes,wp_get]
      have hnoted := h.note (e := .observed (byInstallation list)) (by intros; simp)
      have hopen := recovers_open list h ?_
      · refine (recover_spec (s := { s with
          history := s.history ++ [.observed (byInstallation list)] }) hnoted ?_ hopen).mono ?_
        · intro op hop hintent
          exact List.mem_map_of_mem (List.mem_filter.mpr ⟨hop,by simpa using hintent⟩)
        · intro y t₀ result t ht
          cases result with
          | error e => exact ht.1
          | ok u =>
            exact (wp_bind _ _).mp (passes_spec true (byInstallation list) ht.1 fun _ => ht.2)
      · intro op hop hstop o hobs
        simp only [seesNoPausedStop,heffects,Bool.not_true,Bool.false_or,List.all_eq_true] at hseen
        have hone := hseen op hop
        rw [hstop,hobs] at hone
        simpa using hone

theorem adopts_spec {list : List Adopted} (h : Sound s) :
    (adopts list).wp (Terms.alone Sound) (fun _ _ _ t => Sound t) x s₀ s := by
  induction list generalizing s s₀ x with
  | nil =>
    simp only [adopts,wp_pure]
    exact h
  | cons a rest ih =>
    simp only [adopts,wp_bind,wp_writes]
    refine ⟨h,?_⟩
    intro _
    exact ih (h.of_ops rfl)

theorem handover_spec {cp : TsCheckpoint}
    {observation : Except EffectError (List ObservedWorkload)} (h : Sound s) :
    (handover cp observation).wp (Terms.alone Sound) (fun _ _ _ t => Sound t) x s₀ s := by
  simp only [handover,wp_bind,wp_writes]
  refine ⟨h,?_⟩
  intro _
  have hoff : Sound { s with journal := s.journal.setEffectsEnabled false } := h.of_ops rfl
  split
  · rw [wp_pure]
    exact hoff
  · simp only [wp_bind,wp_writes]
    refine ⟨hoff,?_⟩
    intro _
    have hsaved : Sound { s with
        journal := (s.journal.setEffectsEnabled false).saveCheckpoint cp } := hoff.of_ops rfl
    cases observation with
    | error e =>
      rw [wp_throw]
      exact hsaved
    | ok list =>
      simp only [wp_bind,wp_get]
      split
      · rw [wp_pure]
        exact hsaved
      · simp only [wp_bind]
        refine (adopts_spec hsaved).mono ?_
        intro y t₀ result t ht
        cases result with
        | error e => exact ht
        | ok u =>
          simp only [wp_writes,wp_pure]
          exact ⟨ht,fun _ => ht.of_ops rfl⟩

theorem sound_step (h : Sound s) (r : Request × List Answer)
    (hseen : seesNoPausedStop s r = true) : Sound (step s r) := by
  obtain ⟨r,answers⟩ := r
  have hcode : r.code.wp (Terms.alone Sound) (fun _ _ _ t => Sound t) default s s := by
    cases r with
    | opens mode =>
      rw [Request.code,wp_modify]
      exact ⟨h.numbered,h.one,h.called,h.held,h.careful⟩
    | setDesired plan =>
      rw [Request.code,wp_writes]
      exact ⟨h,fun _ => h.of_ops rfl⟩
    | removeDesired installation =>
      rw [Request.code,wp_writes]
      exact ⟨h,fun _ => h.of_ops rfl⟩
    | setEffectsEnabled on =>
      rw [Request.code,wp_writes]
      exact ⟨h,fun _ => h.of_ops rfl⟩
    | resolveReview op review =>
      simp only [Request.code,resolveReview,wp_bind,wp_writes,wp_notes]
      refine ⟨h,?_⟩
      intro _
      have hnoted := h.note (e := .reviewed op) (by intros; simp)
      refine hnoted.settle op none _ (by cases review <;> simp) ?_
      intro kind installation answer hun
      rcases unresolved_append hun with ⟨_,hne,_⟩ | heq
      · exact absurd rfl hne
      · cases heq
    | reconcile observation =>
      simp only [Request.code,wp_bind,wp_pure]
      refine (reconcile_spec h hseen).mono ?_
      intro y t₀ result t ht
      cases result <;> exact ht
    | handover cp observation =>
      simp only [Request.code,wp_bind,wp_pure]
      refine (handover_spec h).mono ?_
      intro y t₀ result t ht
      cases result <;> exact ht
  exact hcode.alone answers

theorem Sound.pending_le (h : Sound s) : s.journal.pending.length ≤ 1 := by
  have hnodup : s.journal.ops.Nodup := by
    refine List.pairwise_iff_getElem.mpr ?_
    intro i k hi hk hlt heq
    have hidi := h.numbered i _ (List.getElem?_eq_getElem hi)
    have hidk := h.numbered k _ (List.getElem?_eq_getElem hk)
    rw [heq] at hidi
    omega
  match hpending : s.journal.pending with
  | [] => simp
  | [a] => simp
  | a :: b :: rest =>
    have hfilter : (s.journal.pending).Nodup := hnodup.filter _
    have ha : a ∈ s.journal.pending := by rw [hpending]; simp
    have hb : b ∈ s.journal.pending := by rw [hpending]; simp
    have hsame := h.one a (List.mem_of_mem_filter ha) b (List.mem_of_mem_filter hb)
      (by simpa using (List.mem_filter.mp ha).2) (by simpa using (List.mem_filter.mp hb).2)
    rw [hpending,hsame] at hfilter
    simp at hfilter

/-- In every run of a controller in which no interrupted stop is seen paused, wherever
its processes end and whatever the engine answers and shows, no call is made for an
installation while a stop or delete of it is open, and at most one operation is an
intent. -/
theorem destructive_effects_are_reviewed (mode : Mode) (requests : List (Request × List Answer))
    (h : Along step (fun c r => seesNoPausedStop c r = true) (.fresh mode) requests) :
    Careful (run step (.fresh mode) requests).history ∧
      (run step (.fresh mode) requests).journal.pending.length ≤ 1 := by
  have hfresh : Sound (.fresh mode) := by
    refine ⟨?_,?_,?_,?_,each_nil _⟩
    · intro i op hop
      cases hop
    · intro a ha
      cases ha
    · intro op kind installation answer hmem
      cases hmem
    · intro op kind installation answer hun
      exact absurd hun.called List.not_mem_nil
  have hsound := Along.invariant (I := Sound) (fun c r hc hseen => sound_step hc r hseen) hfresh h
  exact ⟨hsound.careful,hsound.pending_le⟩

end

/-- A workload at its second generation. -/
def second : ExecutionPlan := ⟨['a'],2,['d'],by decide⟩

/-- The first generation of the workload, in some state. -/
def firstIn (state : WorkloadState) : ObservedWorkload where
  runtimeId := ['r']
  name := ['n']
  installation := ['a']
  generation := some 1
  planDigest := some ['c']
  image := ['i']
  state := state

/-- A pass that is cut off after the engine was asked to stop the first generation, and
then another. -/
def cutStop (state : WorkloadState) : List (Request × List Answer) :=
  [(.setEffectsEnabled true,[.ok []]),(.setDesired second,[.ok []]),
    (.reconcile (.ok [firstIn state]),[.ok [],.ok []]),
    (.reconcile (.ok [firstIn state]),[.ok [],.ok [],.ok []])]

theorem destructive_effects_are_reviewed_after_a_cut :
    Along step (fun c r => seesNoPausedStop c r = true) (.fresh .effects) (cutStop .running) ∧
    ((run step (.fresh .effects) (cutStop .running)).journal.ops.map (·.state) = [.needsReview]) ∧
    Careful (run step (.fresh .effects) (cutStop .running)).history ∧
    (run step (.fresh .effects) (cutStop .running)).journal.pending.length ≤ 1 :=
  ⟨by decide,by decide,destructive_effects_are_reviewed .effects (cutStop .running) (by decide)⟩

/-- The stop of a paused workload is cut off, and made again while it still is paused. -/
theorem paused_stop_is_retried :
    ¬ ∀ mode requests,Careful (run step (.fresh mode) requests).history ∧
      (run step (.fresh mode) requests).journal.pending.length ≤ 1 := by
  intro h
  have hcareful := (h .effects (cutStop .paused)).1
  refine hcareful [.observed (byInstallation [firstIn .paused]),.called 1 .stop ['a'] (.ok []),
    .observed (byInstallation [firstIn .paused])] (.called 2 .stop ['a'] (.ok [])) [] (by decide)
    2 .stop ['a'] (.ok []) rfl 1 .stop (.ok []) ?_
  refine ⟨rfl,[.observed (byInstallation [firstIn .paused])],
    [.observed (byInstallation [firstIn .paused])],rfl,Or.inr (by decide),?_,by decide⟩
  intro seen hseen
  cases List.mem_singleton.mp hseen
  decide

end Flagship.Core
