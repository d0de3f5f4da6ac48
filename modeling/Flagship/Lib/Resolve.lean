import Flagship.Lib.Async

namespace Flagship.Lib

/-- The beginning of a schedule without end. -/
def first {ι : Type} : Nat → (Nat → ι) → List ι
  | 0,_ => []
  | n + 1,schedule => schedule 0 :: first n fun m => schedule (m + 1)

theorem first_add {ι : Type} (n m : Nat) (schedule : Nat → ι) :
    first (n + m) schedule = first n schedule ++ first m fun k => schedule (k + n) := by
  induction n generalizing schedule with
  | zero => simp [first]
  | succ n ih =>
    rw [Nat.succ_add,first,ih,first,List.cons_append]
    simp only [Nat.add_assoc]

section
variable {C S X L E α K : Type} {v : Service C S X L E α K} {t : Contract C S X L E α K}
  {w : Loop C S X L E α} {c : C} {i : Nat}

/-- A turn that neither resumes a call nor loses it leaves it where it stands. -/
theorem Service.calls_of_other {turn : Turn C X K} {entry : C × Option (Fiber S X L E α)}
    (hcall : w.calls[i]? = some entry) (hcrash : ∀ k,turn ≠ .crash k)
    (hresume : ∀ x,turn ≠ .resume i x) : (v.turn w turn).calls[i]? = some entry := by
  cases turn with
  | call c x =>
    have hlt := (List.getElem?_eq_some_iff.mp hcall).1
    exact (List.getElem?_append_left hlt).trans hcall
  | resume j x =>
    have hne : j ≠ i := by
      intro heq
      exact hresume x (by rw [heq])
    simp only [Service.turn]
    split
    · exact (List.getElem?_set_ne hne).trans hcall
    · exact hcall
  | crash k => exact absurd rfl (hcrash k)

theorem Service.call_made (v : Service C S X L E α K) (w : Loop C S X L E α) (c : C) (x : X) :
    (v.turn w (.call c x)).calls[w.calls.length]? =
      some (c,some (v.body c w.calls.length x w.shared).2) := by
  simp [Service.turn]

/-- A call that is resumed some time goes on from where it stands. -/
theorem Service.goes_on {schedule : Nat → Turn C X K} {place : L} {go : X → S → S}
    {next : X → S → Fiber S X L E α}
    (hcall : w.calls[i]? = some (c,some (.wait place go next)))
    (hcrash : ∀ n k,schedule n ≠ .crash k) {m : Nat} {x : X} (hm : schedule m = .resume i x) :
    ∃ n y s,(run v.turn w (first n schedule)).calls[i]? = some (c,some (next y s)) := by
  induction m generalizing w schedule with
  | zero =>
    refine ⟨1,x,w.shared,?_⟩
    have hlt := (List.getElem?_eq_some_iff.mp hcall).1
    simp only [first,run_cons,run_nil,hm,Service.turn,hcall]
    exact List.getElem?_set_self hlt
  | succ m ih =>
    by_cases hnow : ∃ y,schedule 0 = .resume i y
    · obtain ⟨y,hy⟩ := hnow
      refine ⟨1,y,w.shared,?_⟩
      have hlt := (List.getElem?_eq_some_iff.mp hcall).1
      simp only [first,run_cons,run_nil,hy,Service.turn,hcall]
      exact List.getElem?_set_self hlt
    · have hstep := Service.calls_of_other (v := v) hcall (hcrash 0) fun y hy => hnow ⟨y,hy⟩
      obtain ⟨n,y,s,hgoes⟩ := ih hstep (fun n => hcrash (n + 1)) hm
      exact ⟨n + 1,y,s,hgoes⟩

/-- A call that is resumed again and again ends. -/
theorem Service.ends_of_resumed (v : Service C S X L E α K) (fiber : Fiber S X L E α)
    {w : Loop C S X L E α} {schedule : Nat → Turn C X K}
    (hcall : w.calls[i]? = some (c,some fiber)) (hcrash : ∀ n k,schedule n ≠ .crash k)
    (hfair : ∀ n,∃ m x,n ≤ m ∧ schedule m = .resume i x) :
    ∃ n result,(run v.turn w (first n schedule)).ended i c result := by
  induction fiber generalizing w schedule with
  | done result => exact ⟨0,result,hcall⟩
  | wait place go next ih =>
    obtain ⟨m,x,_,hm⟩ := hfair 0
    obtain ⟨n,y,s,hgoes⟩ := Service.goes_on (v := v) hcall hcrash hm
    obtain ⟨n',result,hend⟩ := @ih y s _ (fun k => schedule (k + n)) hgoes
      (fun k => hcrash (k + n)) (by
        intro k
        obtain ⟨m,z,hle,heq⟩ := hfair (k + n)
        exact ⟨m - n,z,by omega,by rw [← heq]; congr 1; omega⟩)
    refine ⟨n + n',result,?_⟩
    rw [first_add,run_append]
    exact hend

/-- A call that has not ended and will have done what is asked of it when it does. -/
def Contract.Follows (t : Contract C S X L E α K) (Q : Except E α → S → Prop) (c : C) (i : Nat)
    (s : S) : Fiber S X L E α → Prop
  | .done _ => True
  | .wait place go next => ∀ y s',t.rely i s s' → t.inv s' → t.resumed c place y s' →
      (next y s').Keeps (t.terms c i)
        (fun y s₀ result s => t.leaves c i y s₀ result s ∧ Q result s) y s' (go y s')

variable {Q : Except E α → S → Prop}

/-- The call with this number is on its way, or was lost. -/
def Contract.Watched (t : Contract C S X L E α K) (Q : Except E α → S → Prop) (c : C) (i : Nat)
    (w : Loop C S X L E α) : Prop :=
  t.Holds w ∧ i < w.calls.length ∧
    ∀ c' fiber,w.calls[i]? = some (c',some fiber) → c' = c ∧ t.Follows Q c i w.shared fiber

/-- What the last stretch of a call leaves behind. -/
theorem Contract.follows_of_keeps {x : X} {s₀ s : S} {fiber : Fiber S X L E α}
    (h : fiber.Keeps (t.terms c i) (fun y s₀ result s => t.leaves c i y s₀ result s ∧ Q result s)
      x s₀ s) :
    t.Follows Q c i s fiber ∧ ∀ result,fiber = .done result → Q result s := by
  cases fiber with
  | done result =>
    refine ⟨trivial,?_⟩
    intro result' heq
    cases heq
    exact h.2
  | wait place go next =>
    refine ⟨h.2.2,?_⟩
    intro result heq
    cases heq

theorem Contract.Follows.on (hv : v.Meets t) {s s' : S} {fiber : Fiber S X L E α}
    (h : t.Follows Q c i s fiber) (hrely : t.rely i s s') : t.Follows Q c i s' fiber := by
  cases fiber with
  | done result => trivial
  | wait place go next =>
    intro y u hrely' hinv' hcond
    exact h y u (hv.rely_trans i s s' u hrely hrely') hinv' hcond

/-- A turn leaves a call that is on its way there, or it ends as it should. -/
theorem Service.Meets.watched (hv : v.Meets t) (hw : t.Watched Q c i w) {turn : Turn C X K}
    (hc : t.allow w turn) : t.Watched Q c i (v.turn w turn) ∧
      ∀ result,(v.turn w turn).ended i c result → w.ended i c result ∨
        Q result (v.turn w turn).shared := by
  obtain ⟨hholds,hlt,hfollows⟩ := hw
  have hholds' := hv.turn hholds hc
  by_cases hturn : ∃ k,turn = .crash k
  · obtain ⟨k,rfl⟩ := hturn
    refine ⟨⟨hholds',by simpa [Service.turn] using hlt,?_⟩,?_⟩
    · intro c' fiber hcall
      have hcall' : (w.calls.map lose)[i]? = some (c',some fiber) := hcall
      rw [List.getElem?_map] at hcall'
      obtain ⟨⟨c'',fiber'⟩,hmem,hlose⟩ := Option.map_eq_some_iff.mp hcall'
      cases fiber' with
      | none => cases hlose
      | some fiber' => cases fiber' with
        | wait place go next => cases hlose
        | done result =>
          cases hlose
          exact ⟨(hfollows c' _ hmem).1,trivial⟩
    · intro result hend
      exact Or.inl (Loop.ended_of_lost hend)
  · by_cases hresume : ∃ x,turn = .resume i x
    · obtain ⟨x,rfl⟩ := hresume
      cases hplace : w.calls[i]? with
      | none => exact absurd (List.getElem?_eq_none_iff.mp hplace) (Nat.not_le.mpr hlt)
      | some entry =>
        obtain ⟨c',fiber⟩ := entry
        rcases fiber with _ | ⟨result⟩ | ⟨place,go,next⟩
        · have hsame : v.turn w (.resume i x) = w := by simp only [Service.turn,hplace]
          rw [hsame]
          exact ⟨⟨hholds,hlt,hfollows⟩,fun result hend => Or.inl hend⟩
        · have hsame : v.turn w (.resume i x) = w := by simp only [Service.turn,hplace]
          rw [hsame]
          exact ⟨⟨hholds,hlt,hfollows⟩,fun result hend => Or.inl hend⟩
        · obtain ⟨rfl,hgoes⟩ := hfollows c' _ hplace
          obtain ⟨hnext,hdone⟩ := Contract.follows_of_keeps
            (hgoes x w.shared (hv.rely_refl i _) hholds.1 (hc c' place go next hplace))
          have hcall : (v.turn w (.resume i x)).calls[i]? =
              some (c',some (next x w.shared)) := by
            simp only [Service.turn,hplace]
            exact List.getElem?_set_self hlt
          have hshared : (v.turn w (.resume i x)).shared = go x w.shared := by
            simp only [Service.turn,hplace]
          refine ⟨⟨hholds',(List.getElem?_eq_some_iff.mp hcall).1,?_⟩,?_⟩
          · intro c'' fiber hfiber
            rw [hcall] at hfiber
            cases hfiber
            rw [hshared]
            exact ⟨rfl,hnext⟩
          · intro result hend
            rw [Loop.ended,hcall] at hend
            cases hnext' : next x w.shared with
            | wait place go next => rw [hnext'] at hend; cases hend
            | done result' =>
              rw [hnext'] at hend
              cases hend
              rw [hshared]
              exact Or.inr (hdone result hnext')
    · have hkept := Service.calls_of_other (v := v) (List.getElem?_eq_getElem hlt)
        (fun k hk => hturn ⟨k,hk⟩) (fun x hx => hresume ⟨x,hx⟩)
      rw [← List.getElem?_eq_getElem hlt] at hkept
      refine ⟨⟨hholds',?_,?_⟩,fun result hend => Or.inl (hkept.symm.trans hend)⟩
      · rw [List.getElem?_eq_getElem hlt] at hkept
        exact (List.getElem?_eq_some_iff.mp hkept).1
      · intro c' fiber hcall
        rw [hkept] at hcall
        obtain ⟨hc',hgoes⟩ := hfollows c' fiber hcall
        refine ⟨hc',?_⟩
        rcases hv.stretch hholds hc (fun k hk => hturn ⟨k,hk⟩) with
          heq | ⟨j,_,_,_,hguar,_,_,_,hwho,_⟩
        · rw [heq]
          exact hgoes
        · have hne : j ≠ i := by
            intro heq
            subst heq
            exact hresume (hwho hlt)
          exact hgoes.on hv (hv.others j i _ _ hne hguar)

/-- A call that is made where its code does what is asked of it has done it when it
ends, in whichever turn that is. -/
theorem Service.Meets.resolves (hv : v.Meets t) (hw : t.Holds w) {x : X}
    (hbody : (v.body c w.calls.length).wp (t.terms c w.calls.length)
      (fun y s₀ result s => t.leaves c w.calls.length y s₀ result s ∧ Q result s) x w.shared
      w.shared) {turns : List (Turn C X K)} {turn : Turn C X K}
    (h : Along v.turn t.allow w (.call c x :: turns ++ [turn])) {result : Except E α}
    (hbefore : ¬ (Lib.run v.turn w (.call c x :: turns)).ended w.calls.length c result)
    (hend : (Lib.run v.turn w (.call c x :: turns ++ [turn])).ended w.calls.length c result) :
    Q result (Lib.run v.turn w (.call c x :: turns ++ [turn])).shared := by
  have hcall := v.call_made w c x
  have hstart : t.Watched Q c w.calls.length (v.turn w (.call c x)) := by
    refine ⟨hv.turn hw h.1,(List.getElem?_eq_some_iff.mp hcall).1,?_⟩
    intro c' fiber hfiber
    rw [hcall] at hfiber
    cases hfiber
    exact ⟨rfl,(Contract.follows_of_keeps hbody.keeps).1⟩
  have hrest : Along v.turn t.allow (v.turn w (.call c x)) (turns ++ [turn]) := h.2
  obtain ⟨hturns,hturn⟩ := along_append.mp hrest
  have hwatched := Along.invariant (I := t.Watched Q c w.calls.length)
    (fun _ _ hw hc => (hv.watched hw hc).1) hstart hturns
  rw [List.cons_append,run_cons,run_append] at hend ⊢
  rcases (hv.watched hwatched hturn.1).2 result hend with hearlier | hends
  · exact absurd hearlier hbefore
  · exact hends

end
end Flagship.Lib
