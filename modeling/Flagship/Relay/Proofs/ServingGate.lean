import Flagship.Relay.Allocator

namespace Flagship.Relay.Proofs
open Lib Registry

section
variable [Lowercase] {T : Type}

/-- Nobody has the tunnel yet: it is registered for no pod and no phone holds it. -/
def Fresh (r : Registry T) (new : T) : Prop :=
  (∀ p, r.tunnels.get? p ≠ some new) ∧ ∀ lookup ∈ r.phone, ∀ name, lookup name ≠ some new

/-- The steps the rest of the relay may take around the admission of `new` for
`pod`: older tunnels of the pod close, other pods do anything. -/
def Others (pod : Text) (new : T) : Op T → Prop
  | .register p t _ _ => toLowercase p ≠ toLowercase pod ∧ t ≠ new
  | .setServing p _ => toLowercase p ≠ toLowercase pod
  | .setPhoneRoutes lookup => ∀ f ∈ lookup, ∀ name, f name ≠ some new
  | .unregisterIf p closing => toLowercase p = toLowercase pod → closing ≠ new
  | _ => True

/-- The step does not close the tunnel the pod is registered with. -/
def PodStaysUp (pod : Text) (r : Registry T) : Op T → Prop
  | .unregisterIf p closing => toLowercase p = toLowercase pod →
    r.tunnels.get? (toLowercase pod) ≠ some closing
  | _ => True

/-- What routing reads of a registry. -/
structure SameRouting (r r' : Registry T) : Prop where
  tunnels : r'.tunnels = r.tunnels
  serving : r'.serving = r.serving
  phone : r'.phone = r.phone

theorem loadRedirections_same (r : Registry T) (entries : List (Text × Text)) :
    SameRouting r (r.loadRedirections entries) := by
  have hfold : ∀ (es : List (Text × Text)) (x : Registry T), SameRouting r x →
      SameRouting r (es.foldl (fun r e => r.addRedirection e.1 e.2) x) := by
    intro es
    induction es with
    | nil => exact fun _ h => h
    | cons e es ih => exact fun x h => ih _ ⟨h.tunnels,h.serving,h.phone⟩
  exact hfold entries _ ⟨rfl,rfl,rfl⟩

theorem setServing_tunnels (r : Registry T) (pod : Text) (view : ServingView) :
    (r.setServing pod view).1.tunnels = r.tunnels ∧ (r.setServing pod view).1.phone = r.phone ∧
      (r.setServing pod view).1.serving = r.serving.set (toLowercase pod) view := by
  unfold setServing
  simp only
  split <;> exact ⟨rfl,rfl,rfl⟩

/-- The pod's view is `view`, and `new` is at most the pod's own tunnel. -/
structure Gated (pod : Text) (view : ServingView) (new : T) (r : Registry T) : Prop where
  serving : r.serving.get? (toLowercase pod) = some view
  only : ∀ p, p ≠ toLowercase pod → r.tunnels.get? p ≠ some new
  phone : ∀ lookup ∈ r.phone, ∀ name, lookup name ≠ some new

theorem Gated.congr {pod : Text} {view : ServingView} {new : T} {r r' : Registry T}
    (g : Gated pod view new r) (h : SameRouting r r') : Gated pod view new r' :=
  ⟨h.serving ▸ g.serving,h.tunnels ▸ g.only,h.phone ▸ g.phone⟩

/-- Behind its gate the tunnel is reached under the pod's own name alone. -/
theorem Gated.findBySni {pod : Text} {view : ServingView} {new : T} {r : Registry T}
    (g : Gated pod view new r) (happs : view.apps = false) {name : Text}
    (hf : r.findBySni name = some new) : toLowercase name = toLowercase pod ∧ view.control = true := by
  unfold Registry.findBySni at hf
  simp only at hf
  split at hf
  · obtain ⟨lookup,hl,hn⟩ := Option.bind_eq_some_iff.mp hf
    exact absurd hn (g.phone lookup hl _)
  · simp only [Option.bind_eq_bind,Option.bind_eq_some_iff] at hf
    obtain ⟨pc,_,hf⟩ := hf
    have hpc : pc = toLowercase pod := by
      by_contra hne
      have hno := g.only pc hne
      split at hf
      · exact hno hf
      · split at hf
        · cases hf
        · split at hf
          · exact hno hf
          · cases hf
    subst hpc
    simp only [g.serving,happs,Bool.false_eq_true,false_or] at hf
    split at hf
    · cases hf
    · rename_i hctl
      split at hf
      · rename_i hname
        exact ⟨hname,by simpa using hctl⟩
      · cases hf

variable [DecidableEq T]

instance (pod : Text) (r : Registry T) (op : Op T) : Decidable (PodStaysUp pod r op) := by
  cases op <;> unfold PodStaysUp <;> infer_instance

theorem unregisterIf_cases (r : Registry T) (pod : Text) (closing : T) :
    (step r (.unregisterIf pod closing) = r ∧ r.tunnels.get? (toLowercase pod) ≠ some closing) ∨
    ((step r (.unregisterIf pod closing)).tunnels = r.tunnels.erase (toLowercase pod) ∧
      (step r (.unregisterIf pod closing)).serving = r.serving.erase (toLowercase pod) ∧
      (step r (.unregisterIf pod closing)).phone = r.phone ∧
      r.tunnels.get? (toLowercase pod) = some closing) := by
  have hiff : (r.tunnels.get? (toLowercase pod)).any (fun t => decide (t = closing)) = true ↔
      r.tunnels.get? (toLowercase pod) = some closing := by
    cases r.tunnels.get? (toLowercase pod) <;> simp
  simp only [step,unregisterIf,hiff]
  split
  · rename_i h
    exact Or.inr ⟨rfl,rfl,rfl,h⟩
  · rename_i h
    exact Or.inl ⟨rfl,h⟩

/-- Nothing the others do touches the gate while the pod stays up. -/
theorem step_gated {pod : Text} {view : ServingView} {new : T} {r : Registry T} {op : Op T}
    (g : Gated pod view new r) (ho : Others pod new op) (hu : PodStaysUp pod r op) :
    Gated pod view new (step r op) ∧
      (step r op).tunnels.get? (toLowercase pod) = r.tunnels.get? (toLowercase pod) := by
  cases op with
  | register p t canonicals nowMs =>
    obtain ⟨hp,ht⟩ := ho
    refine ⟨⟨g.serving,?_,g.phone⟩,OrdMap.get?_set_ne (Ne.symm hp)⟩
    intro q hq
    simp only [step,register,OrdMap.get?_set]
    split
    · exact fun he => ht (Option.some.inj he)
    · exact g.only q hq
  | setServing p v =>
    obtain ⟨htun,hph,hserv⟩ := setServing_tunnels r p v
    refine ⟨⟨?_,?_,?_⟩,?_⟩
    · rw [step,hserv,OrdMap.get?_set_ne (Ne.symm ho)]
      exact g.serving
    · rw [step,htun]
      exact g.only
    · rw [step,hph]
      exact g.phone
    · rw [step,htun]
  | setPhoneRoutes lookup => exact ⟨⟨g.serving,g.only,ho⟩,rfl⟩
  | requestTransfer p fqdn => exact ⟨⟨g.serving,g.only,g.phone⟩,rfl⟩
  | unregisterIf p closing =>
    rcases unregisterIf_cases r p closing with ⟨hs,_⟩ | ⟨htun,hserv,hph,hcur⟩
    · rw [hs]
      exact ⟨g,rfl⟩
    · have hp : toLowercase pod ≠ toLowercase p := fun he => hu he.symm (he ▸ hcur)
      refine ⟨⟨?_,?_,?_⟩,?_⟩
      · rw [hserv,OrdMap.get?_erase_ne hp]
        exact g.serving
      · intro q hq
        rw [htun,OrdMap.get?_erase]
        split
        · simp
        · exact g.only q hq
      · rw [hph]
        exact g.phone
      · rw [htun,OrdMap.get?_erase_ne hp]
  | addRedirection fqdn p => exact ⟨⟨g.serving,g.only,g.phone⟩,rfl⟩
  | removeRedirection fqdn => exact ⟨⟨g.serving,g.only,g.phone⟩,rfl⟩
  | loadRedirections entries =>
    have hs := loadRedirections_same r entries
    exact ⟨g.congr hs,by rw [step,hs.tunnels]⟩

theorem run_gated {pod : Text} {view : ServingView} {new : T} {r : Registry T} {ops : List (Op T)}
    (g : Gated pod view new r) (ho : ∀ op ∈ ops, Others pod new op)
    (hu : Along step (PodStaysUp pod) r ops) : Gated pod view new (run step r ops) := by
  induction ops generalizing r with
  | nil => exact g
  | cons op ops ih =>
    exact ih (step_gated g (ho op List.mem_cons_self) hu.1).1
      (fun x hx => ho x (List.mem_cons_of_mem _ hx)) hu.2

/-- Once `new` is the pod's tunnel, no older tunnel's close takes the pod down. -/
theorem registered_staysUp {pod : Text} {view : ServingView} {new : T} {r : Registry T}
    {ops : List (Op T)} (g : Gated pod view new r)
    (hnew : r.tunnels.get? (toLowercase pod) = some new) (ho : ∀ op ∈ ops, Others pod new op) :
    Along step (PodStaysUp pod) r ops := by
  induction ops generalizing r with
  | nil => exact trivial
  | cons op ops ih =>
    have hop := ho op List.mem_cons_self
    have hu : PodStaysUp pod r op := by
      cases op with
      | unregisterIf p closing =>
        intro hp he
        exact hop hp (Option.some.inj (he.symm.trans hnew))
      | _ => exact trivial
    obtain ⟨g',htun⟩ := step_gated g hop hu
    exact ⟨hu,ih g' (htun.trans hnew) (fun x hx => ho x (List.mem_cons_of_mem _ hx))⟩

/-- A tunnel admitted without apps is reached under its pod's exact name alone,
and under no name without control, from the moment it registers: whatever runs
between its two critical sections, as long as the pod is not taken down there. -/
theorem admitted_without_apps_gated (r : Registry T) (pod : Text) (view : ServingView) (new : T)
    (canonicals : List Text) (nowMs : Nat) (between after : List (Op T)) (hfresh : Fresh r new)
    (happs : view.apps = false) (hbetween : ∀ op ∈ between, Others pod new op)
    (hafter : ∀ op ∈ after, Others pod new op)
    (hup : Along step (PodStaysUp pod) (step r (.setServing pod view)) between) (name : Text)
    (hfound : (run step r (.setServing pod view :: between ++
      .register pod new canonicals nowMs :: after)).findBySni name = some new) :
    toLowercase name = toLowercase pod ∧ view.control = true := by
  have hset : Gated pod view new (step r (.setServing pod view)) := by
    obtain ⟨htun,hph,hserv⟩ := setServing_tunnels r pod view
    refine ⟨?_,?_,?_⟩
    · rw [step,hserv,OrdMap.get?_set_self]
    · rw [step,htun]
      exact fun p _ => hfresh.1 p
    · rw [step,hph]
      exact hfresh.2
  have hmid := run_gated hset hbetween hup
  rw [List.cons_append,run_cons,run_append,run_cons] at hfound
  generalize run step (step r (.setServing pod view)) between = s at hmid hfound
  have hreg : Gated pod view new (step s (.register pod new canonicals nowMs)) := by
    refine ⟨hmid.serving,?_,hmid.phone⟩
    intro p hp
    simp only [step,Registry.register,OrdMap.get?_set_ne hp]
    exact hmid.only p hp
  have hnew : (step s (.register pod new canonicals nowMs)).tunnels.get? (toLowercase pod) =
      some new := OrdMap.get?_set_self _ _ _
  exact (run_gated hreg hafter (registered_staysUp hreg hnew hafter)).findBySni happs hfound

end

/-- A home box with tunnel 1. -/
def oldTunnelUp : Registry Nat :=
  step (Registry.new defaultApex) (.register homePod 1 ["chess.home.alice.flagship.services".toList] 1)

theorem oldTunnelUp_fresh : Fresh oldTunnelUp 2 := by
  refine ⟨?_,by simp [oldTunnelUp,step,Registry.register,Registry.new]⟩
  intro p
  simp only [oldTunnelUp,step,Registry.register,OrdMap.get?_set]
  split
  · simp
  · simp [Registry.new]

/-- Tunnel 2 is admitted without apps and registers before tunnel 1 closes. -/
theorem admitted_without_apps_gated_home :
    (run step oldTunnelUp [.setServing homePod ⟨true,false⟩,
      .register homePod 2 ["chess.home.alice.flagship.services".toList] 2,
      .unregisterIf homePod 1]).findBySni homePod = some 2 ∧
    (run step oldTunnelUp [.setServing homePod ⟨true,false⟩,
      .register homePod 2 ["chess.home.alice.flagship.services".toList] 2,
      .unregisterIf homePod 1]).findBySni "chess.alice.flagship.services".toList ≠ some 2 := by
  refine ⟨by decide +kernel,fun hfound => ?_⟩
  have h := admitted_without_apps_gated oldTunnelUp homePod ⟨true,false⟩ 2
    ["chess.home.alice.flagship.services".toList] 2 [] [.unregisterIf homePod 1] oldTunnelUp_fresh
    rfl (by simp) (by simp [Others]) trivial _ hfound
  exact absurd h.1 (by decide +kernel)

/-- Tunnel 1 closes between the two critical sections: the view goes with it,
and tunnel 2 is reached under an app's name. -/
theorem close_between_opens_gate :
    (run step oldTunnelUp [.setServing homePod ⟨true,false⟩, .unregisterIf homePod 1,
      .register homePod 2 ["chess.home.alice.flagship.services".toList] 2]).findBySni
        "chess.alice.flagship.services".toList = some 2 ∧
    toLowercase "chess.alice.flagship.services".toList ≠ toLowercase homePod := by
  decide +kernel

end Flagship.Relay.Proofs
