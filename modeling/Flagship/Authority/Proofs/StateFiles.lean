import Flagship.Authority.Daemon

namespace Flagship.Authority.StateFile
variable {α : Type} {f : StateFile α} {body c : α}

/-- A replacement a process that starts may find to be the last that was made. -/
def Possible (f : StateFile α) (c : α) : Prop := ∃ m,f.writes[m]? = some c ∧ f.known ≤ m + 1

/-- Every replacement from this one on has a property. -/
def Since (f : StateFile α) (ticket : Nat) (P : α → Prop) : Prop :=
  ∀ m c,ticket ≤ m → f.writes[m]? = some c → P c

theorem possible_ask (h : (f.ask body).Possible c) : f.Possible c ∨ c = body := by
  obtain ⟨m,hm,hknown⟩ := h
  rcases Lib.getElem?_append_one hm with hold | ⟨_,hnew⟩
  · exact Or.inl ⟨m,hold,hknown⟩
  · exact Or.inr hnew

theorem possible_settle {ticket : Nat} (h : (f.settle ticket).Possible c) : f.Possible c := by
  obtain ⟨m,hm,hknown⟩ := h
  exact ⟨m,hm,Nat.le_trans (Nat.le_max_left _ _) hknown⟩

theorem Since.of_settle {ticket : Nat} {P : α → Prop} (h : f.Since ticket P)
    (hc : (f.settle ticket).Possible c) : P c := by
  obtain ⟨m,hm,hknown⟩ := hc
  have hle : ticket + 1 ≤ m + 1 := Nat.le_trans (Nat.le_max_right _ _) hknown
  exact h m c (Nat.le_of_succ_le_succ hle) hm

/-- What is found after a crash. -/
theorem content_crash (f : StateFile α) (made : Nat) :
    (f.crash made).content = (f.writes.take (max f.known made)).getLast? := by
  simp only [content,crash,List.take_length]

theorem possible_of_content {made : Nat} (hbound : f.known ≤ f.writes.length)
    (h : (f.crash made).content = some c) : f.Possible c := by
  rw [content_crash,List.getLast?_eq_getElem?,List.getElem?_take] at h
  split at h
  next hlt =>
    refine ⟨_,h,?_⟩
    have hlen : (f.writes.take (max f.known made)).length =
        min (max f.known made) f.writes.length := List.length_take
    omega
  next => cases h

theorem known_of_content {made : Nat} (hbound : f.known ≤ f.writes.length)
    (h : (f.crash made).content = none) : f.known = 0 := by
  rw [content_crash,List.getLast?_eq_none_iff,List.take_eq_nil_iff] at h
  rcases h with h | h
  · omega
  · simpa [h] using hbound

/-- After a crash there is no doubt about what is in the file. -/
theorem possible_crash {made : Nat} (h : (f.crash made).Possible c) :
    (f.crash made).content = some c := by
  obtain ⟨m,hm,hknown⟩ := h
  have hlt := (List.getElem?_eq_some_iff.mp hm).1
  simp only [crash] at hm hknown hlt
  rw [content_crash,List.getLast?_eq_getElem?]
  rw [← hm]
  congr 1
  omega

theorem bound_crash (f : StateFile α) (made : Nat) :
    (f.crash made).known ≤ (f.crash made).writes.length := Nat.le_refl _

end Flagship.Authority.StateFile
