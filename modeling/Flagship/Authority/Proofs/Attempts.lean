import Flagship.Authority.Proofs.LedgerCode

namespace Flagship.Authority
open Lib Mesh

/-- The key of the try with this number. -/
def tryKey (order : OrderOperationInput) (k : Nat) : Text :=
  if k = 0 then order.idempotencyKey else order.idempotencyKey ++ '#' :: Nat.toDigits 10 k

theorem tryKey_inj {order : OrderOperationInput} {k l : Nat}
    (h : tryKey order k = tryKey order l) : k = l := by
  unfold tryKey at h
  split at h <;> split at h
  · omega
  · have := congrArg List.length h
    simp at this
  · have := congrArg List.length h
    simp at this
  · have hdigits := List.tail_eq_of_cons_eq (List.append_cancel_left h)
    rw [← Nat.ofDigitChars_ten_toDigits (n := k),hdigits,Nat.ofDigitChars_ten_toDigits]

theorem lookupKey_inj {requester key key' : Text}
    (h : lookupKey requester key = lookupKey requester key') : key = key' :=
  List.tail_eq_of_cons_eq (List.append_cancel_left h)

/-- The operation in the place of the one with its id. -/
def replaced (next : Operation) (ops : List Operation) : List Operation :=
  ops.map fun op => if op.id = next.id then next else op

theorem mem_replaced {next a : Operation} {ops : List Operation} (h : a ∈ replaced next ops) :
    a = next ∨ a ∈ ops ∧ a.id ≠ next.id := by
  obtain ⟨b,hb,heq⟩ := List.mem_map.mp h
  split at heq
  next => exact Or.inl heq.symm
  next hne => exact Or.inr ⟨heq ▸ hb,heq ▸ hne⟩

theorem ids_replaced (next : Operation) (ops : List Operation) :
    (replaced next ops).map (·.id) = ops.map (·.id) := by
  simp only [replaced,List.map_map]
  apply List.map_congr_left
  intro a _
  by_cases ha : a.id = next.id <;> simp [ha]

/-- Every operation of the ledger stands under its own id. -/
def Keyed (l : OperationLedger) : Prop := ∀ id op,l.ops.get? id = some op → op.id = id

section
variable {l : OperationLedger} {op next : Operation}

theorem mem_values (hkeyed : Keyed l) : op ∈ l.values ↔ l.ops.get? op.id = some op := by
  constructor
  · intro h
    obtain ⟨⟨id,op'⟩,hmem,rfl⟩ := List.mem_map.mp h
    have hget := l.ops.mem_entries.mp hmem
    rw [hkeyed id op' hget]
    exact hget
  · intro h
    exact List.mem_map.mpr ⟨(op.id,op),l.ops.mem_entries.mpr h,rfl⟩

theorem keyed_set {l' : OperationLedger} (hops : l'.ops = l.ops.set next.id next)
    (hkeyed : Keyed l) : Keyed l' := by
  intro id op hop
  rw [hops] at hop
  by_cases hid : id = next.id
  · simp only [hid,OrdMap.get?_set_self,Option.some.injEq] at hop
    rw [hid,hop]
  · rw [OrdMap.get?_set_ne hid] at hop
    exact hkeyed id op hop

theorem values_set_of_some {l' : OperationLedger} (hops : l'.ops = l.ops.set next.id next)
    (hkeyed : Keyed l) (h : l.ops.get? next.id = some op) :
    l'.values = replaced next l.values := by
  simp only [OperationLedger.values,hops,OrdMap.entries_set_of_some next h,replaced,List.map_map]
  apply List.map_congr_left
  intro entry hentry
  have hid := hkeyed entry.1 entry.2 (l.ops.mem_entries.mp hentry)
  by_cases hk : entry.1 = next.id <;> simp [hid,hk]

theorem values_set_of_none {l' : OperationLedger} (hops : l'.ops = l.ops.set next.id next)
    (h : l.ops.get? next.id = none) : l'.values = l.values ++ [next] := by
  simp [OperationLedger.values,hops,OrdMap.entries_set_of_none next h]

end

theorem keyed_empty : Keyed .empty := by
  intro id op h
  simp [OperationLedger.empty] at h

/-- What the ledger is once these operations were read into it as well. -/
theorem values_foldl_enter (ops : List Operation) (l : OperationLedger) (hkeyed : Keyed l)
    (hnodup : ((l.values ++ ops).map (·.id)).Nodup) :
    (ops.foldl OperationLedger.enter l).values = l.values ++ ops := by
  induction ops generalizing l with
  | nil => simp
  | cons op ops ih =>
    have hnone : l.ops.get? op.id = none := by
      cases hget : l.ops.get? op.id with
      | none => rfl
      | some op' =>
        have hmem : op' ∈ l.values :=
          (mem_values hkeyed).mpr (by rw [hkeyed op.id op' hget]; exact hget)
        rw [List.map_append,List.nodup_append] at hnodup
        exact absurd (hkeyed op.id op' hget) (hnodup.2.2 _ (List.mem_map_of_mem hmem) _ (by simp))
    have hvalues : (l.enter op).values = l.values ++ [op] := values_set_of_none rfl hnone
    have happend : (l.enter op).values ++ ops = l.values ++ op :: ops := by
      rw [hvalues,List.append_assoc,List.singleton_append]
    rw [List.foldl_cons,ih _ (keyed_set rfl hkeyed) (happend ▸ hnodup),happend]

theorem values_ofFile {ops : List Operation} (hnodup : (ops.map (·.id)).Nodup) :
    (OperationLedger.ofFile ops).values = ops :=
  values_foldl_enter ops .empty keyed_empty hnodup

theorem keyed_ofFile (ops : List Operation) : Keyed (.ofFile ops) := by
  suffices hfold : ∀ l : OperationLedger,Keyed l → Keyed (ops.foldl OperationLedger.enter l) from
    hfold .empty keyed_empty
  induction ops with
  | nil => exact fun l hl => hl
  | cons op ops ih => exact fun l hl => ih (l.enter op) (keyed_set rfl hl)

/-- What an operation is looked up by. -/
def keyOf (op : Operation) : Text := lookupKey op.requester op.idempotencyKey

theorem byKey_foldl_enter (ops : List Operation) (l : OperationLedger) {key id : Text}
    (h : (ops.foldl OperationLedger.enter l).byKey.get? key = some id) :
    l.byKey.get? key = some id ∨ ∃ op ∈ ops,op.id = id ∧ key = keyOf op := by
  induction ops generalizing l with
  | nil => exact Or.inl h
  | cons op ops ih =>
    rcases ih (l.enter op) h with hone | ⟨op',hmem,hop'⟩
    · by_cases hkey : key = keyOf op
      · subst hkey
        have hid : some op.id = some id := by
          rw [← hone]
          exact (OrdMap.get?_set_self ..).symm
        exact Or.inr ⟨op,by simp,Option.some.inj hid,rfl⟩
      · have hset : (l.byKey.set (keyOf op) op.id).get? key = some id := hone
        rw [OrdMap.get?_set_ne hkey] at hset
        exact Or.inl hset
    · exact Or.inr ⟨op',List.mem_cons_of_mem _ hmem,hop'⟩

theorem led_foldl_enter (ops : List Operation) (l : OperationLedger)
    (hkeys : (ops.map keyOf).Nodup) {op : Operation} (hop : op ∈ ops) :
    (ops.foldl OperationLedger.enter l).byKey.get? (keyOf op) = some op.id := by
  induction ops generalizing l with
  | nil => cases hop
  | cons a ops ih =>
    obtain ⟨hnot,hrest⟩ := List.nodup_cons.mp hkeys
    rcases List.mem_cons.mp hop with rfl | hop
    · suffices hkept : ∀ m : OperationLedger,m.byKey.get? (keyOf op) = some op.id →
          (ops.foldl OperationLedger.enter m).byKey.get? (keyOf op) = some op.id from
        hkept _ (OrdMap.get?_set_self ..)
      clear ih hrest hkeys hop
      induction ops with
      | nil => exact fun m hm => hm
      | cons b ops ih =>
        simp only [List.map_cons,List.mem_cons,not_or] at hnot
        intro m hm
        exact ih hnot.2 _ ((OrdMap.get?_set_ne hnot.1).trans hm)
    · exact ih _ hrest hop

section
variable [Sha256]

/-- An operation that is a try of the order, with this number. -/
structure IsTry (order : OrderOperationInput) (k : Nat) (op : Operation) : Prop where
  id : op.id ≠ []
  requester : op.requester = order.requester
  kind : op.kind = order.kind
  payloadHash : op.payloadHash = Sha256.sha256Hex order.canonicalPayload
  idempotencyKey : op.idempotencyKey = tryKey order k

/-- The tries of an order, one after another: all but the last of them are over. -/
structure Line (order : OrderOperationInput) (ops : List Operation) : Prop where
  tries : ∀ k op,ops[k]? = some op → IsTry order k op
  retired : ∀ k op,ops[k]? = some op → k + 1 < ops.length → isRetired op = true
  nodup : (ops.map (·.id)).Nodup

variable {order input : OrderOperationInput} {ops : List Operation} {op next : Operation}

theorem Line.nil (order : OrderOperationInput) : Line order [] :=
  ⟨by simp,by simp,by simp⟩

theorem IsTry.moved {k : Nat} (h : IsTry order k op) (hmoved : Moved op next) :
    IsTry order k next :=
  ⟨hmoved.id ▸ h.id,hmoved.requester.trans h.requester,hmoved.kind.trans h.kind,
    hmoved.payloadHash.trans h.payloadHash,hmoved.idempotencyKey.trans h.idempotencyKey⟩

/-- An operation that is not over is the last. -/
theorem Line.last_of_open (h : Line order ops) (hop : op ∈ ops) (hopen : isRetired op = false) :
    ops.getLast? = some op := by
  obtain ⟨k,hk,hget⟩ := List.getElem_of_mem hop
  have hsome : ops[k]? = some op := by rw [List.getElem?_eq_getElem hk,hget]
  have hlast : ¬ k + 1 < ops.length := by
    intro hlt
    rw [h.retired k op hsome hlt] at hopen
    cases hopen
  rw [List.getLast?_eq_getElem?,← hsome]
  congr 1
  omega

theorem Line.eq_of_id {op' : Operation} (h : Line order ops) (hop : op ∈ ops) (hop' : op' ∈ ops)
    (hid : op'.id = op.id) : op' = op :=
  List.inj_on_of_nodup_map h.nodup hop' hop hid

theorem Line.replaced (h : Line order ops) (hop : op ∈ ops) (hopen : isRetired op = false)
    (hmoved : Moved op next) : Line order (replaced next ops) := by
  have hlast := h.last_of_open hop hopen
  refine ⟨?_,?_,by rw [ids_replaced]; exact h.nodup⟩
  · intro k a ha
    rw [Authority.replaced,List.getElem?_map] at ha
    obtain ⟨b,hb,heq⟩ := Option.map_eq_some_iff.mp ha
    split at heq
    next hid =>
      subst heq
      have hsame := h.eq_of_id hop (List.mem_of_getElem? hb) (hid.trans hmoved.id)
      exact (hsame ▸ h.tries k b hb).moved hmoved
    next =>
      subst heq
      exact h.tries k b hb
  · intro k a ha hlt
    rw [Authority.replaced,List.length_map] at hlt
    rw [Authority.replaced,List.getElem?_map] at ha
    obtain ⟨b,hb,heq⟩ := Option.map_eq_some_iff.mp ha
    split at heq
    next hid =>
      -- the operation moved is the last, so this place holds another
      have hsame := h.eq_of_id hop (List.mem_of_getElem? hb) (hid.trans hmoved.id)
      rw [hsame] at hb
      rw [h.retired k op hb hlt] at hopen
      cases hopen
    next =>
      subst heq
      exact h.retired k b hb hlt

theorem Line.append (h : Line order ops) (hover : ∀ op ∈ ops,isRetired op = true)
    (hnext : IsTry order ops.length next) (hfresh : ∀ op ∈ ops,op.id ≠ next.id) :
    Line order (ops ++ [next]) := by
  refine ⟨?_,?_,?_⟩
  · intro k a ha
    rcases getElem?_append_one ha with hold | ⟨rfl,rfl⟩
    · exact h.tries k a hold
    · exact hnext
  · intro k a ha hlt
    rcases getElem?_append_one ha with hold | ⟨rfl,rfl⟩
    · exact hover a (List.mem_of_getElem? hold)
    · simp at hlt
  · rw [List.map_append,List.nodup_append]
    refine ⟨h.nodup,by simp,?_⟩
    intro a ha b hb hab
    obtain ⟨op,hop,rfl⟩ := List.mem_map.mp ha
    simp only [List.map_cons,List.map_nil,List.mem_singleton] at hb
    exact hfresh op hop (hab.trans hb)

theorem Line.tryOf (h : Line order ops) (hop : op ∈ ops) : ∃ k,ops[k]? = some op ∧ IsTry order k op := by
  obtain ⟨k,hk⟩ := List.mem_iff_getElem?.mp hop
  exact ⟨k,hk,h.tries k op hk⟩

theorem IsTry.keyOf_eq {k : Nat} (h : IsTry order k op) :
    keyOf op = lookupKey order.requester (tryKey order k) := by
  rw [keyOf,h.requester,h.idempotencyKey]

theorem Line.keys_nodup (h : Line order ops) : (ops.map keyOf).Nodup := by
  refine List.Nodup.map_on ?_ (List.Nodup.of_map _ h.nodup)
  intro a ha b hb hab
  obtain ⟨k,hk,htry⟩ := h.tryOf ha
  obtain ⟨m,hm,htry'⟩ := h.tryOf hb
  rw [htry.keyOf_eq,htry'.keyOf_eq] at hab
  rw [tryKey_inj (lookupKey_inj hab),hm] at hk
  exact (Option.some.inj hk).symm

theorem isAttempt_of_try {k : Nat} (h : IsTry order k op) (hsame : sameOrder order input = true) :
    isAttempt input op = true := by
  simp only [sameOrder,Bool.and_eq_true,decide_eq_true_eq] at hsame
  obtain ⟨⟨⟨hkind,hrequester⟩,hkey⟩,_⟩ := hsame
  simp only [isAttempt,h.kind,h.requester,h.idempotencyKey,hkind,hrequester,hkey,tryKey,
    decide_true,Bool.or_true,Bool.true_and,Bool.or_eq_true,decide_eq_true_eq]
  split
  · exact Or.inl rfl
  · right
    rw [List.isPrefixOf_iff_prefix]
    exact ⟨Nat.toDigits 10 k,by simp⟩

/-- The key of the next try: that of the try that is not over, or the next number. -/
theorem attemptKey_of_line {l : OperationLedger} (h : Line order l.values)
    (hsame : sameOrder order input = true) :
    (∃ live ∈ l.values,isRetired live = false ∧ attemptKey input l = live.idempotencyKey) ∨
      (∀ op ∈ l.values,isRetired op = true) ∧ attemptKey input l = tryKey order l.values.length := by
  have hall : attempts input l = l.values := by
    refine List.filter_eq_self.mpr ?_
    intro op hop
    obtain ⟨k,_,htry⟩ := h.tryOf hop
    exact isAttempt_of_try htry hsame
  unfold attemptKey
  rw [hall]
  split
  next live hfind =>
    refine Or.inl ⟨live,List.mem_of_find?_eq_some hfind,?_,rfl⟩
    simpa using List.find?_some hfind
  next hnone =>
    have hover : ∀ op ∈ l.values,isRetired op = true := by
      intro op hop
      simpa using List.find?_eq_none.mp hnone op hop
    refine Or.inr ⟨hover,?_⟩
    simp only [sameOrder,Bool.and_eq_true,decide_eq_true_eq] at hsame
    simp only [List.filter_eq_self.mpr hover,tryKey,hsame.1.2]

end
end Flagship.Authority
