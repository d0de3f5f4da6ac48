import Flagship.Lib.Run
import Flagship.Access.Proofs.Checks

namespace Flagship.Access
open Lib
open Row (removeKey)

/-- One handed-over entry, with the people and the facts of the box as it comes. -/
structure Call where
  people : People
  facts : Facts
  entry : AccessEntry

/-- No app is known yet. -/
def Store.empty (defaultRestricted : Bool) : Store := ⟨defaultRestricted,∅⟩

theorem Store.entry_empty (b : Bool) (r : Text) : (Store.empty b).entry r = Row.new b := by
  simp [Store.entry,Store.empty]

theorem removeKey_inj {a a' : Text} (h : removeKey a = removeKey a') : a = a' :=
  List.append_cancel_left h

theorem removeKey_head (a : Text) : (removeKey a).head? = some 'r' := rfl

theorem ne_removeKey {key : Text} (h : key.head? ≠ some 'r') (a : Text) : removeKey a ≠ key := by
  rintro rfl
  exact h rfl

section
variable {e e' : Row} {a id : Text}

theorem setAccountRank_effect (e : Row) (key rank : Text) (t : Nat) (evidence : Text) :
    (e.setAccountRank key rank t evidence).1.allow = e.allow ∧
    (e.setAccountRank key rank t evidence).1.groups = e.groups ∧
    (e.setAccountRank key rank t evidence).1.roles.withdrawn = e.roles.withdrawn ∧
    ∀ k, k ≠ key → (e.setAccountRank key rank t evidence).1.roles.seq.get? k =
      e.roles.seq.get? k := by
  unfold Row.setAccountRank
  split
  · exact ⟨rfl,rfl,rfl,fun _ _ => rfl⟩
  · exact ⟨rfl,rfl,rfl,fun k hk => OrdMap.get?_set_ne hk⟩

theorem applyModeOrder_effect (e : Row) (restricted : Bool) (t : Nat) :
    (e.applyModeOrder restricted t).1.allow = e.allow ∧
    (e.applyModeOrder restricted t).1.groups = e.groups ∧
    (e.applyModeOrder restricted t).1.roles.withdrawn = e.roles.withdrawn ∧
    ∀ k, k ≠ "mode".toList → (e.applyModeOrder restricted t).1.roles.seq.get? k =
      e.roles.seq.get? k := by
  unfold Row.applyModeOrder
  split
  · exact ⟨rfl,rfl,rfl,fun _ _ => rfl⟩
  · exact ⟨rfl,rfl,rfl,fun k hk => OrdMap.get?_set_ne hk⟩

variable [Lowercase]

theorem noteCoManager_effect (e : Row) (id : Text) (record : CoManagerRecord) :
    (e.noteCoManager id record).1.allow = e.allow ∧
    (e.noteCoManager id record).1.groups = e.groups ∧
    (e.noteCoManager id record).1.roles.withdrawn = e.roles.withdrawn ∧
    (e.noteCoManager id record).1.roles.seq = e.roles.seq := by
  unfold Row.noteCoManager
  split <;> exact ⟨rfl,rfl,rfl,rfl⟩

theorem setInvite_effect (e : Row) (id tier key : Text) :
    ((e.setInviteTier id tier).setInviteCreator id key).allow = e.allow ∧
    ((e.setInviteTier id tier).setInviteCreator id key).groups = e.groups ∧
    ((e.setInviteTier id tier).setInviteCreator id key).roles.withdrawn = e.roles.withdrawn ∧
    ((e.setInviteTier id tier).setInviteCreator id key).roles.seq = e.roles.seq := by
  have htier : (e.setInviteTier id tier).allow = e.allow ∧ (e.setInviteTier id tier).groups = e.groups ∧
      (e.setInviteTier id tier).roles.withdrawn = e.roles.withdrawn ∧
      (e.setInviteTier id tier).roles.seq = e.roles.seq := by
    unfold Row.setInviteTier
    simp only
    split <;> exact ⟨rfl,rfl,rfl,rfl⟩
  unfold Row.setInviteCreator
  split
  · exact htier
  · exact htier

theorem noteWithdrawn_effect (e : Row) (id : Text) (t : Nat) (signature : Text) :
    (e.noteWithdrawn id t signature).allow = e.allow ∧
    (e.noteWithdrawn id t signature).groups = e.groups ∧
    (e.noteWithdrawn id t signature).roles.seq = e.roles.seq := by
  unfold Row.noteWithdrawn
  split <;> exact ⟨rfl,rfl,rfl⟩

end

section
variable [Lowercase] [Ed25519]

/-- What a call does to the store. -/
def Call.step (r : Text) (s : Store) (c : Call) : Store :=
  (applyEntry s c.people c.facts r c.entry).1

def Call.answer (r : Text) (s : Store) (c : Call) : EntryResult :=
  (applyEntry s c.people c.facts r c.entry).2

/-- The entry of the call verifies on this box, and this is what it says. -/
def Call.Says (r : Text) (s : Store) (c : Call) (v : Verified) : Prop :=
  Access.Says c.people c.facts r s c.entry v

instance (r : Text) (s : Store) (c : Call) (v : Verified) : Decidable (c.Says r s v) :=
  inferInstanceAs (Decidable (_ = _))

variable {r : Text} {s : Store} {c : Call} {v v' : Verified}

theorem Call.Says.unique (h : c.Says r s v) (h' : c.Says r s v') : v = v' := by
  have := h.symm.trans h'
  cases this
  rfl

/-- A rank, an entry that says something, or one that is turned away. -/
theorem Call.step_cases (r : Text) (s : Store) (c : Call) :
    ((∀ v, ¬ c.Says r s v) ∧ ∃ o signature, c.entry.body = .rank o signature) ∨
    (∃ v, c.Says r s v ∧
      applyEntry s c.people c.facts r c.entry = applyVerified s c.people c.facts r v) ∨
    (∀ v, ¬ c.Says r s v) ∧ c.step r s = s := by
  have hsaid : ∀ v, c.Says r s v ↔
      verifyEntry c.entry r (trustAt c.people c.facts r s) = .verified v := fun _ => Iff.rfl
  by_cases hrank : ∃ o signature, c.entry.body = .rank o signature
  · obtain ⟨o,signature,hb⟩ := hrank
    refine Or.inl ⟨fun v hv => ?_,o,signature,hb⟩
    rw [hsaid,verifyEntry,hb] at hv
    cases hv
  · cases hv : verifyEntry c.entry r (trustAt c.people c.facts r s) with
    | verified v => exact Or.inr (Or.inl ⟨v,hv,applyEntry_of_said hv⟩)
    | refused | skipped =>
      refine Or.inr (Or.inr ⟨fun v h => ?_,?_⟩)
      · rw [hsaid,hv] at h
        cases h
      · unfold trustAt at hv
        unfold Call.step applyEntry
        split
        · rename_i o signature hb
          exact absurd ⟨o,signature,hb⟩ hrank
        · simp only [hv]

/-- A rank entry leaves the list, the groups, the withdraws and when people were
removed alone. -/
theorem Call.step_rank {o : AppRankOrder} {signature : Text} (hb : c.entry.body = .rank o signature) :
    ((c.step r s).entry r).allow = (s.entry r).allow ∧
    ((c.step r s).entry r).groups = (s.entry r).groups ∧
    ((c.step r s).entry r).roles.withdrawn = (s.entry r).roles.withdrawn ∧
    ∀ a, ((c.step r s).entry r).roles.seq.get? (removeKey a) =
      (s.entry r).roles.seq.get? (removeKey a) := by
  rcases applyEntry_rank c.people (f := c.facts) (r := r) s hb with
    ⟨key,rank,t,evidence,_,hkey,he⟩ | ⟨_,hq⟩
  · unfold Call.step
    rw [he]
    obtain ⟨ha,hg,hw,hseq⟩ := setAccountRank_effect (s.entry r) key rank t evidence
    refine ⟨ha,hg,hw,fun a => hseq _ (ne_removeKey ?_ a)⟩
    intro hr
    rw [hr] at hkey
    revert hkey
    decide
  · exact ⟨hq.allow,hq.groups,hq.withdrawn,fun a => hq.seq _ (by simp [removeKey_head])⟩

/-- The withdraw held for an invite is one that counts against its create. -/
def heldAgainst (people : People) (f : Facts) (e : Row) (c : VerifiedCreate) : Bool :=
  (e.withdrawn c.inviteId).any fun (issuedAt,signature) =>
    withdrawAdminSigned people ⟨c.inviteId,issuedAt⟩ signature f.nowMs ||
      verifyInviteRevoke ⟨c.inviteId,issuedAt⟩ signature c.creatorPub

/-- The row of an app with an invite's maker taken down. -/
def withMaker (e : Row) (c : VerifiedCreate) : Row :=
  (e.setInviteTier c.inviteId (tierStr c.tier)).setInviteCreator c.inviteId c.creatorPub

/-- A join is turned away, or the person is put on the list after every check. -/
theorem join_cases (s : Store) (people : People) (f : Facts) (r : Text) (c : VerifiedCreate)
    (aid : Text) (t : Nat) :
    ((join s people f r c aid t).1 = s ∧ (join s people f r c aid t).2 ≠ .applied) ∨
    (s.entry r).removedAfter aid t = false ∧ heldAgainst people f (s.entry r) c = false ∧
    (join s people f r c aid t).1 =
      s.put r ((withMaker (s.entry r) c).addAllowed aid (some c.inviteId)).1 ∧
    (((withMaker (s.entry r) c).addAllowed aid (some c.inviteId)).2 = true →
      (join s people f r c aid t).2 = .applied) := by
  unfold join
  simp only
  split
  · exact Or.inl ⟨rfl,by simp⟩
  split
  · exact Or.inl ⟨rfl,by simp⟩
  split
  · exact Or.inl ⟨rfl,by simp⟩
  split
  · exact Or.inl ⟨rfl,by simp⟩
  rename_i hremoved
  split
  · exact Or.inl ⟨rfl,by simp⟩
  rename_i hheld
  split
  · exact Or.inl ⟨rfl,by simp⟩
  refine Or.inr ⟨by simpa using hremoved,Bool.eq_false_iff.mpr hheld,?_,fun hadd => ?_⟩
  · split <;> rfl
  · unfold withMaker at hadd
    simp [hadd]

end

/-! A box of one owner, whose app is installed, and the entries it is handed. -/
namespace Sample

/-- A signature is good when it spells the key twice. -/
scoped instance keyTwice : Ed25519 := ⟨fun _ signature key => signature == key ++ key⟩

def app : Text := "app".toList

def key (c : Char) : Text := List.replicate 64 c

def sig (c : Char) : Text := List.replicate 128 c

/-- The owner signs with the key of zeros. -/
def people : People where
  anchors := ⟨"owner".toList,key '0',none,none,"box.example".toList,false⟩
  devices := []
  coManagers := []
  bookPresent := false

def invite : Text := "i".toList

/-- An unlimited invite. -/
def create : CreateServiceInvite :=
  ⟨invite,key 'b',app,key 'c',[],1,some 0,none⟩

def call (now : Nat) (e : EntryBody) (h : e.shaped = true := by decide +kernel) : Call :=
  ⟨people,⟨true,[],now⟩,⟨e,h⟩⟩

/-- The owner removes a person. -/
def removes (c : Char) (t : Nat) : EntryBody := .remove ⟨app,key c,t⟩ false (sig '0')

/-- A person joins by the owner's invite. -/
def joins (c : Char) (t : Nat) : EntryBody := .join create (sig '0') (key 'c') (key c) t (sig c)

/-- A withdraw of the invite, signed with some key. -/
def withdraws (c : Char) (t : Nat) : EntryBody := .withdraw ⟨invite,t⟩ (sig c)

/-- A person joins at time ten. -/
def laterJoin : Call := call 20 (joins 'a' 10)

end Sample
end Flagship.Access
