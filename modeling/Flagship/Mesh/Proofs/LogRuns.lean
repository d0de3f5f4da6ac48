import Flagship.Lib.Run
import Flagship.Mesh.RelayLog

namespace Flagship.Mesh.Proofs
open Lib Mesh
open Access (Ed25519)

theorem applyBody_apex (s : RelayLogState) (b : RelayLogBody) (seq : Nat) :
    (s.applyBody b seq).servicesApex = s.servicesApex := by
  cases b with
  | accountAuthority | policyHead =>
    simp only [RelayLogState.applyBody]
    split <;> rfl
  | _ => rfl

@[simp] theorem advance_sequence (s : RelayLogState) (b : RelayLogBody) (seq : Nat) (tip : Text) :
    (s.advance b seq tip).sequence = seq := rfl

@[simp] theorem advance_apex (s : RelayLogState) (b : RelayLogBody) (seq : Nat) (tip : Text) :
    (s.advance b seq tip).servicesApex = s.servicesApex := applyBody_apex s b seq

theorem sequence_le_of_parse {e : RelayLogEntry} {b : RelayLogBody}
    (h : parseRelayLogEntry e = .ok b) : e.sequence ≤ maxSafeInteger := by
  by_contra hbig
  unfold parseRelayLogEntry at h
  by_cases hlow : e.sequence < 1
  · rw [if_pos hlow] at h
    cases h
  · rw [if_neg hlow,if_pos (Or.inl (not_le.mp hbig))] at h
    cases h

theorem new_apex {apex : Text} {s0 : RelayLogState} (h : RelayLogState.new apex = .ok s0) : s0.servicesApex = apex := by
  unfold RelayLogState.new apexField ensure at h
  split at h
  · cases h
    rfl
  · cases h

theorem foldl_parts (parts : List Text) (acc : Text) :
    parts.foldl (fun acc p => acc ++ '|' :: p) acc = acc ++ parts.flatMap ('|' :: ·) := by
  induction parts generalizing acc with
  | nil => simp
  | cons p parts ih => simp [ih]

theorem render_text {s p : Text} (h : (Access.Field.text s).render = some p) :
    p = s ∧ '|' ∉ p := by
  simp only [Access.Field.render] at h
  split at h
  · rename_i hok
    cases h
    refine ⟨rfl,fun hbar => ?_⟩
    have := List.all_eq_true.mp hok _ hbar
    revert this
    decide
  · cases h

theorem render_uint {n : Nat} {p : Text} (h : (Access.Field.uint n).render = some p) :
    p = Nat.toDigits 10 n ∧ '|' ∉ p := by
  simp only [Access.Field.render] at h
  split at h
  · cases h
    refine ⟨rfl,fun hbar => ?_⟩
    have := Nat.isDigit_of_mem_toDigits (by decide) (by decide) hbar
    revert this
    decide
  · cases h

/-- The parts an entry's message is joined from. -/
theorem relayLogEntryCanonical_parts {apex : Text} {e : RelayLogEntry} {c : Text}
    (h : relayLogEntryCanonical apex e = some c) :
    ∃ parts : List Text, parts = [apex,Nat.toDigits 10 e.sequence,e.kind,Nat.toDigits 10 e.at,e.f1,
        e.f2,e.f3,e.f4] ∧ (∀ p ∈ parts, '|' ∉ p) ∧
      c = "flagship/relay-log/v1".toList ++ parts.flatMap ('|' :: ·) := by
  unfold relayLogEntryCanonical at h
  split at h
  · obtain ⟨parts,hparts,rfl⟩ := Option.map_eq_some_iff.mp h
    simp only [List.mapM_cons,List.mapM_nil,Option.bind_eq_bind,Option.bind_eq_some_iff,
      Option.pure_def,Option.some.injEq] at hparts
    obtain ⟨p0,h0,_,⟨p1,h1,_,⟨p2,h2,_,⟨p3,h3,_,⟨p4,h4,_,⟨p5,h5,_,⟨p6,h6,_,⟨p7,h7,_,rfl,rfl⟩,rfl⟩,
      rfl⟩,rfl⟩,rfl⟩,rfl⟩,rfl⟩,rfl⟩ := hparts
    obtain ⟨rfl,b0⟩ := render_text h0
    obtain ⟨rfl,b1⟩ := render_uint h1
    obtain ⟨rfl,b2⟩ := render_text h2
    obtain ⟨rfl,b3⟩ := render_uint h3
    obtain ⟨rfl,b4⟩ := render_text h4
    obtain ⟨rfl,b5⟩ := render_text h5
    obtain ⟨rfl,b6⟩ := render_text h6
    obtain ⟨rfl,b7⟩ := render_text h7
    refine ⟨_,rfl,?_,foldl_parts _ _⟩
    simp only [List.mem_cons,List.not_mem_nil,or_false]
    rintro p (rfl | rfl | rfl | rfl | rfl | rfl | rfl | rfl) <;> assumption
  · cases h

/-- A message is of one apex and one entry only. -/
theorem relayLogEntryCanonical_inj {apex apex' : Text} {e e' : RelayLogEntry} {c : Text}
    (h : relayLogEntryCanonical apex e = some c) (h' : relayLogEntryCanonical apex' e' = some c) :
    apex = apex' ∧ e = e' := by
  obtain ⟨parts,hp,hbar,hc⟩ := relayLogEntryCanonical_parts h
  obtain ⟨parts',hp',hbar',hc'⟩ := relayLogEntryCanonical_parts h'
  have hsame := separated_inj hbar hbar' (List.append_cancel_left (hc.symm.trans hc'))
  rw [hp,hp'] at hsame
  simp only [List.cons.injEq,and_true] at hsame
  obtain ⟨hapex,hseq,hkind,hat,h1,h2,h3,h4⟩ := hsame
  obtain ⟨seq,kind,«at»,f1,f2,f3,f4⟩ := e
  obtain ⟨seq',kind',at',f1',f2',f3',f4'⟩ := e'
  cases toDigits_inj hseq
  cases toDigits_inj hat
  subst hkind h1 h2 h3 h4
  exact ⟨hapex,rfl⟩

/-- A box's recorded revocation only moves on. -/
theorem advance_revoked {s : RelayLogState} {box : Text} {g : Nat} (b : RelayLogBody) (seq : Nat)
    (tip : Text) (h : s.revokedBoxes.get? box = some g) :
    ∃ g', (s.advance b seq tip).revokedBoxes.get? box = some g' ∧ g ≤ g' := by
  have hbody : (s.advance b seq tip).revokedBoxes = (s.applyBody b seq).revokedBoxes := rfl
  rw [hbody]
  cases b with
  | boxRevoke boxPub regGen =>
    simp only [RelayLogState.applyBody,OrdMap.get?_set]
    split
    · rename_i hb
      subst hb
      exact ⟨_,rfl,by rw [h]; exact le_max_left _ _⟩
    · exact ⟨g,h,le_refl g⟩
  | accountAuthority | policyHead =>
    simp only [RelayLogState.applyBody]
    split <;> exact ⟨g,h,le_refl g⟩
  | _ => exact ⟨g,h,le_refl g⟩

/-- A revoked box's attachment is refused. -/
theorem checkAttachmentCommon_revoked [Sha256] {a : BoxAttachment} {kind : AttachmentKind}
    {ctx : MeshCheckContext} {holder : Option AttachmentHolder}
    (h : a.regGen ≤ (ctx.log.revokedBoxes.get? a.boxPub).getD 0)
    (out : Text × RelayDirectoryEntry) :
    checkAttachmentCommon a kind ctx holder ≠ .ok out := by
  intro hok
  unfold checkAttachmentCommon at hok
  cases hc : attachmentCanonical kind a with
  | none =>
    rw [hc] at hok
    cases hok
  | some canonical =>
    rw [hc] at hok
    cases kind <;> simp only [if_pos h] at hok
    all_goals repeat' split at hok
    all_goals cases hok

section
variable [Ed25519] [Sha256]

/-- An entry the log key signed for the apex, and its message. -/
structure SignedEntry (apex key : Text) (e : RelayLogEntry) (body : RelayLogBody) (canonical : Text) :
    Prop where
  parsed : parseRelayLogEntry e = .ok body
  message : relayLogEntryCanonical apex e = some canonical
  verified : ∃ signature, verifyLower canonical signature key = true

/-- One relay's log: a state followed by the next signed entry. -/
inductive Chain (apex key : Text) (start : RelayLogState) : RelayLogState → Prop
  | start : Chain apex key start start
  | next {s : RelayLogState} {e : RelayLogEntry} {body : RelayLogBody} {canonical : Text} :
      Chain apex key start s → SignedEntry apex key e body canonical → e.sequence = s.sequence + 1 →
      Chain apex key start (s.advance body e.sequence (Sha256.sha256Hex canonical))

variable {apex key : Text} {s0 s s' : RelayLogState}

/-- What a pass leaves, applied or failed, is the state before it followed by
signed entries in sequence. -/
theorem applySorted_chain (h : Chain apex key s0 s) (applied : Nat)
    (entries : List (RelayLogEntry × Text)) :
    Chain apex key s0 (applySorted apex key s applied entries).state := by
  induction entries generalizing s applied with
  | nil => exact h
  | cons entry rest ih =>
    obtain ⟨e,signature⟩ := entry
    unfold applySorted
    split
    · rename_i body canonical hparse hmessage
      simp only
      split
      · exact ih h applied
      · split
        · exact h
        · rename_i hseq
          split
          · exact h
          · rename_i hverify
            refine ih (.next h ⟨hparse,hmessage,signature,by simpa using hverify⟩ ?_) _
            have hsafe := sequence_le_of_parse hparse
            simp only [ne_eq,Decidable.not_not,saturatingAdd] at hseq
            unfold maxSafeInteger at hsafe
            omega
    · exact h

theorem Chain.apex_eq (h : Chain apex key s0 s) : s.servicesApex = s0.servicesApex := by
  induction h with
  | start => rfl
  | next _ _ _ ih => rw [advance_apex,ih]

/-- The log key signs at most one entry per sequence number. -/
def OneEntryPerSequence (apex key : Text) : Prop :=
  ∀ e e' body body' canonical canonical', SignedEntry apex key e body canonical →
    SignedEntry apex key e' body' canonical' → e.sequence = e'.sequence → canonical = canonical'

theorem Chain.sequence_le (h : Chain apex key s0 s) : s0.sequence ≤ s.sequence := by
  induction h with
  | start => exact le_refl _
  | next _ _ hseq ih =>
    rw [advance_sequence]
    omega

/-- Where the sequence number is the same the state is. -/
theorem Chain.unique (hone : OneEntryPerSequence apex key) (h : Chain apex key s0 s)
    (h' : Chain apex key s0 s') (hseq : s.sequence = s'.sequence) : s = s' := by
  induction h generalizing s' with
  | start =>
    cases h' with
    | start => rfl
    | next hchain _ hnext =>
      have := hchain.sequence_le
      rw [advance_sequence] at hseq
      omega
  | next hchain hsigned hnext ih =>
    cases h' with
    | start =>
      have := hchain.sequence_le
      rw [advance_sequence] at hseq
      omega
    | next hchain' hsigned' hnext' =>
      rw [advance_sequence,advance_sequence] at hseq
      obtain rfl := ih hchain' (by omega)
      obtain rfl := hone _ _ _ _ _ _ hsigned hsigned' hseq
      obtain ⟨_,rfl⟩ := relayLogEntryCanonical_inj hsigned.message hsigned'.message
      obtain rfl := Except.ok.inj (hsigned.parsed.symm.trans hsigned'.parsed)
      rfl

/-- A relay keeps the state a call returns, applied or failed. -/
def logStep (key : Text) (s : RelayLogState) (batch : List (RelayLogEntry × Text)) :
    RelayLogState := (applyRelayLog s batch key).state

theorem run_chain (h : Chain apex key s0 s) (hapex : s0.servicesApex = apex)
    (batches : List (List (RelayLogEntry × Text))) :
    Chain apex key s0 (run (logStep key) s batches) := by
  refine run_invariant (I := Chain apex key s0) (fun s batch hs => ?_) h batches
  unfold logStep applyRelayLog
  rw [hs.apex_eq,hapex]
  exact applySorted_chain hs 0 _

/-- Relays that took the same signed log in any batches, orders and with any
other entries among them are in the same state once they are at the same
sequence number. -/
theorem relay_log_confluent (apex key : Text) (s0 : RelayLogState)
    (h0 : RelayLogState.new apex = .ok s0) (hone : OneEntryPerSequence apex key)
    (batches batches' : List (List (RelayLogEntry × Text)))
    (hseq : (run (logStep key) s0 batches).sequence = (run (logStep key) s0 batches').sequence) :
    run (logStep key) s0 batches = run (logStep key) s0 batches' :=
  Chain.unique hone (run_chain .start (new_apex h0) batches)
    (run_chain .start (new_apex h0) batches') hseq

theorem applySorted_revoked {box : Text} {g : Nat} (h : s.revokedBoxes.get? box = some g)
    (applied : Nat) (entries : List (RelayLogEntry × Text)) :
    ∃ g', (applySorted apex key s applied entries).state.revokedBoxes.get? box = some g' ∧
      g ≤ g' := by
  induction entries generalizing s applied g with
  | nil => exact ⟨g,h,le_refl g⟩
  | cons entry rest ih =>
    obtain ⟨e,signature⟩ := entry
    unfold applySorted
    split
    · simp only
      split
      · exact ih h applied
      · split
        · exact ⟨g,h,le_refl g⟩
        · split
          · exact ⟨g,h,le_refl g⟩
          · obtain ⟨m,hm,hle⟩ := advance_revoked _ _ _ h
            obtain ⟨g',hg',hle'⟩ := ih hm (saturatingAdd applied 1)
            exact ⟨g',hg',hle.trans hle'⟩
    · exact ⟨g,h,le_refl g⟩

/-- A box recorded as revoked stays so, at no lower a generation, and no
attachment of it up to the recorded generation is accepted in any later state,
whatever entries and log keys the calls in between were made with. -/
theorem revoked_box_refused_for_good (s : RelayLogState) (box : Text) (g : Nat)
    (h : s.revokedBoxes.get? box = some g) (calls : List (Text × List (RelayLogEntry × Text))) :
    (∃ g', (run (fun s c => logStep c.1 s c.2) s calls).revokedBoxes.get? box = some g' ∧
      g ≤ g') ∧
    ∀ (a : BoxAttachment) (kind : AttachmentKind) (ctx : MeshCheckContext)
      (holder : Option AttachmentHolder) (out : Text × RelayDirectoryEntry),
      ctx.log = run (fun s c => logStep c.1 s c.2) s calls → a.boxPub = box → a.regGen ≤ g →
      checkAttachmentCommon a kind ctx holder ≠ .ok out := by
  have hkept : ∃ g', (run (fun s c => logStep c.1 s c.2) s calls).revokedBoxes.get? box = some g' ∧
      g ≤ g' := by
    induction calls generalizing s g with
    | nil => exact ⟨g,h,le_refl g⟩
    | cons c calls ih =>
      obtain ⟨m,hm,hle⟩ : ∃ m, (logStep c.1 s c.2).revokedBoxes.get? box = some m ∧ g ≤ m :=
        applySorted_revoked h 0 _
      obtain ⟨g',hg',hle'⟩ := ih (logStep c.1 s c.2) m hm
      exact ⟨g',hg',hle.trans hle'⟩
  refine ⟨hkept,fun a kind ctx holder out hlog hbox hgen => ?_⟩
  obtain ⟨g',hg',hle⟩ := hkept
  refine checkAttachmentCommon_revoked ?_ out
  rw [hlog,hbox,hg']
  exact hgen.trans hle

end

/-! A log of one entry, the revocation of a box. -/
namespace LogSample

def apex : Text := "flagship.services".toList

def key : Text := List.replicate 64 '0'

def sig : Text := List.replicate 128 '0'

def box : Text := List.replicate 64 'b'

def revoke : RelayLogEntry := ⟨1,"box-revoke".toList,5,box,"2".toList,[],[]⟩

/-- The log key signs the revocation and nothing else. -/
scoped instance onlyRevoke : Ed25519 :=
  ⟨fun canonical signature k => signature == k ++ k &&
    canonical == (relayLogEntryCanonical apex revoke).getD []⟩

scoped instance textAsHash : Sha256 := ⟨id⟩

/-- The box comes back under another name and generation. -/
def register : RelayLogEntry := ⟨2,"box-register".toList,6,List.replicate 64 'a',box,"1".toList,[]⟩

def start : RelayLogState :=
  ⟨apex,0,relayLogZeroTip,(∅ : OrdMap Nat Text).set 0 relayLogZeroTip,∅,∅,∅,∅,∅,∅,∅,∅,∅⟩

end LogSample

section
open LogSample

theorem relay_log_confluent_one_revocation :
    (run (logStep key) start [[(revoke,sig)]]).sequence = 1 ∧
    run (logStep key) start [[(revoke,sig)]] =
      run (logStep key) start [[(revoke,[])],[(register,sig),(revoke,sig),(revoke,[])]] := by
  refine ⟨by decide +kernel,relay_log_confluent apex key start (by decide +kernel) ?_ _ _
    (by decide +kernel)⟩
  have honly : ∀ {e : RelayLogEntry} {body : RelayLogBody} {c : Text}, SignedEntry apex key e body c →
      c = (relayLogEntryCanonical apex revoke).getD [] := by
    rintro e body c ⟨_,_,signature,hv⟩
    simp only [verifyLower,Access.verify,Ed25519.verifyStrict,Bool.and_eq_true,beq_iff_eq] at hv
    exact hv.2.2.2
  intro e e' body body' c c' h h' _
  rw [honly h,honly h']

/-- A relay that took the revocation refuses the box's attachment after any
other entries it is handed. -/
theorem revoked_box_refused_for_good_revoke :
    (∃ g, (run (fun s c => logStep c.1 s c.2) (logStep key start [(revoke,sig)])
      [(key,[(register,sig)]),(key,[(revoke,sig)])]).revokedBoxes.get? box = some g ∧ 2 ≤ g) ∧
    ∀ a kind ctx holder out, ctx.log = run (fun s c => logStep c.1 s c.2)
        (logStep key start [(revoke,sig)]) [(key,[(register,sig)]),(key,[(revoke,sig)])] →
      a.boxPub = box → a.regGen ≤ 2 → checkAttachmentCommon a kind ctx holder ≠ .ok out :=
  revoked_box_refused_for_good (logStep key start [(revoke,sig)]) box 2 (by decide +kernel)
    [(key,[(register,sig)]),(key,[(revoke,sig)])]

end
end Flagship.Mesh.Proofs
