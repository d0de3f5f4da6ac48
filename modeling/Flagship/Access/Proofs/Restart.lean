import Flagship.Access.Proofs.StateFile

namespace Flagship.Access
open Lib
open Row (removeKey)
open Journal (Json)

theorem afterHead_append (head rest : Text) : afterHead (head ++ rest) head = some rest := by
  unfold afterHead
  rw [if_pos (List.prefix_append head rest),List.drop_left]

theorem eq_of_afterHead {s head rest : Text} (h : afterHead s head = some rest) :
    s = head ++ rest := by
  unfold afterHead at h
  split at h
  · rename_i hpre
    cases h
    exact List.prefix_append_drop hpre
  · cases h

theorem length_of_lowerHex {s : Text} {n : Nat} (h : lowerHex s n = true) : s.length = n := by
  simp only [lowerHex,Bool.and_eq_true,decide_eq_true_eq] at h
  exact h.1

theorem length_of_splitOnce {sep : Char} {s a b : Text} (h : splitOnce sep s = some (a,b)) :
    s.length = a.length + 1 + b.length := by
  unfold splitOnce at h
  split at h
  · cases h
  · rename_i c rest hrest
    cases h
    have hs := congrArg List.length (List.takeWhile_append_dropWhile (p := fun c => c != sep) (l := s))
    rw [List.length_append,hrest,List.length_cons] at hs
    omega

/-- A target that can be named is short. -/
theorem length_of_parseAppRankTarget {t : Text} {target : AppRankTarget}
    (h : parseAppRankTarget t = some target) : t.length ≤ 199 := by
  unfold parseAppRankTarget at h
  split at h
  · rename_i rest hrest
    split at h
    · rename_i hok
      rw [eq_of_afterHead hrest,List.length_append,length_of_lowerHex hok]
      decide
    · cases h
  split at h
  · rename_i rest hrest
    split at h
    · rename_i hok
      rw [eq_of_afterHead hrest,List.length_append,length_of_lowerHex hok]
      decide
    · cases h
  split at h
  · rename_i rest hrest
    split at h
    · rename_i hok
      rw [eq_of_afterHead hrest,List.length_append,length_of_lowerHex hok]
      decide
    · cases h
  split at h
  · rename_i rest hrest
    split at h
    · rename_i hok
      simp only [inviteIdOk,Bool.and_eq_true,decide_eq_true_eq] at hok
      rw [eq_of_afterHead hrest,List.length_append]
      exact Nat.le_trans (Nat.add_le_add_left hok.1.2 _) (by decide)
    · cases h
  · obtain ⟨rest,hrest,h⟩ := Option.bind_eq_some_iff.mp h
    obtain ⟨⟨invite,aid⟩,hsplit,h⟩ := Option.bind_eq_some_iff.mp h
    dsimp only at h
    split at h
    · rename_i hok
      simp only [inviteIdOk,Bool.and_eq_true,decide_eq_true_eq] at hok
      rw [eq_of_afterHead hrest,List.length_append,length_of_splitOnce hsplit,
        length_of_lowerHex hok.2]
      have hhead : "grant:".toList.length = 6 := rfl
      have hid := hok.1.1.2
      omega
    · cases h

/-- The targets whose rank is an account's: a device, and a share. -/
theorem parseAppRankTarget_account {t : Text} {target : AppRankTarget}
    (h : parseAppRankTarget t = some target) :
    (∀ k,target = .device k → lowerHex k 64 = true) ∧
    ∀ id,target = .share id → t = "share:".toList ++ id ∧ lowerHex id 32 = true := by
  unfold parseAppRankTarget at h
  split at h
  · split at h
    · rename_i hok
      cases h
      refine ⟨?_,nofun⟩
      rintro k hk
      cases hk
      exact hok
    · cases h
  split at h
  · rename_i rest hrest
    split at h
    · rename_i hok
      cases h
      refine ⟨nofun,?_⟩
      rintro id hid
      cases hid
      exact ⟨eq_of_afterHead hrest,hok⟩
    · cases h
  split at h
  · split at h
    · cases h
      exact ⟨nofun,nofun⟩
    · cases h
  split at h
  · split at h
    · cases h
      exact ⟨nofun,nofun⟩
    · cases h
  · obtain ⟨rest,_,h⟩ := Option.bind_eq_some_iff.mp h
    obtain ⟨⟨invite,aid⟩,_,h⟩ := Option.bind_eq_some_iff.mp h
    dsimp only at h
    split at h
    · cases h
      exact ⟨nofun,nofun⟩
    · cases h

theorem rankKeyOk_device {k : Text} (h : lowerHex k 64 = true) :
    rankKeyOk ("device:".toList ++ k) = true := by
  unfold rankKeyOk
  rw [afterHead_append]
  simp [h]

theorem rankKeyOk_share {id : Text} (h : lowerHex id 32 = true) :
    rankKeyOk ("share:".toList ++ id) = true := by
  unfold rankKeyOk
  rw [afterHead_append "share:".toList]
  simp [h]

/-- A text has at most four bytes for a character. -/
theorem length_utf8Bytes_le (s : Text) : (utf8Bytes s).length ≤ 4 * s.length := by
  induction s with
  | nil => exact Nat.le_refl 0
  | cons c s ih =>
    have hchar : (String.utf8EncodeChar c).length ≤ 4 := by
      rw [String.length_utf8EncodeChar]
      exact Char.utf8Size_le_four c
    have hcons : utf8Bytes (c :: s) = String.utf8EncodeChar c ++ utf8Bytes s := rfl
    rw [hcons,List.length_append,List.length_cons]
    omega

/-- The canonical text of a rank order is short, and begins with its tag. -/
theorem appRankCanonical_shape {o : AppRankOrder} {canonical : Text}
    (h : appRankCanonical o = some canonical) :
    canonical.length ≤ 374 ∧ "flagship/app-rank/v1|".toList <+: canonical ∧
    o.rank ∈ ["member".toList,"manager".toList,"master".toList,"refused".toList] := by
  unfold appRankCanonical at h
  split at h
  · cases h
  rename_i href
  split at h
  · cases h
  rename_i target htarget
  obtain ⟨hrank,h⟩ := Option.ite_none_left_eq_some.mp h
  rw [not_not] at hrank
  obtain ⟨_,h⟩ := Option.ite_none_left_eq_some.mp h
  obtain ⟨htime,h⟩ := Option.ite_none_left_eq_some.mp h
  obtain ⟨parts,hparts,hcanonical⟩ := Option.map_eq_some_iff.mp h
  have heq : parts = [o.serviceRef,o.target,o.rank,Nat.toDigits 10 o.issuedAt] := by
    simp only [List.mapM_cons,List.mapM_nil,Field.render,Option.bind_eq_bind,
      Option.bind_eq_some_iff,Option.pure_def,Option.ite_none_right_eq_some,Option.some.injEq] at hparts
    obtain ⟨_,⟨_,rfl⟩,_,⟨_,⟨_,rfl⟩,_,⟨_,⟨_,rfl⟩,_,⟨_,⟨_,rfl⟩,_,rfl,rfl⟩,rfl⟩,rfl⟩,rfl⟩ := hparts
    rfl
  have hdigits : (Nat.toDigits 10 o.issuedAt).length ≤ 16 :=
    (Nat.length_toDigits_le_iff (by decide) (by decide)).mpr (by
      have hmax : maxSafeInteger < 10 ^ 16 := by decide
      omega)
  have hlen := length_of_parseAppRankTarget htarget
  have hreflen : o.serviceRef.length ≤ 128 := by
    simp only [serviceRefOk,Bool.not_eq_false,Bool.and_eq_true,decide_eq_true_eq] at href
    exact href.1.1.1
  have hranklen : o.rank.length ≤ 7 := by
    simp only [List.mem_cons,List.not_mem_nil,or_false] at hrank
    rcases hrank with hr | hr | hr | hr <;> (rw [hr]; decide)
  refine ⟨?_,?_,hrank⟩
  · rw [← hcanonical,heq]
    have htag : "flagship/app-rank/v1".toList.length = 20 := rfl
    simp only [List.foldl_cons,List.foldl_nil,List.length_append,List.length_cons,htag]
    omega
  · rw [← hcanonical,heq]
    exact ⟨o.serviceRef ++ '|' :: o.target ++ '|' :: o.rank ++ '|' :: Nat.toDigits 10 o.issuedAt,
      by simp [List.append_assoc]⟩

/-- The evidence that is kept with a rank passes the loader. -/
theorem evidenceOk_signed {o : AppRankOrder} {canonical signature : Text}
    (h : appRankCanonical o = some canonical) (hs : lowerHex signature 128 = true) :
    evidenceOk (signature ++ ':' :: canonical) = true := by
  obtain ⟨hlen,hpre,_⟩ := appRankCanonical_shape h
  have hsig := length_of_lowerHex hs
  have hbytes := length_utf8Bytes_le (signature ++ ':' :: canonical)
  rw [List.length_append,List.length_cons,hsig] at hbytes
  unfold evidenceOk
  rw [List.take_left' hsig,List.drop_left' hsig,hs]
  have hcolon : ":flagship/app-rank/v1|".toList <+: ':' :: canonical := by
    obtain ⟨rest,hrest⟩ := hpre
    exact ⟨rest,by rw [← hrest]; rfl⟩
  simp only [hcolon,decide_true,Bool.and_true,decide_eq_true_eq]
  omega

theorem withdrawnOk_signed (t : Nat) {signature : Text} (hs : lowerHex signature 128 = true) :
    withdrawnOk (Nat.toDigits 10 t ++ ':' :: signature) = true := by
  unfold withdrawnOk
  rw [splitOnce_digits]
  simp [all_toDigits,hs,Nat.toDigits_ne_nil]

/-- What an erased map still holds it held before. -/
theorem get?_of_erase {ν : Type} {m : OrdMap Text ν} {k x : Text} {v : ν}
    (h : (m.erase k).get? x = some v) : m.get? x = some v := by
  rw [OrdMap.get?_erase] at h
  split at h
  · cases h
  · exact h

section
variable [Lowercase]

theorem Plain.filter {texts : List Text} (h : Plain texts) (p : Text → Bool) :
    Plain (texts.filter p) :=
  ⟨h.1.filter p,fun a ha => h.2 a (List.mem_filter.mp ha).1⟩

theorem Plain.add {texts : List Text} (h : Plain texts) {aid : Text} (hnew : toLowercase aid ∉ texts) :
    Plain (texts ++ [toLowercase aid]) := by
  refine ⟨?_,fun a ha => ?_⟩
  · rw [List.nodup_append]
    refine ⟨h.1,List.nodup_singleton _,?_⟩
    rintro a ha b hb rfl
    rw [List.mem_singleton.mp hb] at ha
    exact hnew ha
  · rcases List.mem_append.mp ha with ha | ha
    · exact h.2 a ha
    · rw [List.mem_singleton.mp ha,toLowercase_idem]

namespace Row
variable {e : Row}

theorem new_kept (b : Bool) : (Row.new b).Kept where
  allow := ⟨List.nodup_nil,by simp [Row.new]⟩
  groups := by simp [Row.new]
  creators := by simp [Row.new]
  ranks := by simp [Row.new]
  evidence := by simp [Row.new]
  withdrawn := by simp [Row.new]
  coManagers := by simp [Row.new]

theorem Kept.sequenced (h : e.Kept) (key : Text) (t : Nat) : (e.sequenced key t).Kept :=
  ⟨h.allow,h.groups,h.creators,h.ranks,h.evidence,h.withdrawn,h.coManagers⟩

theorem Kept.applyModeOrder (h : e.Kept) (restricted : Bool) (t : Nat) :
    (e.applyModeOrder restricted t).1.Kept := by
  unfold Row.applyModeOrder
  split
  · exact h
  · exact ⟨h.allow,h.groups,h.creators,h.ranks,h.evidence,h.withdrawn,h.coManagers⟩

theorem Kept.removeAllowed (h : e.Kept) (aid : Text) : (e.removeAllowed aid).Kept where
  allow := h.allow.filter _
  groups := by
    intro id m hm
    unfold Row.removeAllowed at hm
    rw [OrdMap.get?_filterMapVals] at hm
    obtain ⟨m',hm',hfilter⟩ := Option.bind_eq_some_iff.mp hm
    dsimp only at hfilter
    split at hfilter
    · cases hfilter
    · cases hfilter
      exact (h.groups id m' hm').filter _
  creators := h.creators
  ranks := h.ranks
  evidence := h.evidence
  withdrawn := h.withdrawn
  coManagers := h.coManagers

theorem Kept.applyRemoveOrder (h : e.Kept) (aid : Text) (t : Nat) :
    (e.applyRemoveOrder aid t).1.Kept := by
  unfold Row.applyRemoveOrder
  dsimp only
  split
  · exact h
  · exact (h.sequenced _ t).removeAllowed _

theorem Kept.addAllowed (h : e.Kept) (aid : Text) (inviteId : Option Text) :
    (e.addAllowed aid inviteId).1.Kept := by
  unfold Row.addAllowed
  dsimp only
  split
  · exact h
  · refine ⟨?_,?_,h.creators,h.ranks,h.evidence,h.withdrawn,h.coManagers⟩
    · dsimp only
      split
      · exact h.allow
      · rename_i hnew
        exact h.allow.add (mt List.contains_iff_mem.mpr hnew)
    · intro id m hm
      dsimp only at hm
      split at hm
      · exact h.groups id m hm
      · rename_i invite _
        rw [OrdMap.get?_set] at hm
        split at hm
        · cases hm
          have hplain : Plain ((e.groups.get? invite).getD []) := by
            cases hg : e.groups.get? invite with
            | none => exact ⟨List.nodup_nil,by simp⟩
            | some m => exact h.groups invite m hg
          split
          · exact hplain
          · rename_i hnew
            exact hplain.add (mt List.contains_iff_mem.mpr hnew)
        · exact h.groups id m hm

theorem Kept.dropUngranted (h : e.Kept) (aid : Text) : (e.dropUngranted aid).Kept := by
  unfold Row.dropUngranted
  split
  · exact ⟨h.allow.filter _,h.groups,h.creators,h.ranks,h.evidence,h.withdrawn,h.coManagers⟩
  · exact h

theorem Kept.revokeGroup (h : e.Kept) (inviteId : Text) : (e.revokeGroup inviteId).1.Kept := by
  have hfold : ∀ (members : List Text) (acc : Row × Nat),acc.1.Kept →
      (members.foldl pruneMember acc).1.Kept := by
    intro members
    induction members with
    | nil => exact fun _ hacc => hacc
    | cons aid members ih => exact fun acc hacc => ih _ (hacc.dropUngranted aid)
  unfold Row.revokeGroup
  dsimp only
  split
  · exact h
  · refine hfold _ _ ⟨h.allow,fun id m hm => h.groups id m (get?_of_erase hm),
      fun id k hk => h.creators id k (get?_of_erase hk),h.ranks,h.evidence,h.withdrawn,h.coManagers⟩

theorem Kept.noteWithdrawn (h : e.Kept) (inviteId : Text) (t : Nat) {signature : Text}
    (hs : lowerHex signature 128 = true) : (e.noteWithdrawn inviteId t signature).Kept := by
  unfold Row.noteWithdrawn
  split
  · exact h
  · refine ⟨h.allow,h.groups,h.creators,h.ranks,h.evidence,fun id v hv => ?_,h.coManagers⟩
    dsimp only at hv
    rw [OrdMap.get?_set] at hv
    split at hv
    · cases hv
      rw [toLowercase_of_lowerHex hs]
      exact withdrawnOk_signed t hs
    · exact h.withdrawn id v hv

theorem Kept.setInviteTier (h : e.Kept) (inviteId tier : Text) : (e.setInviteTier inviteId tier).Kept := by
  unfold Row.setInviteTier
  dsimp only
  split
  · exact h
  · exact ⟨h.allow,h.groups,h.creators,h.ranks,h.evidence,h.withdrawn,h.coManagers⟩

theorem Kept.setInviteCreator (h : e.Kept) (inviteId : Text) {pubHex : Text}
    (hkey : lowerHex (toLowercase pubHex) 64 = true) : (e.setInviteCreator inviteId pubHex).Kept := by
  unfold Row.setInviteCreator
  split
  · exact h
  · refine ⟨h.allow,h.groups,fun id k hk => ?_,h.ranks,h.evidence,h.withdrawn,h.coManagers⟩
    dsimp only at hk
    rw [OrdMap.get?_set] at hk
    split at hk
    · cases hk
      exact hkey
    · exact h.creators id k hk

theorem Kept.withEvidence (h : e.Kept) (key rank : Text) {evidence : Text}
    (hev : evidenceOk evidence = true) : (e.withEvidence key rank evidence).Kept := by
  refine ⟨h.allow,h.groups,h.creators,h.ranks,fun k v hv => ?_,h.withdrawn,h.coManagers⟩
  unfold Row.withEvidence at hv
  dsimp only at hv
  split at hv
  · rw [OrdMap.get?_set] at hv
    split at hv
    · cases hv
      exact hev
    · exact h.evidence k v hv
  · exact h.evidence k v (get?_of_erase hv)

theorem Kept.setRole (h : e.Kept) (target : RoleTarget) (key role : Text) (t : Nat) {evidence : Text}
    (hev : evidenceOk evidence = true) : (e.setRole target key role t evidence).1.Kept := by
  unfold Row.setRole
  split
  · exact h
  · have hkept := (h.sequenced key t).withEvidence key role hev
    cases target <;> exact ⟨hkept.allow,hkept.groups,hkept.creators,hkept.ranks,hkept.evidence,
      hkept.withdrawn,hkept.coManagers⟩

theorem Kept.setAccountRank (h : e.Kept) {key rank : Text} (t : Nat) {evidence : Text}
    (hrank : (rankKeyOk key && accountRankOk rank) = true) (hev : evidenceOk evidence = true) :
    (e.setAccountRank key rank t evidence).1.Kept := by
  unfold Row.setAccountRank
  split
  · exact h
  · refine Kept.withEvidence ?_ key rank hev
    refine ⟨h.allow,h.groups,h.creators,fun k v hv => ?_,h.evidence,h.withdrawn,h.coManagers⟩
    dsimp only [Row.sequenced] at hv
    rw [OrdMap.get?_set] at hv
    split at hv
    · rename_i hk
      cases hv
      rw [hk]
      exact hrank
    · exact h.ranks k v hv

theorem Kept.noteCoManager (h : e.Kept) {shareId : Text} {record : CoManagerRecord}
    (hid : lowerHex shareId 32 = true) (hpub : lowerHex record.pubHex 64 = true)
    (hlevel : record.level ∈ ["view".toList,"manage".toList]) :
    (e.noteCoManager shareId record).1.Kept := by
  unfold Row.noteCoManager
  split
  · exact h
  · refine ⟨h.allow,h.groups,h.creators,h.ranks,h.evidence,h.withdrawn,fun id c hc => ?_⟩
    dsimp only at hc
    rw [OrdMap.get?_set] at hc
    split at hc
    · rename_i hk
      cases hc
      rw [hk]
      dsimp only
      rw [toLowercase_of_lowerHex hpub]
      exact ⟨hid,hpub,hlevel⟩
    · exact h.coManagers id c hc

end Row

variable {s : Store} {r : Text}

theorem Store.Kept.entry (h : s.Kept) (r : Text) : (s.entry r).Kept := by
  unfold Store.entry
  cases hr : s.rows.get? r with
  | none => exact Row.new_kept _
  | some e => exact (h r e hr).2

theorem Store.Kept.put (h : s.Kept) (hr : r ≠ defaultRow) {e : Row} (he : e.Kept) :
    (s.put r e).Kept := by
  intro r' e' hget
  unfold Store.put at hget
  rw [OrdMap.get?_set] at hget
  split at hget
  · rename_i heq
    cases hget
    exact ⟨heq ▸ hr,he⟩
  · exact h r' e' hget

/-- Keys that verify a signature are lowercase hex once lowercased. -/
theorem lowerHex_toLowercase {key : Text} {n : Nat} (h : lowerHex (asciiLower key) n = true) :
    lowerHex (toLowercase key) n = true := by
  have hascii : ∀ c ∈ key,c.toNat < 128 := by
    intro c hc
    simp only [lowerHex,Bool.and_eq_true,List.all_eq_true] at h
    exact ascii_of_toLower (ascii_of_lowerHexDigit (h.2 _ (List.mem_map_of_mem hc)))
  rw [Lowercase.toLowercase_ascii key hascii]
  exact h

theorem classify_device {people : People} {key k : Text} {tier : Tier} {legacy : Bool}
    (h : people.classify key = some (.device k tier legacy)) : k = toLowercase key := by
  unfold People.classify at h
  dsimp only at h
  split at h
  · cases h
    rfl
  split at h
  · cases h
    rfl
  split at h
  · cases h
  split at h
  · cases h
    rfl
  · cases h

theorem applyInvitedRank_kept (h : s.Kept) (hr : r ≠ defaultRow) (o : AppRankOrder) {evidence : Text}
    (hev : evidenceOk evidence = true) (target : RoleTarget) (stands : Bool) :
    (applyInvitedRank s r o evidence target stands).1.Kept := by
  unfold applyInvitedRank
  split
  · exact h
  split
  · exact h.put hr ((h.entry r).setRole target _ _ _ hev)
  · exact h

variable [Ed25519]

theorem applyRank_kept (h : s.Kept) (hr : r ≠ defaultRow) (people : People) (f : Facts)
    (o : AppRankOrder) (signature : Text) : (applyRank s people f r o signature).1.Kept := by
  unfold applyRank
  cases hcanonical : appRankCanonical o with
  | none => exact h
  | some canonical =>
    dsimp only
    split
    · exact h
    rename_i hok
    simp only [not_or,Bool.not_eq_false] at hok
    have hev := evidenceOk_signed hcanonical hok.2.2.1
    have hrank : accountRankOk o.rank = true := by
      have hmem := (appRankCanonical_shape hcanonical).2.2
      simp only [List.mem_cons,List.not_mem_nil,or_false] at hmem
      rcases hmem with h | h | h | h <;> (rw [h]; decide)
    cases htarget : parseAppRankTarget o.target with
    | none => exact h
    | some target =>
      cases target with
      | device pubHex =>
        dsimp only
        cases hp : people.classify pubHex with
        | none => exact h
        | some p =>
          cases p with
          | coManager c => exact h
          | device k tier legacy =>
            refine h.put hr ((h.entry r).setAccountRank _ ?_ hev)
            have hkey := (parseAppRankTarget_account htarget).1 pubHex rfl
            rw [classify_device hp,toLowercase_of_lowerHex hkey,hrank,Bool.and_true]
            exact rankKeyOk_device hkey
      | share id =>
        refine h.put hr ((h.entry r).setAccountRank _ ?_ hev)
        obtain ⟨heq,hid⟩ := (parseAppRankTarget_account htarget).2 id rfl
        rw [heq,hrank,Bool.and_true]
        exact rankKeyOk_share hid
      | aid aid => exact applyInvitedRank_kept h hr o hev _ _
      | invite id => exact applyInvitedRank_kept h hr o hev _ _
      | grant id aid => exact applyInvitedRank_kept h hr o hev _ _

/-- What a share that verifies says has the shape of a record. -/
theorem says_share {people : People} {f : Facts} {e : AccessEntry} {id : Text}
    {record : CoManagerRecord} (h : Says people f r s e (.share id record)) :
    lowerHex id 32 = true ∧ lowerHex record.pubHex 64 = true ∧
      record.level ∈ ["view".toList,"manage".toList] := by
  obtain ⟨body,hshape⟩ := e
  unfold Says at h
  cases body with
  | share g signature ended =>
    simp only [verifyEntry,verifyShare] at h
    split at h
    · split at h
      · rename_i hv
        cases h
        simp only [Bool.and_eq_true,EntryTrust.adminSigned,List.any_eq_true] at hv
        obtain ⟨k,_,hk⟩ := hv.1.2
        obtain ⟨canonical,hc,_⟩ := (Option.any_eq_true _ _).mp hk
        unfold shareGrantCanonical at hc
        obtain ⟨hok,_⟩ := Option.ite_none_left_eq_some.mp hc
        simp only [not_or,Bool.not_eq_false,not_and_or,not_not] at hok
        refine ⟨hok.2.1,hok.2.2.1,?_⟩
        rcases hok.2.2.2.1 with hl | hl
        · exact List.mem_cons.mpr (Or.inl hl)
        · exact List.mem_cons.mpr (Or.inr (List.mem_singleton.mpr hl))
      · cases h
    · cases h
  | _ =>
    rcases verifyEntry_cases h with ⟨_,_,_,hv⟩ | ⟨_,_,_,hv⟩ | ⟨_,_,_,hv⟩ |
      ⟨_,_,_,_,_,_,_,_,hv⟩ | ⟨_,_,_,hb,_⟩
    · cases hv
    · cases hv
    · cases hv
    · cases hv
    · cases hb

theorem applyVerified_kept (h : s.Kept) (hr : r ≠ defaultRow) {people : People} {f : Facts}
    {e : AccessEntry} {v : Verified} (hv : Says people f r s e v) :
    (applyVerified s people f r v).1.Kept := by
  cases v with
  | mode mode t => exact h.put hr ((h.entry r).applyModeOrder _ t)
  | remove aid t => exact h.put hr ((h.entry r).applyRemoveOrder aid t)
  | withdraw rv signature =>
    have hnoted := (h.entry r).noteWithdrawn rv.inviteId rv.issuedAt (says_withdraw hv)
    simp only [applyVerified,applyWithdraw]
    split
    · exact h.put hr (hnoted.revokeGroup rv.inviteId)
    · exact h.put hr hnoted
  | join c aid t =>
    obtain ⟨_,create,signature,_,hverify⟩ := says_join hv
    have hkey : lowerHex (asciiLower c.creatorPub) 64 = true := by
      obtain ⟨canonical,_,hk⟩ := (Option.any_eq_true _ _).mp hverify
      simp only [verify,Bool.and_eq_true] at hk
      exact hk.1.2
    rcases join_cases s people f r c aid t with ⟨hs,_⟩ | ⟨_,_,hs,_⟩
    · simp only [applyVerified]
      rw [hs]
      exact h
    · simp only [applyVerified]
      rw [hs]
      exact h.put hr ((((h.entry r).setInviteTier _ _).setInviteCreator _
        (lowerHex_toLowercase hkey)).addAllowed aid _)
  | share id record =>
    obtain ⟨hid,hpub,hlevel⟩ := says_share hv
    exact h.put hr ((h.entry r).noteCoManager hid hpub hlevel)

/-- A step keeps the store one of which the loader drops nothing. -/
theorem step_kept (h : s.Kept) (hr : r ≠ defaultRow) (c : Call) : (c.step r s).Kept := by
  rcases c.step_cases r s with ⟨_,o,signature,hb⟩ | ⟨v,hv,heq⟩ | ⟨_,heq⟩
  · have heq : applyEntry s c.people c.facts r c.entry =
        applyRank s c.people c.facts r o signature := by
      unfold applyEntry
      rw [hb]
    unfold Call.step
    rw [heq]
    exact applyRank_kept h hr c.people c.facts o signature
  · unfold Call.step
    rw [heq]
    exact applyVerified_kept h hr hv
  · rw [heq]
    exact h

/-- A run of handed-over entries, each for its app. -/
def handAll (s : Store) (calls : List (Text × Call)) : Store :=
  run (fun s c => c.2.step c.1 s) s calls

theorem handAll_kept (b : Bool) {calls : List (Text × Call)}
    (happs : ∀ c ∈ calls,c.1 ≠ defaultRow) : (handAll (Store.empty b) calls).Kept := by
  have hrun : ∀ s : Store,s.Kept → (handAll s calls).Kept := by
    induction calls with
    | nil => exact fun _ hs => hs
    | cons c calls ih =>
      intro s hs
      exact ih (fun c' hc' => happs c' (List.mem_cons_of_mem c hc')) _
        (step_kept hs (happs c (by simp)) c.2)
  refine hrun _ ?_
  intro r e he
  cases he

/-- The access state survives a restart: the store that any entries led to is the one that
is read back from the text it was written as. -/
theorem access_state_survives_restart (b : Bool) (calls : List (Text × Call))
    (happs : ∀ c ∈ calls,c.1 ≠ defaultRow) (toText : Json → Text) (fromStr : Text → Option Json)
    (v : Json) (hread : fromStr (toText (handAll (Store.empty b) calls).toJson) = some v)
    (hsame : v.Same (handAll (Store.empty b) calls).toJson) :
    ∃ s,Store.parse fromStr (some (toText (handAll (Store.empty b) calls).toJson)) = .ok s ∧
      s.Same (handAll (Store.empty b) calls) := by
  obtain ⟨raw,hraw,hback⟩ := fromMap_toJson (handAll_kept b happs)
  rw [hraw] at hsame
  cases v with
  | obj fields =>
    refine ⟨Store.fromMap fields,?_,(fromMap_same hsame).trans hback⟩
    unfold Store.parse
    dsimp only
    rw [hread]
    rfl
  | _ => cases hsame

end

section
open Sample Journal

/-- A person joins, is removed, and the owner withdraws the invite. -/
def someCalls : List (Text × Call) :=
  [(app,laterJoin),(app,call 20 (removes 'a' 15)),(app,call 20 (withdraws '0' 16))]

/-- The store these lead to, with one row. -/
def someStore : Store := handAll (Store.empty false) someCalls

theorem someStore_json : ∃ e,someStore.toJson = .obj [(app,rowJson e)] := by
  have hkeys : someStore.rows.entries.map Prod.fst = [app] := by decide +kernel
  have hdefault : someStore.defaultRestricted = false := by decide +kernel
  obtain ⟨⟨r,e⟩,hrows,hr⟩ := List.map_eq_singleton_iff.mp hkeys
  cases hr
  refine ⟨e,?_⟩
  unfold Store.toJson
  rw [hdefault,hrows]
  rfl

/-- The compact text of a value that holds no double. -/
def printed (v : Json) : Text := @stableJson ⟨fun _ => [],id⟩ v

theorem access_state_survives_restart_once :
    ∃ s,Store.parse (fun t => if t = printed someStore.toJson then some someStore.toJson else none)
      (some (printed someStore.toJson)) = .ok s ∧ s.Same someStore := by
  refine access_state_survives_restart false someCalls (by decide +kernel) printed
    (fun t => if t = printed someStore.toJson then some someStore.toJson else none)
    someStore.toJson (if_pos rfl) ?_
  obtain ⟨e,he⟩ := someStore_json
  have hone : Json.Same (.obj [(app,rowJson e)]) (.obj [(app,rowJson e)]) := by
    refine Json.same_obj (List.nodup_singleton app) ?_
    intro x hx
    rw [List.mem_singleton.mp hx]
    exact rowJson_same e
  rw [← he] at hone
  exact hone

end
end Flagship.Access
