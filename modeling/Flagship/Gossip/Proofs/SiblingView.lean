import Flagship.Lib.Lists
import Flagship.Gossip.SiblingView

namespace Flagship.Gossip.Proofs
open Lib Gossip SiblingView

section
variable [Lowercase]

/-- A frame of the sibling came at the time, issued after every one that came before it. -/
def NewestAt (delivered : List (SiblingFrame × Int)) (id : Text) (f : SiblingFrame) (now : Int) :
    Prop :=
  ∃ before after,delivered = before ++ (f,now) :: after ∧ f.id = id ∧
    ∀ p ∈ before,p.1.id = id → p.1.issuedAt < f.issuedAt

/-- Every sibling that counts as live was heard anew within the window. -/
def HeardAnew (w : Watched) (t : Int) : Prop :=
  ∀ r ∈ w.view.liveSiblings t,
    ∃ f now,NewestAt w.delivered r.id f now ∧ t - w.view.livenessWindowMs ≤ now ∧ now ≤ t

/-- What a delivery has to meet: its frame was not issued when the one on record was, and where
none is on record it is newer than all that came before. -/
def NotReplayed (deps : IngestDeps) (w : Watched) (e : ViewEvent) : Prop :=
  ∀ f,e.delivers deps = some f →
    (∀ prev,w.view.records.get? f.id = some prev → f.issuedAt ≠ prev.issuedAt) ∧
    (w.view.records.get? f.id = none → ∀ p ∈ w.delivered,p.1.id = f.id → p.1.issuedAt < f.issuedAt)

/-- The record is of the newest frame delivered, at the time it came. -/
structure OfNewest (delivered : List (SiblingFrame × Int)) (id : Text) (r : SiblingRecord)
    (last : Int) : Prop where
  id_eq : r.id = id
  past : r.receivedAt ≤ last
  heard : ∃ before f after,delivered = before ++ (f,r.receivedAt) :: after ∧ f.id = id ∧
    f.issuedAt = r.issuedAt ∧ (∀ p ∈ before,p.1.id = id → p.1.issuedAt < f.issuedAt) ∧
    ∀ p ∈ after,p.1.id = id → p.1.issuedAt < f.issuedAt

def Tracks (w : Watched) (last : Int) : Prop :=
  ∀ id r,w.view.records.get? id = some r → OfNewest w.delivered id r last

theorem OfNewest.le {delivered : List (SiblingFrame × Int)} {id : Text} {r : SiblingRecord}
    {last : Int} (h : OfNewest delivered id r last) {p : SiblingFrame × Int} (hp : p ∈ delivered)
    (hid : p.1.id = id) : p.1.issuedAt ≤ r.issuedAt := by
  obtain ⟨before,f,after,rfl,-,hissued,hbefore,hafter⟩ := h.heard
  rcases List.mem_append.mp hp with hp | hp
  · exact hissued ▸ (hbefore p hp hid).le
  · rcases List.mem_cons.mp hp with rfl | hp
    · exact hissued.le
    · exact hissued ▸ (hafter p hp hid).le

/-- A further frame that the record is newer than, or of another sibling. -/
theorem OfNewest.append {delivered : List (SiblingFrame × Int)} {id : Text} {r : SiblingRecord}
    {last : Int} (h : OfNewest delivered id r last) {f : SiblingFrame} {now : Int}
    (hlast : last ≤ now) (hf : f.id = id → f.issuedAt < r.issuedAt) :
    OfNewest (delivered ++ [(f,now)]) id r now := by
  obtain ⟨before,g,after,rfl,hg,hissued,hbefore,hafter⟩ := h.heard
  refine ⟨h.id_eq,h.past.trans hlast,before,g,after ++ [(f,now)],?_,hg,hissued,hbefore,?_⟩
  · rw [List.append_assoc,List.cons_append]
  · refine List.forall_mem_append.mpr ⟨hafter,?_⟩
    intro p hp hid
    rw [List.mem_singleton.mp hp] at hid ⊢
    exact hissued ▸ hf hid

theorem Tracks.later {w : Watched} {last now : Int} (h : Tracks w last) (hle : last ≤ now) :
    Tracks w now := fun id r hr =>
  ⟨(h id r hr).id_eq,(h id r hr).past.trans hle,(h id r hr).heard⟩

theorem Tracks.prune {w : Watched} {last now : Int} (h : Tracks w last) (hle : last ≤ now) :
    Tracks { w with view := w.view.prune now } now := by
  intro id r hr
  rw [SiblingView.prune,OrdMap.get?_filterMapVals] at hr
  obtain ⟨r',hr',hkept⟩ := Option.bind_eq_some_iff.mp hr
  split at hkept
  · cases hkept
  · cases hkept
    exact h.later hle id r hr'

/-- A frame that is no replay, delivered. -/
theorem Tracks.deliver {w : Watched} {last now : Int} {f : SiblingFrame} (h : Tracks w last)
    (hle : last ≤ now)
    (hheld : ∀ prev,w.view.records.get? f.id = some prev → f.issuedAt ≠ prev.issuedAt)
    (hnone : w.view.records.get? f.id = none →
      ∀ p ∈ w.delivered,p.1.id = f.id → p.1.issuedAt < f.issuedAt) :
    Tracks ⟨w.view.upsert f now,w.delivered ++ [(f,now)]⟩ now := by
  have hnew : (∀ p ∈ w.delivered,p.1.id = f.id → p.1.issuedAt < f.issuedAt) →
      OfNewest (w.delivered ++ [(f,now)]) f.id (recordOf f now) now := fun hall =>
    ⟨rfl,Int.le_refl now,w.delivered,f,[],rfl,rfl,rfl,hall,by simp⟩
  intro id r hr
  unfold upsert at hr
  cases hprev : w.view.records.get? f.id with
  | none =>
    rw [hprev,Option.any_none,if_neg Bool.false_ne_true] at hr
    dsimp only at hr
    rw [OrdMap.get?_set] at hr
    by_cases hid : id = f.id
    · rw [if_pos hid] at hr
      cases hr
      exact hid ▸ hnew (hnone hprev)
    · rw [if_neg hid] at hr
      exact (h id r hr).append hle fun heq => absurd heq.symm hid
  | some prev =>
    rw [hprev,Option.any_some] at hr
    by_cases hstale : f.issuedAt < prev.issuedAt
    · rw [decide_eq_true hstale,if_pos rfl] at hr
      refine (h id r hr).append hle fun heq => ?_
      rw [← heq,hprev] at hr
      cases hr
      exact hstale
    · rw [decide_eq_false hstale,if_neg Bool.false_ne_true] at hr
      dsimp only at hr
      rw [OrdMap.get?_set] at hr
      by_cases hid : id = f.id
      · rw [if_pos hid] at hr
        cases hr
        have hlt := lt_of_le_of_ne (not_lt.mp hstale) (hheld prev hprev).symm
        refine hid ▸ hnew fun p hp hpid => ?_
        exact ((h f.id prev hprev).le hp hpid).trans_lt hlt
      · rw [if_neg hid] at hr
        exact (h id r hr).append hle fun heq => absurd heq.symm hid

/-- A request changes the view by the frame it delivers only. -/
theorem handle_view (deps : IngestDeps) (v : SiblingView) (req : HttpRequest) (now : Int) :
    (handle deps v req now).1 =
      ((ViewEvent.request req now).delivers deps).elim v (v.upsert · now) := by
  unfold handle ViewEvent.delivers
  dsimp only
  by_cases hpath : stripQuery req.path = "/internal/gossip".toList
  · by_cases hmethod : req.method = "POST".toList
    · rw [if_neg (not_not.mpr hpath),if_neg (not_not.mpr hmethod),if_pos ⟨hpath,hmethod⟩]
      cases ingested deps req.body <;> rfl
    · rw [if_neg (not_not.mpr hpath),if_pos hmethod,if_neg (fun h => hmethod h.2)]
      rfl
  · rw [if_pos hpath,if_neg (fun h => hpath h.1)]
    rfl

theorem Tracks.step {deps : IngestDeps} {w : Watched} {last : Int} {e : ViewEvent}
    (h : Tracks w last) (hle : last ≤ e.now) (hfresh : NotReplayed deps w e) :
    Tracks (w.step deps e) e.now := by
  cases e with
  | prune now =>
    have hstep : w.step deps (.prune now) = { w with view := w.view.prune now } := by
      simp [Watched.step,ViewEvent.delivers]
    rw [hstep]
    exact h.prune hle
  | request req now =>
    cases hf : ViewEvent.delivers deps (.request req now) with
    | none =>
      have hstep : w.step deps (.request req now) = w := by
        rw [Watched.step,handle_view,hf,Option.elim_none,Option.map_none,Option.toList_none,
          List.append_nil]
      rw [hstep]
      exact h.later hle
    | some f =>
      have hstep : w.step deps (.request req now) =
          ⟨w.view.upsert f now,w.delivered ++ [(f,now)]⟩ := by
        rw [Watched.step,handle_view,hf,Option.elim_some,Option.map_some,Option.toList_some]
        rfl
      obtain ⟨hheld,hnone⟩ := hfresh f hf
      rw [hstep]
      exact h.deliver hle hheld hnone

theorem Tracks.run {deps : IngestDeps} {w : Watched} {last t : Int} {es : List ViewEvent}
    (h : Tracks w last) (hlast : last ≤ t) (hmono : es.Pairwise fun e e' => e.now ≤ e'.now)
    (hnow : ∀ e ∈ es,last ≤ e.now ∧ e.now ≤ t)
    (hfresh : ∀ before e after,es = before ++ e :: after → NotReplayed deps (w.run deps before) e) :
    Tracks (w.run deps es) t := by
  induction es generalizing w last with
  | nil => exact h.later hlast
  | cons e es ih =>
    obtain ⟨hfirst,hrest⟩ := List.pairwise_cons.mp hmono
    obtain ⟨hle,ht⟩ := hnow e List.mem_cons_self
    have hstep := h.step hle (hfresh [] e es rfl)
    refine ih hstep ht hrest (fun e' he' => ⟨hfirst e' he',(hnow e' (List.mem_cons_of_mem _ he')).2⟩)
      fun before e' after heq => ?_
    exact hfresh (e :: before) e' after (by rw [heq]; rfl)

theorem Tracks.heardAnew {w : Watched} {t : Int} (h : Tracks w t) : HeardAnew w t := by
  intro r hr
  obtain ⟨hmem,hlive⟩ := List.mem_filter.mp hr
  obtain ⟨⟨id,r'⟩,hentry,rfl⟩ := List.mem_map.mp hmem
  have hr' := h id r' (w.view.records.mem_entries.mp hentry)
  obtain ⟨before,f,after,heq,hid,-,hbefore,-⟩ := hr'.heard
  have hwindow : t - r'.receivedAt ≤ w.view.livenessWindowMs := of_decide_eq_true hlive
  refine ⟨f,r'.receivedAt,⟨before,after,heq,?_,?_⟩,by omega,hr'.past⟩
  · rw [hid,hr'.id_eq]
  · rw [hr'.id_eq]
    exact hbefore

/-- Where no delivery is a replay, a sibling counts as live only for a window after it was heard
anew. -/
theorem live_siblings_heard_anew (deps : IngestDeps) (window : Int) (es : List ViewEvent) (t : Int)
    (hmono : es.Pairwise fun e e' => e.now ≤ e'.now) (ht : ∀ e ∈ es,e.now ≤ t)
    (hfresh : ∀ before e after,es = before ++ e :: after →
      NotReplayed deps ((Watched.new window).run deps before) e) :
    HeardAnew ((Watched.new window).run deps es) t := by
  cases es with
  | nil =>
    intro r hr
    cases hr
  | cons e es =>
    have hstart : Tracks (Watched.new window) e.now := by
      intro id r hr
      cases hr
    have hfirst := (List.pairwise_cons.mp hmono).1
    refine (hstart.run (ht e List.mem_cons_self) hmono (fun e' he' => ⟨?_,ht e' he'⟩) hfresh).heardAnew
    rcases List.mem_cons.mp he' with rfl | he'
    · exact Int.le_refl _
    · exact hfirst e' he'

end

/-- A sibling's frame. -/
def frameOfPod : GossipAnnouncement where
  user := some "ann".toList
  name := some "pod.ann.example.org".toList
  birthAuthHex := some "ab".toList
  birthDate := 3
  orderDate := 4
  services := []
  liveness := .live
  issuedAt := 1000

/-- A box that opens every blob to that frame, with a MAC that verifies. -/
def boxOfAnn : IngestDeps where
  openFrame := fun _ => some (frameOfPod,[])
  verifyFrameMac := fun _ _ => true
  user := "ann".toList
  selfId := "box.ann.example.org".toList
  admitSibling := fun _ => none

/-- The frame's way in. -/
def gossipPost : HttpRequest := ⟨"POST".toList,"/internal/gossip".toList,[]⟩

theorem one_frame_heard_anew :
    HeardAnew ((Watched.new 50).run boxOfAnn [.request gossipPost 0]) 20 := by
  refine live_siblings_heard_anew boxOfAnn 50 [.request gossipPost 0] 20 (by decide) (by decide) ?_
  intro before e after heq f hf
  cases before with
  | nil =>
    refine ⟨fun prev hprev => ?_,fun _ p hp => ?_⟩
    · cases hprev
    · cases hp
  | cons e' before =>
    have hlen := congrArg List.length heq
    simp at hlen

/-- The newest frame, delivered once more, keeps its sibling live past the window. -/
theorem replayed_frame_keeps_sibling_live :
    ¬ ∀ (deps : IngestDeps) (window : Int) (es : List ViewEvent) (t : Int),
      (es.Pairwise fun e e' => e.now ≤ e'.now) → (∀ e ∈ es,e.now ≤ t) →
      HeardAnew ((Watched.new window).run deps es) t := by
  intro h
  let frame : SiblingFrame := ⟨"pod.ann.example.org".toList,"ab".toList,frameOfPod⟩
  have hlive : recordOf frame 100 ∈ ((Watched.new 50).run boxOfAnn
      [.request gossipPost 0,.request gossipPost 100]).view.liveSiblings 120 := by decide
  have hdelivered : ((Watched.new 50).run boxOfAnn
      [.request gossipPost 0,.request gossipPost 100]).delivered = [(frame,0),(frame,100)] := by decide
  obtain ⟨f,now,⟨before,after,heq,hid,hnewest⟩,hin,-⟩ := h boxOfAnn 50
    [.request gossipPost 0,.request gossipPost 100] 120 (by decide) (by decide) _ hlive
  rw [hdelivered] at heq
  have hwindow : 70 ≤ now := hin
  cases before with
  | nil =>
    cases heq
    omega
  | cons p before =>
    obtain ⟨rfl,heq⟩ := List.cons.inj heq
    have hlt := hnewest (frame,0) List.mem_cons_self rfl
    cases before with
    | nil =>
      cases heq
      exact lt_irrefl _ hlt
    | cons q before =>
      have hlen := congrArg List.length heq
      simp at hlen

end Flagship.Gossip.Proofs
