import Flagship.Gpu.Queue
import Flagship.Lib.Lists

namespace Flagship.Gpu
open Lib

/-- A queue that stands for a line of those who wait. -/
structure Stands (q : FairQueue) (line : Line) : Prop where
  own : ∀ app,(q.queues.get? app).getD [] = line.of app
  ids : (line.map Prod.snd).Nodup
  len : q.len = line.length
  once : q.rotation.Nodup
  rotation : ∀ app,app ∈ q.rotation ↔ line.of app ≠ []
  total : line.length ≤ q.total
  perApp : ∀ app,(line.of app).length ≤ q.perApp

namespace Stands
variable {q : FairQueue} {line : Line}

theorem new (perApp total : Nat) : Stands (.new perApp total) [] where
  own _ := rfl
  ids := .nil
  len := rfl
  once := .nil
  rotation app := by simp [FairQueue.new,Line.of]
  total := Nat.zero_le _
  perApp _ := Nat.zero_le _

theorem mem_of {app id : Text} : id ∈ line.of app ↔ (app,id) ∈ line := by
  simp [Line.of]

/-- An allocation is in the queue of one of the apps just where it is in the line. -/
theorem any_contains (h : Stands q line) (id : Text) :
    (q.queues.entries.any fun e => e.2.contains id) = decide (id ∈ line.map Prod.snd) := by
  rw [Bool.eq_iff_iff,decide_eq_true_iff,List.any_eq_true]
  constructor
  · rintro ⟨⟨app,own⟩,he,hid⟩
    have hget := q.queues.mem_entries.mp he
    have hown := h.own app
    rw [hget,Option.getD_some] at hown
    rw [List.contains_iff_mem,hown] at hid
    exact List.mem_map.mpr ⟨(app,id),mem_of.mp hid,rfl⟩
  · intro hin
    obtain ⟨⟨app,_⟩,he,rfl⟩ := List.mem_map.mp hin
    have hid := h.own app ▸ mem_of.mpr he
    cases hget : q.queues.get? app with
    | none => rw [hget] at hid; cases hid
    | some own =>
      rw [hget,Option.getD_some] at hid
      exact ⟨(app,own),q.queues.mem_entries.mpr hget,List.contains_iff_mem.mpr hid⟩

theorem of_append (line : Line) (app id x : Text) :
    Line.of (line ++ [(app,id)]) x = line.of x ++ if app = x then [id] else [] := by
  by_cases hx : app = x <;> simp [Line.of,hx]

theorem mem_join {rotation : List Text} {app x : Text} :
    x ∈ FairQueue.join rotation app ↔ x = app ∨ x ∈ rotation := by
  unfold FairQueue.join
  split_ifs with hin
  · have happ : app ∈ rotation := by simpa using hin
    exact ⟨.inr,fun h => h.elim (fun hx => hx ▸ happ) id⟩
  · simp [or_comm]

theorem join_nodup {rotation : List Text} (h : rotation.Nodup) (app : Text) :
    (FairQueue.join rotation app).Nodup := by
  unfold FairQueue.join
  split_ifs with hin
  · exact h
  · have happ : app ∉ rotation := by simpa using hin
    exact List.nodup_append_comm.mpr (List.nodup_cons.mpr ⟨happ,h⟩)

theorem enqueue (h : Stands q line) (app id : Text) :
    (q.enqueue app id).1 = (Line.enqueue q.perApp q.total line app id).1 ∧
      Stands (q.enqueue app id).2 (Line.enqueue q.perApp q.total line app id).2 := by
  unfold FairQueue.enqueue Line.enqueue
  simp only [h.any_contains,h.own,h.len,decide_eq_true_iff]
  split_ifs with hdup hfull happ
  · exact ⟨rfl,h⟩
  · exact ⟨rfl,h⟩
  · refine ⟨rfl,⟨fun x => ?_,h.ids,rfl,h.once,h.rotation,h.total,h.perApp⟩⟩
    rw [OrdMap.get?_set]
    split_ifs with hx
    · rw [hx,Option.getD_some]
    · exact h.own x
  · refine ⟨rfl,⟨fun x => ?_,?_,?_,join_nodup h.once app,fun x => ?_,?_,fun x => ?_⟩⟩
    · rw [OrdMap.get?_set,of_append]
      by_cases hx : x = app
      · rw [if_pos hx,hx,if_pos rfl,Option.getD_some]
      · rw [if_neg hx,if_neg (Ne.symm hx),List.append_nil]
        exact h.own x
    · rw [List.map_append]
      exact List.nodup_append_comm.mpr (List.nodup_cons.mpr ⟨hdup,h.ids⟩)
    · simp
    · rw [mem_join,of_append,h.rotation x]
      by_cases hx : app = x
      · simp [hx]
      · simp [hx,Ne.symm hx]
    · simp only [List.length_append,List.length_singleton]
      omega
    · rw [of_append]
      have hper := h.perApp x
      by_cases hx : app = x
      · subst hx
        simp only [↓reduceIte,List.length_append,List.length_singleton]
        omega
      · rw [if_neg hx,List.append_nil]
        exact hper

/-- The queue that an allocation is found in is the one of its app. -/
theorem find_some (h : Stands q line) {id app : Text} {own : List Text}
    (hf : (q.queues.entries.find? fun e => e.2.contains id) = some (app,own)) :
    own = line.of app ∧ (app,id) ∈ line := by
  have hget := q.queues.mem_entries.mp (List.mem_of_find?_eq_some hf)
  have hown := h.own app
  rw [hget,Option.getD_some] at hown
  have hid := List.find?_some hf
  rw [List.contains_iff_mem,hown] at hid
  exact ⟨hown,mem_of.mp hid⟩

theorem of_filter (line : Line) (id x : Text) :
    Line.of (line.filter fun e => e.2 != id) x = (line.of x).filter (· != id) := by
  simp only [Line.of,List.filter_filter,List.filter_map]
  congr 1
  exact List.filter_congr fun e _ => by simp [Bool.and_comm]

/-- An allocation that waits for one app waits for no other. -/
theorem of_filter_ne (h : Stands q line) {app id x : Text} (hin : (app,id) ∈ line) (hx : x ≠ app) :
    (line.of x).filter (· != id) = line.of x := by
  refine List.filter_eq_self.mpr fun y hy => ?_
  have hne : y ≠ id := by
    rintro rfl
    have heq := List.inj_on_of_nodup_map h.ids (mem_of.mp hy) hin rfl
    exact hx (congrArg Prod.fst heq)
  simpa using hne

theorem length_filter (h : Stands q line) {app id : Text} (hin : (app,id) ∈ line) :
    (line.filter fun e => e.2 != id).length = line.length - 1 := by
  have hmap : (line.filter fun e => e.2 != id).map Prod.snd = (line.map Prod.snd).erase id := by
    rw [h.ids.erase_eq_filter,List.filter_map]
    rfl
  have hlen := congrArg List.length hmap
  rwa [List.length_map,List.length_erase_of_mem (List.mem_map.mpr ⟨_,hin,rfl⟩),List.length_map]
    at hlen

/-- What is left when one who waits leaves: the queue of the app loses it, and the rotation is
of the apps that still have someone waiting. -/
theorem leave (h : Stands q line) {app id : Text} (hin : (app,id) ∈ line)
    {queues : OrdMap Text (List Text)} {rotation : List Text}
    (hq : ∀ x,(queues.get? x).getD [] =
      if x = app then (line.of app).filter (· != id) else (q.queues.get? x).getD [])
    (honce : rotation.Nodup)
    (hr : ∀ x,x ∈ rotation ↔ x ∈ q.rotation ∧ (x = app → (line.of app).filter (· != id) ≠ [])) :
    Stands { q with queues := queues,rotation := rotation,len := q.len - 1 }
      (line.filter fun e => e.2 != id) := by
  have hof : ∀ x,Line.of (line.filter fun e => e.2 != id) x =
      if x = app then (line.of app).filter (· != id) else line.of x := by
    intro x
    rw [of_filter]
    split_ifs with hx
    · rw [hx]
    · exact h.of_filter_ne hin hx
  refine ⟨fun x => ?_,?_,?_,honce,fun x => ?_,?_,fun x => ?_⟩
  · rw [hq x,hof x,h.own x]
  · exact h.ids.sublist (List.filter_sublist.map Prod.snd)
  · rw [h.length_filter hin,← h.len]
  · rw [hr x,hof x,h.rotation x]
    split_ifs with hx
    · subst hx
      refine ⟨fun hboth => hboth.2 rfl,fun hne => ⟨fun hnil => hne ?_,fun _ => hne⟩⟩
      rw [hnil,List.filter_nil]
    · exact ⟨And.left,fun hne => ⟨hne,fun heq => absurd heq hx⟩⟩
  · exact Nat.le_trans (List.length_filter_le _ _) h.total
  · rw [hof x]
    split_ifs with hx
    · exact Nat.le_trans (List.length_filter_le _ _) (h.perApp app)
    · exact h.perApp x

theorem remove (h : Stands q line) (id : Text) :
    (q.remove id).1 = (Line.remove line id).1 ∧
      Stands (q.remove id).2 (Line.remove line id).2 := by
  unfold FairQueue.remove Line.remove
  cases hf : q.queues.entries.find? fun e => e.2.contains id with
  | none =>
    have hnone : id ∉ line.map Prod.snd := by
      have hany := h.any_contains id
      rw [List.find?_eq_none] at hf
      intro hin
      rw [decide_eq_true hin] at hany
      obtain ⟨e,he,hid⟩ := List.any_eq_true.mp hany
      exact hf e he hid
    have hsame : (line.filter fun e => e.2 != id) = line :=
      List.filter_eq_self.mpr fun e he => by
        have hne : e.2 ≠ id := fun heq => hnone (List.mem_map.mpr ⟨e,he,heq⟩)
        simpa using hne
    simp only [hsame]
    exact ⟨(decide_eq_false hnone).symm,h⟩
  | some found =>
    obtain ⟨app,own⟩ := found
    obtain ⟨rfl,hin⟩ := h.find_some hf
    have hyes : decide (id ∈ line.map Prod.snd) = true :=
      decide_eq_true (List.mem_map.mpr ⟨_,hin,rfl⟩)
    simp only [hyes]
    have hset : ∀ x,(((q.queues.set app ((line.of app).filter (· != id))).get? x).getD [] : List Text) =
        if x = app then (line.of app).filter (· != id) else (q.queues.get? x).getD [] := by
      intro x
      rw [OrdMap.get?_set]
      split_ifs <;> rfl
    have hback : ∀ x,x ∈ q.rotation.filter (· != app) ↔ x ∈ q.rotation ∧ x ≠ app := by simp
    split_ifs with hempty hhead
    · have hnil : (line.of app).filter (· != id) = [] := by simpa using hempty
      refine ⟨rfl,h.leave hin (fun x => ?_) (h.once.filter _) fun x => ?_⟩
      · rw [OrdMap.get?_erase]
        split_ifs with hx
        · rw [hnil]
          rfl
        · rw [hset x,if_neg hx]
      · rw [hback x,hnil]
        simp
    · have hne : (line.of app).filter (· != id) ≠ [] := by simpa using hempty
      have happ : app ∈ q.rotation :=
        (h.rotation app).mpr (List.ne_nil_of_mem (mem_of.mpr hin))
      refine ⟨rfl,h.leave hin hset ?_ fun x => ?_⟩
      · exact List.nodup_append_comm.mpr
          (List.nodup_cons.mpr ⟨by simp,h.once.filter _⟩)
      · rw [List.mem_append,hback x,List.mem_singleton]
        by_cases hx : x = app
        · simp [hx,happ,hne]
        · simp [hx]
    · have hne : (line.of app).filter (· != id) ≠ [] := by simpa using hempty
      exact ⟨rfl,h.leave hin hset h.once fun x => ⟨fun hx => ⟨hx,fun _ => hne⟩,And.left⟩⟩

end Stands

theorem perApp_enqueue (q : FairQueue) (app id : Text) :
    (q.enqueue app id).2.perApp = q.perApp ∧ (q.enqueue app id).2.total = q.total := by
  unfold FairQueue.enqueue
  simp only
  split_ifs <;> exact ⟨rfl,rfl⟩

theorem perApp_remove (q : FairQueue) (id : Text) :
    (q.remove id).2.perApp = q.perApp ∧ (q.remove id).2.total = q.total := by
  unfold FairQueue.remove
  split
  · exact ⟨rfl,rfl⟩
  · simp only
    split_ifs <;> exact ⟨rfl,rfl⟩

/-- A queue and the line it stands for, which have given the same answers. -/
structure Agree (perApp total : Nat) (s : FairQueue × List QueueAnswer)
    (t : Line × List QueueAnswer) : Prop where
  answers : s.2 = t.2
  stands : Stands s.1 t.1
  perApp : s.1.perApp = perApp
  total : s.1.total = total

theorem Agree.step {perApp total : Nat} {s : FairQueue × List QueueAnswer}
    {t : Line × List QueueAnswer} (h : Agree perApp total s t) (move : QueueMove) :
    Agree perApp total (FairQueue.step s move) (Line.step perApp total t move) := by
  obtain ⟨q,answers⟩ := s
  obtain ⟨line,_⟩ := t
  obtain ⟨rfl,hs,rfl,rfl⟩ := h
  cases move with
  | enqueue app id =>
    obtain ⟨hanswer,hnext⟩ := hs.enqueue app id
    obtain ⟨hper,htotal⟩ := perApp_enqueue q app id
    exact ⟨by simp only [FairQueue.step,Line.step,hanswer],hnext,hper,htotal⟩
  | remove id =>
    obtain ⟨hanswer,hnext⟩ := hs.remove id
    obtain ⟨hper,htotal⟩ := perApp_remove q id
    exact ⟨by simp only [FairQueue.step,Line.step,hanswer],hnext,hper,htotal⟩

theorem agree_run (perApp total : Nat) (moves : List QueueMove) :
    Agree perApp total (run FairQueue.step (.new perApp total,[]) moves)
      (run (Line.step perApp total) ([],[]) moves) :=
  foldl_related (Agree perApp total) moves (fun _ _ move _ h => h.step move)
    ⟨rfl,.new perApp total,rfl,rfl⟩

/-- The queue answers every call as the line of those who wait does, in every run, and stands for
it: each app's queue is its part of the line in the order they came, nobody is in it twice, the
rotation has just the apps that someone waits for, and the limits hold. -/
theorem fair_queue_stands_for_line (perApp total : Nat) (moves : List QueueMove) :
    (run FairQueue.step (.new perApp total,[]) moves).2 =
      (run (Line.step perApp total) ([],[]) moves).2 ∧
    Stands (run FairQueue.step (.new perApp total,[]) moves).1
      (run (Line.step perApp total) ([],[]) moves).1 :=
  ⟨(agree_run perApp total moves).answers,(agree_run perApp total moves).stands⟩

/-- The apps that are tried before this one. -/
def ahead (q : FairQueue) (app : Text) : List Text := q.rotation.takeWhile (· != app)

/-- The app whose head a move takes. -/
def headTaken (q : FairQueue) : QueueMove → Option Text
  | .enqueue _ _ => none
  | .remove id => (q.queues.entries.find? fun e => e.2.contains id).bind fun e =>
      if e.2.head? == some id then some e.1 else none

/-- A move that takes nothing from an app. -/
def Spares (app : Text) (q : FairQueue) : QueueMove → Prop
  | .enqueue _ _ => True
  | .remove id => id ∉ (q.queues.get? app).getD []

theorem takeWhile_append_of_mem {app : Text} {l m : List Text} (h : app ∈ l) :
    (l ++ m).takeWhile (· != app) = l.takeWhile (· != app) := by
  induction l with
  | nil => cases h
  | cons x l ih =>
    by_cases hx : x = app
    · simp [hx]
    · have hb : (x != app) = true := by simpa using hx
      simp only [List.cons_append,List.takeWhile_cons,hb,↓reduceIte,
        ih ((List.mem_cons.mp h).resolve_left (Ne.symm hx))]

theorem takeWhile_filter {app x : Text} (hx : x ≠ app) (l : List Text) :
    (l.filter (· != x)).takeWhile (· != app) = (l.takeWhile (· != app)).filter (· != x) := by
  induction l with
  | nil => rfl
  | cons y l ih =>
    by_cases hy : y = x
    · subst hy
      simp [hx,ih]
    · by_cases hya : y = app
      · subst hya
        simp [hy]
      · simp [hy,hya,ih]

/-- An app that waits stays in the rotation while nothing is taken from it, no app gets before
it, and the app whose head is taken goes behind it. -/
theorem ahead_step {s : FairQueue × List QueueAnswer} {line : Line} (h : Stands s.1 line)
    {app : Text} (hin : app ∈ s.1.rotation) {move : QueueMove} (hs : Spares app s.1 move) :
    app ∈ (FairQueue.step s move).1.rotation ∧
      (ahead (FairQueue.step s move).1 app).Sublist (ahead s.1 app) ∧
      ∀ x,headTaken s.1 move = some x → x ∉ ahead (FairQueue.step s move).1 app := by
  obtain ⟨q,answers⟩ := s
  cases move with
  | enqueue app' id =>
    have hrot : (q.enqueue app' id).2.rotation = q.rotation ∨
        (q.enqueue app' id).2.rotation = FairQueue.join q.rotation app' := by
      unfold FairQueue.enqueue
      simp only
      split_ifs <;> simp
    refine ⟨?_,?_,?_⟩
    · rcases hrot with heq | heq
      · exact heq ▸ hin
      · exact heq ▸ Stands.mem_join.mpr (.inr hin)
    · have hsame : ahead (q.enqueue app' id).2 app = ahead q app := by
        unfold ahead
        rcases hrot with heq | heq
        · rw [heq]
        · rw [heq,FairQueue.join]
          split_ifs
          · rfl
          · exact takeWhile_append_of_mem hin
      exact hsame ▸ List.Sublist.refl _
    · intro x hx
      cases hx
  | remove id =>
    simp only [FairQueue.step,FairQueue.remove,headTaken]
    cases hf : q.queues.entries.find? fun e => e.2.contains id with
    | none =>
      refine ⟨hin,.refl _,?_⟩
      intro x hx
      cases hx
    | some found =>
      obtain ⟨app',own⟩ := found
      obtain ⟨rfl,hwaits⟩ := h.find_some hf
      have hne : app' ≠ app := by
        rintro rfl
        exact hs (h.own app' ▸ Stands.mem_of.mpr hwaits)
      have hin' : app ∈ q.rotation.filter (· != app') := by simpa using ⟨hin,Ne.symm hne⟩
      have hsub : (q.rotation.filter (· != app')).takeWhile (· != app) =
          (ahead q app).filter (· != app') := takeWhile_filter hne q.rotation
      simp only [Option.bind_some]
      split_ifs with hempty hhead
      · refine ⟨hin',?_,fun x hx => ?_⟩
        · rw [ahead,hsub]
          exact List.filter_sublist
        · obtain rfl : app' = x := Option.some.inj hx
          rw [ahead,hsub]
          simp
      · refine ⟨hin',?_,?_⟩
        · rw [ahead,hsub]
          exact List.filter_sublist
        · intro x hx
          cases hx
      · refine ⟨List.mem_append_left _ hin',?_,fun x hx => ?_⟩
        · rw [ahead,takeWhile_append_of_mem hin',hsub]
          exact List.filter_sublist
        · obtain rfl : app' = x := Option.some.inj hx
          rw [ahead,takeWhile_append_of_mem hin',hsub]
          simp
      · refine ⟨hin,.refl _,?_⟩
        intro x hx
        cases hx

/-- The apps whose heads the moves of a run take. -/
def headsTaken (s : FairQueue × List QueueAnswer) : List QueueMove → List Text
  | [] => []
  | move :: moves => (headTaken s.1 move).toList ++ headsTaken (FairQueue.step s move) moves

theorem ahead_run {s : FairQueue × List QueueAnswer} {perApp total : Nat}
    {t : Line × List QueueAnswer} (h : Agree perApp total s t) {app : Text}
    (hin : app ∈ s.1.rotation) {moves : List QueueMove}
    (hs : Along FairQueue.step (fun s move => Spares app s.1 move) s moves) :
    app ∈ (run FairQueue.step s moves).1.rotation ∧
      (ahead (run FairQueue.step s moves).1 app).Sublist (ahead s.1 app) ∧
      ∀ x ∈ headsTaken s moves,x ∉ ahead (run FairQueue.step s moves).1 app := by
  induction moves generalizing s t with
  | nil => exact ⟨hin,.refl _,fun x hx => nomatch hx⟩
  | cons move moves ih =>
    obtain ⟨hin',hsub,htaken⟩ := ahead_step h.stands hin hs.1
    obtain ⟨hend,hsubs,hrest⟩ := ih (h.step move) hin' hs.2
    refine ⟨hend,hsubs.trans hsub,fun x hx => ?_⟩
    rcases List.mem_append.mp hx with hx | hx
    · exact fun hahead => htaken x (Option.mem_toList.mp hx) (hsubs.subset hahead)
    · exact hrest x hx

/-- No app is served twice before one that waits: from every state that is reached, while nothing
is taken from an app, those that are tried before it are among those that were, and none of them
is one whose head was taken. -/
theorem served_apps_go_behind (perApp total : Nat) (before after : List QueueMove) (app : Text)
    (hin : app ∈ (run FairQueue.step (.new perApp total,[]) before).1.rotation)
    (hs : Along FairQueue.step (fun s move => Spares app s.1 move)
      (run FairQueue.step (.new perApp total,[]) before) after) :
    (ahead (run FairQueue.step (.new perApp total,[]) (before ++ after)).1 app).Sublist
      (ahead (run FairQueue.step (.new perApp total,[]) before).1 app) ∧
    ∀ x ∈ headsTaken (run FairQueue.step (.new perApp total,[]) before) after,
      x ∉ ahead (run FairQueue.step (.new perApp total,[]) (before ++ after)).1 app := by
  rw [run_append]
  exact (ahead_run (agree_run perApp total before) hin hs).2

/-- Three apps wait, the first with two allocations. -/
def threeWait : List QueueMove :=
  [.enqueue "a".toList "a1".toList,.enqueue "a".toList "a2".toList,
    .enqueue "b".toList "b1".toList,.enqueue "c".toList "c1".toList]

/-- The head of the first app is taken, and the app goes behind the third. -/
theorem served_apps_go_behind_once :
    headsTaken (run FairQueue.step (.new 2 4,[]) threeWait) [.remove "a1".toList] = ["a".toList] ∧
    ∀ x ∈ headsTaken (run FairQueue.step (.new 2 4,[]) threeWait) [.remove "a1".toList],
      x ∉ ahead (run FairQueue.step (.new 2 4,[]) (threeWait ++ [.remove "a1".toList])).1
        "c".toList := by
  have hspares : Along FairQueue.step (fun s move => Spares "c".toList s.1 move)
      (run FairQueue.step (.new 2 4,[]) threeWait) [.remove "a1".toList] := by
    refine ⟨?_,trivial⟩
    unfold Spares
    decide
  exact ⟨by decide,(served_apps_go_behind 2 4 threeWait _ _ (by decide) hspares).2⟩

end Flagship.Gpu
