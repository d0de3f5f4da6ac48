import Flagship.Lib.Bytes
import Flagship.Lib.While

namespace Flagship.Lib

/-- What a call of `read` meets: some bytes, an interrupt, or a failure. -/
inductive Delivery
  | part (b : UInt8) (bs : Bytes)
  | interrupted
  | failed
  deriving DecidableEq

/-- A stream of bytes as it is delivered; it is at its end where nothing is left. -/
abbrev Source := List Delivery

inductive Got
  | bytes (bs : Bytes)
  | interrupted
  | failed
  deriving DecidableEq

namespace Source

/-- What was delivered and is not read yet comes again. -/
def unread : Bytes → Source → Source
  | [],s => s
  | b :: bs,s => .part b bs :: s

/-- One call of `read` for up to so many bytes; none are there at the end of the stream. -/
def read (n : Nat) : Source → Got × Source
  | [] => (.bytes [],[])
  | .part b bs :: s => (.bytes ((b :: bs).take n),unread ((b :: bs).drop n) s)
  | .interrupted :: s => (.interrupted,s)
  | .failed :: s => (.failed,s)

/-- The bytes that come before a failure. -/
def bytes : Source → Bytes
  | [] => []
  | .part b bs :: s => b :: bs ++ bytes s
  | .interrupted :: s => bytes s
  | .failed :: _ => []

/-- Every byte of the stream can be read. -/
def Whole (s : Source) : Prop := .failed ∉ s

def weight : Source → Nat
  | [] => 0
  | .part _ bs :: s => bs.length + 2 + weight s
  | _ :: s => 1 + weight s

variable {s s' : Source} {n : Nat} {bs cs : Bytes}

@[simp] theorem bytes_unread : (unread bs s).bytes = bs ++ s.bytes := by
  cases bs <;> rfl

theorem whole_unread (h : s.Whole) : (unread bs s).Whole := by
  cases bs with
  | nil => exact h
  | cons b bs => simpa [unread,Whole] using h

theorem weight_unread_le : (unread bs s).weight ≤ bs.length + 1 + s.weight := by
  cases bs <;> simp [unread,weight]

/-- Reading leaves less to read, but at the end of the stream. -/
theorem weight_read {g : Got} (hn : 0 < n) (h : s.read n = (g,s')) (hg : g ≠ .bytes []) :
    s'.weight < s.weight := by
  cases s with
  | nil =>
    cases h
    exact absurd rfl hg
  | cons d s =>
    cases d with
    | part b bs =>
      cases h
      have hle : (unread ((b :: bs).drop n) s).weight ≤
          ((b :: bs).drop n).length + 1 + Source.weight s := weight_unread_le
      rw [List.length_drop,List.length_cons] at hle
      simp only [weight]
      omega
    | interrupted =>
      cases h
      simp only [weight]
      omega
    | failed =>
      cases h
      simp only [weight]
      omega

theorem bytes_of_read (h : s.read n = (.bytes bs,s')) : s.bytes = bs ++ s'.bytes := by
  cases s with
  | nil =>
    cases h
    rfl
  | cons d s =>
    cases d with
    | part b cs =>
      cases h
      rw [bytes_unread,← List.append_assoc,List.take_append_drop]
      rfl
    | interrupted => cases h
    | failed => cases h

theorem length_of_read (h : s.read n = (.bytes bs,s')) : bs.length ≤ n := by
  cases s with
  | nil =>
    cases h
    exact Nat.zero_le _
  | cons d s =>
    cases d with
    | part b cs =>
      cases h
      exact List.length_take_le _ _
    | interrupted => cases h
    | failed => cases h

theorem bytes_of_interrupted (h : s.read n = (.interrupted,s')) : s.bytes = s'.bytes := by
  cases s with
  | nil => cases h
  | cons d s =>
    cases d with
    | part b bs => cases h
    | interrupted =>
      cases h
      rfl
    | failed => cases h

/-- Nothing is read only at the end of the stream. -/
theorem bytes_of_read_nil (hn : 0 < n) (h : s.read n = (.bytes [],s')) : s = [] ∧ s' = [] := by
  cases s with
  | nil =>
    cases h
    exact ⟨rfl,rfl⟩
  | cons d s =>
    cases d with
    | part b bs =>
      simp only [read,Prod.mk.injEq,Got.bytes.injEq,List.take_eq_nil_iff] at h
      rcases h.1 with h | h
      · omega
      · cases h
    | interrupted => cases h
    | failed => cases h

theorem Whole.of_read {g : Got} (hs : s.Whole) (h : s.read n = (g,s')) :
    s'.Whole ∧ g ≠ .failed := by
  cases s with
  | nil =>
    cases h
    exact ⟨hs,nofun⟩
  | cons d s =>
    have htail : Whole s := fun hmem => hs (List.mem_cons_of_mem _ hmem)
    cases d with
    | part b bs =>
      cases h
      exact ⟨whole_unread htail,nofun⟩
    | interrupted =>
      cases h
      exact ⟨htail,nofun⟩
    | failed => exact absurd List.mem_cons_self hs

end Source
end Flagship.Lib
