import Flagship.Relay.Frame

namespace Flagship.Relay
open Lib

def mailFirst : UInt8 := 1
def mailLast : UInt8 := 2
def mailMaxEnvelope : Nat := 16 * 1024 * 1024 + 256 * 1024
def mailChunk : Nat := maxFramePayload - 64

/-- A round that is not the last goes on from a later place, or after the head. -/
theorem splitFrom_smaller {len off head : Nat} {first : Bool}
    (h : ¬ len ≤ min len (off + (mailChunk - if first = true then head else 0))) :
    2 * (len - min len (off + (mailChunk - if first = true then head else 0))) + false.toNat <
      2 * (len - off) + first.toNat := by
  have hchunk : 0 < mailChunk := by decide
  cases first with
  | true =>
    rw [if_pos rfl] at h ⊢
    rw [Bool.toNat_true,Bool.toNat_false]
    omega
  | false =>
    rw [if_neg Bool.false_ne_true] at h ⊢
    omega

/-- The rounds of the split from one on: the head goes with the first chunk only. A body is in
memory, so no place in it saturates. -/
def splitFrom (frameType : UInt8) (streamId : UInt32) (head body : Bytes) (first : Bool)
    (off : Nat) : List Frame :=
  let room := mailChunk - (if first then head.length else 0)
  let stop := min body.length (off + room)
  let part := (slice? body off stop).getD []
  let last := decide (body.length ≤ stop)
  let payload := ((if first then mailFirst else 0) ||| (if last then mailLast else 0)) ::
    ((if first then head else []) ++ part)
  ⟨streamId,frameType,payload⟩ ::
    if body.length ≤ stop then [] else splitFrom frameType streamId head body false stop
termination_by 2 * (body.length - off) + first.toNat
decreasing_by exact splitFrom_smaller (by assumption)

def split (frameType : UInt8) (streamId : UInt32) (head body : Bytes) : List Frame :=
  splitFrom frameType streamId head body true 0

def mailRequestFrames (streamId : UInt32) (mailboxId : Text) (envelope : Bytes) :
    Except String (List Frame) :=
  let id := utf8Bytes mailboxId
  if 255 < id.length ∨ 64 < id.length then .error "mailbox id too long"
  else .ok (split framePbMailReq streamId (UInt8.ofNat id.length :: id) envelope)

def mailResponseFrames (streamId : UInt32) (status : UInt16) (envelope : Bytes) : List Frame :=
  split framePbMailResp streamId (beBytes 2 status.toNat) envelope

inductive MailKind
  | req | resp
  deriving DecidableEq

structure MailAssembler where
  kind : MailKind
  parts : Bytes
  headDone : Bool
  mailboxId : Text
  status : UInt16
  deriving DecidableEq

namespace MailAssembler

def new (kind : MailKind) : MailAssembler := ⟨kind,[],false,[],0⟩

/-- What a first frame carries before its share of the envelope, and that share. -/
def readHead (a : MailAssembler) (rest : Bytes) : MailAssembler × Bytes :=
  match a.kind with
  | .req =>
    let n := (rest.headD 0).toNat
    let stop := min rest.length (n + 1)
    let id := (slice? rest (min 1 stop) stop).getD []
    let text := fromUtf8Lossy id
    let mailboxId := if text.head? = some '\uFEFF' then text.tail else text
    ({ a with mailboxId := mailboxId },rest.drop stop)
  | .resp =>
    let hi := (rest.headD 0).toUInt16
    let lo := (rest.getD 1 0).toUInt16
    ({ a with status := hi <<< 8 ||| lo },rest.drop (min 2 rest.length))

/-- A frame's share of the envelope; the last one hands the whole of it out. -/
def take (a : MailAssembler) (flags : UInt8) (rest : Bytes) :
    MailAssembler × Except String (Option Bytes) :=
  if mailMaxEnvelope < a.parts.length + rest.length then (a,.error "mail too large")
  else
    let parts := a.parts ++ rest
    if flags &&& mailLast = 0 then ({ a with parts := parts },.ok none)
    else ({ a with parts := [] },.ok (some parts))

/-- One frame's payload; a refused one may still have left its head. -/
def push (a : MailAssembler) : Bytes → MailAssembler × Except String (Option Bytes)
  | [] => (a,.error "empty mail frame")
  | flags :: rest =>
    if flags &&& mailFirst ≠ 0 then
      if a.headDone then (a,.error "mail stream restarted")
      else
        let (a,rest) := a.readHead rest
        { a with headDone := true }.take flags rest
    else if a.headDone = false then (a,.error "mail stream without its first frame")
    else a.take flags rest

/-- Payloads pushed in order, with what each of them returned. -/
def pushAll (a : MailAssembler) : List Bytes → MailAssembler × List (Except String (Option Bytes))
  | [] => (a,[])
  | p :: ps =>
    let (a,r) := a.push p
    let (a,rs) := a.pushAll ps
    (a,r :: rs)

end MailAssembler

/-- A relay that announced a mailbox id: `bound` when the box signed the announcement for that
relay. -/
structure MailboxCandidate where
  relay : Text
  epoch : UInt64
  bound : Bool
  deriving DecidableEq

/-- Relays remembered as waiting to hold one mailbox id after its first holder. -/
def mailboxCandidatesMax : Nat := 4

/-- The place of a candidate whose relay is not in the list. -/
def insertMailbox (l : List MailboxCandidate) (c : MailboxCandidate) : List MailboxCandidate :=
  if c.bound = false then
    if l.length < mailboxCandidatesMax then l ++ [c] else l
  else
    let i := (l.takeWhile (·.bound)).length
    if mailboxCandidatesMax ≤ l.length then
      if l.getLast?.any (!·.bound) then l.dropLast.insertIdx (min i l.dropLast.length) c
      else l
    else l.insertIdx (min i l.length) c

/-- Place a relay's announcement: bound ones before every unbound one, in the order of their
first claims, and a bound one displaces the last unbound one when the list is full. -/
def placeMailbox (l : List MailboxCandidate) (relay : Text) (epoch : UInt64) (bound : Bool) :
    List MailboxCandidate :=
  match l.findIdx? (·.relay == relay) with
  | some i =>
    let wasBound := l[i]?.any (·.bound)
    if bound && !wasBound then insertMailbox (l.eraseIdx i) ⟨relay,epoch,bound⟩
    else l.modify i fun c => { c with epoch := epoch }
  | none => insertMailbox l ⟨relay,epoch,bound⟩

end Flagship.Relay
