import PureCrypto.Framework.Bitmap
import PureCrypto.Framework.SortedMap
import PureCrypto.Tls.Error
import Mathlib.Data.List.MinMax
import Mathlib.Data.Prod.Lex

/-!
# DTLS handshake fragments

`dtls/reassembly.rs`: the twelve-byte fragment header, the sender's fragmentation and the
reassembler, which buffers fragments by candidate and hands messages out in sequence.

Sequence numbers and lengths are natural numbers; `readFragment` gives them the range of their
fields, and the one addition that can leave it, on `expectedMsgSeq`, wraps.
-/
namespace PureCrypto.Dtls
def headerLen : Nat := 12

structure HandshakeFragment where
  msgType : UInt8
  totalLength : Nat
  messageSeq : Nat
  fragmentOffset : Nat
  fragment : List UInt8
  /-- Header and body. -/
  len : Nat
  deriving DecidableEq

def u24Be (a b c : UInt8) : Nat := (a.toNat <<< 16) ||| (b.toNat <<< 8) ||| c.toNat
def putU24 (v : Nat) : List UInt8 :=
  [UInt8.ofNat ((v >>> 16) &&& 0xff), UInt8.ofNat ((v >>> 8) &&& 0xff), UInt8.ofNat (v &&& 0xff)]

/-- The next fragment at the front of `buf`. -/
def readFragment : List UInt8 → Except Tls.Error HandshakeFragment
  | t :: l₀ :: l₁ :: l₂ :: s₀ :: s₁ :: o₀ :: o₁ :: o₂ :: n₀ :: n₁ :: n₂ :: body =>
    let totalLength := u24Be l₀ l₁ l₂
    let fragmentOffset := u24Be o₀ o₁ o₂
    let fragmentLength := u24Be n₀ n₁ n₂
    if body.length < fragmentLength then .error .decode
    else if totalLength < fragmentOffset + fragmentLength then .error .decode
    else .ok {
      msgType := t
      totalLength
      messageSeq := (s₀.toNat <<< 8) ||| s₁.toNat
      fragmentOffset
      fragment := body.take fragmentLength
      len := headerLen + fragmentLength }
  | _ => .error .decode

def writeFragmentHeader (msgType : UInt8) (totalLength messageSeq fragmentOffset
    fragmentLength : Nat) : List UInt8 :=
  [msgType] ++ putU24 totalLength ++
    [UInt8.ofNat ((messageSeq >>> 8) &&& 0xff), UInt8.ofNat (messageSeq &&& 0xff)] ++
    putU24 fragmentOffset ++ putU24 fragmentLength

def fragmentsFrom (msgType : UInt8) (messageSeq : Nat) (body : List UInt8) (chunk : Nat) :
    Nat → Nat → List (List UInt8)
  | 0, _ => []
  | fuel + 1, offset =>
    if offset < body.length then
      let n := min chunk (body.length - offset)
      (writeFragmentHeader msgType body.length messageSeq offset n ++ (body.drop offset).take n) ::
        fragmentsFrom msgType messageSeq body chunk fuel (offset + n)
    else []

/-- Every round takes at least one byte, so the body's length bounds the rounds. -/
def writeFragments (msgType : UInt8) (messageSeq : Nat) (body : List UInt8)
    (maxFragmentSize : Nat) : List (List UInt8) :=
  let total := body.length
  let chunk := if maxFragmentSize = 0 ∨ total ≤ maxFragmentSize then max total 1
    else maxFragmentSize
  if total = 0 then [writeFragmentHeader msgType 0 messageSeq 0 0]
  else fragmentsFrom msgType messageSeq body chunk total 0

/-- Competing claims on one sequence number are separate candidates. -/
structure CandidateKey where
  messageSeq : Nat
  msgType : UInt8
  totalLength : Nat
  deriving DecidableEq
namespace CandidateKey
def tuple (k : CandidateKey) : Nat ×ₗ Nat ×ₗ Nat :=
  toLex (k.messageSeq, toLex (k.msgType.toNat, k.totalLength))

theorem tuple_injective : Function.Injective tuple := by
  intro a b h
  obtain ⟨seq,type,length⟩ := a
  have hpair := toLex_inj.mp h
  simp only [Prod.mk.injEq,EmbeddingLike.apply_eq_iff_eq,UInt8.toNat_inj] at hpair
  obtain ⟨rfl,rfl,rfl⟩ := hpair
  rfl

instance : LinearOrder CandidateKey := LinearOrder.lift' tuple tuple_injective
end CandidateKey
structure PartialMessage where
  msgType : UInt8
  totalLength : Nat
  buf : List UInt8
  received : Bitmap
  receivedCount : Nat
  admittedAt : Nat
namespace PartialMessage
def new (msgType : UInt8) (totalLength admittedAt : Nat) : PartialMessage where
  msgType
  totalLength
  buf := List.replicate totalLength 0
  received := Bitmap.zeros totalLength
  receivedCount := 0
  admittedAt

def isReceived (p : PartialMessage) (byteIdx : Nat) : Bool := p.received.test byteIdx
def setReceived (p : PartialMessage) (byteIdx : Nat) : Bool × PartialMessage :=
  let (fresh, received) := p.received.mark byteIdx
  (fresh, { p with received })

def conflicts (p : PartialMessage) : Nat → List UInt8 → Bool
  | _, [] => false
  | idx, b :: rest =>
    (p.isReceived idx && p.buf[idx]? != some b) || p.conflicts (idx + 1) rest

def storeByte (p : PartialMessage) (idx : Nat) (b : UInt8) : Bool × PartialMessage :=
  let (fresh, p) := p.setReceived idx
  if fresh then
    (true, { p with
      buf := p.buf.set idx b
      receivedCount := p.receivedCount + 1 })
  else (false, p)

def store (p : PartialMessage) : Nat → List UInt8 → Bool × PartialMessage
  | _, [] => (false, p)
  | idx, b :: rest =>
    let (fresh, p) := p.storeByte idx b
    let (storedNew, p) := p.store (idx + 1) rest
    (fresh || storedNew, p)

def isComplete (p : PartialMessage) : Bool := p.receivedCount == p.totalLength
end PartialMessage
def maxMessageLen : Nat := 256 * 1024
def maxInProgress : Nat := 8
def maxSeqAhead : Nat := 8

structure Reassembler where
  expectedMsgSeq : Nat
  inProgress : SortedMap CandidateKey PartialMessage
  maxMessageLen : Nat
  maxInProgress : Nat
  fifoEviction : Bool
  admitCounter : Nat
  progressed : Bool
namespace Reassembler
def withLimits (maxMessageLen maxInProgress : Nat) : Reassembler where
  expectedMsgSeq := 0
  inProgress := .empty
  maxMessageLen
  maxInProgress
  fifoEviction := false
  admitCounter := 0
  progressed := false

def new : Reassembler := withLimits Dtls.maxMessageLen Dtls.maxInProgress

/-- Evict the candidates behind the head; after a wrap to zero none is. -/
def dropStaleCandidates (r : Reassembler) : Reassembler :=
  if r.expectedMsgSeq ≠ 0 then
    { r with inProgress := r.inProgress.retain (fun k _ => r.expectedMsgSeq ≤ k.messageSeq) }
  else r

/-- Hand out the message of `key` and move the head of the queue. -/
def dispatch (r : Reassembler) (key : CandidateKey) (done : PartialMessage) :
    Option (UInt8 × List UInt8) × Reassembler :=
  let r := { r with
    inProgress := r.inProgress.erase key
    expectedMsgSeq := (r.expectedMsgSeq + 1) % 2 ^ 16 }
  (some (done.msgType, done.buf), r.dropStaleCandidates)

/-- Whom a full map gives up for a fragment of `messageSeq`. -/
def victim (r : Reassembler) (messageSeq : Nat) : Option CandidateKey :=
  if r.fifoEviction then
    (r.inProgress.entries.argmin (fun e => e.2.admittedAt)).map Prod.fst
  else if messageSeq ≠ r.expectedMsgSeq then none
  else (r.inProgress.entries.getLast?.map Prod.fst).filter
    (fun k => r.expectedMsgSeq < k.messageSeq)

/-- Make sure there is room for `key`; `none` when the fragment is refused. -/
def makeRoom (r : Reassembler) (key : CandidateKey) : Option Reassembler :=
  if !r.inProgress.contains key && decide (r.maxInProgress ≤ r.inProgress.length) then
    (r.victim key.messageSeq).map fun k => { r with inProgress := r.inProgress.erase k }
  else some r

/-- The candidate of `key`, admitted now if it is new. -/
def entry (r : Reassembler) (key : CandidateKey) : PartialMessage × Reassembler :=
  match r.inProgress.get? key with
  | some p => (p, r)
  | none =>
    let p := PartialMessage.new key.msgType key.totalLength r.admitCounter
    (p, { r with
      inProgress := r.inProgress.insert key p
      admitCounter := r.admitCounter + 1 })

def absorb (r : Reassembler) (key : CandidateKey) (frag : HandshakeFragment) :
    Option (UInt8 × List UInt8) × Reassembler :=
  let (p, r) := r.entry key
  if p.buf.length < frag.fragmentOffset + frag.fragment.length then (none, r)
  else if p.conflicts frag.fragmentOffset frag.fragment then (none, r)
  else
    let (storedNew, p) := p.store frag.fragmentOffset frag.fragment
    let r := { r with
      inProgress := r.inProgress.insert key p
      progressed := r.progressed || storedNew }
    if p.isComplete && !r.fifoEviction && key.messageSeq == r.expectedMsgSeq then r.dispatch key p
    else (none, r)

/-- Feed one fragment; the result is the message it completes at the head of the queue. -/
def feed (r : Reassembler) (frag : HandshakeFragment) : Option (UInt8 × List UInt8) × Reassembler :=
  if frag.messageSeq < r.expectedMsgSeq then (none, r)
  else if maxSeqAhead ≤ frag.messageSeq - r.expectedMsgSeq then (none, r)
  else if r.maxMessageLen < frag.totalLength then (none, r)
  else
    let key := ⟨frag.messageSeq, frag.msgType, frag.totalLength⟩
    match r.makeRoom key with
    | none => (none, r)
    | some r => r.absorb key frag

/-- The message at the head of the queue, if it is complete already. -/
def popReady (r : Reassembler) : Option (UInt8 × List UInt8) × Reassembler :=
  match r.inProgress.entries.find? (fun e => e.1.messageSeq == r.expectedMsgSeq && e.2.isComplete) with
  | some (key, done) => r.dispatch key done
  | none => (none, r)

/-- The callers' loop: pop until nothing is ready, at most `fuel` times. -/
def drain : Nat → Reassembler → List (Nat × UInt8 × List UInt8) × Reassembler
  | 0, r => ([], r)
  | fuel + 1, r =>
    match r.popReady with
    | (none, r') => ([], r')
    | (some message, r') =>
      let (messages, last) := drain fuel r'
      ((r.expectedMsgSeq, message) :: messages, last)

theorem length_dispatch (r : Reassembler) {key : CandidateKey} {p : PartialMessage}
    (hp : r.inProgress.get? key = some p) : (r.dispatch key p).2.inProgress.length < r.inProgress.length := by
  have herase := r.inProgress.length_erase_of_get? hp
  simp only [dispatch,dropStaleCandidates]
  split_ifs with hzero
  · have hle := List.length_filter_le (fun e => decide ((r.expectedMsgSeq + 1) % 2 ^ 16 ≤ e.1.messageSeq))
      (r.inProgress.erase key).entries
    simp only [SortedMap.length,SortedMap.retain] at herase ⊢
    omega
  · simp only
    omega

theorem popReady_spec (r : Reassembler) : (r.popReady = (none, r) ∧ ∀ key p, r.inProgress.get? key = some p →
      key.messageSeq = r.expectedMsgSeq → p.isComplete ≠ true) ∨
    ∃ key p, r.inProgress.get? key = some p ∧ key.messageSeq = r.expectedMsgSeq ∧ p.isComplete = true ∧
      r.popReady = r.dispatch key p := by
  unfold popReady
  cases hfind : r.inProgress.entries.find?
      (fun e => e.1.messageSeq == r.expectedMsgSeq && e.2.isComplete) with
  | none =>
    refine .inl ⟨rfl,fun key p hget hkey hcomplete => ?_⟩
    have hnot := List.find?_eq_none.mp hfind _ ((r.inProgress.get?_eq_some_iff _ _).mp hget)
    simp [hkey,hcomplete] at hnot
  | some e =>
    have hready := List.find?_some hfind
    simp only [Bool.and_eq_true,beq_iff_eq] at hready
    have hget := (r.inProgress.get?_eq_some_iff _ _).mpr (List.mem_of_find?_eq_some hfind)
    exact .inr ⟨e.1,e.2,hget,hready.1,hready.2,rfl⟩
end Reassembler
namespace PartialMessage
open List
/-- The count is that of the marks, and only bytes of the message are marked. -/
structure Booked (p : PartialMessage) : Prop where
  length : p.buf.length = p.totalLength
  room : p.totalLength ≤ 64 * p.received.length
  inside : ∀ x, p.isReceived x = true → x < p.totalLength
  count : p.receivedCount = p.received.count p.totalLength

/-- `q` still has every byte that `p` received. -/
def Keeps (p q : PartialMessage) : Prop :=
  ∀ x, p.isReceived x = true → q.isReceived x = true ∧ q.buf[x]? = p.buf[x]?

theorem Keeps.refl (p : PartialMessage) : p.Keeps p := fun _ hx => ⟨hx,rfl⟩

theorem Keeps.trans {p q s : PartialMessage} (hpq : p.Keeps q) (hqs : q.Keeps s) : p.Keeps s := by
  intro x hx
  obtain ⟨hq,hbyte⟩ := hpq x hx
  obtain ⟨hs,hbyte'⟩ := hqs x hq
  exact ⟨hs,hbyte'.trans hbyte⟩

theorem booked_new (msgType : UInt8) (totalLength admittedAt : Nat) :
    (new msgType totalLength admittedAt).Booked where
  length := length_replicate
  room := Bitmap.length_zeros _
  inside := by simp [isReceived,new]
  count := (Bitmap.count_zeros _ _).symm

theorem isReceived_new (msgType : UInt8) (totalLength admittedAt x : Nat) :
    (new msgType totalLength admittedAt).isReceived x = false := by
  simp [isReceived,new]
section Store
variable {p : PartialMessage}
private theorem storeByte_eq (h : p.Booked) {idx : Nat} (hidx : idx < p.totalLength) (b : UInt8) :
    p.storeByte idx b = if p.isReceived idx then (false, p) else
      (true, { p with
        received := (p.received.mark idx).2
        buf := p.buf.set idx b
        receivedCount := p.receivedCount + 1 }) := by
  have hroom : idx < 64 * p.received.length := lt_of_lt_of_le hidx h.room
  have hfresh := Bitmap.mark_fst hroom
  unfold storeByte setReceived
  cases hset : p.isReceived idx with
  | true =>
    have hsame : p.received.mark idx = (false, p.received) := by
      rw [Bitmap.mark_eq hroom]
      exact if_pos hset
    simp [hsame]
  | false =>
    have hnew : (p.received.mark idx).1 = true := by
      rw [hfresh]
      exact congrArg not hset
    simp [hnew]

private theorem storeByte_spec (h : p.Booked) {idx : Nat} (hidx : idx < p.totalLength) (b : UInt8) :
    (p.storeByte idx b).2.Booked ∧ p.Keeps (p.storeByte idx b).2 ∧ (p.storeByte idx b).2.msgType = p.msgType ∧
      (p.storeByte idx b).2.totalLength = p.totalLength ∧
      (p.storeByte idx b).2.isReceived idx = true ∧ ∀ x, (p.storeByte idx b).2.isReceived x = true →
        p.isReceived x = true ∨ x = idx ∧ (p.storeByte idx b).2.buf[x]? = some b := by
  have hroom : idx < 64 * p.received.length := lt_of_lt_of_le hidx h.room
  have htest := Bitmap.test_mark hroom
  rw [storeByte_eq h hidx]
  cases hset : p.isReceived idx with
  | true =>
    exact ⟨h,.refl p,rfl,rfl,hset,fun x hx => .inl hx⟩
  | false =>
    rw [if_neg Bool.false_ne_true]
    have hmark : ∀ x, (p.received.mark idx).2.test x = true ↔ p.isReceived x = true ∨ x = idx := by
      intro x
      rw [htest,Bool.or_eq_true,decide_eq_true_eq]
      rfl
    have hbyte : (p.buf.set idx b)[idx]? = some b :=
      getElem?_set_self (by rw [h.length]; exact hidx)
    refine ⟨⟨?_,?_,?_,?_⟩,?_,rfl,rfl,(hmark idx).mpr (.inr rfl),?_⟩
    · rw [length_set,h.length]
    · rw [Bitmap.length_mark]
      exact h.room
    · intro x hx
      rcases (hmark x).mp hx with hx | rfl
      · exact h.inside x hx
      · exact hidx
    · have hnew : (p.received.mark idx).1 = true := by
        rw [Bitmap.mark_fst hroom]
        exact congrArg not hset
      rw [Bitmap.count_mark hroom hidx,if_pos hnew,h.count]
    · intro x hx
      have hne : idx ≠ x := by
        rintro rfl
        rw [hset] at hx
        cases hx
      exact ⟨(hmark x).mpr (.inl hx),getElem?_set_ne hne⟩
    · intro x hx
      rcases (hmark x).mp hx with hx | rfl
      · exact .inl hx
      · exact .inr ⟨rfl,hbyte⟩

theorem store_spec (h : p.Booked) (bs : List UInt8) {idx : Nat} (hfit : idx + bs.length ≤ p.totalLength) :
    (p.store idx bs).2.Booked ∧ p.Keeps (p.store idx bs).2 ∧
      (p.store idx bs).2.msgType = p.msgType ∧ (p.store idx bs).2.totalLength = p.totalLength ∧
      (∀ x, idx ≤ x → x < idx + bs.length → (p.store idx bs).2.isReceived x = true) ∧
      ∀ x, (p.store idx bs).2.isReceived x = true → p.isReceived x = true ∨ idx ≤ x ∧ x < idx + bs.length ∧
          (p.store idx bs).2.buf[x]? = bs[x - idx]? := by
  induction bs generalizing p idx with
  | nil => exact ⟨h,.refl p,rfl,rfl,fun x hle hlt => absurd hlt (not_lt.mpr hle),fun x hx => .inl hx⟩
  | cons b bs ih =>
    rw [length_cons] at hfit
    obtain ⟨hbooked,hkeeps,htype,htotal,hset,hnew⟩ := storeByte_spec h (show idx < p.totalLength by omega) b
    obtain ⟨hbooked',hkeeps',htype',htotal',hset',hnew'⟩ := ih hbooked (show idx + 1 + bs.length ≤ _ by omega)
    refine ⟨hbooked',hkeeps.trans hkeeps',htype'.trans htype,htotal'.trans htotal,fun x hle hlt => ?_,fun x hx => ?_⟩
    · rw [length_cons] at hlt
      rcases Nat.eq_or_lt_of_le hle with rfl | hle
      · exact (hkeeps' _ hset).1
      · exact hset' x hle (by omega)
    rw [length_cons]
    rcases hnew' x hx with hold | ⟨hle,hlt,hbyte⟩
    · -- the byte was there before the rest was stored
      rcases hnew x hold with hold' | ⟨rfl,hbyte⟩
      · exact .inl hold'
      · refine .inr ⟨le_rfl,by omega,?_⟩
        rw [Nat.sub_self,getElem?_cons_zero,← hbyte]
        exact (hkeeps' x hold).2
    · refine .inr ⟨by omega,by omega,hbyte.trans ?_⟩
      obtain ⟨y,rfl⟩ := Nat.exists_eq_add_of_le hle
      rw [Nat.add_sub_cancel_left,show idx + 1 + y - idx = y + 1 by omega,getElem?_cons_succ]
end Store
end PartialMessage
end PureCrypto.Dtls
