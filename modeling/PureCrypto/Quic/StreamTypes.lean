import Mathlib.Algebra.Group.Nat.Defs
import Mathlib.Tactic.SplitIfs

/-!
# Stream identifiers, directions and states

The vocabulary of `quic/stream.rs`: the four identifier spaces of RFC 9000 §2.1, the send and
receive state machines of §3.1 and §3.2, and the rejections of an inbound stream frame.

Offsets, sizes and counters are natural numbers.  Where a value the peer chooses can meet the 64-bit
boundary the source's own addition is used: `checkedAdd`, `saturatingAdd`, or `wrappingAdd` for a
plain `+` (which panics in a debug build instead); `usize` is 64 bits wide.
-/
namespace PureCrypto.Quic
/-- One past the largest `u64`. -/
def u64Bound : Nat := 2 ^ 64

/-- `u64::checked_add`. -/
def checkedAdd (a b : Nat) : Option Nat :=
  if a + b < u64Bound then some (a + b) else none

/-- `u64::saturating_add`. -/
def saturatingAdd (a b : Nat) : Nat := min (a + b) (u64Bound - 1)

/-- `+` on `u64` in a release build. -/
def wrappingAdd (a b : Nat) : Nat := (a + b) % u64Bound

theorem checkedAdd_eq_some {a b c : Nat} (h : checkedAdd a b = some c) : c = a + b ∧ a + b < u64Bound := by
  unfold checkedAdd at h
  split_ifs at h with hlt
  exact ⟨(Option.some.inj h).symm,hlt⟩

theorem saturatingAdd_eq {a b : Nat} (h : a + b < u64Bound) : saturatingAdd a b = a + b := by
  unfold saturatingAdd
  omega
theorem wrappingAdd_eq {a b : Nat} (h : a + b < u64Bound) : wrappingAdd a b = a + b :=
  Nat.mod_eq_of_lt h

inductive Role
  | client
  | server
deriving DecidableEq, Repr

inductive StreamDir
  | bidi
  | uni
deriving DecidableEq, Repr

/-- A rejection of an inbound frame by the stream layer. -/
inductive StreamError
  | flowControl
  | streamLimit
  | streamState
  | finalSize
deriving DecidableEq, Repr

/-- The error the application-facing operations report. -/
inductive Error
  | inappropriateState
deriving DecidableEq, Repr
namespace StreamId
def isClientInitiated (id : Nat) : Bool := id % 2 == 0

def isServerInitiated (id : Nat) : Bool := id % 2 == 1
def isBidi (id : Nat) : Bool := id / 2 % 2 == 0

def isUni (id : Nat) : Bool := id / 2 % 2 != 0
end StreamId
/-- RFC 9000 §3.1; `dataRecvd` and `resetRecvd` are terminal. -/
inductive SendState
  | ready
  | send
  | dataSent
  | dataRecvd
  | resetSent
  | resetRecvd
deriving DecidableEq, Repr

/-- RFC 9000 §3.2; `dataRead` and `resetRead` are terminal. -/
inductive RecvState
  | recv
  | sizeKnown
  | dataRecvd
  | dataRead
  | resetRecvd
  | resetRead
deriving DecidableEq, Repr
end PureCrypto.Quic
