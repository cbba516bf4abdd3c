import PureCrypto.Framework.Fragments
import PureCrypto.Tls.Error

/-!
# CRYPTO streams

`CryptoBuf` of `quic/crypto_buf.rs`: one byte stream of handshake messages per encryption level, with
the reassembly of what arrives and the outbound queue with its retransmissions.

The frame decoder keeps `offset + length` of every CRYPTO frame below `2 ^ 62`, so no offset meets
the 64-bit boundary and offsets are natural numbers.
-/
namespace PureCrypto.Quic
open Fragments
namespace CryptoBuf
def maxPendingCryptoBytes : Nat := 64 * 1024

def maxPendingFragments : Nat := 32
end CryptoBuf
structure CryptoBuf where
  nextOffset : Nat
  pending : SortedMap Nat (List UInt8)
  outbound : List UInt8
  outboundOffset : Nat
  lastSent : Option (Nat × List UInt8)
  rtx : List (Nat × List UInt8)
  sentHistory : SortedMap Nat (List UInt8)
namespace CryptoBuf
def new : CryptoBuf where
  nextOffset := 0
  pending := .empty
  outbound := []
  outboundOffset := 0
  lastSent := none
  rtx := []
  sentHistory := .empty

def totalPendingBytes (b : CryptoBuf) : Nat := totalLength b.pending

/-- Release the pending fragments at or below `nextOffset`. -/
def drain (b : CryptoBuf) (released : List UInt8) :
    List (Nat × List UInt8) → List UInt8 × CryptoBuf
  | [] => (released, b)
  | (pOff, frag) :: rest =>
    if pOff ≤ b.nextOffset then
      let b := { b with pending := b.pending.erase pOff }
      let stop := pOff + frag.length
      if stop ≤ b.nextOffset then drain b released rest
      else drain { b with nextOffset := stop } (released ++ frag.drop (b.nextOffset - pOff)) rest
    else (released, b)

def release (b : CryptoBuf) (data : List UInt8) : List UInt8 × CryptoBuf :=
  let b := { b with nextOffset := b.nextOffset + data.length }
  b.drain data b.pending.entries

/-- Out-of-order data: keep it unless another fragment has all of it already. -/
def store (b : CryptoBuf) (offset : Nat) (data : List UInt8) :
    Except Tls.Error (List UInt8) × CryptoBuf :=
  let stop := offset + data.length
  let existingLen := ((b.pending.get? offset).map List.length).getD 0
  if (b.pending.lastLT offset).any (fun prev => stop ≤ prev.1 + prev.2.length) then (.ok [], b)
  else if data.length ≤ existingLen then (.ok [], b)
  else if maxPendingCryptoBytes < b.totalPendingBytes + (data.length - existingLen) then
    (.error .decode, b)
  else if existingLen = 0 ∧ maxPendingFragments ≤ b.pending.length then (.error .decode, b)
  else (.ok [], { b with pending := b.pending.insert offset data })

def onCrypto (b : CryptoBuf) (offset : Nat) (data : List UInt8) :
    Except Tls.Error (List UInt8) × CryptoBuf :=
  -- what was delivered before is cut off
  let skip := b.nextOffset - offset
  if offset < b.nextOffset ∧ data.length ≤ skip then (.ok [], b)
  else
    let data := data.drop skip
    let offset := max offset b.nextOffset
    if data.isEmpty then (.ok [], b)
    else if offset = b.nextOffset then
      let (released, b) := b.release data
      (.ok released, b)
    else b.store offset data

def enqueueOutbound (b : CryptoBuf) (data : List UInt8) : CryptoBuf :=
  { b with outbound := b.outbound ++ data }

/-- Hand out a queued retransmission, cut to `cap` bytes. -/
def carveRtx (b : CryptoBuf) (cap offset : Nat) (chunk : List UInt8)
    (rest : List (Nat × List UInt8)) : CryptoBuf × List UInt8 :=
  let rtx := if cap < chunk.length then (offset + cap, chunk.drop cap) :: rest else rest
  let chunk := chunk.take cap
  let known := ((b.sentHistory.get? offset).map List.length).getD 0
  ({ b with
    rtx
    lastSent := some (offset, chunk)
    sentHistory := if known ≤ chunk.length then b.sentHistory.insert offset chunk
      else b.sentHistory }, chunk)

/-- The next chunk for a CRYPTO frame: a retransmission first, then fresh bytes. -/
def carve (b : CryptoBuf) (cap : Nat) : Option (Nat × List UInt8) × CryptoBuf :=
  match b.rtx with
  | (offset, chunk) :: rest =>
    let (b, chunk) := b.carveRtx cap offset chunk rest
    (some (offset, chunk), b)
  | [] =>
    if b.outbound.isEmpty then (none, b)
    else
      let take := min cap b.outbound.length
      let chunk := b.outbound.take take
      let offset := b.outboundOffset
      (some (offset, chunk), { b with
        outbound := b.outbound.drop take
        outboundOffset := offset + chunk.length
        lastSent := some (offset, chunk)
        sentHistory := b.sentHistory.insert offset chunk })

/-- The bytes from `cursor` to `stop`, put together from the history; `none` is a gap. -/
def gather (history : SortedMap Nat (List UInt8)) (stop : Nat) :
    Nat → Nat → List UInt8 → Option (List UInt8)
  | 0, cursor, bytes => if cursor < stop then none else some bytes
  | fuel + 1, cursor, bytes =>
    if cursor < stop then
      match history.lastLE cursor with
      | none => none
      | some (entryOff, entryBytes) =>
        if entryOff + entryBytes.length ≤ cursor then none
        else
          let localSkip := cursor - entryOff
          let localTake := min (stop - cursor) (entryBytes.length - localSkip)
          gather history stop fuel (cursor + localTake)
            (bytes ++ (entryBytes.drop localSkip).take localTake)
    else some bytes

/-- Queue a range for retransmission, unless an entry of the queue has all of it. -/
def requeueRange (b : CryptoBuf) (offset length : Nat) : Bool × CryptoBuf :=
  if length = 0 then (false, b)
  else if b.rtx.any (fun e => e.1 ≤ offset && offset + length ≤ e.1 + e.2.length) then (false, b)
  else
    match gather b.sentHistory (offset + length) length offset [] with
    | none => (false, b)
    | some bytes => (true, { b with rtx := b.rtx ++ [(offset, bytes)] })

/-- Forget the history entries that lie inside an acknowledged range. -/
def onRangeAcked (b : CryptoBuf) (offset length : Nat) : CryptoBuf :=
  if length = 0 then b
  else
    let stop := offset + length
    let covered := (b.sentHistory.range offset stop).filter (fun e => e.1 + e.2.length ≤ stop)
    { b with sentHistory := covered.foldl (fun history e => history.erase e.1) b.sentHistory }

/-- Queue the most recent chunk ahead of everything else. -/
def scheduleLastChunkRetransmit (b : CryptoBuf) : Bool × CryptoBuf :=
  match b.lastSent with
  | some chunk => (true, { b with rtx := chunk :: b.rtx })
  | none => (false, b)
end CryptoBuf
end PureCrypto.Quic
