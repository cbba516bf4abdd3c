import PureCrypto.Quic.StreamTypes
import PureCrypto.Quic.Varint

/-!
# Frames on the wire

The frame type of `quic/frame.rs` (RFC 9000 §19, RFC 9221) with its encoder and decoder.  A decoder
reads from the part of the payload behind its cursor; where the source compares an extent with
`buf.len() - p`, that is the length of what is left.
-/
namespace PureCrypto.Quic
open ByteReader
/-- Largest stream count on the wire. -/
def maxStreamsLimit : Nat := 2 ^ 60

structure EcnCounts where
  ect0 : Nat
  ect1 : Nat
  ce : Nat
deriving DecidableEq

inductive Frame
  /-- A run of PADDING frames. -/
  | padding (n : Nat)
  | ping
  /-- The ranges after the first one stay encoded. -/
  | ack (largest ackDelay : Nat) (rangesRaw : List UInt8) (firstRange : Nat)
      (ecn : Option EcnCounts)
  | resetStream (id code finalSize : Nat)
  | stopSending (id code : Nat)
  | crypto (offset : Nat) (data : List UInt8)
  | newToken (token : List UInt8)
  | stream (id offset : Nat) (fin : Bool) (data : List UInt8)
  | maxData (limit : Nat)
  | maxStreamData (id limit : Nat)
  | maxStreams (dir : StreamDir) (limit : Nat)
  | dataBlocked (limit : Nat)
  | streamDataBlocked (id limit : Nat)
  | streamsBlocked (dir : StreamDir) (limit : Nat)
  | newConnectionId (seq retirePriorTo : Nat) (cid : List UInt8) (resetToken : FixedBytes 16)
  | retireConnectionId (seq : Nat)
  | pathChallenge (data : FixedBytes 8)
  | pathResponse (data : FixedBytes 8)
  /-- The transport variant carries the frame type that triggered the close. -/
  | connectionClose (error : Nat) (frameType : Option Nat) (reason : List UInt8)
  | handshakeDone
  | datagram (data : List UInt8)
deriving DecidableEq
namespace Frame
/-- The next `length` bytes, if there are that many. -/
def readBounded (length : Nat) : ByteReader Tls.Error (List UInt8) := fun buf => do
  let length ← Varint.boundedLen length buf.length
  .ok (buf.take length, buf.drop length)

/-- The end of a stream's data stays within the largest offset. -/
def checkExtent (offset length : Nat) : ByteReader Tls.Error Unit :=
  match checkedAdd offset length with
  | some stop => if stop ≤ Varint.max then pure () else fail .decode
  | none => fail .decode

/-- Walk over `count` pairs of a gap and a range length. -/
def skipRanges : Nat → ByteReader Tls.Error Unit
  | 0 => pure ()
  | count + 1 => do
      let _ ← Varint.read
      let _ ← Varint.read
      skipRanges count

def readEcn (t : UInt8) : ByteReader Tls.Error (Option EcnCounts) :=
  if t = 0x03 then do
    let ect0 ← Varint.read
    let ect1 ← Varint.read
    let ce ← Varint.read
    pure (some ⟨ect0, ect1, ce⟩)
  else pure none

def readAck (t : UInt8) : ByteReader Tls.Error Frame := do
  let largest ← Varint.read
  let ackDelay ← Varint.read
  let rangeCount ← Varint.read
  let firstRange ← Varint.read
  let rangesRaw ← passedOver (skipRanges rangeCount)
  let ecn ← readEcn t
  pure (.ack largest ackDelay rangesRaw firstRange ecn)

def readCrypto : ByteReader Tls.Error Frame := do
  let offset ← Varint.read
  let length ← Varint.read
  checkExtent offset length
  let data ← readBounded length
  pure (.crypto offset data)

def readNewToken : ByteReader Tls.Error Frame := do
  let length ← Varint.read
  let token ← readBounded length
  if length = 0 then fail .decode else pure (.newToken token)

def readStreamData (hasLen : Bool) (offset : Nat) : ByteReader Tls.Error (List UInt8) :=
  if hasLen then do
    let length ← Varint.read
    checkExtent offset length
    readBounded length
  else do
    let data ← rest
    checkExtent offset data.length
    pure data

def readOffset (hasOff : Bool) : ByteReader Tls.Error Nat :=
  if hasOff then Varint.read else pure 0

/-- The three low bits of the type are FIN, LEN and OFF. -/
def readStream (t : UInt8) : ByteReader Tls.Error Frame := do
  let fin := t &&& 0x01 != 0
  let hasLen := t &&& 0x02 != 0
  let hasOff := t &&& 0x04 != 0
  let id ← Varint.read
  let offset ← readOffset hasOff
  let data ← readStreamData hasLen offset
  pure (.stream id offset fin data)

/-- A stream count, in MAX_STREAMS and STREAMS_BLOCKED. -/
def readStreamCount (make : Nat → Frame) : ByteReader Tls.Error Frame := do
  let limit ← Varint.read
  if maxStreamsLimit < limit then fail .decode else pure (make limit)

def readNewConnectionId : ByteReader Tls.Error Frame := do
  let seq ← Varint.read
  let retirePriorTo ← Varint.read
  let cidLen ← byte .decode
  if cidLen = 0 ∨ 20 < cidLen then fail .decode
  else do
    let cid ← slice cidLen.toNat .decode
    let resetToken ← fixed 16 .decode
    pure (.newConnectionId seq retirePriorTo cid resetToken)

/-- Only the transport variant names the frame type that triggered the close. -/
def readFrameType (t : UInt8) : ByteReader Tls.Error (Option Nat) :=
  if t = 0x1C then do
    let frameType ← Varint.read
    pure (some frameType)
  else pure none

def readConnectionClose (t : UInt8) : ByteReader Tls.Error Frame := do
  let error ← Varint.read
  let frameType ← readFrameType t
  let reasonLen ← Varint.read
  let reason ← readBounded reasonLen
  pure (.connectionClose error frameType reason)

def readBody (t : UInt8) : ByteReader Tls.Error Frame :=
  if 0x08 ≤ t ∧ t ≤ 0x0F then readStream t
  else match t with
  -- the run of zero bytes counts the type byte
  | 0x00 => fun buf =>
    .ok (.padding ((buf.takeWhile (· == 0)).length + 1), buf.dropWhile (· == 0))
  | 0x01 => pure .ping
  | 0x02 => readAck t
  | 0x03 => readAck t
  | 0x04 => do
      let id ← Varint.read
      let code ← Varint.read
      let finalSize ← Varint.read
      pure (.resetStream id code finalSize)
  | 0x05 => do
      let id ← Varint.read
      let code ← Varint.read
      pure (.stopSending id code)
  | 0x06 => readCrypto
  | 0x07 => readNewToken
  | 0x10 => do
      let limit ← Varint.read
      pure (.maxData limit)
  | 0x11 => do
      let id ← Varint.read
      let limit ← Varint.read
      pure (.maxStreamData id limit)
  | 0x12 => readStreamCount (.maxStreams .bidi)
  | 0x13 => readStreamCount (.maxStreams .uni)
  | 0x14 => do
      let limit ← Varint.read
      pure (.dataBlocked limit)
  | 0x15 => do
      let id ← Varint.read
      let limit ← Varint.read
      pure (.streamDataBlocked id limit)
  | 0x16 => readStreamCount (.streamsBlocked .bidi)
  | 0x17 => readStreamCount (.streamsBlocked .uni)
  | 0x18 => readNewConnectionId
  | 0x19 => do
      let seq ← Varint.read
      pure (.retireConnectionId seq)
  | 0x1A => do
      let data ← fixed 8 .decode
      pure (.pathChallenge data)
  | 0x1B => do
      let data ← fixed 8 .decode
      pure (.pathResponse data)
  | 0x1C => readConnectionClose t
  | 0x1D => readConnectionClose t
  | 0x1E => pure .handshakeDone
  | 0x30 => do
      let data ← rest
      pure (.datagram data)
  | 0x31 => do
      let length ← Varint.read
      let data ← readBounded length
      pure (.datagram data)
  | _ => fail .decode

def decode (buf : List UInt8) : Except Tls.Error (Frame × Nat) :=
  match buf with
  | [] => .error .decode
  | t :: body => do
      let (frame, left) ← readBody t body
      .ok (frame, buf.length - left.length)

/-- Count the pairs in the encoded ranges.  `none` is the panic on malformed ranges. -/
def countRanges : Nat → List UInt8 → Option Nat
  | _, [] => some 0
  | 0, _ :: _ => none
  | fuel + 1, b :: raw =>
    match (do
      let _ ← Varint.read
      Varint.read : ByteReader Tls.Error Nat) (b :: raw) with
    | .ok (_, raw) => (countRanges fuel raw).map (· + 1)
    | .error _ => none

def encodeEcn (ecn : Option EcnCounts) (out : List UInt8) : List UInt8 :=
  match ecn with
  | some c => Varint.encode c.ce (Varint.encode c.ect1 (Varint.encode c.ect0 out))
  | none => out

/-- Append the frame.  `none` is a panic: malformed ACK ranges, or a connection ID that is too
long. -/
def encode (frame : Frame) (out : List UInt8) : Option (List UInt8) :=
  match frame with
  | .padding n => some (out ++ List.replicate n 0x00)
  | .ping => some (out ++ [0x01])
  | .ack largest ackDelay rangesRaw firstRange ecn => do
      let out := out ++ [if ecn.isSome then 0x03 else 0x02]
      let out := Varint.encode ackDelay (Varint.encode largest out)
      let count ← countRanges rangesRaw.length rangesRaw
      let out := Varint.encode firstRange (Varint.encode count out)
      some (encodeEcn ecn (out ++ rangesRaw))
  | .resetStream id code finalSize =>
    some (Varint.encode finalSize (Varint.encode code (Varint.encode id (out ++ [0x04]))))
  | .stopSending id code => some (Varint.encode code (Varint.encode id (out ++ [0x05])))
  | .crypto offset data =>
    some (Varint.encode data.length (Varint.encode offset (out ++ [0x06])) ++ data)
  | .newToken token => some (Varint.encode token.length (out ++ [0x07]) ++ token)
  | .stream id offset fin data =>
    let t : UInt8 := 0x08
    let t := if offset ≠ 0 then t ||| 0x04 else t
    let t := t ||| 0x02
    let t := if fin then t ||| 0x01 else t
    let out := Varint.encode id (out ++ [t])
    let out := if offset ≠ 0 then Varint.encode offset out else out
    some (Varint.encode data.length out ++ data)
  | .maxData limit => some (Varint.encode limit (out ++ [0x10]))
  | .maxStreamData id limit => some (Varint.encode limit (Varint.encode id (out ++ [0x11])))
  | .maxStreams dir limit =>
    some (Varint.encode limit (out ++ [match dir with
      | .bidi => 0x12
      | .uni => 0x13]))
  | .dataBlocked limit => some (Varint.encode limit (out ++ [0x14]))
  | .streamDataBlocked id limit => some (Varint.encode limit (Varint.encode id (out ++ [0x15])))
  | .streamsBlocked dir limit =>
    some (Varint.encode limit (out ++ [match dir with
      | .bidi => 0x16
      | .uni => 0x17]))
  | .newConnectionId seq retirePriorTo cid resetToken =>
    if 20 < cid.length then none
    else some (Varint.encode retirePriorTo (Varint.encode seq (out ++ [0x18])) ++
      [UInt8.ofNat cid.length] ++ cid ++ resetToken.toList)
  | .retireConnectionId seq => some (Varint.encode seq (out ++ [0x19]))
  | .pathChallenge data => some (out ++ [0x1A] ++ data.toList)
  | .pathResponse data => some (out ++ [0x1B] ++ data.toList)
  | .connectionClose error frameType reason =>
    let out := Varint.encode error (out ++ [if frameType.isSome then 0x1C else 0x1D])
    let out := match frameType with
      | some t => Varint.encode t out
      | none => out
    some (Varint.encode reason.length out ++ reason)
  | .handshakeDone => some (out ++ [0x1E])
  | .datagram data => some (Varint.encode data.length (out ++ [0x31]) ++ data)
end Frame
/-- An iterator over the frames packed end-to-end into a payload. -/
structure FrameIter where
  buf : List UInt8

/-- The next frame; after an error the iterator is at its end. -/
def FrameIter.next (it : FrameIter) : Option (Except Tls.Error Frame) × FrameIter :=
  match it.buf with
  | [] => (none, it)
  | b :: buf =>
    match Frame.decode (b :: buf) with
    | .ok (frame, n) => (some (.ok frame), ⟨(b :: buf).drop n⟩)
    | .error e => (some (.error e), ⟨[]⟩)
end PureCrypto.Quic
