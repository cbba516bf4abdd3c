import PureCrypto.Tls.RecordCrypter

/-!
# The connection core

The record layer of `tls/conn/common.rs`: the receive buffer with its cursor, in-place deprotection,
handshake reassembly and the framing of what is sent.  The transcript hash and the `KeyUpdate`
bookkeeping, which the record layer never reads, are left out.
-/
namespace PureCrypto.Tls
/-- A decoded inbound message. -/
inductive Incoming
  | handshake (message : List UInt8)
  | applicationData (len : Nat)
  | alert (alert : Alert)
deriving DecidableEq, Repr

def parseAlert : List UInt8 → Except Error Incoming
  | [level, code] => .ok (.alert ⟨level == 2, .fromU8 code⟩)
  | _ => .error .decode
def maxHandshakeReassembly : Nat := 128 * 1024

structure ConnectionCore where
  inbuf : List UInt8
  inOff : Nat
  outbuf : List UInt8
  hsPending : List UInt8
  appIn : List UInt8
  earlyIn : List UInt8
  earlyDataRouting : Bool
  read : Option RecordCrypter
  write : Option RecordCrypter
  sentCloseNotify : Bool
  ccsWindowOpen : Bool
  peerRecordSizeLimit : Option Nat
  inboundRecordSizeLimit : Option Nat
  appDataAllowed : Bool
  writeError : Option Error
  skipEarlyData : Option Nat
namespace ConnectionCore
def new : ConnectionCore where
  inbuf := []
  inOff := 0
  outbuf := []
  hsPending := []
  appIn := []
  earlyIn := []
  earlyDataRouting := false
  read := none
  write := none
  sentCloseNotify := false
  ccsWindowOpen := true
  peerRecordSizeLimit := none
  inboundRecordSizeLimit := none
  appDataAllowed := false
  writeError := none
  skipEarlyData := none

def setAppDataAllowed (c : ConnectionCore) (allowed : Bool) : ConnectionCore :=
  { c with appDataAllowed := allowed }
def beginSkipEarlyData (c : ConnectionCore) (budget : Nat) : ConnectionCore :=
  { c with skipEarlyData := some budget }
def setPeerRecordSizeLimit (c : ConnectionCore) (limit : Nat) : ConnectionCore :=
  { c with peerRecordSizeLimit := some limit }
def setInboundRecordSizeLimit (c : ConnectionCore) (limit : Nat) : ConnectionCore :=
  { c with inboundRecordSizeLimit := some limit }
def setCcsWindowOpen (c : ConnectionCore) («open» : Bool) : ConnectionCore :=
  { c with ccsWindowOpen := «open» }
def setEarlyDataRouting (c : ConnectionCore) (enabled : Bool) : ConnectionCore :=
  { c with earlyDataRouting := enabled }

/-- Install a read key, unless a handshake message is only partly received. -/
def setRead (c : ConnectionCore) (crypter : RecordCrypter) : Except Error Unit × ConnectionCore :=
  if !c.hsPending.isEmpty then (.error .unexpectedMessage, c)
  else (.ok (), { c with read := some crypter })

def setWrite (c : ConnectionCore) (crypter : RecordCrypter) : ConnectionCore :=
  { c with write := some crypter }

/-- Add received bytes; what was consumed before is dropped first. -/
def readTls (c : ConnectionCore) (bytes : List UInt8) : ConnectionCore :=
  { c with
    inbuf := c.inbuf.drop c.inOff ++ bytes
    inOff := 0 }

def writeTls (c : ConnectionCore) : List UInt8 × ConnectionCore :=
  (c.outbuf, { c with outbuf := [] })
def takeReceived (c : ConnectionCore) : List UInt8 × ConnectionCore :=
  (c.appIn, { c with appIn := [] })

def appendHandshakeBytes (c : ConnectionCore) (bytes : List UInt8) :
    Except Error Unit × ConnectionCore :=
  if maxHandshakeReassembly < c.hsPending.length + bytes.length then (.error .recordOverflow, c)
  else (.ok (), { c with hsPending := c.hsPending ++ bytes })

def popHandshake (c : ConnectionCore) : Option (List UInt8 × ConnectionCore) :=
  match c.hsPending with
  | _ :: a :: b :: d :: rest =>
    let total := 4 + ((a.toNat <<< 16) ||| (b.toNat <<< 8) ||| d.toNat)
    if rest.length + 4 < total then none
    else some (c.hsPending.take total, { c with hsPending := c.hsPending.drop total })
  | _ => none

def dispatchInner (c : ConnectionCore) (innerCt : ContentType) (content : List UInt8) :
    Except Error (Option Incoming) × ConnectionCore :=
  if !c.hsPending.isEmpty && innerCt != .handshake then (.error .unexpectedMessage, c)
  else
    match innerCt with
    | .handshake =>
      if content.isEmpty then (.error .unexpectedMessage, c)
      else
        match c.appendHandshakeBytes content with
        | (.error e, c) => (.error e, c)
        | (.ok (), c) => (.ok none, c)
    | .applicationData =>
      let c := if c.earlyDataRouting then { c with earlyIn := c.earlyIn ++ content }
        else if c.appDataAllowed then { c with appIn := c.appIn ++ content }
        else c
      (.ok (some (.applicationData content.length)), c)
    | .alert =>
      if content.isEmpty then (.error .unexpectedMessage, c)
      else ((parseAlert content).map some, c)
    | _ => (.error .unexpectedMessage, c)

/-- Discard `fragment` against the budget of the skip window; `e` when it is used up. -/
def skipRecord (c : ConnectionCore) (fragment : List UInt8) (e : Error) :
    Except Error (Option Incoming) × ConnectionCore :=
  let budget := c.skipEarlyData.getD 0
  if fragment.length ≤ budget then
    (.ok none, { c with skipEarlyData := some (budget - fragment.length) })
  else (.error e, { c with skipEarlyData := none })

/-- A protected record; the second component is the fragment as it is left. -/
def processProtected (c : ConnectionCore) (crypter : RecordCrypter) (fragment : List UInt8) :
    Except Error (Option Incoming) × List UInt8 × ConnectionCore :=
  match crypter.decryptInPlace (protectedHeader fragment.length) fragment with
  | (.ok (innerCt, stop), left, crypter) =>
    let c := { c with read := some crypter, skipEarlyData := none }
    if c.inboundRecordSizeLimit.any (fun limit => decide (limit < left.length - aeadTagLen)) then
      (.error .recordOverflow, left, c)
    else
      let (r, c) := c.dispatchInner innerCt (left.take stop)
      (r, left, c)
  | (.error e, left, crypter) =>
    let c := { c with read := some crypter }
    if e = .badRecordMac ∧ c.skipEarlyData.isSome then
      let (r, c) := c.skipRecord left .badRecordMac
      (r, left, c)
    else (.error e, left, c)

/-- Handle one record: `none` when it yields no message. -/
def processRecord (c : ConnectionCore) (contentType : ContentType) (fragment : List UInt8) :
    Except Error (Option Incoming) × List UInt8 × ConnectionCore :=
  match contentType with
  | .changeCipherSpec =>
    if !c.ccsWindowOpen || fragment != [0x01] then (.error .unexpectedMessage, fragment, c)
    else (.ok none, fragment, c)
  | .applicationData =>
    match c.read with
    | some crypter => c.processProtected crypter fragment
    | none =>
      if c.skipEarlyData.isSome then
        let (r, c) := c.skipRecord fragment .unexpectedMessage
        (r, fragment, c)
      else (.error .unexpectedMessage, fragment, c)
  | .handshake =>
    if c.read.isSome then (.error .unexpectedMessage, fragment, c)
    else if fragment.isEmpty then (.error .unexpectedMessage, fragment, c)
    else
      match c.appendHandshakeBytes fragment with
      | (.error e, c) => (.error e, fragment, c)
      | (.ok (), c) => (.ok none, fragment, c)
  | .alert =>
    if c.read.isSome then (.error .unexpectedMessage, fragment, c)
    else ((parseAlert fragment).map some, fragment, c)
  | .unknown _ => (.error .unexpectedMessage, fragment, c)

/-- One round of `nextMessage`: it returns, or goes on to the next record. -/
inductive Turn
  | done (r : Except Error (Option Incoming)) (c : ConnectionCore)
  | again (c : ConnectionCore)

/-- Put the buffer back with the fragment as it was left, and clear it when all of it is consumed. -/
def putBack (c : ConnectionCore) (fragStart fragEnd : Nat) (left : List UInt8) : ConnectionCore :=
  let inbuf := c.inbuf.take fragStart ++ left ++ c.inbuf.drop fragEnd
  if c.inOff = inbuf.length then { c with inbuf := [], inOff := 0 } else { c with inbuf }

def consume (c : ConnectionCore) (record : ParsedRecord) : Turn :=
  let fragStart := c.inOff + 5
  let fragEnd := fragStart + record.fragment.length
  let c := { c with inOff := c.inOff + record.len }
  if !c.hsPending.isEmpty && record.contentType != .handshake &&
      record.contentType != .applicationData then
    .done (.error .unexpectedMessage) c
  else
    match c.processRecord record.contentType record.fragment with
    | (.error e, left, c) => .done (.error e) (c.putBack fragStart fragEnd left)
    | (.ok (some message), left, c) =>
      .done (.ok (some message)) (c.putBack fragStart fragEnd left)
    | (.ok none, left, c) => .again (c.putBack fragStart fragEnd left)

def turn (c : ConnectionCore) : Turn :=
  match c.popHandshake with
  | some (message, c) => .done (.ok (some (.handshake message))) c
  | none =>
    match readRecord (c.inbuf.drop c.inOff) with
    | .error e => .done (.error e) c
    | .ok none => .done (.ok none) c
    | .ok (some record) =>
      if !isLegalRecordVersion record.version then .done (.error .unsupportedVersion) c
      else if record.contentType != .applicationData && decide (2 ^ 14 < record.fragment.length)
        then .done (.error .recordOverflow) c
      else c.consume record

/-- The rounds of `nextMessage`, at most `fuel`. -/
def turns : Nat → ConnectionCore → Except Error (Option Incoming) × ConnectionCore
  | 0, c => (.ok none, c)
  | fuel + 1, c =>
    match c.turn with
    | .done r c => (r, c)
    | .again c => turns fuel c

/-- Every round but the last consumes a record, so the length of the buffer bounds the rounds. -/
def nextMessage (c : ConnectionCore) : Except Error (Option Incoming) × ConnectionCore :=
  turns (c.inbuf.length + 1) c

/-- The most plaintext one outbound record may carry. -/
def outboundFragmentCap (c : ConnectionCore) : Nat :=
  match c.write, c.peerRecordSizeLimit with
  | some _, some limit => min (max (limit - 1) 1) maxPlaintextFragment
  | _, _ => maxPlaintextFragment

def latch (c : ConnectionCore) (e : Error) : ConnectionCore :=
  { c with writeError := some (c.writeError.getD e) }

def emitPlaintextRecord (c : ConnectionCore) (ct : ContentType) (payload : List UInt8) :
    ConnectionCore :=
  match writeRecord c.outbuf ct legacyVersion payload with
  | .ok outbuf => { c with outbuf }
  | .error e => c.latch e

def emitOneRecord (c : ConnectionCore) (ct : ContentType) (payload : List UInt8) : ConnectionCore :=
  match c.write with
  | some crypter =>
    match crypter.encryptInto ct payload c.outbuf with
    | .ok (outbuf, crypter) => { c with outbuf, write := some crypter }
    | .error e => c.latch e
  | none => c.emitPlaintextRecord ct payload

/-- Frame `payload` as one or more records. -/
def emitRecord (c : ConnectionCore) (ct : ContentType) (payload : List UInt8) : ConnectionCore :=
  if payload.length ≤ c.outboundFragmentCap then c.emitOneRecord ct payload
  else (fragments payload c.outboundFragmentCap).foldl (fun c chunk => c.emitOneRecord ct chunk) c

def emitHandshake (c : ConnectionCore) (message : List UInt8) : ConnectionCore :=
  c.emitRecord .handshake message
def sendApplicationData (c : ConnectionCore) (data : List UInt8) : ConnectionCore :=
  c.emitRecord .applicationData data
def sendAlert (c : ConnectionCore) (description : AlertDescription) : ConnectionCore :=
  c.emitRecord .alert [2, description.asU8]

def sendCloseNotify (c : ConnectionCore) : ConnectionCore :=
  if c.sentCloseNotify then c
  else { c with sentCloseNotify := true }.emitRecord .alert [1, AlertDescription.closeNotify.asU8]
end ConnectionCore
end PureCrypto.Tls
