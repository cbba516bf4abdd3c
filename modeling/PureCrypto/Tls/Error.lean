import Mathlib.Data.Nat.Notation

/-!
# Errors and alerts of the TLS stack

`tls/error.rs`: the alerts, and the variants of `tls::Error` that the modelled functions return.  The QUIC and DTLS
codecs report through the same type.
-/
namespace PureCrypto.Tls
inductive Error
  | decode
  | unexpectedMessage
  | badRecordMac
  | unsupportedVersion
  | peerMisbehaved
  | recordOverflow
  | tooManyRecords
  | badCertificate
  | unknownIssuer
  | certificateExpired
  | certificateRevoked
  | illegalParameter
  | echDecodeError
deriving DecidableEq, Repr

inductive AlertDescription
  | closeNotify
  | unexpectedMessage
  | badRecordMac
  | recordOverflow
  | handshakeFailure
  | badCertificate
  | unsupportedCertificate
  | certificateExpired
  | certificateUnknown
  | illegalParameter
  | decodeError
  | decryptError
  | protocolVersion
  | internalError
  | missingExtension
  | unsupportedExtension
  | unrecognizedName
  | noApplicationProtocol
  | certificateRequired
  | userCanceled
  | noRenegotiation
  | unknown (code : UInt8)
deriving DecidableEq, Repr
namespace AlertDescription
/-- The named descriptions with their codes. -/
def codes : List (AlertDescription × UInt8) :=
  [(closeNotify, 0), (unexpectedMessage, 10), (badRecordMac, 20), (recordOverflow, 22),
    (handshakeFailure, 40), (badCertificate, 42), (unsupportedCertificate, 43),
    (certificateExpired, 45), (certificateUnknown, 46), (illegalParameter, 47), (decodeError, 50),
    (decryptError, 51), (protocolVersion, 70), (internalError, 80), (missingExtension, 109),
    (unsupportedExtension, 110), (unrecognizedName, 112), (noApplicationProtocol, 120),
    (certificateRequired, 116), (userCanceled, 90), (noRenegotiation, 100)]

def asU8 : AlertDescription → UInt8
  | unknown code => code
  | d => ((codes.find? fun e => e.1 == d).map Prod.snd).getD 0
def fromU8 (code : UInt8) : AlertDescription :=
  ((codes.find? fun e => e.2 == code).map Prod.fst).getD (unknown code)

/-- The description as its code reads: `unknown` with the code of a named one is that one. -/
def received : AlertDescription → AlertDescription
  | unknown code => fromU8 code
  | d => d

theorem fromU8_asU8 (d : AlertDescription) : fromU8 d.asU8 = d.received := by cases d <;> rfl
end AlertDescription
structure Alert where
  fatal : Bool
  description : AlertDescription
deriving DecidableEq, Repr
end PureCrypto.Tls
