import PureCrypto.Framework.ByteReader
import PureCrypto.Framework.LittleEndian
import PureCrypto.Ct
import PureCrypto.Tls.Record

/-!
# Record protection

`tls/crypto/aead.rs`: the per-record nonce, the protection of one record and its removal, with the
masked search for the content type behind the padding.

The AEAD is a parameter.  It works in place, so sealing keeps the length.
-/
namespace PureCrypto.Tls
open LittleEndian
open ByteReader (FixedBytes)
structure Aead where
  encrypt : FixedBytes 12 → List UInt8 → List UInt8 → List UInt8 × FixedBytes 16
  /-- `none` is a rejected record; the buffer is then left as it was. -/
  decrypt : FixedBytes 12 → List UInt8 → List UInt8 → FixedBytes 16 → Option (List UInt8)
  length_encrypt : ∀ nonce aad buf, (encrypt nonce aad buf).1.length = buf.length

/-- The AEAD that leaves the text as it is and accepts the zero tag only. -/
def Aead.null : Aead where
  encrypt _ _ buf := (buf, ⟨List.replicate 16 0, rfl⟩)
  decrypt _ _ buf tag := if tag.toList = List.replicate 16 0 then some buf else none
  length_encrypt _ _ _ := rfl

def maxRecordsPerKey : Nat := 2 ^ 23
def maxReadSeq : Nat := 2 ^ 64 - 1
def aeadTagLen : Nat := 16

structure RecordCrypter where
  aead : Aead
  iv : FixedBytes 12
  seq : Nat
section LastNonzero
def low7 : BitVec 64 := 0x7f7f7f7f7f7f7f7f#64

def high : BitVec 64 := 0x8080808080808080#64
def words : Nat := 4
def block : Nat := words * 8
def fromLeBytes (bytes : List UInt8) : BitVec 64 := BitVec.ofNat 64 (leNat bytes)
def blockWords (chunk : List UInt8) : List (BitVec 64) :=
  (List.range words).map fun i => fromLeBytes ((chunk.drop (i * 8)).take 8)

/-- The last block with a nonzero byte, its index, and whether there was one. -/
structure BlockScan where
  lastB : List (BitVec 64)
  lastBi : BitVec 64
  foundAny : Bool

def BlockScan.step (s : BlockScan) (bi : Nat) (chunk : List UInt8) : BlockScan :=
  let w := blockWords chunk
  let blockNz := Ct.nonzero (w.foldl (· ||| ·) 0#64)
  let mask := Ct.mask 64 blockNz
  { lastB := List.zipWith (fun saved word => saved ^^^ (mask &&& (word ^^^ saved))) s.lastB w
    lastBi := s.lastBi ^^^ (mask &&& (BitVec.ofNat 64 bi ^^^ s.lastBi))
    foundAny := s.foundAny || blockNz }

/-- The scan of the first `n` whole blocks. -/
def scanBlocks (buf : List UInt8) (n : Nat) : BlockScan :=
  (List.range n).foldl (fun s bi => s.step bi ((buf.drop (bi * block)).take block))
    ⟨List.replicate words 0#64, 0#64, false⟩

/-- The top bit of each byte says whether that byte of `w` is nonzero. -/
def byteFlags (w : BitVec 64) : BitVec 64 := (((w &&& low7) + low7) ||| w) &&& high

/-- The last word with a nonzero byte, its flags and its index. -/
structure WordScan where
  lastW : BitVec 64
  lastF : BitVec 64
  lastWi : BitVec 64

def WordScan.step (s : WordScan) (wi : Nat) (w : BitVec 64) : WordScan :=
  let f := byteFlags w
  let wordNz := Ct.nonzero f
  { lastW := Ct.conditionalSelect w s.lastW wordNz
    lastF := Ct.conditionalSelect f s.lastF wordNz
    lastWi := Ct.conditionalSelect (BitVec.ofNat 64 wi) s.lastWi wordNz }

def scanWords (ws : List (BitVec 64)) : WordScan :=
  ws.zipIdx.foldl (fun s e => s.step e.2 e.1) ⟨0#64, 0#64, 0#64⟩

/-- A word narrowed to the part that has its highest flagged byte. -/
structure Narrowed where
  v : BitVec 64
  f : BitVec 64
  pos : Nat

def Narrowed.step (s : Narrowed) (shift : Nat) : Narrowed :=
  let lowMask := (1#64 <<< shift) - 1#64
  let up := Ct.nonzero (s.f >>> shift)
  { v := Ct.conditionalSelect (s.v >>> shift) (s.v &&& lowMask) up
    f := Ct.conditionalSelect (s.f >>> shift) (s.f &&& lowMask) up
    pos := s.pos + shift / 8 * up.toNat }

/-- The candidate, its byte and one past its index, and whether there is one. -/
structure Candidate where
  curByte : BitVec 8
  curEnd : BitVec 64
  foundAny : Bool

def Candidate.step (s : Candidate) (idx : Nat) (b : UInt8) : Candidate :=
  -- `!b.ct_eq(&0u8)`: the top bit of `b | -b`
  let nonzero := Ct.nonzero b.toBitVec
  { curByte := Ct.conditionalSelect b.toBitVec s.curByte nonzero
    curEnd := Ct.conditionalSelect (BitVec.ofNat 64 (idx + 1)) s.curEnd nonzero
    foundAny := s.foundAny || nonzero }

/-- The candidate among the whole blocks. -/
def scanPrefix (buf : List UInt8) : Candidate :=
  let s := scanBlocks buf (buf.length / block)
  let w := scanWords s.lastB
  let n := [32, 16, 8].foldl Narrowed.step ⟨w.lastW, w.lastF, 0⟩
  { curByte := n.v.setWidth 8
    curEnd := BitVec.ofNat 64 (s.lastBi.toNat * block + w.lastWi.toNat * 8 + n.pos + 1)
    foundAny := s.foundAny }

/-- The last nonzero byte and its index. -/
def ctFindLastNonzero (buf : List UInt8) : Except Error (UInt8 × Nat) :=
  if buf.isEmpty then .error .peerMisbehaved
  else
    let base := buf.length / block * block
    let tail := buf.drop base
    let s := tail.zipIdx.foldl (fun s e => s.step (base + e.2) e.1) (scanPrefix buf)
    if s.foundAny then .ok (⟨s.curByte⟩, s.curEnd.toNat - 1) else .error .peerMisbehaved
end LastNonzero
def seqBytes (seq : Nat) : List UInt8 :=
  (List.range 8).reverse.map fun i => UInt8.ofNat (seq >>> (8 * i))

/-- The header of a protected record, which is also its additional data. -/
def protectedHeader (fragmentLen : Nat) : List UInt8 :=
  [ContentType.applicationData.asU8, 0x03, 0x03] ++ putU16 fragmentLen
namespace RecordCrypter
/-- The static IV with the sequence number exclusive-ored into its last eight bytes. -/
def nonceFor (iv : FixedBytes 12) (seq : Nat) : FixedBytes 12 where
  toList := iv.toList.take 4 ++ List.zipWith (· ^^^ ·) (iv.toList.drop 4) (seqBytes seq)
  length_eq := by
    simp [iv.length_eq, seqBytes]

def peekNonce (c : RecordCrypter) (cap : Nat) : Except Error (FixedBytes 12) :=
  if cap ≤ c.seq then .error .tooManyRecords else .ok (nonceFor c.iv c.seq)

/-- Append one protected record to `out`.  On an error nothing is appended. -/
def encryptInto (c : RecordCrypter) (contentType : ContentType) (content out : List UInt8) :
    Except Error (List UInt8 × RecordCrypter) :=
  if 2 ^ 14 < content.length then .error .recordOverflow
  else
    let fragmentLen := content.length + 1 + aeadTagLen
    let header := protectedHeader fragmentLen
    match c.peekNonce maxRecordsPerKey with
    | .error e => .error e
    | .ok nonce =>
      let (sealed, tag) := c.aead.encrypt nonce header (content ++ [contentType.asU8])
      .ok (out ++ header ++ sealed ++ tag.toList, { c with seq := c.seq + 1 })

/-- The result, the fragment as it is left, and the crypter. -/
def decryptInPlace (c : RecordCrypter) (header fragment : List UInt8) :
    Except Error (ContentType × Nat) × List UInt8 × RecordCrypter :=
  if h : fragment.length < aeadTagLen then (.error .decode, fragment, c)
  else
    let tagAt := fragment.length - aeadTagLen
    let buf := fragment.take tagAt
    let tag : FixedBytes 16 := ⟨fragment.drop tagAt, by
      rw [List.length_drop]
      unfold tagAt aeadTagLen at *
      omega⟩
    match c.peekNonce maxReadSeq with
    | .error e => (.error e, fragment, c)
    | .ok nonce =>
      match c.aead.decrypt nonce header buf tag with
      | none => (.error .badRecordMac, fragment, c)
      | some plain =>
        let c := { c with seq := c.seq + 1 }
        let result := match ctFindLastNonzero plain with
          | .error e => .error e
          | .ok (code, stop) =>
            if 2 ^ 14 < stop then .error .recordOverflow else .ok (.fromU8 code, stop)
        (result, plain ++ tag.toList, c)
end RecordCrypter
end PureCrypto.Tls
