import PureCrypto.Framework.Blocks
import PureCrypto.Framework.ByteArrays

/-!
# Chunked encryption

`chunked/mod.rs`: a message is sealed in chunks of 16 KiB, the last one shorter, under a key, a base
nonce and a commitment that HKDF-Expand derives.  `out` is passed along, so that what a failing call
has already appended is seen.
-/
namespace PureCrypto.Chunked
open Blocks ByteArrays
open List (length_drop length_nil)
def chunkSize : Nat := 16384

def tagLen : Nat := 16
def nonceLen : Nat := 12
def encryptedChunkLen : Nat := chunkSize + tagLen
def saltLen : Nat := 24
def commitmentLen : Nat := 32
def headerLen : Nat := saltLen + commitmentLen
def maxChunks : Nat := 2 ^ 38
theorem chunkSize_pos : 0 < chunkSize := by decide
theorem encryptedChunkLen_pos : 0 < encryptedChunkLen := Nat.add_pos_left chunkSize_pos tagLen

inductive Error
  | invalidKeyLength
  | truncated
  | commitmentMismatch
  | tagMismatch
  | tooManyChunks
  | trailingData
  | invalidChunkLength
deriving DecidableEq, Repr

/-- A keyed AEAD with no associated data, in place on the message. -/
structure Aead where
  encrypt : Vector UInt8 nonceLen → List UInt8 → List UInt8 × Vector UInt8 tagLen
  decrypt : Vector UInt8 nonceLen → List UInt8 → Vector UInt8 tagLen → Option (List UInt8)
  length_encrypt : ∀ nonce m, (encrypt nonce m).1.length = m.length
  decrypt_encrypt : ∀ nonce m, decrypt nonce (encrypt nonce m).1 (encrypt nonce m).2 = some m

structure Instantiation where
  keyLen : Nat
  aeadName : List UInt8
  cipher : List UInt8 → Aead

/-- The prefix `c2sp.org/chunked-encryption@v1+`. -/
def infoPrefix : List UInt8 :=
  [0x63, 0x32, 0x73, 0x70, 0x2e, 0x6f, 0x72, 0x67, 0x2f, 0x63, 0x68, 0x75, 0x6e, 0x6b, 0x65, 0x64,
    0x2d, 0x65, 0x6e, 0x63, 0x72, 0x79, 0x70, 0x74, 0x69, 0x6f, 0x6e, 0x40, 0x76, 0x31, 0x2b]
section KeyDerivation
variable (hmacSha512 : List UInt8 → List UInt8 → Vector UInt8 64)
def hkdfBlocks (prk info : List UInt8) : Nat → UInt8 → Vector UInt8 64 → List UInt8
  | 0, _, _ => []
  | n + 1, counter, prev =>
    let counter := counter + 1
    let prev := hmacSha512 prk ((if counter > 1 then prev.toList else []) ++ info ++ [counter])
    prev.toList ++ hkdfBlocks prk info n counter prev

def hkdfExpandSha512 (prk : List UInt8) (info : List (List UInt8)) (len : Nat) : List UInt8 :=
  (hkdfBlocks hmacSha512 prk info.flatten ((len + 63) / 64) 0 (Vector.replicate 64 0)).take len
end KeyDerivation
structure RawCipher where
  aead : Aead
  baseNonce : Vector UInt8 nonceLen
namespace RawCipher
/-- The base nonce with the big-endian index added into its last eight bytes. -/
def nonce (c : RawCipher) (index : Nat) : Except Error (Vector UInt8 nonceLen) :=
  if maxChunks ≤ index then .error .tooManyChunks
  else .ok (Vector.ofFn fun k =>
    if k < nonceLen - 8 then c.baseNonce[k]
    else c.baseNonce[k] ^^^ UInt8.ofNat (index >>> (8 * (nonceLen - 1 - k))))

def sealChunk (c : RawCipher) (index : Nat) (plaintext : List UInt8) : Except Error (List UInt8) := do
  if chunkSize < plaintext.length then throw .invalidChunkLength
  let nonce ← c.nonce index
  let (body, tag) := c.aead.encrypt nonce plaintext
  return body ++ tag.toList

def openChunk (c : RawCipher) (index : Nat) (chunk : List UInt8) : Except Error (List UInt8) := do
  if chunk.length < tagLen then throw .truncated
  if encryptedChunkLen < chunk.length then throw .invalidChunkLength
  let nonce ← c.nonce index
  let body := chunk.take (chunk.length - tagLen)
  let tag := arrayAt tagLen chunk (chunk.length - tagLen)
  match c.aead.decrypt nonce body tag with
  | some plaintext => return plaintext
  | none => throw .tagMismatch

def append (out : List UInt8) : Except Error (List UInt8) → List UInt8 × Except Error Unit
  | .ok x => (out ++ x, .ok ())
  | .error e => (out, .error e)

def «seal» (c : RawCipher) (msg out : List UInt8) : List UInt8 × Except Error Unit :=
  let full := msg.length / chunkSize
  match feed c.sealChunk 0 (blocks chunkSize full msg) out with
  | (index, out, .ok ()) => append out (c.sealChunk index (msg.drop (chunkSize * full)))
  | (_, out, .error e) => (out, .error e)

/-- The last chunk may be short. -/
def «open» (c : RawCipher) (ct out : List UInt8) : List UInt8 × Except Error Unit :=
  if ct.length % encryptedChunkLen < tagLen then (out, .error .truncated)
  else
    let chunks := (ct.length + encryptedChunkLen - 1) / encryptedChunkLen
    (feed c.openChunk 0 (blocks encryptedChunkLen chunks ct) out).2
end RawCipher
section Header
variable (hmacSha512 : List UInt8 → List UInt8 → Vector UInt8 64) (inst : Instantiation)
def derive (inputKey ctx : List UInt8) (salt : Vector UInt8 saltLen) :
    Except Error (RawCipher × Vector UInt8 commitmentLen) :=
  if inputKey.length ≠ inst.keyLen then .error .invalidKeyLength
  else
    let n := inst.keyLen + nonceLen + commitmentLen
    let okm := hkdfExpandSha512 hmacSha512 inputKey [infoPrefix, inst.aeadName, [0], salt.toList, ctx] n
    .ok (⟨inst.cipher (okm.take inst.keyLen), arrayAt nonceLen okm inst.keyLen⟩,
      arrayAt commitmentLen okm (inst.keyLen + nonceLen))

def header (key ctx : List UInt8) (salt : Vector UInt8 saltLen) :
    Except Error (RawCipher × Vector UInt8 headerLen) := do
  let (cipher, commitment) ← derive hmacSha512 inst key ctx salt
  return (cipher, salt ++ commitment)

def openHeader (key ctx : List UInt8) (header : Vector UInt8 headerLen) : Except Error RawCipher := do
  let salt := arrayAt saltLen header.toList 0
  let (cipher, commitment) ← derive hmacSha512 inst key ctx salt
  if commitment.toList ≠ header.toList.drop saltLen then throw .commitmentMismatch
  return cipher

def encryptWithSalt (key ctx msg : List UInt8) (salt : Vector UInt8 saltLen) :
    Except Error (List UInt8) := do
  let (cipher, hdr) ← header hmacSha512 inst key ctx salt
  let (out, res) := cipher.«seal» msg hdr.toList
  res
  return out

def decrypt (key ctx ct : List UInt8) : Except Error (List UInt8) := do
  if key.length ≠ inst.keyLen then throw .invalidKeyLength
  if ct.length < headerLen then throw .truncated
  let cipher ← openHeader hmacSha512 inst key ctx (arrayAt headerLen ct 0)
  let (out, res) := cipher.«open» (ct.drop headerLen) []
  res
  return out
end Header
/-- The buffer is full only after a call that failed to seal it. -/
structure Encryptor where
  cipher : RawCipher
  header : Vector UInt8 headerLen
  buf : List UInt8
  index : Nat
  length_le : buf.length ≤ chunkSize
namespace Encryptor
def withSalt (hmacSha512 : List UInt8 → List UInt8 → Vector UInt8 64) (inst : Instantiation)
    (key ctx : List UInt8) (salt : Vector UInt8 saltLen) : Except Error Encryptor := do
  let (cipher, header) ← Chunked.header hmacSha512 inst key ctx salt
  return ⟨cipher, header, [], 0, Nat.zero_le _⟩

def push (e : Encryptor) (data out : List UInt8) : Encryptor × List UInt8 × Except Error Unit :=
  let room := chunkSize - e.buf.length
  if h : data.length < room then
    ({ e with buf := e.buf ++ data, length_le := by simp; omega }, out, .ok ())
  else if hempty : e.buf.isEmpty then
    match e.cipher.sealChunk e.index (data.take chunkSize) with
    | .error err => (e, out, .error err)
    | .ok x => push { e with index := e.index + 1 } (data.drop chunkSize) (out ++ x)
  else
    let buf := e.buf ++ data.take room
    match e.cipher.sealChunk e.index buf with
    | .error err => ({ e with buf := buf, length_le := by have := e.length_le; simp [buf]; omega }, out, .error err)
    | .ok x => push { e with buf := [], index := e.index + 1, length_le := Nat.zero_le _ } (data.drop room) (out ++ x)
termination_by data.length + e.buf.length
decreasing_by
  · have hpos := chunkSize_pos
    have hnil : e.buf = [] := by simpa using hempty
    simp only [room, hnil, length_nil, Nat.sub_zero] at h
    simp only [length_drop, hnil, length_nil]
    omega
  · have hpos : 0 < e.buf.length := List.length_pos_iff.mpr (by simpa using hempty)
    simp only [length_drop, length_nil]
    omega

def finish (e : Encryptor) (out : List UInt8) : List UInt8 × Except Error Unit :=
  RawCipher.append out (e.cipher.sealChunk e.index e.buf)

def stream (e : Encryptor) : List (List UInt8) → List UInt8 → List UInt8 × Except Error Unit
  | [], out => e.finish out
  | p :: ps, out =>
    match e.push p out with
    | (e, out, .ok ()) => e.stream ps out
    | (_, out, .error err) => (out, .error err)
end Encryptor
inductive State
  | «open»
  | done
  | failed (e : Error)
deriving DecidableEq, Repr

structure Decryptor where
  cipher : RawCipher
  buf : List UInt8
  index : Nat
  state : State
  length_le : buf.length ≤ encryptedChunkLen
namespace Decryptor
def fromRaw (cipher : RawCipher) : Decryptor := ⟨cipher, [], 0, .open, Nat.zero_le _⟩

def new (hmacSha512 : List UInt8 → List UInt8 → Vector UInt8 64) (inst : Instantiation)
    (key ctx : List UInt8) (header : Vector UInt8 headerLen) : Except Error Decryptor := do
  return fromRaw (← openHeader hmacSha512 inst key ctx header)
def fail (d : Decryptor) (e : Error) : Decryptor :=
  { d with state := .failed e, buf := [], length_le := Nat.zero_le _ }
def cleared (d : Decryptor) : Decryptor := { d with buf := [], length_le := Nat.zero_le _ }

def pushLoop (d : Decryptor) (data out : List UInt8) : Decryptor × List UInt8 × Except Error Unit :=
  let room := encryptedChunkLen - d.buf.length
  if h : data.length ≤ room then
    ({ d with buf := d.buf ++ data, length_le := by have := d.length_le; simp; omega }, out, .ok ())
  else if hempty : d.buf.isEmpty then
    match d.cipher.openChunk d.index (data.take encryptedChunkLen) with
    | .error e => (d.fail e, out, .error e)
    | .ok x => pushLoop { d with index := d.index + 1 } (data.drop encryptedChunkLen) (out ++ x)
  else
    match d.cipher.openChunk d.index (d.buf ++ data.take room) with
    | .error e => (d.cleared.fail e, out, .error e)
    | .ok x => pushLoop { d.cleared with index := d.index + 1 } (data.drop room) (out ++ x)
termination_by data.length + d.buf.length
decreasing_by
  · have hpos := encryptedChunkLen_pos
    have hnil : d.buf = [] := by simpa using hempty
    simp only [room, hnil, length_nil, Nat.sub_zero] at h
    simp only [length_drop, hnil, length_nil]
    omega
  · have hpos : 0 < d.buf.length := List.length_pos_iff.mpr (by simpa using hempty)
    simp only [cleared, length_drop, length_nil]
    omega

def push (d : Decryptor) (ct out : List UInt8) : Decryptor × List UInt8 × Except Error Unit :=
  match d.state with
  | .open => d.pushLoop ct out
  | .failed e => (d, out, .error e)
  | .done => if ct.isEmpty then (d, out, .ok ()) else (d.fail .trailingData, out, .error .trailingData)

def finish (d : Decryptor) (out : List UInt8) : Decryptor × List UInt8 × Except Error Unit :=
  match d.state with
  | .open =>
    if d.buf.length < tagLen ∨ d.buf.length = encryptedChunkLen then
      (d.fail .truncated, out, .error .truncated)
    else
      match d.cipher.openChunk d.index d.buf with
      | .ok x => ({ d.cleared with state := .done }, out ++ x, .ok ())
      | .error e => (d.cleared.fail e, out, .error e)
  | .failed e => (d, out, .error e)
  | .done => (d, out, .ok ())
end Decryptor
end PureCrypto.Chunked
