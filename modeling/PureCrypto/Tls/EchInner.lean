import PureCrypto.Tls.Error
import Mathlib.Data.List.Basic

/-!
# Compression of the inner ClientHello's extensions

`tls::ech::inner`: a contiguous block of inner extensions is replaced by one `ech_outer_extensions` entry
that names them, and rebuilt from the outer extensions.
-/
namespace PureCrypto.Tls.Ech
structure ExtensionType where
  code : UInt16
deriving DecidableEq

abbrev RawExtension := ExtensionType × List UInt8

def encryptedClientHello : ExtensionType := ⟨0xfe0d⟩
def echOuterExtensions : ExtensionType := ⟨0xfd00⟩
def reserved (t : ExtensionType) : Bool := decide (t = echOuterExtensions ∨ t = encryptedClientHello)
def toBeBytes (t : ExtensionType) : List UInt8 := [(t.code >>> 8).toUInt8, t.code.toUInt8]
def fromBeBytes (high low : UInt8) : ExtensionType := ⟨high.toUInt16 <<< 8 ||| low.toUInt16⟩

/-- The length is cast to a byte. -/
def encodeOuterExtensions (types : List ExtensionType) : List UInt8 :=
  UInt8.ofNat (types.length * 2) :: types.flatMap toBeBytes

/-- `chunks_exact(2)`. -/
def readTypes : List UInt8 → List ExtensionType
  | high :: low :: rest => fromBeBytes high low :: readTypes rest
  | _ => []

def decodeOuterExtensions (body : List UInt8) : Except Error (List ExtensionType) :=
  match body with
  | [] => .error .echDecodeError
  | listLen :: rest =>
    if listLen.toNat < 2 ∨ ¬listLen.toNat % 2 = 0 ∨ 1 + listLen.toNat ≠ body.length then .error .echDecodeError
    else .ok (readTypes rest)

/-- `seen` is `types[..i]`. -/
def validateLoop (seen : List ExtensionType) : List ExtensionType → Except Error Unit
  | [] => .ok ()
  | t :: types =>
    if reserved t then .error .echDecodeError
    else if t ∈ seen then .error .echDecodeError
    else validateLoop (seen ++ [t]) types

def validateShareTypes (types : List ExtensionType) : Except Error Unit := validateLoop [] types

/-- Whether the types from `start` on are those of the needle. -/
def matchesAt (haystack : List RawExtension) (needle : List ExtensionType) (start : Nat) : Bool :=
  (List.range needle.length).all fun i => haystack[start + i]?.map Prod.fst == needle[i]?

def findSubsequence (haystack : List RawExtension) (needle : List ExtensionType) : Option Nat :=
  if needle.isEmpty ∨ haystack.length < needle.length then none
  else (List.range (haystack.length - needle.length + 1)).find? (matchesAt haystack needle)

/-- The first entry of type `t` at or after `start`. -/
def positionFrom (outer : List RawExtension) (t : ExtensionType) (start : Nat) : Option Nat :=
  ((outer.drop start).findIdx? fun e => decide (e.1 = t)).map (start + ·)

def nextStart (last : Option Nat) : Nat := (last.map (· + 1)).getD 0

def resolveLoop (outer : List RawExtension) (last : Option Nat) (positions : List Nat) :
    List ExtensionType → Except Error (List Nat)
  | [] => .ok positions
  | t :: types =>
    match positionFrom outer t (nextStart last) with
    | none => .error .echDecodeError
    | some pos =>
      if reserved t then .error .echDecodeError
      else resolveLoop outer (some pos) (positions ++ [pos]) types

def resolveOuterPositions (outer : List RawExtension) (types : List ExtensionType) : Except Error (List Nat) :=
  resolveLoop outer none [] types

def compressExtensions (canonicalInner outer : List RawExtension) (shareTypes : List ExtensionType) :
    Except Error (List RawExtension) :=
  if shareTypes.isEmpty then .ok canonicalInner
  else do
    validateShareTypes shareTypes
    match findSubsequence canonicalInner shareTypes with
    | none => .error .echDecodeError
    | some innerStart =>
      if (findSubsequence outer shareTypes).isNone then .error .echDecodeError
      else .ok (canonicalInner.take innerStart ++
        (echOuterExtensions, encodeOuterExtensions shareTypes) :: canonicalInner.drop (innerStart + shareTypes.length))

def expand (outer : List RawExtension) (body : List UInt8) : Except Error (List RawExtension) := do
  let types ← decodeOuterExtensions body
  validateShareTypes types
  let positions ← resolveOuterPositions outer types
  return positions.filterMap fun pos => outer[pos]?

def decompressLoop (outer : List RawExtension) (seenPlaceholder : Bool) (out : List RawExtension) :
    List RawExtension → Except Error (List RawExtension)
  | [] => .ok out
  | (ty, body) :: rest =>
    if ty ≠ echOuterExtensions then decompressLoop outer seenPlaceholder (out ++ [(ty, body)]) rest
    else if seenPlaceholder then .error .echDecodeError
    else do
      let block ← expand outer body
      decompressLoop outer true (out ++ block) rest

def decompressExtensions (compressedInner outer : List RawExtension) : Except Error (List RawExtension) :=
  decompressLoop outer false [] compressedInner

/-- Where an inner extension stands in the outer list, type and body. -/
def matchPosition (outer : List RawExtension) (e : RawExtension) : Option Nat :=
  if reserved e.1 then none else outer.findIdx? fun o => decide (o.1 = e.1 ∧ o.2 = e.2)

/-- The position at `k` is one, and after the one before. -/
def follows (pos : List (Option Nat)) (k : Nat) : Bool :=
  match pos[k - 1]?.join, pos[k]?.join with
  | some p, some q => decide (q > p)
  | _, _ => false

def runEnd (pos : List (Option Nat)) (k : Nat) : Nat :=
  if k < pos.length ∧ follows pos k = true then runEnd pos (k + 1) else k
termination_by pos.length - k

theorem le_runEnd (pos : List (Option Nat)) (k : Nat) : k ≤ runEnd pos k := by
  fun_induction runEnd pos k with
  | case1 k h ih => omega
  | case2 k h => exact Nat.le_refl k

def blockLoop (pos : List (Option Nat)) (k bestStart bestLen : Nat) : Nat × Nat :=
  if k < pos.length then
    if pos[k]?.join.isNone then blockLoop pos (k + 1) bestStart bestLen
    else if runEnd pos (k + 1) - k > bestLen then blockLoop pos (runEnd pos (k + 1)) k (runEnd pos (k + 1) - k)
    else blockLoop pos (runEnd pos (k + 1)) bestStart bestLen
  else (bestStart, bestLen)
termination_by pos.length - k
decreasing_by
  all_goals have := le_runEnd pos (k + 1); omega

def longestSharedBlock (inner outer : List RawExtension) : List ExtensionType :=
  let best := blockLoop (inner.map (matchPosition outer)) 0 0 0
  if best.2 = 0 then [] else ((inner.drop best.1).take best.2).map Prod.fst
end PureCrypto.Tls.Ech
