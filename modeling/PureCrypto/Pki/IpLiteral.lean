import PureCrypto.Framework.AsciiText
import PureCrypto.Pki.Certificate

/-!
# IP literals

`parse_ipv4` of `x509/cert.rs`, and `parse_ipv6`, `parse_host_ip` and `looks_like_ip` of
`tls/pki/verify.rs`.  A text is given by its bytes.
-/
namespace PureCrypto.Pki
abbrev dot : UInt8 := 46
abbrev star : UInt8 := 42
abbrev colon : UInt8 := 58

def isDigit (b : UInt8) : Bool := 48 ≤ b && b ≤ 57

/-- One to three digits without a leading zero. -/
def parseOctet (label : Bytes) : Option UInt8 :=
  if label.isEmpty || 3 < label.length || !label.all isDigit ||
      (1 < label.length && label.head? == some 48) then none
  else
    let n := label.foldl (fun acc d => acc * 10 + (d.toNat - 48)) 0
    if 255 < n then none else some (UInt8.ofNat n)

def parseIpv4 (s : Bytes) : Option (Vector UInt8 4) := do
  let out ← (s.splitOn dot).foldlM (fun out label =>
    if 4 ≤ out.length then none else (parseOctet label).map fun n => out ++ [n]) []
  if h : out.length = 4 then some ⟨out.toArray, h⟩ else none

def hexDigit (b : UInt8) : Option Nat :=
  if isDigit b then some (b.toNat - 48)
  else if 97 ≤ b && b ≤ 102 then some (b.toNat - 87)
  else if 65 ≤ b && b ≤ 70 then some (b.toNat - 55)
  else none

/-- `u16::from_str_radix` for radix 16, which takes a leading `+`. -/
def fromStrRadix16 (s : Bytes) : Option UInt16 :=
  let digits := if s.head? == some 43 then s.tail else s
  if digits.isEmpty then none
  else do
    let n ← digits.foldlM (fun acc b => (hexDigit b).map fun d => acc * 16 + d) 0
    if n < 65536 then some (UInt16.ofNat n) else none

def splitDoubleColon : Bytes → Option (Bytes × Bytes)
  | [] => none
  | b :: s =>
    if b = colon ∧ s.head? = some colon then some ([], s.tail)
    else (splitDoubleColon s).map fun p => (b :: p.1, p.2)

def joinOctets (high low : UInt8) : UInt16 := high.toUInt16 <<< 8 ||| low.toUInt16

/-- The groups of one side of `::`; a dotted quad stands for two. -/
def parseGroups (src : Bytes) : Option (List UInt16) :=
  if src.isEmpty then some []
  else (src.splitOn colon).foldlM (fun groups group =>
    if group.contains dot then
      (parseIpv4 group).map fun v4 => groups ++ [joinOctets v4[0] v4[1], joinOctets v4[2] v4[3]]
    else if group.isEmpty || 4 < group.length then none
    else (fromStrRadix16 group).map fun g => groups ++ [g]) []

def groupBytes (g : UInt16) : Bytes := [(g >>> 8).toUInt8, g.toUInt8]

def parseIpv6 (s : Bytes) : Option (Vector UInt8 16) := do
  let compressed := splitDoubleColon s
  let sides := compressed.getD (s, [])
  if compressed.isSome && ((splitDoubleColon sides.1).isSome || (splitDoubleColon sides.2).isSome)
    then none
  else
    let head ← parseGroups sides.1
    let tail ← parseGroups sides.2
    if 8 < head.length + tail.length then none
    else if head.length + tail.length < 8 && compressed.isNone then none
    else
      let zeros := List.replicate (8 - (head.length + tail.length)) 0
      let out := (head ++ zeros ++ tail).flatMap groupBytes
      if h : out.length = 16 then some ⟨out.toArray, h⟩ else none

inductive HostIp
  | v4 (octets : Vector UInt8 4)
  | v6 (octets : Vector UInt8 16)
deriving DecidableEq

def HostIp.bytes : HostIp → Bytes
  | v4 octets => octets.toList
  | v6 octets => octets.toList
def parseHostIp (host : Bytes) : Option HostIp :=
  if host.contains colon then (parseIpv6 host).map .v6 else (parseIpv4 host).map .v4

/-- A colon anywhere, or four labels of one to three digits. -/
def looksLikeIp (s : Bytes) : Bool :=
  s.contains colon ||
    ((s.splitOn dot).length == 4 && (s.splitOn dot).all fun label =>
      !label.isEmpty && label.length ≤ 3 && label.all isDigit)
end PureCrypto.Pki
