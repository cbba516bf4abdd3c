import PureCrypto.Tls.Error
import Mathlib.Algebra.Group.Nat.Defs
import Mathlib.Data.List.Basic

/-!
# Record framing

The five-byte header of `tls/codec/record.rs` and the cutting of a payload into records.  The
version filter is that of the default build, without `tls-legacy`.
-/
namespace PureCrypto.Tls
open List Nat
inductive ContentType
  | changeCipherSpec
  | alert
  | handshake
  | applicationData
  | unknown (code : UInt8)
deriving DecidableEq, Repr
namespace ContentType
def asU8 : ContentType → UInt8
  | changeCipherSpec => 20
  | alert => 21
  | handshake => 22
  | applicationData => 23
  | unknown code => code

def fromU8 (code : UInt8) : ContentType :=
  if code = 20 then changeCipherSpec
  else if code = 21 then alert
  else if code = 22 then handshake
  else if code = 23 then applicationData
  else unknown code
end ContentType
def maxPlaintextFragment : Nat := 2 ^ 14

def maxFragment : Nat := 2 ^ 14 + 256

/-- Longest fragment `writeRecord` frames: that of a block-cipher record. -/
def maxFragmentBlock : Nat := 2 ^ 14 + 2048

/-- The wire code of `TLSv1_2`, the version in every record header. -/
def legacyVersion : Nat := 0x0303

structure ParsedRecord where
  contentType : ContentType
  version : Nat
  fragment : List UInt8
  /-- Header and fragment. -/
  len : Nat

def u16Be (a b : UInt8) : Nat := (a.toNat <<< 8) ||| b.toNat
def putU16 (v : Nat) : List UInt8 := [UInt8.ofNat (v >>> 8), UInt8.ofNat v]

/-- The record at the front of `buf`; `none` when more bytes are needed. -/
def readRecord : List UInt8 → Except Error (Option ParsedRecord)
  | t :: v₀ :: v₁ :: n₀ :: n₁ :: rest =>
    let len := u16Be n₀ n₁
    if maxFragment < len then .error .recordOverflow
    else if rest.length < len then .ok none
    else .ok (some {
      contentType := .fromU8 t
      version := u16Be v₀ v₁
      fragment := rest.take len
      len := 5 + len })
  | _ => .ok none

def isLegalRecordVersion (version : Nat) : Bool := decide (0x0301 ≤ version ∧ version ≤ 0x0303)

/-- Frame one record behind `out`. -/
def writeRecord (out : List UInt8) (ct : ContentType) (version : Nat) (fragment : List UInt8) :
    Except Error (List UInt8) :=
  if maxFragmentBlock < fragment.length then .error .recordOverflow
  else .ok (out ++ [ct.asU8] ++ putU16 version ++ putU16 fragment.length ++ fragment)

/-- Cut a payload into fragments of at most `cap` bytes; an empty one is one empty fragment. -/
def fragments (payload : List UInt8) (cap : Nat) : List (List UInt8) :=
  let cap := max cap 1
  let count := max ((payload.length + cap - 1) / cap) 1
  (List.range count).map fun i =>
    (payload.drop (i * cap)).take (min payload.length ((i + 1) * cap) - i * cap)
variable {ct : ContentType} {fragment : List UInt8}
theorem ContentType.fromU8_asU8 (h : ∀ code, ct ≠ unknown code) : fromU8 ct.asU8 = ct := by
  cases ct with
  | unknown code => exact absurd rfl (h code)
  | _ => rfl

theorem u16Be_putU16 {v : Nat} (h : v < 2 ^ 16) : u16Be (UInt8.ofNat (v >>> 8)) (UInt8.ofNat v) = v := by
  have hlow : (UInt8.ofNat v).toNat = v % 256 := UInt8.toNat_ofNat'
  have hhigh : (UInt8.ofNat (v >>> 8)).toNat = v / 256 % 256 := by
    rw [UInt8.toNat_ofNat',shiftRight_eq_div_pow]
  rw [u16Be,← shiftLeft_add_eq_or_of_lt (by omega)]
  omega

def frame (ct : ContentType) (fragment : List UInt8) : List UInt8 :=
  [ct.asU8] ++ putU16 legacyVersion ++ putU16 fragment.length ++ fragment

@[simp] theorem length_frame (ct : ContentType) (fragment : List UInt8) :
    (frame ct fragment).length = 5 + fragment.length := by
  simp [frame,putU16]
  omega

theorem writeRecord_eq (out : List UInt8) (ct : ContentType) (h : fragment.length ≤ maxFragmentBlock) :
    writeRecord out ct legacyVersion fragment = .ok (out ++ frame ct fragment) := by
  simp [writeRecord,frame,Nat.not_lt.mpr h]

theorem readRecord_frame (hct : ∀ code, ct ≠ .unknown code) (hlen : fragment.length ≤ maxFragment)
    (rest : List UInt8) : readRecord (frame ct fragment ++ rest) =
      .ok (some ⟨ct, legacyVersion, fragment, 5 + fragment.length⟩) := by
  have hsmall : fragment.length < 2 ^ 16 := by
    unfold maxFragment at hlen
    omega
  have hfit : ¬ (fragment ++ rest).length < fragment.length := by simp
  simp only [frame,putU16,cons_append,nil_append,readRecord,u16Be_putU16 hsmall,
    if_neg (Nat.not_lt.mpr hlen),if_neg hfit,ContentType.fromU8_asU8 hct,take_left']
  rw [u16Be_putU16 (by decide)]

theorem readRecord_partial {part : List UInt8} (hlen : fragment.length ≤ maxFragment)
    (hpart : part <+: frame ct fragment) (hshort : part.length < 5 + fragment.length) :
    readRecord part = .ok none := by
  have hsmall : fragment.length < 2 ^ 16 := by
    unfold maxFragment at hlen
    omega
  match part with
  | [] => rfl
  | [_] => rfl
  | [_, _] => rfl
  | [_, _, _] => rfl
  | [_, _, _, _] => rfl
  | t :: v₀ :: v₁ :: n₀ :: n₁ :: rest =>
    obtain ⟨more,hmore⟩ := hpart
    simp only [frame,putU16,cons_append,nil_append,List.cons.injEq] at hmore
    obtain ⟨-,-,-,rfl,rfl,-⟩ := hmore
    have hrest : rest.length < fragment.length := by
      simp only [length_cons] at hshort
      omega
    simp [readRecord,u16Be_putU16 hsmall,if_neg (Nat.not_lt.mpr hlen),if_pos hrest]
section Fragments
variable {payload : List UInt8} {cap : Nat}
theorem fragments_eq (payload : List UInt8) (hcap : 0 < cap) : fragments payload cap =
    (List.range (max ((payload.length + cap - 1) / cap) 1)).map
      fun i => (payload.drop (i * cap)).take cap := by
  unfold fragments
  rw [Nat.max_eq_left hcap]
  apply map_congr_left
  intro i hi
  rw [Nat.add_mul,take_eq_take_iff,length_drop]
  omega

theorem length_le_of_mem_fragments (hcap : 0 < cap) {p : List UInt8}
    (hp : p ∈ fragments payload cap) : p.length ≤ cap := by
  rw [fragments_eq payload hcap,List.mem_map] at hp
  obtain ⟨i,-,rfl⟩ := hp
  exact length_take_le _ _

theorem flatten_fragments (payload : List UInt8) (hcap : 0 < cap) : (fragments payload cap).flatten = payload := by
  have htake : ∀ n, ((List.range n).map fun i => (payload.drop (i * cap)).take cap).flatten =
      payload.take (n * cap) := by
    intro n
    induction n with
    | zero => simp
    | succ n ih =>
      rw [List.range_succ,map_append,flatten_append,ih,succ_mul,take_add]
      simp
  rw [fragments_eq payload hcap,htake]
  apply take_of_length_le
  have hceil := lt_div_mul_add (a := payload.length + cap - 1) hcap
  have hmul := Nat.mul_le_mul_right cap (Nat.le_max_left ((payload.length + cap - 1) / cap) 1)
  omega

theorem ne_nil_of_mem_fragments (hcap : 0 < cap) (hne : payload ≠ []) {p : List UInt8}
    (hp : p ∈ fragments payload cap) : p ≠ [] := by
  have hlen := length_pos_iff.mpr hne
  rw [fragments_eq payload hcap,List.mem_map] at hp
  obtain ⟨i,hi,rfl⟩ := hp
  have hcount : i * cap < payload.length := by
    have hi' : i < (payload.length + cap - 1) / cap := by
      have hone : 1 ≤ (payload.length + cap - 1) / cap := (Nat.le_div_iff_mul_le hcap).mpr (by omega)
      have := List.mem_range.mp hi
      omega
    have := (Nat.le_div_iff_mul_le hcap).mp (succ_le_of_lt hi')
    rw [succ_mul] at this
    omega
  rw [← length_pos_iff,length_take,length_drop]
  omega
end Fragments
end PureCrypto.Tls
