import Mathlib.Data.Nat.Bitwise
import Mathlib.Tactic.Ring
import PureCrypto.Framework.ByteReader
import PureCrypto.Tls.Error

/-!
# Variable-length integers

The codec of `quic/varint.rs` (RFC 9000 §16).  The encoder appends to the packet under construction
and always picks the shortest of the four forms; the two top bits of the first byte select the form,
and the decoder accepts any form.
-/
namespace PureCrypto.Quic.Varint
open ByteReader Tls List Nat
def max : Nat := 2 ^ 62 - 1

def encodedLen (value : Nat) : Nat :=
  if value < 2 ^ 6 then 1
  else if value < 2 ^ 14 then 2
  else if value < 2 ^ 30 then 4
  else 8

/-- The `n` low bytes of `value`, most significant first. -/
def beBytes (n value : Nat) : List UInt8 :=
  (List.range n).reverse.map (fun i => UInt8.ofNat (value / 2 ^ (8 * i)))

/-- Set the form tag on the first byte. -/
def tagged (tag : UInt8) : List UInt8 → List UInt8
  | [] => []
  | b :: bs => (b ||| tag) :: bs

/-- The shortest form.  A value past `max` is clamped, as release builds do. -/
def encode (value : Nat) (out : List UInt8) : List UInt8 :=
  let value := min value max
  if value < 2 ^ 6 then out ++ [UInt8.ofNat value]
  else if value < 2 ^ 14 then out ++ tagged 0x40 (beBytes 2 value)
  else if value < 2 ^ 30 then out ++ tagged 0x80 (beBytes 4 value)
  else out ++ tagged 0xC0 (beBytes 8 value)

/-- The value in front of `buf` and the number of bytes it takes. -/
def decode (buf : List UInt8) : Except Tls.Error (Nat × Nat) :=
  match buf with
  | [] => .error .decode
  | b :: _ =>
    let len := 1 <<< (b >>> 6).toNat
    if buf.length < len then .error .decode
    else
      let value := ((buf.take len).drop 1).foldl (fun value b => (value <<< 8) ||| b.toNat)
        (b &&& 0x3F).toNat
      .ok (value, len)

/-- A wire length against the bytes that are there. -/
def boundedLen (length available : Nat) : Except Tls.Error Nat :=
  if length ≤ available then .ok length else .error .decode

def read : ByteReader Tls.Error Nat := fun buf => do
  let (value, n) ← decode buf
  .ok (value, buf.drop n)
def bytes (value : Nat) : List UInt8 := encode value []

theorem shift_or_byte (value : Nat) (b : UInt8) : (value <<< 8) ||| b.toNat = value * 256 + b.toNat := by
  have hor := two_pow_add_eq_or_of_lt b.toNat_lt value
  rw [shiftLeft_eq,mul_comm,← hor]

theorem beBytes_succ (n value : Nat) :
    beBytes (n + 1) value = UInt8.ofNat (value / 2 ^ (8 * n)) :: beBytes n value := by
  simp [beBytes,List.range_succ]
theorem length_beBytes (n value : Nat) : (beBytes n value).length = n := by
  simp [beBytes]

theorem foldl_beBytes (n value top : Nat) :
    (beBytes n value).foldl (fun value b => (value <<< 8) ||| b.toNat) top =
      top * 256 ^ n + value % 256 ^ n := by
  induction n generalizing top with
  | zero => simp [beBytes,mod_one]
  | succ n ih =>
    have hpow : 2 ^ (8 * n) = 256 ^ n := by rw [Nat.pow_mul]
    have hsplit : value % 256 ^ (n + 1) = value % 256 ^ n + 256 ^ n * (value / 256 ^ n % 256) := by
      rw [pow_succ,mod_mul]
    rw [beBytes_succ,foldl_cons,ih,shift_or_byte,hpow,hsplit]
    simp only [UInt8.toNat_ofNat']
    ring

private theorem form (n : Nat) (h : n < 64) (k : Nat) (hk : k < 4) :
    ((UInt8.ofNat n ||| UInt8.ofNat (64 * k)) >>> 6).toNat = k ∧
      ((UInt8.ofNat n ||| UInt8.ofNat (64 * k)) &&& 0x3F).toNat = n := by
  revert k n
  decide
variable {n value : Nat} {buf : List UInt8}
/-- A first byte that selects `n + 1` bytes, in front of the `n` low bytes of the value. -/
private theorem decode_form {top shift : Nat} {b : UInt8} (suffix : List UInt8)
    (hshift : (b >>> 6).toNat = shift) (htop : (b &&& 0x3F).toNat = top)
    (hlen : 1 <<< shift = n + 1) (hvalue : top * 256 ^ n + value % 256 ^ n = value) :
    decode (b :: beBytes n value ++ suffix) = .ok (value, n + 1) := by
  have hlong : ¬(b :: (beBytes n value ++ suffix)).length < n + 1 := by
    simp [length_beBytes]
  have htake : ((b :: (beBytes n value ++ suffix)).take (n + 1)).drop 1 = beBytes n value := by
    rw [take_succ_cons,drop_one,tail_cons,take_left' (length_beBytes n value)]
  rw [cons_append,decode]
  simp only [hshift,hlen,if_neg hlong,htake,htop,foldl_beBytes,hvalue]

@[simp] theorem encode_eq (value : Nat) (out : List UInt8) : encode value out = out ++ bytes value := by
  simp only [bytes,encode]
  split_ifs <;> simp

theorem length_bytes (value : Nat) : (bytes value).length = encodedLen value := by
  have hmax : max = 2 ^ 62 - 1 := rfl
  simp only [bytes,encode,encodedLen,hmax,nil_append]
  split_ifs <;> first | omega | simp [beBytes_succ,tagged,length_beBytes]

theorem decode_bytes (h : value ≤ max) (suffix : List UInt8) :
    decode (bytes value ++ suffix) = .ok (value, (bytes value).length) := by
  have hmax : max = 2 ^ 62 - 1 := rfl
  simp only [bytes,encode,Nat.min_eq_left h,nil_append]
  split_ifs with h1 h2 h4
  · obtain ⟨hshift,htop⟩ := form value h1 0 (by decide)
    rw [mul_zero,show UInt8.ofNat 0 = 0 from rfl,UInt8.or_zero] at hshift htop
    exact decode_form (n := 0) suffix hshift htop rfl (by simp [mod_one])
  · have hlt : value / 2 ^ (8 * 1) < 64 := by omega
    obtain ⟨hshift,htop⟩ := form _ hlt 1 (by decide)
    rw [beBytes_succ]
    exact decode_form suffix hshift htop rfl (by omega)
  · have hlt : value / 2 ^ (8 * 3) < 64 := by omega
    obtain ⟨hshift,htop⟩ := form _ hlt 2 (by decide)
    rw [beBytes_succ]
    exact decode_form suffix hshift htop rfl (by omega)
  · have hlt : value / 2 ^ (8 * 7) < 64 := by omega
    obtain ⟨hshift,htop⟩ := form _ hlt 3 (by decide)
    rw [beBytes_succ]
    exact decode_form suffix hshift htop rfl (by omega)

theorem decode_bounds (h : decode buf = .ok (value, n)) : 1 ≤ n ∧ n ≤ buf.length := by
  cases buf with
  | nil => cases h
  | cons b buf =>
    simp only [decode] at h
    split at h
    · cases h
    · cases h
      have hpos : 0 < 1 <<< (b >>> 6).toNat := by
        rw [one_shiftLeft]
        exact Nat.two_pow_pos _
      omega

private theorem foldl_lt (l : List UInt8) (top : Nat) :
    l.foldl (fun value b => (value <<< 8) ||| b.toNat) top < (top + 1) * 256 ^ l.length := by
  induction l generalizing top with
  | nil => simp
  | cons b l ih =>
    have hb := b.toNat_lt
    have hstep : top * 256 + b.toNat + 1 ≤ (top + 1) * 256 := by omega
    rw [foldl_cons,shift_or_byte]
    calc
      _ < (top * 256 + b.toNat + 1) * 256 ^ l.length := ih _
      _ ≤ (top + 1) * 256 * 256 ^ l.length := Nat.mul_le_mul_right _ hstep
      _ = (top + 1) * 256 ^ (l.length + 1) := by ring
section
variable (h : decode buf = .ok (value, n))
include h
theorem decode_le_max : value ≤ max := by
  cases buf with
  | nil => cases h
  | cons b buf =>
    simp only [decode] at h
    split_ifs at h with hlong
    injection h with h
    injection h with hvalue _
    have htop : (b &&& 0x3F).toNat < 64 := by
      exact and_lt_two_pow _ (by decide : (0x3F : UInt8).toNat < 2 ^ 6)
    have htag : (b >>> 6).toNat ≤ 3 := by
      have hb := b.toNat_lt
      rw [UInt8.toNat_shiftRight]
      simp only [UInt8.reduceToNat,Nat.reduceMod]
      omega
    have hlen : 1 <<< (b >>> 6).toNat ≤ 8 := by
      rw [one_shiftLeft]
      exact Nat.pow_le_pow_right (by decide) htag
    have hlt := foldl_lt (((b :: buf).take (1 <<< (b >>> 6).toNat)).drop 1) (b &&& 0x3F).toNat
    have hcount : (((b :: buf).take (1 <<< (b >>> 6).toNat)).drop 1).length ≤ 7 := by
      rw [length_drop,length_take]
      omega
    have hpow := Nat.pow_le_pow_right (by decide : 0 < 256) hcount
    have hmul : ((b &&& 0x3F).toNat + 1) * 256 ^ _ ≤ 64 * 256 ^ 7 := Nat.mul_le_mul htop hpow
    have hmax : max = 64 * 256 ^ 7 - 1 := rfl
    omega

theorem decode_of_take {buf' : List UInt8} (hlen : n ≤ buf'.length)
    (htake : buf'.take n = buf.take n) : decode buf' = .ok (value, n) := by
  obtain ⟨hpos,-⟩ := decode_bounds h
  cases buf with
  | nil => cases h
  | cons b buf =>
    simp only [decode] at h
    split_ifs at h with hlong
    injection h with h
    injection h with hvalue hn
    obtain ⟨k,rfl⟩ : ∃ k, n = k + 1 := ⟨n - 1,by omega⟩
    obtain ⟨b',buf',rfl⟩ := exists_cons_of_length_pos (by omega : 0 < buf'.length)
    obtain ⟨rfl,-⟩ := List.cons.inj htake
    rw [decode,if_neg (by omega),hn,htake,← hn,hvalue]

theorem decode_append (suffix : List UInt8) : decode (buf ++ suffix) = .ok (value, n) := by
  obtain ⟨-,hn⟩ := decode_bounds h
  apply decode_of_take h
  · rw [length_append]
    omega
  · exact take_append_of_le_length hn

theorem decode_take : decode (buf.take n) = .ok (value, n) := by
  apply decode_of_take h
  · rw [length_take_of_le (decode_bounds h).2]
  · rw [take_take,Nat.min_self]
end
theorem reads_bytes (h : value ≤ max) : Reads read (bytes value) value := by
  intro suffix
  simp only [read,decode_bytes h suffix]
  show Except.ok (value, (bytes value ++ suffix).drop (bytes value).length) = _
  rw [drop_left]

theorem parses_read : Parses read (· ≤ max) := by
  refine .of_ok fun buf value left h => ?_
  unfold read at h
  cases hd : decode buf with
  | error e =>
    rw [hd] at h
    cases h
  | ok p =>
    rw [hd] at h
    cases h
    exact ⟨decode_le_max hd,drop_suffix p.2 buf⟩
end PureCrypto.Quic.Varint
