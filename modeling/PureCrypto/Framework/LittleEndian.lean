import Mathlib.Data.Nat.Bitwise
import Mathlib.Tactic.Ring

/-! # Little-endian bytes -/
namespace PureCrypto.LittleEndian
open List
def leNat : List UInt8 → Nat
  | [] => 0
  | b :: bs => b.toNat + 256 * leNat bs

@[simp] theorem leNat_nil : leNat [] = 0 := rfl

@[simp] theorem leNat_cons (b : UInt8) (bs : List UInt8) : leNat (b :: bs) = b.toNat + 256 * leNat bs := rfl
variable (l : List UInt8)
theorem leNat_lt : leNat l < 256 ^ l.length := by
  induction l with
  | nil => simp
  | cons b bs ih =>
    have hb := b.toNat_lt
    rw [leNat_cons,length_cons]
    omega

theorem leNat_eq_zero_iff : leNat l = 0 ↔ ∀ b ∈ l, b = 0 := by
  induction l with
  | nil => simp
  | cons b bs ih =>
    rw [leNat_cons,forall_mem_cons,← ih,← UInt8.toNat_inj]
    have hzero : (0 : UInt8).toNat = 0 := rfl
    omega

theorem leNat_div (h : Nat) : leNat l / 256 ^ h = leNat (l.drop h) := by
  induction h generalizing l with
  | zero => simp
  | succ h ih =>
    cases l with
    | nil => simp
    | cons b bs =>
      have hb := b.toNat_lt
      have hbyte : (b.toNat + 256 * leNat bs) / 256 = leNat bs := by omega
      rw [leNat_cons,drop_succ_cons,pow_succ',← Nat.div_div_eq_div_mul,hbyte,ih]

theorem leNat_mod (h : Nat) : leNat l % 256 ^ h = leNat (l.take h) := by
  induction h generalizing l with
  | zero => simp [Nat.mod_one]
  | succ h ih =>
    cases l with
    | nil => simp
    | cons b bs =>
      have hb := b.toNat_lt
      rw [leNat_cons,take_succ_cons,leNat_cons,← ih,pow_succ',
        Nat.mod_mul,Nat.add_mul_mod_self_left,Nat.mod_eq_of_lt (show b.toNat < 256 by omega),
        Nat.add_mul_div_left _ _ (by omega),
        Nat.div_eq_of_lt (show b.toNat < 256 by omega),zero_add]

theorem leNat_append (l m : List UInt8) : leNat (l ++ m) = leNat l + 256 ^ l.length * leNat m := by
  induction l with
  | nil => simp
  | cons b bs ih =>
    rw [cons_append,leNat_cons,ih,leNat_cons,length_cons]
    ring

@[simp] theorem leNat_replicate_zero (n : Nat) : leNat (List.replicate n 0) = 0 := by
  rw [leNat_eq_zero_iff]
  exact fun b hb => eq_of_mem_replicate hb

theorem leNat_inj {l m : List UInt8} (hlength : l.length = m.length) (h : leNat l = leNat m) : l = m := by
  induction l generalizing m with
  | nil => exact (length_eq_zero_iff.mp hlength.symm).symm
  | cons b bs ih =>
    cases m with
    | nil => cases hlength
    | cons c cs =>
      have hb := b.toNat_lt
      have hc := c.toNat_lt
      rw [leNat_cons,leNat_cons] at h
      have hbyte : b = c := UInt8.toNat_inj.mp (by omega)
      rw [hbyte,ih (Nat.succ.inj hlength) (by omega)]

def leBytes : Nat → Nat → List UInt8
  | 0, _ => []
  | n + 1, v => UInt8.ofNat v :: leBytes n (v / 256)

@[simp] theorem length_leBytes (n v : Nat) : (leBytes n v).length = n := by
  induction n generalizing v with
  | zero => rfl
  | succ n ih => rw [leBytes,length_cons,ih]

theorem leNat_leBytes (n v : Nat) : leNat (leBytes n v) = v % 256 ^ n := by
  induction n generalizing v with
  | zero => simp [leBytes,Nat.mod_one]
  | succ n ih => rw [leBytes,leNat_cons,ih,UInt8.toNat_ofNat',pow_succ' 256 n,Nat.mod_mul]

private theorem testBit_digit (b x j : Nat) (hb : b < 256) :
    (b + 256 * x).testBit j = if j < 8 then b.testBit j else x.testBit (j - 8) := by
  rw [add_comm]
  exact Nat.testBit_two_pow_mul_add x (show b < 2 ^ 8 from hb) j

private theorem bitwise_digit {f : Bool → Bool → Bool} (hf : f false false = false) {b c : Nat} (x y : Nat)
    (hb : b < 256) (hc : c < 256) :
    Nat.bitwise f (b + 256 * x) (c + 256 * y) = Nat.bitwise f b c + 256 * Nat.bitwise f x y := by
  apply Nat.eq_of_testBit_eq
  intro j
  rw [Nat.testBit_bitwise hf,testBit_digit b x j hb,testBit_digit c y j hc,
    testBit_digit _ _ j (Nat.bitwise_lt_two_pow (n := 8) hb hc)]
  split_ifs <;> rw [Nat.testBit_bitwise hf]

private theorem leNat_bitwise {f : Bool → Bool → Bool} (hf : f false false = false) {op : UInt8 → UInt8 → UInt8}
    (hop : ∀ b c, (op b c).toNat = Nat.bitwise f b.toNat c.toNat) {l l' : List UInt8}
    (h : l.length = l'.length) : Nat.bitwise f (leNat l) (leNat l') = leNat (List.zipWith op l l') := by
  induction l generalizing l' with
  | nil =>
    rw [length_eq_zero_iff.mp h.symm]
    simp
  | cons b bs ih =>
    cases l' with
    | nil => cases h
    | cons c cs =>
      rw [leNat_cons,leNat_cons,bitwise_digit hf _ _ b.toNat_lt c.toNat_lt,ih (Nat.succ.inj h),
        zipWith_cons_cons,leNat_cons,hop]

theorem leNat_and {l l' : List UInt8} (h : l.length = l'.length) :
    leNat l &&& leNat l' = leNat (List.zipWith (· &&& ·) l l') :=
  leNat_bitwise rfl UInt8.toNat_and h
theorem leNat_or {l l' : List UInt8} (h : l.length = l'.length) :
    leNat l ||| leNat l' = leNat (List.zipWith (· ||| ·) l l') :=
  leNat_bitwise rfl UInt8.toNat_or h

theorem leNat_add_const (c : UInt8) (h : ∀ b ∈ l, b.toNat + c.toNat < 256) :
    leNat l + leNat (List.replicate l.length c) = leNat (l.map (· + c)) := by
  induction l with
  | nil => simp
  | cons b bs ih =>
    obtain ⟨hb,hbs⟩ := forall_mem_cons.mp h
    have hsum : (b + c).toNat = b.toNat + c.toNat := by
      rw [UInt8.toNat_add]
      omega
    rw [length_cons,replicate_succ,leNat_cons,leNat_cons,map_cons,leNat_cons,← ih hbs]
    omega
end PureCrypto.LittleEndian
