import Mathlib.Data.List.Infix

/-!
# Readers of byte strings

A reader takes a front part off a byte string, or fails. `Reads`, `Yields` and `Parses` compose along
`>>=`.
-/
namespace PureCrypto
open List
abbrev ByteReader (ε α : Type) := StateT (List UInt8) (Except ε) α
namespace ByteReader
variable {ε α β : Type}
def byte (e : ε) : ByteReader ε UInt8
  | [] => .error e
  | b :: buf => .ok (b, buf)

def slice (n : Nat) (e : ε) : ByteReader ε (List UInt8) := fun buf =>
  if n ≤ buf.length then .ok (buf.take n, buf.drop n) else .error e
def rest : ByteReader ε (List UInt8) := fun buf => .ok (buf, [])
def fail (e : ε) : ByteReader ε α := fun _ => .error e
def passedOver (r : ByteReader ε α) : ByteReader ε (List UInt8) := fun buf => do
  let (_, left) ← r buf
  .ok (buf.take (buf.length - left.length), left)

structure FixedBytes (n : Nat) where
  toList : List UInt8
  length_eq : toList.length = n
deriving DecidableEq

def fixed (n : Nat) (e : ε) : ByteReader ε (FixedBytes n) := fun buf =>
  if h : n ≤ buf.length then .ok (⟨buf.take n, length_take_of_le h⟩, buf.drop n) else .error e

/-- In front of anything, `r` reads `bytes` as the value `a` and nothing more. -/
def Reads (r : ByteReader ε α) (bytes : List UInt8) (a : α) : Prop :=
  ∀ suffix, r (bytes ++ suffix) = .ok (a, suffix)

/-- Whatever `r` leaves is the end of what it was given. -/
def Consumes (r : ByteReader ε α) : Prop :=
  ∀ buf a left, r buf = .ok (a, left) → left <:+ buf

/-- Every value that `r` reads has the property `P`. -/
def Yields (r : ByteReader ε α) (P : α → Prop) : Prop :=
  ∀ buf a left, r buf = .ok (a, left) → P a

/-- What holds of every success of `r`. -/
structure Parses (r : ByteReader ε α) (P : α → Prop) : Prop where
  consumes : Consumes r
  yields : Yields r P
variable {r : ByteReader ε α} {f : α → ByteReader ε β} {bytes bytes' : List UInt8} {a : α} {b : β}
variable {buf left : List UInt8}
theorem bind_ok (h : r buf = .ok (a, left)) : (r >>= f) buf = f a left := by
  show (r buf >>= fun p => f p.1 p.2) = f a left
  rw [h]
  rfl

theorem bind_eq_ok (h : (r >>= f) buf = .ok (b, left)) : ∃ a mid, r buf = .ok (a, mid) ∧ f a mid = .ok (b, left) := by
  change (r buf >>= fun p => f p.1 p.2) = .ok (b, left) at h
  cases hr : r buf with
  | error e =>
    rw [hr] at h
    cases h
  | ok p =>
    rw [hr] at h
    exact ⟨p.1,p.2,rfl,h⟩

theorem Reads.pure (a : α) : Reads (Pure.pure a : ByteReader ε α) [] a := fun _ => rfl

theorem Reads.bind (h : Reads r bytes a) (hf : Reads (f a) bytes' b) : Reads (r >>= f) (bytes ++ bytes') b := by
  intro suffix
  have hr := h (bytes' ++ suffix)
  rw [append_assoc,bind_ok hr]
  exact hf suffix

theorem Reads.map (h : Reads r bytes a) (g : α → β) :
    Reads (r >>= fun a => Pure.pure (g a)) bytes (g a) := by
  have hbind := h.bind (f := fun a => Pure.pure (g a)) (Reads.pure (g a))
  rwa [append_nil] at hbind
section Results
variable {P : α → Prop} {Q : β → Prop}
theorem Yields.pure (h : P a) : Yields (Pure.pure a : ByteReader ε α) P := by
  intro buf a' left ha
  cases ha
  exact h

theorem Yields.bind (h : Yields r P) (hf : ∀ a, P a → Yields (f a) Q) : Yields (r >>= f) Q := by
  intro buf b left hb
  obtain ⟨a,mid,hr,hfa⟩ := bind_eq_ok hb
  exact hf a (h buf a mid hr) mid b left hfa

theorem yields_true (r : ByteReader ε α) : Yields r (fun _ => True) := fun _ _ _ _ => trivial
theorem yields_fail (e : ε) (P : α → Prop) : Yields (fail e : ByteReader ε α) P := by
  intro buf a left h
  cases h
theorem Parses.of_ok (h : ∀ buf a left, r buf = .ok (a, left) → P a ∧ left <:+ buf) : Parses r P :=
  ⟨fun buf a left hr => (h buf a left hr).2,fun buf a left hr => (h buf a left hr).1⟩

theorem Parses.pure (h : P a) : Parses (Pure.pure a : ByteReader ε α) P := by
  refine .of_ok fun buf a' left ha => ?_
  cases ha
  exact ⟨h,suffix_refl buf⟩

theorem Parses.bind (h : Parses r P) (hf : ∀ a, P a → Parses (f a) Q) : Parses (r >>= f) Q := by
  refine .of_ok fun buf b left hb => ?_
  obtain ⟨a,mid,hr,hfa⟩ := bind_eq_ok hb
  have hrest := hf a (h.yields buf a mid hr)
  exact ⟨hrest.yields mid b left hfa,(hrest.consumes mid b left hfa).trans (h.consumes buf a mid hr)⟩

theorem parses_fail (e : ε) (P : α → Prop) : Parses (fail e : ByteReader ε α) P := by
  refine .of_ok fun buf a left h => ?_
  cases h
end Results
theorem reads_byte (e : ε) (b : UInt8) : Reads (byte e) [b] b := fun _ => rfl

theorem reads_slice (e : ε) (bytes : List UInt8) : Reads (slice bytes.length e) bytes bytes := by
  intro suffix
  simp [slice]

theorem reads_fixed {n : Nat} (e : ε) (a : FixedBytes n) : Reads (fixed n e) a.toList a := by
  intro suffix
  have hle : n ≤ (a.toList ++ suffix).length := by
    rw [length_append,a.length_eq]
    omega
  have htake : (a.toList ++ suffix).take n = a.toList := take_left' a.length_eq
  have hdrop : (a.toList ++ suffix).drop n = suffix := drop_left' a.length_eq
  simp only [fixed,dif_pos hle,htake,hdrop]

theorem Reads.passedOver (h : Reads r bytes a) : Reads (passedOver r) bytes bytes := by
  intro suffix
  simp only [ByteReader.passedOver,h suffix]
  show Except.ok ((bytes ++ suffix).take ((bytes ++ suffix).length - suffix.length), suffix) = _
  rw [length_append,Nat.add_sub_cancel,take_left]

theorem parses_byte (e : ε) : Parses (byte e) fun _ => True := by
  refine .of_ok fun buf b left h => ?_
  cases buf with
  | nil => cases h
  | cons b' buf =>
    cases h
    exact ⟨trivial,suffix_cons b left⟩

theorem parses_slice (n : Nat) (e : ε) : Parses (slice n e) (·.length = n) := by
  refine .of_ok fun buf bytes left h => ?_
  unfold slice at h
  split_ifs at h with hle
  cases h
  exact ⟨length_take_of_le hle,drop_suffix n buf⟩

theorem parses_fixed (n : Nat) (e : ε) : Parses (fixed n e) fun _ => True := by
  refine .of_ok fun buf a left h => ?_
  unfold fixed at h
  split_ifs at h
  cases h
  exact ⟨trivial,drop_suffix n buf⟩

theorem parses_rest : Parses (rest : ByteReader ε (List UInt8)) fun _ => True := by
  refine .of_ok fun buf bytes left h => ?_
  cases h
  exact ⟨trivial,nil_suffix⟩
end ByteReader
end PureCrypto
