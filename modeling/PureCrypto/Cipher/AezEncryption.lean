import Mathlib.Data.List.Forall2
import PureCrypto.Cipher.AezTiny
import PureCrypto.Framework.ByteArrays

/-! # Encryption and its inverse -/
namespace PureCrypto.Cipher
open Block
private theorem or_eq_zero (x y : UInt8) : x ||| y = 0 ↔ x = 0 ∧ y = 0 := by
  simp only [← UInt8.toBitVec_inj,UInt8.toBitVec_or]
  exact BitVec.or_eq_zero_iff

private theorem xor_eq_zero (x y : UInt8) : x ^^^ y = 0 ↔ x = y := by
  simp only [← UInt8.toBitVec_inj,UInt8.toBitVec_xor]
  exact BitVec.xor_eq_zero_iff

/-- An accumulator that only gains bits is zero when no step adds one. -/
theorem foldl_eq_zero {α : Type*} {step : UInt8 → α → UInt8} {Quiet : α → Prop}
    (h : ∀ acc x, step acc x = 0 ↔ acc = 0 ∧ Quiet x) (xs : List α) (acc : UInt8) :
    xs.foldl step acc = 0 ↔ acc = 0 ∧ ∀ x ∈ xs, Quiet x := by
  induction xs generalizing acc with
  | nil => simp
  | cons x xs ih => simp [ih,h,and_assoc]

private theorem zip_forall_eq {xs ys : List UInt8} (h : xs.length = ys.length) :
    (∀ p ∈ xs.zip ys, p.1 = p.2) ↔ xs = ys := by
  rw [← List.forall₂_eq_eq_eq,List.forall₂_iff_zip]
  exact ⟨fun heq => ⟨h,fun hp => heq _ hp⟩,fun heq p hp => heq.2 hp⟩
namespace Aez
variable (a : Aez) (delta : Block)
theorem length_prfBlocks (blocks : Nat) (ctr : Block) : (a.prfBlocks delta blocks ctr).length = blocks := by
  induction blocks generalizing ctr with
  | zero => rfl
  | succ blocks ih => simp [prfBlocks,ih]

theorem length_aezPrf (len : Nat) : (a.aezPrf delta len).length = len := by
  rw [aezPrf,List.length_take,← ByteArrays.flat,ByteArrays.length_flat,length_prfBlocks]
  omega

private theorem blocks_eq_iff (blocks : List Block) (k : Nat) (c : List UInt8)
    (h : blocks.length = (c.length - 16 * k + 15) / 16) :
    (∀ b ∈ blocks.zipIdx k, b.1.toList.take (min (c.length - 16 * b.2) 16) =
        (c.drop (16 * b.2)).take (min (c.length - 16 * b.2) 16)) ↔
      c.drop (16 * k) = (blocks.flatMap Vector.toList).take (c.drop (16 * k)).length := by
  induction blocks generalizing k with
  | nil =>
    have hnil : c.drop (16 * k) = [] := List.drop_eq_nil_of_le (by simp at h; omega)
    simp [hnil]
  | cons b blocks ih =>
    rw [List.length_cons] at h
    have hnext : (c.drop (16 * k)).drop 16 = c.drop (16 * (k + 1)) := by
      rw [List.drop_drop,mul_add]
    have hlength : (c.drop (16 * k)).length = c.length - 16 * k := List.length_drop
    have hhead : b.toList.take (c.length - 16 * k) = b.toList.take (min (c.length - 16 * k) 16) := by
      simp
    have htake : (c.drop (16 * k)).take (min (c.length - 16 * k) 16) = (c.drop (16 * k)).take 16 := by
      rw [List.take_eq_take_iff]
      omega
    rw [List.zipIdx_cons,List.forall_mem_cons,ih (k + 1) (by omega),← hnext]
    generalize hrest : c.drop (16 * k) = rest at *
    rw [htake,List.flatMap_cons,List.take_append,hlength,hhead,Vector.length_toList,List.length_drop,hlength]
    constructor
    · rintro ⟨hfirst,htail⟩
      rw [hfirst,← htail,List.take_append_drop]
    · intro hall
      have hparts : rest.take 16 ++ rest.drop 16 = _ := (List.take_append_drop 16 rest).trans hall
      obtain ⟨hfirst,htail⟩ := List.append_inj hparts (by simp [hlength,Nat.min_comm])
      exact ⟨hfirst.symm,htail⟩

theorem aezPrfEq_iff (c : List UInt8) : a.aezPrfEq delta c = true ↔ c = a.aezPrf delta c.length := by
  have hblocks := blocks_eq_iff (a.prfBlocks delta ((c.length + 15) / 16) zero) 0 c
    (by rw [length_prfBlocks]; rfl)
  have hstep : ∀ (acc : UInt8) (b : Block × Nat),
      ((b.1.toList.take (min (c.length - 16 * b.2) 16)).zip
        ((c.drop (16 * b.2)).take (min (c.length - 16 * b.2) 16))).foldl
          (fun acc p => acc ||| (p.1 ^^^ p.2)) acc = 0 ↔
      acc = 0 ∧ b.1.toList.take (min (c.length - 16 * b.2) 16) =
        (c.drop (16 * b.2)).take (min (c.length - 16 * b.2) 16) := by
    intro acc b
    rw [foldl_eq_zero (fun acc p => by rw [or_eq_zero,xor_eq_zero]),zip_forall_eq (by simp)]
  rw [aezPrfEq,beq_iff_eq,foldl_eq_zero hstep,hblocks,aezPrf]
  simp

theorem encipher_eq {buf : List UInt8} (hne : buf ≠ []) : a.encipher delta buf =
    if buf.length < 32 then a.aezTiny delta buf 0 else a.aezCore delta buf 0 := by
  simp [encipher,hne]

theorem decipher_eq {buf : List UInt8} (hne : buf ≠ []) : a.decipher delta buf =
    if buf.length < 32 then a.aezTiny delta buf 1 else a.aezCore delta buf 1 := by
  simp [decipher,hne]
section
variable (buf : List UInt8)
theorem length_encipher : (a.encipher delta buf).length = buf.length := by
  by_cases hne : buf = []
  · simp [hne,encipher]
  · rw [encipher_eq a delta hne]
    split_ifs with hlt
    · exact a.length_aezTiny delta hne hlt (Nat.zero_le 1)
    · exact (a.aezCore_aezCore delta (Nat.zero_le 1) (Nat.le_of_not_lt hlt)).1

theorem length_decipher : (a.decipher delta buf).length = buf.length := by
  by_cases hne : buf = []
  · simp [hne,decipher]
  · rw [decipher_eq a delta hne]
    split_ifs with hlt
    · exact a.length_aezTiny delta hne hlt (le_refl 1)
    · exact (a.aezCore_aezCore delta (le_refl 1) (Nat.le_of_not_lt hlt)).1

theorem decipher_encipher : a.decipher delta (a.encipher delta buf) = buf := by
  have hlength := a.length_encipher delta buf
  by_cases hne : buf = []
  · simp [hne,encipher,decipher]
  · rw [decipher_eq a delta (ne_nil_of_length hlength hne),hlength,encipher_eq a delta hne]
    split_ifs with hlt
    · exact a.aezTiny_aezTiny delta (Nat.zero_le 1) hne hlt
    · exact (a.aezCore_aezCore delta (Nat.zero_le 1) (Nat.le_of_not_lt hlt)).2

theorem encipher_decipher : a.encipher delta (a.decipher delta buf) = buf := by
  have hlength := a.length_decipher delta buf
  by_cases hne : buf = []
  · simp [hne,encipher,decipher]
  · rw [encipher_eq a delta (ne_nil_of_length hlength hne),hlength,decipher_eq a delta hne]
    split_ifs with hlt
    · exact a.aezTiny_aezTiny delta (le_refl 1) hne hlt
    · exact (a.aezCore_aezCore delta (le_refl 1) (Nat.le_of_not_lt hlt)).2
end
section Encryption
variable (nonce : List UInt8) (ad : List (List UInt8)) {tau : Nat}
private theorem tauBits_eq (htau : tau < 2 ^ 29) : tauBits tau = some (tau * 8) :=
  if_pos (by omega)

theorem encrypt_eq (htau : tau < 2 ^ 29) (m : List UInt8) : a.encrypt nonce ad tau m = some
    (if m = [] then a.aezPrf (a.aezHash nonce ad (tau * 8)) tau
      else a.encipher (a.aezHash nonce ad (tau * 8)) (m ++ List.replicate tau 0)) := by
  simp [encrypt,tauBits_eq htau]

private theorem expansion_iff (x : List UInt8) :
    (x.foldl (· ||| ·) 0 == 0) = true ↔ x = List.replicate x.length 0 := by
  rw [beq_iff_eq,foldl_eq_zero (fun acc y => or_eq_zero acc y),List.eq_replicate_iff]
  simp

theorem decrypt_eq_ok (htau : tau < 2 ^ 29) {c m : List UInt8} : a.decrypt nonce ad tau c = some (.ok m) ↔
      (m = [] ∧ c.length = tau ∧ a.aezPrfEq (a.aezHash nonce ad (tau * 8)) c = true) ∨
      (m ≠ [] ∧ a.decipher (a.aezHash nonce ad (tau * 8)) c = m ++ List.replicate tau 0) := by
  have hlength := a.length_decipher (a.aezHash nonce ad (tau * 8)) c
  have hlong : ∀ {m : List UInt8}, a.decipher (a.aezHash nonce ad (tau * 8)) c =
      m ++ List.replicate tau 0 → c.length = m.length + tau := by
    intro m h
    rw [← hlength,h]
    simp
  unfold decrypt
  rw [tauBits_eq htau]
  rcases Nat.lt_trichotomy c.length tau with hlt | heq | hgt
  · rw [if_pos hlt]
    constructor
    · intro h
      cases h
    · rintro (⟨_,heq,_⟩ | ⟨_,h⟩)
      · omega
      · have := hlong h
        omega
  · rw [if_neg (by omega)]
    simp only [Option.bind_eq_bind,Option.bind_some,Option.pure_def,if_pos heq,Option.some.injEq]
    have hempty : a.decipher (a.aezHash nonce ad (tau * 8)) c = m ++ List.replicate tau 0 → m = [] := by
      intro h
      exact List.length_eq_zero_iff.mp (by have := hlong h; omega)
    split_ifs with hprf
    · simp only [Except.ok.injEq,heq,hprf,and_true]
      exact ⟨fun h => .inl h.symm,fun h => h.elim Eq.symm fun h => absurd (hempty h.2) h.1⟩
    · simp only [reduceCtorEq,hprf,and_false,false_or,false_iff]
      exact fun h => h.1 (hempty h.2)
  · rw [if_neg (by omega)]
    simp only [Option.bind_eq_bind,Option.bind_some,Option.pure_def,if_neg (Nat.ne_of_gt hgt),
      Option.some.injEq,expansion_iff]
    generalize a.decipher (a.aezHash nonce ad (tau * 8)) c = buf at hlength hlong ⊢
    have hdrop : (buf.drop (c.length - tau)).length = tau := by
      rw [List.length_drop]
      omega
    have htake : (buf.take (c.length - tau)).length = c.length - tau := by
      rw [List.length_take]
      omega
    rw [hdrop]
    constructor
    · intro h
      split_ifs at h with hzero
      cases h
      refine .inr ⟨List.length_pos_iff.mp (by omega),?_⟩
      rw [← hzero,List.take_append_drop]
    · rintro (⟨_,heq,_⟩ | ⟨_,rfl⟩)
      · omega
      · have hcut : c.length - tau = m.length := by
          have := hlong rfl
          omega
        rw [hcut,List.drop_left,List.take_left,if_pos rfl]

/-- A ciphertext is accepted just when it is the encryption of the result; the core and the network
for short strings are permutations of the strings of a length, each the inverse of its other
direction. -/
theorem decrypt_encrypt (htau : tau < 2 ^ 29) :
    (∀ m, ∃ c, a.encrypt nonce ad tau m = some c ∧ a.decrypt nonce ad tau c = some (.ok m)) ∧
    (∀ c m, a.decrypt nonce ad tau c = some (.ok m) → a.encrypt nonce ad tau m = some c) ∧
    (∀ delta (d : Fin 2) (buf : List UInt8), 32 ≤ buf.length → (a.aezCore delta buf d).length = buf.length ∧
        a.aezCore delta (a.aezCore delta buf d) (1 - d) = buf) ∧
    (∀ delta (d : Fin 2) (buf : List UInt8), 1 ≤ buf.length → buf.length ≤ 31 →
      (a.aezTiny delta buf d).length = buf.length ∧ a.aezTiny delta (a.aezTiny delta buf d) (1 - d) = buf) := by
  refine ⟨?_,?_,?_,?_⟩
  · intro m
    refine ⟨_,a.encrypt_eq nonce ad htau m,(a.decrypt_eq_ok nonce ad htau).mpr ?_⟩
    by_cases hm : m = []
    · rw [if_pos hm,aezPrfEq_iff,length_aezPrf]
      exact .inl ⟨hm,rfl,rfl⟩
    · rw [if_neg hm,decipher_encipher]
      exact .inr ⟨hm,rfl⟩
  · intro c m h
    rw [encrypt_eq a nonce ad htau]
    rcases (a.decrypt_eq_ok nonce ad htau).mp h with ⟨hm,hlength,heq⟩ | ⟨hm,heq⟩
    · rw [if_pos hm,← hlength]
      rw [aezPrfEq_iff,← hlength] at heq
      exact congrArg some heq.symm
    · rw [if_neg hm,← heq,encipher_decipher]
  · intro delta d buf h
    exact a.aezCore_aezCore delta (by omega) h
  · intro delta d buf h h'
    have hne : buf ≠ [] := List.length_pos_iff.mp h
    exact ⟨a.length_aezTiny delta hne (by omega) (by omega),a.aezTiny_aezTiny delta (by omega) hne (by omega)⟩

private def offsetsOnly : Aez where
  i := Vector.replicate 2 zero
  j := Vector.replicate 3 zero
  l := Vector.replicate 8 zero
  aes4 j i l b := ((j.xor i).xor l).xor b
  aes10 l b := l.xor b

theorem decrypt_encrypt_offsetsOnly : 16 < 2 ^ 29 ∧ ∃ c, offsetsOnly.encrypt [7] [[1, 2], []] 16 [3, 4, 5] = some c ∧
      offsetsOnly.decrypt [7] [[1, 2], []] 16 c = some (.ok [3, 4, 5]) :=
  ⟨by decide,(decrypt_encrypt offsetsOnly [7] [[1, 2], []] (by decide)).1 [3, 4, 5]⟩
end Encryption
end Aez
end PureCrypto.Cipher
