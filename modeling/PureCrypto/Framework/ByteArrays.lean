import PureCrypto.Framework.LittleEndian

/-! # Arrays in a byte string -/
namespace PureCrypto.ByteArrays
open LittleEndian
def arrayAt (n : Nat) (xs : List UInt8) (off : Nat) : Vector UInt8 n :=
  Vector.ofFn fun k => xs.getD (off + k) 0
section Arrays
variable {n : Nat}
theorem arrayAt_append (v : Vector UInt8 n) (rest : List UInt8) : arrayAt n (v.toList ++ rest) 0 = v := by
  refine Vector.ext fun k hk => ?_
  have hk' : k < v.toList.length := by simpa using hk
  simp [arrayAt,List.getElem?_append_left hk',hk]

theorem arrayAt_skip (xs ys : List UInt8) (off : Nat) :
    arrayAt n (xs ++ ys) (xs.length + off) = arrayAt n ys off := by
  refine Vector.ext fun k hk => ?_
  have hk' : xs.length ≤ xs.length + off + k := by omega
  have hoff : xs.length + off + k - xs.length = off + k := by omega
  simp [arrayAt,List.getElem?_append_right hk',hoff]

theorem arrayAt_behind {xs : List UInt8} {off : Nat} (h : xs.length = off) (v : Vector UInt8 n) (rest : List UInt8) :
    arrayAt n (xs ++ (v.toList ++ rest)) off = v := by
  have hskip := @arrayAt_skip n xs (v.toList ++ rest) 0
  rwa [h,add_zero,arrayAt_append] at hskip

theorem toList_arrayAt {xs : List UInt8} (h : xs.length = n) : (arrayAt n xs 0).toList = xs := by
  subst h
  refine List.ext_getElem (by simp) fun i hi hi' => ?_
  simp [arrayAt,List.getD_eq_getElem?_getD]

theorem arrayAt_left {xs : List UInt8} {off : Nat} (h : off + n ≤ xs.length) (ys : List UInt8) :
    arrayAt n (xs ++ ys) off = arrayAt n xs off := by
  refine Vector.ext fun k hk => ?_
  have hk' : off + k < xs.length := by omega
  simp [arrayAt,List.getElem?_append_left hk']

theorem arrayAt_take {m off : Nat} (h : off + n ≤ m) (xs : List UInt8) :
    arrayAt n (xs.take m) off = arrayAt n xs off := by
  refine Vector.ext fun k hk => ?_
  have hk' : off + k < m := by omega
  simp [arrayAt,List.getElem?_take,hk']

theorem arrayAt_drop (xs : List UInt8) (m off : Nat) : arrayAt n (xs.drop m) off = arrayAt n xs (m + off) := by
  simp [arrayAt,add_assoc]
def arrays (n : Nat) : Nat → List UInt8 → List (Vector UInt8 n)
  | 0, _ => []
  | k + 1, xs => arrayAt n xs 0 :: arrays n k (xs.drop n)
def flat (vs : List (Vector UInt8 n)) : List UInt8 := vs.flatMap Vector.toList

@[simp] theorem flat_cons (v : Vector UInt8 n) (vs : List (Vector UInt8 n)) :
    flat (v :: vs) = v.toList ++ flat vs := rfl
variable (vs : List (Vector UInt8 n))
theorem length_flat : (flat vs).length = n * vs.length := by
  induction vs with
  | nil => rfl
  | cons v vs ih =>
    rw [flat_cons,List.length_append,ih,Vector.length_toList,List.length_cons]
    ring

theorem arrays_flat (rest : List UInt8) : arrays n vs.length (flat vs ++ rest) = vs := by
  induction vs with
  | nil => rfl
  | cons v vs ih =>
    rw [List.length_cons,arrays,flat_cons,List.append_assoc,arrayAt_append,List.drop_left' v.length_toList,ih]

theorem drop_flat (rest : List UInt8) : (flat vs ++ rest).drop (vs.length * n) = rest := by
  rw [mul_comm,← length_flat,List.drop_left]
end Arrays
def beNat (xs : List UInt8) : Nat := xs.foldl (fun acc b => acc * 256 + b.toNat) 0

def beBytes (n v : Nat) : List UInt8 := (leBytes n v).reverse

@[simp] theorem length_beBytes (n v : Nat) : (beBytes n v).length = n := by simp [beBytes]
variable (xs : List UInt8)
private theorem foldl_reverse :
    xs.reverse.foldl (fun acc b => acc * 256 + b.toNat) 0 = leNat xs := by
  induction xs with
  | nil => rfl
  | cons b xs ih =>
    rw [List.reverse_cons,List.foldl_append,ih,List.foldl_cons,List.foldl_nil,leNat_cons]
    ring

theorem beNat_beBytes (n v : Nat) : beNat (beBytes n v) = v % 256 ^ n := by
  rw [beNat,beBytes,foldl_reverse,leNat_leBytes]
theorem beNat_eq_leNat : beNat xs = leNat xs.reverse := by
  rw [← foldl_reverse,List.reverse_reverse,beNat]

theorem beNat_cons (b : UInt8) (xs : List UInt8) : beNat (b :: xs) = b.toNat * 256 ^ xs.length + beNat xs := by
  rw [beNat_eq_leNat,beNat_eq_leNat,List.reverse_cons,leNat_append,leNat_cons,List.length_reverse]
  simp only [leNat_nil]
  ring

theorem beNat_lt : beNat xs < 256 ^ xs.length := by
  rw [beNat_eq_leNat,← List.length_reverse]
  exact leNat_lt _

theorem beBytes_beNat : beBytes xs.length (beNat xs) = xs := by
  rw [beBytes,List.reverse_eq_iff]
  apply leNat_inj
  · simp
  · rw [leNat_leBytes,← beNat_eq_leNat,Nat.mod_eq_of_lt (beNat_lt xs)]
end PureCrypto.ByteArrays
