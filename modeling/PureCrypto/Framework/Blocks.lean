import Mathlib.Data.List.Basic

/-! # Streams cut into blocks -/
namespace PureCrypto.Blocks
open List Nat
variable {α β ε : Type*}
/-- The first `k` blocks of length `n`, short where the list ends early. -/
def blocks (n : Nat) : Nat → List α → List (List α)
  | 0, _ => []
  | k + 1, xs => xs.take n :: blocks n k (xs.drop n)
section Blocks
variable (n : Nat)
@[simp] theorem length_blocks (k : Nat) (xs : List α) : (blocks n k xs).length = k := by
  induction k generalizing xs with
  | zero => rfl
  | succ k ih => simp [blocks,ih]

theorem blocks_add (j k : Nat) (xs : List α) :
    blocks n (j + k) xs = blocks n j xs ++ blocks n k (xs.drop (n * j)) := by
  induction j generalizing xs with
  | zero => simp [blocks]
  | succ j ih =>
    rw [show j + 1 + k = j + k + 1 by omega,blocks,ih,blocks,cons_append,drop_drop,mul_succ,Nat.add_comm n]
variable {k : Nat} {xs : List α} {bs : List (List α)}
/-- Blocks that are complete do not depend on what follows. -/
theorem blocks_append (h : n * k ≤ xs.length) (ys : List α) : blocks n k (xs ++ ys) = blocks n k xs := by
  induction k generalizing xs with
  | zero => rfl
  | succ k ih =>
    have hle : n ≤ xs.length := by
      rw [mul_succ] at h
      omega
    have hrest : n * k ≤ (xs.drop n).length := by
      rw [length_drop]
      rw [mul_succ] at h
      omega
    rw [blocks,blocks,take_append_of_le_length hle,drop_append_of_le_length hle,ih hrest]

/-- Blocks of a list that has grown, with those that were complete before taken out. -/
theorem blocks_resume {j : Nat} (h : n * j ≤ xs.length) (k : Nat) (ys : List α) :
    blocks n (j + k) (xs ++ ys) = blocks n j xs ++ blocks n k (xs.drop (n * j) ++ ys) := by
  rw [blocks_add,blocks_append n h,drop_append_of_le_length h]

theorem div_resume (hn : 0 < n) (xs ys : List α) : (xs ++ ys).length / n =
      xs.length / n + (xs.drop (n * (xs.length / n)) ++ ys).length / n := by
  have hsplit := div_add_mod xs.length n
  have hlength : (xs ++ ys).length =
      (xs.drop (n * (xs.length / n)) ++ ys).length + n * (xs.length / n) := by
    simp only [length_append,length_drop]
    omega
  rw [hlength,add_mul_div_left _ _ hn,Nat.add_comm]

/-- A short block at the end counts. -/
theorem div_ceil {n r : Nat} (hr : 0 < r) (hrn : r ≤ n) : (n * k + r + n - 1) / n = k + 1 := by
  have hlength : n * k + r + n - 1 = (r - 1) + n * (k + 1) := by
    rw [mul_succ]
    omega
  rw [hlength,add_mul_div_left _ _ (by omega),div_eq_of_lt (by omega),Nat.zero_add]

theorem blocks_succ (k : Nat) (xs : List α) : blocks n (k + 1) xs = blocks n k xs ++ [(xs.drop (n * k)).take n] := by
  rw [blocks_add]
  rfl

theorem getElem_blocks {i : Nat} (xs : List α) (h : i < (blocks n k xs).length) :
    (blocks n k xs)[i] = (xs.drop (n * i)).take n := by
  induction k generalizing xs i with
  | zero => simp [blocks] at h
  | succ k ih =>
    cases i with
    | zero => simp [blocks]
    | succ i =>
      simp only [blocks,getElem_cons_succ]
      rw [ih,drop_drop,mul_succ,Nat.add_comm n]

theorem flatten_blocks (k : Nat) (xs : List α) : (blocks n k xs).flatten = xs.take (n * k) := by
  induction k generalizing xs with
  | zero => simp [blocks]
  | succ k ih =>
    rw [blocks,flatten_cons,ih,mul_succ,Nat.add_comm,take_add]

theorem length_of_mem_blocks {b : List α} (h : n * k ≤ xs.length) (hb : b ∈ blocks n k xs) : b.length = n := by
  obtain ⟨i,hi,rfl⟩ := getElem_of_mem hb
  rw [getElem_blocks,length_take,length_drop]
  rw [length_blocks] at hi
  have hle : n * (i + 1) ≤ n * k := Nat.mul_le_mul_left n hi
  rw [mul_succ] at hle
  omega

theorem blocks_flatten (h : ∀ b ∈ bs, b.length = n) (rest : List α) :
    blocks n bs.length (bs.flatten ++ rest) = bs := by
  induction bs with
  | nil => rfl
  | cons b bs ih =>
    have hb : b.length = n := h b (by simp)
    rw [length_cons,blocks,flatten_cons,append_assoc,← hb,take_left,drop_left,hb,ih fun c hc => h c (by simp [hc])]

theorem length_flatten_of_forall (h : ∀ b ∈ bs, b.length = n) : bs.flatten.length = n * bs.length := by
  rw [length_flatten,map_congr_left h,map_const',sum_replicate_nat,Nat.mul_comm]
end Blocks
def feed (stage : Nat → List α → Except ε (List β)) :
    Nat → List (List α) → List β → Nat × List β × Except ε Unit
  | i, [], out => (i, out, .ok ())
  | i, b :: bs, out =>
    match stage i b with
    | .ok x => feed stage (i + 1) bs (out ++ x)
    | .error e => (i, out, .error e)
variable {stage : Nat → List α → Except ε (List β)}
variable {i j : Nat} {bs : List (List α)} {out out' : List β}
theorem feed_append (i : Nat) (bs cs : List (List α)) (out : List β) :
    feed stage i (bs ++ cs) out = match feed stage i bs out with
      | (j, out', .ok ()) => feed stage j cs out'
      | (j, out', .error e) => (j, out', .error e) := by
  induction bs generalizing i out with
  | nil => rfl
  | cons b bs ih =>
    rw [cons_append,feed,feed]
    cases stage i b with
    | ok x => exact ih _ _
    | error e => rfl

theorem feed_append_ok (h : feed stage i bs out = (j, out', .ok ())) (cs : List (List α)) :
    feed stage i (bs ++ cs) out = feed stage j cs out' := by
  rw [feed_append,h]
theorem feed_append_error {e : ε} (h : feed stage i bs out = (j, out', .error e))
    (cs : List (List α)) : feed stage i (bs ++ cs) out = (j, out', .error e) := by
  rw [feed_append,h]

theorem feed_append_eq_ok {cs : List (List α)} (h : feed stage i (bs ++ cs) out = (j, out', .ok ())) :
    ∃ k out₁, feed stage i bs out = (k, out₁, .ok ()) ∧ feed stage k cs out₁ = (j, out', .ok ()) := by
  obtain ⟨k,out₁,r,hbs⟩ : ∃ k out₁ r, feed stage i bs out = (k, out₁, r) := ⟨_,_,_,rfl⟩
  cases r with
  | error e =>
    rw [feed_append_error hbs] at h
    cases h
  | ok u => exact ⟨k,out₁,hbs,(feed_append_ok hbs cs).symm.trans h⟩
variable (stage) in
/-- The output is that of the blocks before the first failure, each accepted at its index. -/
theorem feed_output (i : Nat) (bs : List (List α)) (out : List β) : ∃ xs : List (List β), xs.length ≤ bs.length ∧
      (∀ k (hk : k < xs.length) (hk' : k < bs.length), stage (i + k) bs[k] = .ok xs[k]) ∧
      (feed stage i bs out).2.1 = out ++ xs.flatten := by
  induction bs generalizing i out with
  | nil => exact ⟨[],by simp [feed]⟩
  | cons b bs ih =>
    rw [feed]
    cases hb : stage i b with
    | error e => exact ⟨[],by simp⟩
    | ok x =>
      obtain ⟨xs,hlength,hstage,hout⟩ := ih (i + 1) (out ++ x)
      refine ⟨x :: xs,by simpa using hlength,?_,by simp [hout]⟩
      intro k hk hk'
      cases k with
      | zero => simpa using hb
      | succ k =>
        have h := hstage k (by simpa using hk) (by simpa using hk')
        rw [show i + 1 + k = i + (k + 1) by omega] at h
        simpa using h

theorem exists_images (P : Nat → List α → List β → Prop)
    (h : ∀ k (hk : k < bs.length), ∃ x, P k bs[k] x) : ∃ xs : List (List β), xs.length = bs.length ∧
      ∀ k (hk : k < bs.length) (hk' : k < xs.length), P k bs[k] xs[k] := by
  choose f hf using h
  refine ⟨List.ofFn fun k : Fin bs.length => f k k.2,length_ofFn,?_⟩
  intro k hk hk'
  rw [List.getElem_ofFn]
  exact hf k hk

theorem feed_eq_ok {xs : List (List β)} (hlength : xs.length = bs.length)
    (h : ∀ k (hk : k < bs.length) (hk' : k < xs.length), stage (i + k) bs[k] = .ok xs[k])
    (out : List β) : feed stage i bs out = (i + bs.length, out ++ xs.flatten, .ok ()) := by
  induction bs generalizing i out xs with
  | nil => simp [feed,eq_nil_of_length_eq_zero hlength]
  | cons b bs ih =>
    obtain ⟨x,xs,rfl⟩ := exists_cons_of_length_pos (by rw [hlength]; simp)
    have hb : stage i b = .ok x := h 0 (by simp) (by simp)
    have hrest : ∀ k (hk : k < bs.length) (hk' : k < xs.length), stage (i + 1 + k) bs[k] = .ok xs[k] := by
      intro k hk hk'
      have h' := h (k + 1) (by simpa using hk) (by simpa using hk')
      rw [show i + 1 + k = i + (k + 1) by omega]
      simpa using h'
    have ih' := ih (by simpa using hlength) hrest (out ++ x)
    simp only [feed,hb,ih',length_cons,flatten_cons,append_assoc]
    rw [show i + 1 + bs.length = i + (bs.length + 1) by omega]
end PureCrypto.Blocks
