import Mathlib.Data.List.Basic
import Mathlib.Data.List.TakeWhile

/-! # Partition points and insertion at them -/
namespace PureCrypto
open List
variable {α : Type*}
/-- Index of the first element that fails `p`, in a list that satisfies it up to some point. -/
def partitionPoint (p : α → Bool) (l : List α) : Nat := (l.takeWhile p).length

/-- Once `p` has failed it fails from there on. -/
def Partitioned (p : α → Bool) (l : List α) : Prop := l.Pairwise fun a b => p b = true → p a = true

theorem drop_partitionPoint (p : α → Bool) (l : List α) : l.drop (partitionPoint p l) = l.dropWhile p := by
  calc l.drop (partitionPoint p l) = (l.takeWhile p ++ l.dropWhile p).drop (l.takeWhile p).length := by
        rw [takeWhile_append_dropWhile,partitionPoint]
    _ = l.dropWhile p := drop_left

theorem getElem?_partitionPoint (p : α → Bool) (l : List α) : l[partitionPoint p l]? = (l.dropWhile p).head? := by
  rw [← drop_partitionPoint,head?_drop]

theorem dropWhile_eq_filter {p : α → Bool} {l : List α} (h : Partitioned p l) :
    l.dropWhile p = l.filter fun a => !p a := by
  induction l with
  | nil => rfl
  | cons a l ih =>
    obtain ⟨hhead,htail⟩ := pairwise_cons.mp h
    cases hp : p a with
    | true => simp [hp,ih htail]
    | false =>
      have hrest : ∀ b ∈ l, p b = false := by
        intro b hb
        by_contra hpb
        have := hhead b hb (by simpa using hpb)
        simp [hp] at this
      simp only [dropWhile_cons,hp,filter_cons,Bool.not_false,if_true]
      simp only [Bool.false_eq_true,if_false]
      congr 1
      exact (filter_eq_self.mpr fun b hb => by simp [hrest b hb]).symm

theorem partitionPoint_eq_countP {p : α → Bool} {l : List α} (h : Partitioned p l) :
    partitionPoint p l = l.countP p := by
  induction l with
  | nil => rfl
  | cons a l ih =>
    obtain ⟨hhead,htail⟩ := pairwise_cons.mp h
    rw [partitionPoint] at ih ⊢
    cases hp : p a with
    | true => simp [hp,ih htail]
    | false =>
      have hrest : l.countP p = 0 := by
        rw [countP_eq_zero]
        intro b hb hpb
        have := hhead b hb hpb
        simp [hp] at this
      simp [hp,hrest]

theorem insertIdx_middle (u t : List α) (x : α) : (u ++ t).insertIdx u.length x = u ++ x :: t := by
  induction u with
  | nil => simp
  | cons y u ih => simpa using ih
end PureCrypto
