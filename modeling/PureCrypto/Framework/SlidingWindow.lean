import Mathlib.Data.Nat.Bitwise
import Mathlib.Data.List.Basic

/-! # Sliding windows -/
namespace PureCrypto
open List
/-- Numbers are checked and recorded; the accepted ones, the last one first. -/
def processAll {σ : Type*} (fresh : σ → Nat → Bool) (record : σ → Nat → σ) (start : σ) (ns : List Nat) : σ × List Nat :=
  ns.foldl (fun s n => if fresh s.1 n then (record s.1 n, n :: s.2) else s) (start, [])

theorem processAll_induction {σ : Type*} {fresh : σ → Nat → Bool} {record : σ → Nat → σ} {start : σ}
    {motive : σ → List Nat → Prop} (hstart : motive start [])
    (hstep : ∀ s accepted n, motive s accepted → fresh s n = true → motive (record s n) (n :: accepted))
    (ns : List Nat) : motive (processAll fresh record start ns).1 (processAll fresh record start ns).2 := by
  suffices hrun : ∀ s : σ × List Nat, motive s.1 s.2 →
      let r := ns.foldl (fun s n => if fresh s.1 n then (record s.1 n, n :: s.2) else s) s
      motive r.1 r.2 from hrun (start, []) hstart
  induction ns with
  | nil => exact fun _ hs => hs
  | cons n ns ih =>
    intro s hs
    rw [foldl_cons]
    split_ifs with hfresh
    · exact ih _ (hstep s.1 s.2 n hs hfresh)
    · exact ih s hs

structure SlidingWindow (w : Nat) where
  top : Nat
  bits : BitVec w
  seeded : Bool
namespace SlidingWindow
variable {w : Nat} {s : SlidingWindow w} {accepted : List Nat}
def fresh (s : SlidingWindow w) (n : Nat) : Bool :=
  !s.seeded || decide (s.top < n) || (decide (s.top - n < w) && !s.bits.getLsbD (s.top - n))

def record (s : SlidingWindow w) (n : Nat) : SlidingWindow w :=
  if !s.seeded then ⟨n, 1#w, true⟩
  else if s.top < n then ⟨n, if w ≤ n - s.top then 1#w else s.bits <<< (n - s.top) ||| 1#w, true⟩
  else if s.top - n < w then { s with bits := s.bits ||| 1#w <<< (s.top - n) }
  else s

/-- The window after some numbers were accepted, the last one first. -/
structure Tracks (s : SlidingWindow w) (accepted : List Nat) : Prop where
  seeded : s.seeded = true ↔ accepted ≠ []
  top : s.seeded = true → s.top ∈ accepted ∧ ∀ a ∈ accepted, a ≤ s.top
  bit : s.seeded = true → ∀ i < w, i ≤ s.top → (s.bits.getLsbD i = true ↔ s.top - i ∈ accepted)

theorem Tracks.max?_eq (h : s.Tracks accepted) (hseeded : s.seeded = true) : accepted.max? = some s.top :=
  max?_eq_some_iff.mpr (h.top hseeded)
theorem Tracks.eq_nil (h : s.Tracks accepted) (hseeded : s.seeded = false) : accepted = [] := by
  by_contra hne
  simp [h.seeded.mpr hne] at hseeded

theorem Tracks.fresh_iff (h : s.Tracks accepted) (n : Nat) :
    s.fresh n = true ↔ n ∉ accepted ∧ ∀ a ∈ accepted, a < n + w := by
  cases hseeded : s.seeded with
  | false =>
    obtain rfl := h.eq_nil hseeded
    simp [fresh,hseeded]
  | true =>
    obtain ⟨htop,hle⟩ := h.top hseeded
    by_cases hlt : s.top < n
    · refine iff_of_true (by simp [fresh,hlt]) ⟨fun hn => ?_,fun a ha => ?_⟩
      · exact absurd (hle n hn) (by omega)
      · have := hle a ha
        omega
    · by_cases hin : s.top - n < w
      · have hbit := h.bit hseeded _ hin (by omega)
        rw [show s.top - (s.top - n) = n by omega] at hbit
        have hwithin : ∀ a ∈ accepted, a < n + w := fun a ha => by
          have := hle a ha
          omega
        simp only [fresh,hseeded,hlt,hin,Bool.not_true,Bool.false_or,decide_false,decide_true,Bool.true_and,
          Bool.not_eq_true',← hbit,Bool.not_eq_true]
        exact ⟨fun hclear => ⟨hclear,hwithin⟩,And.left⟩
      · refine iff_of_false (by simp [fresh,hseeded,hlt,hin]) fun hn => ?_
        have := hn.2 _ htop
        omega

theorem getLsbD_one {i : Nat} (hi : i < w) : (1#w).getLsbD i = true ↔ i = 0 := by
  simp [BitVec.getLsbD_one]
  omega

theorem Tracks.record (hw : 0 < w) (h : s.Tracks accepted) {n : Nat} (hn : s.fresh n = true) :
    (s.record n).Tracks (n :: accepted) := by
  obtain ⟨hnew,hin⟩ := (h.fresh_iff n).mp hn
  cases hseeded : s.seeded with
  | false =>
    obtain rfl := h.eq_nil hseeded
    rw [SlidingWindow.record,hseeded]
    refine ⟨by simp,fun _ => by simp,fun _ i hi hle => ?_⟩
    change i ≤ n at hle
    change (1#w).getLsbD i = true ↔ n - i ∈ [n]
    rw [getLsbD_one hi,List.mem_singleton]
    omega
  | true =>
    obtain ⟨htop,hle⟩ := h.top hseeded
    have hbit := h.bit hseeded
    simp only [SlidingWindow.record,hseeded,Bool.not_true,Bool.false_eq_true,if_false]
    by_cases hlt : s.top < n
    · rw [if_pos hlt]
      refine ⟨by simp,fun _ => ⟨by simp,fun a ha => ?_⟩,fun _ i hi hle' => ?_⟩
      · rcases List.mem_cons.mp ha with rfl | ha
        · exact le_refl _
        · have := hle a ha
          exact le_trans this (le_of_lt hlt)
      · change i ≤ n at hle'
        -- what lies between the old largest number and the new one was not accepted
        have hgap : i < n - s.top → n - i ∉ accepted := fun hi' hmem => by
          have := hle _ hmem
          omega
        rw [List.mem_cons]
        by_cases hzero : i = 0
        · subst hzero
          have hlow : ((if w ≤ n - s.top then 1#w else s.bits <<< (n - s.top) ||| 1#w)).getLsbD 0 = true := by
            split_ifs <;> simp [hw]
          exact iff_of_true hlow (.inl (Nat.sub_zero n))
        have hne : n - i ≠ n := by omega
        by_cases hfar : w ≤ n - s.top
        · rw [if_pos hfar,getLsbD_one hi]
          exact iff_of_false hzero (by simp [hne,hgap (by omega)])
        · rw [if_neg hfar,BitVec.getLsbD_or,Bool.or_eq_true,BitVec.getLsbD_shiftLeft]
          by_cases hi' : i < n - s.top
          · simp [hi',hzero,hne,hgap hi']
          · have hold := hbit (i - (n - s.top)) (by omega) (by omega)
            rw [show s.top - (i - (n - s.top)) = n - i by omega] at hold
            simp [hi,hi',hzero,hne,hold]
    · have hdist : s.top - n < w := by
        have := hin _ htop
        omega
      rw [if_neg hlt,if_pos hdist]
      refine ⟨by simp,fun _ => ⟨by simp [htop],fun a ha => ?_⟩,fun _ i hi hle' => ?_⟩
      · rcases List.mem_cons.mp ha with rfl | ha
        · exact Nat.le_of_not_lt hlt
        · exact hle a ha
      · change i ≤ s.top at hle'
        rw [BitVec.getLsbD_or,Bool.or_eq_true,hbit i hi hle',BitVec.getLsbD_shiftLeft,List.mem_cons,Or.comm]
        refine or_congr_left ?_
        by_cases hi' : i < s.top - n
        · simp [hi']
          omega
        · have hone := @getLsbD_one w (i - (s.top - n)) (by omega)
          simp only [hi,hi',decide_true,decide_false,Bool.not_false,Bool.true_and,hone]
          omega

/-- Anything that checks and records as a window does, over a whole run. -/
theorem tracks_processAll {σ : Type*} {fresh : σ → Nat → Bool} {record : σ → Nat → σ} {start : σ}
    (window : σ → SlidingWindow w) (hw : 0 < w) (hstart : (window start).seeded = false)
    (hfresh : ∀ s n, fresh s n = (window s).fresh n) (hrecord : ∀ s n, window (record s n) = (window s).record n)
    (ns : List Nat) : (window (processAll fresh record start ns).1).Tracks (processAll fresh record start ns).2 ∧
      (processAll fresh record start ns).2.Nodup := by
  refine processAll_induction (motive := fun s accepted => (window s).Tracks accepted ∧ accepted.Nodup)
    ⟨⟨by simp [hstart],by simp [hstart],by simp [hstart]⟩,.nil⟩ ?_ ns
  rintro s accepted n ⟨htracks,hnodup⟩ hn
  rw [hfresh] at hn
  rw [hrecord]
  exact ⟨htracks.record hw hn,nodup_cons.mpr ⟨((htracks.fresh_iff n).mp hn).1,hnodup⟩⟩
end SlidingWindow
end PureCrypto
