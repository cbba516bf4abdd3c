import Mathlib.Data.List.MinMax
import PureCrypto.Framework.Bitmap
import PureCrypto.Framework.SlidingWindow

/-!
# Replay windows

`PnReplayWindow` of `quic/crypto.rs` and `AntiReplayWindow` of `dtls/replay.rs`.  Both are sliding windows over the
numbers accepted so far.
-/
namespace PureCrypto
namespace Quic
structure PnReplayWindow where
  top : Nat
  low : Nat
  bits : BitVec 128
  seeded : Bool
namespace PnReplayWindow
def new : PnReplayWindow := ⟨0, 0, 0#128, false⟩

def largest (s : PnReplayWindow) : Option Nat := if s.seeded then some s.top else none
def lowest (s : PnReplayWindow) : Option Nat := if s.seeded then some s.low else none

def isFresh (s : PnReplayWindow) (pn : Nat) : Bool :=
  if !s.seeded then true
  else if s.top < pn then true
  else
    let dist := s.top - pn
    if 128 ≤ dist then false else (s.bits >>> dist) &&& 1#128 == 0#128

def record (s : PnReplayWindow) (pn : Nat) : PnReplayWindow :=
  if !s.seeded then ⟨pn, pn, 1#128, true⟩
  else
    let s := { s with low := min s.low pn }
    if s.top < pn then
      let shift := pn - s.top
      { s with bits := if 128 ≤ shift then 1#128 else s.bits <<< shift ||| 1#128, top := pn }
    else
      let dist := s.top - pn
      if dist < 128 then { s with bits := s.bits ||| 1#128 <<< dist } else s

/-- The window after packets that all open, and the numbers accepted. -/
def run (pns : List Nat) : PnReplayWindow × List Nat := processAll isFresh record new pns

def window (s : PnReplayWindow) : SlidingWindow 128 := ⟨s.top, s.bits, s.seeded⟩
end PnReplayWindow
end Quic
namespace Dtls
def windowBits : Nat := 64

structure AntiReplayWindow where
  highest : Nat
  bitmap : BitVec 64
  seeded : Bool
namespace AntiReplayWindow
def new : AntiReplayWindow := ⟨0, 0#64, false⟩

def check (s : AntiReplayWindow) (seq : Nat) : Bool :=
  if !s.seeded then true
  else if s.highest < seq then true
  else
    let delta := s.highest - seq
    if windowBits ≤ delta then false else s.bitmap &&& 1#64 <<< delta == 0#64

def mark (s : AntiReplayWindow) (seq : Nat) : AntiReplayWindow :=
  if !s.seeded then ⟨seq, 1#64, true⟩
  else if s.highest < seq then
    let delta := seq - s.highest
    { s with bitmap := if windowBits ≤ delta then 1#64 else s.bitmap <<< delta ||| 1#64, highest := seq }
  else
    let delta := s.highest - seq
    if windowBits ≤ delta then s else { s with bitmap := s.bitmap ||| 1#64 <<< delta }

def run (seqs : List Nat) : AntiReplayWindow × List Nat := processAll check mark new seqs

def window (s : AntiReplayWindow) : SlidingWindow 64 := ⟨s.highest, s.bitmap, s.seeded⟩
end AntiReplayWindow
end Dtls
namespace Quic.PnReplayWindow
variable (s : PnReplayWindow)
theorem isFresh_eq (pn : Nat) : s.isFresh pn = s.window.fresh pn := by
  simp only [isFresh,shifted_bit_clear _ _ (show 0 < 128 by decide),SlidingWindow.fresh,window]
  cases s.seeded with
  | false => rfl
  | true =>
    by_cases hlt : s.top < pn
    · simp [hlt]
    · by_cases hin : s.top - pn < 128
      · simp [hlt,hin,Nat.not_le.mpr hin]
      · simp [hlt,hin,Nat.not_lt.mp hin]

theorem window_record (pn : Nat) : (s.record pn).window = s.window.record pn := by
  obtain ⟨top,low,bits,seeded⟩ := s
  cases seeded with
  | false => rfl
  | true =>
    by_cases hlt : top < pn
    · simp only [record,SlidingWindow.record,window,hlt,Bool.not_true,Bool.false_eq_true,if_true,if_false]
      rfl
    · by_cases hin : top - pn < 128 <;> simp [record,SlidingWindow.record,window,hlt,hin]

theorem low_record (pn : Nat) : (s.record pn).low = if s.seeded then min s.low pn else pn := by
  obtain ⟨top,low,bits,seeded⟩ := s
  cases seeded with
  | false => rfl
  | true =>
    simp only [record,Bool.not_true,Bool.false_eq_true,if_true,if_false]
    split_ifs <;> rfl
end Quic.PnReplayWindow
namespace Dtls.AntiReplayWindow
theorem check_eq (s : AntiReplayWindow) (seq : Nat) : s.check seq = s.window.fresh seq := by
  simp only [check,SlidingWindow.fresh,window,windowBits]
  cases s.seeded with
  | false => rfl
  | true =>
    by_cases hlt : s.highest < seq
    · simp [hlt]
    · by_cases hin : s.highest - seq < 64
      · simp only [masked_bit_clear _ _ hin]
        simp [hlt,hin,Nat.not_le.mpr hin]
      · simp [hlt,hin,Nat.not_lt.mp hin]

theorem window_mark (s : AntiReplayWindow) (seq : Nat) : (s.mark seq).window = s.window.record seq := by
  obtain ⟨highest,bitmap,seeded⟩ := s
  cases seeded with
  | false => rfl
  | true =>
    by_cases hlt : highest < seq
    · simp only [mark,SlidingWindow.record,window,windowBits,hlt,Bool.not_true,Bool.false_eq_true,if_true,if_false]
      rfl
    · by_cases hin : 64 ≤ highest - seq
      · simp [mark,SlidingWindow.record,window,windowBits,hlt,hin,Nat.not_lt.mpr hin]
      · simp [mark,SlidingWindow.record,window,windowBits,hlt,hin,Nat.not_le.mp hin]
end Dtls.AntiReplayWindow
theorem Quic.PnReplayWindow.lowest_run (pns : List Nat) : (run pns).1.lowest = (run pns).2.min? := by
  refine (processAll_induction (motive := fun (s : PnReplayWindow) accepted => s.window.Tracks accepted ∧ s.lowest = accepted.min?)
    ⟨⟨by simp [new,window],by simp [new,window],by simp [new,window]⟩,rfl⟩ ?_ pns).2
  rintro s accepted pn ⟨htracks,hlow⟩ hfresh
  rw [isFresh_eq] at hfresh
  have hrecord := htracks.record (by decide) hfresh
  rw [← window_record] at hrecord
  have hseeded : (s.record pn).seeded = true := hrecord.seeded.mpr (List.cons_ne_nil _ _)
  refine ⟨hrecord,?_⟩
  rw [lowest,if_pos hseeded,low_record,List.min?_cons,← hlow,lowest]
  cases s.seeded with
  | false => rfl
  | true => exact congrArg some (min_comm _ _)

open Quic Dtls
/-- Of every sequence of numbers, none is accepted twice, and those that would be accepted next are the ones not
accepted so far that are above the largest or less than a window below it. -/
theorem replay_windows_exact (ns : List Nat) (n : Nat) : ((PnReplayWindow.run ns).2.Nodup ∧
      ((PnReplayWindow.run ns).1.isFresh n = true ↔
        n ∉ (PnReplayWindow.run ns).2 ∧ ∀ m ∈ (PnReplayWindow.run ns).2, m ≤ n + 127) ∧
      (PnReplayWindow.run ns).1.largest = (PnReplayWindow.run ns).2.max? ∧
      (PnReplayWindow.run ns).1.lowest = (PnReplayWindow.run ns).2.min?) ∧ (AntiReplayWindow.run ns).2.Nodup ∧
      ((AntiReplayWindow.run ns).1.check n = true ↔
        n ∉ (AntiReplayWindow.run ns).2 ∧ ∀ m ∈ (AntiReplayWindow.run ns).2, m ≤ n + 63) := by
  obtain ⟨hquic,hnodup⟩ : (PnReplayWindow.run ns).1.window.Tracks (PnReplayWindow.run ns).2 ∧ _ :=
    SlidingWindow.tracks_processAll PnReplayWindow.window (by decide) rfl PnReplayWindow.isFresh_eq PnReplayWindow.window_record ns
  obtain ⟨hdtls,hnodup'⟩ : (AntiReplayWindow.run ns).1.window.Tracks (AntiReplayWindow.run ns).2 ∧ _ :=
    SlidingWindow.tracks_processAll AntiReplayWindow.window (by decide) rfl AntiReplayWindow.check_eq AntiReplayWindow.window_mark ns
  refine ⟨⟨hnodup,?_,?_,PnReplayWindow.lowest_run ns⟩,hnodup',?_⟩
  · rw [PnReplayWindow.isFresh_eq,hquic.fresh_iff]
    exact and_congr_right fun _ => forall₂_congr fun m _ => Nat.lt_succ_iff
  · rw [PnReplayWindow.largest]
    cases hseeded : (PnReplayWindow.run ns).1.seeded with
    | false => exact (congrArg List.max? (hquic.eq_nil hseeded)).symm
    | true => exact (hquic.max?_eq hseeded).symm
  · rw [AntiReplayWindow.check_eq,hdtls.fresh_iff]
    exact and_congr_right fun _ => forall₂_congr fun m _ => Nat.lt_succ_iff
end PureCrypto
