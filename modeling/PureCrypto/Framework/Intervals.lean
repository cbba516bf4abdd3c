import PureCrypto.Framework.SortedMap

/-! # Merged interval sets -/
namespace PureCrypto.Intervals
open List
/-- `x` lies in one of the intervals. -/
def Covers (m : SortedMap Nat Nat) (x : Nat) : Prop := ∃ e ∈ m.entries, e.1 ≤ x ∧ x < e.2

/-- No interval is empty, and no two touch. -/
structure Separated (m : SortedMap Nat Nat) : Prop where
  nonempty : ∀ e ∈ m.entries, e.1 < e.2
  apart : ∀ e ∈ m.entries, ∀ e' ∈ m.entries, e.1 < e'.1 → e.2 < e'.1

/-- One interval contains `[start, stop)`; an empty range is contained anyway. -/
def rangeCovered (m : SortedMap Nat Nat) (start stop : Nat) : Bool :=
  if stop ≤ start then true
  else
    match m.lastLE start with
    | some (s, e) => s ≤ start && stop ≤ e
    | none => false

/-- Remove the intervals that a range ending at `stop` reaches, extending its end. -/
def absorbFrom (m : SortedMap Nat Nat) (stop : Nat) : List (Nat × Nat) → SortedMap Nat Nat × Nat
  | [] => (m, stop)
  | (s, e) :: rest => if stop < s then (m, stop) else absorbFrom (m.erase s) (max stop e) rest

/-- Add `[start, stop)`, merging overlapping and adjacent intervals. -/
def insertRange (m : SortedMap Nat Nat) (start stop : Nat) : SortedMap Nat Nat :=
  if stop ≤ start then m
  else
    let (m, start, stop) := match m.lastLE start with
      | some (s, e) => if start ≤ e then (m.erase s, s, max stop e) else (m, start, stop)
      | none => (m, start, stop)
    let (m, stop) := absorbFrom m stop (m.fromKey start)
    m.insert start stop

theorem Separated.empty : Separated SortedMap.empty :=
  ⟨fun _ h => absurd h not_mem_nil,fun _ h => absurd h not_mem_nil⟩

theorem not_covers_empty (x : Nat) : ¬ Covers SortedMap.empty x := by
  intro h
  obtain ⟨e,he,-⟩ := h
  exact absurd he not_mem_nil
variable {m : SortedMap Nat Nat} {s e start : Nat}
theorem Separated.erase (hm : Separated m) (k : Nat) : Separated (m.erase k) :=
  ⟨fun e he => hm.nonempty e ((m.mem_erase k e).mp he).1,fun e he e' he' =>
    hm.apart e ((m.mem_erase k e).mp he).1 e' ((m.mem_erase k e').mp he').1⟩

theorem covers_erase (h : (s, e) ∈ m.entries) (x : Nat) : Covers m x ↔ Covers (m.erase s) x ∨ (s ≤ x ∧ x < e) := by
  exact m.exists_mem_erase h

/-- A run of covered offsets lies in one interval, since intervals do not touch. -/
theorem Separated.run_in_one (hm : Separated m) {a b : Nat} (hab : a < b)
    (h : ∀ x, a ≤ x → x < b → Covers m x) : ∃ e ∈ m.entries, e.1 ≤ a ∧ b ≤ e.2 := by
  obtain ⟨e,he,hlo,hhi⟩ := h a (le_refl a) hab
  refine ⟨e,he,hlo,?_⟩
  by_contra hlt
  -- the offset where `e` ends would have to lie in an interval that touches it
  obtain ⟨e',he',hlo',hhi'⟩ := h e.2 (le_of_lt hhi) (by omega)
  rcases Nat.lt_trichotomy e.1 e'.1 with hk | hk | hk
  · have := hm.apart e he e' he' hk
    omega
  · have hv : e.2 = e'.2 := m.value_unique (k := e.1) he (hk ▸ he')
    omega
  · have := hm.apart e' he' e he hk
    omega

theorem rangeCovered_iff (hm : Separated m) (a b : Nat) :
    rangeCovered m a b = true ↔ ∀ x, a ≤ x → x < b → Covers m x := by
  unfold rangeCovered
  by_cases hab : b ≤ a
  · rw [if_pos hab]
    exact ⟨fun _ x h1 h2 => absurd h2 (by omega),fun _ => rfl⟩
  rw [if_neg hab]
  constructor
  · intro h x hlo hhi
    cases hlast : m.lastLE a with
    | none =>
      rw [hlast] at h
      cases h
    | some e =>
      rw [hlast] at h
      simp only [Bool.and_eq_true,decide_eq_true_eq] at h
      exact ⟨e,((m.lastLE_eq_some_iff a e).mp hlast).1,by omega,by omega⟩
  · intro h
    obtain ⟨e,he,hlo,hhi⟩ := hm.run_in_one (by omega) h
    have hlast : m.lastLE a = some e := by
      refine (m.lastLE_eq_some_iff a e).mpr ⟨he,hlo,?_⟩
      intro e' he' hle
      by_contra hlt
      have := hm.apart e he e' he' (by omega)
      omega
    simp [hlast,hlo,hhi]

/-- What absorbing leaves: no interval between the range's start and its final end. -/
private structure Absorbed (m m' : SortedMap Nat Nat) (start stop stop' : Nat) : Prop where
  separated : Separated m'
  grows : stop ≤ stop'
  subset : ∀ e ∈ m'.entries, e ∈ m.entries
  after : ∀ e ∈ m'.entries, start ≤ e.1 → stop' < e.1
  covers : ∀ x, Covers m' x ∨ (start ≤ x ∧ x < stop') ↔ Covers m x ∨ (start ≤ x ∧ x < stop)

private theorem fromKey_erase_head {rest : List (Nat × Nat)} (h : m.fromKey start = (s, e) :: rest) :
    (m.erase s).fromKey start = rest := by
  have hs := m.fromKey_sorted start
  rw [h] at hs
  have hlt := (pairwise_cons.mp hs).1
  have hcomm : (m.erase s).fromKey start = (m.fromKey start).filter (fun e => decide (e.1 ≠ s)) := by
    simp only [SortedMap.fromKey,SortedMap.erase,List.filter_filter]
    congr 1
    funext e
    exact Bool.and_comm _ _
  rw [hcomm,h,filter_cons_of_neg (by simp)]
  refine filter_eq_self.mpr ?_
  intro x hx
  exact decide_eq_true (ne_of_gt (hlt x hx))

private theorem absorbFrom_spec (l : List (Nat × Nat)) (m : SortedMap Nat Nat) (stop : Nat)
    (hl : m.fromKey start = l) (hm : Separated m) :
    Absorbed m (absorbFrom m stop l).1 start stop (absorbFrom m stop l).2 := by
  induction l generalizing m stop with
  | nil =>
    refine ⟨hm,le_refl _,fun e he => he,?_,fun x => Iff.rfl⟩
    intro e he hle
    have : e ∈ m.fromKey start := (m.mem_fromKey start e).mpr ⟨he,hle⟩
    rw [hl] at this
    exact absurd this not_mem_nil
  | cons e rest ih =>
    obtain ⟨s,e⟩ := e
    obtain ⟨hmem,hle⟩ := (m.mem_fromKey start (s, e)).mp (by rw [hl]; simp)
    simp only [absorbFrom]
    by_cases hstop : stop < s
    · rw [if_pos hstop]
      refine ⟨hm,le_refl _,fun e he => he,?_,fun x => Iff.rfl⟩
      intro e' he' hle'
      have hin : e' ∈ (s, e) :: rest := by
        rw [← hl]
        exact (m.mem_fromKey start e').mpr ⟨he',hle'⟩
      rcases List.mem_cons.mp hin with rfl | hin
      · exact hstop
      · have hs := m.fromKey_sorted start
        rw [hl] at hs
        have := (pairwise_cons.mp hs).1 e' hin
        omega
    · rw [if_neg hstop]
      have h := ih (m.erase s) (max stop e) (fromKey_erase_head hl) (hm.erase s)
      have hg := h.grows
      refine ⟨h.separated,by omega,fun e' he' => ((m.mem_erase s e').mp (h.subset e' he')).1,h.after,?_⟩
      intro x
      rw [h.covers x,covers_erase hmem x]
      rw [or_assoc]
      apply or_congr_right
      omega

private theorem insert_absorbed (start stop : Nat) (hm : Separated m) (hlt : start < stop)
    (hbefore : ∀ e ∈ m.entries, e.1 < start → e.2 < start) :
    Separated ((absorbFrom m stop (m.fromKey start)).1.insert start (absorbFrom m stop (m.fromKey start)).2) ∧
      ∀ x, Covers ((absorbFrom m stop (m.fromKey start)).1.insert start
          (absorbFrom m stop (m.fromKey start)).2) x ↔ Covers m x ∨ (start ≤ x ∧ x < stop) := by
  have h := absorbFrom_spec (m.fromKey start) m stop rfl hm
  generalize (absorbFrom m stop (m.fromKey start)).1 = m' at h
  generalize (absorbFrom m stop (m.fromKey start)).2 = stop' at h
  have hg := h.grows
  have hmem := m'.mem_insert start stop'
  have hne : ∀ e ∈ m'.entries, e.1 ≠ start := by
    intro e he heq
    have := h.after e he (by omega)
    omega
  refine ⟨⟨?_,?_⟩,?_⟩
  · intro e he
    rcases (hmem e).mp he with rfl | ⟨he,-⟩
    · omega
    · exact h.separated.nonempty e he
  · intro e he e' he' hlt'
    rcases (hmem e).mp he with rfl | ⟨he,-⟩
    · rcases (hmem e').mp he' with rfl | ⟨he',-⟩
      · exact absurd hlt' (lt_irrefl _)
      · exact h.after e' he' (le_of_lt hlt')
    · rcases (hmem e').mp he' with rfl | ⟨he',-⟩
      · exact hbefore e (h.subset e he) hlt'
      · exact h.separated.apart e he e' he' hlt'
  · intro x
    rw [← h.covers x]
    constructor
    · intro hx
      obtain ⟨e,he,hx⟩ := hx
      rcases (hmem e).mp he with rfl | ⟨he,-⟩
      · exact .inr hx
      · exact .inl ⟨e,he,hx⟩
    · intro hx
      rcases hx with ⟨e,he,hx⟩ | hx
      · exact ⟨e,(hmem e).mpr (.inr ⟨he,hne e he⟩),hx⟩
      · exact ⟨(start, stop'),(hmem _).mpr (.inl rfl),hx⟩

theorem insertRange_spec (hm : Separated m) (start stop : Nat) : Separated (insertRange m start stop) ∧
      ∀ x, Covers (insertRange m start stop) x ↔ Covers m x ∨ (start ≤ x ∧ x < stop) := by
  unfold insertRange
  by_cases hempty : stop ≤ start
  · rw [if_pos hempty]
    exact ⟨hm,fun x => (or_iff_left (by omega)).symm⟩
  rw [if_neg hempty]
  cases hlast : m.lastLE start with
  | none =>
    have hafter := (m.lastLE_eq_none_iff start).mp hlast
    refine insert_absorbed start stop hm (by omega) ?_
    intro e he hlt
    have := hafter e he
    omega
  | some p =>
    obtain ⟨s,e⟩ := p
    obtain ⟨hmem,hle,hmax⟩ := (m.lastLE_eq_some_iff start (s, e)).mp hlast
    by_cases htouch : start ≤ e
    · simp only [if_pos htouch]
      have h := insert_absorbed s (max stop e) (hm.erase s) (by omega) ?_
      · refine ⟨h.1,fun x => (h.2 x).trans ?_⟩
        rw [covers_erase hmem x]
        rw [or_assoc]
        apply or_congr_right
        omega
      · intro e' he' hlt
        exact hm.apart e' ((m.mem_erase s e').mp he').1 (s, e) hmem hlt
    · simp only [if_neg htouch]
      refine insert_absorbed start stop hm (by omega) ?_
      intro e' he' hlt
      have hle' := hmax e' he' (le_of_lt hlt)
      rcases Nat.lt_or_ge e'.1 s with h | h
      · have := hm.apart e' he' (s, e) hmem h
        omega
      · have hk : e'.1 = s := by omega
        have hv : e'.2 = e := m.value_unique (k := s) (hk ▸ he') hmem
        omega

theorem Separated.unique (hm : Separated m) {e e' : Nat × Nat} (he : e ∈ m.entries)
    (he' : e' ∈ m.entries) {x : Nat} (hx : e.1 ≤ x ∧ x < e.2) (hx' : e'.1 ≤ x ∧ x < e'.2) : e = e' := by
  have hkey : e.1 = e'.1 := by
    rcases Nat.lt_trichotomy e.1 e'.1 with hk | hk | hk
    · have := hm.apart e he e' he' hk
      omega
    · exact hk
    · have := hm.apart e' he' e he hk
      omega
  exact Prod.ext hkey (m.value_unique (k := e.1) he (hkey ▸ he'))

/-- What an insertion newly covers lies in the interval that it merged the range into. -/
theorem insertRange_merged (hm : Separated m) {stop : Nat} (hlt : start < stop) :
    ∃ p, (insertRange m start stop).lastLE start = some p ∧ p.1 < p.2 ∧ ∀ a b, rangeCovered m a b = false →
      a < b ∧ (rangeCovered (insertRange m start stop) a b = true ↔ p.1 ≤ a ∧ b ≤ p.2) := by
  obtain ⟨hsep,hcov⟩ := insertRange_spec hm start stop
  obtain ⟨p,hp,hlo,hhi⟩ := hsep.run_in_one hlt fun x h1 h2 => (hcov x).mpr (.inr ⟨h1,h2⟩)
  refine ⟨p,(SortedMap.lastLE_eq_some_iff _ _ _).mpr ⟨hp,hlo,fun e he hle => ?_⟩,hsep.nonempty p hp,fun a b hnot => ?_⟩
  · by_contra hgt
    have := hsep.apart p hp e he (by omega)
    omega
  · rw [← Bool.not_eq_true,rangeCovered_iff hm] at hnot
    push Not at hnot
    obtain ⟨x,hax,hxb,hx⟩ := hnot
    refine ⟨by omega,?_⟩
    rw [rangeCovered_iff hsep]
    constructor
    · intro hall
      obtain ⟨e,he,hea,hbe⟩ := hsep.run_in_one (show a < b by omega) hall
      have hin := ((hcov x).mp (hall x hax hxb)).resolve_left hx
      obtain rfl := hsep.unique he hp (x := x) ⟨by omega,by omega⟩ ⟨by omega,by omega⟩
      exact ⟨hea,hbe⟩
    · intro hle y hy hyb
      exact ⟨p,hp,by omega,by omega⟩
end PureCrypto.Intervals
