import PureCrypto.Framework.SortedMap

/-! # Disjoint fragments of a sequence -/
namespace PureCrypto
open List
variable {α : Type*}
variable {S bs : List α} {n a : Nat}
theorem take_append_slice (hn : n ≤ S.length) (h : bs <+: S.drop n) :
    S.take n ++ bs = S.take (n + bs.length) ∧ n + bs.length ≤ S.length := by
  have hb : bs = (S.drop n).take bs.length := prefix_iff_eq_take.mp h
  have hl := h.length_le
  rw [length_drop] at hl
  refine ⟨?_,by omega⟩
  rw [take_add]
  exact congrArg (S.take n ++ ·) hb

theorem slice_drop (j : Nat) (h : bs <+: S.drop a) : bs.drop j <+: S.drop (a + j) := by
  obtain ⟨t,ht⟩ := h
  rw [← drop_drop,← ht,drop_append]
  exact prefix_append _ _

theorem take_append_drop_slice (hn : n ≤ S.length) (h : bs <+: S.drop a) (hle : a ≤ n) (hlt : n ≤ a + bs.length) :
    S.take n ++ bs.drop (n - a) = S.take (a + bs.length) ∧ a + bs.length ≤ S.length := by
  have hslice := slice_drop (n - a) h
  rw [Nat.add_sub_cancel' hle] at hslice
  have happ := take_append_slice hn hslice
  have hlen : n + (bs.drop (n - a)).length = a + bs.length := by
    rw [length_drop]
    omega
  rwa [hlen] at happ

theorem slice_cons {b : α} (h : b :: bs <+: S.drop a) : S[a]? = some b ∧ bs <+: S.drop (a + 1) := by
  refine ⟨?_,slice_drop 1 h⟩
  obtain ⟨t,ht⟩ := h
  rw [← Nat.add_zero a,← getElem?_drop,← ht]
  rfl

theorem slice_append {v : List α} {k : Nat} (hv : v <+: S.drop k)
    (hb : bs <+: S.drop (k + v.length)) : v ++ bs <+: S.drop k := by
  obtain ⟨t,ht⟩ := hv
  have hd : S.drop (k + v.length) = t := by
    rw [← drop_drop,← ht,drop_left]
  rw [hd] at hb
  rw [← ht]
  exact (prefix_append_right_inj v).mpr hb
namespace Fragments
variable {S : List α} {m : SortedMap Nat (List α)} {e : Nat × List α} {a k : Nat} {v bs : List α}
/-- `x` lies in a stored run. -/
def Held (m : SortedMap Nat (List α)) (x : Nat) : Prop :=
  ∃ e ∈ m.entries, e.1 ≤ x ∧ x < e.1 + e.2.length

/-- No run is empty, and each ends before the next one starts. -/
structure Tidy (m : SortedMap Nat (List α)) : Prop where
  nonempty : ∀ e ∈ m.entries, e.2 ≠ []
  apart : ∀ e ∈ m.entries, ∀ e' ∈ m.entries, e.1 < e'.1 → e.1 + e.2.length ≤ e'.1

/-- Every run is the slice of `S` at its key. -/
def SlicesOf (S : List α) (m : SortedMap Nat (List α)) : Prop :=
  ∀ e ∈ m.entries, e.2 <+: S.drop e.1

def totalLength (m : SortedMap Nat (List α)) : Nat := m.sum (fun _ v => v.length)
theorem Tidy.empty : Tidy (SortedMap.empty : SortedMap Nat (List α)) :=
  ⟨fun _ h => absurd h not_mem_nil,fun _ h => absurd h not_mem_nil⟩

theorem not_held_empty (x : Nat) : ¬ Held (SortedMap.empty : SortedMap Nat (List α)) x := by
  intro h
  obtain ⟨e,he,-⟩ := h
  exact absurd he not_mem_nil

theorem SlicesOf.empty (S : List α) : SlicesOf S SortedMap.empty :=
  fun _ h => absurd h not_mem_nil
theorem Tidy.length_pos (hm : Tidy m) (he : e ∈ m.entries) : 0 < e.2.length :=
  length_pos_iff.mpr (hm.nonempty e he)
theorem Tidy.held_start (hm : Tidy m) (he : e ∈ m.entries) : Held m e.1 := by
  have hp := hm.length_pos he
  exact ⟨e,he,le_refl _,by omega⟩
theorem Tidy.held_last (hm : Tidy m) (he : e ∈ m.entries) : Held m (e.1 + e.2.length - 1) := by
  have hp := hm.length_pos he
  exact ⟨e,he,by omega,by omega⟩

theorem Tidy.disjoint (hm : Tidy m) {e' : Nat × List α} (he : e ∈ m.entries) (he' : e' ∈ m.entries)
    (hne : e ≠ e') : e.1 + e.2.length ≤ e'.1 ∨ e'.1 + e'.2.length ≤ e.1 := by
  rcases Nat.lt_trichotomy e.1 e'.1 with h | h | h
  · exact .inl (hm.apart e he e' he' h)
  · have hv : e.2 = e'.2 := m.value_unique (k := e.1) he (by rw [h]; exact he')
    exact absurd (Prod.ext h hv) hne
  · exact .inr (hm.apart e' he' e he h)

private theorem sum_length_le (es : List (Nat × List α)) (lo hi : Nat) (hlh : lo ≤ hi)
    (hs : es.Pairwise (fun a b => a.1 + a.2.length ≤ b.1))
    (hlo : ∀ e ∈ es, lo ≤ e.1) (hhi : ∀ e ∈ es, e.1 + e.2.length ≤ hi) :
    (es.map (fun e => e.2.length)).sum + lo ≤ hi := by
  induction es generalizing lo with
  | nil => simpa using hlh
  | cons e es ih =>
    obtain ⟨hhead,htail⟩ := pairwise_cons.mp hs
    have hl := hlo e (by simp)
    have hh := hhi e (by simp)
    have hrest := ih (e.1 + e.2.length) hh htail hhead (fun x hx => hhi x (by simp [hx]))
    simp only [map_cons,sum_cons]
    omega

theorem Tidy.totalLength_le (hm : Tidy m) {lo hi : Nat} (hlh : lo ≤ hi)
    (h : ∀ x, Held m x → lo ≤ x ∧ x < hi) : totalLength m + lo ≤ hi := by
  apply sum_length_le m.entries lo hi hlh
  · refine m.sorted.imp_of_mem ?_
    intro a b ha hb hab
    exact hm.apart a ha b hb hab
  · intro e he
    exact (h e.1 (hm.held_start he)).1
  · intro e he
    have hl := (h _ (hm.held_last he)).2
    omega

theorem Tidy.insert (hm : Tidy m) (hbs : bs ≠ [])
    (hfree : ∀ x, a ≤ x → x < a + bs.length → ¬ Held m x) : Tidy (m.insert a bs) := by
  have hpos := length_pos_iff.mpr hbs
  constructor
  · intro e he
    rcases (m.mem_insert a bs e).mp he with rfl | ⟨he,-⟩
    · exact hbs
    · exact hm.nonempty e he
  · intro e he e' he' hlt
    rcases (m.mem_insert a bs e).mp he with rfl | ⟨he,hek⟩ <;>
      rcases (m.mem_insert a bs e').mp he' with rfl | ⟨he',hek'⟩
    · omega
    · -- the new run stops before `e'`, whose start is not free
      by_contra hlap
      simp only at hlt hlap
      exact hfree e'.1 (by omega) (by omega) (hm.held_start he')
    · by_contra hlap
      exact hfree a (le_refl a) (by omega) ⟨e,he,by omega,by omega⟩
    · exact hm.apart e he e' he' hlt

theorem Tidy.get?_none_of_free (hm : Tidy m) (hfree : ¬ Held m a) : m.get? a = none := by
  rw [SortedMap.get?_eq_none_iff]
  intro e he hk
  exact hfree (hk ▸ hm.held_start he)

/-- A run may replace a shorter one at its offset. -/
theorem held_insert_of_longer (h : ∀ v, m.get? a = some v → v.length ≤ bs.length) (x : Nat) :
    Held (m.insert a bs) x ↔ Held m x ∨ (a ≤ x ∧ x < a + bs.length) := by
  constructor
  · rintro ⟨e,he,hx⟩
    rcases (m.mem_insert a bs e).mp he with rfl | ⟨he,-⟩
    · exact .inr hx
    · exact .inl ⟨e,he,hx⟩
  · rintro (⟨e,he,hx⟩ | hx)
    · by_cases hk : e.1 = a
      · have hlen := h e.2 ((m.get?_eq_some_iff a e.2).mpr (hk ▸ he))
        exact ⟨(a, bs),(m.mem_insert a bs _).mpr (.inl rfl),by omega,by
          simp only
          omega⟩
      · exact ⟨e,(m.mem_insert a bs e).mpr (.inr ⟨he,hk⟩),hx⟩
    · exact ⟨(a, bs),(m.mem_insert a bs _).mpr (.inl rfl),hx⟩

theorem Tidy.held_insert (hm : Tidy m) (bs : List α) (hfree : ¬ Held m a) (x : Nat) :
    Held (m.insert a bs) x ↔ Held m x ∨ (a ≤ x ∧ x < a + bs.length) := by
  apply held_insert_of_longer
  rw [hm.get?_none_of_free hfree]
  intro v hv
  cases hv

theorem Tidy.totalLength_insert (hm : Tidy m) (bs : List α) (hfree : ¬ Held m a) :
    totalLength (m.insert a bs) = totalLength m + bs.length := by
  have h := m.sum_insert_new (k := a) bs (fun _ v => v.length) (hm.get?_none_of_free hfree)
  unfold totalLength
  omega

theorem SlicesOf.insert (hm : SlicesOf S m) (hb : bs <+: S.drop a) : SlicesOf S (m.insert a bs) := by
  intro e he
  rcases (m.mem_insert a bs e).mp he with rfl | ⟨he,-⟩
  · exact hb
  · exact hm e he

theorem Tidy.extend (hm : Tidy m) (hk : (k, v) ∈ m.entries)
    (hfree : ∀ x, k + v.length ≤ x → x < k + v.length + bs.length → ¬ Held m x) :
    Tidy (m.modify k (fun frag => frag ++ bs)) := by
  constructor
  · intro e he
    obtain ⟨ek,ev⟩ := e
    rcases (m.mem_modify k _ ek ev).mp he with ⟨-,he⟩ | ⟨-,w,hw,rfl⟩
    · exact hm.nonempty _ he
    · intro hnil
      exact hm.nonempty _ hw (append_eq_nil_iff.mp hnil).1
  · intro e he e' he' hlt
    obtain ⟨ek,ev⟩ := e
    obtain ⟨fk,fv⟩ := e'
    have hstart : ∀ w, (fk, w) ∈ m.entries → ek + ev.length ≤ fk := by
      intro w hw
      rcases (m.mem_modify k _ ek ev).mp he with ⟨-,he⟩ | ⟨rfl,u,hu,rfl⟩
      · exact hm.apart _ he _ hw hlt
      · cases m.value_unique hu hk
        have hle := hm.apart _ hk _ hw hlt
        by_contra hlap
        simp only [length_append] at hle hlap
        exact hfree fk hle (by omega) (hm.held_start hw)
    rcases (m.mem_modify k _ fk fv).mp he' with ⟨-,he'⟩ | ⟨rfl,w,hw,rfl⟩
    · exact hstart _ he'
    · exact hstart _ hw

theorem held_extend (m : SortedMap Nat (List α)) (bs : List α) (hk : (k, v) ∈ m.entries) (x : Nat) :
    Held (m.modify k (fun frag => frag ++ bs)) x ↔
      Held m x ∨ (k + v.length ≤ x ∧ x < k + v.length + bs.length) := by
  simp only [Held]
  rw [m.exists_mem_modify hk,m.exists_mem_erase hk,or_assoc]
  apply or_congr_right
  simp only [length_append]
  omega

theorem totalLength_extend (m : SortedMap Nat (List α)) (bs : List α) (hk : (k, v) ∈ m.entries) :
    totalLength (m.modify k (fun frag => frag ++ bs)) = totalLength m + bs.length := by
  have h := m.sum_modify (fun frag => frag ++ bs) (fun _ v => v.length)
    ((m.get?_eq_some_iff k v).mpr hk)
  simp only [length_append] at h
  unfold totalLength
  omega

theorem SlicesOf.extend (hm : SlicesOf S m) (hk : (k, v) ∈ m.entries)
    (hb : bs <+: S.drop (k + v.length)) : SlicesOf S (m.modify k (fun frag => frag ++ bs)) := by
  intro e he
  obtain ⟨ek,ev⟩ := e
  rcases (m.mem_modify k _ ek ev).mp he with ⟨-,he⟩ | ⟨rfl,u,hu,rfl⟩
  · exact hm _ he
  · cases m.value_unique hu hk
    exact slice_append (hm _ hu) hb

theorem Tidy.erase (hm : Tidy m) (k : Nat) : Tidy (m.erase k) := by
  constructor
  · intro e he
    exact hm.nonempty e ((m.mem_erase k e).mp he).1
  · intro e he e' he' hlt
    exact hm.apart e ((m.mem_erase k e).mp he).1 e' ((m.mem_erase k e').mp he').1 hlt

theorem SlicesOf.erase (hm : SlicesOf S m) (k : Nat) : SlicesOf S (m.erase k) :=
  fun e he => hm e ((m.mem_erase k e).mp he).1
theorem Tidy.held_iff_erase (hk : (k, v) ∈ m.entries) (x : Nat) :
    Held m x ↔ Held (m.erase k) x ∨ (k ≤ x ∧ x < k + v.length) := by
  exact m.exists_mem_erase hk

/-- What lies before `next` or in a run, with the run at `k` moved in front of `next`. -/
theorem lt_max_or_held_erase {next : Nat} (hk : (k, v) ∈ m.entries) (hle : k ≤ next) (x : Nat) :
    x < max next (k + v.length) ∨ Held (m.erase k) x ↔ x < next ∨ Held m x := by
  rw [Tidy.held_iff_erase hk x]
  have hsplit : x < max next (k + v.length) ↔ x < next ∨ (k ≤ x ∧ x < k + v.length) := by omega
  rw [hsplit,or_right_comm,or_assoc]

theorem totalLength_erase (m : SortedMap Nat (List α)) (hk : (k, v) ∈ m.entries) :
    totalLength (m.erase k) + v.length = totalLength m := by
  have h := m.sum_eq_add_erase (fun _ v => v.length) ((m.get?_eq_some_iff k v).mpr hk)
  unfold totalLength
  omega

theorem erase_head (m : SortedMap Nat (List α)) {rest : List (Nat × List α)}
    (h : m.entries = e :: rest) : (m.erase e.1).entries = rest := by
  have hs := m.sorted
  rw [h] at hs
  have hlt := (pairwise_cons.mp hs).1
  simp only [SortedMap.erase,h]
  rw [filter_cons_of_neg (by simp)]
  refine filter_eq_self.mpr ?_
  intro x hx
  exact decide_eq_true (ne_of_gt (hlt x hx))

structure Adds (m m' : SortedMap Nat (List α)) (a : Nat) (bs : List α) : Prop where
  tidy : Tidy m'
  held : ∀ x, Held m' x ↔ Held m x ∨ (a ≤ x ∧ x < a + bs.length)
  total : totalLength m' = totalLength m + bs.length
  ends : ∀ e ∈ m.entries, e.1 + e.2.length ≠ a → e ∈ m'.entries
  slices : ∀ S, SlicesOf S m → bs <+: S.drop a → SlicesOf S m'

theorem Tidy.adds_extend (hm : Tidy m) (he : e ∈ m.entries) (bs : List α)
    (hfree : ∀ x, e.1 + e.2.length ≤ x → x < e.1 + e.2.length + bs.length → ¬ Held m x) :
    Adds m (m.modify e.1 (fun frag => frag ++ bs)) (e.1 + e.2.length) bs := by
  have hk : (e.1, e.2) ∈ m.entries := he
  refine ⟨hm.extend hk hfree,held_extend m bs hk,totalLength_extend m bs hk,?_,?_⟩
  · intro e' he' hne
    obtain ⟨ek,ev⟩ := e'
    refine (m.mem_modify e.1 _ ek ev).mpr (.inl ⟨?_,he'⟩)
    intro hkey
    subst hkey
    cases m.value_unique he' hk
    exact hne rfl
  · intro S hS hbs
    exact hS.extend hk hbs

theorem Tidy.adds_insert (hm : Tidy m) (hbs : bs ≠ [])
    (hfree : ∀ x, a ≤ x → x < a + bs.length → ¬ Held m x) : Adds m (m.insert a bs) a bs := by
  have hpos := length_pos_iff.mpr hbs
  have hstart := hfree a (le_refl _) (by omega)
  refine ⟨hm.insert hbs hfree,hm.held_insert bs hstart,hm.totalLength_insert bs hstart,?_,?_⟩
  · intro e he _
    refine (m.mem_insert a bs e).mpr (.inr ⟨he,?_⟩)
    intro hk
    exact hstart (hk ▸ hm.held_start he)
  · intro S hS hslice
    exact hS.insert hslice

/-- The last run that starts below `a` is the only one that can end there. -/
theorem Tidy.lastLT_of_end (hm : Tidy m) (he : e ∈ m.entries) (ha : e.1 + e.2.length = a) : m.lastLT a = some e := by
  have hp := hm.length_pos he
  refine (m.lastLT_eq_some_iff a e).mpr ⟨he,by omega,?_⟩
  intro e' he' hlt
  by_contra hgt
  have hapart := hm.apart e he e' he' (by omega)
  omega
end Fragments
end PureCrypto
