import Mathlib.Data.List.Basic

/-! # Runs of steps, of steps that can fail, and of steps that can be undone -/
namespace PureCrypto.Trace
variable {σ ι : Type*}
def run (step : σ → ι → σ) (s : σ) (is : List ι) : σ := is.foldl step s

/-- `P` holds of every step of the run, in the state the step starts from. -/
def Along (step : σ → ι → σ) (P : σ → ι → Prop) : σ → List ι → Prop
  | _, [] => True
  | s, i :: is => P s i ∧ Along step P (step s i) is

instance Along.decidable (step : σ → ι → σ) (P : σ → ι → Prop) [∀ s i, Decidable (P s i)] :
    (s : σ) → (is : List ι) → Decidable (Along step P s is)
  | _, [] => isTrue trivial
  | s, i :: is =>
    have := Along.decidable step P (step s i) is
    inferInstanceAs (Decidable (P s i ∧ Along step P (step s i) is))
variable {step : σ → ι → σ} {P Q : σ → ι → Prop}
@[simp] theorem run_nil (s : σ) : run step s [] = s := rfl

@[simp] theorem run_cons (s : σ) (i : ι) (is : List ι) : run step s (i :: is) = run step (step s i) is := rfl

theorem run_append (s : σ) (is js : List ι) : run step s (is ++ js) = run step (run step s is) js := List.foldl_append
variable {is : List ι}
theorem Along.of_forall {p : ι → Prop} (s : σ) (h : ∀ i ∈ is, p i) :
    Along step (fun _ i => p i) s is := by
  induction is generalizing s with
  | nil => trivial
  | cons i is ih => exact ⟨h i (by simp),ih _ (fun j hj => h j (by simp [hj]))⟩

theorem Along.and {s : σ} (hP : Along step P s is) (hQ : Along step Q s is) :
    Along step (fun s i => P s i ∧ Q s i) s is := by
  induction is generalizing s with
  | nil => trivial
  | cons i is ih => exact ⟨⟨hP.1,hQ.1⟩,ih hP.2 hQ.2⟩

theorem Along.invariant {Inv : σ → Prop} (hstep : ∀ s i, Inv s → P s i → Inv (step s i)) {s : σ}
    (h : Along step P s is) (h0 : Inv s) : Inv (run step s is) := by
  induction is generalizing s with
  | nil => exact h0
  | cons i is ih => exact ih h.2 (hstep s i h0 h.1)
end PureCrypto.Trace
namespace PureCrypto
variable {α β ε : Type}
theorem bind_eq_ok {x : Except ε α} {f : α → Except ε β} {b : β} :
    x >>= f = .ok b ↔ ∃ a, x = .ok a ∧ f a = .ok b := by
  constructor
  · intro h
    cases x with
    | ok a => exact ⟨a,rfl,h⟩
    | error e => cases h
  · rintro ⟨a,rfl,h⟩
    exact h

theorem map_eq_ok {x : Except ε α} {f : α → β} {b : β} : x.map f = .ok b ↔ ∃ a, x = .ok a ∧ f a = b := by
  cases x with
  | ok a => simp [Except.map]
  | error e => simp [Except.map]

theorem forM_eq_ok {f : α → Except ε Unit} {l : List α} {u : Unit} : l.forM f = .ok u ↔ ∀ a ∈ l, f a = .ok () := by
  induction l with
  | nil => simp [List.forM,pure,Except.pure]
  | cons a l ih =>
    change (f a >>= fun _ => l.forM f) = .ok u ↔ _
    rw [bind_eq_ok,List.forall_mem_cons,ih]
    exact ⟨fun ⟨_,ha,hl⟩ => ⟨ha,hl⟩,fun ⟨ha,hl⟩ => ⟨(),ha,hl⟩⟩

/-- What every step of a fold keeps. -/
theorem foldlM_invariant {f : β → α → Except ε β} {P : β → Prop} (hstep : ∀ b a b', P b → f b a = .ok b' → P b')
    {l : List α} {b b' : β} (hb : P b) (h : l.foldlM f b = .ok b') : P b' := by
  induction l generalizing b with
  | nil =>
    cases h
    exact hb
  | cons a l ih =>
    obtain ⟨c,hc,h⟩ := bind_eq_ok.mp h
    exact ih (hstep b a c hb hc) h
end PureCrypto
namespace PureCrypto.Reversible
variable {σ : Type*} {enc dec : Nat → σ → σ} {Dom : Nat → σ → Prop}
def forward (enc : Nat → σ → σ) : Nat → σ → σ
  | 0, s => s
  | n + 1, s => enc n (forward enc n s)

def backward (dec : Nat → σ → σ) : Nat → σ → σ
  | 0, s => s
  | n + 1, s => backward dec n (dec n s)

/-- Stage `k` goes from the domain `k` to the domain `k + 1`, and back. -/
structure Stages (enc dec : Nat → σ → σ) (Dom : Nat → σ → Prop) : Prop where
  enc_mem : ∀ k s, Dom k s → Dom (k + 1) (enc k s)
  dec_mem : ∀ k s, Dom (k + 1) s → Dom k (dec k s)
  dec_enc : ∀ k s, Dom k s → dec k (enc k s) = s
  enc_dec : ∀ k s, Dom (k + 1) s → enc k (dec k s) = s
namespace Stages
variable (h : Stages enc dec Dom)
include h
theorem forward_mem (n : Nat) {s : σ} (hs : Dom 0 s) : Dom n (forward enc n s) := by
  induction n with
  | zero => exact hs
  | succ n ih => exact h.enc_mem n _ ih

theorem backward_forward (n : Nat) {s : σ} (hs : Dom 0 s) : backward dec n (forward enc n s) = s := by
  induction n with
  | zero => rfl
  | succ n ih => rw [forward,backward,h.dec_enc n _ (h.forward_mem n hs),ih]

theorem forward_backward (n : Nat) {s : σ} (hs : Dom n s) : forward enc n (backward dec n s) = s := by
  induction n generalizing s with
  | zero => rfl
  | succ n ih => rw [forward,backward,ih (h.dec_mem n s hs),h.enc_dec n s hs]
end Stages
end PureCrypto.Reversible
