import Mathlib.Data.List.Chain

/-! # Runs in a list -/
namespace PureCrypto.RunScan
open List
variable {α : Type*}
/-- What the scan looks for: the ends of a run, both marked and far apart. -/
def HasRun (mark : α → Bool) (breaks far : α → α → Prop) (l : List α) : Prop :=
  ∃ pre a mid b post, l = pre ++ a :: (mid ++ b :: post) ∧ mark a = true ∧ mark b = true ∧ far a b ∧
    (a :: (mid ++ [b])).IsChain fun x y => ¬breaks x y

/-- A marked element far from `a`, reached from `prev` without a break. -/
def Reaches (mark : α → Bool) (breaks far : α → α → Prop) (a : α) : α → List α → Prop
  | _, [] => False
  | prev, x :: l => ¬breaks prev x ∧ (mark x = true ∧ far a x ∨ Reaches mark breaks far a x l)

def scan (mark : α → Bool) (breaks far : α → α → Prop) [DecidableRel breaks] [DecidableRel far]
    (start prev : Option α) : List α → Bool
  | [] => false
  | x :: l =>
    let start := if prev.any fun p => decide (breaks p x) then none else start
    if ¬mark x then scan mark breaks far start (some x) l
    else
      match start with
      | none => scan mark breaks far (some x) (some x) l
      | some a => if far a x then true else scan mark breaks far (some a) (some x) l
variable {mark : α → Bool} {breaks far : α → α → Prop}
variable {l : List α}
theorem reaches_iff {a prev : α} : Reaches mark breaks far a prev l ↔
      ∃ mid b post, l = mid ++ b :: post ∧ mark b = true ∧ far a b ∧
        (prev :: (mid ++ [b])).IsChain fun x y => ¬breaks x y := by
  induction l generalizing prev with
  | nil => simp [Reaches]
  | cons x l ih =>
    rw [Reaches,ih]
    constructor
    · rintro ⟨hbreak,⟨hmark,hfar⟩ | ⟨mid,b,post,rfl,hmark,hfar,hchain⟩⟩
      · exact ⟨[],x,l,rfl,hmark,hfar,by simpa using hbreak⟩
      · exact ⟨x :: mid,b,post,rfl,hmark,hfar,isChain_cons_cons.mpr ⟨hbreak,hchain⟩⟩
    · rintro ⟨mid,b,post,heq,hmark,hfar,hchain⟩
      cases mid with
      | nil =>
        obtain ⟨rfl,rfl⟩ := List.cons.inj heq
        exact ⟨by simpa using hchain,.inl ⟨hmark,hfar⟩⟩
      | cons y mid =>
        obtain ⟨rfl,rfl⟩ := List.cons.inj heq
        obtain ⟨hbreak,hchain⟩ := isChain_cons_cons.mp hchain
        exact ⟨hbreak,.inr ⟨mid,b,post,rfl,hmark,hfar,hchain⟩⟩

theorem hasRun_cons {x : α} : HasRun mark breaks far (x :: l) ↔
      mark x = true ∧ Reaches mark breaks far x x l ∨ HasRun mark breaks far l := by
  rw [reaches_iff]
  constructor
  · rintro ⟨pre,a,mid,b,post,heq,ha,hb,hfar,hchain⟩
    cases pre with
    | nil =>
      obtain ⟨rfl,rfl⟩ := List.cons.inj heq
      exact .inl ⟨ha,mid,b,post,rfl,hb,hfar,hchain⟩
    | cons y pre =>
      obtain ⟨rfl,rfl⟩ := List.cons.inj heq
      exact .inr ⟨pre,a,mid,b,post,rfl,ha,hb,hfar,hchain⟩
  · rintro (⟨hx,mid,b,post,rfl,hb,hfar,hchain⟩ | ⟨pre,a,mid,b,post,rfl,ha,hb,hfar,hchain⟩)
    · exact ⟨[],x,mid,b,post,rfl,hx,hb,hfar,hchain⟩
    · exact ⟨x :: pre,a,mid,b,post,rfl,ha,hb,hfar,hchain⟩

theorem not_hasRun_nil : ¬HasRun mark breaks far [] := by
  rintro ⟨pre,a,mid,b,post,heq,-⟩
  cases pre <;> cases heq

theorem Reaches.mono {a x prev : α} (h : ∀ b ∈ l, far x b → far a b)
    (hr : Reaches mark breaks far x prev l) : Reaches mark breaks far a prev l := by
  induction l generalizing prev with
  | nil => exact hr
  | cons y l ih =>
    obtain ⟨hbreak,⟨hmark,hfar⟩ | hrest⟩ := hr
    · exact ⟨hbreak,.inl ⟨hmark,h y (by simp) hfar⟩⟩
    · exact ⟨hbreak,.inr (ih (fun b hb => h b (by simp [hb])) hrest)⟩
variable [DecidableRel breaks] [DecidableRel far]
/-- Where earlier elements are farther from every later one, the scan finds the runs. -/
theorem scan_iff (hfar : l.Pairwise fun a x => ∀ b, far x b → far a b) :
    (∀ prev, scan mark breaks far none prev l = true ↔ HasRun mark breaks far l) ∧
      ∀ a prev, (∀ x ∈ l, ∀ b, far x b → far a b) →
        (scan mark breaks far (some a) (some prev) l = true ↔
          Reaches mark breaks far a prev l ∨ HasRun mark breaks far l) := by
  induction l with
  | nil => simp [scan,Reaches,not_hasRun_nil]
  | cons x l ih =>
    obtain ⟨hx,hl⟩ := pairwise_cons.mp hfar
    obtain ⟨ihnone,ihsome⟩ := ih hl
    have hfresh : scan mark breaks far (some x) (some x) l = true ↔
        Reaches mark breaks far x x l ∨ HasRun mark breaks far l := ihsome x x fun y hy => hx y hy
    constructor
    · intro prev
      rw [scan,hasRun_cons]
      by_cases hmark : mark x = true
      · simp [hmark,hfresh]
      · simp [hmark,ihnone]
    · intro a prev ha
      rw [scan,hasRun_cons,Reaches]
      by_cases hbreak : breaks prev x
      · by_cases hmark : mark x = true
        · simp [hbreak,hmark,hfresh]
        · simp [hbreak,hmark,ihnone]
      · have hrest := ihsome a x fun y hy => ha y (by simp [hy])
        by_cases hmark : mark x = true
        · by_cases hax : far a x
          · simp [hbreak,hmark,hax]
          · have hmono : Reaches mark breaks far x x l → Reaches mark breaks far a x l :=
              Reaches.mono fun b _ h => ha x (by simp) b h
            simp only [hbreak,hmark,hax,Option.any_some,decide_false,Bool.false_eq_true,if_false,
              not_true,true_and,false_or,not_false_eq_true]
            tauto
        · simp [hbreak,hmark,hrest]
end PureCrypto.RunScan
