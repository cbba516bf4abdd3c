import PureCrypto.Pki.NameConstraints
import Mathlib.Data.Fintype.EquivFin

/-! # Subtrees of directory names -/
namespace PureCrypto.Pki.NameReader
open List
/-- One attempt after the other on a shared state, up to the first that succeeds. -/
def tryEach {ι σ : Type} (attempt : ι → σ → Bool × σ) : List ι → σ → Bool × σ
  | [], s => (false, s)
  | i :: l, s => if (attempt i s).1 then attempt i s else tryEach attempt l (attempt i s).2

/-- If failing attempts restore the state, each one starts from the same. -/
theorem tryEach_spec {ι σ : Type} {attempt : ι → σ → Bool × σ} {s : σ}
    (hrestores : ∀ i, (attempt i s).1 = false → (attempt i s).2 = s) (l : List ι) :
    (tryEach attempt l s).1 = l.any (fun i => (attempt i s).1) ∧
      ((tryEach attempt l s).1 = false → (tryEach attempt l s).2 = s) := by
  induction l with
  | nil => simp [tryEach]
  | cons i l ih =>
    rw [tryEach]
    cases h : (attempt i s).1 with
    | true => simp [h]
    | false => simpa [h,hrestores i h] using ih

/-- The body of the search's loop: attribute `i` is taken, and given back if the rest finds no pairing. -/
def takeFree (eligible : Nat → Bool) (search : List Bool → Bool × List Bool) (i : Nat) (used : List Bool) :
    Bool × List Bool :=
  if used[i]? == some false && eligible i then
    let (found, used) := search (used.set i true)
    if found then (true, used) else (false, used.set i false)
  else (false, used)
variable {used : List Bool}
theorem takeFree_spec {eligible : Nat → Bool} {search : List Bool → Bool × List Bool} {i : Nat}
    (hsearch : (search (used.set i true)).1 = false → (search (used.set i true)).2 = used.set i true) :
    (takeFree eligible search i used).1 = (used[i]? == some false && eligible i && (search (used.set i true)).1) ∧
      ((takeFree eligible search i used).1 = false → (takeFree eligible search i used).2 = used) := by
  rw [takeFree]
  cases hfree : used[i]? == some false && eligible i with
  | false => simp
  | true =>
    cases hfound : (search (used.set i true)).1 with
    | true => simp [hfound]
    | false =>
      have hi : used[i]? = some false := eq_of_beq (Bool.and_eq_true_iff.mp hfree).1
      obtain ⟨hlt,hget⟩ := List.getElem?_eq_some_iff.mp hi
      have hback : (used.set i true).set i false = used := by rw [set_set,← hget,set_getElem_self]
      simp only [if_true,hfound,hsearch hfound,hback,Bool.true_and]
      simp
variable (names : NameReader) (failClosed : Bool) (name : List Atv)
/-- The search of `rdn_matches` as it runs on its array, with the array it leaves. -/
def pairInPlace : List Atv → List Bool → Bool × List Bool
  | [], used => (true, used)
  | first :: rest, used =>
    tryEach (takeFree (fun i => name[i]?.any fun a => names.atvMatches failClosed a first) (pairInPlace rest))
      (List.range name.length) used
variable {names failClosed name} {base : List Atv}
/-- A search that fails has put its array back, so every branch starts from the same. -/
theorem pairInPlace_spec (base : List Atv) (used : List Bool) :
    (names.pairInPlace failClosed name base used).1 = names.pair failClosed name base used ∧
      ((names.pairInPlace failClosed name base used).1 = false →
        (names.pairInPlace failClosed name base used).2 = used) := by
  induction base generalizing used with
  | nil => simp [pairInPlace,pair]
  | cons first rest ih =>
    obtain ⟨hany,hrestores⟩ := tryEach_spec (fun i => (takeFree_spec (ih (used.set i true)).2).2)
      (List.range name.length)
    refine ⟨hany.trans (congrArg _ (funext fun i => ?_)),hrestores⟩
    rw [(takeFree_spec (ih (used.set i true)).2).1,(ih _).1]

/-- The search finds every choice of distinct unused attributes. -/
theorem pair_iff : names.pair failClosed name base used = true ↔
    ∃ f : Fin base.length → Fin name.length, f.Injective ∧
      ∀ k, used[(f k).val]? = some false ∧ names.atvMatches failClosed (name.get (f k)) (base.get k) = true := by
  induction base generalizing used with
  | nil => exact ⟨fun _ => ⟨Fin.elim0,fun k => k.elim0,fun k => k.elim0⟩,fun _ => rfl⟩
  | cons first rest ih =>
    simp only [pair,List.any_eq_true,List.mem_range,Bool.and_eq_true,beq_iff_eq,ih]
    constructor
    · rintro ⟨i,hi,⟨hfree,hmatch⟩,f,hf,hrest⟩
      have hne : ∀ k, (f k).val ≠ i := by
        rintro k rfl
        have hused := (hrest k).1
        rw [getElem?_set_self (List.getElem?_eq_some_iff.mp hfree).1] at hused
        cases hused
      refine ⟨Fin.cons ⟨i,hi⟩ f,Fin.cons_injective_iff.mpr ⟨?_,hf⟩,Fin.cases ?_ fun k => ?_⟩
      · rintro ⟨k,hk⟩
        exact hne k (congrArg Fin.val hk)
      · exact ⟨hfree,by simpa [getElem?_eq_getElem hi] using hmatch⟩
      · obtain ⟨hused,hmatch⟩ := hrest k
        rw [getElem?_set_ne (hne k).symm] at hused
        exact ⟨hused,hmatch⟩
    · rintro ⟨f,hf,hall⟩
      refine ⟨f 0,(f 0).isLt,⟨(hall 0).1,?_⟩,fun k => f k.succ,fun j k h => Fin.succ_inj.mp (hf h),fun k => ⟨?_,(hall k.succ).2⟩⟩
      · simpa using (hall 0).2
      · have hne : (f 0).val ≠ (f k.succ).val := fun h => Fin.succ_ne_zero k (hf (Fin.ext h)).symm
        rw [getElem?_set_ne hne]
        exact (hall k.succ).1

/-- Attributes paired one to one. -/
theorem rdnMatches_iff (hle : name.length ≤ maxRdnAttrs) :
    names.rdnMatches failClosed name base = true ↔ ∃ σ : Fin base.length ≃ Fin name.length,
      ∀ k, names.atvMatches failClosed (name.get (σ k)) (base.get k) = true := by
  rw [rdnMatches]
  by_cases hlen : name.length = base.length
  · rw [if_neg (not_not_intro hlen),if_neg (Nat.not_lt.mpr hle),pair_iff]
    constructor
    · rintro ⟨f,hf,hall⟩
      have hbij : f.Bijective := (Fintype.bijective_iff_injective_and_card f).mpr ⟨hf,by simp [hlen]⟩
      exact ⟨.ofBijective f hbij,fun k => (hall k).2⟩
    · rintro ⟨σ,hσ⟩
      exact ⟨σ,σ.injective,fun k => ⟨by simp,hσ k⟩⟩
  · rw [if_pos hlen]
    refine ⟨nofun,fun ⟨σ,_⟩ => absurd ?_ hlen⟩
    simpa using (Fintype.card_congr σ).symm

theorem atvMatches_mono {a b : Atv} (h : names.atvMatches false a b = true) (failClosed : Bool) :
    names.atvMatches failClosed a b = true := by
  rw [atvMatches] at h ⊢
  split_ifs at h ⊢
  · rfl
  · split <;> simp_all

theorem rdnMatches_mono (h : names.rdnMatches false name base = true) : names.rdnMatches true name base = true := by
  by_cases hle : name.length ≤ maxRdnAttrs
  · obtain ⟨σ,hσ⟩ := (rdnMatches_iff hle).mp h
    exact (rdnMatches_iff hle).mpr ⟨σ,fun k => atvMatches_mono (hσ k) true⟩
  · rw [rdnMatches] at h
    split_ifs at h
    omega

/-- Within the bound on attributes the search decides the subtree relation, its array is restored on every failing
branch, and an excluded subtree takes in whatever the permitted one does. -/
theorem directory_subtree_exact (names : NameReader) (name base : Bytes) :
    (∀ failClosed n b, names.dnRdns name = some n → names.dnRdns base = some b →
      (∀ rdn ∈ n ++ b, rdn.length ≤ maxRdnAttrs) →
      (names.dnInSubtree failClosed name base = true ↔ b.length ≤ n.length ∧
        ∀ p ∈ n.zip b, ∃ σ : Fin p.2.length ≃ Fin p.1.length,
          ∀ k, names.atvMatches failClosed (p.1.get (σ k)) (p.2.get k) = true)) ∧ (∀ failClosed (n b : List Atv) used,
      (names.pairInPlace failClosed n b used).1 = names.pair failClosed n b used ∧
        ((names.pairInPlace failClosed n b used).1 = false → (names.pairInPlace failClosed n b used).2 = used)) ∧
    (names.dnInSubtree false name base = true → names.dnInSubtree true name base = true) := by
  refine ⟨fun failClosed n b hn hb hle => ?_,fun failClosed n b used => pairInPlace_spec b used,fun h => ?_⟩
  · rw [dnInSubtree,hn,hb]
    simp only [Bool.and_eq_true,decide_eq_true_eq,List.all_eq_true]
    refine and_congr_right fun _ => forall₂_congr fun p hp => rdnMatches_iff ?_
    exact hle _ (mem_append_left _ (of_mem_zip hp).1)
  · rw [dnInSubtree] at h ⊢
    split at h
    · simp only [Bool.and_eq_true,List.all_eq_true] at h ⊢
      exact ⟨h.1,fun p hp => rdnMatches_mono (h.2 p hp)⟩
    · cases h
end PureCrypto.Pki.NameReader
