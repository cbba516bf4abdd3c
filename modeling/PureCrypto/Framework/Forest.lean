import Mathlib.Data.List.Basic
import Mathlib.Logic.Relation

/-!
# A forest in a flat list

Nodes link to their parent by index, and parents come before their children. Deleting nodes means
compacting the list and relinking what is left.
-/
namespace PureCrypto.Forest
open List Option
class Linked (N : Type*) (L : outParam (Type*)) where
  parent : N → Option Nat
  relink : Option Nat → N → N
  label : N → L
  parent_relink : ∀ p n, parent (relink p n) = p
  label_relink : ∀ p n, label (relink p n) = label n

open Linked
attribute [simp] parent_relink label_relink
variable {N L : Type*} [Linked N L]
/-- The labels from a root down to a node. -/
inductive Chain (nodes : List N) : Nat → List L → Prop
  | root {i : Nat} {n : N} (hn : nodes[i]? = some n) (hp : parent n = none) : Chain nodes i [label n]
  | child {i p : Nat} {n : N} {path : List L} (hn : nodes[i]? = some n) (hp : parent n = some p)
      (h : Chain nodes p path) : Chain nodes i (path ++ [label n])

/-- Parents come before their children. -/
def Ordered (nodes : List N) : Prop :=
  ∀ (i : Nat) (n : N) (p : Nat), nodes[i]? = some n → parent n = some p → p < i

/-- With a node its parent is kept. -/
def Closed (nodes : List N) (keep : List Bool) : Prop :=
  ∀ (i : Nat) (n : N) (p : Nat), nodes[i]? = some n → parent n = some p → keep[i]? = some true →
    keep[p]? = some true

/-- Node `i` is node `j` or lies on the way up from it. -/
def Above (nodes : List N) (i j : Nat) : Prop :=
  Relation.ReflTransGen (fun a b => ∃ n, nodes[a]? = some n ∧ parent n = some b) j i
variable {nodes : List N}
variable {i : Nat} {path : List L}
theorem Chain.getLast {n : N} (h : Chain nodes i path) (hn : nodes[i]? = some n) :
    path.getLast? = some (label n) := by
  cases h with
  | root hn' hp =>
    cases hn.symm.trans hn'
    rfl
  | child hn' hp h =>
    cases hn.symm.trans hn'
    simp

theorem Chain.unique {path' : List L} (h : Chain nodes i path) (h' : Chain nodes i path') : path = path' := by
  induction h generalizing path' with
  | root hn hp =>
    cases h' with
    | root hn' hp' =>
      cases hn.symm.trans hn'
      rfl
    | child hn' hp' _ =>
      cases hn.symm.trans hn'
      cases hp.symm.trans hp'
  | child hn hp _ ih =>
    cases h' with
    | root hn' hp' =>
      cases hn.symm.trans hn'
      cases hp.symm.trans hp'
    | child hn' hp' h' =>
      cases hn.symm.trans hn'
      cases hp.symm.trans hp'
      rw [ih h']

theorem exists_chain (h : Ordered nodes) (i : Nat) {n : N} (hn : nodes[i]? = some n) :
    ∃ path, Chain nodes i path := by
  induction i using Nat.strongRecOn generalizing n with
  | _ i ih =>
    cases hp : parent n with
    | none => exact ⟨_,.root hn hp⟩
    | some p =>
      have hlt := h i n p hn hp
      have hi : i < nodes.length := (List.getElem?_eq_some_iff.mp hn).1
      obtain ⟨path,hpath⟩ := ih p hlt (getElem?_eq_getElem (Nat.lt_trans hlt hi))
      exact ⟨_,.child hn hp hpath⟩

theorem chain_map {f : N → N} (hparent : ∀ n, parent (f n) = parent n)
    (hlabel : ∀ n, label (f n) = label n) : Chain (nodes.map f) i path ↔ Chain nodes i path := by
  constructor
  · intro h
    induction h with
    | root hn hp =>
      rw [getElem?_map,map_eq_some_iff] at hn
      obtain ⟨n,hn,rfl⟩ := hn
      rw [hlabel]
      exact .root hn ((hparent n).symm.trans hp)
    | child hn hp _ ih =>
      rw [getElem?_map,map_eq_some_iff] at hn
      obtain ⟨n,hn,rfl⟩ := hn
      rw [hlabel]
      exact .child hn ((hparent n).symm.trans hp) ih
  · intro h
    induction h with
    | @root i n hn hp =>
      rw [← hlabel]
      exact .root (by rw [getElem?_map,hn]; rfl) ((hparent n).trans hp)
    | @child i p n path hn hp _ ih =>
      rw [← hlabel]
      exact .child (by rw [getElem?_map,hn]; rfl) ((hparent n).trans hp) ih

theorem Ordered.map (h : Ordered nodes) {f : N → N} (hparent : ∀ n, parent (f n) = parent n) :
    Ordered (nodes.map f) := by
  intro i m p hm hp
  rw [getElem?_map,map_eq_some_iff] at hm
  obtain ⟨n,hn,rfl⟩ := hm
  exact h i n p hn ((hparent n).symm.trans hp)

theorem Chain.append (h : Chain nodes i path) (more : List N) : Chain (nodes ++ more) i path := by
  have hsame : ∀ {i : Nat} {n : N}, nodes[i]? = some n → (nodes ++ more)[i]? = some n := by
    intro i n hn
    rw [getElem?_append_left (List.getElem?_eq_some_iff.mp hn).1,hn]
  induction h with
  | root hn hp => exact .root (hsame hn) hp
  | child hn hp _ ih => exact .child (hsame hn) hp ih

theorem Ordered.append (h : Ordered nodes) {more : List N}
    (hmore : ∀ n ∈ more, ∀ p, parent n = some p → p < nodes.length) : Ordered (nodes ++ more) := by
  intro i n p hn hp
  rcases Nat.lt_or_ge i nodes.length with hi | hi
  · rw [getElem?_append_left hi] at hn
    exact h i n p hn hp
  · rw [getElem?_append_right hi] at hn
    have := hmore n (mem_of_getElem? hn) p hp
    omega

def remap (keep : List Bool) (i : Nat) : Option Nat :=
  if keep[i]? = some true then some ((keep.take i).count true) else none

/-- Keep the flagged nodes, with their parents' new indices. -/
def compact (nodes : List N) (keep : List Bool) : List N :=
  ((nodes.zip keep).filter Prod.snd).map fun e => relink ((parent e.1).bind (remap keep)) e.1

/-- Flag a node and everything above it.  Every round flags a node, which bounds `fuel`. -/
def markUp (nodes : List N) : Nat → Option Nat → List Bool → List Bool
  | 0, _, keep => keep
  | _, none, keep => keep
  | fuel + 1, some i, keep =>
    if keep[i]? = some true then keep
    else markUp nodes fuel (nodes[i]?.bind parent) (keep.set i true)

/-- Flag everything from which a node with `p` can be reached downwards. -/
def flagsAbove (nodes : List N) (p : N → Bool) : List Bool :=
  (List.range nodes.length).foldl (fun keep i =>
    if nodes[i]?.any p then markUp nodes (nodes.length + 1) (some i) keep else keep)
    (List.replicate nodes.length false)
section Compact
variable {i k : Nat}
theorem getElem?_filter_zip (nodes : List N) (keep : List Bool) {n : N} (hn : nodes[i]? = some n)
    (hk : keep[i]? = some true) : ((nodes.zip keep).filter Prod.snd)[(keep.take i).count true]? = some (n, true) := by
  induction nodes generalizing keep i with
  | nil => simp at hn
  | cons m nodes ih =>
    cases keep with
    | nil => simp at hk
    | cons b keep =>
      cases i with
      | zero =>
        simp only [getElem?_cons_zero,Option.some.injEq] at hn hk
        subst hn hk
        simp
      | succ i =>
        have hnext := ih keep hn hk
        cases b with
        | true => simpa using hnext
        | false => simpa using hnext

theorem exists_of_filter_zip (nodes : List N) (keep : List Bool) {e : N × Bool}
    (he : ((nodes.zip keep).filter Prod.snd)[k]? = some e) :
    ∃ i, nodes[i]? = some e.1 ∧ keep[i]? = some true ∧ (keep.take i).count true = k := by
  induction nodes generalizing keep k with
  | nil => simp at he
  | cons m nodes ih =>
    cases keep with
    | nil => simp at he
    | cons b keep =>
      cases b with
      | true =>
        cases k with
        | zero =>
          simp only [zip_cons_cons,filter_cons_of_pos,getElem?_cons_zero,Option.some.injEq] at he
          subst he
          exact ⟨0,rfl,rfl,rfl⟩
        | succ k =>
          obtain ⟨i,hn,hk,hcount⟩ := ih keep he
          exact ⟨i + 1,hn,hk,by simp [hcount]⟩
      | false =>
        obtain ⟨i,hn,hk,hcount⟩ := ih keep he
        exact ⟨i + 1,hn,hk,by simp [hcount]⟩
variable {keep : List Bool}
theorem getElem?_compact {n : N} (hn : nodes[i]? = some n) (hk : keep[i]? = some true) :
    (compact nodes keep)[(keep.take i).count true]? = some (relink ((parent n).bind (remap keep)) n) := by
  rw [compact,getElem?_map,getElem?_filter_zip nodes keep hn hk]
  rfl

theorem exists_of_compact {m : N} (hm : (compact nodes keep)[k]? = some m) :
    ∃ i n, nodes[i]? = some n ∧ keep[i]? = some true ∧ remap keep i = some k ∧
      m = relink ((parent n).bind (remap keep)) n := by
  rw [compact,getElem?_map,map_eq_some_iff] at hm
  obtain ⟨e,he,rfl⟩ := hm
  obtain ⟨i,hn,hk,hcount⟩ := exists_of_filter_zip nodes keep he
  exact ⟨i,e.1,hn,hk,by rw [remap,if_pos hk,hcount],rfl⟩

theorem Chain.compact {path : List L} (hclosed : Closed nodes keep) (h : Chain nodes i path)
    (hk : keep[i]? = some true) : Chain (Forest.compact nodes keep) ((keep.take i).count true) path := by
  induction h with
  | @root i n hn hp =>
    have hroot := Chain.root (getElem?_compact hn hk) (by rw [parent_relink,hp]; rfl)
    rwa [label_relink] at hroot
  | @child i p n path hn hp _ ih =>
    have hkp := hclosed i n p hn hp hk
    have hchild := Chain.child (getElem?_compact hn hk)
      (by rw [parent_relink,hp,bind_some,remap,if_pos hkp]) (ih hkp)
    rwa [label_relink] at hchild

/-- A node that is kept moves to a smaller index than the nodes behind it. -/
theorem count_take_lt {j : Nat} (hk : keep[i]? = some true) (hij : i < j) :
    (keep.take i).count true < (keep.take j).count true := by
  have hsplit := take_append_drop i (keep.take j)
  rw [take_take,Nat.min_eq_left (Nat.le_of_lt hij)] at hsplit
  have hmem : true ∈ (keep.take j).drop i := by
    apply mem_of_getElem? (i := 0)
    rw [getElem?_drop,getElem?_take,if_pos (by omega)]
    simpa using hk
  have hpos := count_pos_iff.mpr hmem
  rw [← hsplit,count_append]
  omega

theorem Ordered.compact (h : Ordered nodes) : Ordered (Forest.compact nodes keep) := by
  intro k m p hm hp
  obtain ⟨i,n,hn,hk,hmap,rfl⟩ := exists_of_compact hm
  rw [parent_relink,bind_eq_some_iff] at hp
  obtain ⟨q,hq,hqp⟩ := hp
  unfold remap at hmap hqp
  rw [if_pos hk,Option.some.injEq] at hmap
  split_ifs at hqp with hkq
  rw [← hmap,← Option.some.inj hqp]
  exact count_take_lt hkq (h i n q hn hq)

theorem length_compact_le (nodes : List N) (keep : List Bool) : (Forest.compact nodes keep).length ≤ nodes.length := by
  rw [Forest.compact,length_map]
  apply Nat.le_trans (length_filter_le _ _)
  rw [length_zip]
  exact Nat.min_le_left _ _
end Compact
section Flags
variable {keep : List Bool}
structure Marked (nodes : List N) (keep : List Bool) (cur : Option Nat) (flags : List Bool) : Prop where
  length_eq : flags.length = nodes.length
  closed : Closed nodes flags
  mono : ∀ a : Nat, keep[a]? = some true → flags[a]? = some true
  flagged : ∀ i, cur = some i → flags[i]? = some true

theorem markUp_marked (h : Ordered nodes) {fuel : Nat} {cur : Option Nat}
    (hlen : keep.length = nodes.length) (hcur : ∀ i, cur = some i → i < nodes.length ∧ i < fuel)
    (hclosed : ∀ (a : Nat) (n : N) (p : Nat), nodes[a]? = some n → parent n = some p →
      keep[a]? = some true → keep[p]? = some true ∨ cur = some p) :
    Marked nodes keep cur (markUp nodes fuel cur keep) := by
  induction fuel generalizing cur keep with
  | zero =>
    have hnone : ∀ i, cur ≠ some i := fun i hi => absurd (hcur i hi).2 (Nat.not_lt_zero i)
    refine ⟨hlen,fun a n p hn hp hk => (hclosed a n p hn hp hk).resolve_right (hnone p),
      fun a ha => ha,fun i hi => absurd hi (hnone i)⟩
  | succ fuel ih =>
    cases cur with
    | none =>
      refine ⟨hlen,fun a n p hn hp hk => ?_,fun a ha => ha,nofun⟩
      exact (hclosed a n p hn hp hk).resolve_right nofun
    | some i =>
      rw [markUp]
      by_cases hk : keep[i]? = some true
      · rw [if_pos hk]
        refine ⟨hlen,fun a n p hn hp ha => ?_,fun a ha => ha,fun j hj => ?_⟩
        · rcases hclosed a n p hn hp ha with hkp | hip
          · exact hkp
          · cases hip
            exact hk
        · cases hj
          exact hk
      · rw [if_neg hk]
        obtain ⟨hi,hfuel⟩ := hcur i rfl
        have hn := getElem?_eq_getElem hi
        have hset : (keep.set i true)[i]? = some true := getElem?_set_self (by omega)
        have hmono : ∀ a : Nat, keep[a]? = some true → (keep.set i true)[a]? = some true := by
          intro a ha
          by_cases hia : i = a
          · rwa [← hia]
          · rwa [getElem?_set_ne hia]
        have hnext : Marked nodes (keep.set i true) (nodes[i]?.bind parent)
            (markUp nodes fuel (nodes[i]?.bind parent) (keep.set i true)) := ih
          (by rw [length_set,hlen])
          (fun p hp => by
            rw [hn] at hp
            have := h i _ p hn hp
            omega)
          (fun a n p han hp ha => by
            by_cases hia : i = a
            · subst hia
              rw [han]
              exact .inr hp
            · rw [getElem?_set_ne hia] at ha
              rcases hclosed a n p han hp ha with hkp | hip
              · exact .inl (hmono p hkp)
              · cases hip
                exact .inl hset)
        exact ⟨hnext.length_eq,hnext.closed,fun a ha => hnext.mono a (hmono a ha),
          fun j hj => by cases hj; exact hnext.mono i hset⟩

theorem flagsAbove_marked (h : Ordered nodes) (p : N → Bool) :
    (flagsAbove nodes p).length = nodes.length ∧ Closed nodes (flagsAbove nodes p) ∧
      ∀ (i : Nat) (n : N), nodes[i]? = some n → p n = true → (flagsAbove nodes p)[i]? = some true := by
  have hfold : ∀ k, k ≤ nodes.length →
      let flags := (List.range k).foldl (fun keep i =>
        if nodes[i]?.any p then markUp nodes (nodes.length + 1) (some i) keep else keep)
        (List.replicate nodes.length false)
      flags.length = nodes.length ∧ Closed nodes flags ∧
        ∀ (i : Nat) (n : N), i < k → nodes[i]? = some n → p n = true → flags[i]? = some true := by
    intro k hk
    induction k with
    | zero =>
      refine ⟨length_replicate,fun a n q _ _ ha => ?_,fun i n hi => absurd hi (Nat.not_lt_zero i)⟩
      have := eq_of_mem_replicate (mem_of_getElem? ha)
      cases this
    | succ k ih =>
      obtain ⟨hlen,hclosed,hflagged⟩ := ih (Nat.le_of_succ_le hk)
      simp only [List.range_succ,foldl_append,foldl_cons,foldl_nil]
      generalize (List.range k).foldl _ _ = flags at hlen hclosed hflagged
      by_cases hp : nodes[k]?.any p = true
      · rw [if_pos hp]
        have hmarked : Marked nodes flags (some k)
            (markUp nodes (nodes.length + 1) (some k) flags) := markUp_marked h hlen
          (fun i hi => by cases hi; omega)
          (fun a n q hn hq ha => .inl (hclosed a n q hn hq ha))
        refine ⟨hmarked.length_eq,hmarked.closed,fun i n hi hn hpn => ?_⟩
        rcases Nat.lt_succ_iff_lt_or_eq.mp hi with hlt | rfl
        · exact hmarked.mono i (hflagged i n hlt hn hpn)
        · exact hmarked.flagged i rfl
      · rw [if_neg hp]
        refine ⟨hlen,hclosed,fun i n hi hn hpn => ?_⟩
        rcases Nat.lt_succ_iff_lt_or_eq.mp hi with hlt | rfl
        · exact hflagged i n hlt hn hpn
        · rw [hn] at hp
          exact absurd hpn hp
  obtain ⟨hlen,hclosed,hflagged⟩ := hfold nodes.length (Nat.le_refl _)
  exact ⟨hlen,hclosed,fun i n hn hpn =>
    hflagged i n (List.getElem?_eq_some_iff.mp hn).1 hn hpn⟩

theorem above_of_markUp {fuel : Nat} {cur : Option Nat} {a : Nat}
    (ha : (markUp nodes fuel cur keep)[a]? = some true) :
    keep[a]? = some true ∨ ∃ i, cur = some i ∧ Above nodes a i := by
  induction fuel generalizing cur keep with
  | zero => exact .inl ha
  | succ fuel ih =>
    cases cur with
    | none => exact .inl ha
    | some i =>
      rw [markUp] at ha
      split_ifs at ha
      · exact .inl ha
      rcases ih ha with hset | ⟨p,hp,habove⟩
      · by_cases hia : i = a
        · exact .inr ⟨i,rfl,hia ▸ .refl⟩
        · exact .inl (by rwa [getElem?_set_ne hia] at hset)
      · exact .inr ⟨i,rfl,.head (bind_eq_some_iff.mp hp) habove⟩

/-- The flags are set for the nodes at or above one with `p`, and for no others. -/
theorem flagsAbove_iff (h : Ordered nodes) (p : N → Bool) (a : Nat) :
    (flagsAbove nodes p)[a]? = some true ↔ ∃ j n, nodes[j]? = some n ∧ p n = true ∧ Above nodes a j := by
  constructor
  · have hfold : ∀ (l : List Nat) (keep : List Bool), (l.foldl (fun keep i =>
        if nodes[i]?.any p then markUp nodes (nodes.length + 1) (some i) keep else keep) keep)[a]? = some true →
        keep[a]? = some true ∨ ∃ j n, nodes[j]? = some n ∧ p n = true ∧ Above nodes a j := by
      intro l
      induction l with
      | nil => exact fun keep => .inl
      | cons i l ih =>
        intro keep ha
        rcases ih _ ha with ha | hfound
        · dsimp only at ha
          split_ifs at ha with hp
          · obtain ⟨n,hn,hpn⟩ := (any_eq_true _ _).mp hp
            rcases above_of_markUp ha with ha | ⟨j,hj,habove⟩
            · exact .inl ha
            · cases hj
              exact .inr ⟨i,n,hn,hpn,habove⟩
          · exact .inl ha
        · exact .inr hfound
    intro ha
    refine (hfold _ _ ha).resolve_left fun hfalse => ?_
    cases eq_of_mem_replicate (mem_of_getElem? hfalse)
  · rintro ⟨j,n,hn,hpn,habove⟩
    obtain ⟨-,hclosed,hflagged⟩ := flagsAbove_marked h p
    induction habove with
    | refl => exact hflagged j n hn hpn
    | tail _ hstep ih =>
      obtain ⟨m,hm,hparent⟩ := hstep
      exact hclosed _ m _ hm hparent ih
end Flags
end PureCrypto.Forest
