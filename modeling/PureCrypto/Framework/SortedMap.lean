import Mathlib.Data.List.Nodup
import Mathlib.Algebra.Order.BigOperators.Group.List
import Mathlib.Algebra.Order.Ring.Nat

/-! # Finite maps with their entries in key order -/
namespace PureCrypto
open List Option
/-- A finite map; its entries are listed in strictly increasing key order. -/
structure SortedMap (κ : Type*) [LinearOrder κ] (β : Type*) where
  entries : List (κ × β)
  sorted : entries.Pairwise (fun a b => a.1 < b.1)
namespace SortedMap
variable {κ β : Type*} [LinearOrder κ]
def empty : SortedMap κ β := ⟨[], List.Pairwise.nil⟩

instance : Inhabited (SortedMap κ β) := ⟨empty⟩
def length (m : SortedMap κ β) : Nat := m.entries.length
def isEmpty (m : SortedMap κ β) : Bool := m.entries.isEmpty
def keys (m : SortedMap κ β) : List κ := m.entries.map Prod.fst
def get? (m : SortedMap κ β) (k : κ) : Option β :=
  (m.entries.find? (fun e => decide (e.1 = k))).map Prod.snd
def contains (m : SortedMap κ β) (k : κ) : Bool := (m.get? k).isSome

private def insertEntry (k : κ) (v : β) : List (κ × β) → List (κ × β)
  | [] => [(k, v)]
  | e :: es =>
    if k < e.1 then (k, v) :: e :: es
    else if e.1 = k then (k, v) :: es
    else e :: insertEntry k v es

private theorem mem_insertEntry (k : κ) (v : β) (es : List (κ × β))
    (hs : es.Pairwise (fun a b => a.1 < b.1)) (e : κ × β) :
    e ∈ insertEntry k v es ↔ e = (k, v) ∨ (e ∈ es ∧ e.1 ≠ k) := by
  induction es with
  | nil => simp [insertEntry]
  | cons a as ih =>
    have hlt := (pairwise_cons.mp hs).1
    have ih := ih (pairwise_cons.mp hs).2
    unfold insertEntry
    by_cases h1 : k < a.1
    · have hne : ∀ x ∈ a :: as, x.1 ≠ k := by
        exact forall_mem_cons.mpr ⟨ne_of_gt h1,fun x hx => ne_of_gt (h1.trans (hlt x hx))⟩
      rw [if_pos h1,List.mem_cons]
      exact or_congr_right ⟨fun h => ⟨h,hne e h⟩,fun h => h.1⟩
    · by_cases h2 : a.1 = k
      · have hne : ∀ x ∈ as, x.1 ≠ k := fun x hx => h2 ▸ ne_of_gt (hlt x hx)
        rw [if_neg h1,if_pos h2,List.mem_cons,List.mem_cons]
        refine or_congr_right ⟨fun h => ⟨.inr h,hne e h⟩,?_⟩
        rintro ⟨rfl | h,hk⟩
        · exact (hk h2).elim
        · exact h
      · have hhead : e = a ∧ e.1 ≠ k ↔ e = a := and_iff_left_of_imp fun h => h ▸ h2
        rw [if_neg h1,if_neg h2,List.mem_cons,List.mem_cons,ih,or_and_right,hhead,or_left_comm]

private theorem insertEntry_sorted (k : κ) (v : β) (es : List (κ × β))
    (hs : es.Pairwise (fun a b => a.1 < b.1)) :
    (insertEntry k v es).Pairwise (fun a b => a.1 < b.1) := by
  induction es with
  | nil => simp [insertEntry]
  | cons a as ih =>
    obtain ⟨hlt,has⟩ := pairwise_cons.mp hs
    unfold insertEntry
    by_cases h1 : k < a.1
    · rw [if_pos h1]
      refine pairwise_cons.mpr ⟨?_,hs⟩
      exact forall_mem_cons.mpr ⟨h1,fun x hx => h1.trans (hlt x hx)⟩
    · by_cases h2 : a.1 = k
      · rw [if_neg h1,if_pos h2]
        exact pairwise_cons.mpr ⟨fun x hx => h2 ▸ hlt x hx,has⟩
      · rw [if_neg h1,if_neg h2]
        refine pairwise_cons.mpr ⟨?_,ih has⟩
        intro x hx
        rcases (mem_insertEntry k v as has x).mp hx with rfl | ⟨hx,-⟩
        · exact lt_of_le_of_ne (not_lt.mp h1) h2
        · exact hlt x hx

def insert (m : SortedMap κ β) (k : κ) (v : β) : SortedMap κ β :=
  ⟨insertEntry k v m.entries, insertEntry_sorted k v m.entries m.sorted⟩
def erase (m : SortedMap κ β) (k : κ) : SortedMap κ β :=
  ⟨m.entries.filter (fun e => decide (e.1 ≠ k)), m.sorted.filter _⟩
def retain (m : SortedMap κ β) (p : κ → β → Bool) : SortedMap κ β :=
  ⟨m.entries.filter (fun e => p e.1 e.2), m.sorted.filter _⟩

def modify (m : SortedMap κ β) (k : κ) (f : β → β) : SortedMap κ β :=
  ⟨m.entries.map (fun e => if e.1 = k then (e.1, f e.2) else e), by
    refine List.Pairwise.map _ ?_ m.sorted
    intro a b hab
    split_ifs <;> exact hab⟩

def mapVal {γ : Type*} (m : SortedMap κ β) (f : κ → β → γ) : SortedMap κ γ :=
  ⟨m.entries.map (fun e => (e.1, f e.1 e.2)), List.Pairwise.map _ (fun _ _ h => h) m.sorted⟩

/-- The entries with a key at least `k`, in order. -/
def fromKey (m : SortedMap κ β) (k : κ) : List (κ × β) :=
  m.entries.filter (fun e => decide (k ≤ e.1))

/-- The entries with a key in the half-open range from `lo` to `hi`, in order. -/
def range (m : SortedMap κ β) (lo hi : κ) : List (κ × β) :=
  m.entries.filter (fun e => decide (lo ≤ e.1 ∧ e.1 < hi))

/-- The last entry with a key at most `k`. -/
def lastLE (m : SortedMap κ β) (k : κ) : Option (κ × β) :=
  (m.entries.filter (fun e => decide (e.1 ≤ k))).getLast?

/-- The last entry with a key below `k`. -/
def lastLT (m : SortedMap κ β) (k : κ) : Option (κ × β) :=
  (m.entries.filter (fun e => decide (e.1 < k))).getLast?

def sum (m : SortedMap κ β) (f : κ → β → Nat) : Nat :=
  (m.entries.map (fun e => f e.1 e.2)).sum

theorem keys_nodup (m : SortedMap κ β) : m.keys.Nodup :=
  List.Pairwise.map Prod.fst (fun _ _ h => ne_of_lt h) m.sorted
variable {k k' : κ} {v w : β} {γ : Type*}
variable (m : SortedMap κ β)
theorem value_unique (hv : (k, v) ∈ m.entries) (hw : (k, w) ∈ m.entries) : v = w :=
  congrArg Prod.snd (inj_on_of_nodup_map m.keys_nodup hv hw rfl)
section
variable (k : κ)
theorem get?_eq_some_iff (v : β) : m.get? k = some v ↔ (k, v) ∈ m.entries := by
  unfold get?
  constructor
  · intro h
    obtain ⟨e,he,rfl⟩ := map_eq_some_iff.mp h
    have hk : e.1 = k := by simpa using find?_some he
    have hm := mem_of_find?_eq_some he
    rwa [← hk]
  · intro h
    have hs : (m.entries.find? (fun e => decide (e.1 = k))).isSome := by
      rw [find?_isSome]
      exact ⟨(k, v),h,by simp⟩
    obtain ⟨e,he⟩ := isSome_iff_exists.mp hs
    have hk : e.1 = k := by simpa using find?_some he
    have hm := mem_of_find?_eq_some he
    have hv : e.2 = v := m.value_unique (k := k) (by rw [← hk]; exact hm) h
    rw [he,map_some,hv]

theorem get?_eq_none_iff : m.get? k = none ↔ ∀ e ∈ m.entries, e.1 ≠ k := by
  simp [get?]

theorem mem_keys_iff : k ∈ m.keys ↔ ∃ v, m.get? k = some v := by
  simp only [keys,List.mem_map,get?_eq_some_iff]
  constructor
  · rintro ⟨e,he,rfl⟩
    exact ⟨e.2,he⟩
  · rintro ⟨v,hv⟩
    exact ⟨(k, v),hv,rfl⟩

theorem notMem_keys_iff : k ∉ m.keys ↔ m.get? k = none := by
  rw [mem_keys_iff,not_exists,eq_none_iff_forall_ne_some]
theorem contains_eq_false_iff : m.contains k = false ↔ m.get? k = none := by
  simp [contains]
theorem mem_insert (v : β) (e : κ × β) : e ∈ (m.insert k v).entries ↔ e = (k, v) ∨ (e ∈ m.entries ∧ e.1 ≠ k) :=
  mem_insertEntry k v m.entries m.sorted e

theorem mem_erase (e : κ × β) : e ∈ (m.erase k).entries ↔ e ∈ m.entries ∧ e.1 ≠ k := by
  simp [erase]
end
theorem mem_retain (p : κ → β → Bool) (e : κ × β) : e ∈ (m.retain p).entries ↔ e ∈ m.entries ∧ p e.1 e.2 = true := by
  simp [retain]

theorem mem_foldl_erase (l : List (κ × β)) (e : κ × β) :
    e ∈ (l.foldl (fun m x => m.erase x.1) m).entries ↔ e ∈ m.entries ∧ ∀ x ∈ l, e.1 ≠ x.1 := by
  induction l generalizing m with
  | nil => simp
  | cons x l ih =>
    rw [foldl_cons,ih,mem_erase]
    simp only [forall_mem_cons]
    exact and_assoc

private theorem get?_ext {m m' : SortedMap κ β} (h : ∀ v, (k, v) ∈ m.entries ↔ (k, v) ∈ m'.entries) :
    m.get? k = m'.get? k := by
  apply Option.ext
  intro v
  rw [get?_eq_some_iff,get?_eq_some_iff]
  exact h v

theorem get?_insert (k k' : κ) (v : β) :
    (m.insert k v).get? k' = if k' = k then some v else m.get? k' := by
  by_cases h : k' = k
  · rw [if_pos h,h,get?_eq_some_iff,mem_insert]
    exact .inl rfl
  · rw [if_neg h]
    apply get?_ext
    intro w
    rw [mem_insert]
    simp [h]

@[simp] theorem get?_insert_self (k : κ) (v : β) : (m.insert k v).get? k = some v := by
  rw [get?_insert,if_pos rfl]
theorem get?_insert_ne (v : β) (h : k' ≠ k) : (m.insert k v).get? k' = m.get? k' := by
  rw [get?_insert,if_neg h]

theorem get?_erase (k k' : κ) : (m.erase k).get? k' = if k' = k then none else m.get? k' := by
  by_cases h : k' = k
  · rw [if_pos h,get?_eq_none_iff]
    intro e he
    rw [h]
    exact ((mem_erase m k e).mp he).2
  · rw [if_neg h]
    apply get?_ext
    intro w
    rw [mem_erase]
    simp [h]

@[simp] theorem get?_erase_self (k : κ) : (m.erase k).get? k = none := by
  rw [get?_erase,if_pos rfl]
theorem get?_erase_ne (h : k' ≠ k) : (m.erase k).get? k' = m.get? k' := by
  rw [get?_erase,if_neg h]

theorem get?_retain (p : κ → β → Bool) (h : m.get? k = some v)
    (hp : p k v = true) : (m.retain p).get? k = some v := by
  rw [get?_eq_some_iff,mem_retain]
  exact ⟨(m.get?_eq_some_iff k v).mp h,hp⟩

theorem mem_modify (k : κ) (f : β → β) (k' : κ) (w : β) : (k', w) ∈ (m.modify k f).entries ↔
      (k' ≠ k ∧ (k', w) ∈ m.entries) ∨ (k' = k ∧ ∃ v, (k, v) ∈ m.entries ∧ w = f v) := by
  simp only [modify,List.mem_map]
  constructor
  · rintro ⟨⟨a,v⟩,he,h⟩
    by_cases ha : a = k
    · subst ha
      simp only [if_true,Prod.mk.injEq] at h
      exact .inr ⟨h.1.symm,v,he,h.2.symm⟩
    · simp only [if_neg ha,Prod.mk.injEq] at h
      obtain ⟨rfl,rfl⟩ := h
      exact .inl ⟨ha,he⟩
  · rintro (⟨hk,he⟩ | ⟨rfl,v,he,rfl⟩)
    · exact ⟨(k', w),he,by simp [hk]⟩
    · exact ⟨(k', v),he,by simp⟩
section
variable {P : κ × β → Prop} (h : (k, v) ∈ m.entries)
include h
theorem exists_mem_erase : (∃ e ∈ m.entries, P e) ↔ (∃ e ∈ (m.erase k).entries, P e) ∨ P (k, v) := by
  constructor
  · rintro ⟨⟨a,w⟩,he,hP⟩
    by_cases ha : a = k
    · subst ha
      cases m.value_unique he h
      exact .inr hP
    · exact .inl ⟨_,(m.mem_erase k _).mpr ⟨he,ha⟩,hP⟩
  · rintro (⟨e,he,hP⟩ | hP)
    · exact ⟨e,((m.mem_erase k e).mp he).1,hP⟩
    · exact ⟨_,h,hP⟩

theorem exists_mem_modify (f : β → β) : (∃ e ∈ (m.modify k f).entries, P e) ↔
    (∃ e ∈ (m.erase k).entries, P e) ∨ P (k, f v) := by
  constructor
  · rintro ⟨⟨a,w⟩,he,hP⟩
    rcases (m.mem_modify k f a w).mp he with ⟨ha,he⟩ | ⟨rfl,u,hu,rfl⟩
    · exact .inl ⟨_,(m.mem_erase k _).mpr ⟨he,ha⟩,hP⟩
    · cases m.value_unique hu h
      exact .inr hP
  · rintro (⟨e,he,hP⟩ | hP)
    · exact ⟨e,(m.mem_modify k f _ _).mpr (.inl ((m.mem_erase k e).mp he).symm),hP⟩
    · exact ⟨_,(m.mem_modify k f _ _).mpr (.inr ⟨rfl,v,h,rfl⟩),hP⟩
end
theorem get?_modify (k k' : κ) (f : β → β) :
    (m.modify k f).get? k' = if k' = k then (m.get? k).map f else m.get? k' := by
  by_cases h : k' = k
  · subst h
    rw [if_pos rfl]
    apply Option.ext
    intro w
    simp only [get?_eq_some_iff,mem_modify,map_eq_some_iff,ne_eq,not_true,false_and,false_or,true_and]
    exact exists_congr fun v => and_congr_right fun _ => eq_comm
  · rw [if_neg h]
    apply get?_ext
    intro w
    rw [mem_modify]
    simp [h]

theorem get?_modify_self (k : κ) (f : β → β) : (m.modify k f).get? k = (m.get? k).map f := by
  rw [get?_modify,if_pos rfl]

@[simp] theorem keys_modify (k : κ) (f : β → β) : (m.modify k f).keys = m.keys := by
  unfold keys modify
  rw [List.map_map]
  apply map_congr_left
  intro e _
  simp only [Function.comp_apply]
  split_ifs <;> rfl

@[simp] theorem keys_mapVal (f : κ → β → γ) : (m.mapVal f).keys = m.keys := by
  simp [keys,mapVal]

theorem mem_keys_insert (k k' : κ) (v : β) : k' ∈ (m.insert k v).keys ↔ k' = k ∨ k' ∈ m.keys := by
  rw [mem_keys_iff,mem_keys_iff]
  by_cases h : k' = k
  · subst h
    exact iff_of_true ⟨v,m.get?_insert_self k' v⟩ (.inl rfl)
  · rw [m.get?_insert_ne v h]
    exact ⟨.inr,fun hor => hor.resolve_left h⟩

theorem mem_keys_erase (k k' : κ) : k' ∈ (m.erase k).keys ↔ k' ≠ k ∧ k' ∈ m.keys := by
  rw [mem_keys_iff,mem_keys_iff]
  by_cases h : k' = k
  · subst h
    simp
  · rw [m.get?_erase_ne h]
    exact ⟨fun hv => ⟨h,hv⟩,And.right⟩

theorem modify_congr {f g : β → β} (h : ∀ v, m.get? k = some v → f v = g v) : m.modify k f = m.modify k g := by
  unfold modify
  congr 1
  apply map_congr_left
  intro e he
  by_cases hk : e.1 = k
  · have hv : m.get? k = some e.2 := by rw [get?_eq_some_iff,← hk]; exact he
    rw [if_pos hk,if_pos hk,h e.2 hv]
  · rw [if_neg hk,if_neg hk]

theorem modify_eq_self {f : β → β} (h : ∀ v, m.get? k = some v → f v = v) : m.modify k f = m := by
  rw [m.modify_congr (g := id) h]
  simp [modify]

theorem get?_mapVal (f : κ → β → γ) (k : κ) : (m.mapVal f).get? k = (m.get? k).map (f k) := by
  apply Option.ext
  intro w
  simp only [get?_eq_some_iff,map_eq_some_iff,mapVal,List.mem_map,Prod.mk.injEq]
  constructor
  · rintro ⟨⟨a,v⟩,he,rfl,rfl⟩
    exact ⟨v,he,rfl⟩
  · rintro ⟨v,he,rfl⟩
    exact ⟨(k, v),he,rfl,rfl⟩

private theorem getLast?_sorted (l : List (κ × β)) (hs : l.Pairwise (fun a b => a.1 < b.1))
    (e : κ × β) : l.getLast? = some e ↔ e ∈ l ∧ ∀ e' ∈ l, e'.1 ≤ e.1 := by
  constructor
  · intro h
    obtain ⟨ys,rfl⟩ := getLast?_eq_some_iff.mp h
    refine ⟨by simp,?_⟩
    intro e' he'
    rcases List.mem_append.mp he' with he' | he'
    · exact le_of_lt ((pairwise_append.mp hs).2.2 e' he' e (by simp))
    · rw [List.mem_singleton.mp he']
  · rintro ⟨he,hmax⟩
    have hne : l ≠ [] := ne_nil_of_mem he
    obtain ⟨ys,y,rfl⟩ := eq_nil_or_concat' l |>.resolve_left hne
    have hy : y = e := by
      rcases List.mem_append.mp he with he | he
      · have hlt := (pairwise_append.mp hs).2.2 e he y (by simp)
        exact absurd (hmax y (by simp)) (not_le.mpr hlt)
      · exact (List.mem_singleton.mp he).symm
    rw [hy,getLast?_concat]

theorem lastLE_eq_some_iff (k : κ) (e : κ × β) : m.lastLE k = some e ↔
      e ∈ m.entries ∧ e.1 ≤ k ∧ ∀ e' ∈ m.entries, e'.1 ≤ k → e'.1 ≤ e.1 := by
  unfold lastLE
  rw [getLast?_sorted _ (m.sorted.filter _)]
  simp only [mem_filter,decide_eq_true_eq,and_imp,and_assoc]

theorem lastLE_eq_none_iff (k : κ) : m.lastLE k = none ↔ ∀ e ∈ m.entries, k < e.1 := by
  simp [lastLE]

theorem lastLT_eq_some_iff (k : κ) (e : κ × β) : m.lastLT k = some e ↔
      e ∈ m.entries ∧ e.1 < k ∧ ∀ e' ∈ m.entries, e'.1 < k → e'.1 ≤ e.1 := by
  unfold lastLT
  rw [getLast?_sorted _ (m.sorted.filter _)]
  simp only [mem_filter,decide_eq_true_eq,and_imp,and_assoc]

theorem mem_range (lo hi : κ) (e : κ × β) : e ∈ m.range lo hi ↔ e ∈ m.entries ∧ lo ≤ e.1 ∧ e.1 < hi := by
  simp [range]
theorem mem_fromKey (k : κ) (e : κ × β) : e ∈ m.fromKey k ↔ e ∈ m.entries ∧ k ≤ e.1 := by
  simp [fromKey]
theorem range_sorted (lo hi : κ) : (m.range lo hi).Pairwise (fun a b => a.1 < b.1) :=
  m.sorted.filter _

theorem eq_of_sorted {l l' : List (κ × β)} (hl : l.Pairwise (fun a b => a.1 < b.1))
    (hl' : l'.Pairwise (fun a b => a.1 < b.1)) (h : ∀ e, e ∈ l ↔ e ∈ l') : l = l' := by
  have hnodup : ∀ l : List (κ × β), l.Pairwise (fun a b => a.1 < b.1) → l.Nodup :=
    fun l hl => hl.imp fun hlt he => absurd (congrArg Prod.fst he) (ne_of_lt hlt)
  have hantisymm : ∀ a b : κ × β, a ∈ l → b ∈ l' → a.1 < b.1 → b.1 < a.1 → a = b :=
    fun a b _ _ hab hba => absurd hab (not_lt_of_gt hba)
  exact List.Perm.eq_of_pairwise hantisymm hl hl' ((perm_ext_iff_of_nodup (hnodup l hl) (hnodup l' hl')).mpr h)

theorem range_succ {m : SortedMap Nat β} {lo hi k : Nat} {rest : List (Nat × β)}
    (h : m.range lo hi = (k, v) :: rest) : m.range (k + 1) hi = rest := by
  have hsorted := m.range_sorted lo hi
  rw [h] at hsorted
  apply eq_of_sorted (m.range_sorted _ _) hsorted.of_cons
  intro e
  have he := m.mem_range lo hi e
  rw [h,List.mem_cons] at he
  have hk := (m.mem_range lo hi (k, v)).mp (by rw [h]; exact mem_cons_self)
  rw [mem_range]
  constructor
  · rintro ⟨hm,hlo,hhi⟩
    rcases he.mpr ⟨hm,by omega,hhi⟩ with rfl | hrest
    · omega
    · exact hrest
  · intro hrest
    obtain ⟨hm,-,hhi⟩ := he.mp (.inr hrest)
    exact ⟨hm,(pairwise_cons.mp hsorted).1 e hrest,hhi⟩

theorem range_snoc (m : SortedMap Nat β) {lo k : Nat} (h : lo ≤ k) :
    m.range lo (k + 1) = m.range lo k ++ (m.get? k).toList.map fun v => (k, v) := by
  have hlast : ∀ e, e ∈ (m.get? k).toList.map (fun v => (k, v)) ↔ e ∈ m.entries ∧ e.1 = k := by
    rintro ⟨j,v⟩
    simp only [List.mem_map,mem_toList,get?_eq_some_iff,Prod.mk.injEq]
    constructor
    · rintro ⟨w,hw,rfl,rfl⟩
      exact ⟨hw,rfl⟩
    · rintro ⟨hv,rfl⟩
      exact ⟨v,hv,rfl,rfl⟩
  apply eq_of_sorted (m.range_sorted _ _)
  · rw [pairwise_append]
    refine ⟨m.range_sorted _ _,?_,?_⟩
    · cases m.get? k <;> simp
    · intro a ha b hb
      rw [((hlast b).mp hb).2]
      exact ((m.mem_range lo k a).mp ha).2.2
  · intro e
    rw [List.mem_append,hlast,mem_range,mem_range,← and_or_left]
    exact and_congr_right fun _ => by omega

theorem range_erase {m : SortedMap κ β} {lo hi : κ} (h : k < lo) : (m.erase k).range lo hi = m.range lo hi := by
  unfold range erase
  rw [List.filter_filter]
  apply filter_congr
  intro e _
  by_cases hlo : lo ≤ e.1
  · have hne : e.1 ≠ k := fun heq => absurd (heq ▸ hlo) (not_le.mpr h)
    simp [hne]
  · simp [hlo]

theorem fromKey_sorted (k : κ) : (m.fromKey k).Pairwise (fun a b => a.1 < b.1) :=
  m.sorted.filter _
theorem entries_nodup : m.entries.Nodup :=
  m.sorted.imp fun h he => absurd (congrArg Prod.fst he) (ne_of_lt h)

theorem insert_perm (k : κ) (v : β) : ((m.insert k v).entries).Perm ((k, v) :: (m.erase k).entries) := by
  refine (perm_ext_iff_of_nodup (m.insert k v).entries_nodup ?_).mpr ?_
  · refine nodup_cons.mpr ⟨?_,(m.erase k).entries_nodup⟩
    simp [mem_erase]
  · intro e
    rw [mem_insert,List.mem_cons,mem_erase]

theorem perm_cons_erase (h : m.get? k = some v) : m.entries.Perm ((k, v) :: (m.erase k).entries) := by
  have hv := (m.get?_eq_some_iff k v).mp h
  refine (perm_ext_iff_of_nodup m.entries_nodup ?_).mpr ?_
  · refine nodup_cons.mpr ⟨?_,(m.erase k).entries_nodup⟩
    simp [mem_erase]
  · intro e
    rw [List.mem_cons,mem_erase]
    constructor
    · intro he
      by_cases hk : e.1 = k
      · left
        have h2 : e.2 = v := m.value_unique (k := k) (by rw [← hk]; exact he) hv
        exact Prod.ext hk h2
      · exact .inr ⟨he,hk⟩
    · rintro (rfl | ⟨he,-⟩)
      · exact hv
      · exact he

theorem modify_perm (f : β → β) (h : m.get? k = some v) :
    ((m.modify k f).entries).Perm ((k, f v) :: (m.erase k).entries) := by
  have hv : (m.modify k f).get? k = some (f v) := by rw [get?_modify_self,h,map_some]
  have he : ((m.modify k f).erase k).entries = (m.erase k).entries := by
    simp only [erase,modify,List.filter_map]
    rw [map_congr_left (g := id),List.map_id]
    · apply filter_congr
      intro e _
      by_cases hk : e.1 = k <;> simp [hk]
    · intro e hm
      have hk : e.1 ≠ k := by
        have := (mem_filter.mp hm).2
        by_cases hk : e.1 = k
        · simp [hk] at this
        · exact hk
      simp [hk]
  rw [← he]
  exact (m.modify k f).perm_cons_erase hv

theorem erase_of_get?_none (h : m.get? k = none) : (m.erase k).entries = m.entries := by
  refine filter_eq_self.mpr ?_
  intro e he
  exact decide_eq_true ((m.get?_eq_none_iff k).mp h e he)
section
variable (f : κ → β → Nat)
@[simp] theorem sum_empty : (empty : SortedMap κ β).sum f = 0 := rfl

theorem sum_eq_add_erase (h : m.get? k = some v) : m.sum f = f k v + (m.erase k).sum f := by
  have hp := (m.perm_cons_erase h).map (fun e => f e.1 e.2)
  simpa [sum] using hp.sum_eq

theorem sum_erase_of_get?_none (h : m.get? k = none) : (m.erase k).sum f = m.sum f := by
  rw [sum,m.erase_of_get?_none h,sum]
end
theorem sum_insert (k : κ) (v : β) (f : κ → β → Nat) : (m.insert k v).sum f = f k v + (m.erase k).sum f := by
  have hp := (m.insert_perm k v).map (fun e => f e.1 e.2)
  simpa [sum] using hp.sum_eq

theorem sum_insert_new (v : β) (f : κ → β → Nat) (h : m.get? k = none) : (m.insert k v).sum f = f k v + m.sum f := by
  rw [sum_insert,sum_erase_of_get?_none m f h]

theorem sum_modify (g : β → β) (f : κ → β → Nat) (h : m.get? k = some v) :
    (m.modify k g).sum f + f k v = m.sum f + f k (g v) := by
  have hp := (m.modify_perm g h).map (fun e => f e.1 e.2)
  have hm : (m.modify k g).sum f = f k (g v) + (m.erase k).sum f := by
    simpa [sum] using hp.sum_eq
  rw [m.sum_eq_add_erase f h]
  omega

theorem sum_mapVal (g : κ → β → γ) (f : κ → γ → Nat) :
    (m.mapVal g).sum f = m.sum (fun k v => f k (g k v)) := by
  simp [sum,mapVal,Function.comp_def]
theorem sum_add (f g : κ → β → Nat) : m.sum (fun k v => f k v + g k v) = m.sum f + m.sum g := by
  simp [sum,sum_map_add]

theorem sum_le_sum {f g : κ → β → Nat} (h : ∀ k v, m.get? k = some v → f k v ≤ g k v) : m.sum f ≤ m.sum g := by
  apply List.sum_le_sum
  intro e he
  exact h e.1 e.2 ((m.get?_eq_some_iff e.1 e.2).mpr he)

theorem sum_le_length_mul {f : κ → β → Nat} {n : Nat}
    (h : ∀ e ∈ m.entries, f e.1 e.2 ≤ n) : m.sum f ≤ m.length * n := by
  have hle := sum_le_card_nsmul (m.entries.map fun e => f e.1 e.2) n (by
    intro x hx
    obtain ⟨e,he,rfl⟩ := List.mem_map.mp hx
    exact h e he)
  rwa [length_map] at hle

theorem sum_insert_getD (m : SortedMap κ Nat) (k : κ) (n : Nat) :
    (m.insert k n).sum (fun _ v => v) + (m.get? k).getD 0 = m.sum (fun _ v => v) + n := by
  rw [sum_insert]
  cases h : m.get? k with
  | none =>
    rw [m.sum_erase_of_get?_none _ h,getD_none,add_zero,add_comm]
  | some v =>
    rw [m.sum_eq_add_erase (fun _ v => v) h,getD_some]
    omega

theorem sum_getD_le (m : SortedMap κ Nat) {ks : List κ} (hks : ks.Nodup) :
    (ks.map (fun k => (m.get? k).getD 0)).sum ≤ m.sum (fun _ v => v) := by
  induction ks generalizing m with
  | nil => exact Nat.zero_le _
  | cons k ks ih =>
    obtain ⟨hk,hks⟩ := nodup_cons.mp hks
    rw [map_cons,sum_cons]
    cases h : m.get? k with
    | none =>
      rw [getD_none,zero_add]
      exact ih m hks
    | some v =>
      have hrest : ks.map (fun j => (m.get? j).getD 0) =
          ks.map (fun j => ((m.erase k).get? j).getD 0) := by
        apply map_congr_left
        intro j hj
        have hne : j ≠ k := fun hjk => hk (hjk ▸ hj)
        rw [m.get?_erase_ne hne]
      rw [m.sum_eq_add_erase (fun _ v => v) h,hrest]
      exact Nat.add_le_add_left (ih (m.erase k) hks) v

theorem sum_key (f : κ → Nat) : m.sum (fun k _ => f k) = (m.keys.map f).sum := by
  rw [keys,List.map_map]
  rfl

theorem keys_insert_perm (v : β) (h : m.get? k = none) : (m.insert k v).keys.Perm (k :: m.keys) := by
  have hp := (m.insert_perm k v).map Prod.fst
  rwa [m.erase_of_get?_none h] at hp

theorem keys_erase_perm (h : m.get? k = some v) : m.keys.Perm (k :: (m.erase k).keys) :=
  (m.perm_cons_erase h).map Prod.fst
theorem length_insert_new (v : β) (h : m.get? k = none) : (m.insert k v).length = m.length + 1 := by
  have hp := (m.insert_perm k v).length_eq
  rwa [m.erase_of_get?_none h] at hp

theorem length_insert_of_get? (v : β) (h : m.get? k = some w) : (m.insert k v).length = m.length := by
  have hp := (m.insert_perm k v).length_eq
  have hq := (m.perm_cons_erase h).length_eq
  rw [length_cons] at hp hq
  unfold length
  omega

theorem length_insert_le (k : κ) (v : β) : (m.insert k v).length ≤ m.length + 1 := by
  have hp := (m.insert_perm k v).length_eq
  have hf : (m.erase k).entries.length ≤ m.entries.length := length_filter_le _ _
  simp only [length_cons] at hp
  unfold length
  omega

@[simp] theorem length_modify (k : κ) (f : β → β) : (m.modify k f).length = m.length := by
  simp [length,modify]

theorem length_erase_of_get? (h : m.get? k = some v) : (m.erase k).length + 1 = m.length := by
  have hp := (m.perm_cons_erase h).length_eq
  simpa [length] using hp.symm
end SortedMap
end PureCrypto
