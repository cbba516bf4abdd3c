import PureCrypto.Framework.Trace
import Mathlib.Data.List.Induction
import Mathlib.Data.Nat.Bitwise

/-!
# Object identifiers

The arcs of an OBJECT IDENTIFIER and the body that carries them (`der/oid.rs`).  An encoder that
panics is `none`, and a `u64` is a natural number: the parser checks that no shift loses bits.
-/
namespace PureCrypto.Der
open List
/-- The variant of `der::Error` that the modelled functions return. -/
inductive Error
  | malformed
deriving DecidableEq, Repr

/-- The groups of seven bits, the lowest first. -/
def groups (v : Nat) : List UInt8 :=
  UInt8.ofNat (v &&& 0x7f) :: if v >>> 7 = 0 then [] else groups (v >>> 7)
termination_by v
decreasing_by
  rw [Nat.shiftRight_eq_div_pow] at *
  omega

/-- All groups but the lowest are marked, and the highest is written first. -/
def pushBase128 (out : List UInt8) (value : Nat) : List UInt8 :=
  out ++ ((groups value).tail.reverse.map (· ||| 0x80) ++ (groups value).take 1)

/-- The first subidentifier carries two arcs. -/
def firstSubidentifier (arc0 arc1 : Nat) : Option Nat :=
  if 2 < arc0 then none
  else if arc0 < 2 then
    if arc1 < 40 then some (40 * arc0 + arc1) else none
  else if 80 + arc1 < 2 ^ 64 then some (80 + arc1) else none

def encodeOidArcs : List Nat → Option (List UInt8)
  | arc0 :: arc1 :: arcs =>
    (firstSubidentifier arc0 arc1).map fun first => arcs.foldl pushBase128 (pushBase128 [] first)
  | _ => none

structure ParseState where
  arcs : List Nat
  acc : Nat
  started : Bool

def splitFirst (acc : Nat) : List Nat := if acc < 80 then [acc / 40, acc % 40] else [2, acc - 80]
def pushArc (arcs : List Nat) (acc : Nat) : List Nat :=
  arcs ++ if arcs.isEmpty then splitFirst acc else [acc]

/-- One round of the loop of `parse_oid`. -/
def parseByte (s : ParseState) (b : UInt8) : Except Error ParseState :=
  if !s.started && b == 0x80 then .error .malformed
  else if s.acc >>> 57 != 0 then .error .malformed
  else
    let acc := s.acc <<< 7 ||| (b &&& 0x7f).toNat
    if b &&& 0x80 == 0 then .ok ⟨pushArc s.arcs acc, 0, false⟩ else .ok ⟨s.arcs, acc, true⟩

def parseOid (body : List UInt8) : Except Error (List Nat) :=
  if body.isEmpty then .error .malformed
  else do
    let s ← body.foldlM parseByte ⟨[], 0, false⟩
    if s.started then .error .malformed else .ok s.arcs

/-- The marked bytes for the value they stand for so far. -/
def continued (n : Nat) : List UInt8 :=
  if n = 0 then [] else continued (n / 128) ++ [UInt8.ofNat (n % 128 + 128)]
termination_by n

def subidentifier (v : Nat) : List UInt8 := continued (v / 128) ++ [UInt8.ofNat (v % 128)]

@[simp] theorem continued_zero : continued 0 = [] := by
  rw [continued,if_pos rfl]
variable {n v : Nat} {s : ParseState} {b : UInt8} {body : List UInt8}
theorem continued_of_ne (h : n ≠ 0) : continued n = continued (n / 128) ++ [UInt8.ofNat (n % 128 + 128)] := by
  rw [continued,if_neg h]

theorem marked_byte (n : Nat) : UInt8.ofNat (n &&& 0x7f) ||| 0x80 = UInt8.ofNat (n % 128 + 128) := by
  have hor : n % 128 ||| 128 = n % 128 + 128 := by
    rw [Nat.or_comm,← Nat.two_pow_add_eq_or_of_lt (i := 7) (Nat.mod_lt _ (by decide)) 1]
    omega
  apply UInt8.toNat_inj.mp
  rw [UInt8.toNat_or,UInt8.toNat_ofNat',UInt8.toNat_ofNat',Nat.and_two_pow_sub_one_eq_mod n 7,
    Nat.mod_eq_of_lt (by omega)]
  exact hor.trans (by omega)

theorem groups_eq (v : Nat) :
    groups v = UInt8.ofNat (v % 128) :: if v / 128 = 0 then [] else groups (v / 128) := by
  rw [groups,Nat.and_two_pow_sub_one_eq_mod v 7,Nat.shiftRight_eq_div_pow]

theorem marked_groups (hv : v ≠ 0) : (groups v).reverse.map (· ||| 0x80) = continued v := by
  induction v using Nat.strongRecOn with
  | ind v ih =>
    rw [groups,reverse_cons,map_append,map_singleton,marked_byte,continued_of_ne hv,Nat.shiftRight_eq_div_pow]
    split_ifs with hzero
    · rw [show v / 128 = 0 from hzero]
      simp
    · rw [ih _ (by omega) hzero]

theorem pushBase128_eq (out : List UInt8) (v : Nat) : pushBase128 out v = out ++ subidentifier v := by
  rw [pushBase128,groups_eq,tail_cons,take_succ_cons,take_zero,subidentifier]
  split_ifs with hzero
  · simp [hzero]
  · rw [marked_groups hzero]

theorem foldl_pushBase128 (vs : List Nat) (out : List UInt8) :
    vs.foldl pushBase128 out = out ++ vs.flatMap subidentifier := by
  induction vs generalizing out with
  | nil => simp
  | cons v vs ih => rw [foldl_cons,ih,pushBase128_eq,append_assoc,flatMap_cons]

theorem firstSubidentifier_iff {arc0 arc1 : Nat} :
    firstSubidentifier arc0 arc1 = some v ∧ arc0 < 2 ^ 64 ∧ arc1 < 2 ^ 64 ↔
      splitFirst v = [arc0, arc1] ∧ v < 2 ^ 64 := by
  unfold firstSubidentifier splitFirst
  split_ifs <;> simp <;> omega

theorem foldl_pushArc {first : Nat} (vs : List Nat) : (first :: vs).foldl pushArc [] = splitFirst first ++ vs := by
  induction vs using List.reverseRecOn with
  | nil => simp [pushArc]
  | append_singleton vs v ih =>
    rw [← cons_append,foldl_append,ih]
    unfold splitFirst
    split_ifs <;> simp [pushArc]

theorem high_bit (b : UInt8) : (b &&& 0x80 == 0) = decide (b.toNat < 128) := by
  have hall : ∀ i : Fin 256, (i.val &&& 128 = 0) ↔ i.val < 128 := by decide +kernel
  have hzero : b &&& 0x80 = 0 ↔ b.toNat &&& 128 = 0 := by
    rw [← UInt8.toNat_inj]
    rfl
  rw [Bool.eq_iff_iff,beq_iff_eq,decide_eq_true_eq,hzero,hall ⟨b.toNat,b.toNat_lt⟩]

theorem parseByte_iff {s' : ParseState} : parseByte s b = .ok s' ↔
    (s.started = true ∨ b.toNat ≠ 128) ∧ s.acc < 2 ^ 57 ∧
      s' = if b.toNat < 128 then ⟨pushArc s.arcs (s.acc * 128 + b.toNat % 128), 0, false⟩
        else ⟨s.arcs, s.acc * 128 + b.toNat % 128, true⟩ := by
  have hfirst : (!s.started && b == 0x80) = true ↔ ¬(s.started = true ∨ b.toNat ≠ 128) := by
    simp [← UInt8.toNat_inj]
  have hroom : (s.acc >>> 57 != 0) = true ↔ ¬s.acc < 2 ^ 57 := by
    rw [bne_iff_ne]
    omega
  have hacc : s.acc <<< 7 ||| (b &&& 0x7f).toNat = s.acc * 128 + b.toNat % 128 := by
    have hlow : (b &&& 0x7f).toNat = b.toNat % 128 := Nat.and_two_pow_sub_one_eq_mod b.toNat 7
    rw [hlow,← Nat.shiftLeft_add_eq_or_of_lt (by omega),Nat.shiftLeft_eq]
  simp only [parseByte,hacc,high_bit,hfirst,hroom,decide_eq_true_eq]
  by_cases hs : s.started = true ∨ b.toNat ≠ 128
  · by_cases hw : s.acc < 2 ^ 57
    · simp only [hs,hw,not_true,if_false,true_and]
      split_ifs <;> exact ⟨fun h => (Except.ok.inj h).symm,fun h => congrArg Except.ok h.symm⟩
    · simp only [hs,hw,not_true,not_false_iff,if_false,if_true,reduceCtorEq,false_and,and_false]
  · simp [hs]

/-- What the loop has read: whole subidentifiers, and the beginning of the next. -/
def HasRead (body : List UInt8) (s : ParseState) : Prop :=
  ∃ vs : List Nat, (∀ v ∈ vs, v < 2 ^ 64) ∧ body = vs.flatMap subidentifier ++ continued s.acc ∧
    s.arcs = vs.foldl pushArc [] ∧ (s.started = true ↔ s.acc ≠ 0)

theorem HasRead.next {s' : ParseState} (h : HasRead body s)
    (hb : parseByte s b = .ok s') : HasRead (body ++ [b]) s' := by
  obtain ⟨vs,hvs,rfl,harcs,hstarted⟩ := h
  obtain ⟨hfirst,hroom,rfl⟩ := parseByte_iff.mp hb
  have hlt := b.toNat_lt
  generalize hacc : s.acc * 128 + b.toNat % 128 = acc
  obtain ⟨hdiv,hmod⟩ : s.acc = acc / 128 ∧ b.toNat % 128 = acc % 128 := by omega
  split_ifs with hlast
  · refine ⟨vs ++ [acc],?_,?_,?_,by simp⟩
    · simp only [mem_append,mem_singleton]
      rintro v (hv | rfl)
      · exact hvs v hv
      · omega
    · rw [flatMap_append,flatMap_singleton,subidentifier,← hdiv,← hmod,Nat.mod_eq_of_lt hlast,
        UInt8.ofNat_toNat,continued_zero,append_nil,append_assoc]
    · rw [foldl_append,← harcs]
      rfl
  · -- a byte after nothing is not `0x80`, so that the value is not zero
    have hne : acc ≠ 0 := by
      intro hzero
      have hs := hstarted.mp (hfirst.resolve_right (by omega))
      omega
    refine ⟨vs,hvs,?_,harcs,by simp [hne]⟩
    rw [continued_of_ne hne,← hdiv,← hmod,show b.toNat % 128 + 128 = b.toNat by omega,UInt8.ofNat_toNat,append_assoc]

theorem hasRead_of_foldlM (h : body.foldlM parseByte ⟨[], 0, false⟩ = .ok s) : HasRead body s := by
  induction body using List.reverseRecOn generalizing s with
  | nil =>
    cases h
    exact ⟨[],nofun,by simp,rfl,by simp⟩
  | append_singleton body b ih =>
    rw [foldlM_append,bind_eq_ok] at h
    obtain ⟨s₀,hs₀,h⟩ := h
    obtain ⟨s₁,hs₁,h⟩ := bind_eq_ok.mp h
    cases h
    exact (ih hs₀).next hs₁

theorem foldlM_continued (arcs : List Nat) (hn : n < 2 ^ 64) :
    (continued n).foldlM parseByte ⟨arcs, 0, false⟩ = .ok ⟨arcs, n, decide (n ≠ 0)⟩ := by
  induction n using Nat.strongRecOn with
  | ind n ih =>
    by_cases hzero : n = 0
    · simp [hzero]
      rfl
    have hbyte : (UInt8.ofNat (n % 128 + 128)).toNat = n % 128 + 128 := UInt8.toNat_ofNat_of_lt' (show _ < 256 by omega)
    rw [continued_of_ne hzero,foldlM_append,ih _ (by omega) (by omega),bind_eq_ok]
    refine ⟨_,rfl,bind_eq_ok.mpr ⟨_,parseByte_iff.mpr ⟨?_,show n / 128 < 2 ^ 57 by omega,?_⟩,rfl⟩⟩
    · rw [decide_eq_true_iff]
      omega
    · rw [if_neg (by omega),hbyte,show n / 128 * 128 + (n % 128 + 128) % 128 = n by omega,decide_eq_true hzero]

theorem foldlM_subidentifiers (arcs : List Nat) {vs : List Nat} (hvs : ∀ v ∈ vs, v < 2 ^ 64) :
    (vs.flatMap subidentifier).foldlM parseByte ⟨arcs, 0, false⟩ = .ok ⟨vs.foldl pushArc arcs, 0, false⟩ := by
  induction vs generalizing arcs with
  | nil => rfl
  | cons v vs ih =>
    have hv := hvs v mem_cons_self
    have hbyte : (UInt8.ofNat (v % 128)).toNat = v % 128 := UInt8.toNat_ofNat_of_lt' (show _ < 256 by omega)
    have hlast : parseByte ⟨arcs,v / 128,decide (v / 128 ≠ 0)⟩ (UInt8.ofNat (v % 128)) =
        .ok ⟨pushArc arcs v,0,false⟩ := by
      refine parseByte_iff.mpr ⟨.inr (by omega),show v / 128 < 2 ^ 57 by omega,?_⟩
      rw [if_pos (by omega),hbyte,show v / 128 * 128 + v % 128 % 128 = v by omega]
    rw [flatMap_cons,subidentifier,foldlM_append,foldlM_append,foldlM_continued arcs (by omega)]
    change (parseByte _ _ >>= pure) >>= _ = _
    rw [hlast]
    exact ih _ fun w hw => hvs w (mem_cons_of_mem _ hw)

theorem parseOid_iff {arcs : List Nat} : parseOid body = .ok arcs ↔
    ∃ first vs, (∀ v ∈ first :: vs, v < 2 ^ 64) ∧ body = (first :: vs).flatMap subidentifier ∧
      arcs = splitFirst first ++ vs := by
  unfold parseOid
  constructor
  · intro h
    split_ifs at h with hempty
    obtain ⟨s,hs,hdone⟩ := bind_eq_ok.mp h
    obtain ⟨vs,hvs,hbody,harcs,hstarted⟩ := hasRead_of_foldlM hs
    split_ifs at hdone with hmore
    cases hdone
    rw [hstarted,not_not] at hmore
    rw [hmore,continued_zero,append_nil] at hbody
    cases vs with
    | nil => exact absurd (by rw [hbody]; rfl) hempty
    | cons first vs => exact ⟨first,vs,hvs,hbody,harcs.trans (foldl_pushArc vs)⟩
  · rintro ⟨first,vs,hvs,rfl,rfl⟩
    rw [if_neg (by simp [subidentifier]),foldlM_subidentifiers [] hvs,← foldl_pushArc]
    rfl

/-- The encoder on `u64` arcs and the parser are inverse to each other, so that no two bodies have the same arcs. -/
theorem oid_bijection (arcs : List Nat) (body : List UInt8) :
    (encodeOidArcs arcs = some body ∧ (∀ arc ∈ arcs, arc < 2 ^ 64) ↔ parseOid body = .ok arcs) ∧
    ∀ other, parseOid body = .ok arcs → parseOid other = .ok arcs → other = body := by
  have hiff : ∀ body, encodeOidArcs arcs = some body ∧ (∀ arc ∈ arcs, arc < 2 ^ 64) ↔ parseOid body = .ok arcs := by
    intro body
    rw [parseOid_iff]
    constructor
    · rintro ⟨h,hlt⟩
      match arcs, h, hlt with
      | arc0 :: arc1 :: arcs, h, hlt =>
        obtain ⟨first,hfirst,rfl⟩ := Option.map_eq_some_iff.mp h
        rw [forall_mem_cons,forall_mem_cons] at hlt
        obtain ⟨hsplit,hbound⟩ := firstSubidentifier_iff.mp ⟨hfirst,hlt.1,hlt.2.1⟩
        refine ⟨first,arcs,forall_mem_cons.mpr ⟨hbound,hlt.2.2⟩,?_,by rw [hsplit]; rfl⟩
        rw [foldl_pushBase128,pushBase128_eq,nil_append,flatMap_cons]
    · rintro ⟨first,vs,hvs,rfl,rfl⟩
      rw [forall_mem_cons] at hvs
      obtain ⟨arc0,arc1,hsplit⟩ : ∃ arc0 arc1, splitFirst first = [arc0, arc1] := by
        unfold splitFirst
        split_ifs <;> exact ⟨_,_,rfl⟩
      obtain ⟨hfirst,hbound⟩ := firstSubidentifier_iff.mpr ⟨hsplit,hvs.1⟩
      rw [hsplit,cons_append,cons_append,encodeOidArcs,hfirst,Option.map_some,foldl_pushBase128,pushBase128_eq]
      exact ⟨rfl,forall_mem_cons.mpr ⟨hbound.1,forall_mem_cons.mpr ⟨hbound.2,hvs.2⟩⟩⟩
  refine ⟨hiff body,fun other h h' => ?_⟩
  exact Option.some.inj (((hiff other).mpr h').1.symm.trans ((hiff body).mpr h).1)
end PureCrypto.Der
