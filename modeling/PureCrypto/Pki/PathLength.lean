import PureCrypto.Pki.ChainVerification
import Mathlib.Data.List.Count
import Mathlib.Data.List.Induction

/-! # Path length constraints and the procedure of RFC 5280 -/
namespace PureCrypto.Pki
open List Option
def Certificate.pathLen (cert : Certificate) : Option Nat :=
  match cert.basicConstraints with
  | .ok (some (_, pathLen)) => pathLen
  | _ => none

/-- Section 6.1.4 (l) and (m), for a certificate that is not the last one. -/
def prepareMaxPathLength (maxPathLength : Nat) (cert : Certificate) : Option Nat :=
  if !cert.isSelfIssued && maxPathLength == 0 then none
  else
    let left := if cert.isSelfIssued then maxPathLength else maxPathLength - 1
    some <| match cert.pathLen with
      | some n => if n < left then n else left
      | none => left

/-- Down from the anchor, which sets the first `max_path_length` if it has a constraint. -/
def maxPathLengthProcedure (constraint : Option Nat) (path : List Certificate) : Option Nat :=
  path.tail.reverse.foldlM prepareMaxPathLength (constraint.getD path.length)

/-- The same certificate without a path length constraint. -/
def Certificate.unlimited (cert : Certificate) : Certificate :=
  { cert with basicConstraints := cert.basicConstraints.map (Option.map fun bc => (bc.1, none)) }

def TrustAnchor.unlimited {Key : Type} (anchor : TrustAnchor Key) : TrustAnchor Key :=
  { anchor with pathLenConstraint := none }
variable {Key : Type} {purpose : ChainPurpose} {cert : Certificate} {cas path : List Certificate}
/-- Every constraint of `cas` allows the intermediates below it. -/
def LengthsAllow (cas : List Certificate) : Prop :=
  ∀ i ca, cas[i]? = some ca → ∀ n, ca.pathLen = some n → countIntermediates (cas.take i) ≤ n

theorem lengthsAllow_concat {top : Certificate} :
    LengthsAllow (cas ++ [top]) ↔ LengthsAllow cas ∧ ∀ n, top.pathLen = some n → countIntermediates cas ≤ n := by
  constructor
  · intro h
    constructor
    · intro i ca hi
      have hlt : i < cas.length := (List.getElem?_eq_some_iff.mp hi).1
      have hall := h i ca (by rw [getElem?_append_left hlt,hi])
      rwa [take_append_of_le_length (le_of_lt hlt)] at hall
    · simpa using h cas.length top (by simp)
  · rintro ⟨hcas,htop⟩ i ca hi
    rcases Nat.lt_trichotomy i cas.length with hlt | rfl | hgt
    · rw [take_append_of_le_length (le_of_lt hlt)]
      exact hcas i ca (by rwa [getElem?_append_left hlt] at hi)
    · obtain rfl : top = ca := by simpa using hi
      simpa using htop
    · rw [getElem?_eq_none (by simp; omega)] at hi
      cases hi

/-- A certificate above `below` others that count may follow exactly if its own constraint and the number
handed to it allow them. -/
theorem prepareMaxPathLength_iff {m below : Nat} :
    (∃ m', prepareMaxPathLength m cert = some m' ∧ below ≤ m') ↔
      below + (if cert.isSelfIssued then 0 else 1) ≤ m ∧ ∀ n, cert.pathLen = some n → below ≤ n := by
  rw [prepareMaxPathLength]
  cases cert.isSelfIssued <;> cases cert.pathLen with
  | none => simp; try omega
  | some n =>
    simp
    split_ifs <;> omega
section
variable (cas : List Certificate)
theorem countIntermediates_concat (top : Certificate) :
    countIntermediates (cas ++ [top]) = countIntermediates cas + if top.isSelfIssued then 0 else 1 := by
  rw [countIntermediates,countP_append,countP_singleton]
  cases top.isSelfIssued <;> rfl

/-- The running minimum from above and the counts from below. -/
theorem foldlM_prepareMaxPathLength (m : Nat) :
    (cas.reverse.foldlM prepareMaxPathLength m).isSome ↔ countIntermediates cas ≤ m ∧ LengthsAllow cas := by
  induction cas using List.reverseRecOn generalizing m with
  | nil => simp [countIntermediates,LengthsAllow]
  | append_singleton cas top ih =>
    rw [reverse_append,reverse_singleton,singleton_append,foldlM_cons,countIntermediates_concat,
      lengthsAllow_concat]
    constructor
    · intro h
      obtain ⟨last,hlast⟩ := isSome_iff_exists.mp h
      obtain ⟨m',hstep,hrest⟩ := bind_eq_some_iff.mp hlast
      obtain ⟨hcount,hcas⟩ := (ih m').mp (by rw [hrest]; rfl)
      obtain ⟨hm,htop⟩ := prepareMaxPathLength_iff.mp ⟨m',hstep,hcount⟩
      exact ⟨hm,hcas,htop⟩
    · rintro ⟨hm,hcas,htop⟩
      obtain ⟨m',hstep,hcount⟩ := prepareMaxPathLength_iff.mpr ⟨hm,htop⟩
      rw [hstep]
      exact (ih m').mpr ⟨hcount,hcas⟩

theorem countIntermediates_map_unlimited : countIntermediates (cas.map .unlimited) = countIntermediates cas := by
  rw [countIntermediates,countP_map]
  rfl
end
/-- Without the constraint the number below does not matter. -/
theorem enforceCa_iff (below : Nat) : enforceCa purpose cert below = .ok () ↔
      enforceCa purpose cert.unlimited below = .ok () ∧ ∀ n, cert.pathLen = some n → below ≤ n := by
  rw [enforceCa,enforceCa,Certificate.unlimited,Certificate.pathLen]
  rcases cert.basicConstraints with e | bc
  · simp [orBad,Except.mapError,Except.map,bind,Except.bind]
  rcases bc with _ | ⟨isCa,pathLen⟩
  · simp [orBad,Except.mapError,Except.map,bind,Except.bind]
  rcases orBad cert.keyUsage with e | keyUsage
  · simp [orBad,Except.mapError,Except.map,bind,Except.bind]
  rcases orBad cert.extendedKeyUsages with e | ekus
  · simp [orBad,Except.mapError,Except.map,bind,Except.bind]
  cases pathLen <;> simp [orBad,Except.mapError,Except.map,bind,Except.bind,and_assoc]

theorem enforceConstraints_iff {leaf : Certificate} : enforceConstraints purpose (leaf :: cas) = .ok () ↔
      enforceConstraints purpose ((leaf :: cas).map .unlimited) = .ok () ∧ LengthsAllow cas := by
  have hcas : (∀ c ∈ cas.zipIdx, enforceCa purpose c.1 (countIntermediates (cas.take c.2)) = .ok ()) ↔
      (∀ c ∈ (cas.map Certificate.unlimited).zipIdx, enforceCa purpose c.1
        (countIntermediates ((cas.map .unlimited).take c.2)) = .ok ()) ∧ LengthsAllow cas := by
    simp only [Prod.forall, mem_zipIdx_iff_getElem?,getElem?_map,← map_take,
      countIntermediates_map_unlimited]
    constructor
    · intro h
      refine ⟨fun c i hi => ?_,fun i ca hi => ((enforceCa_iff _).mp (h ca i hi)).2⟩
      obtain ⟨ca,hca,rfl⟩ := map_eq_some_iff.mp hi
      exact ((enforceCa_iff _).mp (h ca i hca)).1
    · rintro ⟨h,hall⟩ ca i hi
      exact (enforceCa_iff _).mpr ⟨h ca.unlimited i (by rw [hi]; rfl),hall i ca hi⟩
  rw [map_cons,enforceConstraints,enforceConstraints,bind_eq_ok,bind_eq_ok]
  simp only [forM_eq_ok,hcas]
  exact ⟨fun ⟨u,⟨h,hall⟩,hleaf⟩ => ⟨⟨u,h,hleaf⟩,hall⟩,fun ⟨⟨u,h,hleaf⟩,hall⟩ => ⟨u,⟨h,hall⟩,hleaf⟩⟩

theorem enforceAnchorConstraints_iff (anchor : TrustAnchor Key) :
    enforceAnchorConstraints anchor path purpose = .ok () ↔
      enforceAnchorConstraints anchor.unlimited (path.map .unlimited) purpose = .ok () ∧
        ∀ n, anchor.pathLenConstraint = some n → countIntermediates path.tail ≤ n := by
  rw [enforceAnchorConstraints,enforceAnchorConstraints,getLast?_map]
  cases path.getLast? with
  | none => simp
  | some top =>
    have hself : isSelf anchor.unlimited (path.map .unlimited) top.unlimited = isSelf anchor path top := by
      rw [isSelf,length_map]
      rfl
    have hissues : ∀ self, enforceAnchorIssues anchor.unlimited top.unlimited self =
        enforceAnchorIssues anchor top self := fun self => rfl
    simp only [map_some,hself,hissues,bind_eq_ok]
    constructor
    · rintro ⟨self,hs,_,hi,h⟩
      split_ifs at h with hall
      rw [Bool.and_eq_true] at hall
      refine ⟨⟨self,hs,(),hi,if_pos hall.2⟩,fun n hn => ?_⟩
      simpa [hn] using hall.1
    · rintro ⟨⟨self,hs,_,hi,h⟩,hall⟩
      split_ifs at h with husage
      refine ⟨self,hs,(),hi,if_pos ?_⟩
      rw [Bool.and_eq_true]
      refine ⟨?_,husage⟩
      cases hn : anchor.pathLenConstraint with
      | none => rfl
      | some n => exact decide_eq_true (hall n hn)

/-- The two checks accept exactly if they accept without any path length constraint and the procedure accepts. -/
theorem path_length_refines_procedure (anchor : TrustAnchor Key) (path : List Certificate) (purpose : ChainPurpose) :
    enforceConstraints purpose path = .ok () ∧ enforceAnchorConstraints anchor path purpose = .ok () ↔
      (enforceConstraints purpose (path.map .unlimited) = .ok () ∧
        enforceAnchorConstraints anchor.unlimited (path.map .unlimited) purpose = .ok ()) ∧
      (maxPathLengthProcedure anchor.pathLenConstraint path).isSome := by
  rw [enforceAnchorConstraints_iff,maxPathLengthProcedure,foldlM_prepareMaxPathLength]
  cases path with
  | nil => simp [enforceAnchorConstraints]
  | cons leaf cas =>
    have hle : countIntermediates cas ≤ cas.length := countP_le_length
    have hinit : countIntermediates cas ≤ anchor.pathLenConstraint.getD (leaf :: cas).length ↔
        ∀ n, anchor.pathLenConstraint = some n → countIntermediates cas ≤ n := by
      cases anchor.pathLenConstraint with
      | none => simp; omega
      | some n => simp
    rw [enforceConstraints_iff,tail_cons]
    tauto
end PureCrypto.Pki
