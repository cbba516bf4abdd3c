import PureCrypto.Framework.Trace
import PureCrypto.Zkp.SurjectionEncoding

/-! # Completeness of surjection proofs -/
namespace PureCrypto.Zkp
open ByteArrays RingSignature
open Scalar (fromBytesBeReduce fromBytesBe)
variable {q : Nat} {P : Type} [AddCommGroup P] [DecidableEq P] [Module (ZMod q) P]
def ringScheme (C : Curve q P) (m : Vector UInt8 32) : Scheme (ZMod q) P (List UInt8) where
  generator := C.generator
  encode p := (C.serPoint p).toList
  challenge prev j := fromBytesBeReduce (C.challenge prev m 0 j)
section Walks
variable (C : Curve q P) (m : Vector UInt8 32)
theorem forwardWalk_behind (nonceCommit prev : Vector UInt8 33) {pos j : Nat} (hj : pos + 1 < j)
    (xs : List (ZMod q × P)) :
    (forwardWalk C m nonceCommit pos j prev xs).toList = (ringScheme C m).walk j prev.toList xs := by
  induction xs generalizing j prev with
  | nil => rfl
  | cons x xs ih =>
    rw [forwardWalk,if_neg hj.ne',ih _ (by omega)]
    rfl

theorem forwardWalk_eq (nonceCommit prev : Vector UInt8 33) {pos j : Nat} (hj : j ≤ pos + 1)
    (xs : List (ZMod q × P)) (hpos : pos + 1 < j + xs.length) : (forwardWalk C m nonceCommit pos j prev xs).toList =
      (ringScheme C m).walk (pos + 1) nonceCommit.toList (xs.drop (pos + 1 - j)) := by
  induction xs generalizing j prev with
  | nil =>
    simp at hpos
    omega
  | cons x xs ih =>
    obtain ⟨s,k⟩ := x
    rw [List.length_cons] at hpos
    by_cases hseed : j = pos + 1
    · rw [forwardWalk,if_pos hseed,hseed,forwardWalk_behind C m _ _ (Nat.lt_succ_self _),Nat.sub_self]
      rfl
    · rw [forwardWalk,ih _ (by omega) (by omega),show pos + 1 - j = (pos + 1 - (j + 1)) + 1 by omega,
        List.drop_succ_cons]

theorem signerWalk_eq (eSigner : Vector UInt8 32) (prev : List UInt8) (pos j : Nat) (xs : List (ZMod q × P)) :
    signerWalk C m pos j (C.challenge prev m 0 j) eSigner xs = if j ≤ pos ∧ pos < j + xs.length then
        C.challenge ((ringScheme C m).walk j prev (xs.take (pos - j))) m 0 pos else eSigner := by
  induction xs generalizing j prev eSigner with
  | nil =>
    rw [signerWalk]
    simp
  | cons x xs ih =>
    rw [signerWalk,ih,List.length_cons]
    rcases Nat.lt_trichotomy j pos with hlt | rfl | hgt
    · rw [show pos - j = (pos - (j + 1)) + 1 by omega,if_neg hlt.ne]
      refine if_congr ?_ rfl rfl
      omega
    · rw [if_neg (by omega),if_pos rfl,if_pos (by omega),Nat.sub_self]
      rfl
    · rw [if_neg (by omega),if_neg hgt.ne',if_neg (by omega)]
end Walks
section Verifier
variable (C : Curve q P) (m : Vector UInt8 32)
def members (xs : List (P × Vector UInt8 32)) : List (ZMod q × P) :=
  xs.map fun x => (fromBytesBeReduce x.2, x.1)

/-- A key on infinity is refused wherever it is. -/
theorem verifyLoop_eq_error {ring : Nat} (j : Nat) (e : Vector UInt8 32) (r : Vector UInt8 33)
    {xs : List (P × Vector UInt8 32)} (h : ∃ x ∈ xs, x.1 = 0) :
    verifyLoop C m ring j e r xs = .error .verification := by
  induction xs generalizing j e r with
  | nil =>
    obtain ⟨x,hx,-⟩ := h
    cases hx
  | cons x xs ih =>
    obtain ⟨key,sj⟩ := x
    rw [verifyLoop]
    cases (fromBytesBe sj) with
    | error e => rfl
    | ok s =>
      dsimp only
      split_ifs with hzero hpoint
      · rfl
      · rfl
      all_goals
        obtain ⟨y,hy,hykey⟩ := h
        rcases List.mem_cons.mp hy with rfl | hy
        · exact absurd (.inr hykey) hzero
        · exact ih _ _ _ ⟨y,hy,hykey⟩

theorem verifyLoop_cons {ring j : Nat} {e : Vector UInt8 32} {r : Vector UInt8 33} {key : P}
    {sj : Vector UInt8 32} {s : ZMod q} (xs : List (P × Vector UInt8 32))
    (hs : fromBytesBe sj = .ok s) (hs0 : s ≠ 0) (hkey : key ≠ 0)
    (hpoint : s • C.generator + (fromBytesBeReduce e : ZMod q) • key ≠ 0) :
    verifyLoop C m ring j e r ((key, sj) :: xs) = verifyLoop C m ring (j + 1)
        (if j + 1 < ring then C.challenge
          (C.serPoint (s • C.generator + (fromBytesBeReduce e : ZMod q) • key)).toList m 0 (j + 1) else e)
        (C.serPoint (s • C.generator + (fromBytesBeReduce e : ZMod q) • key)) xs := by
  rw [verifyLoop,hs]
  dsimp only
  rw [if_neg (not_or.mpr ⟨hs0,hkey⟩),if_neg hpoint,Curve.serPoint,if_neg hpoint]

/-- A member that the verifier takes. -/
def Usable (x : P × Vector UInt8 32) : Prop :=
  x.1 ≠ 0 ∧ ∃ s : ZMod q, s ≠ 0 ∧ fromBytesBe x.2 = .ok s

/-- Without one, the verifier walks the ring. -/
theorem verifyLoop_eq_ok {ring : Nat} (j : Nat) (prev : List UInt8) (r : Vector UInt8 33)
    (x : P × Vector UInt8 32) (xs : List (P × Vector UInt8 32)) (hring : ring = j + (xs.length + 1))
    (husable : ∀ y ∈ x :: xs, Usable (q := q) y)
    (hpoints : ∀ R ∈ (ringScheme C m).points j prev (members (x :: xs)), R ≠ 0) :
    ∃ r', verifyLoop C m ring j (C.challenge prev m 0 j) r (x :: xs) = .ok r' ∧
      r'.toList = (ringScheme C m).walk j prev (members (x :: xs)) := by
  induction xs generalizing j prev r x with
  | nil =>
    obtain ⟨key,sj⟩ := x
    obtain ⟨hkey,s,hs0,hs⟩ := husable _ (List.mem_singleton_self _)
    have hmember : members [(key, sj)] = [(s, key)] := by rw [← fromBytesBe_eq_ok hs]; rfl
    rw [hmember] at hpoints ⊢
    have hpoint := hpoints _ (List.mem_singleton_self _)
    exact ⟨_,verifyLoop_cons C m [] hs hs0 hkey hpoint,rfl⟩
  | cons y xs ih =>
    obtain ⟨key,sj⟩ := x
    obtain ⟨⟨hkey,s,hs0,hs⟩,husable⟩ := List.forall_mem_cons.mp husable
    have hmember : members ((key, sj) :: y :: xs) = (s, key) :: members (y :: xs) := by
      rw [← fromBytesBe_eq_ok hs]
      rfl
    rw [hmember] at hpoints ⊢
    obtain ⟨hpoint,hpoints⟩ := List.forall_mem_cons.mp hpoints
    rw [List.length_cons] at hring
    rw [verifyLoop_cons C m (y :: xs) hs hs0 hkey hpoint,if_pos (by omega)]
    exact ih (j + 1) _ _ y (by omega) husable hpoints
end Verifier
section Prover
theorem foldl_findPos (index : Nat) (used : List Nat) (n : Nat) (start : Nat × Bool) {r : Nat × Bool}
    (h : (used.zipIdx n).foldl (fun (pos, found) (u, j) => if u = index then (j, true) else (pos, found))
      start = r) : r = start ∨ n ≤ r.1 ∧ used[r.1 - n]? = some index := by
  induction used generalizing n start with
  | nil => exact .inl h.symm
  | cons u used ih =>
    rcases ih (n + 1) _ h with hr | ⟨hle,hget⟩
    · dsimp only at hr
      split_ifs at hr with hu
      · rw [hr,hu]
        exact .inr ⟨le_rfl,by rw [Nat.sub_self]; rfl⟩
      · exact .inl hr
    · refine .inr ⟨by omega,?_⟩
      rwa [show r.1 - n = (r.1 - (n + 1)) + 1 by omega]

theorem findPos_spec {index : Nat} {used : List Nat} {pos : Nat} (h : findPos index used = (pos, true)) :
    used[pos]? = some index := by
  rcases foldl_findPos index used 0 (0, false) h with hr | ⟨-,hget⟩
  · cases hr
  · exact hget

omit [AddCommGroup P] [DecidableEq P] in
theorem foldl_selectKey (keys : List P) (pos n : Nat) (selected : P) :
    (keys.zipIdx n).foldl (fun selected (k, j) => if j = pos then k else selected) selected =
      if n ≤ pos then keys.getD (pos - n) selected else selected := by
  induction keys generalizing n selected with
  | nil => simp
  | cons k keys ih =>
    rw [List.zipIdx_cons,List.foldl_cons,ih]
    dsimp only
    rcases Nat.lt_trichotomy n pos with hlt | rfl | hgt
    · rw [if_neg hlt.ne,if_pos (Nat.succ_le_of_lt hlt),if_pos hlt.le,show pos - n = (pos - (n + 1)) + 1 by omega,
        List.getD_cons_succ]
    · rw [if_neg (by omega),if_pos rfl,if_pos le_rfl,Nat.sub_self]
      rfl
    · rw [if_neg (by omega),if_neg hgt.ne',if_neg (by omega)]

omit [DecidableEq P] in
theorem selectKey_eq (keys : List P) {pos : Nat} (hpos : pos < keys.length) : selectKey keys pos = keys[pos] := by
  rw [selectKey,foldl_selectKey,if_pos (Nat.zero_le _),Nat.sub_zero,List.getD_eq_getElem _ _ hpos]

theorem zip_set {α β : Type} (xs : List α) {ys : List β} (a : α) {pos : Nat} (hlength : xs.length = ys.length)
    (hpos : pos < ys.length) :
    (xs.set pos a).zip ys = (xs.zip ys).take pos ++ (a, ys[pos]) :: (xs.zip ys).drop (pos + 1) := by
  induction xs generalizing ys pos with
  | nil =>
    rw [← hlength] at hpos
    cases hpos
  | cons x xs ih =>
    cases ys with
    | nil => cases hpos
    | cons y ys =>
      cases pos with
      | zero => rfl
      | succ pos =>
        have hrest := ih (by simpa using hlength) (by simpa using hpos)
        simp [hrest]

theorem zipIdx_map_ite {α β : Type} (xs : List α) (f : α → β) (a : α) (pos : Nat) :
    xs.zipIdx.map (fun (x, j) => if j = pos then f a else f x) = (xs.set pos a).map f := by
  refine List.ext_getElem (by simp) fun i _ _ => ?_
  by_cases hi : i = pos
  · simp [hi]
  · simp [hi,List.getElem_set_ne (Ne.symm hi)]

omit [AddCommGroup P] [DecidableEq P] [Module (ZMod q) P] in
theorem members_zip_map [NeZero q] (hq : q ≤ 256 ^ 32) (keys : List P) (ss : List (ZMod q)) :
    members (keys.zip (ss.map Scalar.toBytesBe)) = ss.zip keys := by
  induction ss generalizing keys with
  | nil => simp [members]
  | cons s ss ih =>
    cases keys with
    | nil => rfl
    | cons k keys =>
      have hs := fromBytesBe_eq_ok (fromBytesBe_toBytesBe hq s)
      have hrest := ih keys
      rw [members] at hrest ⊢
      rw [List.map_cons,List.zip_cons_cons,List.map_cons,hs,hrest,List.zip_cons_cons]
variable (C : Curve q P) (m : Vector UInt8 32) {keys : List P} (secret nonce : ZMod q) {pos ring : Nat}
  (s : List.Vector (ZMod q) ring) (hkeys : keys.length = ring) (hpos : pos < ring)
include hkeys hpos
theorem lastPoint_eq : (lastPoint C m keys nonce pos s).toList =
      (ringScheme C m).walk (pos + 1) ((ringScheme C m).encode (nonce • C.generator))
        ((s.toList.zip keys).drop (pos + 1)) := by
  unfold lastPoint
  split_ifs with hend
  · rw [List.drop_of_length_le (by simp; omega)]
    rfl
  · exact forwardWalk_eq C m _ _ (Nat.zero_le _) _ (by simp; omega)

theorem solve_eq (e0 : Vector UInt8 32) :
    (solve C m keys secret nonce pos s e0).toList = (s.toList.set pos ((ringScheme C m).response secret nonce pos
      ((ringScheme C m).walk 0 e0.toList ((s.toList.zip keys).take pos)))).map Scalar.toBytesBe := by
  have hsigner := signerWalk_eq C m (Vector.replicate 32 0) e0.toList pos 0 (s.toList.zip keys)
  rw [if_pos (by simp; omega)] at hsigner
  rw [← zipIdx_map_ite]
  unfold solve
  simp only [hsigner,List.Vector.toList_mk]
  rfl

theorem walk_solve [NeZero q] (hsecret : keys[pos]? = some (secret • C.generator)) (e0 : Vector UInt8 32) :
    (ringScheme C m).walk 0 e0.toList (members (keys.zip (solve C m keys secret nonce pos s e0).toList)) =
      (lastPoint C m keys nonce pos s).toList := by
  have hs := s.toList_length
  obtain ⟨hlt,hkey⟩ := List.getElem?_eq_some_iff.mp hsecret
  have htake : ((s.toList.zip keys).take pos).length = pos := by simp; omega
  have hwalk := (ringScheme C m).walk_response secret nonce 0 e0.toList ((s.toList.zip keys).take pos)
    ((s.toList.zip keys).drop (pos + 1))
  rw [htake,zero_add] at hwalk
  rw [solve_eq C m secret nonce s hkeys hpos,members_zip_map C.order_le,zip_set _ _ (by omega) hlt,hkey,
    lastPoint_eq C m nonce s hkeys hpos]
  exact hwalk
end Prover
namespace SurjectionProof
variable {C : Curve q P} {self proof : SurjectionProof} {inputs : List P} {output : P} {inputIndex : Nat}
  {inputBlind outputBlind : Vector UInt8 32} {rng : Option (Nat → Vector UInt8 32)}
theorem of_generate_eq_ok (h : self.generate C inputs output inputIndex inputBlind outputBlind rng = .ok proof) :
    inputs.length = self.nInputs ∧ self.usedInputs.length ≠ 0 ∧ proof.toAnonymitySet = self.toAnonymitySet ∧
      ∃ (secret nonce : ZMod q) (pos : Nat) (s : List.Vector (ZMod q) self.usedInputs.length),
        self.usedInputs[pos]? = some inputIndex ∧
        secret • C.generator = selectKey (ringKeys inputs output self.usedInputs) pos ∧
        proof.e0 = C.close (lastPoint C (C.message inputs output) (ringKeys inputs output self.usedInputs)
          nonce pos s) (C.message inputs output) ∧
        proof.s = (solve C (C.message inputs output) (ringKeys inputs output self.usedInputs) secret nonce pos s
          proof.e0).toList := by
  unfold generate at h
  dsimp only at h
  by_cases hargs : inputs.length ≠ self.nInputs ∨ self.usedInputs.length = 0 ∨ self.nInputs ≤ inputIndex
  · rw [if_pos hargs] at h
    cases h
  rw [if_neg hargs] at h
  obtain ⟨hlength,hring,-⟩ := not_or.mp hargs |>.imp not_not.mp not_or.mp
  obtain ⟨r,-,h⟩ := bind_eq_ok.mp h
  obtain ⟨r',-,h⟩ := bind_eq_ok.mp h
  split_ifs at h with hsecret hfound hkey
  obtain ⟨⟨nonce,s⟩,-,h⟩ := bind_eq_ok.mp h
  cases h
  have hfind : findPos inputIndex self.usedInputs = ((findPos inputIndex self.usedInputs).1, true) :=
    Prod.ext rfl (Bool.not_eq_false _ ▸ hfound)
  exact ⟨hlength,hring,rfl,r - r',nonce,_,s,findPos_spec hfind,not_not.mp hkey,rfl,rfl⟩

def ringPoints (C : Curve q P) (self : SurjectionProof) (inputs : List P) (output : P) : List P :=
  (ringScheme C (C.message inputs output)).points 0 self.e0.toList
    (members ((ringKeys inputs output self.usedInputs).zip self.s))

omit [DecidableEq P] in
theorem ringKeys_ne_zero {used : List Nat} :
    (∀ k ∈ ringKeys inputs output used, k ≠ 0) ↔ ∀ i ∈ used, inputs.getD i 0 ≠ output := by
  rw [ringKeys,List.forall_mem_map]
  refine forall₂_congr fun i _ => not_congr ?_
  rw [add_neg_eq_zero,eq_comm]

/-- A generated proof verifies exactly if no input in the set has the output's generator. -/
theorem verify_iff_of_generate [NeZero q]
    (h : self.generate C inputs output inputIndex inputBlind outputBlind rng = .ok proof)
    (hscalars : ∀ b ∈ proof.s, (fromBytesBeReduce b : ZMod q) ≠ 0)
    (hpoints : ∀ R ∈ ringPoints C proof inputs output, R ≠ 0) :
    proof.verify C inputs output = .ok () ↔ ∀ i ∈ self.usedInputs, inputs.getD i 0 ≠ output := by
  obtain ⟨hlength,hring,hset,secret,nonce,pos,s,hindex,hsecret,he0,hs⟩ := of_generate_eq_ok h
  have hused : proof.usedInputs = self.usedInputs := congrArg AnonymitySet.usedInputs hset
  have hn : inputs.length = proof.nInputs := hlength.trans (congrArg AnonymitySet.nInputs hset).symm
  have hcount := proof.length_s
  have hkeys : (ringKeys inputs output self.usedInputs).length = self.usedInputs.length := List.length_map _
  obtain ⟨hpos,-⟩ := List.getElem?_eq_some_iff.mp hindex
  rw [ringPoints,hused] at hpoints
  rw [hused] at hcount
  rw [verify,if_neg (not_not_intro hn),hused]
  dsimp only
  rw [if_neg (not_or.mpr ⟨hring,not_not_intro hcount.symm⟩),← ringKeys_ne_zero]
  generalize C.message inputs output = m at *
  generalize ringKeys inputs output self.usedInputs = keys at *
  constructor
  · -- A key on infinity is met by the verifier, or something before it.
    intro hverify k hk hzero
    rw [← List.map_fst_zip (hkeys.trans hcount.symm).le] at hk
    obtain ⟨x,hx,hxk⟩ := List.mem_map.mp hk
    rw [verifyLoop_eq_error C m 0 _ _ ⟨x,hx,hxk.trans hzero⟩] at hverify
    cases hverify
  · intro hne
    have husable : ∀ y ∈ keys.zip proof.s, Usable (q := q) y := by
      intro y hy
      obtain ⟨hkey,hscalar⟩ := List.of_mem_zip hy
      have hread := hscalars _ hscalar
      rw [hs,solve_eq C m secret nonce s hkeys hpos] at hscalar
      obtain ⟨t,-,ht⟩ := List.mem_map.mp hscalar
      have hok := fromBytesBe_toBytesBe C.order_le t
      rw [ht] at hok
      rw [fromBytesBe_eq_ok hok] at hread
      exact ⟨hne _ hkey,t,hread,hok⟩
    have hselected : keys[pos]? = some (secret • C.generator) := by
      rw [hsecret,selectKey_eq keys (by omega),List.getElem?_eq_getElem]
    have hwalk := walk_solve C m secret nonce s hkeys hpos hselected proof.e0
    rw [← hs] at hwalk
    obtain ⟨x,xs,hxs⟩ := List.exists_cons_of_length_pos (show 0 < (keys.zip proof.s).length by simp; omega)
    have hcons : (keys.zip proof.s).length = xs.length + 1 := by rw [hxs,List.length_cons]
    have hsize : self.usedInputs.length = 0 + (xs.length + 1) := by
      rw [List.length_zip,hkeys,hcount] at hcons
      omega
    rw [hxs] at husable hpoints hwalk ⊢
    obtain ⟨r,hr,hlast⟩ := verifyLoop_eq_ok C m 0 proof.e0.toList (Vector.replicate 33 0) x xs hsize husable
      hpoints
    rw [hr]
    have hclose : C.close r m = proof.e0 := by
      rw [Vector.toList_inj.mp (hlast.trans hwalk),← he0]
    exact if_pos hclose
end SurjectionProof
/-- A generated proof is read back from its encoding.  Where no scalar of it is zero and no point of its ring
is on infinity, it verifies exactly if no input in the set has the output's generator: the prover refuses
such an input as its own, but not as a decoy. -/
theorem generate_complete_iff [NeZero q] (C : Curve q P) (self : SurjectionProof) (inputs : List P) (output : P)
    (inputIndex : Nat) (inputBlind outputBlind : Vector UInt8 32) (rng : Option (Nat → Vector UInt8 32))
    (proof : SurjectionProof) (h : self.generate C inputs output inputIndex inputBlind outputBlind rng = .ok proof)
    (hscalars : ∀ b ∈ proof.s, (Scalar.fromBytesBeReduce b : ZMod q) ≠ 0)
    (hpoints : ∀ R ∈ proof.ringPoints C inputs output, R ≠ 0) : SurjectionProof.parse proof.serialize = .ok proof ∧
      (proof.verify C inputs output = .ok () ↔ ∀ i ∈ self.usedInputs, inputs.getD i 0 ≠ output) :=
  ⟨proof.parse_serialize,SurjectionProof.verify_iff_of_generate h hscalars hpoints⟩

theorem seven_le : 7 ≤ 256 ^ 32 := by decide

/-- The residues modulo 7, with a hash that is always one. -/
private def residues : Curve 7 (ZMod 7) where
  generator := 1
  toSec1Compressed p := arrayAt 33 (beBytes 33 p.val) 0
  sha256 _ := arrayAt 32 (beBytes 32 1) 0
  order_le := seven_le

/-- Two inputs, both in the set. -/
private def bothUsed : SurjectionProof where
  nInputs := 2
  used := [3]
  nInputs_le := by decide
  length_used := rfl
  bit_beyond := (bit_beyond_iff rfl).mp (by decide)
  e0 := Vector.replicate 32 0
  s := [Vector.replicate 32 0, Vector.replicate 32 0]
  length_s := by decide

/-- A proof over two inputs, from the blinds of the second. -/
private def residueProof (inputs : List (ZMod 7)) (output : ZMod 7) : Except Error SurjectionProof :=
  bothUsed.generate residues inputs output 1 (arrayAt 32 (beBytes 32 1) 0) (arrayAt 32 (beBytes 32 3) 0) none

/-- The scalars, the points and the verdict. -/
private def residueOutcome (inputs : List (ZMod 7)) (output : ZMod 7) :
    Option (List (ZMod 7) × List (ZMod 7) × Except Error Unit) :=
  (residueProof inputs output).toOption.map fun p =>
    (p.s.map fromBytesBeReduce, p.ringPoints residues inputs output, p.verify residues inputs output)

theorem exists_of_residueOutcome {inputs : List (ZMod 7)} {output : ZMod 7} {scalars points : List (ZMod 7)}
    {verdict : Except Error Unit} (h : residueOutcome inputs output = some (scalars, points, verdict))
    (hscalars : ∀ s ∈ scalars, s ≠ 0) (hpoints : ∀ R ∈ points, R ≠ 0) :
    ∃ proof, residueProof inputs output = .ok proof ∧ (∀ b ∈ proof.s, (fromBytesBeReduce b : ZMod 7) ≠ 0) ∧
      (∀ R ∈ proof.ringPoints residues inputs output, R ≠ 0) ∧ proof.verify residues inputs output = verdict := by
  cases hproof : residueProof inputs output with
  | error e =>
    rw [residueOutcome,hproof] at h
    cases h
  | ok proof =>
    rw [residueOutcome,hproof] at h
    cases h
    exact ⟨proof,rfl,fun b hb => hscalars _ (List.mem_map_of_mem hb),hpoints,rfl⟩

/-- Inputs 3 and 2 for output 4. -/
theorem generate_complete_iff_residues :
    ∃ proof, residueProof [3, 2] 4 = .ok proof ∧ SurjectionProof.parse proof.serialize = .ok proof ∧
      proof.verify residues [3, 2] 4 = .ok () := by
  have houtcome : residueOutcome [3, 2] 4 = some ([1, 6], [2, 1], .ok ()) := by decide +kernel
  obtain ⟨proof,hproof,hscalars,hpoints,-⟩ := exists_of_residueOutcome houtcome (by decide) (by decide)
  obtain ⟨hparse,hverify⟩ := generate_complete_iff residues bothUsed [3, 2] 4 1 _ _ none proof hproof hscalars
    hpoints
  exact ⟨proof,hproof,hparse,hverify.mpr (by decide)⟩

/-- Inputs 4 and 2 for output 4: the decoy has the output's generator. -/
theorem generate_decoy_rejected : ∃ proof, residueProof [4, 2] 4 = .ok proof ∧
      (∀ b ∈ proof.s, (Scalar.fromBytesBeReduce b : ZMod 7) ≠ 0) ∧ (∀ R ∈ proof.ringPoints residues [4, 2] 4, R ≠ 0) ∧
      proof.verify residues [4, 2] 4 = .error .verification := by
  have houtcome : residueOutcome [4, 2] 4 = some ([1, 6], [1, 1], .error .verification) := by decide +kernel
  exact exists_of_residueOutcome houtcome (by decide) (by decide)
end PureCrypto.Zkp
