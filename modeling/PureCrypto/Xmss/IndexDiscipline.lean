import PureCrypto.Xmss.Correctness

/-! # Index discipline -/
namespace PureCrypto.Xmss
open ByteArrays List Option
open Trace (run run_cons)
/-- The index of a spent key. -/
def Params.limit (p : Params) : Nat := p.exhaustedIndex.getD (2 ^ 64 - 1)
namespace Params.Valid
variable {p : Params}
theorem exhaustedIndex_eq (hp : p.Valid) : p.exhaustedIndex = some p.limit := by
  have hlt := hp.fullHeight_lt
  rw [limit,exhaustedIndex,if_neg (by omega)]
  split_ifs <;> rfl

theorem limit_le (hp : p.Valid) : p.limit ≤ 2 ^ p.fullHeight := by
  have hlt := hp.fullHeight_lt
  rw [limit,exhaustedIndex,if_neg (by omega)]
  split_ifs
  · exact Nat.sub_le _ _
  · exact le_rfl

theorem limit_lt (hp : p.Valid) : p.limit < 256 ^ p.indexBytes := by
  have hlt := hp.fullHeight_lt
  have hle := hp.fullHeight_le
  have hpow : 256 ^ p.indexBytes = 2 ^ (8 * p.indexBytes) := (pow_mul 2 8 p.indexBytes).symm
  rw [limit,exhaustedIndex,if_neg (by omega),hpow]
  split_ifs with hwide
  · have hpos := Nat.two_pow_pos p.fullHeight
    rw [mul_comm,hwide,getD_some]
    omega
  · exact Nat.pow_lt_pow_right (by decide) (by omega)
end Params.Valid
namespace RawKey
variable {p : Params} {H : HashFunctions p} {k : RawKey p}
/-- What reading a key back checks. -/
structure Sound (H : HashFunctions p) (k : RawKey p) : Prop where
  index_le : k.index ≤ p.limit
  root : p.treeHeight ≤ recomputeMaxTreeHeight →
    (topSubtree H (skSeed p k.bytes) (skPubSeed p k.bytes)).root = skRoot p k.bytes

theorem validateRawSk_eq_ok (hp : p.Valid) : validateRawSk H k.bytes = .ok () ↔ k.Sound H := by
  unfold validateRawSk
  rw [hp.exhaustedIndex_eq]
  dsimp only [Option.any]
  split_ifs with hindex hheight hroot
  · constructor
    · intro h
      cases h
    · intro h
      exact absurd (of_decide_eq_true hindex) (Nat.not_lt.mpr h.index_le)
  · have hle := Nat.not_lt.mp fun h => hindex (decide_eq_true h)
    exact ⟨fun _ => ⟨hle,fun h => absurd hheight (Nat.not_lt.mpr h)⟩,fun _ => rfl⟩
  · constructor
    · intro h
      cases h
    · intro h
      exact absurd (h.root (Nat.not_lt.mp hheight)) hroot
  · have hle := Nat.not_lt.mp fun h => hindex (decide_eq_true h)
    exact ⟨fun _ => ⟨hle,fun _ => not_not.mp hroot⟩,fun _ => rfl⟩

theorem Sound.parse (hp : p.Valid) (h : k.Sound H) :
    RawKey.parse H k.bytes = .ok ⟨k.bytes, k.length_eq, SubtreeCache.empty p⟩ := by
  rw [RawKey.parse,dif_pos k.length_eq,(validateRawSk_eq_ok hp).mpr h]
  rfl

theorem sound_of_parse (hp : p.Valid) {raw : List UInt8} (h : RawKey.parse H raw = .ok k) : k.Sound H := by
  unfold RawKey.parse at h
  split_ifs at h with hlength
  cases hvalid : validateRawSk H raw with
  | error e =>
    rw [hvalid] at h
    cases h
  | ok u =>
    rw [hvalid] at h
    cases h
    exact (validateRawSk_eq_ok hp).mp hvalid

theorem drop_reserve (k : RawKey p) (idx : Nat) :
    (k.reserve idx).bytes.drop p.indexBytes = k.bytes.drop p.indexBytes :=
  drop_left' (length_beBytes ..)

theorem index_reserve (hp : p.Valid) (k : RawKey p) {idx : Nat} (h : idx + 1 < 256 ^ p.indexBytes) :
    (k.reserve idx).index = idx + 1 := by
  have hfield : (idxToBytes (idx + 1) p.indexBytes).length = p.indexBytes := length_beBytes ..
  rw [index,reserve,take_left' hfield]
  exact bytesToIdx_idxToBytes hp.indexBytes_le h

theorem Sound.reserve (hp : p.Valid) (h : k.Sound H) {idx : Nat} (hidx : idx < p.limit) :
    (k.reserve idx).Sound H := by
  have hlimit := hp.limit_lt
  have hfields (off : Nat) : (arrayAt p.n (k.reserve idx).bytes (p.indexBytes + off)) =
      arrayAt p.n k.bytes (p.indexBytes + off) := by
    rw [← arrayAt_drop,← arrayAt_drop,drop_reserve]
  refine ⟨?_,fun hheight => ?_⟩
  · rw [index_reserve hp k (by omega)]
    exact hidx
  · have hroot := h.root hheight
    rwa [show skSeed p (k.reserve idx).bytes = skSeed p k.bytes from hfields 0,
      show skPubSeed p (k.reserve idx).bytes = skPubSeed p k.bytes from hfields _,
      show skRoot p (k.reserve idx).bytes = skRoot p k.bytes from hfields _]

theorem sound_of_fromSeed {seed : List UInt8} (h : RawKey.fromSeed H seed = some k) : k.index = 0 ∧ k.Sound H := by
  unfold RawKey.fromSeed at h
  split_ifs at h with hseed
  cases h
  have hindex : bytesToIdx ((coreKeygen H seed).1.take p.indexBytes) = 0 := by
    rw [coreKeygen,append_assoc,append_assoc,take_left' length_replicate]
    induction p.indexBytes with
    | zero => rfl
    | succ len ih => rwa [bytesToIdx,replicate_succ]
  refine ⟨hindex,hindex.trans_le (Nat.zero_le _),fun _ => ?_⟩
  rw [skRoot_coreKeygen H seed hseed,skSeed_coreKeygen H seed hseed,skPubSeed_coreKeygen H seed hseed]
  rfl
variable {exhausted : Nat → Bool}
theorem sign_eq (H : HashFunctions p) (k : RawKey p)
    (hexhausted : ∀ idx, exhausted idx = true ↔ p.limit ≤ idx) (msg : List UInt8) :
    k.sign H exhausted msg = if p.limit ≤ k.index then (k, .error .keyExhausted)
      else (⟨(k.reserve k.index).bytes, (k.reserve k.index).length_eq,
          (coreSign H (k.reserve k.index).bytes k.index msg k.cache).1⟩,
        .ok (coreSign H (k.reserve k.index).bytes k.index msg k.cache).2) := by
  unfold sign
  by_cases h : p.limit ≤ k.index
  · rw [if_pos h,if_pos ((hexhausted _).mpr h)]
  · rw [if_neg h,if_neg (fun h' => h ((hexhausted _).mp h'))]
    rfl

theorem Sound.sign_cases (hp : p.Valid) (h : k.Sound H)
    (hexhausted : ∀ idx, exhausted idx = true ↔ p.limit ≤ idx) (msg : List UInt8) :
    p.limit ≤ k.index ∧ k.sign H exhausted msg = (k, .error .keyExhausted) ∨
      k.index < p.limit ∧ ∃ k' sig, k.sign H exhausted msg = (k', .ok sig) ∧
        bytesToIdx (sig.take p.indexBytes) = k.index ∧ k'.index = k.index + 1 ∧ k'.Sound H := by
  rw [sign_eq H k hexhausted]
  by_cases hlimit : p.limit ≤ k.index
  · exact .inl ⟨hlimit,if_pos hlimit⟩
  · have hlt := Nat.not_le.mp hlimit
    have hfield := hp.limit_lt
    have hsound := h.reserve hp hlt
    refine .inr ⟨hlt,_,_,if_neg hlimit,?_,index_reserve hp k (by omega),hsound.index_le,hsound.root⟩
    change bytesToIdx ((beBytes p.indexBytes k.index ++ _ ++ _).take p.indexBytes) = k.index
    rw [append_assoc,take_left' (length_beBytes p.indexBytes k.index)]
    exact bytesToIdx_idxToBytes hp.indexBytes_le (by omega)
end RawKey
theorem parseOid_append {magic : List UInt8} (hmagic : magic.length = 4) {oid : Nat} (hoid : oid < 256 ^ 4)
    (raw : List UInt8) : parseOid magic (magic ++ beBytes 4 oid ++ raw) = .ok oid := by
  have hlength : ¬(magic ++ beBytes 4 oid ++ raw).length < 8 := by
    simp only [length_append,hmagic,length_beBytes]
    omega
  rw [parseOid,append_assoc,take_left' hmagic,drop_left' hmagic,
    take_left' (length_beBytes 4 oid),beNat_beBytes,Nat.mod_eq_of_lt hoid,← append_assoc]
  exact if_neg (not_or.mpr ⟨hlength,not_not_intro rfl⟩)

theorem drop_append_oid {magic : List UInt8} (hmagic : magic.length = 4) (oid : Nat) (raw : List UInt8) :
    (magic ++ beBytes 4 oid ++ raw).drop 8 = raw := by
  refine drop_left' ?_
  rw [length_append,hmagic,length_beBytes]
section Parsing
variable {H : (p : Params) → HashFunctions p} {σ : Type} {magic : List UInt8} {fromOid : Nat → Option σ}
  {params : σ → Params}
theorem sound_of_parseKey (hvalid : ∀ set, (params set).Valid) {bytes : List UInt8}
    {k : (set : σ) × RawKey (params set)} (h : parseKey H magic fromOid params bytes = .ok k) :
    k.2.Sound (H (params k.1)) := by
  obtain ⟨oid,-,h⟩ := bind_eq_ok.mp h
  cases hset : fromOid oid with
  | none =>
    rw [hset] at h
    cases h
  | some set =>
    rw [hset] at h
    obtain ⟨raw,hraw,h⟩ := bind_eq_ok.mp h
    cases h
    exact RawKey.sound_of_parse (hvalid set) hraw

theorem parseKey_toBytes {set : σ} (hvalid : (params set).Valid) (hmagic : magic.length = 4) {oid : Nat}
    (hoid : oid < 256 ^ 4) (hset : fromOid oid = some set) {k : RawKey (params set)}
    (h : k.Sound (H (params set))) : parseKey H magic fromOid params (k.toBytes magic oid) =
      .ok ⟨set, ⟨k.bytes, k.length_eq, SubtreeCache.empty _⟩⟩ := by
  unfold parseKey RawKey.toBytes
  rw [parseOid_append hmagic hoid,drop_append_oid hmagic]
  simp only [bind,Except.bind,hset,h.parse hvalid]
  rfl
end Parsing

inductive PrivateKey
  | xmss (k : XmssPrivateKey)
  | xmssMt (k : XmssMtPrivateKey)
namespace PrivateKey
def set : PrivateKey → ParamSet
  | xmss k => .xmss k.set
  | xmssMt k => .xmssMt k.set

def raw : (k : PrivateKey) → RawKey k.set.params
  | xmss k => k.raw
  | xmssMt k => k.raw
def index : PrivateKey → Nat
  | xmss k => k.index
  | xmssMt k => k.index

def remaining : PrivateKey → Nat
  | xmss k => k.remaining
  | xmssMt k => k.remaining
variable (H : (p : Params) → HashFunctions p)
def sign (msg : List UInt8) : PrivateKey → PrivateKey × Except Error (List UInt8)
  | xmss k => (.xmss (k.sign H msg).1, (k.sign H msg).2)
  | xmssMt k => (.xmssMt (k.sign H msg).1, (k.sign H msg).2)

def reload : PrivateKey → Except Error PrivateKey
  | xmss k => (XmssPrivateKey.fromBytes H k.toBytes).map xmss
  | xmssMt k => (XmssMtPrivateKey.fromBytes H k.toBytes).map xmssMt

/-- A key that was generated, or read from any bytes. -/
inductive Obtained : PrivateKey → Prop
  | xmss_seed {set seed k} (h : XmssPrivateKey.fromSeed H set seed = some k) : Obtained (xmss k)
  | xmss_bytes {bytes k} (h : XmssPrivateKey.fromBytes H bytes = .ok k) : Obtained (xmss k)
  | xmssMt_seed {set seed k} (h : XmssMtPrivateKey.fromSeed H set seed = some k) : Obtained (xmssMt k)
  | xmssMt_bytes {bytes k} (h : XmssMtPrivateKey.fromBytes H bytes = .ok k) : Obtained (xmssMt k)

abbrev limit (k : PrivateKey) : Nat := k.set.params.limit

def Sound (k : PrivateKey) : Prop := k.raw.Sound (H k.set.params)

theorem limit_xmss (set : XmssParamSet) : set.params.limit = 2 ^ set.params.fullHeight := by
  cases set <;> rfl
variable {k : PrivateKey}
theorem Sound.index_le (h : k.Sound H) : k.index ≤ k.limit := by
  cases k with
  | xmss k => exact RawKey.Sound.index_le h
  | xmssMt k => exact RawKey.Sound.index_le h

theorem remaining_eq (k : PrivateKey) : k.remaining = k.limit - k.index := by
  cases k with
  | xmss k => exact congrArg (· - k.index) (limit_xmss k.set).symm
  | xmssMt k => rfl
variable {H}
theorem sound_of_obtained (h : Obtained H k) : k.Sound H := by
  cases h with
  | xmss_seed h =>
    obtain ⟨raw,hraw,rfl⟩ := map_eq_some_iff.mp h
    exact (RawKey.sound_of_fromSeed hraw).2
  | xmss_bytes h =>
    obtain ⟨k,hk,rfl⟩ := map_eq_ok.mp h
    exact sound_of_parseKey XmssParamSet.valid hk
  | xmssMt_seed h =>
    obtain ⟨raw,hraw,rfl⟩ := map_eq_some_iff.mp h
    exact (RawKey.sound_of_fromSeed hraw).2
  | xmssMt_bytes h =>
    obtain ⟨k,hk,rfl⟩ := map_eq_ok.mp h
    exact sound_of_parseKey XmssMtParamSet.valid hk

theorem sign_cases (h : k.Sound H) (msg : List UInt8) : k.limit ≤ k.index ∧ k.sign H msg = (k, .error .keyExhausted) ∨
      k.index < k.limit ∧ ∃ k' sig, k.sign H msg = (k', .ok sig) ∧
        bytesToIdx (sig.take k.set.params.indexBytes) = k.index ∧ k'.set = k.set ∧ k'.index = k.index + 1 ∧
        k'.Sound H := by
  cases k with
  | xmss k =>
    have hsound : k.raw.Sound (H k.set.params) := h
    have hexhausted (idx : Nat) : decide (2 ^ k.set.params.fullHeight ≤ idx) = true ↔
        k.set.params.limit ≤ idx := by rw [decide_eq_true_iff,limit_xmss]
    rcases hsound.sign_cases k.set.valid hexhausted msg with
      ⟨hlimit,hsign⟩ | ⟨hlimit,raw,sig,hsign,hsig,hindex,hraw⟩
    · exact .inl ⟨hlimit,congrArg (fun r => (PrivateKey.xmss ⟨k.set,r.1⟩, r.2)) hsign⟩
    · exact .inr ⟨hlimit,.xmss ⟨k.set,raw⟩,sig,
        congrArg (fun r => (PrivateKey.xmss ⟨k.set,r.1⟩, r.2)) hsign,hsig,rfl,hindex,hraw⟩
  | xmssMt k =>
    have hsound : k.raw.Sound (H k.set.params) := h
    have hexhausted (idx : Nat) : (k.set.params.exhaustedIndex.any fun max => max ≤ idx) = true ↔
        k.set.params.limit ≤ idx := by
      rw [k.set.valid.exhaustedIndex_eq]
      exact decide_eq_true_iff
    rcases hsound.sign_cases k.set.valid hexhausted msg with
      ⟨hlimit,hsign⟩ | ⟨hlimit,raw,sig,hsign,hsig,hindex,hraw⟩
    · exact .inl ⟨hlimit,congrArg (fun r => (PrivateKey.xmssMt ⟨k.set,r.1⟩, r.2)) hsign⟩
    · exact .inr ⟨hlimit,.xmssMt ⟨k.set,raw⟩,sig,
        congrArg (fun r => (PrivateKey.xmssMt ⟨k.set,r.1⟩, r.2)) hsign,hsig,rfl,hindex,hraw⟩

theorem reload_eq (h : k.Sound H) : ∃ k', k.reload H = .ok k' ∧ k'.set = k.set ∧ k'.index = k.index ∧ k'.Sound H := by
  cases k with
  | xmss k =>
    have hoid : k.set.oid < 256 ^ 4 := by cases k.set <;> decide
    have hsound : k.raw.Sound (H k.set.params) := h
    have hparse : parseKey H skMagic XmssParamSet.fromOid XmssParamSet.params k.toBytes = .ok _ :=
      parseKey_toBytes k.set.valid rfl hoid k.set.fromOid_oid hsound
    refine ⟨.xmss ⟨k.set,⟨k.raw.bytes,k.raw.length_eq,SubtreeCache.empty _⟩⟩,?_,rfl,rfl,h.index_le,h.root⟩
    rw [reload,XmssPrivateKey.fromBytes,hparse]
    rfl
  | xmssMt k =>
    have hoid : k.set.oid < 256 ^ 4 := by cases k.set <;> decide
    have hsound : k.raw.Sound (H k.set.params) := h
    have hparse : parseKey H mtSkMagic XmssMtParamSet.fromOid XmssMtParamSet.params k.toBytes = .ok _ :=
      parseKey_toBytes k.set.valid rfl hoid k.set.fromOid_oid hsound
    refine ⟨.xmssMt ⟨k.set,⟨k.raw.bytes,k.raw.length_eq,SubtreeCache.empty _⟩⟩,?_,rfl,rfl,h.index_le,h.root⟩
    rw [reload,XmssMtPrivateKey.fromBytes,hparse]
    rfl
end PrivateKey
inductive KeyOp
  | sign (msg : List UInt8)
  | reload

/-- The key, the indices in the signatures so far, and whether a key could not be read back. -/
structure KeySession where
  key : PrivateKey
  used : List Nat
  lost : Bool
namespace KeySession
variable (H : (p : Params) → HashFunctions p)
def start (k : PrivateKey) : KeySession := ⟨k, [], false⟩

def step (s : KeySession) : KeyOp → KeySession
  | .sign msg =>
    match s.key.sign H msg with
    | (key, .ok sig) => ⟨key, s.used ++ [bytesToIdx (sig.take s.key.set.params.indexBytes)], s.lost⟩
    | (key, .error _) => { s with key := key }
  | .reload =>
    match s.key.reload H with
    | .ok key => { s with key := key }
    | .error _ => { s with lost := true }

def isSign : KeyOp → Bool
  | .sign _ => true
  | .reload => false
variable {H} {s : KeySession}
theorem step_cases (h : s.key.Sound H) (op : KeyOp) : ∃ key, key.Sound H ∧ key.set = s.key.set ∧
      (isSign op = true ∧ s.key.index < s.key.limit ∧ key.index = s.key.index + 1 ∧
          step H s op = ⟨key, s.used ++ [s.key.index], s.lost⟩ ∨
        (isSign op = true → s.key.limit ≤ s.key.index) ∧ key.index = s.key.index ∧
          step H s op = ⟨key, s.used, s.lost⟩) := by
  cases op with
  | sign msg =>
    rcases PrivateKey.sign_cases h msg with ⟨hlimit,hsign⟩ | ⟨hlimit,key,sig,hsign,hsig,hset,hindex,hkey⟩
    · refine ⟨s.key,h,rfl,.inr ⟨fun _ => hlimit,rfl,?_⟩⟩
      rw [step,hsign]
    · refine ⟨key,hkey,hset,.inl ⟨rfl,hlimit,hindex,?_⟩⟩
      rw [step,hsign,← hsig]
  | reload =>
    obtain ⟨key,hreload,hset,hindex,hkey⟩ := PrivateKey.reload_eq h
    refine ⟨key,hkey,hset,.inr ⟨nofun,hindex,?_⟩⟩
    rw [step,hreload]

/-- The indices in the signatures of a key that started at `first`. -/
structure Valid (H : (p : Params) → HashFunctions p) (set : ParamSet) (first : Nat) (s : KeySession) : Prop where
  sound : s.key.Sound H
  set_eq : s.key.set = set
  lost_eq : s.lost = false
  sorted : s.used.Pairwise (· < ·)
  used_mem : ∀ i ∈ s.used, first ≤ i ∧ i < s.key.index
  first_le : first ≤ s.key.index

theorem Valid.step {set : ParamSet} {first : Nat} (h : s.Valid H set first) (op : KeyOp) :
    (step H s op).Valid H set first := by
  obtain ⟨key,hkey,hset,⟨-,hlimit,hindex,hstep⟩ | ⟨-,hindex,hstep⟩⟩ := step_cases h.sound op
  · rw [hstep]
    refine ⟨hkey,hset.trans h.set_eq,h.lost_eq,?_,?_,?_⟩
    · refine pairwise_append.mpr ⟨h.sorted,pairwise_singleton _ _,?_⟩
      intro i hi j hj
      rw [List.mem_singleton.mp hj]
      exact (h.used_mem i hi).2
    · intro i hi
      rw [hindex]
      rcases List.mem_append.mp hi with hi | hi
      · have hmem := h.used_mem i hi
        omega
      · rw [List.mem_singleton.mp hi]
        exact ⟨h.first_le,Nat.lt_succ_self _⟩
    · have hfirst := h.first_le
      dsimp only
      omega
  · rw [hstep]
    refine ⟨hkey,hset.trans h.set_eq,h.lost_eq,h.sorted,?_,?_⟩
    · rw [hindex]
      exact h.used_mem
    · exact hindex ▸ h.first_le

theorem Valid.run {set : ParamSet} {first : Nat} (h : s.Valid H set first) (ops : List KeyOp) :
    (run (KeySession.step H) s ops).Valid H set first := by
  induction ops generalizing s with
  | nil => exact h
  | cons op ops ih => exact ih (h.step op)

theorem used_run (h : s.key.Sound H) (ops : List KeyOp) :
    ∃ more, (run (step H) s ops).used = s.used ++ more := by
  induction ops generalizing s with
  | nil => exact ⟨[],(append_nil _).symm⟩
  | cons op ops ih =>
    obtain ⟨key,hkey,-,⟨-,-,-,hstep⟩ | ⟨-,-,hstep⟩⟩ := step_cases h op
    · obtain ⟨more,hmore⟩ := ih (s := ⟨key,s.used ++ [s.key.index],s.lost⟩) hkey
      refine ⟨s.key.index :: more,?_⟩
      rw [run_cons,hstep,hmore,append_assoc,singleton_append]
    · obtain ⟨more,hmore⟩ := ih (s := ⟨key,s.used,s.lost⟩) hkey
      refine ⟨more,?_⟩
      rw [run_cons,hstep,hmore]

/-- Every call to sign succeeds while keys remain, and then none does. -/
theorem run_count (h : s.key.Sound H) (ops : List KeyOp) :
    (run (step H) s ops).used.length = s.used.length + min (ops.countP isSign) s.key.remaining ∧
      (run (step H) s ops).key.remaining = s.key.remaining - min (ops.countP isSign) s.key.remaining := by
  induction ops generalizing s with
  | nil => simp
  | cons op ops ih =>
    obtain ⟨key,hkey,hset,hcases⟩ := step_cases h op
    rw [run_cons,countP_cons]
    have hremaining : key.remaining = s.key.limit - key.index := by
      rw [PrivateKey.remaining_eq,PrivateKey.limit,hset]
    rw [PrivateKey.remaining_eq s.key]
    rcases hcases with ⟨hsign,hlimit,hindex,hstep⟩ | ⟨hsign,hindex,hstep⟩ <;> rw [hstep]
    · obtain ⟨hused,hleft⟩ := ih (s := ⟨key,s.used ++ [s.key.index],s.lost⟩) hkey
      rw [hused,hleft]
      rw [hremaining,if_pos hsign,length_append,length_singleton]
      omega
    · obtain ⟨hused,hleft⟩ := ih (s := ⟨key,s.used,s.lost⟩) hkey
      rw [hused,hleft]
      dsimp only
      rw [hremaining,hindex]
      by_cases hop : isSign op = true
      · have hspent := hsign hop
        omega
      · rw [if_neg hop]
        exact ⟨rfl,rfl⟩
end KeySession
/-- A key that was generated or read is written out and read back at every point.  The indices in its
signatures increase, from its own on and below `2 ^ h`, and none is used once the index has passed it.
Whatever follows, as many calls to sign succeed as `remaining` says, if there are so many. -/
theorem index_discipline (H : (p : Params) → HashFunctions p) {k : PrivateKey} (hk : k.Obtained H)
    (ops : List KeyOp) :
    let s := run (KeySession.step H) (KeySession.start k) ops
    s.lost = false ∧ s.key.set = k.set ∧ s.used.Pairwise (· < ·) ∧
      (∀ i ∈ s.used, k.index ≤ i ∧ i < s.key.index ∧ i < 2 ^ k.set.params.fullHeight) ∧
      (∀ msg, (s.key.sign H msg).2 = .error .keyExhausted ↔ s.key.remaining = 0) ∧
      ∀ more, let s' := run (KeySession.step H) s more
        s'.used.length = s.used.length + min (more.countP KeySession.isSign) s.key.remaining ∧
          (s.key.remaining = 0 → s'.key.remaining = 0 ∧ s'.used = s.used) := by
  intro s
  have hstart : (KeySession.start k).Valid H k.set k.index :=
    ⟨PrivateKey.sound_of_obtained hk,rfl,rfl,List.Pairwise.nil,fun _ hi => absurd hi not_mem_nil,le_rfl⟩
  have hs : s.Valid H k.set k.index := hstart.run ops
  refine ⟨hs.lost_eq,hs.set_eq,hs.sorted,?_,?_,?_⟩
  · intro i hi
    obtain ⟨hfirst,hlast⟩ := hs.used_mem i hi
    have hlimit := k.set.valid.limit_le
    have hindex := hs.sound.index_le
    rw [PrivateKey.limit,hs.set_eq] at hindex
    exact ⟨hfirst,hlast,by omega⟩
  · intro msg
    rw [PrivateKey.remaining_eq]
    rcases PrivateKey.sign_cases hs.sound msg with ⟨hlimit,hsign⟩ | ⟨hlimit,key,sig,hsign,-⟩ <;> rw [hsign]
    · exact ⟨fun _ => Nat.sub_eq_zero_of_le hlimit,fun _ => rfl⟩
    · constructor
      · intro h
        cases h
      · intro h
        exact absurd (Nat.le_of_sub_eq_zero h) (Nat.not_le.mpr hlimit)
  · intro more s'
    obtain ⟨hused,hleft⟩ := KeySession.run_count hs.sound more
    refine ⟨hused,fun hspent => ?_⟩
    rw [hspent,Nat.min_zero] at hused hleft
    obtain ⟨rest,hrest⟩ := KeySession.used_run hs.sound more
    rw [hrest,length_append] at hused
    refine ⟨hleft,hrest.trans ?_⟩
    rw [length_eq_zero_iff.mp (by omega : rest.length = 0),append_nil]

/-- A generated multi-tree key whose index field is as wide as its tree is high. -/
theorem index_discipline_zeroSeed :
    let H : (p : Params) → HashFunctions p := fun p => HashFunctions.ofCore p fun _ _ => zeroNode p
    ∃ k, XmssMtPrivateKey.fromSeed H .sha2_40_8_256 (List.replicate 96 0) = some k ∧
      let s := run (KeySession.step H) (KeySession.start (.xmssMt k)) [.sign [1], .reload, .sign []]
      s.lost = false ∧ s.used.Pairwise (· < ·) := by
  intro H
  obtain ⟨k,hk⟩ : ∃ k, XmssMtPrivateKey.fromSeed H .sha2_40_8_256 (List.replicate 96 0) = some k := ⟨_,rfl⟩
  refine ⟨k,hk,?_⟩
  obtain ⟨hlost,-,hsorted,-⟩ := index_discipline H (PrivateKey.Obtained.xmssMt_seed hk)
    [.sign [1], .reload, .sign []]
  exact ⟨hlost,hsorted⟩
end PureCrypto.Xmss
