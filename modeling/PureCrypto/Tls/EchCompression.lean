import PureCrypto.Framework.Trace
import PureCrypto.Tls.EchInner
import Mathlib.Data.List.Chain
import Mathlib.Data.List.Infix
import Mathlib.Data.List.Nodup
import Mathlib.Tactic.Ring

/-! # When compression loses nothing -/
namespace PureCrypto.Tls.Ech
open List Nat Option
theorem fromBeBytes_toBeBytes (t : ExtensionType) : fromBeBytes (t.code >>> 8).toUInt8 t.code.toUInt8 = t := by
  obtain ⟨code⟩ := t
  have hlt : code.toNat < 65536 := code.toNat_lt
  have hlow : code.toNat % 256 < 2 ^ 8 := mod_lt _ (by decide)
  rw [fromBeBytes,ExtensionType.mk.injEq]
  apply UInt16.toNat_inj.mp
  simp only [UInt16.toNat_or,UInt16.toNat_shiftLeft,UInt8.toNat_toUInt16,UInt16.toNat_toUInt8,UInt16.toNat_shiftRight]
  have hhigh : code.toNat >>> 8 < 256 := by
    omega
  rw [show (8 : UInt16).toNat % 16 = 8 from rfl]
  rw [mod_eq_of_lt (by omega),← shiftLeft_add_eq_or_of_lt hlow]
  omega

theorem readTypes_flatMap (types : List ExtensionType) : readTypes (types.flatMap toBeBytes) = types := by
  induction types with
  | nil => rfl
  | cons t types ih =>
    rw [flatMap_cons,toBeBytes]
    simp only [cons_append,nil_append,readTypes]
    rw [ih,fromBeBytes_toBeBytes]

theorem length_flatMap_toBeBytes (types : List ExtensionType) :
    (types.flatMap toBeBytes).length = types.length * 2 := by
  induction types with
  | nil => rfl
  | cons t types ih =>
    rw [flatMap_cons,length_append,ih,toBeBytes]
    simp
    omega
variable {types share : List ExtensionType} {l outer : List RawExtension} {start k : Nat} {t : ExtensionType}
  {last : Option Nat} {positions : List Nat} {body : List UInt8} {seen : Bool} {pos : List (Option Nat)}
/-- The length byte wraps from 128 types on. -/
theorem decode_encode_iff {decoded : List ExtensionType} (hne : types ≠ []) :
    decodeOuterExtensions (encodeOuterExtensions types) = .ok decoded ↔ types.length ≤ 127 ∧ decoded = types := by
  have hpos : 0 < types.length := length_pos_iff.mpr hne
  rw [encodeOuterExtensions,decodeOuterExtensions]
  simp only [length_cons,length_flatMap_toBeBytes,UInt8.toNat_ofNat',readTypes_flatMap]
  by_cases hle : types.length ≤ 127
  · rw [if_neg (by omega)]
    simp [hle,eq_comm]
  · rw [if_pos (by omega)]
    simp [hle]

theorem validateLoop_iff {seen : List ExtensionType} : validateLoop seen types = .ok () ↔
      (∀ t ∈ types, reserved t = false) ∧ types.Nodup ∧ ∀ t ∈ types, t ∉ seen := by
  induction types generalizing seen with
  | nil => simp [validateLoop]
  | cons t types ih =>
    rw [validateLoop]
    by_cases hreserved : reserved t = true
    · simp [hreserved]
    · by_cases hseen : t ∈ seen
      · simp [hreserved,hseen]
      · rw [if_neg hreserved,if_neg hseen,ih]
        simp only [forall_mem_cons,nodup_cons,List.mem_append,List.mem_singleton,not_or]
        constructor
        · rintro ⟨hres,hnodup,hnew⟩
          exact ⟨⟨by simpa using hreserved,hres⟩,⟨fun ht => (hnew t ht).2 rfl,hnodup⟩,hseen,fun u hu => (hnew u hu).1⟩
        · rintro ⟨⟨-,hres⟩,⟨ht,hnodup⟩,-,hnew⟩
          exact ⟨hres,hnodup,fun u hu => ⟨hnew u hu,fun heq => ht (heq ▸ hu)⟩⟩

theorem validateShareTypes_iff :
    validateShareTypes types = .ok () ↔ (∀ t ∈ types, reserved t = false) ∧ types.Nodup := by
  rw [validateShareTypes,validateLoop_iff]
  simp

/-- The list has a block of these types at the index. -/
def BlockAt (l : List RawExtension) (types : List ExtensionType) (start : Nat) : Prop :=
  ∃ pre block post, l = pre ++ (block ++ post) ∧ pre.length = start ∧ block.map Prod.fst = types

theorem matchesAt_iff
    (hle : start + types.length ≤ l.length) : matchesAt l types start = true ↔ BlockAt l types start := by
  have htake : matchesAt l types start = true ↔ ((l.drop start).take types.length).map Prod.fst = types := by
    rw [matchesAt,List.all_eq_true]
    constructor
    · intro h
      apply ext_getElem?
      intro i
      rw [getElem?_map]
      by_cases hi : i < types.length
      · rw [getElem?_take_of_lt hi]
        simpa using h i (List.mem_range.mpr hi)
      · rw [getElem?_eq_none (by rw [length_take]; omega),getElem?_eq_none (by omega)]
        rfl
    · intro h i hi
      have hi := List.mem_range.mp hi
      rw [beq_iff_eq]
      conv_rhs => rw [← h]
      rw [getElem?_map,getElem?_take_of_lt hi,getElem?_drop]
  rw [htake]
  constructor
  · intro h
    refine ⟨l.take start,(l.drop start).take types.length,(l.drop start).drop types.length,?_,?_,h⟩
    · rw [take_append_drop,take_append_drop]
    · rw [length_take]
      omega
  · rintro ⟨pre,block,post,rfl,rfl,rfl⟩
    rw [drop_left,length_map,take_left]

theorem blockAt_of_findSubsequence (h : findSubsequence l types = some start) : BlockAt l types start := by
  rw [findSubsequence] at h
  split_ifs at h with hguard
  have hin := List.mem_range.mp (mem_of_find?_eq_some h)
  exact (matchesAt_iff (by omega)).mp (find?_some h)

theorem findSubsequence_isSome_iff (hne : types ≠ []) :
    (findSubsequence l types).isSome = true ↔ types <:+: l.map Prod.fst := by
  constructor
  · intro h
    obtain ⟨start,hstart⟩ := isSome_iff_exists.mp h
    obtain ⟨pre,block,post,rfl,-,rfl⟩ := blockAt_of_findSubsequence hstart
    exact ⟨pre.map Prod.fst,post.map Prod.fst,by simp⟩
  · rintro ⟨pre,post,heq⟩
    obtain ⟨l₁,l₂,rfl,hl₁,hpost⟩ := map_eq_append_iff.mp heq.symm
    obtain ⟨l₀,block,rfl,hpre,hblock⟩ := map_eq_append_iff.mp hl₁
    have hlen : (l₀ ++ block ++ l₂).length = l₀.length + types.length + l₂.length := by
      rw [← hblock]
      simp only [length_append,length_map]
    rw [findSubsequence,if_neg (by rw [hlen]; simp [hne]; omega),find?_isSome]
    refine ⟨l₀.length,List.mem_range.mpr (by omega),?_⟩
    exact (matchesAt_iff (by omega)).mpr ⟨l₀,block,l₂,by simp,rfl,hblock⟩

/-- The first match leaves room for the rest of a sublist. -/
theorem findIdx?_of_sublist
    (h : (t :: types).Sublist (l.map Prod.fst)) :
    ∃ i e, l.findIdx? (fun e => decide (e.1 = t)) = some i ∧ l[i]? = some e ∧ e.1 = t ∧
      types.Sublist ((l.drop (i + 1)).map Prod.fst) := by
  induction l with
  | nil => cases h
  | cons e l ih =>
    rw [findIdx?_cons]
    by_cases heq : e.1 = t
    · refine ⟨0,e,by simp [heq],rfl,heq,?_⟩
      simpa using h.of_cons_cons
    · rcases sublist_cons_iff.mp h with h | ⟨rest,hcons,-⟩
      · obtain ⟨i,x,hfind,hget,hx,hrest⟩ := ih h
        exact ⟨i + 1,x,by simp [heq,hfind],by simpa using hget,hx,by simpa using hrest⟩
      · exact absurd (List.cons.inj hcons).1.symm heq

/-- Taking the next match each time finds every list of types that is in order. -/
theorem resolveLoop_of_sublist
    (hstart : nextStart last = start)
    (hreserved : ∀ t ∈ types, reserved t = false) (h : types.Sublist ((outer.drop start).map Prod.fst)) :
    ∃ found, resolveLoop outer last positions types = .ok (positions ++ found) ∧
      (found.filterMap fun pos => outer[pos]?).map Prod.fst = types := by
  induction types generalizing start last positions with
  | nil => exact ⟨[],by simp [resolveLoop],rfl⟩
  | cons t types ih =>
    obtain ⟨i,e,hfind,hget,he,hrest⟩ := findIdx?_of_sublist h
    rw [getElem?_drop] at hget
    rw [drop_drop] at hrest
    obtain ⟨found,hloop,htypes⟩ := @ih (start + i + 1) (some (start + i)) (positions ++ [start + i]) rfl
      (fun u hu => hreserved u (by simp [hu])) (by exact hrest)
    refine ⟨(start + i) :: found,?_,?_⟩
    · rw [resolveLoop,hstart,positionFrom,hfind]
      simp only [map_some,hreserved t (by simp),Bool.false_eq_true,if_false]
      rw [hloop,append_assoc]
      rfl
    · rw [filterMap_cons_some hget,map_cons,he,htypes]

theorem types_of_resolveLoop
    {resolved : List Nat} (h : resolveLoop outer last positions types = .ok resolved) :
    ∃ found, resolved = positions ++ found ∧ (found.filterMap fun pos => outer[pos]?).map Prod.fst = types := by
  induction types generalizing last positions with
  | nil =>
    cases h
    exact ⟨[],by simp,rfl⟩
  | cons t types ih =>
    rw [resolveLoop] at h
    generalize nextStart last = start at h
    cases hpos : positionFrom outer t start with
    | none => simp [hpos] at h
    | some pos =>
      simp only [hpos] at h
      split_ifs at h
      obtain ⟨found,rfl,htypes⟩ := ih h
      rw [positionFrom,map_eq_some_iff] at hpos
      obtain ⟨i,hfind,rfl⟩ := hpos
      obtain ⟨hi,hmatch,-⟩ := findIdx?_eq_some_iff_getElem.mp hfind
      have hget : outer[start + i]? = some (outer.drop start)[i] := by
        rw [← getElem?_drop,getElem?_eq_getElem hi]
      refine ⟨(start + i) :: found,by simp,?_⟩
      rw [filterMap_cons_some hget,map_cons,htypes,of_decide_eq_true hmatch]

theorem expand_eq_ok {block : List RawExtension} (h : expand outer body = .ok block) :
    ∃ types, decodeOuterExtensions body = .ok types ∧ (∀ t ∈ types, reserved t = false) ∧ block.map Prod.fst = types := by
  rw [expand,bind_eq_ok] at h
  obtain ⟨types,hdecode,h⟩ := h
  obtain ⟨_,hvalid,h⟩ := bind_eq_ok.mp h
  obtain ⟨positions,hresolve,h⟩ := bind_eq_ok.mp h
  obtain ⟨found,rfl,htypes⟩ := types_of_resolveLoop hresolve
  cases h
  exact ⟨types,hdecode,(validateShareTypes_iff.mp hvalid).1,by simpa using htypes⟩

theorem expand_encode (hne : types ≠ []) (hlen : types.length ≤ 127) (hvalid : validateShareTypes types = .ok ())
    (hsub : types.Sublist (outer.map Prod.fst)) :
    ∃ block, expand outer (encodeOuterExtensions types) = .ok block ∧ block.map Prod.fst = types ∧ ∀ e ∈ block, e ∈ outer := by
  obtain ⟨found,hresolve,htypes⟩ := @resolveLoop_of_sublist types outer 0 none [] rfl
    (validateShareTypes_iff.mp hvalid).1 hsub
  refine ⟨found.filterMap fun pos => outer[pos]?,?_,htypes,?_⟩
  · rw [expand,(decode_encode_iff hne).mpr ⟨hlen,rfl⟩]
    change (validateShareTypes types >>= fun _ => _) = _
    rw [hvalid]
    rw [resolveOuterPositions,hresolve]
    rfl
  · intro e he
    obtain ⟨pos,-,hget⟩ := mem_filterMap.mp he
    exact mem_of_getElem? hget

def Expanded (l : List RawExtension) : Prop := ∀ e ∈ l, e.1 ≠ echOuterExtensions

theorem decompressLoop_expanded {rest out : List RawExtension} (h : Expanded l) :
    decompressLoop outer seen out (l ++ rest) = decompressLoop outer seen (out ++ l) rest := by
  induction l generalizing out with
  | nil => simp
  | cons e l ih =>
    rw [cons_append,decompressLoop,if_pos (h e (by simp)),ih fun x hx => h x (by simp [hx])]
    simp

/-- A result has no placeholder, and every placeholder of the input could be read. -/
theorem decompressLoop_eq_ok {out result : List RawExtension} (h : decompressLoop outer seen out l = .ok result) :
    (Expanded out → Expanded result) ∧ ∀ body, (echOuterExtensions, body) ∈ l → ∃ types, decodeOuterExtensions body = .ok types := by
  induction l generalizing seen out with
  | nil =>
    cases h
    exact ⟨id,by simp⟩
  | cons e l ih =>
    obtain ⟨ty,body⟩ := e
    rw [decompressLoop] at h
    by_cases hty : ty = echOuterExtensions
    · rw [if_neg (not_not.mpr hty)] at h
      split_ifs at h
      obtain ⟨block,hexpand,h⟩ := bind_eq_ok.mp h
      obtain ⟨types,hdecode,hreserved,htypes⟩ := expand_eq_ok hexpand
      obtain ⟨hexp,hread⟩ := ih h
      constructor
      · refine fun hout => hexp (List.forall_mem_append.mpr ⟨hout,fun x hx hplaceholder => ?_⟩)
        have hfree := hreserved x.1 (htypes ▸ List.mem_map_of_mem hx)
        simp [reserved,hplaceholder] at hfree
      · intro body' hbody
        rcases List.mem_cons.mp hbody with heq | hbody
        · rw [(Prod.mk.inj heq).2]
          exact ⟨types,hdecode⟩
        · exact hread body' hbody
    · rw [if_pos hty] at h
      obtain ⟨hexp,hread⟩ := ih h
      constructor
      · exact fun hout => hexp (List.forall_mem_append.mpr ⟨hout,List.forall_mem_singleton.mpr hty⟩)
      · intro body' hbody
        rcases List.mem_cons.mp hbody with heq | hbody
        · exact absurd (Prod.mk.inj heq).1.symm hty
        · exact hread body' hbody

def SameBodies (share : List ExtensionType) (inner outer : List RawExtension) : Prop :=
  ∀ t ∈ share, ∀ body body', (t, body) ∈ inner → (t, body') ∈ outer → body = body'

theorem eq_of_types_eq {l' : List RawExtension} (htypes : l.map Prod.fst = l'.map Prod.fst)
    (hbodies : ∀ t body body', (t, body) ∈ l → (t, body') ∈ l' → body = body') : l = l' := by
  induction l generalizing l' with
  | nil => exact (map_eq_nil_iff.mp htypes.symm).symm
  | cons e l ih =>
    cases l' with
    | nil => cases htypes
    | cons e' l' =>
      rw [map_cons,map_cons,List.cons.injEq] at htypes
      obtain ⟨t,body⟩ := e
      obtain ⟨t',body'⟩ := e'
      obtain rfl : t = t' := htypes.1
      rw [hbodies t body body' (by simp) (by simp),ih htypes.2 fun u b b' hb hb' => hbodies u b b' (by simp [hb]) (by simp [hb'])]

theorem compressExtensions_eq_ok {inner c : List RawExtension} (hne : share ≠ []) :
    compressExtensions inner outer share = .ok c ↔ validateShareTypes share = .ok () ∧ share <:+: outer.map Prod.fst ∧
        ∃ start, findSubsequence inner share = some start ∧ c = inner.take start ++
            (echOuterExtensions, encodeOuterExtensions share) :: inner.drop (start + share.length) := by
  rw [compressExtensions,if_neg (by simpa using hne),bind_eq_ok,← findSubsequence_isSome_iff hne]
  constructor
  · rintro ⟨_,hvalid,h⟩
    cases hfind : findSubsequence inner share with
    | none => simp [hfind] at h
    | some start =>
      simp only [hfind] at h
      split_ifs at h with houter
      cases h
      exact ⟨hvalid,by simpa [isSome_iff_ne_none] using houter,start,rfl,rfl⟩
  · rintro ⟨hvalid,houter,start,hfind,rfl⟩
    refine ⟨(),hvalid,?_⟩
    simp only [hfind]
    rw [if_neg (by simpa [isSome_iff_ne_none] using houter)]

/-- A compressed list is expanded to the original exactly if the original had no placeholder and the
length byte holds the number of types. -/
theorem decompress_compress_iff {inner c : List RawExtension}
    (hcompress : compressExtensions inner outer share = .ok c) (hbodies : SameBodies share inner outer) :
    decompressExtensions c outer = .ok inner ↔ Expanded inner ∧ share.length ≤ 127 := by
  have hexpanded : decompressExtensions c outer = .ok inner → Expanded inner :=
    fun h => (decompressLoop_eq_ok h).1 (by simp [Expanded])
  by_cases hne : share = []
  · subst hne
    have hc : inner = c := by
      exact Except.ok.inj hcompress
    subst hc
    refine ⟨fun h => ⟨hexpanded h,by simp⟩,?_⟩
    rintro ⟨hexp,-⟩
    have hloop := @decompressLoop_expanded inner outer false [] [] hexp
    rw [append_nil] at hloop
    exact hloop
  · obtain ⟨hvalid, hinfix,start,hfind,rfl⟩ := (compressExtensions_eq_ok hne).mp hcompress
    constructor
    · intro h
      refine ⟨hexpanded h,?_⟩
      obtain ⟨types,hdecode⟩ := (decompressLoop_eq_ok h).2 _ (mem_append_right _ mem_cons_self)
      exact ((decode_encode_iff hne).mp hdecode).1
    · rintro ⟨hexp,hlen⟩
      obtain ⟨pre,block,post,rfl,rfl,rfl⟩ := blockAt_of_findSubsequence hfind
      obtain ⟨block',hexpand,htypes,hmem⟩ := expand_encode hne hlen hvalid hinfix.sublist
      have hblock : block' = block := by
        apply eq_of_types_eq htypes
        intro t body body' hb' hb
        exact (hbodies t (List.mem_map.mpr ⟨_,hb,rfl⟩) body' body (by simp [hb]) (hmem _ hb')).symm
      rw [take_left,length_map,← drop_drop,drop_left,drop_left,decompressExtensions,
        decompressLoop_expanded fun e he => hexp e (by simp [he]),decompressLoop]
      rw [hexpand,hblock]
      have hloop := @decompressLoop_expanded post outer true [] ([] ++ pre ++ block) fun e he => hexp e (by simp [he])
      rw [append_nil] at hloop
      refine hloop.trans ?_
      simp [decompressLoop]

/-- A stretch of increasing positions. -/
def Run (pos : List (Option Nat)) (start len : Nat) : Prop :=
  ∃ (pre : List (Option Nat)) (run : List Nat) (post : List (Option Nat)),
    pos = pre ++ (run.map some ++ post) ∧ pre.length = start ∧ run.length = len ∧ run.IsChain (· < ·)

theorem Run.single (h : ¬pos[k]?.join.isNone = true) : Run pos k 1 := by
  cases hget : pos[k]? with
  | none => simp [hget] at h
  | some entry =>
    cases entry with
    | none => simp [hget] at h
    | some p =>
      obtain ⟨hk,hp⟩ := List.getElem?_eq_some_iff.mp hget
      refine ⟨pos.take k,[p],pos.drop (k + 1),?_,by simp; omega,rfl,by simp⟩
      rw [map_singleton,singleton_append,← hp,getElem_cons_drop,take_append_drop]

theorem Run.snoc {len : Nat} (h : Run pos start (len + 1))
    (hfollows : follows pos (start + len + 1) = true) : Run pos start (len + 2) := by
  obtain ⟨pre,run,post,rfl,rfl,hlen,hchain⟩ := h
  obtain ⟨run,p,rfl⟩ := (eq_nil_or_concat run).resolve_left (by intro hnil; simp [hnil] at hlen)
  obtain rfl : run.length = len := by simpa using hlen
  have hlast : (pre ++ ((run ++ [p]).map some ++ post))[pre.length + run.length]? = some (some p) := by
    simp
  have hnext : (pre ++ ((run ++ [p]).map some ++ post))[pre.length + run.length + 1]? = post.head? := by
    rw [add_assoc,getElem?_append_right (by omega),getElem?_append_right (by simp)]
    simp [head?_eq_getElem?]
  rw [follows,Nat.add_sub_cancel,concat_eq_append,hnext] at hfollows
  cases post with
  | nil => simp at hfollows
  | cons next post =>
    cases next with
    | none => simp at hfollows
    | some q =>
      have hlt : p < q := by simpa using hfollows
      refine ⟨pre,run ++ [p, q],post,by simp,rfl,by simp,?_⟩
      rw [concat_eq_append,isChain_append] at hchain
      rw [isChain_append]
      exact ⟨hchain.1,by simpa using hlt,by simpa using hchain.2.2⟩

theorem Run.runEnd (hlt : start < k) (h : Run pos start (k - start)) : Run pos start (runEnd pos k - start) := by
  fun_induction Ech.runEnd pos k with
  | case1 k hk ih =>
    apply ih (by omega)
    obtain ⟨len,rfl⟩ : ∃ len, k = start + len + 1 := ⟨k - start - 1,by omega⟩
    rw [show start + len + 1 - start = len + 1 by omega] at h
    rw [show start + len + 1 + 1 - start = len + 2 by omega]
    exact h.snoc hk.2
  | case2 k hk => exact h

theorem Run.blockLoop {bestStart bestLen : Nat} (h : Run pos bestStart bestLen) :
    Run pos (blockLoop pos k bestStart bestLen).1 (blockLoop pos k bestStart bestLen).2 := by
  fun_induction Ech.blockLoop pos k bestStart bestLen with
  | case1 k bestStart bestLen hk hnone ih => exact ih h
  | case2 k bestStart bestLen hk hsome hlonger ih =>
    apply ih
    apply Run.runEnd (lt_succ_self k)
    rw [succ_sub (le_refl k),Nat.sub_self]
    exact Run.single hsome
  | case3 k bestStart bestLen hk hsome hshorter ih => exact ih h
  | case4 k bestStart bestLen hk => exact h

theorem matchPosition_eq_some {e : RawExtension} {p : Nat}
    (h : matchPosition outer e = some p) : reserved e.1 = false ∧ outer[p]? = some e := by
  rw [matchPosition] at h
  split_ifs at h with hreserved
  obtain ⟨hp,hmatch,-⟩ := findIdx?_eq_some_iff_getElem.mp h
  have heq := of_decide_eq_true hmatch
  refine ⟨by simpa using hreserved,?_⟩
  rw [getElem?_eq_getElem hp,Prod.ext heq.1 heq.2]

theorem sublist_of_positions {block : List RawExtension} {run : List Nat} {lo : Nat}
    (hblock : block.map (matchPosition outer) = run.map some) (hchain : run.IsChain (· < ·))
    (hlo : ∀ p ∈ run.head?, lo ≤ p) : block.Sublist (outer.drop lo) := by
  induction block generalizing run lo with
  | nil => exact nil_sublist _
  | cons e block ih =>
    cases run with
    | nil => cases hblock
    | cons p run =>
      rw [map_cons,map_cons,List.cons.injEq] at hblock
      obtain ⟨hp,hget⟩ := List.getElem?_eq_some_iff.mp (matchPosition_eq_some hblock.1).2
      have hle : lo ≤ p := hlo p rfl
      have hrest : block.Sublist (outer.drop (p + 1)) := by
        apply ih hblock.2 hchain.tail
        intro q hq
        cases run with
        | nil => cases hq
        | cons r run =>
          obtain rfl : r = q := by simpa using hq
          exact (isChain_cons_cons.mp hchain).1
      have hdrop : outer.drop p = e :: outer.drop (p + 1) := by
        rw [← hget,getElem_cons_drop]
      have hsuffix : (outer.drop p).Sublist (outer.drop lo) := drop_sublist_drop_left outer hle
      rw [hdrop] at hsuffix
      exact (hrest.cons_cons e).trans hsuffix

theorem longestSharedBlock_spec (inner outer : List RawExtension) :
    ∃ pre block post, inner = pre ++ (block ++ post) ∧ longestSharedBlock inner outer = block.map Prod.fst ∧
      block.Sublist outer ∧ ∀ e ∈ block, reserved e.1 = false := by
  have hzero : Run (inner.map (matchPosition outer)) 0 0 := ⟨[],[],_,rfl,rfl,rfl,by simp⟩
  obtain ⟨pre',run,post',hpos,hstart,hlen,hchain⟩ := hzero.blockLoop (k := 0)
  rw [longestSharedBlock]
  generalize blockLoop (inner.map (matchPosition outer)) 0 0 0 = best at hstart hlen
  obtain ⟨pre,rest,rfl,hpre,hrest⟩ := map_eq_append_iff.mp hpos
  obtain ⟨block,post,rfl,hblock,hpost⟩ := map_eq_append_iff.mp hrest
  have hprelen : pre.length = best.1 := by rw [← hstart,← hpre,length_map]
  have hblocklen : block.length = best.2 := by
    have := congrArg List.length hblock
    simpa [hlen] using this
  refine ⟨pre,block,post,rfl,?_,?_,?_⟩
  · split_ifs with hempty
    · rw [eq_nil_of_length_eq_zero (hblocklen.trans hempty),map_nil]
    · rw [← hprelen,← hblocklen,drop_left,take_left]
  · have hsub := sublist_of_positions hblock hchain (fun p _ => zero_le p)
    exact hsub
  · intro e he
    have hmem : matchPosition outer e ∈ run.map some := hblock ▸ List.mem_map_of_mem he
    obtain ⟨p,-,hp⟩ := List.mem_map.mp hmem
    exact (matchPosition_eq_some hp.symm).1

def Distinct (l : List RawExtension) : Prop := (l.map Prod.fst).Nodup
instance (l : List RawExtension) : Decidable (Distinct l) := inferInstanceAs (Decidable (List.Nodup _))
theorem Distinct.body_unique (h : Distinct l) {body' : List UInt8}
    (hb : (t, body) ∈ l) (hb' : (t, body') ∈ l) : body = body' :=
  (Prod.mk.inj (inj_on_of_nodup_map h hb hb' rfl)).2

theorem compress_longestSharedBlock_iff {inner : List RawExtension} (hinner : Distinct inner)
    (houter : Distinct outer) (hlen : (longestSharedBlock inner outer).length ≤ 127) :
    (∃ c, compressExtensions inner outer (longestSharedBlock inner outer) = .ok c ∧
        decompressExtensions c outer = .ok inner) ↔
      Expanded inner ∧ longestSharedBlock inner outer <:+: outer.map Prod.fst := by
  obtain ⟨pre,block,post,hin,hshare,hsub,hreserved⟩ := longestSharedBlock_spec inner outer
  have hbodies : SameBodies (longestSharedBlock inner outer) inner outer := by
    intro t ht body body' hb hb'
    rw [hshare] at ht
    obtain ⟨e,he,rfl⟩ := List.mem_map.mp ht
    have hbody : e.2 = body := hinner.body_unique (by rw [hin]; simp [he]) hb
    exact hbody ▸ houter.body_unique (hsub.subset he) hb'
  constructor
  · rintro ⟨c,hcompress,hdecompress⟩
    refine ⟨((decompress_compress_iff hcompress hbodies).mp hdecompress).1,?_⟩
    by_cases hne : longestSharedBlock inner outer = []
    · rw [hne]
      exact nil_infix
    · exact ((compressExtensions_eq_ok hne).mp hcompress).2.1
  · rintro ⟨hexp, hinfix⟩
    suffices hok : ∃ c, compressExtensions inner outer (longestSharedBlock inner outer) = .ok c by
      obtain ⟨c,hcompress⟩ := hok
      exact ⟨c,hcompress,(decompress_compress_iff hcompress hbodies).mpr ⟨hexp,hlen⟩⟩
    by_cases hne : longestSharedBlock inner outer = []
    · exact ⟨inner,by rw [hne]; rfl⟩
    · have hfound : (findSubsequence inner (longestSharedBlock inner outer)).isSome = true := by
        rw [findSubsequence_isSome_iff hne,hshare]
        exact ⟨pre.map Prod.fst,post.map Prod.fst,by rw [hin]; simp⟩
      obtain ⟨start,hstart⟩ := isSome_iff_exists.mp hfound
      have hvalid : validateShareTypes (longestSharedBlock inner outer) = .ok () := by
        rw [validateShareTypes_iff]
        constructor
        · intro t ht
          rw [hshare] at ht
          obtain ⟨e,he,rfl⟩ := List.mem_map.mp ht
          exact hreserved e he
        · exact List.Nodup.sublist hinfix.sublist houter
      exact ⟨_,(compressExtensions_eq_ok hne).mpr ⟨hvalid, hinfix,start,hstart,rfl⟩⟩

/-- Compression of the chosen block works and loses nothing exactly if the block is in one piece in the
outer list too; a compressed list with equal shared bodies is rebuilt exactly if the length byte holds the
number of types; both for an inner list without a placeholder of its own. -/
theorem compression_lossless_iff (inner outer : List RawExtension) (hinner : Distinct inner) (houter : Distinct outer) :
    ((longestSharedBlock inner outer).length ≤ 127 →
      ((∃ c, compressExtensions inner outer (longestSharedBlock inner outer) = .ok c ∧
          decompressExtensions c outer = .ok inner) ↔
        Expanded inner ∧ longestSharedBlock inner outer <:+: outer.map Prod.fst)) ∧
      ∀ share c, compressExtensions inner outer share = .ok c → SameBodies share inner outer →
        (decompressExtensions c outer = .ok inner ↔ Expanded inner ∧ share.length ≤ 127) :=
  ⟨compress_longestSharedBlock_iff hinner houter,fun _ _ => decompress_compress_iff⟩

private def serverName : RawExtension := (⟨0⟩, [1])
private def groups : RawExtension := (⟨10⟩, [0, 29])
private def keyShare : RawExtension := (⟨51⟩, [171, 205])

/-- Two extensions shared in one piece. -/
theorem compression_of_two : ∃ c, compressExtensions [groups, keyShare] [serverName, groups, keyShare]
        (longestSharedBlock [groups, keyShare] [serverName, groups, keyShare]) = .ok c ∧
      decompressExtensions c [serverName, groups, keyShare] = .ok [groups, keyShare] :=
  ((compression_lossless_iff [groups, keyShare] [serverName, groups, keyShare] (by decide) (by decide)).1
    (by decide +kernel)).mpr ⟨by simp [Expanded,groups,keyShare,echOuterExtensions],⟨[⟨0⟩],[],by decide +kernel⟩⟩

private theorem distinct_range : Distinct ((List.range 128).map fun i => (⟨UInt16.ofNat i⟩, [])) := by
  rw [Distinct,List.map_map]
  refine nodup_range.map_on fun i hi j hj h => ?_
  have hcode : (UInt16.ofNat i).toNat = (UInt16.ofNat j).toNat := congrArg (·.code.toNat) h
  simp only [List.mem_range,UInt16.toNat_ofNat'] at hi hj hcode
  omega

/-- With another extension between the two in the outer list, the chosen block is refused, and a block of
128 types, which is accepted, is not read back. -/
theorem chosen_block_refused : (Distinct [groups, keyShare] ∧ Distinct [groups, serverName, keyShare] ∧
      longestSharedBlock [groups, keyShare] [groups, serverName, keyShare] = [⟨10⟩, ⟨51⟩] ∧
      compressExtensions [groups, keyShare] [groups, serverName, keyShare] [⟨10⟩, ⟨51⟩] = .error .echDecodeError) ∧
    ∃ many : List RawExtension, Distinct many ∧
      ∃ c, compressExtensions many many (many.map Prod.fst) = .ok c ∧ decompressExtensions c many = .error .echDecodeError := by
  refine ⟨by decide +kernel,(List.range 128).map fun i => (⟨UInt16.ofNat i⟩, []),distinct_range,
    [(echOuterExtensions, encodeOuterExtensions ((List.range 128).map fun i => ⟨UInt16.ofNat i⟩))],?_,?_⟩
  · have hvalid := validateShareTypes_iff.mpr ⟨by decide +kernel,distinct_range⟩
    exact (compressExtensions_eq_ok (by decide +kernel)).mpr
      ⟨hvalid,infix_rfl,0,by decide +kernel,by decide +kernel⟩
  · decide +kernel
end PureCrypto.Tls.Ech
