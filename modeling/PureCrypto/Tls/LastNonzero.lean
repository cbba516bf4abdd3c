import PureCrypto.Tls.RecordCrypter

/-! # The masked search finds the last nonzero byte -/
namespace PureCrypto.Tls
open LittleEndian List Nat
open BitVec (toNat_inj toNat_ofNat)
/-- The index and value of the last nonzero byte. -/
def lastNonzero? : List UInt8 → Option (Nat × UInt8)
  | [] => none
  | b :: bs =>
    match lastNonzero? bs with
    | some (i, c) => some (i + 1, c)
    | none => if b = 0 then none else some (0, b)

theorem lastNonzero?_eq_none_iff (l : List UInt8) : lastNonzero? l = none ↔ ∀ b ∈ l, b = 0 := by
  induction l with
  | nil => simp [lastNonzero?]
  | cons b bs ih =>
    rw [lastNonzero?,forall_mem_cons,← ih]
    cases lastNonzero? bs with
    | some e => simp
    | none => simp

theorem lastNonzero?_append (p q : List UInt8) :
    lastNonzero? (p ++ q) = match lastNonzero? q with
      | some (i, c) => some (p.length + i, c)
      | none => lastNonzero? p := by
  induction p with
  | nil => cases h : lastNonzero? q <;> simp [h, lastNonzero?]
  | cons b bs ih =>
    rw [cons_append, lastNonzero?,ih]
    cases h : lastNonzero? q with
    | none => simp [lastNonzero?]
    | some e =>
      simp only [length_cons,Option.some.injEq,Prod.mk.injEq,and_true]
      omega
variable {p : List UInt8} {e : Nat × UInt8} {s : Candidate} {k : Nat}
theorem lastNonzero?_append_some {q : List UInt8} (h : lastNonzero? q = some e) :
    lastNonzero? (p ++ q) = some (p.length + e.1, e.2) := by
  rw [lastNonzero?_append,h]

theorem lastNonzero?_append_none {q : List UInt8} (h : lastNonzero? q = none) :
    lastNonzero? (p ++ q) = lastNonzero? p := by
  rw [lastNonzero?_append,h]

theorem lastNonzero?_concat (p : List UInt8) {b : UInt8} (hb : b ≠ 0) :
    lastNonzero? (p ++ [b]) = some (p.length, b) := by
  have hone : lastNonzero? [b] = some (0, b) := by simp [lastNonzero?,hb]
  rw [lastNonzero?_append_some hone,add_zero]

theorem lt_of_lastNonzero? {l : List UInt8} (h : lastNonzero? l = some e) : e.1 < l.length := by
  induction l generalizing e with
  | nil => cases h
  | cons b bs ih =>
    rw [lastNonzero?] at h
    cases hbs : lastNonzero? bs with
    | some e' =>
      have hlt := ih hbs
      rw [hbs] at h
      cases h
      simp only [length_cons]
      omega
    | none =>
      rw [hbs] at h
      split_ifs at h
      cases h
      exact zero_lt_succ _
section Word
variable {l : List UInt8}
section
variable (hl : l.length ≤ 8)
include hl
theorem toNat_fromLeBytes : (fromLeBytes l).toNat = leNat l := by
  have hlt := leNat_lt l
  have hpow : 256 ^ l.length ≤ 256 ^ 8 := Nat.pow_le_pow_right (by omega) hl
  rw [fromLeBytes,toNat_ofNat,mod_eq_of_lt]
  exact lt_of_lt_of_le hlt hpow

theorem fromLeBytes_eq_zero_iff : fromLeBytes l = 0#64 ↔ lastNonzero? l = none := by
  rw [← toNat_inj,toNat_fromLeBytes hl,lastNonzero?_eq_none_iff,← leNat_eq_zero_iff]
  rfl

theorem fromLeBytes_shift (h : Nat) : fromLeBytes l >>> (8 * h) = fromLeBytes (l.drop h) := by
  have hdrop : (l.drop h).length ≤ 8 := by
    rw [length_drop]
    omega
  rw [← toNat_inj,BitVec.toNat_ushiftRight,toNat_fromLeBytes hl,toNat_fromLeBytes hdrop,shiftRight_eq_div_pow,pow_mul]
  exact leNat_div l h

theorem fromLeBytes_low {h : Nat} (hh : h < 8) :
    fromLeBytes l &&& ((1#64 <<< (8 * h)) - 1#64) = fromLeBytes (l.take h) := by
  have htake : (l.take h).length ≤ 8 := by
    rw [length_take]
    omega
  have hpow : 2 ^ (8 * h) = 256 ^ h := by rw [Nat.pow_mul]
  have hlt : 256 ^ h < 2 ^ 64 := by
    have hle : 256 ^ h ≤ 256 ^ 7 := Nat.pow_le_pow_right (by omega) (by omega)
    omega
  have hpos : 0 < 256 ^ h := Nat.pow_pos (by omega)
  have hmask : ((1#64 <<< (8 * h)) - 1#64).toNat = 2 ^ (8 * h) - 1 := by
    simp
    omega
  rw [← toNat_inj,BitVec.toNat_and,toNat_fromLeBytes hl,toNat_fromLeBytes htake,hmask,and_two_pow_sub_one_eq_mod,hpow]
  exact leNat_mod l h
end
def flag (b : UInt8) : UInt8 := if b = 0 then 0 else 0x80

theorem flag_eq (b : UInt8) : (((b &&& 0x7f) + 0x7f) ||| b) &&& 0x80 = flag b := by
  obtain ⟨⟨b⟩⟩ := b
  revert b
  decide +kernel

theorem low7_eq : low7 = fromLeBytes (List.replicate 8 0x7f) := by decide
theorem high_eq : high = fromLeBytes (List.replicate 8 0x80) := by decide

theorem zipWith_replicate (f : UInt8 → UInt8 → UInt8) (l : List UInt8) (c : UInt8) :
    List.zipWith f l (List.replicate l.length c) = l.map (f · c) := by
  induction l with
  | nil => rfl
  | cons b bs ih => rw [length_cons,replicate_succ,zipWith_cons_cons,ih,map_cons]

theorem fromLeBytes_and (hl : l.length = 8) (c : UInt8) :
    fromLeBytes l &&& fromLeBytes (List.replicate 8 c) = fromLeBytes (l.map (· &&& c)) := by
  rw [← toNat_inj,BitVec.toNat_and,toNat_fromLeBytes hl.le,toNat_fromLeBytes (by simp),
    toNat_fromLeBytes (by simp [hl]),leNat_and (by simp [hl]),← hl,zipWith_replicate]

theorem fromLeBytes_add (hl : l.length = 8) (c : UInt8) (hc : ∀ b ∈ l, b.toNat + c.toNat < 256) :
    fromLeBytes l + fromLeBytes (List.replicate 8 c) = fromLeBytes (l.map (· + c)) := by
  have hlt := leNat_lt (l.map (· + c))
  rw [length_map,hl] at hlt
  rw [← toNat_inj,BitVec.toNat_add,toNat_fromLeBytes hl.le,toNat_fromLeBytes (by simp),
    toNat_fromLeBytes (by simp [hl])]
  rw [← hl,leNat_add_const l c hc]
  exact mod_eq_of_lt hlt

theorem fromLeBytes_or {l l' : List UInt8} (hl : l.length = 8) (hl' : l'.length = 8) :
    fromLeBytes l ||| fromLeBytes l' = fromLeBytes (List.zipWith (· ||| ·) l l') := by
  rw [← toNat_inj,BitVec.toNat_or,toNat_fromLeBytes hl.le,toNat_fromLeBytes hl'.le,
    toNat_fromLeBytes (by simp [hl,hl']),leNat_or (by rw [hl,hl'])]

/-- The additions of `byteFlags` never carry, so it works byte by byte. -/
theorem byteFlags_fromLeBytes (hl : l.length = 8) : byteFlags (fromLeBytes l) = fromLeBytes (l.map flag) := by
  have hcarry : ∀ b ∈ l.map (· &&& 0x7f), b.toNat + (0x7f : UInt8).toNat < 256 := by
    intro b hb
    obtain ⟨a,-,rfl⟩ := List.mem_map.mp hb
    have hle : (a &&& 0x7f).toNat ≤ (0x7f : UInt8).toNat := by
      exact and_le_right
    have hval : (0x7f : UInt8).toNat = 127 := rfl
    omega
  have hbytes : ∀ l : List UInt8, (List.zipWith (· ||| ·) ((l.map (· &&& 0x7f)).map
      (· + 0x7f)) l).map (· &&& 0x80) = l.map flag := by
    intro l
    induction l with
    | nil => rfl
    | cons b bs ih =>
      simp only [map_cons,zipWith_cons_cons] at ih ⊢
      rw [ih,flag_eq]
  unfold byteFlags
  rw [low7_eq,high_eq,fromLeBytes_and hl,fromLeBytes_add (by simp [hl]) _ hcarry,
    fromLeBytes_or (by simp [hl]) hl,fromLeBytes_and (by simp [hl]),hbytes]

theorem lastNonzero?_flag (l : List UInt8) : lastNonzero? (l.map flag) = none ↔ lastNonzero? l = none := by
  rw [lastNonzero?_eq_none_iff,lastNonzero?_eq_none_iff,List.forall_mem_map]
  refine forall₂_congr fun b _ => ?_
  unfold flag
  split_ifs with hb
  · simp [hb]
  · simp [hb]
end Word
/-- `s` has narrowed the bytes `l₀` to `l`. -/
structure Narrowed.To (s : Narrowed) (l₀ l : List UInt8) : Prop where
  v_eq : s.v = fromLeBytes l
  f_eq : s.f = fromLeBytes (l.map flag)
  last_eq : lastNonzero? l₀ = (lastNonzero? l).map fun e => (s.pos + e.1, e.2)
variable {l p : List UInt8}
theorem Narrowed.To.step {s : Narrowed} {l₀ : List UInt8} (h : s.To l₀ l) {n shift : Nat}
    (hl : l.length = 2 * n) (hn : n ≤ 4) (hs : shift = 8 * n) : ∃ l', l'.length = n ∧ (s.step shift).To l₀ l' := by
  subst hs
  have hlen : l.length ≤ 8 := by omega
  have hflags : (l.map flag).length ≤ 8 := by simpa using hlen
  have hup : Ct.nonzero (s.f >>> (8 * n)) = decide (lastNonzero? (l.drop n) ≠ none) := by
    have hdrop : ((l.map flag).drop n).length ≤ 8 := by
      rw [length_drop]
      omega
    rw [h.f_eq,fromLeBytes_shift hflags,Ct.nonzero_eq]
    refine decide_eq_decide.mpr (not_congr ?_)
    rw [fromLeBytes_eq_zero_iff hdrop,← map_drop,lastNonzero?_flag]
  have hparts : l.take n ++ l.drop n = l := take_append_drop n l
  have hshift : 8 * n / 8 = n := by omega
  unfold Narrowed.step
  simp only [hup,Ct.conditionalSelect_eq,hshift]
  cases hlast : lastNonzero? (l.drop n) with
  | some e =>
    refine ⟨l.drop n,by rw [length_drop]; omega,?_,?_,?_⟩
    · simp [h.v_eq,fromLeBytes_shift hlen]
    · simp [h.f_eq,fromLeBytes_shift hflags,map_drop]
    · have hwhole := lastNonzero?_append_some (p := l.take n) hlast
      rw [hparts,length_take,Nat.min_eq_left (by omega)] at hwhole
      rw [h.last_eq,hwhole,hlast]
      simp [add_assoc]
  | none =>
    refine ⟨l.take n,by rw [length_take]; omega,?_,?_,?_⟩
    · simp [h.v_eq,fromLeBytes_low hlen (show n < 8 by omega)]
    · simp [h.f_eq,fromLeBytes_low hflags (show n < 8 by omega),map_take]
    · have hwhole := lastNonzero?_append_none (p := l.take n) hlast
      rw [hparts] at hwhole
      rw [h.last_eq,hwhole]
      simp

theorem narrow_word (hl : l.length = 8) (he : lastNonzero? l = some e) {s : Narrowed}
    (hs : s = [32, 16, 8].foldl Narrowed.step ⟨fromLeBytes l, byteFlags (fromLeBytes l), 0⟩) :
    s.v.setWidth 8 = e.2.toBitVec ∧ s.pos = e.1 := by
  have hstart : Narrowed.To ⟨fromLeBytes l,byteFlags (fromLeBytes l),0⟩ l l :=
    ⟨rfl,byteFlags_fromLeBytes hl,by cases lastNonzero? l <;> simp⟩
  obtain ⟨l₁,hl₁,h₁⟩ := hstart.step (by omega : l.length = 2 * 4) (by omega) rfl
  obtain ⟨l₂,hl₂,h₂⟩ := h₁.step (by omega : l₁.length = 2 * 2) (by omega) rfl
  obtain ⟨l₃,hl₃,h₃⟩ := h₂.step (by omega : l₂.length = 2 * 1) (by omega) rfl
  rw [foldl_cons,foldl_cons,foldl_cons,foldl_nil] at hs
  rw [← hs] at h₃
  obtain ⟨b,rfl⟩ := length_eq_one_iff.mp hl₃
  have hlast := h₃.last_eq
  have hb : b ≠ 0 := by
    intro hb
    rw [he,hb] at hlast
    simp [lastNonzero?] at hlast
  rw [he] at hlast
  simp only [lastNonzero?,if_neg hb,Option.map_some,Option.some.injEq,add_zero] at hlast
  rw [hlast]
  refine ⟨?_,rfl⟩
  have hlt := b.toNat_lt
  rw [h₃.v_eq,← toNat_inj,BitVec.toNat_setWidth,toNat_fromLeBytes (by simp),leNat_cons,
    leNat_nil,Nat.add_zero,mod_eq_of_lt hlt]
  rfl

/-- `s` has the last word of `p` that is not zero, if there is one. -/
def WordScan.Tracks (s : WordScan) (p : List UInt8) : Prop :=
  ∀ e, lastNonzero? p = some e → ∃ l e', l.length = 8 ∧ s.lastW = fromLeBytes l ∧
    s.lastF = byteFlags (fromLeBytes l) ∧ lastNonzero? l = some e' ∧
    e = (s.lastWi.toNat * 8 + e'.1, e'.2)

theorem nonzero_byteFlags (hl : l.length = 8) :
    Ct.nonzero (byteFlags (fromLeBytes l)) = decide (lastNonzero? l ≠ none) := by
  rw [byteFlags_fromLeBytes hl,Ct.nonzero_eq]
  refine decide_eq_decide.mpr (not_congr ?_)
  rw [fromLeBytes_eq_zero_iff (by simp [hl]),lastNonzero?_flag]

theorem WordScan.Tracks.step {s : WordScan} (h : s.Tracks p) (hl : l.length = 8)
    (hp : p.length = k * 8) (hk : k < 2 ^ 64) : (s.step k (fromLeBytes l)).Tracks (p ++ l) := by
  intro e he
  unfold WordScan.step
  simp only [nonzero_byteFlags hl,Ct.conditionalSelect_eq]
  cases hlast : lastNonzero? l with
  | some e' =>
    rw [lastNonzero?_append_some hlast,hp] at he
    refine ⟨l,e',hl,by simp,by simp,hlast,?_⟩
    have hidx : (BitVec.ofNat 64 k).toNat = k := by
      rw [toNat_ofNat,mod_eq_of_lt hk]
    simp only [ne_eq,reduceCtorEq,not_false_eq_true,decide_true,if_true,hidx]
    exact (Option.some.inj he).symm
  | none =>
    rw [lastNonzero?_append_none hlast] at he
    simpa using h e he

theorem scanWords_tracks {s : WordScan} (h : s.Tracks p) (cs : List (List UInt8))
    (hcs : ∀ c ∈ cs, c.length = 8) (hp : p.length = k * 8) (hk : k + cs.length < 2 ^ 64) :
    (((cs.map fromLeBytes).zipIdx k).foldl (fun s e => s.step e.2 e.1) s).Tracks
      (p ++ cs.flatten) := by
  induction cs generalizing s p k with
  | nil => simpa using h
  | cons c cs ih =>
    obtain ⟨hc,hcs⟩ := forall_mem_cons.mp hcs
    rw [length_cons] at hk
    have hnext := ih (h.step hc hp (by omega)) hcs (k := k + 1)
      (by rw [length_append]; omega) (by omega)
    simpa using hnext

def pieces (chunk : List UInt8) : List (List UInt8) :=
  (List.range words).map fun i => (chunk.drop (i * 8)).take 8
section Block
variable {chunk : List UInt8}
theorem blockWords_eq (chunk : List UInt8) : blockWords chunk = (pieces chunk).map fromLeBytes := by
  simp [blockWords,pieces]

theorem length_of_mem_pieces (hc : chunk.length = block) : ∀ c ∈ pieces chunk, c.length = 8 := by
  intro c hmem
  obtain ⟨i,hi,rfl⟩ := List.mem_map.mp hmem
  have hlt : i < words := List.mem_range.mp hi
  unfold words at hlt
  unfold block words at hc
  rw [length_take,length_drop]
  omega

theorem flatten_pieces (hc : chunk.length = block) : (pieces chunk).flatten = chunk := by
  unfold block words at hc
  have hlast : (chunk.drop 24).take 8 = chunk.drop 24 := by
    rw [take_of_length_le]
    rw [length_drop]
    omega
  have hjoin : ∀ n, (chunk.drop n).take 8 ++ chunk.drop (n + 8) = chunk.drop n := by
    intro n
    rw [← drop_drop,take_append_drop]
  have hpieces : pieces chunk = [(chunk.drop 0).take 8, (chunk.drop 8).take 8,
      (chunk.drop 16).take 8, (chunk.drop 24).take 8] := rfl
  rw [hpieces]
  simp [hlast,hjoin]

theorem foldl_or_eq_zero_iff (cs : List (List UInt8)) (hcs : ∀ c ∈ cs, c.length = 8) (a : BitVec 64) :
    (cs.map fromLeBytes).foldl (· ||| ·) a = 0#64 ↔ a = 0#64 ∧ lastNonzero? cs.flatten = none := by
  induction cs generalizing a with
  | nil => simp [lastNonzero?]
  | cons c cs ih =>
    obtain ⟨hc,hcs⟩ := forall_mem_cons.mp hcs
    rw [map_cons,foldl_cons,ih hcs,BitVec.or_eq_zero_iff,
      fromLeBytes_eq_zero_iff hc.le,flatten_cons,lastNonzero?_eq_none_iff,
      lastNonzero?_eq_none_iff,lastNonzero?_eq_none_iff,forall_mem_append]
    exact and_assoc

theorem nonzero_blockWords (hc : chunk.length = block) :
    Ct.nonzero ((blockWords chunk).foldl (· ||| ·) 0#64) = decide (lastNonzero? chunk ≠ none) := by
  rw [blockWords_eq,Ct.nonzero_eq]
  refine decide_eq_decide.mpr (not_congr ?_)
  rw [foldl_or_eq_zero_iff _ (length_of_mem_pieces hc),flatten_pieces hc]
  simp

/-- `s` has the last block of `p` that is not zero, if there is one. -/
structure BlockScan.Tracks (s : BlockScan) (p : List UInt8) : Prop where
  length_eq : s.lastB.length = words
  absent : lastNonzero? p = none → s.foundAny = false
  present : ∀ e, lastNonzero? p = some e → s.foundAny = true ∧ ∃ chunk e', chunk.length = block ∧
    s.lastB = blockWords chunk ∧ lastNonzero? chunk = some e' ∧
    e = (s.lastBi.toNat * block + e'.1, e'.2)

theorem select_words (saved w : List (BitVec 64)) (h : saved.length = w.length) (choice : Bool) :
    List.zipWith (fun saved word => saved ^^^ (Ct.mask 64 choice &&& (word ^^^ saved))) saved w =
      if choice then w else saved := by
  have hselect : (fun saved word : BitVec 64 => saved ^^^ (Ct.mask 64 choice &&& (word ^^^ saved))) =
      fun saved word => if choice then word else saved := by
    funext saved word
    exact Ct.conditionalSelect_eq word saved choice
  rw [hselect]
  induction saved generalizing w with
  | nil =>
    cases w with
    | nil => cases choice <;> rfl
    | cons _ _ => cases h
  | cons a saved ih =>
    cases w with
    | nil => cases h
    | cons b w =>
      rw [zipWith_cons_cons,ih w (Nat.succ.inj h)]
      cases choice <;> rfl

theorem BlockScan.Tracks.step {s : BlockScan} {p : List UInt8} (h : s.Tracks p)
    (hc : chunk.length = block) {k : Nat} (hp : p.length = k * block) (hk : k < 2 ^ 64) :
    (s.step k chunk).Tracks (p ++ chunk) := by
  have hwords : (blockWords chunk).length = words := by simp [blockWords]
  have hidx : (BitVec.ofNat 64 k).toNat = k := by
    rw [toNat_ofNat,mod_eq_of_lt hk]
  have hbi : ∀ choice, s.lastBi ^^^ (Ct.mask 64 choice &&& (BitVec.ofNat 64 k ^^^ s.lastBi)) =
      if choice then BitVec.ofNat 64 k else s.lastBi := Ct.conditionalSelect_eq _ _
  unfold BlockScan.step
  simp only [nonzero_blockWords hc,select_words _ _ (h.length_eq.trans hwords.symm),hbi]
  cases hlast : lastNonzero? chunk with
  | some e' =>
    have hwhole := lastNonzero?_append_some (p := p) hlast
    simp only [ne_eq,reduceCtorEq,not_false_eq_true,decide_true,if_true,Bool.or_true]
    refine ⟨hwords,fun hnone => ?_,fun e he => ⟨rfl,chunk,e',hc,rfl,hlast,?_⟩⟩
    · rw [hwhole] at hnone
      cases hnone
    · rw [hwhole,hp] at he
      rw [hidx]
      exact (Option.some.inj he).symm
  | none =>
    simp only [ne_eq,not_true_eq_false,decide_false,Bool.false_eq_true,if_false,Bool.or_false]
    refine ⟨h.length_eq,?_,?_⟩
    · rw [lastNonzero?_append_none hlast]
      exact h.absent
    · rw [lastNonzero?_append_none hlast]
      exact h.present
end Block
variable (buf : List UInt8)
theorem scanBlocks_tracks (n : Nat) (hn : n * block ≤ buf.length)
    (hlt : n < 2 ^ 64) : (scanBlocks buf n).Tracks (buf.take (n * block)) := by
  induction n with
  | zero =>
    refine ⟨by simp [scanBlocks],fun _ => rfl,fun e he => ?_⟩
    simp [lastNonzero?] at he
  | succ n ih =>
    have hlen : ((buf.drop (n * block)).take block).length = block := by
      rw [length_take,length_drop]
      rw [succ_mul] at hn
      omega
    have hprev : n * block ≤ buf.length := by
      rw [succ_mul] at hn
      omega
    have hp : (buf.take (n * block)).length = n * block := by
      rw [length_take]
      omega
    have hstep := (ih hprev (by omega)).step hlen hp (by omega)
    rw [scanBlocks,List.range_succ,foldl_append,succ_mul,take_add]
    exact hstep

/-- `s` has the last nonzero byte of `p`, if there is one. -/
structure Candidate.Tracks (s : Candidate) (p : List UInt8) : Prop where
  absent : lastNonzero? p = none → s.foundAny = false
  present : ∀ e, lastNonzero? p = some e → s.foundAny = true ∧ s.curByte = e.2.toBitVec ∧
    s.curEnd = BitVec.ofNat 64 (e.1 + 1)

theorem scanPrefix_tracks (h : buf.length < 2 ^ 64) :
    (scanPrefix buf).Tracks (buf.take (buf.length / block * block)) := by
  have hn : buf.length / block * block ≤ buf.length := div_mul_le_self _ _
  have hlt : buf.length / block < 2 ^ 64 := lt_of_le_of_lt (Nat.div_le_self _ _) h
  have hblocks := scanBlocks_tracks buf _ hn hlt
  refine ⟨hblocks.absent,?_⟩
  intro e he
  obtain ⟨hfound,chunk,e',hc,hwords,hlast,rfl⟩ := hblocks.present e he
  have hscan : (scanWords (blockWords chunk)).Tracks chunk := by
    have hstart : WordScan.Tracks ⟨0#64,0#64,0#64⟩ [] := fun e he => by cases he
    have hall := scanWords_tracks hstart (pieces chunk) (length_of_mem_pieces hc) (k := 0) rfl
      (by simp [pieces,words])
    rwa [flatten_pieces hc] at hall
  obtain ⟨l,e'',hl,hw,hf,hl',rfl⟩ := hscan e' hlast
  obtain ⟨hbyte,hpos⟩ := narrow_word hl hl' rfl
  refine ⟨hfound,?_,?_⟩
  · simp only [scanPrefix,hwords,hw,hf]
    exact hbyte
  · simp only [scanPrefix,hwords,hw,hf,hpos]
    congr 1
    omega

theorem Candidate.Tracks.step (h : s.Tracks p) (b : UInt8) : (s.step p.length b).Tracks (p ++ [b]) := by
  have hnonzero : Ct.nonzero b.toBitVec = decide (b ≠ 0) := by
    rw [Ct.nonzero_eq]
    refine decide_eq_decide.mpr (not_congr ?_)
    rw [← UInt8.toBitVec_inj]
    rfl
  unfold Candidate.step
  simp only [hnonzero,Ct.conditionalSelect_eq]
  by_cases hb : b = 0
  · have hlast : lastNonzero? [b] = none := by simp [lastNonzero?,hb]
    simp only [hb,ne_eq,not_true_eq_false,decide_false,Bool.false_eq_true,if_false,Bool.or_false]
    rw [hb] at hlast
    exact ⟨fun hnone => h.absent (lastNonzero?_append_none hlast ▸ hnone),
      fun e he => h.present e (lastNonzero?_append_none hlast ▸ he)⟩
  · have hlast := lastNonzero?_concat p hb
    simp only [hb,ne_eq,not_false_eq_true,decide_true,if_true,Bool.or_true]
    refine ⟨fun hnone => ?_,fun e he => ?_⟩
    · rw [hlast] at hnone
      cases hnone
    · rw [hlast] at he
      cases he
      exact ⟨rfl,rfl,rfl⟩

theorem scanTail_tracks (h : s.Tracks p) (base : Nat)
    (tail : List UInt8) (k : Nat) (hp : p.length = base + k) :
    ((tail.zipIdx k).foldl (fun s e => s.step (base + e.2) e.1) s).Tracks (p ++ tail) := by
  induction tail generalizing s p k with
  | nil => simpa using h
  | cons b tail ih =>
    have hstep := h.step b
    rw [hp] at hstep
    have hnext := ih hstep (k + 1) (by simp [hp]; omega)
    simpa using hnext

theorem ctFindLastNonzero_eq (h : buf.length < 2 ^ 64) :
    ctFindLastNonzero buf = match lastNonzero? buf with
      | some (i, b) => .ok (b, i)
      | none => .error .peerMisbehaved := by
  have hscan := scanTail_tracks (scanPrefix_tracks buf h) (buf.length / block * block)
    (buf.drop (buf.length / block * block)) 0 (by
      rw [length_take]
      exact Nat.min_eq_left (div_mul_le_self _ _))
  rw [take_append_drop] at hscan
  unfold ctFindLastNonzero
  cases hempty : buf.isEmpty with
  | true =>
    rw [List.isEmpty_iff.mp hempty]
    rfl
  | false =>
    simp only [Bool.false_eq_true,if_false]
    cases hlast : lastNonzero? buf with
    | none => rw [if_neg (by rw [hscan.absent hlast]; exact Bool.false_ne_true)]
    | some e =>
      obtain ⟨hfound,hbyte,hend⟩ := hscan.present e hlast
      have hlt := lt_of_lastNonzero? hlast
      rw [if_pos hfound,hbyte,hend,toNat_ofNat,mod_eq_of_lt (by omega)]
      rfl
end PureCrypto.Tls
