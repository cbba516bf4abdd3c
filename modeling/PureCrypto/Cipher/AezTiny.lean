import PureCrypto.Framework.Trace
import PureCrypto.Cipher.AezCore
import Mathlib.Tactic.IntervalCases

/-!
# Short strings

The network for up to 31 bytes works on two halves of as many half-bytes. The bits past a half are
never looked at: `visible` is what is left without them.
-/
namespace PureCrypto.Cipher
open Block
open List (getD_eq_getElem?_getD)
open Vector (getElem_ofFn)
section HalfBytes
variable (x y : UInt8)
private theorem byte_ext {x y : UInt8}
    (h : ∀ i ∈ [0, 1, 2, 3, 4, 5, 6, 7], x.toBitVec.getLsbD i = y.toBitVec.getLsbD i) : x = y := by
  refine UInt8.toBitVec_inj.mp (BitVec.eq_of_getLsbD_eq fun i hi => h i ?_)
  interval_cases i <;> simp

private theorem taken_shiftRight : (x <<< 4 ||| y >>> 4) >>> 4 = x &&& 0x0f := by
  apply byte_ext
  simp
private theorem taken_shiftLeft : (x <<< 4 ||| y >>> 4) <<< 4 = y &&& 0xf0 := by
  apply byte_ext
  simp
private theorem low_or_high : (x &&& 0x0f) ||| (x &&& 0xf0) = x := by
  apply byte_ext
  simp
private theorem middle_shiftLeft : (x >>> 4 ||| (y &&& 0xf0)) <<< 4 = x &&& 0xf0 := by
  apply byte_ext
  simp
private theorem middle_and : (x >>> 4 ||| (y &&& 0xf0)) &&& 0xf0 = y &&& 0xf0 := by
  apply byte_ext
  simp
private theorem given_shiftLeft : (x >>> 4 ||| y <<< 4) <<< 4 = x &&& 0xf0 := by
  apply byte_ext
  simp
private theorem given_shiftRight : (x >>> 4 ||| y <<< 4) >>> 4 = y &&& 0x0f := by
  apply byte_ext
  simp
private theorem high_shiftRight : (x &&& 0xf0) >>> 4 = x >>> 4 := by
  apply byte_ext
  simp
private theorem top_or : (x ^^^ (y &&& 0x80)) ||| 0x80 = x ||| 0x80 := by
  apply byte_ext
  simp
private theorem top_shiftLeft : (x ^^^ (y &&& 0x80)) <<< 4 = x <<< 4 := by
  apply byte_ext
  simp

private theorem xor_and (m : UInt8) : (x ^^^ y) &&& m = (x &&& m) ^^^ (y &&& m) := by
  apply byte_ext
  simp [Bool.and_xor_distrib_right]
end HalfBytes
def Block.byte (b : Block) (k : Nat) : UInt8 := b.toList.getD k 0

theorem Block.byte_eq (b : Block) {k : Nat} (hk : k < 16) : b.byte k = b[k] := by
  simp [byte,getD_eq_getElem?_getD,hk]
theorem Block.byte_ofFn (f : Fin 16 → UInt8) {k : Nat} (hk : k < 16) : Block.byte (Vector.ofFn f) k = f ⟨k, hk⟩ := by
  rw [byte_eq _ hk,getElem_ofFn]
theorem Block.ext_byte {b c : Block} (h : ∀ k < 16, b.byte k = c.byte k) : b = c := by
  ext k hk
  rw [← byte_eq b hk,← byte_eq c hk,h k hk]

private theorem eq_of_getD {x y : List UInt8} (hlength : x.length = y.length)
    (h : ∀ k < x.length, x.getD k 0 = y.getD k 0) : x = y := by
  refine List.ext_getElem hlength fun k hk hk' => ?_
  have hsame := h k hk
  rwa [List.getD_eq_getElem _ _ hk,List.getD_eq_getElem _ _ hk'] at hsame
namespace Aez
variable (a : Aez)
def visible (n : Nat) (b : Block) : Block :=
  Vector.ofFn fun k => if k.val < n / 2 then b.get k else if k.val = n / 2 then b.get k &&& tinyMask n else 0

private theorem getElem_visible (n : Nat) (b : Block) {k : Nat} (hk : k < 16) : (visible n b)[k] =
    if k < n / 2 then b[k] else if k = n / 2 then b[k] &&& tinyMask n else 0 := by
  rw [visible,getElem_ofFn]
  rfl

theorem byte_visible (n : Nat) (b : Block) {k : Nat} (hk : k < 16) : (visible n b).byte k =
      if k < n / 2 then b.byte k else if k = n / 2 then b.byte k &&& tinyMask n else 0 := by
  rw [byte_eq _ hk,byte_eq _ hk,getElem_visible]

theorem visible_xor (n : Nat) (b c : Block) : visible n (b.xor c) = (visible n b).xor (visible n c) := by
  refine Vector.ext fun k hk => ?_
  simp only [getElem_visible,getElem_xor]
  split_ifs
  · rfl
  · exact xor_and _ _ _
  · simp

private theorem mask_mask (n : Nat) (x : UInt8) : x &&& tinyMask n &&& tinyMask n = x &&& tinyMask n := by
  rw [UInt8.and_assoc,UInt8.and_self]

theorem tinyRound_visible (delta : Block) (n : Nat) (j : UInt8) (h : Block) :
    a.tinyRound delta n j (visible n h) = a.tinyRound delta n j h := by
  have hin : ∀ k : Fin 16, (if k.val = n / 2 then
        ((if k.val < (n + 1) / 2 then (visible n h)[k] else 0) &&& tinyMask n) ||| tinyPad n
      else if k.val < (n + 1) / 2 then (visible n h)[k] else 0) =
      if k.val = n / 2 then ((if k.val < (n + 1) / 2 then h[k] else 0) &&& tinyMask n) ||| tinyPad n
      else if k.val < (n + 1) / 2 then h[k] else 0 := by
    intro k
    simp only [Fin.getElem_fin,getElem_visible]
    by_cases hmid : k.val = n / 2
    · have hnot : ¬ k.val < n / 2 := by omega
      split_ifs
      · rw [mask_mask]
      · rfl
    · split_ifs
      · rfl
      · omega
      · rfl
  unfold tinyRound
  simp only [Fin.getElem_fin,getElem_ofFn] at hin ⊢
  simp [hin]
section Halves
variable {buf : List UInt8}
variable {k n : Nat}
theorem byte_split_left (hk : k < 16) :
    (tinySplit buf).1.byte k = if k < (buf.length + 1) / 2 then buf.getD k 0 else 0 := by
  unfold tinySplit
  dsimp only
  split_ifs <;> rw [byte_ofFn _ hk] <;> simp only [*,if_true,if_false]

theorem byte_split_even (hn : buf.length % 2 = 0) (hk : k < 16) :
    (tinySplit buf).2.byte k = if k < buf.length / 2 then buf.getD (buf.length / 2 + k) 0 else 0 := by
  unfold tinySplit
  rw [if_neg (by omega),byte_ofFn _ hk,show (buf.length + 1) / 2 = buf.length / 2 by omega]

theorem byte_split_odd (hn : buf.length % 2 = 1) (hlt : buf.length < 32) (hk : k ≤ buf.length / 2) :
    (tinySplit buf).2.byte k = (buf.getD (buf.length / 2 + k) 0 <<< 4) |||
      (buf.getD (buf.length / 2 + k + 1) 0 >>> 4) := by
  have hlast : buf.getD buf.length 0 = 0 := by simp
  unfold tinySplit
  rw [if_pos hn,byte_ofFn _ (by omega)]
  by_cases hend : k = buf.length / 2
  · have hodd : buf.length / 2 + k + 1 = buf.length := by omega
    rw [hodd]
    simp [hend,show buf.length / 2 < (buf.length + 1) / 2 by omega]
  · have hnext : Block.byte (Vector.ofFn fun k : Fin 16 =>
        if k.val < (buf.length + 1) / 2 then buf.getD (buf.length / 2 + k) 0 else 0) (k + 1) =
        buf.getD (buf.length / 2 + k + 1) 0 := by
      rw [byte_ofFn _ (by omega),if_pos (by dsimp only; omega)]
      rfl
    unfold Block.byte at hnext
    rw [if_pos (by dsimp only; omega),hnext]
    simp [show k < (buf.length + 1) / 2 by omega]

theorem length_tinyJoin (hn : n < 32) (l r : Block) : (tinyJoin n l r).length = n := by
  unfold tinyJoin
  split_ifs with hodd
  · simp
  · simp
    omega

theorem getD_halves (hn : n < 32) (l r : Block) {j : Nat} (hj : j < n) :
    (r.toList.take (n / 2) ++ l.toList.take ((n + 1) / 2)).getD j 0 =
      if j < n / 2 then r.byte j else l.byte (j - n / 2) := by
  have hleft : (r.toList.take (n / 2)).length = n / 2 := by
    simp
    omega
  unfold Block.byte
  simp only [getD_eq_getElem?_getD]
  split_ifs with hlt
  · rw [List.getElem?_append_left (by omega),List.getElem?_take_of_lt hlt]
  · rw [List.getElem?_append_right (by omega),hleft,List.getElem?_take_of_lt (by omega)]

theorem getD_join_even (hn : n < 32) (heven : n % 2 = 0) (l r : Block) (hk : k < n) :
    (tinyJoin n l r).getD k 0 = if k < n / 2 then r.byte k else l.byte (k - n / 2) := by
  unfold tinyJoin
  rw [if_neg (by omega)]
  exact getD_halves hn l r hk

theorem getD_join_odd (hn : n < 32) (hodd : n % 2 = 1) (l r : Block) (hk : k < n) :
    (tinyJoin n l r).getD k 0 = if k < n / 2 then r.byte k
      else if k = n / 2 then (l.byte 0 >>> 4) ||| (r.byte (n / 2) &&& 0xf0)
      else (l.byte (k - n / 2) >>> 4) ||| (l.byte (k - n / 2 - 1) <<< 4) := by
  unfold tinyJoin
  rw [if_pos hodd,getD_eq_getElem?_getD,List.getElem?_map,List.getElem?_range hk,Option.map_some,
    Option.getD_some,getD_halves hn l r hk,getD_halves hn l r (show k - 1 < n by omega)]
  by_cases hlt : k < n / 2
  · rw [if_neg (by omega),if_neg (by omega),if_pos hlt,if_pos hlt]
  · by_cases hmid : k = n / 2
    · rw [if_neg (by omega),if_pos hmid,if_neg hlt,if_pos hmid,byte_eq l (by omega)]
      rfl
    · rw [if_pos (by omega),if_neg hlt,if_neg (by omega),if_neg hlt,if_neg hmid,
        show k - 1 - n / 2 = k - n / 2 - 1 by omega]

theorem tinyJoin_visible (hn : n < 32) (l r : Block) : tinyJoin n (visible n l) (visible n r) = tinyJoin n l r := by
  refine eq_of_getD (by rw [length_tinyJoin hn,length_tinyJoin hn]) fun k hk => ?_
  rw [length_tinyJoin hn] at hk
  have hlow : ∀ (b : Block) {j : Nat}, j < n / 2 → (visible n b).byte j = b.byte j := by
    intro b j hj
    rw [byte_visible n b (by omega),if_pos hj]
  rcases Nat.mod_two_eq_zero_or_one n with heven | hodd
  · rw [getD_join_even hn heven _ _ hk,getD_join_even hn heven _ _ hk]
    split_ifs with hlt
    · exact hlow r hlt
    · exact hlow l (by omega)
  · have hmask : tinyMask n = 0xf0 := if_pos hodd
    have hlast : ∀ b : Block, (visible n b).byte (n / 2) = b.byte (n / 2) &&& 0xf0 := by
      intro b
      rw [byte_visible n b (by omega),if_neg (by omega),if_pos rfl,hmask]
    have hhigh : ∀ (b : Block) {j : Nat}, j ≤ n / 2 → (visible n b).byte j >>> 4 = b.byte j >>> 4 := by
      intro b j hj
      rcases Nat.lt_or_eq_of_le hj with hlt | heq
      · rw [hlow b hlt]
      · rw [heq,hlast,high_shiftRight]
    rw [getD_join_odd hn hodd _ _ hk,getD_join_odd hn hodd _ _ hk]
    split_ifs with hlt hmid
    · exact hlow r hlt
    · rw [hhigh l (Nat.zero_le _),hlast,UInt8.and_assoc,UInt8.and_self]
    · rw [hhigh l (by omega),hlow l (by omega)]

theorem tinyJoin_tinySplit (hn : buf.length < 32) :
    tinyJoin buf.length (tinySplit buf).2 (tinySplit buf).1 = buf := by
  refine eq_of_getD (length_tinyJoin hn _ _) fun k hk => ?_
  rw [length_tinyJoin hn] at hk
  have hleft : ∀ {j : Nat}, j < (buf.length + 1) / 2 → (tinySplit buf).1.byte j = buf.getD j 0 := by
    intro j hj
    rw [byte_split_left (by omega),if_pos hj]
  rcases Nat.mod_two_eq_zero_or_one buf.length with heven | hodd
  · rw [getD_join_even hn heven _ _ hk]
    split_ifs with hlt
    · exact hleft (by omega)
    · rw [byte_split_even heven (by omega),if_pos (by omega),show buf.length / 2 + (k - buf.length / 2) = k by omega]
  · rw [getD_join_odd hn hodd _ _ hk]
    split_ifs with hlt hmid
    · exact hleft (by omega)
    · rw [byte_split_odd hodd hn (by omega),hleft (by omega),taken_shiftRight,← hmid,add_zero,low_or_high]
    · rw [byte_split_odd hodd hn (by omega),byte_split_odd hodd hn (by omega),taken_shiftRight,
        taken_shiftLeft,show buf.length / 2 + (k - buf.length / 2) = k by omega,
        show buf.length / 2 + (k - buf.length / 2 - 1) + 1 = k by omega,low_or_high]
variable (hn : n < 32)
include hn
theorem visible_split_left (l r : Block) : visible n (tinySplit (tinyJoin n l r)).1 = visible n r := by
  apply ext_byte
  intro k hk
  rw [byte_visible n _ hk,byte_visible n _ hk,byte_split_left hk,length_tinyJoin hn]
  split_ifs with hlt _ hmid
  · rcases Nat.mod_two_eq_zero_or_one n with heven | hodd
    · rw [getD_join_even hn heven _ _ (by omega),if_pos hlt]
    · rw [getD_join_odd hn hodd _ _ (by omega),if_pos hlt]
  · omega
  · have hodd : n % 2 = 1 := by omega
    rw [getD_join_odd hn hodd _ _ (by omega),if_neg hlt,if_pos hmid,tinyMask,if_pos hodd,middle_and,hmid]
  · have heven : ¬ n % 2 = 1 := by omega
    simp [tinyMask,heven]
  · rfl

/-- Half a byte from either side of a position makes a byte of the left half. -/
private theorem getD_join_shiftLeft (hodd : n % 2 = 1) (l r : Block) (hk : k ≤ n / 2) :
    (tinyJoin n l r).getD (n / 2 + k) 0 <<< 4 = l.byte k &&& 0xf0 := by
  rw [getD_join_odd hn hodd _ _ (by omega),if_neg (by omega)]
  split_ifs with hmid
  · rw [middle_shiftLeft,show k = 0 by omega]
  · rw [given_shiftLeft,Nat.add_sub_cancel_left]

private theorem getD_join_shiftRight (hodd : n % 2 = 1) (l r : Block) (hk : k < n / 2) :
    (tinyJoin n l r).getD (n / 2 + k + 1) 0 >>> 4 = l.byte k &&& 0x0f := by
  rw [getD_join_odd hn hodd _ _ (by omega),if_neg (by omega),if_neg (by omega),given_shiftRight,
    show n / 2 + k + 1 - n / 2 - 1 = k by omega]

theorem visible_split_right (l r : Block) : visible n (tinySplit (tinyJoin n l r)).2 = visible n l := by
  have hlength := length_tinyJoin hn l r
  apply ext_byte
  intro k hk
  rw [byte_visible n _ hk,byte_visible n _ hk]
  rcases Nat.mod_two_eq_zero_or_one n with heven | hodd
  · split_ifs with hlt hmid
    · rw [byte_split_even (by rwa [hlength]) hk,hlength,if_pos hlt,
        getD_join_even hn heven _ _ (by omega),if_neg (by omega),Nat.add_sub_cancel_left]
    · simp [tinyMask,heven]
    · rfl
  · split_ifs with hlt hmid
    · rw [byte_split_odd (by rwa [hlength]) (by rwa [hlength]) (by omega),hlength,
        getD_join_shiftLeft hn hodd l r (by omega),getD_join_shiftRight hn hodd l r hlt,
        UInt8.or_comm,low_or_high]
    · -- the last byte takes in nothing after the string's end
      have hend : (tinyJoin n l r).getD (n / 2 + k + 1) 0 = 0 :=
        List.getD_eq_default _ _ (by omega)
      have hmask : tinyMask n = 0xf0 := if_pos hodd
      rw [byte_split_odd (by rwa [hlength]) (by rwa [hlength]) (by omega),hlength,
        getD_join_shiftLeft hn hodd l r (by omega),hend,hmask,UInt8.zero_shiftRight,UInt8.or_zero,
        UInt8.and_assoc,UInt8.and_self]
    · rfl
end Halves
def corrected (delta : Block) (buf : List UInt8) : List UInt8 :=
  if buf.length < 16 then buf.set 0 (buf.getD 0 0 ^^^ a.topBit delta buf) else buf

@[simp] theorem length_corrected (delta : Block) (buf : List UInt8) :
    (a.corrected delta buf).length = buf.length := by
  unfold corrected
  split_ifs <;> simp
variable {buf : List UInt8}
section
variable (delta : Block)
section
variable (hne : buf ≠ [])
include hne
/-- The corrected bit is not among the bits it is computed from. -/
theorem topBit_corrected : a.topBit delta (a.corrected delta buf) = a.topBit delta buf := by
  unfold corrected
  split_ifs
  · obtain ⟨x,xs,rfl⟩ := List.exists_cons_of_ne_nil hne
    have hblock : ∀ y : UInt8, rd (y :: xs) 0 = (rd (x :: xs) 0).set 0 y := by
      intro y
      refine Vector.ext fun k hk => ?_
      cases k with
      | zero => simp [rd]
      | succ k => simp [rd]
    have hfirst : (rd (x :: xs) 0)[0] = x := by simp [rd]
    have htop : ∀ y : UInt8, (x ^^^ (y &&& 0x80)) ||| 0x80 = x ||| 0x80 := fun y => top_or x y
    rw [List.set_cons_zero,List.getD_cons_zero]
    unfold topBit
    simp [hblock (x ^^^ _),htop,hfirst]
  · rfl

theorem corrected_corrected : a.corrected delta (a.corrected delta buf) = buf := by
  have htop := a.topBit_corrected delta hne
  have hlength := a.length_corrected delta buf
  unfold corrected at htop hlength ⊢
  split_ifs at htop hlength ⊢ with hlt hlt'
  · rw [htop]
    obtain ⟨x,xs,rfl⟩ := List.exists_cons_of_ne_nil hne
    simp only [List.set_cons_zero,List.getD_cons_zero,UInt8.xor_assoc,UInt8.xor_self,UInt8.xor_zero]
  · omega
  · rfl

theorem split_left_set (x : UInt8) :
    (tinySplit (buf.set 0 x)).1 = (tinySplit buf).1.set 0 x (Nat.zero_lt_succ 15) := by
  have hpos : 0 < buf.length := List.length_pos_iff.mpr hne
  apply ext_byte
  intro k hk
  rw [byte_split_left hk,List.length_set,byte_eq _ hk,Vector.getElem_set,← byte_eq _ hk,
    byte_split_left hk,getD_eq_getElem?_getD,getD_eq_getElem?_getD,List.getElem?_set]
  by_cases hzero : k = 0
  · subst hzero
    rw [if_pos (by omega),if_pos rfl,if_pos rfl,if_pos hpos,Option.getD_some]
  · rw [if_neg (Ne.symm hzero),if_neg (Ne.symm hzero)]

theorem split_right_set (hlt : buf.length < 32) (y : UInt8) :
    visible buf.length (tinySplit (buf.set 0 (buf.getD 0 0 ^^^ (y &&& 0x80)))).2 =
      visible buf.length (tinySplit buf).2 := by
  have hpos : 0 < buf.length := List.length_pos_iff.mpr hne
  generalize hbuf : buf.set 0 (buf.getD 0 0 ^^^ (y &&& 0x80)) = buf'
  have hlength : buf'.length = buf.length := by rw [← hbuf,List.length_set]
  have hset : ∀ {j : Nat}, j ≠ 0 → buf'.getD j 0 = buf.getD j 0 := by
    intro j hj
    rw [← hbuf,getD_eq_getElem?_getD,List.getElem?_set_ne hj.symm,getD_eq_getElem?_getD]
  have hshift : ∀ j, buf'.getD j 0 <<< 4 = buf.getD j 0 <<< 4 := by
    intro j
    by_cases hj : j = 0
    · rw [hj,← hbuf,getD_eq_getElem?_getD,List.getElem?_set_self hpos,Option.getD_some,top_shiftLeft]
    · rw [hset hj]
  apply ext_byte
  intro k hk
  rw [byte_visible _ _ hk,byte_visible _ _ hk]
  rcases Nat.mod_two_eq_zero_or_one buf.length with heven | hodd
  · rw [byte_split_even (hlength ▸ heven) hk,byte_split_even heven hk,hlength,hset (by omega)]
  · split_ifs with hlow hmid
    · rw [byte_split_odd (hlength ▸ hodd) (hlength ▸ hlt) (by omega),byte_split_odd hodd hlt (by omega),
        hlength,hshift,hset (by omega)]
    · rw [byte_split_odd (hlength ▸ hodd) (hlength ▸ hlt) (by omega),byte_split_odd hodd hlt (by omega),
        hlength,hshift,hset (by omega)]
    · rfl
end
def sees (n : Nat) (s : Block × Block) : Block × Block := (visible n s.1, visible n s.2)

def seenRounds (delta : Block) (n j j' : Nat) (s : Block × Block) : Block × Block :=
  let u := s.1.xor (visible n (a.tinyRound delta n (UInt8.ofNat j) s.2))
  (u, s.2.xor (visible n (a.tinyRound delta n (UInt8.ofNat j') u)))

/-- The two rounds of a stage undo themselves on the swapped halves. -/
theorem seenRounds_swap (n j j' : Nat) (s : Block × Block) :
    (a.seenRounds delta n j' j (a.seenRounds delta n j j' s).swap).swap = s := by
  simp [seenRounds]

theorem seenRounds_stages (n : Nat) :
    Reversible.Stages (fun k => a.seenRounds delta n (2 * k) (2 * k + 1))
      (fun k s => (a.seenRounds delta n (2 * k + 1) (2 * k) s.swap).swap) (fun _ _ => True) where
  enc_mem _ _ _ := trivial
  dec_mem _ _ _ := trivial
  dec_enc k s _ := a.seenRounds_swap delta n (2 * k) (2 * k + 1) s
  enc_dec k s _ := by
    have h := a.seenRounds_swap delta n (2 * k + 1) (2 * k) s.swap
    exact Prod.swap_injective h

theorem sees_tinyRounds_one (n j j' : Nat) (l r : Block) : sees n (l.xor (a.tinyRound delta n (UInt8.ofNat j) r),
      r.xor (a.tinyRound delta n (UInt8.ofNat j') (l.xor (a.tinyRound delta n (UInt8.ofNat j) r)))) =
      a.seenRounds delta n j j' (sees n (l, r)) := by
  unfold sees seenRounds
  simp only [visible_xor,tinyRound_visible]
  rw [← visible_xor,tinyRound_visible]

theorem tinyRounds_up_succ (n count j : Nat) (s : Block × Block) : a.tinyRounds delta n true (count + 1) j s =
      a.tinyRounds delta n true 1 (j + 2 * count) (a.tinyRounds delta n true count j s) := by
  induction count generalizing j s with
  | zero => rfl
  | succ count ih =>
    rw [tinyRounds,if_pos rfl,ih,show j + 2 + 2 * count = j + 2 * (count + 1) by omega]
    rfl

theorem sees_tinyRounds_up (n count : Nat) (s : Block × Block) :
    sees n (a.tinyRounds delta n true count 0 s) =
      Reversible.forward (fun k => a.seenRounds delta n (2 * k) (2 * k + 1)) count (sees n s) := by
  induction count with
  | zero => rfl
  | succ count ih =>
    rw [tinyRounds_up_succ,Reversible.forward,← ih,zero_add]
    exact a.sees_tinyRounds_one delta n _ _ _ _

theorem sees_tinyRounds_down (n count : Nat) (s : Block × Block) :
    (sees n (a.tinyRounds delta n false count (2 * count - 1) s)).swap =
      Reversible.backward (fun k s => (a.seenRounds delta n (2 * k + 1) (2 * k) s.swap).swap) count
        (sees n s).swap := by
  induction count generalizing s with
  | zero => rfl
  | succ count ih =>
    obtain ⟨l,r⟩ := s
    rw [Reversible.backward,Prod.swap_swap,← a.sees_tinyRounds_one delta n _ _ l r,← ih]
    rfl

/-- Correcting the left half before the rounds is correcting the string. -/
theorem sees_split_corrected (hne : buf ≠ []) (hlt : buf.length < 32) :
    sees buf.length (tinySplit (a.corrected delta buf)) = sees buf.length
        (if buf.length < 16 then (tinySplit buf).1.set 0 ((tinySplit buf).1[0] ^^^ a.topBit delta buf)
          else (tinySplit buf).1, (tinySplit buf).2) := by
  have hpos : 0 < buf.length := List.length_pos_iff.mpr hne
  have hfirst : (tinySplit buf).1[0] = buf.getD 0 0 := by
    rw [← byte_eq _ (by omega),byte_split_left (by omega),if_pos (by omega)]
  unfold corrected sees
  rw [hfirst]
  split_ifs with hshort
  · rw [split_left_set hne]
    exact congrArg (Prod.mk _) (split_right_set hne hlt _)
  · rfl
end
section Network
variable (delta : Block) {buf : List UInt8}
private theorem rounds_even (n : Nat) : (tinyParams n).2 = 2 * ((tinyParams n).2 / 2) := by
  unfold tinyParams
  split_ifs <;> rfl

private def joined (n : Nat) (s : Block × Block) : List UInt8 := tinyJoin n s.1 s.2
variable {n d : Nat}
private theorem joined_eq (hn : n < 32) {s t : Block × Block} (h : sees n s = sees n t) :
    joined n s = joined n t := by
  rw [sees,sees,Prod.mk.injEq] at h
  rw [joined,joined,← tinyJoin_visible hn s.1 s.2,h.1,h.2,tinyJoin_visible hn]

private theorem sees_split_joined (hn : n < 32) (s : Block × Block) :
    sees n (tinySplit (joined n s)) = (sees n s).swap :=
  Prod.ext (visible_split_left hn s.1 s.2) (visible_split_right hn s.1 s.2)
private theorem joined_split (hlt : buf.length < 32) : joined buf.length (tinySplit buf).swap = buf :=
  tinyJoin_tinySplit hlt
private def upward (n : Nat) (s : Block × Block) : Block × Block :=
  a.tinyRounds delta n true ((tinyParams n).2 / 2) 0 s
private def downward (n : Nat) (s : Block × Block) : Block × Block :=
  a.tinyRounds delta n false ((tinyParams n).2 / 2) ((tinyParams n).2 - 1) s

private theorem sees_upward (n : Nat) (s : Block × Block) : sees n (a.upward delta n s) =
      Reversible.forward (fun k => a.seenRounds delta n (2 * k) (2 * k + 1)) ((tinyParams n).2 / 2)
        (sees n s) :=
  a.sees_tinyRounds_up delta n _ s

private theorem sees_downward (n : Nat) (s : Block × Block) : (sees n (a.downward delta n s)).swap =
      Reversible.backward (fun k s => (a.seenRounds delta n (2 * k + 1) (2 * k) s.swap).swap)
        ((tinyParams n).2 / 2) (sees n s).swap := by
  have h := a.sees_tinyRounds_down delta n ((tinyParams n).2 / 2) s
  rwa [← rounds_even] at h

private theorem length_joined (hn : n < 32) (s : Block × Block) : (joined n s).length = n :=
  length_tinyJoin hn s.1 s.2

private theorem aezTiny_zero (hlt : buf.length < 32) : a.aezTiny delta buf 0 =
    a.corrected delta (joined buf.length (a.upward delta buf.length (tinySplit buf))) := by
  unfold corrected
  rw [length_joined hlt]
  rfl

private theorem aezTiny_one (hne : buf ≠ []) (hlt : buf.length < 32) : a.aezTiny delta buf 1 =
    joined buf.length (a.downward delta buf.length (tinySplit (a.corrected delta buf))) := by
  refine joined_eq hlt (Prod.swap_injective ?_)
  rw [sees_downward,a.sees_split_corrected delta hne hlt,← sees_downward]
  rfl

theorem length_aezTiny (hne : buf ≠ []) (hlt : buf.length < 32) (hd : d ≤ 1) :
    (a.aezTiny delta buf d).length = buf.length := by
  interval_cases d
  · rw [aezTiny_zero a delta hlt,length_corrected,length_joined hlt]
  · rw [aezTiny_one a delta hne hlt,length_joined hlt]

theorem ne_nil_of_length {x y : List UInt8} (h : x.length = y.length) (hy : y ≠ []) : x ≠ [] := by
  rw [← List.length_pos_iff] at hy ⊢
  omega

private theorem aezTiny_one_zero (hne : buf ≠ []) (hlt : buf.length < 32) :
    a.aezTiny delta (a.aezTiny delta buf 0) 1 = buf := by
  have hlength := a.length_aezTiny delta hne hlt (Nat.zero_le 1)
  have hne' := ne_nil_of_length hlength hne
  rw [aezTiny_one a delta hne' (by omega),hlength,aezTiny_zero a delta hlt,
    corrected_corrected a delta (ne_nil_of_length (length_joined hlt _) hne)]
  refine (joined_eq hlt (Prod.swap_injective ?_)).trans (joined_split hlt)
  rw [sees_downward,sees_split_joined hlt,Prod.swap_swap,sees_upward,
    (a.seenRounds_stages delta buf.length).backward_forward _ trivial]
  rfl

private theorem aezTiny_zero_one (hne : buf ≠ []) (hlt : buf.length < 32) :
    a.aezTiny delta (a.aezTiny delta buf 1) 0 = buf := by
  have hlength := a.length_aezTiny delta hne hlt (le_refl 1)
  have hsame : (a.corrected delta buf).length = buf.length := a.length_corrected delta buf
  rw [aezTiny_zero a delta (by omega),hlength,aezTiny_one a delta hne hlt]
  refine Eq.trans (congrArg _ ?_) (a.corrected_corrected delta hne)
  have hjoin : joined buf.length (tinySplit (a.corrected delta buf)).swap = a.corrected delta buf :=
    hsame ▸ joined_split (by omega)
  refine (joined_eq hlt ?_).trans hjoin
  rw [sees_upward,sees_split_joined hlt,sees_downward,
    (a.seenRounds_stages delta buf.length).forward_backward _ trivial]
  rfl

theorem aezTiny_aezTiny (hd : d ≤ 1) (hne : buf ≠ []) (hlt : buf.length < 32) :
    a.aezTiny delta (a.aezTiny delta buf d) (1 - d) = buf := by
  interval_cases d
  · exact a.aezTiny_one_zero delta hne hlt
  · exact a.aezTiny_zero_one delta hne hlt
end Network
end Aez
end PureCrypto.Cipher
