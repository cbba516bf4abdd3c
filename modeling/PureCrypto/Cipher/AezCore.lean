import PureCrypto.Cipher.Aez
import Mathlib.Data.List.Basic

/-! # The wide-block core is an involution up to the direction -/
namespace PureCrypto.Cipher
open List (append_assoc length_append take_add)
namespace Block
variable (a b c : Block)
@[simp] theorem getElem_xor {k : Nat} (h : k < 16) : (a.xor b)[k] = a[k] ^^^ b[k] := by
  simp [xor]

@[simp] theorem getElem_zero {k : Nat} (h : k < 16) : (zero)[k] = 0 := by
  simp [zero]
theorem xor_comm : a.xor b = b.xor a := by
  ext k hk
  simp [UInt8.xor_comm]
theorem xor_assoc : (a.xor b).xor c = a.xor (b.xor c) := by
  ext k hk
  simp [UInt8.xor_assoc]
theorem xor_left_comm : a.xor (b.xor c) = b.xor (a.xor c) := by
  rw [← xor_assoc,xor_comm a b,xor_assoc]
@[simp] theorem xor_self : a.xor a = zero := by
  ext k hk
  simp
@[simp] theorem xor_zero : a.xor zero = a := by
  ext k hk
  simp
@[simp] theorem zero_xor : zero.xor a = a := by
  rw [xor_comm,xor_zero]
@[simp] theorem xor_cancel_left : a.xor (a.xor b) = b := by
  rw [← xor_assoc,xor_self,zero_xor]
@[simp] theorem xor_cancel_right : (b.xor a).xor a = b := by
  rw [xor_assoc,xor_self,xor_zero]

theorem rd_append (x y : List UInt8) : rd (x ++ (a.toList ++ y)) x.length = a := by
  ext k hk
  simp only [rd,Vector.getElem_ofFn]
  rw [List.getD_eq_getElem?_getD,List.getElem?_append_right (by omega),List.getElem?_append_left (by simpa using hk)]
  simp [hk]

theorem rd_toList (y : List UInt8) : rd (a.toList ++ y) 0 = a := rd_append a [] y

theorem toList_rd {buf : List UInt8} {off : Nat} (h : off + 16 ≤ buf.length) :
    (rd buf off).toList = (buf.drop off).take 16 := by
  apply List.ext_getElem?
  intro k
  by_cases hk : k < 16
  · rw [List.getElem?_take_of_lt hk,List.getElem?_drop,List.getElem?_eq_getElem (by simpa using hk)]
    simp [rd,List.getD_eq_getElem?_getD,List.getElem?_eq_getElem (show off + k < buf.length by omega)]
  · rw [List.getElem?_eq_none (by simpa using hk),List.getElem?_eq_none (by simp; omega)]
end Block
open Block
namespace Aez
variable (a : Aez)
theorem length_writePairs (pairs : List (Block × Block)) : (writePairs pairs).length = 32 * pairs.length := by
  induction pairs with
  | nil => rfl
  | cons p pairs ih =>
    rw [writePairs,List.flatMap_cons,length_append,← writePairs]
    simp
    omega

theorem readPairs_writePairs (pairs : List (Block × Block)) (rest : List UInt8) :
    readPairs pairs.length (writePairs pairs ++ rest) = pairs := by
  induction pairs with
  | nil => rfl
  | cons p pairs ih =>
    have hsplit : writePairs (p :: pairs) ++ rest =
        p.1.toList ++ (p.2.toList ++ (writePairs pairs ++ rest)) := by
      simp [writePairs]
    rw [hsplit,List.length_cons,readPairs,rd_toList]
    have hsecond := rd_append p.2 p.1.toList (writePairs pairs ++ rest)
    have hdrop : (p.1.toList ++ (p.2.toList ++ (writePairs pairs ++ rest))).drop 32 =
        writePairs pairs ++ rest := by
      rw [← append_assoc]
      exact List.drop_left' (by simp)
    rw [hdrop,ih,show rd _ 16 = p.2 by simpa using hsecond]
variable {buf frag : List UInt8}
theorem writePairs_readPairs {n : Nat} (h : 32 * n ≤ buf.length) :
    writePairs (readPairs n buf) = buf.take (32 * n) ∧ (readPairs n buf).length = n := by
  induction n generalizing buf with
  | zero => simp [readPairs,writePairs]
  | succ n ih =>
    obtain ⟨hrest,hlength⟩ := ih (show 32 * n ≤ (buf.drop 32).length by rw [List.length_drop]; omega)
    refine ⟨?_,by rw [readPairs,List.length_cons,hlength]⟩
    rw [readPairs,writePairs,List.flatMap_cons,← writePairs,hrest,toList_rd (by omega),
      toList_rd (by omega),List.drop_zero,← take_add,← take_add]
    congr 1
    omega

/-- The parts of a buffer: pairs of blocks, the fragment and the last two blocks. -/
structure Parts where
  pairs : List (Block × Block)
  frag : List UInt8
  mx : Block
  my : Block

/-- `aezCore` on the parts of its buffer, with the multiple of `I` and the subkeys of the two halves. -/
def coreParts (delta ii k k' : Block) (p : Parts) : Parts :=
  let (pairs, x) := a.corePass1 1 ii p.pairs zero
  let x := a.absorbFragment x p.frag
  let sx := ((x.xor p.mx).xor delta).xor (a.aes4 zero ii k p.my)
  let sy := p.my.xor (a.aes10 k sx)
  let s := sx.xor sy
  let (pairs, y) := a.corePass2 s 1 ii pairs zero
  let frag := a.mixFragment s p.frag
  let y := a.absorbFragment y frag
  let cx := sx.xor (a.aes10 k' sy)
  let cy := ((sy.xor (a.aes4 zero ii k' cx)).xor delta).xor y
  ⟨pairs, frag, cy, cx⟩

def Parts.bytes (p : Parts) : List UInt8 := writePairs p.pairs ++ p.frag ++ p.mx.toList ++ p.my.toList
theorem Parts.length_bytes (p : Parts) : p.bytes.length = 32 * p.pairs.length + p.frag.length + 32 := by
  simp only [bytes,length_append,length_writePairs,Vector.length_toList]

theorem exists_parts (h : 32 ≤ buf.length) : ∃ p : Parts, p.bytes = buf ∧ p.frag.length < 32 := by
  have hdiv := Nat.div_add_mod (buf.length - 32) 32
  obtain ⟨hpairs,-⟩ :=
    writePairs_readPairs (show 32 * ((buf.length - 32) / 32) ≤ buf.length by omega)
  refine ⟨⟨readPairs ((buf.length - 32) / 32) buf,
    (buf.drop (32 * ((buf.length - 32) / 32))).take ((buf.length - 32) % 32),
    rd buf (buf.length - 32),rd buf (buf.length - 16)⟩,?_,?_⟩
  · rw [Parts.bytes,hpairs,toList_rd (by omega),toList_rd (by omega),← take_add,hdiv,
      ← take_add,show buf.length - 32 + 16 = buf.length - 16 by omega,← take_add,
      List.take_of_length_le (by omega)]
  · simp only [List.length_take]
    omega

theorem aezCore_bytes (delta : Block) (d : Nat) (p : Parts) (hfrag : p.frag.length < 32) :
    a.aezCore delta p.bytes d = (a.coreParts delta a.i[1] a.l[(1 + d) % 8] a.l[(2 - d) % 8] p).bytes := by
  have hlength := p.length_bytes
  have hpairs : corePairs p.bytes.length = p.pairs.length := by
    unfold corePairs
    split_ifs <;> omega
  have hread : readPairs p.pairs.length p.bytes = p.pairs := by
    rw [Parts.bytes,append_assoc,append_assoc]
    exact readPairs_writePairs _ _
  have hmod : p.bytes.length % 32 = p.frag.length := by omega
  have hfpos : p.bytes.length - p.frag.length - 32 = (writePairs p.pairs).length := by
    rw [length_writePairs]
    omega
  have hfragment : (p.bytes.drop (writePairs p.pairs).length).take p.frag.length = p.frag := by
    rw [Parts.bytes,append_assoc,append_assoc,List.drop_left,List.take_left]
  have hmx : rd p.bytes (p.bytes.length - 32) = p.mx := by
    have h := rd_append p.mx (writePairs p.pairs ++ p.frag) p.my.toList
    rw [length_append,length_writePairs,← append_assoc] at h
    rwa [show p.bytes.length - 32 = 32 * p.pairs.length + p.frag.length by omega]
  have hmy : rd p.bytes (p.bytes.length - 32 + 16) = p.my := by
    have h := rd_append p.my (writePairs p.pairs ++ p.frag ++ p.mx.toList) []
    rw [List.append_nil,length_append,length_append,length_writePairs,Vector.length_toList] at h
    rwa [show p.bytes.length - 32 + 16 = 32 * p.pairs.length + p.frag.length + 16 by omega]
  unfold aezCore coreParts
  simp only [hpairs,hread,hmod,hfpos,hfragment,hmx,hmy]
  rfl
section
variable (s : Block)
/-- The first pass over the output of the second finds its `Y`, and the second the `X` of the
first. -/
theorem corePass_corePass (i : Nat) (ii : Block) (pairs : List (Block × Block))
    (x y x' y' : Block) :
    let first := a.corePass1 i ii pairs x
    let second := a.corePass2 s i ii first.1 y
    let back := a.corePass1 i ii second.1 x'
    back.2 = x'.xor (y.xor second.2) ∧
      a.corePass2 s i ii back.1 y' = (pairs, y'.xor (x.xor first.2)) := by
  induction pairs generalizing i ii x y x' y' with
  | nil => simp [corePass1,corePass2]
  | cons p pairs ih =>
    obtain ⟨m0,m1⟩ := p
    simp only [corePass1,corePass2]
    generalize a.aes4 a.j[0] ii a.l[i % 8] = e1
    generalize a.aes4 zero a.i[0] a.l[0] = e0
    generalize a.aes4 a.j[1] ii a.l[i % 8] s = t
    generalize ho0 : m0.xor (e1 m1) = o0
    generalize ho1 : m1.xor (e0 o0) = o1
    obtain ⟨hback,hagain⟩ := ih (i + 1) (if i % 8 = 0 then ii.double else ii) (x.xor o1)
      (y.xor (o0.xor t)) (x'.xor (o0.xor t)) (y'.xor o1)
    simp only [xor_cancel_right]
    refine ⟨?_,?_⟩
    · rw [hback]
      simp [Block.xor_assoc,Block.xor_left_comm]
    · rw [hagain,← ho1,xor_cancel_right,← ho0,xor_cancel_right,ho0]
      simp [Block.xor_assoc,Block.xor_left_comm]

theorem xorBytes_xorBytes (x : List UInt8) (t : Block) (hx : x.length ≤ 16) : xorBytes (xorBytes x t) t = x := by
  have hlength : x.length ≤ t.toList.length := by simpa using hx
  clear hx
  unfold xorBytes
  generalize t.toList = ts at hlength
  induction x generalizing ts with
  | nil => simp
  | cons b bs ih =>
    cases ts with
    | nil => simp at hlength
    | cons c cs =>
      rw [List.zipWith_cons_cons,List.zipWith_cons_cons,ih cs (by simpa using hlength),UInt8.xor_assoc,UInt8.xor_self,
        UInt8.xor_zero]

theorem length_xorBytes {x : List UInt8} (t : Block) (hx : x.length ≤ 16) : (xorBytes x t).length = x.length := by
  rw [xorBytes,List.length_zipWith,Vector.length_toList]
  exact min_eq_left hx

theorem mixFragment_long (h : 16 ≤ frag.length) :
    a.mixFragment s frag = ((rd frag 0).xor (a.aes10 a.l[4] s)).toList ++
      xorBytes (frag.drop 16) (a.aes10 a.l[5] s) := if_pos h

theorem mixFragment_short (h : ¬ 16 ≤ frag.length) : a.mixFragment s frag = xorBytes frag (a.aes10 a.l[4] s) := by
  rw [mixFragment]
  split_ifs with hempty
  · rfl
  · rw [List.length_eq_zero_iff.mp (Nat.eq_zero_of_not_pos hempty)]
    rfl

theorem length_mixFragment (h : frag.length < 32) : (a.mixFragment s frag).length = frag.length := by
  by_cases hlong : 16 ≤ frag.length
  · rw [a.mixFragment_long s hlong,length_append,Vector.length_toList,
      length_xorBytes _ (by simp; omega),List.length_drop]
    omega
  · rw [a.mixFragment_short s hlong,length_xorBytes _ (by omega)]

theorem mixFragment_mixFragment (h : frag.length < 32) : a.mixFragment s (a.mixFragment s frag) = frag := by
  have hlength := a.length_mixFragment s h
  by_cases hlong : 16 ≤ frag.length
  · rw [a.mixFragment_long s (hlength ▸ hlong),a.mixFragment_long s hlong,rd_toList,
      xor_cancel_right,List.drop_left' (by simp),xorBytes_xorBytes _ _ (by simp; omega),
      toList_rd (by omega),List.drop_zero,List.take_append_drop]
  · rw [a.mixFragment_short s (hlength ▸ hlong),a.mixFragment_short s hlong,xorBytes_xorBytes _ _ (by omega)]

/-- The core is undone by itself with the subkeys exchanged. -/
theorem coreParts_coreParts (delta ii l1 l2 : Block) {p : Parts} (hfrag : p.frag.length < 32) :
    a.coreParts delta ii l2 l1 (a.coreParts delta ii l1 l2 p) = p := by
  obtain ⟨pairs,frag,mx,my⟩ := p
  unfold coreParts
  dsimp only
  generalize hfirst : a.corePass1 1 ii pairs zero = first
  generalize hx : a.absorbFragment first.2 frag = x
  generalize hsx : ((x.xor mx).xor delta).xor (a.aes4 zero ii l1 my) = sx
  generalize hsy : my.xor (a.aes10 l1 sx) = sy
  -- the passes in the other direction
  have hpasses := a.corePass_corePass (sx.xor sy) 1 ii pairs zero zero zero zero
  simp only [hfirst,zero_xor] at hpasses
  generalize hsecond : a.corePass2 (sx.xor sy) 1 ii first.1 zero = second at *
  obtain ⟨hy,hpairs⟩ := hpasses
  rw [hy]
  generalize a.absorbFragment second.2 (a.mixFragment (sx.xor sy) frag) = y
  have hsy' : ∀ cx, ((y.xor (((sy.xor (a.aes4 zero ii l2 cx)).xor delta).xor y)).xor delta).xor
      (a.aes4 zero ii l2 cx) = sy := by
    intro cx
    simp [Block.xor_left_comm,Block.xor_comm]
  simp only [hsy',xor_cancel_right]
  have hsame : sy.xor sx = sx.xor sy := Block.xor_comm sy sx
  have hmy : sy.xor (a.aes10 l1 sx) = my := by rw [← hsy,xor_cancel_right]
  rw [hsame,hpairs,a.mixFragment_mixFragment _ hfrag,hx,hmy]
  have hmx : ((sx.xor (a.aes4 zero ii l1 my)).xor delta).xor x = mx := by
    rw [← hsx]
    simp [Block.xor_left_comm,Block.xor_comm]
  rw [hmx]

theorem length_corePass1 (i : Nat) (ii : Block) (pairs : List (Block × Block)) (x : Block) :
    (a.corePass1 i ii pairs x).1.length = pairs.length := by
  induction pairs generalizing i ii x with
  | nil => rfl
  | cons p pairs ih => simp [corePass1,ih]

theorem length_corePass2 (i : Nat) (ii : Block) (pairs : List (Block × Block)) (y : Block) :
    (a.corePass2 s i ii pairs y).1.length = pairs.length := by
  induction pairs generalizing i ii y with
  | nil => rfl
  | cons p pairs ih => simp [corePass2,ih]
end
theorem aezCore_aezCore (delta : Block) {d : Nat} (hd : d ≤ 1) (h : 32 ≤ buf.length) :
    (a.aezCore delta buf d).length = buf.length ∧ a.aezCore delta (a.aezCore delta buf d) (1 - d) = buf := by
  obtain ⟨p,rfl,hfrag⟩ := exists_parts h
  have hin : (1 + (1 - d)) % 8 = (2 - d) % 8 := by omega
  have hout : (2 - (1 - d)) % 8 = (1 + d) % 8 := by omega
  rw [a.aezCore_bytes delta d p hfrag]
  generalize hq : a.coreParts delta a.i[1] a.l[(1 + d) % 8] a.l[(2 - d) % 8] p = q
  have hfrag' : q.frag.length = p.frag.length := by
    rw [← hq]
    exact a.length_mixFragment _ hfrag
  have hpairs : q.pairs.length = p.pairs.length := by
    rw [← hq]
    exact (a.length_corePass2 _ 1 _ _ zero).trans (a.length_corePass1 1 _ _ zero)
  refine ⟨?_,?_⟩
  · rw [Parts.length_bytes,Parts.length_bytes,hpairs,hfrag']
  · rw [a.aezCore_bytes delta _ _ (hfrag'.trans_lt hfrag)]
    simp only [hin,hout]
    rw [← hq,a.coreParts_coreParts delta _ _ _ hfrag]
end Aez
end PureCrypto.Cipher
