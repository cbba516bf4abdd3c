import PureCrypto.Zkp.Surjection

/-! # Encoding of surjection proofs -/
namespace PureCrypto.Zkp
open ByteArrays LittleEndian
def countOnes (b : UInt8) : Nat := (List.range 8).countP b.toNat.testBit

theorem testBit_eq_false (b : UInt8) {k : Nat} (hk : 8 ≤ k) : b.toNat.testBit k = false :=
  Nat.testBit_lt_two_pow (b.toNat_lt.trans_le (Nat.pow_le_pow_right (by decide) hk))

theorem bit_eq_false_of_le {bitmap : List UInt8} {i : Nat} (h : 8 * bitmap.length ≤ i) : bit bitmap i = false := by
  have hbyte : bitmap.getD (i / 8) 0 = 0 := List.getD_eq_default _ _ (by omega)
  rw [bit,hbyte]
  exact Nat.zero_testBit _

theorem sum_countOnes (bitmap : List UInt8) :
    (bitmap.map countOnes).sum = (List.range (8 * bitmap.length)).countP (bit bitmap) := by
  induction bitmap with
  | nil => rfl
  | cons b bitmap ih =>
    have hfirst : (List.range 8).countP (bit (b :: bitmap)) = countOnes b := by
      refine List.countP_congr fun i hi => ?_
      have hi' := List.mem_range.mp hi
      rw [bit,Nat.div_eq_of_lt hi',Nat.mod_eq_of_lt hi']
      rfl
    have hrest : (bit (b :: bitmap)) ∘ (fun i => 8 + i) = bit bitmap := by
      funext i
      have hdiv : (8 + i) / 8 = i / 8 + 1 := by omega
      have hmod : (8 + i) % 8 = i % 8 := by omega
      simp [bit,hdiv,hmod]
    rw [List.map_cons,List.sum_cons,ih,List.length_cons,mul_add,mul_one,add_comm (8 * _),
      List.range_add,List.countP_append,List.countP_map,hfirst,hrest]

theorem AnonymitySet.sum_countOnes_used (a : AnonymitySet) : (a.used.map countOnes).sum = a.usedInputs.length := by
  have hlength : 8 * a.used.length = a.nInputs + (8 * a.used.length - a.nInputs) := by
    have := a.length_used
    unfold bitmapLen at this
    omega
  have hbeyond : (bit a.used) ∘ (fun i => a.nInputs + i) = fun _ => false := by
    funext i
    exact a.bit_beyond _ (Nat.le_add_right _ _)
  rw [sum_countOnes,hlength,List.range_add,List.countP_append,List.countP_map,hbeyond,usedInputs,
    List.countP_eq_length_filter]
  simp

theorem bit_beyond_iff {bitmap : List UInt8} {n : Nat} (hlength : bitmap.length = bitmapLen n) :
    ¬(n % 8 ≠ 0 ∧ (bitmap.getD (bitmapLen n - 1) 0).toNat >>> (n % 8) ≠ 0) ↔ ∀ i, n ≤ i → bit bitmap i = false := by
  rw [← hlength]
  unfold bitmapLen at hlength
  constructor
  · intro h i hi
    by_cases hend : 8 * bitmap.length ≤ i
    · exact bit_eq_false_of_le hend
    · have hmod : n % 8 ≠ 0 := by omega
      have hlast : i / 8 = bitmap.length - 1 := by omega
      have hzero : (bitmap.getD (bitmap.length - 1) 0).toNat >>> (n % 8) = 0 := by
        by_contra hne
        exact h ⟨hmod,hne⟩
      have hlt : (bitmap.getD (bitmap.length - 1) 0).toNat < 2 ^ (n % 8) := by
        rw [Nat.shiftRight_eq_div_pow,Nat.div_eq_zero_iff] at hzero
        exact hzero.resolve_left (Nat.two_pow_pos _).ne'
      rw [bit,hlast]
      exact Nat.testBit_lt_two_pow (hlt.trans_le (Nat.pow_le_pow_right (by decide) (by omega)))
  · rintro h ⟨hmod,hne⟩
    refine hne ?_
    rw [Nat.shiftRight_eq_div_pow,Nat.div_eq_of_lt]
    refine Nat.lt_pow_two_of_testBit _ fun j hj => ?_
    by_cases hj8 : 8 ≤ j
    · exact testBit_eq_false _ hj8
    · have hbit := h (8 * (bitmap.length - 1) + j) (by omega)
      rwa [bit,show (8 * (bitmap.length - 1) + j) / 8 = bitmap.length - 1 by omega,
        show (8 * (bitmap.length - 1) + j) % 8 = j by omega] at hbit

def serializedLen (nInputs nUsed : Nat) : Nat := 2 + bitmapLen nInputs + 32 * (1 + nUsed)
namespace SurjectionProof
def serialize (self : SurjectionProof) : List UInt8 :=
  leBytes 2 self.nInputs ++ self.used ++ self.e0.toList ++ flat self.s

theorem length_arrays (n k : Nat) (xs : List UInt8) : (arrays n k xs).length = k := by
  induction k generalizing xs with
  | zero => rfl
  | succ k ih => rw [arrays,List.length_cons,ih]

def parse (bytes : List UInt8) : Except Error SurjectionProof :=
  if bytes.length < 2 then .error .malformed
  else
    let n := leNat (bytes.take 2)
    if hn : maxNInputs < n then .error .malformed
    else
      let bm := bitmapLen n
      if hlength : bytes.length < 2 + bm + 32 then .error .malformed
      else
        let bitmap := (bytes.drop 2).take bm
        if hbits : n % 8 ≠ 0 ∧ (bitmap.getD (bm - 1) 0).toNat >>> (n % 8) ≠ 0 then .error .malformed
        else
          let nUsed := (bitmap.map countOnes).sum
          if bytes.length ≠ serializedLen n nUsed then .error .malformed
          else
            have hbitmap : bitmap.length = bitmapLen n := by simp [bitmap, bm] at hlength ⊢; omega
            let set : AnonymitySet :=
              ⟨n, bitmap, Nat.not_lt.mp hn, hbitmap, (bit_beyond_iff hbitmap).mp hbits⟩
            .ok { set with
              e0 := arrayAt 32 bytes (2 + bm)
              s := arrays 32 nUsed (bytes.drop (34 + bm))
              length_s := (length_arrays ..).trans set.sum_countOnes_used }

theorem exists_parse {bytes : List UInt8} {n : Nat} (hn : leNat (bytes.take 2) = n) (hmax : n ≤ maxNInputs)
    {bitmap : List UInt8} (hbitmap : (bytes.drop 2).take (bitmapLen n) = bitmap)
    (hbits : ∀ i, n ≤ i → bit bitmap i = false)
    (hlength : bytes.length = serializedLen n (bitmap.map countOnes).sum) :
    ∃ p, parse bytes = .ok p ∧ p.nInputs = n ∧ p.used = bitmap ∧ p.e0 = arrayAt 32 bytes (2 + bitmapLen n) ∧
      p.s = arrays 32 (bitmap.map countOnes).sum (bytes.drop (34 + bitmapLen n)) := by
  subst hn hbitmap
  have hlength' := hlength
  unfold serializedLen at hlength'
  have hbitmap : ((bytes.drop 2).take (bitmapLen (leNat (bytes.take 2)))).length =
      bitmapLen (leNat (bytes.take 2)) := by
    rw [List.length_take,List.length_drop]
    omega
  unfold parse
  rw [if_neg (by omega),dif_neg (Nat.not_lt.mpr hmax),dif_neg (by omega),
    dif_neg ((bit_beyond_iff hbitmap).mpr hbits),if_neg (not_not_intro hlength)]
  exact ⟨_,rfl,rfl,rfl,rfl,rfl⟩

theorem parse_serialize (self : SurjectionProof) : parse self.serialize = .ok self := by
  have hcount : (leBytes 2 self.nInputs).length = 2 := length_leBytes ..
  have hn : leNat (self.serialize.take 2) = self.nInputs := by
    have hmax := self.nInputs_le
    unfold maxNInputs at hmax
    rw [serialize,List.append_assoc,List.append_assoc,List.take_left' hcount,leNat_leBytes,
      Nat.mod_eq_of_lt (by omega)]
  have hdrop : self.serialize.drop 2 = self.used ++ (self.e0.toList ++ flat self.s) := by
    rw [serialize,List.append_assoc,List.append_assoc,List.drop_left' hcount]
  have hbitmap : (self.serialize.drop 2).take (bitmapLen self.nInputs) = self.used := by
    rw [hdrop,List.take_left' self.length_used]
  have hused : (self.used.map countOnes).sum = self.s.length :=
    self.sum_countOnes_used.trans self.length_s.symm
  have hlength : self.serialize.length = serializedLen self.nInputs (self.used.map countOnes).sum := by
    simp only [serialize,List.length_append,hcount,self.length_used,Vector.length_toList,length_flat,
      hused,serializedLen]
    omega
  obtain ⟨p,hp,hpn,hpused,hpe0,hps⟩ := exists_parse hn self.nInputs_le hbitmap self.bit_beyond hlength
  have he0 : arrayAt 32 self.serialize (2 + bitmapLen self.nInputs) = self.e0 := by
    rw [← arrayAt_drop,hdrop,arrayAt_behind self.length_used]
  have hs : arrays 32 (self.used.map countOnes).sum (self.serialize.drop (34 + bitmapLen self.nInputs)) =
      self.s := by
    have hskip : self.serialize.drop (34 + bitmapLen self.nInputs) = flat self.s := by
      rw [show 34 + bitmapLen self.nInputs = 2 + (bitmapLen self.nInputs + 32) by omega,← List.drop_drop,hdrop,
        ← List.append_assoc]
      exact List.drop_left' (by rw [List.length_append,self.length_used,Vector.length_toList])
    have harrays := arrays_flat self.s []
    rwa [List.append_nil,← hskip,← hused] at harrays
  rw [hp]
  congr 1
  exact SurjectionProof.ext hpn hpused (hpe0.trans he0) (hps.trans hs)
end SurjectionProof
end PureCrypto.Zkp
