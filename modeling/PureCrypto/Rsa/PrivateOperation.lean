import PureCrypto.Bignum.MontgomeryReduce
import PureCrypto.Framework.ModularArithmetic
import PureCrypto.Rsa.PrivateKey

/-! # The blinded private operation is the power -/
namespace PureCrypto.Rsa
open Bignum ByteArrays Option
open MontModulus (new_spec toNat_mulMod toNat_pow2 toNat_powPublic newSecret toNat_reduce)
open Nat (mod_lt mod_modEq sub_le)
open RsaPrivateKey (fromComponentsWithPrimes)
variable {LIMBS : Nat} {H : Hashes}
theorem toNat_wrappingSub_small (v : Limb) {x : Uint LIMBS} (hL : 0 < LIMBS) (h : v.toNat ≤ x.toNat) :
    (x.wrappingSub (.fromU64 v)).toNat = x.toNat - v.toNat := by
  have hvalue := Uint.toNat_fromU64 v hL
  rw [Uint.toNat_wrappingSub (by omega),hvalue]
section OnePrime
variable {P e d : ℕ}
theorem exponent_pos (hP : 5 ≤ P) (hed : e * d ≡ 1 [MOD P - 1]) : 0 < d % (P - 1) ∧ 0 < e * d := by
  have hone : ¬ 0 ≡ 1 [MOD P - 1] := by
    intro h
    have hdvd : P - 1 ∣ 1 := (Nat.modEq_zero_iff_dvd.mp h.symm)
    have := Nat.le_of_dvd Nat.one_pos hdvd
    omega
  refine ⟨pos_of_ne_zero fun hzero => hone ?_,pos_of_ne_zero fun hzero => hone ?_⟩
  · have hd : d ≡ 0 [MOD P - 1] := Nat.modEq_zero_iff_dvd.mpr (Nat.dvd_of_mod_eq_zero hzero)
    exact (by simpa using (hd.mul_left e).symm.trans hed)
  · rwa [hzero] at hed
section
variable (hprime : P.Prime)
include hprime
variable (hP : 5 ≤ P)
include hP
variable (hed : e * d ≡ 1 [MOD P - 1])
include hed
theorem pow_mul_modEq (x : ℕ) : x ^ (e * d) ≡ x [MOD P] := by
  have h := pow_modEq_pow hprime hed (exponent_pos hP hed).2 Nat.one_pos x
  rwa [pow_one] at h

/-- The blinder cancels against its Fermat inverse. -/
theorem unblind_of_inverse {r inv : ℕ} (hinv : r * inv ≡ 1 [MOD P]) (c : ℕ) : (c * r ^ e) ^ d * inv ≡ c ^ d [MOD P] :=
  calc (c * r ^ e) ^ d * inv
      = c ^ d * (r ^ (e * d) * inv) := by rw [mul_pow,← pow_mul,mul_assoc]
    _ ≡ c ^ d * (r * inv) [MOD P] := ((pow_mul_modEq hprime hP hed r).mul_right _).mul_left _
    _ ≡ c ^ d * 1 [MOD P] := hinv.mul_left _
    _ = c ^ d := mul_one _

theorem unblind_modEq {r : ℕ} (hr : r.Coprime P) (c : ℕ) :
    (c * r ^ e) ^ (d % (P - 1)) * r ^ (P - 2) ≡ c ^ d [MOD P] := by
  have hdp := (exponent_pos hP hed).1
  have hd : 0 < d := pos_of_ne_zero fun hzero => by
    rw [hzero,Nat.zero_mod] at hdp
    omega
  have hreduced := pow_modEq_pow hprime (mod_modEq d (P - 1)) hdp hd (c * r ^ e)
  exact (hreduced.mul_right _).trans (unblind_of_inverse hprime hP hed (mul_pow_sub_two_modEq hprime hr) c)

theorem unblind_totient_modEq {r : ℕ} (hr : r.Coprime P)
    (c : ℕ) {k : ℕ} (hk : 0 < k) : (c * r ^ e) ^ d * r ^ ((P - 1) * k - 1) ≡ c ^ d [MOD P] := by
  have hpos : 0 < (P - 1) * k := Nat.mul_pos (by omega) hk
  apply unblind_of_inverse hprime hP hed
  rw [← pow_succ',Nat.sub_add_cancel hpos]
  exact pow_modEq_pow_of_coprime hprime (Nat.modEq_zero_iff_dvd.mpr (Nat.dvd_mul_right (P - 1) k)) hr
end
theorem fermat_exponent {mp : MontModulus LIMBS} (hmp : mp.Ready) (h : 5 ≤ mp.modulus.toNat) :
    (mp.modulus.wrappingSub (.fromU64 2#64)).toNat = mp.modulus.toNat - 2 ∧ mp.modulus.toNat < 2 ^ (64 * mp.limbs) := by
  rw [pow_mul]
  exact ⟨toNat_wrappingSub_small 2#64 hmp.limbs_pos (show 2 ≤ mp.modulus.toNat by omega),hmp.lt_radix⟩

theorem toNat_half {mp : MontModulus LIMBS} (hmp : mp.Ready) {prime dx cBlind r : Uint LIMBS} (hmod : mp.modulus = prime)
    (hprime : prime.toNat.Prime) (hP : 5 ≤ prime.toNat) (hdx : dx.toNat = d % (prime.toNat - 1))
    (hed : e * d ≡ 1 [MOD prime.toNat - 1]) (hr : r.toNat.Coprime prime.toNat) {c : ℕ}
    (hblind : cBlind.toNat ≡ c * r.toNat ^ e [MOD prime.toNat]) :
    (half cBlind r mp prime dx).toNat = c ^ d % prime.toNat := by
  subst hmod
  have hlt : ∀ x : Uint LIMBS, (mp.reduce x).toNat < mp.modulus.toNat := by
    intro x
    rw [toNat_reduce hmp]
    exact mod_lt _ (by omega)
  obtain ⟨htwo,hwidth⟩ := fermat_exponent hmp hP
  have hdlt := mod_lt d (show 0 < mp.modulus.toNat - 1 by omega)
  rw [half,MontModulus.toNat_pow2Bits hmp (hlt _) (hlt _) (by omega) (by omega),htwo,hdx,
    toNat_reduce hmp,toNat_reduce hmp]
  have hcx : cBlind.toNat % mp.modulus.toNat ≡ c * r.toNat ^ e [MOD mp.modulus.toNat] := (mod_modEq _ _).trans hblind
  exact ((hcx.pow _).mul ((mod_modEq _ _).pow _)).trans (unblind_modEq hprime hP hed hr c)
end OnePrime
theorem garner {p q mp mq qinv : ℕ} (hinv : q * qinv ≡ 1 [MOD p]) (hmp : mp < p) (hmq : mq < q) :
    let h := (mp + (p - mq % p)) % p * qinv % p
    mq + q * h < p * q ∧ mq + q * h ≡ mp [MOD p] ∧ mq + q * h ≡ mq [MOD q] := by
  intro h
  have hp : 0 < p := Nat.zero_lt_of_lt hmp
  have hh : h < p := mod_lt _ hp
  refine ⟨?_,?_,?_⟩
  · calc mq + q * h < q * 1 + q * h := by omega
      _ = q * (h + 1) := by ring
      _ ≤ q * p := Nat.mul_le_mul_left _ hh
      _ = p * q := mul_comm _ _
  · have hle : mq % p ≤ p := (mod_lt _ hp).le
    calc mq + q * h ≡ mq + q * ((mp + (p - mq % p)) * qinv) [MOD p] :=
          ((((mod_modEq _ _).trans ((mod_modEq _ _).mul_right _))).mul_left q).add_left mq
      _ = mq + q * qinv * (mp + (p - mq % p)) := by ring
      _ ≡ mq + 1 * (mp + (p - mq % p)) [MOD p] := (hinv.mul_right _).add_left mq
      _ ≡ mq % p + 1 * (mp + (p - mq % p)) [MOD p] := (mod_modEq mq p).symm.add_right _
      _ = mp + p := by omega
      _ ≡ mp [MOD p] := by simp [Nat.ModEq]
  · simp [Nat.ModEq]

theorem usable_eq (r : Uint LIMBS) : usable r = decide (r.toNat % 2 = 1 ∧ 4 ≤ r.toNat) := by
  rw [usable,Uint.isOdd_eq,Uint.isZero_eq,Uint.toNat_shrBits,Bool.decide_and,← decide_not]
  refine congrArg _ (decide_eq_decide.mpr ?_)
  omega

structure FixedRsaCrt.For (crt : FixedRsaCrt LIMBS) (p q d : Uint LIMBS) : Prop where
  montP : crt.montP.Ready ∧ crt.montP.modulus = p
  montQ : crt.montQ.Ready ∧ crt.montQ.modulus = q
  dp : crt.dp.toNat = d.toNat % (p.toNat - 1)
  dq : crt.dq.toNat = d.toNat % (q.toNat - 1)
  qinv : crt.qinv.toNat < p.toNat ∧ q.toNat * crt.qinv.toNat ≡ 1 [MOD p.toNat]

theorem prime_odd {p : ℕ} (hp : p.Prime) (h : 5 ≤ p) : p % 2 = 1 := by
  rcases hp.eq_two_or_odd with heq | hodd
  · omega
  · exact hodd

theorem toNat_wrappingSub_one {x : Uint LIMBS} (h : 5 ≤ x.toNat) : (x.wrappingSub .one).toNat = x.toNat - 1 :=
  toNat_wrappingSub_small 1#64 (Uint.limbs_pos (show 0 < x.toNat by omega)) (show 1 ≤ x.toNat by omega)

theorem qinv_spec {mp : MontModulus LIMBS} (hmp : mp.Ready) (hprime : mp.modulus.toNat.Prime) (hP : 5 ≤ mp.modulus.toNat)
    {q : Uint LIMBS} (hcop : q.toNat.Coprime mp.modulus.toNat) :
    let qinv := mp.powBits (mp.reduce q) (mp.modulus.wrappingSub (.fromU64 2#64)) (64 * mp.limbs)
    qinv.toNat < mp.modulus.toNat ∧ q.toNat * qinv.toNat ≡ 1 [MOD mp.modulus.toNat] := by
  intro qinv
  have hwidth := hmp.width_pos
  obtain ⟨htwo,hlt⟩ := fermat_exponent hmp hP
  have hreduce := toNat_reduce hmp q
  have hvalue : qinv.toNat = q.toNat ^ (mp.modulus.toNat - 2) % mp.modulus.toNat := by
    have hpow := @MontModulus.toNat_powBits LIMBS mp (mp.reduce q) hmp (by rw [hreduce]; exact mod_lt _ (by omega))
      (mp.modulus.wrappingSub (.fromU64 2#64)) (64 * mp.limbs)
    rw [htwo,show 4 * max ((64 * mp.limbs + 3) / 4) 1 = 64 * mp.limbs by omega,Nat.mod_eq_of_lt (show
      mp.modulus.toNat - 2 < 2 ^ (64 * mp.limbs) by omega),hreduce,← Nat.pow_mod] at hpow
    exact hpow
  refine ⟨by rw [hvalue]; exact mod_lt _ (by omega),?_⟩
  rw [hvalue]
  exact ((mod_modEq _ _).mul_left _).trans (mul_pow_sub_two_modEq hprime hcop)

theorem deriveCrtFixed_spec {p q : Uint LIMBS} (hp : p.toNat.Prime) (hq : q.toNat.Prime) (hp5 : 5 ≤ p.toNat)
    (hq5 : 5 ≤ q.toNat) (hpq : p ≠ q) (d : Uint LIMBS) :
    ∃ crt, deriveCrtFixed p q d = some (some crt) ∧ crt.For p q d := by
  have hpodd := prime_odd hp hp5
  have hqodd := prime_odd hq hq5
  have hp1 := toNat_wrappingSub_one hp5
  have hq1 := toNat_wrappingSub_one hq5
  obtain ⟨dp,hdp,hdpv⟩ := @Uint.toNat_reduce LIMBS d (p.wrappingSub .one) (by omega)
  obtain ⟨dq,hdq,hdqv⟩ := @Uint.toNat_reduce LIMBS d (q.wrappingSub .one) (by omega)
  obtain ⟨montP,hmontP,hreadyP,rfl,-⟩ := new_spec hpodd
  obtain ⟨montQ,hmontQ,hreadyQ,rfl,-⟩ := new_spec hqodd
  have hcop : montQ.modulus.toNat.Coprime montP.modulus.toNat :=
    (Nat.coprime_primes hq hp).mpr fun h => hpq (Uint.toNat_inj.mp h.symm)
  have hguard : (!usable montP.modulus || !usable montQ.modulus || montP.modulus.ctEq montQ.modulus) = false := by
    rw [usable_eq,usable_eq,Uint.ctEq_eq,decide_eq_true ⟨hpodd,by omega⟩,decide_eq_true ⟨hqodd,by omega⟩,
      decide_eq_false hpq]
    rfl
  refine ⟨⟨dp,dq,montP.powBits (montP.reduce montQ.modulus) (montP.modulus.wrappingSub (.fromU64 2#64))
    (64 * montP.limbs),montP,montQ⟩,?_,?_⟩
  · rw [deriveCrtFixed,if_neg (by rw [hguard]; decide),hdp,hdq,newSecret,hmontP,newSecret,hmontQ]
    rfl
  · exact ⟨⟨hreadyP,rfl⟩,⟨hreadyQ,rfl⟩,by rw [hdpv,hp1],by rw [hdqv,hq1],qinv_spec hreadyP hp hp5 hcop⟩

theorem toNat_phiNMinus1 {p q : Uint LIMBS} (hp5 : 5 ≤ p.toNat) (hq5 : 5 ≤ q.toNat)
    (hn : p.toNat * q.toNat < (2 ^ 64) ^ LIMBS) (d : Uint LIMBS) :
    (deriveBlinding H p q d).1.toNat = (p.toNat - 1) * (q.toNat - 1) - 1 := by
  have hp1 := toNat_wrappingSub_one hp5
  have hq1 := toNat_wrappingSub_one hq5
  have hone := Uint.toNat_one (Uint.limbs_pos (show 0 < p.toNat by omega))
  have hne : ∀ {x : Uint LIMBS}, 5 ≤ x.toNat → x.ctEq .zero = false := by
    intro x hx
    rw [Uint.ctEq_eq,decide_eq_false]
    intro hzero
    rw [hzero,Uint.toNat_zero] at hx
    omega
  have hphi : (((p.wrappingSub .one).mulWide (q.wrappingSub .one)).1).toNat = (p.toNat - 1) * (q.toNat - 1) := by
    rw [Uint.toNat_mulWide,hp1,hq1]
    rw [hp1,hq1]
    exact lt_of_le_of_lt (Nat.mul_le_mul (sub_le _ _) (sub_le _ _)) hn
  have hpos : 1 ≤ (p.toNat - 1) * (q.toNat - 1) := Nat.mul_pos (by omega) (by omega)
  rw [deriveBlinding,hne hp5,hne hq5]
  change (((p.wrappingSub .one).mulWide (q.wrappingSub .one)).1.wrappingSub .one).toNat = _
  rw [Uint.toNat_wrappingSub (by rw [hphi,hone]; exact hpos),hphi,hone]

theorem toNat_deriveBlinderFixed_lt {m : MontModulus LIMBS} (hm : m.Ready) (hn : 3 ≤ m.modulus.toNat)
    (seed : Vector UInt8 32) (nonce : BlindNonce) (c : Uint LIMBS) :
    (deriveBlinderFixed H m seed nonce c).toNat < m.modulus.toNat := by
  have htwo : (Uint.fromU64 2#64).toNat = 2 := Uint.toNat_fromU64 2#64 hm.limbs_pos
  rw [deriveBlinderFixed,Uint.conditionalSelect_eq]
  split_ifs
  · omega
  · rw [toNat_reduce hm]
    exact mod_lt _ (by omega)
section Operation
variable {n e d p q : Uint LIMBS}
/-- The primes and the exponents of a key, and its modulus. -/
structure IsKey (n e d p q : Uint LIMBS) : Prop where
  prime_p : p.toNat.Prime
  prime_q : q.toNat.Prime
  five_le_p : 5 ≤ p.toNat
  five_le_q : 5 ≤ q.toNat
  ne : p ≠ q
  modulus : n.toNat = p.toNat * q.toNat
  inverse : e.toNat * d.toNat ≡ 1 [MOD Nat.lcm (p.toNat - 1) (q.toNat - 1)]
section
variable (h : IsKey n e d p q)
include h
theorem IsKey.coprime : p.toNat.Coprime q.toNat :=
  (Nat.coprime_primes h.prime_p h.prime_q).mpr fun heq => h.ne (Uint.toNat_inj.mp heq)

theorem IsKey.inverse_p : e.toNat * d.toNat ≡ 1 [MOD p.toNat - 1] :=
  h.inverse.of_dvd (Nat.dvd_lcm_left _ _)
theorem IsKey.inverse_q : e.toNat * d.toNat ≡ 1 [MOD q.toNat - 1] :=
  h.inverse.of_dvd (Nat.dvd_lcm_right _ _)

theorem IsKey.eq_mod {x y : ℕ} (hx : x < n.toNat) (hp : x ≡ y [MOD p.toNat])
    (hq : x ≡ y [MOD q.toNat]) : x = y % n.toNat := by
  have hmod : x ≡ y [MOD n.toNat] := by
    rw [h.modulus]
    exact (Nat.modEq_and_modEq_iff_modEq_mul h.coprime).mp ⟨hp,hq⟩
  rw [← hmod,Nat.mod_eq_of_lt hx]

theorem IsKey.coprime_factors {r : ℕ} (hr : r.Coprime n.toNat) : r.Coprime p.toNat ∧ r.Coprime q.toNat := by
  rw [h.modulus] at hr
  exact ⟨hr.coprime_mul_right_right,hr.coprime_mul_left_right⟩

/-- The power undoes the public exponent, whatever the ciphertext shares with the modulus. -/
theorem IsKey.pow_pow {c : ℕ} (hc : c < n.toNat) : (c ^ d.toNat % n.toNat) ^ e.toNat % n.toNat = c := by
  rw [← Nat.pow_mod,← pow_mul,mul_comm]
  exact (h.eq_mod hc (pow_mul_modEq h.prime_p h.five_le_p h.inverse_p c).symm
    (pow_mul_modEq h.prime_q h.five_le_q h.inverse_q c).symm).symm
end
variable {mont : MontModulus LIMBS} {seed : Vector UInt8 32} {nonce : BlindNonce} {c : Uint LIMBS}
theorem blind_modEq (hm : mont.Ready) {r : Uint LIMBS} (hr : r.toNat < mont.modulus.toNat) (hc : c.toNat < mont.modulus.toNat) :
    (mont.mulMod c (mont.powPublic r e)).toNat < mont.modulus.toNat ∧
      (mont.mulMod c (mont.powPublic r e)).toNat ≡ c.toNat * r.toNat ^ e.toNat [MOD mont.modulus.toNat] := by
  have hpow := toNat_powPublic hm hr e
  have hlt : (mont.powPublic r e).toNat < mont.modulus.toNat := by
    rw [hpow]
    exact mod_lt _ (by omega)
  rw [toNat_mulMod hm hc hlt,hpow]
  exact ⟨mod_lt _ (by omega),(mod_modEq _ _).trans ((mod_modEq _ _).mul_left _)⟩

theorem toNat_rawPrivateBlinded (h : IsKey n e d p q) (hm : mont.Ready) (hmod : mont.modulus = n) {phi : Uint LIMBS}
    (hphi : phi.toNat = (p.toNat - 1) * (q.toNat - 1) - 1) (hc : c.toNat < n.toNat)
    (hcop : (deriveBlinderFixed H mont seed nonce c).toNat.Coprime n.toNat) :
    (rawPrivateBlinded H mont e d phi seed nonce c).toNat = c.toNat ^ d.toNat % n.toNat := by
  have hp5 := h.five_le_p
  have hq5 := h.five_le_q
  have hbig : 4 * 4 ≤ (p.toNat - 1) * (q.toNat - 1) := Nat.mul_le_mul (by omega) (by omega)
  have hn : 5 * 5 ≤ n.toNat := by
    rw [h.modulus]
    exact Nat.mul_le_mul hp5 hq5
  have hzero : phi.ctEq .zero = false := by
    rw [Uint.ctEq_eq,decide_eq_false]
    intro hz
    rw [hz,Uint.toNat_zero] at hphi
    omega
  subst hmod
  have hr := toNat_deriveBlinderFixed_lt (H := H) hm (by omega) seed nonce c
  obtain ⟨hblt,hblind⟩ := blind_modEq (e := e) hm hr hc
  obtain ⟨hrp,hrq⟩ := h.coprime_factors hcop
  rw [rawPrivateBlinded,hzero,if_neg (by decide),toNat_pow2 hm hblt hr,hphi]
  generalize (deriveBlinderFixed H mont seed nonce c).toNat = r at *
  have hpq : p.toNat ∣ mont.modulus.toNat ∧ q.toNat ∣ mont.modulus.toNat := by
    rw [h.modulus]
    exact ⟨Nat.dvd_mul_right _ _,Nat.dvd_mul_left _ _⟩
  have hjoint := (hblind.pow d.toNat).mul_right (r ^ ((p.toNat - 1) * (q.toNat - 1) - 1))
  refine h.eq_mod (mod_lt _ (by omega)) ?_ ?_
  · refine ((mod_modEq _ _).of_dvd hpq.1).trans ((hjoint.of_dvd hpq.1).trans ?_)
    exact unblind_totient_modEq h.prime_p hp5 h.inverse_p hrp c.toNat (by omega)
  · refine ((mod_modEq _ _).of_dvd hpq.2).trans ((hjoint.of_dvd hpq.2).trans ?_)
    rw [mul_comm (p.toNat - 1)]
    exact unblind_totient_modEq h.prime_q hq5 h.inverse_q hrq c.toNat (by omega)

theorem toNat_rawPrivateCrtBlinded {key : RsaPrivateKey LIMBS} (h : IsKey key.n key.e key.d key.p key.q) (hm : mont.Ready)
    (hmod : mont.modulus = key.n) {crt : FixedRsaCrt LIMBS} (hcrt : crt.For key.p key.q key.d) (hc : c.toNat < key.n.toNat)
    (hcop : (deriveBlinderFixed H mont key.blindingSeed nonce c).toNat.Coprime key.n.toNat) :
    (rawPrivateCrtBlinded H key mont crt nonce c).toNat = c.toNat ^ key.d.toNat % key.n.toNat := by
  have hp5 := h.five_le_p
  have hq5 := h.five_le_q
  have hn : 5 * 5 ≤ key.n.toNat := by
    rw [h.modulus]
    exact Nat.mul_le_mul hp5 hq5
  have hr := toNat_deriveBlinderFixed_lt (H := H) hm (by rw [hmod]; omega) key.blindingSeed nonce c
  obtain ⟨-,hblind⟩ := blind_modEq (e := key.e) hm hr (by rw [hmod]; exact hc)
  obtain ⟨hrp,hrq⟩ := h.coprime_factors hcop
  have hpq : key.p.toNat ∣ mont.modulus.toNat ∧ key.q.toNat ∣ mont.modulus.toNat := by
    rw [hmod,h.modulus]
    exact ⟨Nat.dvd_mul_right _ _,Nat.dvd_mul_left _ _⟩
  have hhalfP := toNat_half hcrt.montP.1 hcrt.montP.2 h.prime_p hp5 hcrt.dp h.inverse_p hrp (hblind.of_dvd hpq.1)
  have hhalfQ := toNat_half hcrt.montQ.1 hcrt.montQ.2 h.prime_q hq5 hcrt.dq h.inverse_q hrq (hblind.of_dvd hpq.2)
  rw [rawPrivateCrtBlinded]
  generalize deriveBlinderFixed H mont key.blindingSeed nonce c = r at *
  generalize mont.mulMod c (mont.powPublic r key.e) = cBlind at *
  generalize half cBlind r crt.montP key.p crt.dp = mP at *
  generalize half cBlind r crt.montQ key.q crt.dq = mQ at *
  have hmP : mP.toNat < key.p.toNat := by
    rw [hhalfP]
    exact mod_lt _ (by omega)
  have hmQ : mQ.toNat < key.q.toNat := by
    rw [hhalfQ]
    exact mod_lt _ (by omega)
  -- the difference and its product with the inverse, as numbers
  obtain ⟨hready,hmodP⟩ := hcrt.montP
  have hreduce := toNat_reduce hready mQ
  rw [hmodP] at hreduce ⊢
  have hreduceLt : (crt.montP.reduce mQ).toNat < key.p.toNat := by
    rw [hreduce]
    exact mod_lt _ (by omega)
  have hdiff := toNat_subMod hmP hreduceLt
  have hdiffLt : (subMod key.p mP (crt.montP.reduce mQ)).toNat < key.p.toNat := by
    rw [hdiff]
    exact mod_lt _ (by omega)
  have hh := toNat_mulMod hready (a := subMod key.p mP (crt.montP.reduce mQ)) (b := crt.qinv)
    (by rw [hmodP]; exact hdiffLt) (by rw [hmodP]; exact hcrt.qinv.1)
  rw [hmodP,hdiff,hreduce] at hh
  obtain ⟨hlt,hgp,hgq⟩ := garner hcrt.qinv.2 hmP hmQ
  rw [← hh,← h.modulus] at hlt
  rw [← hh] at hgp hgq
  have hwidth := key.n.toNat_lt
  have hwide := Uint.toNat_mulWide (x := key.q) (y := crt.montP.mulMod (subMod key.p mP (crt.montP.reduce mQ)) crt.qinv) (by omega)
  rw [Uint.toNat_wrappingAdd (by omega),hwide]
  refine h.eq_mod hlt (hgp.trans ?_) (hgq.trans ?_)
  · rw [hhalfP]
    exact mod_modEq _ _
  · rw [hhalfQ]
    exact mod_modEq _ _

theorem fromComponentsWithPrimes_spec (h : IsKey n e d p q) (freshSalt : Vector UInt8 16) :
    ∃ key mont crt, fromComponentsWithPrimes H freshSalt n e d p q = some key ∧ key.n = n ∧ key.e = e ∧
      key.d = d ∧ key.p = p ∧ key.q = q ∧ key.phiNMinus1.toNat = (p.toNat - 1) * (q.toNat - 1) - 1 ∧
      key.mont = some mont ∧ mont.Ready ∧ mont.modulus = n ∧ key.crt = some crt ∧ crt.For p q d := by
  obtain ⟨crt,hcrt,hfor⟩ := deriveCrtFixed_spec h.prime_p h.prime_q h.five_le_p h.five_le_q h.ne d
  have hodd : n.toNat % 2 = 1 := by
    rw [h.modulus,Nat.mul_mod,prime_odd h.prime_p h.five_le_p,prime_odd h.prime_q h.five_le_q]
  obtain ⟨mont,hmont,hready,hmod,-⟩ := new_spec hodd
  have hphi := toNat_phiNMinus1 (H := H) h.five_le_p h.five_le_q (by rw [← h.modulus]; exact n.toNat_lt) d
  refine ⟨⟨n,e,d,p,q,(deriveBlinding H p q d).1,(deriveBlinding H p q d).2,0,freshSalt,some mont,some crt⟩,
    mont,crt,?_,rfl,rfl,rfl,rfl,rfl,hphi,rfl,hready,hmod,rfl,hfor⟩
  rw [fromComponentsWithPrimes,hcrt,montFor,n.isOdd_eq,decide_eq_true hodd,hmont]
  rfl

/-- The operation of a key made from its primes, for every seed, counter and salt it may hold. -/
theorem raw_eq_pow (H : Hashes) (freshSalt : Vector UInt8 16) (h : IsKey n e d p q) :
    ∃ key mont crt, RsaPrivateKey.fromComponentsWithPrimes H freshSalt n e d p q = some key ∧ key.mont = some mont ∧
      key.crt = some crt ∧
      ∀ (seed : Vector UInt8 32) (counter : BitVec 32) (salt : Vector UInt8 16) (osEntropy : Option (Vector UInt8 16))
        (c : Uint LIMBS), c.toNat < n.toNat →
        let key' := { key with blindingSeed := seed, blindCounter := counter, blindSalt := salt }
        let nonce : BlindNonce := ⟨counter,perOpBlindSalt osEntropy salt⟩
        (deriveBlinderFixed H mont seed nonce c).toNat.Coprime n.toNat →
        (rawPrivateCrtBlinded H key' mont crt nonce c).toNat = c.toNat ^ d.toNat % n.toNat ∧
        mont.powPublic (rawPrivateCrtBlinded H key' mont crt nonce c) e = c ∧
        (rawPrivateBlinded H mont e d key.phiNMinus1 seed nonce c).toNat = c.toNat ^ d.toNat % n.toNat ∧
        RsaPrivateKey.raw H osEntropy key' c =
          some (rawPrivateCrtBlinded H key' mont crt nonce c, { key' with blindCounter := counter + 1 }) ∧
        RsaPrivateKey.raw H osEntropy { key' with crt := none } c =
          some (rawPrivateBlinded H mont e d key.phiNMinus1 seed nonce c,
            { key' with blindCounter := counter + 1, crt := none }) := by
  obtain ⟨key,mont,crt,hkey,rfl,rfl,rfl,rfl,rfl,hphi,hmont,hready,hmod,hcrt,hfor⟩ :=
    fromComponentsWithPrimes_spec (H := H) h freshSalt
  refine ⟨key,mont,crt,hkey,hmont,hcrt,fun seed counter salt osEntropy c hc => ?_⟩
  intro key' nonce hcop
  have hresult := @toNat_rawPrivateCrtBlinded LIMBS H mont nonce c key' h hready hmod crt hfor hc hcop
  have hfull := toNat_rawPrivateBlinded h hready hmod hphi hc hcop
  have hlt : (rawPrivateCrtBlinded H key' mont crt nonce c).toNat < mont.modulus.toNat := by
    rw [hresult,hmod]
    exact mod_lt _ (Nat.zero_lt_of_lt hc)
  have hcheck : mont.powPublic (rawPrivateCrtBlinded H key' mont crt nonce c) key.e = c := by
    rw [← Uint.toNat_inj,toNat_powPublic hready hlt,hresult,hmod]
    exact h.pow_pow hc
  refine ⟨hresult,hcheck,hfull,?_,?_⟩
  · have hbelow : c.ctLt key'.n = true := by
      rw [Uint.ctLt_eq]
      exact decide_eq_true hc
    have hequal : (mont.powPublic (rawPrivateCrtBlinded H key' mont crt nonce c) key'.e).ctEq c = true := by
      rw [Uint.ctEq_eq]
      exact decide_eq_true hcheck
    simp only [RsaPrivateKey.raw,show key'.mont = some mont from hmont,show key'.crt = some crt from hcrt,
      bind_eq_bind,bind_some,hbelow,if_true]
    exact if_pos hequal
  · simp only [RsaPrivateKey.raw,show key'.mont = some mont from hmont,bind_eq_bind,bind_some]
    rfl

/-- Hashes that are the same for every input. -/
private def constantHashes : Hashes := ⟨fun _ => Vector.replicate 32 0, fun _ _ => Vector.replicate 32 3⟩

/-- A key of the primes five and seven, with its exponents. -/
theorem raw_eq_pow_thirtyFive :
    ∃ key, RsaPrivateKey.fromComponentsWithPrimes constantHashes (Vector.replicate 16 0) (.fromU64 35#64 : Uint 1)
        (.fromU64 5#64) (.fromU64 5#64) (.fromU64 5#64) (.fromU64 7#64) = some key ∧
      (RsaPrivateKey.raw constantHashes none key (.fromU64 3#64)).map (fun r => r.1.toNat) = some 33 := by
  have hkey : IsKey (.fromU64 35#64 : Uint 1) (.fromU64 5#64) (.fromU64 5#64) (.fromU64 5#64) (.fromU64 7#64) :=
    ⟨show Nat.Prime 5 by decide,show Nat.Prime 7 by decide,by decide +kernel,by decide +kernel,by decide +kernel,
      by decide +kernel,by decide +kernel⟩
  obtain ⟨key,mont,crt,hfrom,hmont,-,hraw⟩ := raw_eq_pow constantHashes (Vector.replicate 16 0) hkey
  have hcop : ((fromComponentsWithPrimes constantHashes (Vector.replicate 16 0) (.fromU64 35#64 : Uint 1)
      (.fromU64 5#64) (.fromU64 5#64) (.fromU64 5#64) (.fromU64 7#64)).bind fun key => key.mont.map fun mont =>
        decide ((deriveBlinderFixed constantHashes mont key.blindingSeed
          ⟨key.blindCounter,perOpBlindSalt none key.blindSalt⟩ (.fromU64 3#64)).toNat.Coprime 35)) = some true := by
    decide +kernel
  rw [hfrom,bind_some,hmont,map_some,some_inj,decide_eq_true_eq] at hcop
  obtain ⟨hvalue,-,-,hresult,-⟩ :=
    hraw key.blindingSeed key.blindCounter key.blindSalt none (.fromU64 3#64) (by decide +kernel) hcop
  refine ⟨key,hfrom,?_⟩
  rw [hresult,map_some,hvalue]
  decide +kernel
end Operation
end PureCrypto.Rsa
