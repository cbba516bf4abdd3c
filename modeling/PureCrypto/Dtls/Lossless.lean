import PureCrypto.Framework.Fragments
import PureCrypto.Framework.Trace
import PureCrypto.Dtls.Reassembly

/-! # Reassembly of an honest flight -/
namespace PureCrypto.Dtls
open Fragments List Nat
open SortedMap (mem_insert get?_insert_self get?_retain)
structure Message where
  msgType : UInt8
  body : List UInt8
  deriving DecidableEq
namespace Message
def key (m : Message) (seq : Nat) : CandidateKey := ⟨seq, m.msgType, m.body.length⟩

def fragment (m : Message) (seq offset length : Nat) : HandshakeFragment where
  msgType := m.msgType
  totalLength := m.body.length
  messageSeq := seq
  fragmentOffset := offset
  fragment := (m.body.drop offset).take length
  len := headerLen + length

def wire (m : Message) (seq offset length : Nat) : List UInt8 :=
  writeFragmentHeader m.msgType m.body.length seq offset length ++ (m.body.drop offset).take length
end Message
theorem byte_toNat (v : Nat) : (UInt8.ofNat (v &&& 0xff)).toNat = v % 256 := by
  have hmod : v &&& 0xff = v % 256 := and_two_pow_sub_one_eq_mod v 8
  rw [UInt8.toNat_ofNat']
  omega

theorem two_bytes (v : Nat) (h : v < 2 ^ 16) :
    ((UInt8.ofNat ((v >>> 8) &&& 0xff)).toNat <<< 8) ||| (UInt8.ofNat (v &&& 0xff)).toNat = v := by
  rw [byte_toNat,byte_toNat,← shiftLeft_add_eq_or_of_lt (by omega)]
  omega

theorem u24Be_putU24 (v : Nat) (h : v < 2 ^ 24) :
    u24Be (UInt8.ofNat ((v >>> 16) &&& 0xff)) (UInt8.ofNat ((v >>> 8) &&& 0xff)) (UInt8.ofNat (v &&& 0xff)) = v := by
  unfold u24Be
  rw [byte_toNat,byte_toNat,byte_toNat]
  have hhigh : (v >>> 16 % 256) <<< 16 ||| (v >>> 8 % 256) <<< 8 =
      (v >>> 16 % 256 * 256 + v >>> 8 % 256) <<< 8 := by
    rw [← shiftLeft_add_eq_or_of_lt]
    · omega
    · omega
  rw [hhigh,← shiftLeft_add_eq_or_of_lt (by omega)]
  omega

theorem readFragment_wire (m : Message) {seq offset length : Nat} (hseq : seq < 2 ^ 16)
    (hbody : m.body.length < 2 ^ 24) (hfit : offset + length ≤ m.body.length) :
    readFragment (m.wire seq offset length) = .ok (m.fragment seq offset length) := by
  have hlen : ((m.body.drop offset).take length).length = length := by
    rw [length_take,length_drop]
    omega
  have hshort : ¬ ((m.body.drop offset).take length).length < length := by omega
  have hin : ¬ m.body.length < offset + length := by omega
  have htake : ((m.body.drop offset).take length).take length = (m.body.drop offset).take length := by
    rw [take_take,min_self]
  simp only [Message.wire,writeFragmentHeader,putU24,cons_append,nil_append,
    readFragment,u24Be_putU24 _ hbody,u24Be_putU24 offset (by omega),
    u24Be_putU24 length (by omega),two_bytes seq hseq,if_neg hshort,if_neg hin,htake,
    Message.fragment]

theorem fragmentsFrom_cuts (m : Message) (seq : Nat) {chunk : Nat} (hchunk : 1 ≤ chunk)
    (fuel offset : Nat) (hfuel : m.body.length - offset ≤ fuel) :
    (∀ w ∈ fragmentsFrom m.msgType seq m.body chunk fuel offset, ∃ o n, o + n ≤ m.body.length ∧ w = m.wire seq o n) ∧
    ∀ x, offset ≤ x → x < m.body.length → ∃ o n, o ≤ x ∧ x < o + n ∧ o + n ≤ m.body.length ∧
      m.wire seq o n ∈ fragmentsFrom m.msgType seq m.body chunk fuel offset := by
  induction fuel generalizing offset with
  | zero =>
    refine ⟨nofun,fun x hle hlt => ?_⟩
    omega
  | succ fuel ih =>
    rw [fragmentsFrom]
    split_ifs with hmore
    · obtain ⟨hcut,hcover⟩ := ih (offset + min chunk (m.body.length - offset)) (by omega)
      constructor
      · exact List.forall_mem_cons.mpr ⟨⟨offset,min chunk (m.body.length - offset),by omega,rfl⟩,hcut⟩
      · intro x hle hlt
        by_cases hx : x < offset + min chunk (m.body.length - offset)
        · exact ⟨offset,_,hle,hx,by omega,mem_cons_self⟩
        · obtain ⟨o,n,hox,hxn,hfit,hw⟩ := hcover x (not_lt.mp hx) hlt
          exact ⟨o,n,hox,hxn,hfit,mem_cons_of_mem _ hw⟩
    · refine ⟨nofun,fun x hle hlt => ?_⟩
      omega

theorem writeFragments_cuts (m : Message) (seq size : Nat) : (∀ w ∈ writeFragments m.msgType seq m.body size,
      ∃ o n, o + n ≤ m.body.length ∧ w = m.wire seq o n) ∧
    (∀ x < m.body.length, ∃ o n, o ≤ x ∧ x < o + n ∧ o + n ≤ m.body.length ∧
      m.wire seq o n ∈ writeFragments m.msgType seq m.body size) ∧ ∃ o n, o + n ≤ m.body.length ∧
      m.wire seq o n ∈ writeFragments m.msgType seq m.body size := by
  unfold writeFragments
  by_cases hempty : m.body.length = 0
  · rw [if_pos hempty]
    have hone : m.wire seq 0 0 = writeFragmentHeader m.msgType 0 seq 0 0 := by
      simp [Message.wire,hempty]
    refine ⟨?_,fun x hx => by omega,0,0,by omega,by rw [hone]; exact mem_singleton_self _⟩
    intro w hw
    rw [List.mem_singleton.mp hw]
    exact ⟨0,0,by omega,hone.symm⟩
  · rw [if_neg hempty]
    have hchunk : 1 ≤ if size = 0 ∨ m.body.length ≤ size then max m.body.length 1 else size := by
      split_ifs <;> omega
    obtain ⟨hcut,hcover⟩ := fragmentsFrom_cuts m seq hchunk m.body.length 0 (by omega)
    obtain ⟨o,n,-,-,hfirst⟩ := hcover 0 (le_refl _) (pos_of_ne_zero hempty)
    exact ⟨hcut,fun x hx => hcover x (zero_le x) hx,o,n,hfirst⟩

/-- The candidate has the bytes of `m` at the offsets in `R`, and no others. -/
structure PartialMessage.Holds (m : Message) (R : Nat → Prop) (p : PartialMessage) : Prop where
  booked : p.Booked
  type_eq : p.msgType = m.msgType
  total_eq : p.totalLength = m.body.length
  received : ∀ x < m.body.length, p.isReceived x = true ↔ R x
  bytes : ∀ x < m.body.length, p.isReceived x = true → p.buf[x]? = m.body[x]?
namespace PartialMessage.Holds
variable {m : Message} {R : Nat → Prop} {p : PartialMessage}
theorem new (m : Message) (admittedAt : Nat) :
    (PartialMessage.new m.msgType m.body.length admittedAt).Holds m (fun _ => False) where
  booked := booked_new _ _ _
  type_eq := rfl
  total_eq := rfl
  received := by simp [isReceived_new]
  bytes := by simp [isReceived_new]
variable (h : p.Holds m R)
include h
theorem congr {R' : Nat → Prop} (hR : ∀ x < m.body.length, R x ↔ R' x) : p.Holds m R' :=
  { h with received := fun x hx => (h.received x hx).trans (hR x hx) }

theorem buf_length : p.buf.length = m.body.length := h.booked.length.trans h.total_eq

theorem conflicts (bs : List UInt8) (idx : Nat) (hbs : bs <+: m.body.drop idx) : p.conflicts idx bs = false := by
  induction bs generalizing idx with
  | nil => rfl
  | cons b rest ih =>
    obtain ⟨hb,hrest⟩ := slice_cons hbs
    have hidx : idx < m.body.length := (List.getElem?_eq_some_iff.mp hb).1
    rw [PartialMessage.conflicts,ih (idx + 1) hrest]
    cases hset : p.isReceived idx with
    | false => rfl
    | true => simp [h.bytes idx hidx hset,hb]

theorem store {bs : List UInt8} {idx : Nat} (hfit : idx + bs.length ≤ m.body.length) (hbs : bs <+: m.body.drop idx) :
    (p.store idx bs).2.Holds m (fun x => R x ∨ (idx ≤ x ∧ x < idx + bs.length)) := by
  obtain ⟨hbooked,hkeeps,htype,htotal,hset,hnew⟩ := store_spec h.booked bs (h.total_eq ▸ hfit)
  refine ⟨hbooked,htype.trans h.type_eq,htotal.trans h.total_eq,fun x hx => ⟨fun hq => ?_,fun hR => ?_⟩,fun x hx hq => ?_⟩
  · exact (hnew x hq).imp (h.received x hx).mp fun hin => ⟨hin.1,hin.2.1⟩
  · rcases hR with hR | ⟨hle,hlt⟩
    · exact (hkeeps x ((h.received x hx).mpr hR)).1
    · exact hset x hle hlt
  · rcases hnew x hq with hold | ⟨hle,hlt,hbyte⟩
    · exact (hkeeps x hold).2.trans (h.bytes x hx hold)
    · obtain ⟨rest,hrest⟩ := hbs
      obtain ⟨y,rfl⟩ := Nat.exists_eq_add_of_le hle
      rw [hbyte,Nat.add_sub_cancel_left,← getElem?_drop,← hrest,getElem?_append_left (by omega)]

theorem isComplete_iff : p.isComplete = true ↔ ∀ x < m.body.length, R x := by
  rw [isComplete,beq_iff_eq,h.booked.count,h.total_eq,Bitmap.count_eq_iff]
  exact forall₂_congr h.received

theorem buf_eq (hall : ∀ x < m.body.length, R x) : p.buf = m.body := by
  apply ext_getElem?
  intro x
  by_cases hx : x < m.body.length
  · exact h.bytes x hx ((h.received x hx).mpr (hall x hx))
  · rw [getElem?_eq_none (not_lt.mp hx),getElem?_eq_none (by rw [h.buf_length]; omega)]
end PartialMessage.Holds
/-- At most eight consecutive messages, none longer than a message may be. -/
structure Flight where
  base : Nat
  messages : List Message
  few : messages.length ≤ 8
  seqs : base + messages.length ≤ 2 ^ 16
  short : ∀ m ∈ messages, m.body.length ≤ maxMessageLen

/-- Which bytes of which message a fragment has. -/
structure Piece where
  index : Nat
  offset : Nat
  length : Nat
  deriving DecidableEq

def Touched (ds : List Piece) (j : Nat) : Prop := ∃ d ∈ ds, d.index = j
def Delivered (ds : List Piece) (j x : Nat) : Prop :=
  ∃ d ∈ ds, d.index = j ∧ d.offset ≤ x ∧ x < d.offset + d.length
theorem touched_cons (ds : List Piece) (d : Piece) (j : Nat) : Touched (d :: ds) j ↔ d.index = j ∨ Touched ds j := by
  simp [Touched]

theorem delivered_cons (ds : List Piece) (d : Piece) (j x : Nat) : Delivered (d :: ds) j x ↔
      (d.index = j ∧ d.offset ≤ x ∧ x < d.offset + d.length) ∨ Delivered ds j x := by
  simp [Delivered]
namespace Flight
def numbered (f : Flight) : List (Nat × UInt8 × List UInt8) :=
  f.messages.mapIdx fun j m => (f.base + j, m.msgType, m.body)

def Has (f : Flight) (d : Piece) : Prop :=
  ∃ m, f.messages[d.index]? = some m ∧ d.offset + d.length ≤ m.body.length
def Arrived (f : Flight) (ds : List Piece) (j : Nat) : Prop :=
  ∀ m, f.messages[j]? = some m → Touched ds j ∧ ∀ x < m.body.length, Delivered ds j x

/-- The first `k` messages are out, and the candidates hold what arrived of the others. -/
structure Tracks (f : Flight) (k : Nat) (ds : List Piece) (r : Reassembler) : Prop where
  len_limit : r.maxMessageLen = maxMessageLen
  count_limit : r.maxInProgress = maxInProgress
  dispatches : r.fifoEviction = false
  le : k ≤ f.messages.length
  expected : r.expectedMsgSeq = (f.base + k) % 2 ^ 16
  only : ∀ e ∈ r.inProgress.entries, ∃ j m, k ≤ j ∧ f.messages[j]? = some m ∧
    e.1 = m.key (f.base + j) ∧ Touched ds j ∧ e.2.Holds m (Delivered ds j)
  has : ∀ j m, k ≤ j → f.messages[j]? = some m → Touched ds j →
    ∃ p, r.inProgress.get? (m.key (f.base + j)) = some p
variable {f : Flight} {k j j' : Nat} {ds : List Piece} {r : Reassembler} {m m' : Message} {d : Piece}
  {p : PartialMessage}
theorem lt_of_get (h : f.messages[j]? = some m) : j < f.messages.length :=
  (List.getElem?_eq_some_iff.mp h).1

theorem key_unique (hm : f.messages[j]? = some m) (hm' : f.messages[j']? = some m')
    (h : (m.key (f.base + j)).messageSeq = (m'.key (f.base + j')).messageSeq) : j = j' ∧ m = m' := by
  have hj : j = j' := Nat.add_left_cancel h
  subst hj
  exact ⟨rfl,Option.some.inj (hm.symm.trans hm')⟩
section
variable (h : f.Tracks k ds r)
include h
theorem Tracks.expected_eq (hk : k < f.messages.length) : r.expectedMsgSeq = f.base + k := by
  have hseqs := f.seqs
  rw [h.expected]
  omega

theorem Tracks.holds (hm : f.messages[j]? = some m) (hp : r.inProgress.get? (m.key (f.base + j)) = some p) :
    Touched ds j ∧ p.Holds m (Delivered ds j) := by
  obtain ⟨j',m',-,hm',hkey,htouched,hholds⟩ :=
    h.only _ ((r.inProgress.get?_eq_some_iff _ _).mp hp)
  obtain ⟨rfl,rfl⟩ := key_unique hm hm' (congrArg _ hkey)
  exact ⟨htouched,hholds⟩

/-- Every candidate is one of the messages due, so there is room for another one. -/
theorem Tracks.room (hm : f.messages[j]? = some m) (hnew : r.inProgress.get? (m.key (f.base + j)) = none) :
    r.inProgress.length < maxInProgress := by
  have hseqs : ∀ e ∈ r.inProgress.entries, e.1.messageSeq ≠ f.base + j ∧ f.base ≤ e.1.messageSeq ∧
      e.1.messageSeq < f.base + f.messages.length := by
    intro e he
    obtain ⟨j',m',-,hm',hkey,-,-⟩ := h.only e he
    have hlt := lt_of_get hm'
    rw [hkey]
    refine ⟨?_,Nat.le_add_right _ _,Nat.add_lt_add_left hlt _⟩
    intro hsame
    obtain ⟨rfl,rfl⟩ := key_unique hm' hm hsame
    exact (SortedMap.get?_eq_none_iff _ _).mp hnew e he hkey
  have hnodup : ((r.inProgress.entries.map fun e => e.1.messageSeq)).Nodup := by
    refine List.Nodup.map_on ?_ r.inProgress.entries_nodup
    intro e he e' he' hsame
    obtain ⟨i,a,-,ha,hkey,-,-⟩ := h.only e he
    obtain ⟨i',a',-,ha',hkey',-,-⟩ := h.only e' he'
    rw [hkey,hkey'] at hsame
    obtain ⟨rfl,rfl⟩ := key_unique ha ha' hsame
    have hkeys : e.1 = e'.1 := hkey.trans hkey'.symm
    exact Prod.ext hkeys (r.inProgress.value_unique he (hkeys ▸ he'))
  have hcons : ((f.base + j) :: r.inProgress.entries.map fun e => e.1.messageSeq).Nodup := by
    refine nodup_cons.mpr ⟨?_,hnodup⟩
    intro hmem
    obtain ⟨e,he,hseq⟩ := List.mem_map.mp hmem
    exact (hseqs e he).1 hseq
  have hsub : ((f.base + j) :: r.inProgress.entries.map fun e => e.1.messageSeq) ⊆
      List.range' f.base f.messages.length := by
    intro x hx
    have hlt := lt_of_get hm
    rw [mem_range'_1]
    rcases List.mem_cons.mp hx with rfl | hx
    · omega
    · obtain ⟨e,he,rfl⟩ := List.mem_map.mp hx
      exact (hseqs e he).2
  have hlen := (subperm_of_subset hcons hsub).length_le
  have hfew := f.few
  rw [length_cons,length_map,length_range'] at hlen
  unfold SortedMap.length maxInProgress
  omega

theorem Tracks.dispatch (hm : f.messages[k]? = some m)
    (hp : r.inProgress.get? (m.key (f.base + k)) = some p) (hcomplete : p.isComplete = true) :
    (r.dispatch (m.key (f.base + k)) p).1 = some (m.msgType, m.body) ∧
      f.Tracks (k + 1) ds (r.dispatch (m.key (f.base + k)) p).2 := by
  obtain ⟨-,hholds⟩ := h.holds hm hp
  have hlt := lt_of_get hm
  have hbody := hholds.buf_eq (hholds.isComplete_iff.mp hcomplete)
  have hnext : (r.expectedMsgSeq + 1) % 2 ^ 16 = (f.base + (k + 1)) % 2 ^ 16 := by
    rw [h.expected_eq hlt,add_assoc]
  have honly : ∀ e ∈ (r.inProgress.erase (m.key (f.base + k))).entries, ∃ j m, k + 1 ≤ j ∧
      f.messages[j]? = some m ∧ e.1 = m.key (f.base + j) ∧ Touched ds j ∧
      e.2.Holds m (Delivered ds j) := by
    intro e he
    obtain ⟨hmem,hne⟩ := (r.inProgress.mem_erase _ e).mp he
    obtain ⟨j,m',hkj,hm',hkey,hrest⟩ := h.only e hmem
    have hjk : j ≠ k := by
      rintro rfl
      exact hne (Option.some.inj (hm'.symm.trans hm) ▸ hkey)
    exact ⟨j,m',by omega,hm',hkey,hrest⟩
  have hhas : ∀ j m', k + 1 ≤ j → f.messages[j]? = some m' → Touched ds j →
      ∃ q, (r.inProgress.erase (m.key (f.base + k))).get? (m'.key (f.base + j)) = some q := by
    intro j m' hkj hm' htouched
    obtain ⟨q,hq⟩ := h.has j m' (by omega) hm' htouched
    refine ⟨q,?_⟩
    rw [SortedMap.get?_erase_ne,hq]
    intro hkey
    obtain ⟨rfl,-⟩ := key_unique hm' hm (congrArg _ hkey)
    omega
  refine ⟨by rw [Reassembler.dispatch,hholds.type_eq,hbody],?_⟩
  simp only [Reassembler.dispatch,Reassembler.dropStaleCandidates]
  split_ifs with hzero
  · refine ⟨h.len_limit,h.count_limit,h.dispatches,hlt,hnext,?_,?_⟩
    · intro e he
      exact honly e ((SortedMap.mem_retain _ _ e).mp he).1
    · intro j m' hkj hm' htouched
      obtain ⟨q,hq⟩ := hhas j m' hkj hm' htouched
      refine ⟨q,get?_retain _ _ hq ?_⟩
      -- the new head is at most the sequence number of a message still due
      simp only [Message.key,decide_eq_true_eq,hnext]
      omega
  · exact ⟨h.len_limit,h.count_limit,h.dispatches,hlt,hnext,honly,hhas⟩

/-- `popReady` hands out the head exactly when all of it arrived. -/
theorem Tracks.popReady : (∃ m, f.messages[k]? = some m ∧ r.popReady.1 = some (m.msgType, m.body) ∧
      f.Tracks (k + 1) ds r.popReady.2) ∨ (r.popReady = (none, r) ∧ (k < f.messages.length → ¬ f.Arrived ds k)) := by
  rcases r.popReady_spec with ⟨hnone,hidle⟩ | ⟨key,p,hget,hseq,hcomplete,hpop⟩
  · refine .inr ⟨hnone,fun hlt harrived => ?_⟩
    obtain ⟨htouched,hall⟩ := harrived _ (getElem?_eq_getElem hlt)
    obtain ⟨p,hp⟩ := h.has k _ (le_refl k) (getElem?_eq_getElem hlt) htouched
    have hholds := (h.holds (getElem?_eq_getElem hlt) hp).2
    exact hidle _ p hp (h.expected_eq hlt).symm (hholds.isComplete_iff.mpr hall)
  · obtain ⟨j,m,hkj,hm,rfl,-,-⟩ := h.only _ ((r.inProgress.get?_eq_some_iff _ _).mp hget)
    have hlt := lt_of_get hm
    obtain rfl : j = k := Nat.add_left_cancel (hseq.trans (h.expected_eq (by omega)))
    rw [hpop]
    exact .inl ⟨m,hm,h.dispatch hm hget hcomplete⟩
end
theorem mem_entry_insert (r : Reassembler) (key : CandidateKey) (p : PartialMessage)
    (e : CandidateKey × PartialMessage) : e ∈ ((r.entry key).2.inProgress.insert key p).entries ↔
      e = (key, p) ∨ (e ∈ r.inProgress.entries ∧ e.1 ≠ key) := by
  rw [mem_insert]
  refine or_congr_right ?_
  unfold Reassembler.entry
  cases r.inProgress.get? key with
  | some q => exact Iff.rfl
  | none =>
    simp only [mem_insert]
    constructor
    · rintro ⟨rfl | ⟨he,-⟩,hne⟩
      · exact absurd rfl hne
      · exact ⟨he,hne⟩
    · rintro ⟨he,hne⟩
      exact ⟨.inr ⟨he,hne⟩,hne⟩

theorem entry_rest (r : Reassembler) (key : CandidateKey) : (r.entry key).2.maxMessageLen = r.maxMessageLen ∧
      (r.entry key).2.maxInProgress = r.maxInProgress ∧ (r.entry key).2.fifoEviction = r.fifoEviction ∧
      (r.entry key).2.expectedMsgSeq = r.expectedMsgSeq := by
  unfold Reassembler.entry
  split <;> exact ⟨rfl,rfl,rfl,rfl⟩

theorem Tracks.entry (h : f.Tracks k ds r) (hkj : k ≤ j) (hm : f.messages[j]? = some m) :
    (r.entry (m.key (f.base + j))).1.Holds m (Delivered ds j) := by
  unfold Reassembler.entry
  cases hget : r.inProgress.get? (m.key (f.base + j)) with
  | some p => exact (h.holds hm hget).2
  | none =>
    refine (PartialMessage.Holds.new m r.admitCounter).congr fun x _ => ?_
    refine ⟨False.elim,?_⟩
    rintro ⟨d,hd,hj,-⟩
    obtain ⟨p,hp⟩ := h.has j m hkj hm ⟨d,hd,hj⟩
    rw [hget] at hp
    cases hp

theorem holds_cons (hne : d.index ≠ j) (h : p.Holds m (Delivered ds j)) : p.Holds m (Delivered (d :: ds) j) := by
  refine h.congr fun x _ => ?_
  rw [delivered_cons]
  exact ⟨.inr,fun hx => hx.elim (fun hd => absurd hd.1 hne) id⟩

theorem Tracks.stored (h : f.Tracks k ds r) (hkd : k ≤ d.index) (hm : f.messages[d.index]? = some m)
    (hp : p.Holds m (Delivered (d :: ds) d.index)) (progressed : Bool) :
    f.Tracks k (d :: ds) { (r.entry (m.key (f.base + d.index))).2 with
      inProgress := (r.entry (m.key (f.base + d.index))).2.inProgress.insert
        (m.key (f.base + d.index)) p
      progressed } := by
  obtain ⟨hlen,hcount,hfifo,hexpected⟩ := entry_rest r (m.key (f.base + d.index))
  refine ⟨hlen.trans h.len_limit,hcount.trans h.count_limit,hfifo.trans h.dispatches,h.le,
    hexpected.trans h.expected,?_,?_⟩
  · intro e he
    rcases (mem_entry_insert r _ p e).mp he with rfl | ⟨he,hne⟩
    · exact ⟨d.index,m,hkd,hm,rfl,(touched_cons ds d _).mpr (.inl rfl),hp⟩
    · obtain ⟨j,m',hkj,hm',hkey,htouched,hholds⟩ := h.only e he
      have hj : d.index ≠ j := by
        rintro rfl
        exact hne (Option.some.inj (hm'.symm.trans hm) ▸ hkey)
      exact ⟨j,m',hkj,hm',hkey,(touched_cons ds d j).mpr (.inr htouched),holds_cons hj hholds⟩
  · intro j m' hkj hm' htouched
    by_cases hj : d.index = j
    · subst hj
      have hmm : m' = m := Option.some.inj (hm'.symm.trans hm)
      exact ⟨p,by rw [hmm,get?_insert_self]⟩
    · obtain ⟨q,hq⟩ := h.has j m' hkj hm' (((touched_cons ds d j).mp htouched).resolve_left hj)
      refine ⟨q,?_⟩
      rw [SortedMap.get?_eq_some_iff,mem_entry_insert]
      exact .inr ⟨(r.inProgress.get?_eq_some_iff _ _).mp hq,
        fun hkey => hj (key_unique hm' hm (congrArg _ hkey)).1.symm⟩

theorem Tracks.makeRoom (h : f.Tracks k ds r) (hm : f.messages[j]? = some m) :
    r.makeRoom (m.key (f.base + j)) = some r := by
  unfold Reassembler.makeRoom
  rw [if_neg]
  intro hfull
  rw [Bool.and_eq_true,Bool.not_eq_true',SortedMap.contains_eq_false_iff,decide_eq_true_eq,h.count_limit] at hfull
  have hroom := h.room hm hfull.1
  omega

theorem Tracks.feed_old (h : f.Tracks k ds r) (hd : d.index < k) :
    r.feed (m.fragment (f.base + d.index) d.offset d.length) = (none, r) := by
  have hle := h.le
  have hseqs := f.seqs
  have hfew := f.few
  unfold Reassembler.feed
  by_cases hlast : f.base + k < 2 ^ 16
  · have hold : (m.fragment (f.base + d.index) d.offset d.length).messageSeq < r.expectedMsgSeq := by
      rw [h.expected]
      simp only [Message.fragment]
      omega
    rw [if_pos hold]
  · -- the sequence numbers are used up and the head has wrapped to zero
    have hzero : r.expectedMsgSeq = 0 := by
      rw [h.expected]
      omega
    have hahead : maxSeqAhead ≤ (m.fragment (f.base + d.index) d.offset d.length).messageSeq - 0 := by
      simp only [Message.fragment,maxSeqAhead]
      omega
    rw [hzero,if_neg (Nat.not_lt_zero _),if_pos hahead]
variable {out : Option (UInt8 × List UInt8)}
/-- A fragment of a message still due is kept, and hands out a head that is now complete. -/
theorem Tracks.absorb (h : f.Tracks k ds r) (hkd : k ≤ d.index) (hm : f.messages[d.index]? = some m)
    (hfit : d.offset + d.length ≤ m.body.length) {r' : Reassembler}
    (hout : r.absorb (m.key (f.base + d.index)) (m.fragment (f.base + d.index) d.offset d.length) = (out, r')) :
    (out = none ∧ f.Tracks k (d :: ds) r') ∨
      (d.index = k ∧ out = some (m.msgType, m.body) ∧ f.Tracks (k + 1) (d :: ds) r') := by
  have hlt := lt_of_get hm
  have hexpected := h.expected_eq (by omega)
  have hslice : (m.body.drop d.offset).take d.length <+: m.body.drop d.offset :=
    take_prefix _ _
  have hlength : ((m.body.drop d.offset).take d.length).length = d.length := by
    rw [length_take,length_drop]
    omega
  have hentry := h.entry hkd hm
  have hrest := entry_rest r (m.key (f.base + d.index))
  have hstored := fun p => h.stored hkd hm (p := p)
  cases hent : r.entry (m.key (f.base + d.index)) with
  | mk p r₁ =>
    rw [hent] at hentry hrest hstored
    cases hput : p.store d.offset ((m.body.drop d.offset).take d.length) with
    | mk storedNew q =>
      have hq : q.Holds m (Delivered (d :: ds) d.index) := by
        have hholds := hentry.store (by rwa [hlength]) hslice
        rw [hput] at hholds
        refine hholds.congr fun x _ => ?_
        rw [delivered_cons,hlength,or_comm,and_iff_right rfl]
      have htracks := hstored q hq (r₁.progressed || storedNew)
      have hbounds : ¬ p.buf.length < d.offset + d.length := by
        rw [hentry.buf_length]
        omega
      have hagree := hentry.conflicts _ _ hslice
      simp only [Reassembler.absorb,Message.fragment,hent,hlength,if_neg hbounds,hagree,
        hput,Bool.false_eq_true,if_false] at hout
      split_ifs at hout with hdone
      · rw [Bool.and_eq_true,Bool.and_eq_true,beq_iff_eq] at hdone
        have hhead : d.index = k :=
          Nat.add_left_cancel (hdone.2.trans (hrest.2.2.2.trans hexpected))
        refine .inr ⟨hhead,?_⟩
        rw [hhead] at hm htracks hout
        have hnext := htracks.dispatch hm (get?_insert_self _ _ _) hdone.1.1
        rw [hout] at hnext
        exact hnext
      · cases hout
        exact .inl ⟨rfl,htracks⟩

/-- A fragment of the flight completes the head, or nothing is handed out. -/
theorem Tracks.feed (h : f.Tracks k ds r) (hm : f.messages[d.index]? = some m)
    (hfit : d.offset + d.length ≤ m.body.length) {r' : Reassembler}
    (hout : r.feed (m.fragment (f.base + d.index) d.offset d.length) = (out, r')) :
    (out = none ∧ f.Tracks k (d :: ds) r') ∨
      (d.index = k ∧ out = some (m.msgType, m.body) ∧ f.Tracks (k + 1) (d :: ds) r') := by
  by_cases hold : d.index < k
  · rw [h.feed_old hold] at hout
    cases hout
    refine .inl ⟨rfl,{ h with only := ?_, has := ?_ }⟩
    · intro e he
      obtain ⟨j,m',hkj,hm',hkey,htouched,hholds⟩ := h.only e he
      exact ⟨j,m',hkj,hm',hkey,(touched_cons ds d j).mpr (.inr htouched),holds_cons (by omega) hholds⟩
    · intro j m' hkj hm' htouched
      exact h.has j m' hkj hm' (((touched_cons ds d j).mp htouched).resolve_left (by omega))
  · have hlt := lt_of_get hm
    have hexpected := h.expected_eq (by omega)
    have hfew := f.few
    have hnew : ¬ (m.fragment (f.base + d.index) d.offset d.length).messageSeq <
        r.expectedMsgSeq := by
      simp only [Message.fragment]
      omega
    have hnear : ¬ maxSeqAhead ≤ (m.fragment (f.base + d.index) d.offset d.length).messageSeq -
        r.expectedMsgSeq := by
      simp only [Message.fragment,maxSeqAhead]
      omega
    have hlen : ¬ r.maxMessageLen < (m.fragment (f.base + d.index) d.offset d.length).totalLength := by
      rw [h.len_limit]
      exact not_lt.mpr (f.short m (mem_of_getElem? hm))
    have hmake : r.makeRoom ⟨f.base + d.index,m.msgType,m.body.length⟩ = some r := h.makeRoom hm
    simp only [Reassembler.feed,if_neg hnew,if_neg hnear,if_neg hlen] at hout
    simp only [Message.fragment,hmake] at hout
    exact h.absorb (not_lt.mp hold) hm hfit hout

theorem numbered_get (hm : f.messages[k]? = some m) :
    f.numbered.take (k + 1) = f.numbered.take k ++ [(f.base + k, m.msgType, m.body)] := by
  rw [take_add_one,numbered,getElem?_mapIdx,hm]
  rfl

theorem Tracks.drain (h : f.Tracks k ds r) (fuel : Nat) :
    ∃ k', f.numbered.take k ++ (r.drain fuel).1 = f.numbered.take k' ∧ f.Tracks k' ds (r.drain fuel).2 := by
  induction fuel generalizing k r with
  | zero => exact ⟨k,append_nil _,h⟩
  | succ fuel ih =>
    rw [Reassembler.drain]
    rcases h.popReady with ⟨m,hm,hout,htracks⟩ | ⟨hnone,-⟩
    · have hexpected := h.expected_eq (lt_of_get hm)
      obtain ⟨k',hk',htracks'⟩ := ih htracks
      cases hpop : r.popReady with
      | mk out r' =>
        rw [hpop] at hout hk' htracks'
        subst hout
        refine ⟨k',?_,htracks'⟩
        rw [← hk',numbered_get hm,hexpected,append_assoc]
        rfl
    · rw [hnone]
      exact ⟨k,append_nil _,h⟩
end Flight
/-- With enough fuel the loop stops because nothing is ready. -/
theorem Reassembler.popReady_drain (r : Reassembler) (fuel : Nat)
    (hfuel : r.inProgress.length ≤ fuel) : (r.drain fuel).2.popReady.1 = none := by
  induction fuel generalizing r with
  | zero =>
    have hempty : r.inProgress.entries = [] := length_eq_zero_iff.mp (le_zero.mp hfuel)
    simp [drain,popReady,hempty]
  | succ fuel ih =>
    rw [drain]
    rcases r.popReady_spec with ⟨hpop,-⟩ | ⟨key,p,hget,-,-,hpop⟩
    · simp [hpop]
    · have hless := r.length_dispatch hget
      rw [hpop]
      exact ih (r.dispatch key p).2 (by omega)

structure Receiver where
  reasm : Reassembler
  collected : List (Nat × UInt8 × List UInt8)
namespace Receiver
/-- A reassembler with the default limits that waits for message `base`. -/
def start (base : Nat) : Receiver := ⟨{ Reassembler.new with expectedMsgSeq := base % 2 ^ 16 }, []⟩

/-- Parse a fragment, feed it, and pop what is ready. -/
def receive (s : Receiver) (wire : List UInt8) : Receiver :=
  match readFragment wire with
  | .error _ => s
  | .ok frag =>
    match s.reasm.feed frag with
    | (out, r) =>
      let (messages, last) := r.drain r.inProgress.length
      ⟨last, s.collected ++ out.toList.map (fun m => (s.reasm.expectedMsgSeq, m)) ++ messages⟩
end Receiver
namespace Flight
def wire (f : Flight) (d : Piece) : List UInt8 :=
  match f.messages[d.index]? with
  | some m => m.wire (f.base + d.index) d.offset d.length
  | none => []

/-- The first `k` messages were collected, and the next one is not complete. -/
structure Progress (f : Flight) (ds : List Piece) (s : Receiver) : Prop where
  tracks : ∃ k, s.collected = f.numbered.take k ∧ f.Tracks k ds s.reasm
  drained : s.reasm.popReady.1 = none

theorem progress_start (f : Flight) : f.Progress [] (Receiver.start f.base) where
  tracks := ⟨0,rfl,rfl,rfl,rfl,zero_le _,rfl,nofun,by
    rintro j m - - ⟨d,hd,-⟩
    cases hd⟩
  drained := rfl
variable {f : Flight}
variable {ds : List Piece} {s : Receiver} {d : Piece}
theorem progress_receive (h : f.Progress ds s) (hd : f.Has d) : f.Progress (d :: ds) (s.receive (f.wire d)) := by
  obtain ⟨⟨k,hcollected,htracks⟩,-⟩ := h
  obtain ⟨m,hm,hfit⟩ := hd
  have hlt := lt_of_get hm
  have hseqs := f.seqs
  have hshort := f.short m (mem_of_getElem? hm)
  have hread : readFragment (f.wire d) = .ok (m.fragment (f.base + d.index) d.offset d.length) := by
    rw [wire,hm]
    refine readFragment_wire m (by omega) ?_ hfit
    unfold maxMessageLen at hshort
    omega
  rw [Receiver.receive,hread]
  cases hfeed : s.reasm.feed (m.fragment (f.base + d.index) d.offset d.length) with
  | mk out r =>
    have hdrained := r.popReady_drain r.inProgress.length (le_refl _)
    simp only [hfeed]
    rcases htracks.feed hm hfit hfeed with ⟨rfl,hkept⟩ | ⟨hhead,rfl,hnext⟩
    · obtain ⟨k',hk',htracks'⟩ := hkept.drain r.inProgress.length
      refine ⟨⟨k',?_,htracks'⟩,hdrained⟩
      simp [hcollected,hk']
    · obtain ⟨k',hk',htracks'⟩ := hnext.drain r.inProgress.length
      rw [hhead] at hm hlt
      refine ⟨⟨k',?_,htracks'⟩,hdrained⟩
      rw [← hk',numbered_get hm,← htracks.expected_eq hlt,hcollected]
      rfl

theorem Progress.complete (h : f.Progress ds s)
    (hall : ∀ j < f.messages.length, f.Arrived ds j) : s.collected = f.numbered := by
  obtain ⟨⟨k,hcollected,htracks⟩,hdrained⟩ := h
  have hk : k = f.messages.length := by
    by_contra hne
    have hlt := lt_of_le_of_ne htracks.le hne
    rcases htracks.popReady with ⟨m,-,hout,-⟩ | ⟨-,hmissing⟩
    · rw [hdrained] at hout
      cases hout
    · exact hmissing hlt (hall k hlt)
  have hlength : f.numbered.length ≤ k := by
    rw [numbered,length_mapIdx,hk]
  rw [hcollected,take_of_length_le hlength]

theorem progress_run (f : Flight) (ds done : List Piece) (hds : ∀ d ∈ ds, f.Has d) (s : Receiver)
    (h : f.Progress done s) : f.Progress (ds.reverse ++ done) (Trace.run Receiver.receive s (ds.map f.wire)) := by
  induction ds generalizing s done with
  | nil => exact h
  | cons d ds ih =>
    have hstep := progress_receive h (hds d mem_cons_self)
    have hrun := ih (d :: done) (fun d' hd' => hds d' (mem_cons_of_mem _ hd')) _ hstep
    simpa using hrun

theorem collected_of_arrived (f : Flight) (ds : List Piece) (hds : ∀ d ∈ ds, f.Has d)
    (hall : ∀ j < f.messages.length, f.Arrived ds j) :
    (Trace.run Receiver.receive (Receiver.start f.base) (ds.map f.wire)).collected = f.numbered := by
  refine (progress_run f ds [] hds _ (progress_start f)).complete ?_
  intro j hj m hm
  obtain ⟨⟨d,hd,hdj⟩,hbytes⟩ := hall j hj m hm
  refine ⟨⟨d,by simpa using hd,hdj⟩,?_⟩
  intro x hx
  obtain ⟨d,hd,hin⟩ := hbytes x hx
  exact ⟨d,by simpa using hd,hin⟩

/-- Fragments of the flight in any order, cut and repeated in any way, with every byte of every
message and every empty message among them: the messages come out, each once and in order. -/
theorem dtls_reassembly (f : Flight) (ds : List Piece) (hds : ∀ d ∈ ds, f.Has d)
    (hall : ∀ j m, f.messages[j]? = some m → (∀ x < m.body.length, Delivered ds j x) ∧ (m.body = [] → Touched ds j)) :
    (Trace.run Receiver.receive (Receiver.start f.base) (ds.map f.wire)).collected = f.numbered := by
  apply collected_of_arrived f ds hds
  intro j _ m hm
  obtain ⟨hbytes,hempty⟩ := hall j m hm
  refine ⟨?_,hbytes⟩
  cases hbody : m.body with
  | nil => exact hempty hbody
  | cons b rest =>
    obtain ⟨d,hd,hj,-⟩ := hbytes 0 (by rw [hbody]; exact zero_lt_succ _)
    exact ⟨d,hd,hj⟩

/-- Two messages, the second one empty and first to arrive, the other in overlapping pieces. -/
theorem dtls_reassembly_overlap :
    let f : Flight := {
      base := 0
      messages := [⟨11,[7, 8, 9]⟩, ⟨14,[]⟩]
      few := by decide
      seqs := by decide
      short := by decide }
    (Trace.run Receiver.receive (Receiver.start 0)
      ([⟨1,0,0⟩, ⟨0,1,2⟩, ⟨0,1,2⟩, ⟨0,0,2⟩].map f.wire)).collected =
      [(0, 11, [7, 8, 9]), (1, 14, [])] := by
  intro f
  refine dtls_reassembly f [⟨1,0,0⟩, ⟨0,1,2⟩, ⟨0,1,2⟩, ⟨0,0,2⟩] ?_ ?_
  · intro d hd
    simp only [List.mem_cons,not_mem_nil,or_false] at hd
    rcases hd with rfl | rfl | rfl | rfl
    · exact ⟨⟨14,[]⟩,rfl,le_refl _⟩
    · exact ⟨⟨11,[7, 8, 9]⟩,rfl,by decide⟩
    · exact ⟨⟨11,[7, 8, 9]⟩,rfl,by decide⟩
    · exact ⟨⟨11,[7, 8, 9]⟩,rfl,by decide⟩
  · intro j m hm
    match j, hm with
    | 0, hm =>
      cases hm
      refine ⟨?_,fun h => absurd h (by decide)⟩
      intro x hx
      by_cases hfirst : x < 2
      · exact ⟨⟨0,0,2⟩,by decide,rfl,zero_le x,by omega⟩
      · refine ⟨⟨0,1,2⟩,by decide,rfl,?_,?_⟩
        · simp only
          omega
        · omega
    | 1, hm =>
      cases hm
      exact ⟨fun x hx => absurd hx (Nat.not_lt_zero x),fun _ => ⟨⟨1,0,0⟩,by decide,rfl⟩⟩
    | j + 2, hm => cases hm

/-- The piece that a fragment names. -/
def piece (f : Flight) (wire : List UInt8) : Piece :=
  match readFragment wire with
  | .ok frag => ⟨frag.messageSeq - f.base, frag.fragmentOffset, frag.len - headerLen⟩
  | .error _ => ⟨0, 0, 0⟩

theorem piece_wire {m : Message} {j o n : Nat} (hm : f.messages[j]? = some m) (hfit : o + n ≤ m.body.length) :
    f.piece (m.wire (f.base + j) o n) = ⟨j, o, n⟩ := by
  have hlt := lt_of_get hm
  have hseqs := f.seqs
  have hshort := f.short m (mem_of_getElem? hm)
  unfold maxMessageLen at hshort
  rw [piece,readFragment_wire m (by omega) (by omega) hfit]
  simp only [Message.fragment,Nat.add_sub_cancel_left]

/-- What `writeFragments` sends, each fragment at least once and in any order, arrives whole. -/
theorem writeFragments_collected (f : Flight) (size : Nat → Nat) (wires : List (List UInt8))
    (hsent : ∀ w ∈ wires, ∃ j m, f.messages[j]? = some m ∧ w ∈ writeFragments m.msgType (f.base + j) m.body (size j))
    (hall : ∀ j m, f.messages[j]? = some m → ∀ w ∈ writeFragments m.msgType (f.base + j) m.body (size j), w ∈ wires) :
    (Trace.run Receiver.receive (Receiver.start f.base) wires).collected = f.numbered := by
  have hpieces : ∀ w ∈ wires, f.Has (f.piece w) ∧ f.wire (f.piece w) = w := by
    intro w hw
    obtain ⟨j,m,hm,hw⟩ := hsent w hw
    obtain ⟨o,n,hfit,rfl⟩ := (writeFragments_cuts m (f.base + j) (size j)).1 w hw
    rw [piece_wire hm hfit]
    exact ⟨⟨m,hm,hfit⟩,by rw [wire,hm]⟩
  have hmap : (wires.map f.piece).map f.wire = wires := by
    rw [map_map]
    exact (map_congr_left fun w hw => (hpieces w hw).2).trans (map_id _)
  rw [← hmap]
  apply collected_of_arrived f _ (forall_mem_map.mpr fun w hw => (hpieces w hw).1)
  intro j _ m hm
  obtain ⟨-,hcover,o,n,hfit,hfirst⟩ := writeFragments_cuts m (f.base + j) (size j)
  have hpiece : ∀ o n, o + n ≤ m.body.length → m.wire (f.base + j) o n ∈
      writeFragments m.msgType (f.base + j) m.body (size j) → ⟨j,o,n⟩ ∈ wires.map f.piece := by
    intro o n hfit hw
    exact mem_map.mpr ⟨_,hall j m hm _ hw,piece_wire hm hfit⟩
  refine ⟨⟨_,hpiece o n hfit hfirst,rfl⟩,?_⟩
  intro x hx
  obtain ⟨o,n,hox,hxn,hfit,hw⟩ := hcover x hx
  exact ⟨_,hpiece o n hfit hw,rfl,hox,hxn⟩

/-- Two fragments, the second one first. -/
theorem writeFragments_collected_reversed :
    (Trace.run Receiver.receive (.start 0) (writeFragments 11 0 [7, 8, 9] 2).reverse).collected = [(0, 11, [7, 8, 9])] := by
  refine writeFragments_collected ⟨0,[⟨11,[7, 8, 9]⟩],by decide,by decide,by decide⟩ (fun _ => 2) _
    (fun w hw => ⟨0,_,rfl,mem_reverse.mp hw⟩) ?_
  rintro (_ | j) m hm w hw
  · cases hm
    exact mem_reverse.mpr hw
  · cases hm
end Flight
end PureCrypto.Dtls
