import PureCrypto.Framework.Trace
import PureCrypto.Dtls.Reassembly

/-! # Reassembly of arbitrary fragments -/
namespace PureCrypto.Dtls
open List Option
open SortedMap (get?_eq_some_iff get?_erase get?_insert get?_insert_self)
def HandshakeFragment.key (frag : HandshakeFragment) : CandidateKey :=
  ⟨frag.messageSeq, frag.msgType, frag.totalLength⟩
namespace Reassembler
variable {r r' : Reassembler}
/-- The fragment gets past every check, so that its bytes are stored. -/
def accepts (r : Reassembler) (frag : HandshakeFragment) : Bool :=
  decide (r.expectedMsgSeq ≤ frag.messageSeq) &&
    decide (frag.messageSeq - r.expectedMsgSeq < maxSeqAhead) &&
    decide (frag.totalLength ≤ r.maxMessageLen) && (r.makeRoom frag.key).isSome &&
    decide (frag.fragmentOffset + frag.fragment.length ≤ (r.entry frag.key).1.buf.length) &&
    !(r.entry frag.key).1.conflicts frag.fragmentOffset frag.fragment
variable {key k : CandidateKey} {p : PartialMessage} {frag : HandshakeFragment} {s : Reassembler}
theorem entry_of_some (h : r.inProgress.get? key = some p) : r.entry key = (p, r) := by
  rw [entry,h]

theorem entry_of_none (h : r.inProgress.get? key = none) :
    r.entry key = (PartialMessage.new key.msgType key.totalLength r.admitCounter,
      { r with
        inProgress := r.inProgress.insert key
          (PartialMessage.new key.msgType key.totalLength r.admitCounter)
        admitCounter := r.admitCounter + 1 }) := by
  rw [entry,h]

theorem victim_mem {messageSeq : Nat} (h : r.victim messageSeq = some k) : ∃ p, r.inProgress.get? k = some p := by
  rw [← SortedMap.mem_keys_iff]
  unfold victim at h
  split_ifs at h with hfifo hhead
  · obtain ⟨e,he,rfl⟩ := map_eq_some_iff.mp h
    exact List.mem_map_of_mem (argmin_mem he)
  · obtain ⟨hlast,-⟩ := filter_eq_some_iff.mp h
    obtain ⟨e,he,rfl⟩ := map_eq_some_iff.mp hlast
    exact List.mem_map_of_mem (mem_of_getLast? he)

/-- Making room takes at most one other candidate out. -/
theorem makeRoom_spec (h : r.makeRoom key = some r') :
    r'.inProgress.get? key = r.inProgress.get? key ∧
      (∀ k p, r'.inProgress.get? k = some p → r.inProgress.get? k = some p) ∧
      r' = { r with inProgress := r'.inProgress } ∧
      r'.inProgress.length ≤ r.inProgress.length ∧
      (r.inProgress.get? key = none → r.inProgress.length ≤ r.maxInProgress →
        r'.inProgress.length < r.maxInProgress) := by
  unfold makeRoom at h
  split_ifs at h with hfull
  · obtain ⟨hnew,hlen⟩ := Bool.and_eq_true_iff.mp hfull
    have hnone : r.inProgress.get? key = none := by
      simpa [SortedMap.contains] using hnew
    obtain ⟨k,hk,rfl⟩ := map_eq_some_iff.mp h
    obtain ⟨p,hp⟩ := victim_mem hk
    have hlength := r.inProgress.length_erase_of_get? hp
    refine ⟨?_,?_,rfl,by dsimp only; omega,fun _ hle => by dsimp only; omega⟩
    · rw [get?_erase,hnone,ite_self]
    · intro k' p' hp'
      rw [get?_erase] at hp'
      split_ifs at hp'
      exact hp'
  · cases h
    refine ⟨rfl,fun k p hp => hp,rfl,le_rfl,fun hnone _ => ?_⟩
    simpa [SortedMap.contains,hnone] using hfull

theorem get?_dropStaleCandidates
    (h : r.dropStaleCandidates.inProgress.get? k = some p) : r.inProgress.get? k = some p := by
  unfold dropStaleCandidates at h
  split_ifs at h with hwrapped
  · rw [get?_eq_some_iff,SortedMap.mem_retain] at h
    exact (get?_eq_some_iff _ _ _).mpr h.1
  · exact h

theorem entry_makeRoom (h : r.makeRoom key = some r') : (r'.entry key).1 = (r.entry key).1 := by
  obtain ⟨hget,-,hrest,-⟩ := makeRoom_spec h
  cases hp : r.inProgress.get? key with
  | some p =>
    rw [hp] at hget
    rw [entry_of_some hp,entry_of_some hget]
  | none =>
    rw [hp] at hget
    rw [entry_of_none hp,entry_of_none hget,hrest]

/-- The state after a fragment, whether or not a message was handed out. -/
structure After (r : Reassembler) (frag : HandshakeFragment) (r' : Reassembler) : Prop where
  len_limit : r'.maxMessageLen = r.maxMessageLen
  count_limit : r'.maxInProgress = r.maxInProgress
  few : r.inProgress.length ≤ r.maxInProgress → r'.inProgress.length ≤ r.maxInProgress
  /-- A candidate is as it was, or it is the fragment's: new, unchanged or with its bytes. -/
  get? : ∀ k q, r'.inProgress.get? k = some q → r.inProgress.get? k = some q ∨
    k = frag.key ∧ frag.totalLength ≤ r.maxMessageLen ∧ (q = (r.entry frag.key).1 ∨
      r.accepts frag = true ∧ q = ((r.entry frag.key).1.store frag.fragmentOffset frag.fragment).2)

theorem After.refl (r : Reassembler) (frag : HandshakeFragment) : r.After frag r :=
  ⟨rfl,rfl,id,fun _ _ h => .inl h⟩

theorem After.mono (h : r.After frag r')
    (hlen : s.maxMessageLen = r'.maxMessageLen) (hcount : s.maxInProgress = r'.maxInProgress)
    (hlength : s.inProgress.length ≤ r'.inProgress.length)
    (hget : ∀ k q, s.inProgress.get? k = some q → r'.inProgress.get? k = some q) : r.After frag s :=
  ⟨hlen.trans h.len_limit,hcount.trans h.count_limit,fun hr => hlength.trans (h.few hr),
    fun k q hq => h.get? k q (hget k q hq)⟩

theorem After.store {q : PartialMessage}
    (h : r.After frag r') (hp : r'.inProgress.get? frag.key = some p)
    (hlen : frag.totalLength ≤ r.maxMessageLen) (haccepts : r.accepts frag = true)
    (hq : q = ((r.entry frag.key).1.store frag.fragmentOffset frag.fragment).2)
    (hs : s = { r' with
      inProgress := r'.inProgress.insert frag.key q
      progressed := s.progressed }) : r.After frag s := by
  rw [hs]
  refine ⟨h.len_limit,h.count_limit,fun hr => ?_,fun k q' hq' => ?_⟩
  · rw [SortedMap.length_insert_of_get? _ _ hp]
    exact h.few hr
  · rw [get?_insert] at hq'
    split_ifs at hq' with hk
    · cases hq'
      exact .inr ⟨hk,hlen,.inr ⟨haccepts,hq⟩⟩
    · exact h.get? k q' hq'

theorem after_entry (hroom : r.makeRoom frag.key = some r')
    (hlen : frag.totalLength ≤ r.maxMessageLen) : r.After frag (r'.entry frag.key).2 ∧
      (r'.entry frag.key).2.expectedMsgSeq = r.expectedMsgSeq ∧
      (r'.entry frag.key).2.inProgress.get? frag.key = some (r.entry frag.key).1 := by
  obtain ⟨hsame,hsub,hrest,hle,hlt⟩ := makeRoom_spec hroom
  rw [← entry_makeRoom hroom]
  have hlimit : r'.maxMessageLen = r.maxMessageLen := by rw [hrest]
  have hcount : r'.maxInProgress = r.maxInProgress := by rw [hrest]
  have hexpected : r'.expectedMsgSeq = r.expectedMsgSeq := by rw [hrest]
  cases hget : r'.inProgress.get? frag.key with
  | some p =>
    rw [entry_of_some hget]
    exact ⟨⟨hlimit,hcount,hle.trans,fun k q hq => .inl (hsub k q hq)⟩,hexpected,hget⟩
  | none =>
    have hnew := entry_makeRoom hroom
    rw [entry_of_none hget] at hnew ⊢
    refine ⟨⟨hlimit,hcount,fun hr => ?_,fun k q hq => ?_⟩,hexpected,get?_insert_self _ _ _⟩
    · rw [SortedMap.length_insert_new _ _ hget]
      exact hlt (hsame.symm.trans hget) hr
    · rw [get?_insert] at hq
      split_ifs at hq with hk
      · cases hq
        exact .inr ⟨hk,hlen,.inl hnew⟩
      · exact .inl (hsub k q hq)

theorem get?_dispatch {q : PartialMessage}
    (h : (r.dispatch key p).2.inProgress.get? k = some q) : r.inProgress.get? k = some q := by
  have herase : (r.inProgress.erase key).get? k = some q := get?_dropStaleCandidates h
  rw [get?_erase] at herase
  split_ifs at herase
  exact herase

theorem dispatch_rest (r : Reassembler) (key : CandidateKey) (p : PartialMessage) :
    (r.dispatch key p).1 = some (p.msgType, p.buf) ∧
      (r.dispatch key p).2.expectedMsgSeq = (r.expectedMsgSeq + 1) % 2 ^ 16 ∧
      (r.dispatch key p).2.maxMessageLen = r.maxMessageLen ∧
      (r.dispatch key p).2.maxInProgress = r.maxInProgress := by
  unfold dispatch dropStaleCandidates
  refine ⟨rfl,?_⟩
  dsimp only
  split_ifs
  · exact ⟨rfl,rfl,rfl⟩
  · exact ⟨rfl,rfl,rfl⟩

def Yields (r : Reassembler) (frag : HandshakeFragment) (out : Option (UInt8 × List UInt8))
    (r' : Reassembler) : Prop :=
  out = none ∧ r'.expectedMsgSeq = r.expectedMsgSeq ∨
    r.accepts frag = true ∧ frag.messageSeq = r.expectedMsgSeq ∧
      r'.expectedMsgSeq = (r.expectedMsgSeq + 1) % 2 ^ 16 ∧
      ∃ p, p = ((r.entry frag.key).1.store frag.fragmentOffset frag.fragment).2 ∧
        p.isComplete = true ∧ out = some (p.msgType, p.buf)

theorem absorb_spec (hroom : r.makeRoom frag.key = some r')
    (hlen : frag.totalLength ≤ r.maxMessageLen) (hold : r.expectedMsgSeq ≤ frag.messageSeq)
    (hahead : frag.messageSeq - r.expectedMsgSeq < maxSeqAhead) : r.After frag (r'.absorb frag.key frag).2 ∧
      r.Yields frag (r'.absorb frag.key frag).1 (r'.absorb frag.key frag).2 := by
  obtain ⟨hafter,hexpected,hget⟩ := after_entry hroom hlen
  have hentry := entry_makeRoom hroom
  unfold absorb
  obtain ⟨p,s,hps⟩ : ∃ p s, r'.entry frag.key = (p, s) := ⟨_,_,rfl⟩
  rw [hps] at hafter hexpected hget hentry
  dsimp only at hafter hexpected hget hentry
  rw [hps]
  dsimp only
  by_cases hfits : p.buf.length < frag.fragmentOffset + frag.fragment.length
  · rw [if_pos hfits]
    exact ⟨hafter,.inl ⟨rfl,hexpected⟩⟩
  rw [if_neg hfits]
  by_cases hagrees : p.conflicts frag.fragmentOffset frag.fragment = true
  · rw [if_pos hagrees]
    exact ⟨hafter,.inl ⟨rfl,hexpected⟩⟩
  have haccepts : r.accepts frag = true := by
    unfold accepts
    rw [← hentry,hroom]
    simp [hold,hahead,hlen,not_lt.mp hfits,hagrees]
  have hstored : r.After frag { s with
      inProgress := s.inProgress.insert frag.key (p.store frag.fragmentOffset frag.fragment).2
      progressed := s.progressed || (p.store frag.fragmentOffset frag.fragment).1 } :=
    hafter.store hget hlen haccepts rfl (by rw [hentry])
  split_ifs with hready
  · simp only [Bool.and_eq_true,beq_iff_eq] at hready
    obtain ⟨⟨hcomplete,-⟩,hhead⟩ := hready
    have hgot := get?_insert_self s.inProgress frag.key
      (p.store frag.fragmentOffset frag.fragment).2
    obtain ⟨hout,hnext,hmax,hcount⟩ := dispatch_rest { s with
      inProgress := s.inProgress.insert frag.key (p.store frag.fragmentOffset frag.fragment).2
      progressed := s.progressed || (p.store frag.fragmentOffset frag.fragment).1 } frag.key
      (p.store frag.fragmentOffset frag.fragment).2
    refine ⟨hstored.mono hmax hcount (length_dispatch _ hgot).le fun k q => get?_dispatch,?_⟩
    refine .inr ⟨haccepts,hhead.trans hexpected,?_,_,rfl,?_,?_⟩
    · rw [hnext,hexpected]
    · rw [← hentry]
      exact hcomplete
    · rw [← hentry]
      exact hout
  · exact ⟨hstored,.inl ⟨rfl,hexpected⟩⟩

theorem feed_spec (r : Reassembler) (frag : HandshakeFragment) :
    r.After frag (r.feed frag).2 ∧ r.Yields frag (r.feed frag).1 (r.feed frag).2 := by
  have hrefused : r.After frag r ∧ r.Yields frag none r := ⟨.refl r frag,.inl ⟨rfl,rfl⟩⟩
  unfold feed
  split_ifs with hold hahead hlong
  · exact hrefused
  · exact hrefused
  · exact hrefused
  cases hroom : r.makeRoom frag.key with
  | none =>
    have hnone : r.makeRoom ⟨frag.messageSeq,frag.msgType,frag.totalLength⟩ = none := hroom
    simp only [hnone]
    exact hrefused
  | some r' =>
    have hsome : r.makeRoom ⟨frag.messageSeq,frag.msgType,frag.totalLength⟩ = some r' := hroom
    simp only [hsome]
    exact absorb_spec hroom (not_lt.mp hlong) (not_lt.mp hold) (not_le.mp hahead)
end Reassembler
inductive Event
  | feed (frag : HandshakeFragment)
  | popReady

/-- A reassembler with what was accepted and what was handed out, with its sequence number. -/
structure Session where
  reassembler : Reassembler
  accepted : List HandshakeFragment
  dispatched : List (Nat × UInt8 × List UInt8)
namespace Session
def start (maxMessageLen maxInProgress : Nat) : Session :=
  ⟨.withLimits maxMessageLen maxInProgress, [], []⟩

def emitted (r : Reassembler) (out : Option (UInt8 × List UInt8)) : List (Nat × UInt8 × List UInt8) :=
  (out.map fun message => (r.expectedMsgSeq, message)).toList

def step (s : Session) : Event → Session
  | .feed frag =>
    let (out, r) := s.reassembler.feed frag
    ⟨r, if s.reassembler.accepts frag then s.accepted ++ [frag] else s.accepted,
      s.dispatched ++ emitted s.reassembler out⟩
  | .popReady =>
    let (out, r) := s.reassembler.popReady
    ⟨r, s.accepted, s.dispatched ++ emitted s.reassembler out⟩

def bufferedBytes (s : Session) : Nat := s.reassembler.inProgress.sum fun _ p => p.buf.length

/-- An accepted fragment of the message `key` has the byte `b` at offset `x`. -/
def Carried (accepted : List HandshakeFragment) (key : CandidateKey) (x : Nat) (b : UInt8) : Prop :=
  ∃ frag ∈ accepted, frag.key = key ∧ frag.fragmentOffset ≤ x ∧
    frag.fragment[x - frag.fragmentOffset]? = some b
variable {key : CandidateKey} {s : Session} {events : List Event} {maxMessageLen maxInProgress : Nat}
theorem Carried.mono {accepted accepted' : List HandshakeFragment} (h : accepted ⊆ accepted')
    {x : Nat} {b : UInt8} (hb : Carried accepted key x b) : Carried accepted' key x b := by
  obtain ⟨frag,hmem,hfrag⟩ := hb
  exact ⟨frag,h hmem,hfrag⟩

/-- A candidate that is what its key says, with every byte accounted for. -/
structure Genuine (accepted : List HandshakeFragment) (maxMessageLen : Nat) (key : CandidateKey)
    (p : PartialMessage) : Prop where
  type_eq : p.msgType = key.msgType
  total_eq : p.totalLength = key.totalLength
  short : key.totalLength ≤ maxMessageLen
  booked : p.Booked
  carried : ∀ x b, p.isReceived x = true → p.buf[x]? = some b → Carried accepted key x b
section Genuine
variable {accepted accepted' : List HandshakeFragment} {maxMessageLen : Nat} {key : CandidateKey}
  {p : PartialMessage}
theorem Genuine.mono (hsub : accepted ⊆ accepted') (h : Genuine accepted maxMessageLen key p) :
    Genuine accepted' maxMessageLen key p :=
  { h with carried := fun x b hx hb => (h.carried x b hx hb).mono hsub }

theorem genuine_new (hshort : key.totalLength ≤ maxMessageLen) (admittedAt : Nat) :
    Genuine accepted maxMessageLen key (.new key.msgType key.totalLength admittedAt) where
  type_eq := rfl
  total_eq := rfl
  short := hshort
  booked := PartialMessage.booked_new _ _ _
  carried := by
    intro x b hx
    rw [PartialMessage.isReceived_new] at hx
    cases hx

theorem Genuine.store {frag : HandshakeFragment} (h : Genuine accepted maxMessageLen frag.key p)
    (hsub : accepted ⊆ accepted') (hfrag : frag ∈ accepted')
    (hfits : frag.fragmentOffset + frag.fragment.length ≤ p.buf.length) :
    Genuine accepted' maxMessageLen frag.key (p.store frag.fragmentOffset frag.fragment).2 := by
  rw [h.booked.length] at hfits
  obtain ⟨hbooked,hkeeps,htype,htotal,-,hnew⟩ := PartialMessage.store_spec h.booked frag.fragment hfits
  refine ⟨htype.trans h.type_eq,htotal.trans h.total_eq,h.short,hbooked,fun x b hx hb => ?_⟩
  rcases hnew x hx with hold | ⟨hle,-,hbyte⟩
  · exact (h.carried x b hold ((hkeeps x hold).2.symm.trans hb)).mono hsub
  · exact ⟨frag,hfrag,rfl,hle,hbyte.symm.trans hb⟩

theorem Genuine.complete (h : Genuine accepted maxMessageLen key p) (hcomplete : p.isComplete = true)
    {x : Nat} {b : UInt8} (hb : p.buf[x]? = some b) :
    key = ⟨key.messageSeq, p.msgType, p.buf.length⟩ ∧ Carried accepted key x b := by
  have hx : x < p.totalLength := h.booked.length ▸ (List.getElem?_eq_some_iff.mp hb).1
  rw [PartialMessage.isComplete,beq_iff_eq,h.booked.count,Bitmap.count_eq_iff] at hcomplete
  refine ⟨?_,h.carried x b (hcomplete x hx) hb⟩
  rw [h.type_eq,h.booked.length,h.total_eq]
end Genuine
/-- What holds in every state. -/
structure Safe (maxMessageLen maxInProgress : Nat) (s : Session) : Prop where
  len_limit : s.reassembler.maxMessageLen = maxMessageLen
  count_limit : s.reassembler.maxInProgress = maxInProgress
  few : s.reassembler.inProgress.length ≤ maxInProgress
  genuine : ∀ k p, s.reassembler.inProgress.get? k = some p → Genuine s.accepted maxMessageLen k p
  expected : s.reassembler.expectedMsgSeq = s.dispatched.length % 2 ^ 16
  seqs : ∀ i d, s.dispatched[i]? = some d → d.1 = i % 2 ^ 16
  origin : ∀ d ∈ s.dispatched, ∀ x b, d.2.2[x]? = some b →
    Carried s.accepted ⟨d.1, d.2.1, d.2.2.length⟩ x b
section Step
variable {maxMessageLen maxInProgress : Nat} {s : Session}
theorem safe_start (maxMessageLen maxInProgress : Nat) :
    Safe maxMessageLen maxInProgress (start maxMessageLen maxInProgress) where
  len_limit := rfl
  count_limit := rfl
  few := Nat.zero_le _
  genuine := nofun
  expected := rfl
  seqs := nofun
  origin := nofun

theorem Safe.entry (h : Safe maxMessageLen maxInProgress s) {key : CandidateKey}
    (hshort : key.totalLength ≤ maxMessageLen) :
    Genuine s.accepted maxMessageLen key (s.reassembler.entry key).1 := by
  cases hget : s.reassembler.inProgress.get? key with
  | some p =>
    rw [Reassembler.entry_of_some hget]
    exact h.genuine key p hget
  | none =>
    rw [Reassembler.entry_of_none hget]
    exact genuine_new hshort _

theorem Safe.emit (h : Safe maxMessageLen maxInProgress s) {accepted : List HandshakeFragment}
    (hsub : s.accepted ⊆ accepted) {out : Option (UInt8 × List UInt8)} {expected : Nat}
    (hout : out = none ∧ expected = s.reassembler.expectedMsgSeq ∨
      expected = (s.reassembler.expectedMsgSeq + 1) % 2 ^ 16 ∧ ∃ key p,
        Genuine accepted maxMessageLen key p ∧ key.messageSeq = s.reassembler.expectedMsgSeq ∧
        p.isComplete = true ∧ out = some (p.msgType, p.buf)) :
    expected = (s.dispatched ++ emitted s.reassembler out).length % 2 ^ 16 ∧
      (∀ i d, (s.dispatched ++ emitted s.reassembler out)[i]? = some d → d.1 = i % 2 ^ 16) ∧
      ∀ d ∈ s.dispatched ++ emitted s.reassembler out, ∀ x b, d.2.2[x]? = some b →
        Carried accepted ⟨d.1, d.2.1, d.2.2.length⟩ x b := by
  rcases hout with ⟨rfl,rfl⟩ | ⟨rfl,key,p,hgenuine,hkey,hcomplete,rfl⟩
  · rw [show emitted s.reassembler none = [] from rfl,append_nil]
    exact ⟨h.expected,h.seqs,fun d hd x b hb => (h.origin d hd x b hb).mono hsub⟩
  · rw [show emitted s.reassembler (some (p.msgType, p.buf)) =
      [(s.reassembler.expectedMsgSeq, p.msgType, p.buf)] from rfl]
    refine ⟨?_,fun i d hd => ?_,fun d hd x b hb => ?_⟩
    · rw [length_append,length_singleton,h.expected,Nat.mod_add_mod]
    · rcases Nat.lt_or_ge i s.dispatched.length with hi | hi
      · rw [getElem?_append_left hi] at hd
        exact h.seqs i d hd
      · rw [getElem?_append_right hi,getElem?_singleton] at hd
        split_ifs at hd with hlast
        cases hd
        rw [show i = s.dispatched.length by omega]
        exact h.expected
    · rcases List.mem_append.mp hd with hd | hd
      · exact (h.origin d hd x b hb).mono hsub
      · cases List.mem_singleton.mp hd
        obtain ⟨heq,hcarried⟩ := hgenuine.complete hcomplete hb
        rw [hkey] at heq
        exact heq ▸ hcarried

theorem accepts_fits {r : Reassembler} {frag : HandshakeFragment} (h : r.accepts frag = true) :
    frag.fragmentOffset + frag.fragment.length ≤ (r.entry frag.key).1.buf.length ∧
      frag.totalLength ≤ r.maxMessageLen := by
  simp only [Reassembler.accepts,Bool.and_eq_true,decide_eq_true_eq] at h
  exact ⟨h.1.2,h.1.1.1.2⟩
variable (h : Safe maxMessageLen maxInProgress s)
include h
theorem Safe.feed (frag : HandshakeFragment) : Safe maxMessageLen maxInProgress (s.step (.feed frag)) := by
  obtain ⟨hafter,hyields⟩ := s.reassembler.feed_spec frag
  have hsub : s.accepted ⊆ (s.step (.feed frag)).accepted := by
    intro f hf
    change f ∈ if s.reassembler.accepts frag = true then s.accepted ++ [frag] else s.accepted
    split_ifs
    · exact mem_append_left _ hf
    · exact hf
  have hstored : s.reassembler.accepts frag = true →
      Genuine (s.step (.feed frag)).accepted maxMessageLen frag.key
        ((s.reassembler.entry frag.key).1.store frag.fragmentOffset frag.fragment).2 := by
    intro haccepts
    obtain ⟨hfits,hshort⟩ := accepts_fits haccepts
    rw [h.len_limit] at hshort
    refine (h.entry hshort).store hsub ?_ hfits
    change frag ∈ if s.reassembler.accepts frag = true then s.accepted ++ [frag] else s.accepted
    rw [if_pos haccepts]
    exact mem_append_right _ (mem_singleton_self _)
  have hout := h.emit hsub <| hyields.imp id fun ⟨haccepts,hhead,hnext,p,hp,hcomplete,hout⟩ =>
    ⟨hnext,frag.key,p,hp ▸ hstored haccepts,hhead,hcomplete,hout⟩
  refine ⟨hafter.len_limit.trans h.len_limit,hafter.count_limit.trans h.count_limit,?_,?_,hout.1,hout.2.1,hout.2.2⟩
  · rw [← h.count_limit]
    exact hafter.few (h.count_limit ▸ h.few)
  · intro k q hq
    rcases hafter.get? k q hq with hold | ⟨rfl,hshort,rfl | ⟨haccepts,rfl⟩⟩
    · exact (h.genuine k q hold).mono hsub
    · exact (h.entry (h.len_limit ▸ hshort)).mono hsub
    · exact hstored haccepts

theorem Safe.popReady : Safe maxMessageLen maxInProgress (s.step .popReady) := by
  rcases s.reassembler.popReady_spec with ⟨hnone,-⟩ | ⟨key,p,hget,hkey,hcomplete,hpop⟩
  · have hsame : s.step .popReady = s := by
      simp [step,hnone,emitted]
    rw [hsame]
    exact h
  · obtain ⟨hout,hnext,hlen,hcount⟩ := s.reassembler.dispatch_rest key p
    have hbooks := h.emit (List.Subset.refl _)
      (.inr ⟨hnext,key,p,h.genuine key p hget,hkey,hcomplete,hout⟩)
    have hstep : s.step .popReady = ⟨(s.reassembler.dispatch key p).2,s.accepted,
        s.dispatched ++ emitted s.reassembler (s.reassembler.dispatch key p).1⟩ := by
      simp [step,hpop]
    rw [hstep]
    refine ⟨hlen.trans h.len_limit,hcount.trans h.count_limit,?_,?_,hbooks.1,hbooks.2.1,hbooks.2.2⟩
    · exact (Reassembler.length_dispatch _ hget).le.trans h.few
    · intro k q hq
      have hq' : (s.reassembler.dispatch key p).2.inProgress.get? k = some q := hq
      exact h.genuine k q (Reassembler.get?_dispatch hq')

theorem Safe.step (event : Event) : Safe maxMessageLen maxInProgress (s.step event) := by
  cases event with
  | feed frag => exact h.feed frag
  | popReady => exact h.popReady

/-- A candidate held before and after an event has kept its bytes. -/
theorem Safe.keeps (event : Event) {key : CandidateKey}
    {p q : PartialMessage} (hp : s.reassembler.inProgress.get? key = some p)
    (hq : (s.step event).reassembler.inProgress.get? key = some q) : p.Keeps q := by
  cases event with
  | feed frag =>
    have hentry := Reassembler.entry_of_some hp
    rcases (s.reassembler.feed_spec frag).1.get? key q hq with hold | ⟨rfl,-,rfl | ⟨haccepts,rfl⟩⟩
    · cases hp.symm.trans hold
      exact .refl p
    · rw [hentry]
      exact .refl p
    · have hfits := (accepts_fits haccepts).1
      rw [hentry] at hfits ⊢
      have hbooked := (h.genuine _ p hp).booked
      rw [hbooked.length] at hfits
      exact (PartialMessage.store_spec hbooked _ hfits).2.1
  | popReady =>
    have hsame : s.reassembler.inProgress.get? key = some q := by
      rcases s.reassembler.popReady_spec with ⟨hnone,-⟩ | ⟨key',p',-,-,-,hpop⟩
      · simpa [Session.step,hnone] using hq
      · have hq' : (s.reassembler.dispatch key' p').2.inProgress.get? key = some q := by
          simpa [Session.step,hpop] using hq
        exact Reassembler.get?_dispatch hq'
    cases hp.symm.trans hsame
    exact .refl p
end Step
theorem safe_run (maxMessageLen maxInProgress : Nat) (events : List Event) :
    Safe maxMessageLen maxInProgress (Trace.run step (start maxMessageLen maxInProgress) events) :=
  Trace.Along.invariant (P := fun _ _ => True) (fun _ event h _ => h.step event)
    (Trace.Along.of_forall _ fun _ _ => trivial) (safe_start _ _)

/-- The candidate is there in every state on the way. -/
def HeldThrough (key : CandidateKey) : Session → List Event → Prop
  | s, [] => (s.reassembler.inProgress.get? key).isSome
  | s, event :: events =>
    (s.reassembler.inProgress.get? key).isSome ∧ HeldThrough key (s.step event) events

theorem HeldThrough.head (h : HeldThrough key s events) : ∃ p, s.reassembler.inProgress.get? key = some p := by
  cases events with
  | nil => exact isSome_iff_exists.mp h
  | cons event events => exact isSome_iff_exists.mp h.1

theorem Safe.keeps_run (h : Safe maxMessageLen maxInProgress s) {p : PartialMessage}
    (hp : s.reassembler.inProgress.get? key = some p) (hheld : HeldThrough key s events) :
    ∃ q, (Trace.run Session.step s events).reassembler.inProgress.get? key = some q ∧ p.Keeps q := by
  induction events generalizing s p with
  | nil => exact ⟨p,hp,.refl p⟩
  | cons event events ih =>
    obtain ⟨q,hq⟩ := hheld.2.head
    obtain ⟨q',hq',hkeeps⟩ := ih (h.step event) hq hheld.2
    exact ⟨q',hq',(h.keeps event hp hq).trans hkeeps⟩

theorem Safe.bufferedBytes_le
    (h : Safe maxMessageLen maxInProgress s) : s.bufferedBytes ≤ maxInProgress * maxMessageLen := by
  refine (SortedMap.sum_le_length_mul _ fun e he => ?_).trans (Nat.mul_le_mul_right _ h.few)
  have hgenuine := h.genuine e.1 e.2 ((get?_eq_some_iff _ _ _).mpr he)
  rw [hgenuine.booked.length,hgenuine.total_eq]
  exact hgenuine.short

/-- Whatever arrives, in whatever order: the buffers stay within their bounds, the books of every
candidate are in order, bytes stay what they are, and what is handed out was carried by accepted
fragments, in sequence. -/
theorem reassembler_safe (maxMessageLen maxInProgress : Nat) (events : List Event) :
    let s := Trace.run step (start maxMessageLen maxInProgress) events
    s.reassembler.inProgress.length ≤ maxInProgress ∧
      s.bufferedBytes ≤ maxInProgress * maxMessageLen ∧
      (∀ e ∈ s.reassembler.inProgress.entries,
        e.2.receivedCount = e.2.received.count e.2.totalLength ∧
          ∀ x, e.2.isReceived x = true → x < e.2.totalLength) ∧
      (∀ key p later, s.reassembler.inProgress.get? key = some p → HeldThrough key s later →
        ∃ q, (Trace.run step s later).reassembler.inProgress.get? key = some q ∧
          ∀ x, p.isReceived x = true → q.isReceived x = true ∧ q.buf[x]? = p.buf[x]?) ∧
      (∀ d ∈ s.dispatched, ∀ x b, d.2.2[x]? = some b →
        ∃ frag ∈ s.accepted, frag.key = ⟨d.1,d.2.1,d.2.2.length⟩ ∧ frag.fragmentOffset ≤ x ∧
          frag.fragment[x - frag.fragmentOffset]? = some b) ∧
      ∀ i d d', s.dispatched[i]? = some d → s.dispatched[i + 1]? = some d' →
        d'.1 = (d.1 + 1) % 2 ^ 16 := by
  have h := safe_run maxMessageLen maxInProgress events
  refine ⟨h.few,h.bufferedBytes_le,fun e he => ?_,fun key p later hp hheld => h.keeps_run hp hheld,
    h.origin,fun i d d' hd hd' => ?_⟩
  · have hbooked := (h.genuine e.1 e.2 ((get?_eq_some_iff _ _ _).mpr he)).booked
    exact ⟨hbooked.count,hbooked.inside⟩
  · rw [h.seqs i d hd,h.seqs (i + 1) d' hd',Nat.mod_add_mod]
end Session
end PureCrypto.Dtls
