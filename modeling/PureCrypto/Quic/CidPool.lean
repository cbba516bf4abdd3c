import PureCrypto.Framework.SortedMap
import PureCrypto.Framework.Trace
import PureCrypto.Quic.StreamTypes
import PureCrypto.Tls.Error

/-!
# The pool of connection IDs

`CidPool` of `quic/cid.rs` (RFC 9000 §5.1).  An operation returns its result together with the pool it
leaves, also when it fails.  A failure closes the connection; what it leaves is modelled all the same.
-/
namespace PureCrypto.Quic
open SortedMap (mem_keys_erase mem_keys_insert fromKey)
/-- At most twenty bytes. -/
structure ConnectionId where
  bytes : List UInt8
  length_le : bytes.length ≤ 20
deriving DecidableEq

structure CidEntry where
  cid : ConnectionId
  sequence : Nat
  resetToken : Option (Vector UInt8 16)
deriving DecidableEq

structure CidPool where
  entries : SortedMap Nat CidEntry
  activeSeq : Nat
  retirePriorTo : Nat
  limit : Nat
  pendingRetire : List Nat
  issuedHigh : Nat
namespace CidPool
def pendingRetireSlack : Nat := 8

def new (initial : ConnectionId) (initialResetToken : Option (Vector UInt8 16)) : CidPool where
  entries := SortedMap.empty.insert 0 ⟨initial, 0, initialResetToken⟩
  activeSeq := 0
  retirePriorTo := 0
  limit := 2
  pendingRetire := []
  issuedHigh := 0

def setLimit (p : CidPool) (limit : Nat) : CidPool := { p with limit := max limit 2 }
def pendingRetireCap (p : CidPool) : Nat := saturatingAdd p.limit pendingRetireSlack

def queuePendingRetire (p : CidPool) (sequence : Nat) : Except Tls.Error Unit × CidPool :=
  if sequence ∈ p.pendingRetire then (.ok (), p)
  else if p.pendingRetire.length ≥ p.pendingRetireCap then (.error .illegalParameter, p)
  else (.ok (), { p with pendingRetire := p.pendingRetire ++ [sequence] })

def live (p : CidPool) : Nat := (p.entries.fromKey p.retirePriorTo).length
def replacement (p : CidPool) : Option Nat := (p.entries.fromKey p.retirePriorTo).head?.map Prod.fst

def retireRetainedActive (p : CidPool) : Except Tls.Error Unit × CidPool :=
  if p.activeSeq ≥ p.retirePriorTo ∨ p.entries.contains p.activeSeq = false then (.ok (), p)
  else
    match p.replacement with
    | none => (.ok (), p)
    | some repl =>
      queuePendingRetire { p with activeSeq := repl, entries := p.entries.erase p.activeSeq } p.activeSeq

def add (p : CidPool) (entry : CidEntry) : Except Tls.Error Unit × CidPool :=
  match p.entries.get? entry.sequence with
  | some existing => if existing ≠ entry then (.error .illegalParameter, p) else (.ok (), p)
  | none =>
    if entry.sequence < p.retirePriorTo then p.queuePendingRetire entry.sequence
    else if p.live ≥ p.limit then (.error .illegalParameter, p)
    else
      retireRetainedActive { p with
        issuedHigh := max p.issuedHigh entry.sequence
        entries := p.entries.insert entry.sequence entry }

def retire (p : CidPool) (sequence : Nat) : Except Tls.Error (Option CidEntry) × CidPool :=
  if sequence > p.issuedHigh then (.error .illegalParameter, p)
  else if sequence = p.activeSeq ∧ p.entries.contains sequence = true then
    match p.entries.keys.find? (fun seq => decide (seq ≠ sequence)) with
    | none => (.error .illegalParameter, p)
    | some seq =>
      (.ok (p.entries.get? sequence), { p with activeSeq := seq, entries := p.entries.erase sequence })
  else (.ok (p.entries.get? sequence), { p with entries := p.entries.erase sequence })

/-- The loop over the dropped sequences; it stops at the first one that cannot be queued. -/
def dropAll (p : CidPool) : List Nat → Except Tls.Error Unit × CidPool
  | [] => (.ok (), p)
  | s :: dropped =>
    match queuePendingRetire { p with entries := p.entries.erase s } s with
    | (.error e, p) => (.error e, p)
    | (.ok (), p) => dropAll p dropped

/-- Rotate a retired active sequence to a surviving one. -/
def rotateActive (p : CidPool) : Option Nat × CidPool :=
  if p.activeSeq < p.retirePriorTo then
    match p.replacement with
    | some repl => (none, { p with activeSeq := repl })
    | none => (some p.activeSeq, p)
  else (none, p)

def noteRetirePriorTo (p : CidPool) (new : Nat) : Except Tls.Error Unit × CidPool :=
  if new ≤ p.retirePriorTo then (.ok (), p)
  else
    let (keepActive, p) := rotateActive { p with retirePriorTo := new }
    dropAll p (p.entries.keys.filter fun s => decide (s < new ∧ some s ≠ keepActive))

def active (p : CidPool) : Option CidEntry := p.entries.get? p.activeSeq

def popPendingRetire (p : CidPool) : Option Nat × CidPool :=
  match p.pendingRetire with
  | [] => (none, p)
  | s :: rest => (some s, { p with pendingRetire := rest })

def setToken (p : CidPool) (sequence : Nat) (token : Vector UInt8 16) : Bool × CidPool :=
  if p.entries.contains sequence then
    (true, { p with entries := p.entries.modify sequence fun e => { e with resetToken := some token } })
  else (false, p)

inductive Op
  | add (entry : CidEntry)
  | retire (sequence : Nat)
  | noteRetirePriorTo (new : Nat)
  | setToken (sequence : Nat) (token : Vector UInt8 16)
  | popPendingRetire
  | raiseLimit (amount : Nat)

def apply (p : CidPool) : Op → Bool × CidPool
  | .add entry => ((p.add entry).1.isOk, (p.add entry).2)
  | .retire sequence => ((p.retire sequence).1.isOk, (p.retire sequence).2)
  | .noteRetirePriorTo new => ((p.noteRetirePriorTo new).1.isOk, (p.noteRetirePriorTo new).2)
  | .setToken sequence token => (true, (p.setToken sequence token).2)
  | .popPendingRetire => (true, p.popPendingRetire.2)
  | .raiseLimit amount => (true, p.setLimit (p.limit + amount))

def step (p : CidPool) (op : Op) : CidPool := (p.apply op).2

structure QueueBounded (p : CidPool) : Prop where
  nodup : p.pendingRetire.Nodup
  length_le : p.pendingRetire.length ≤ p.limit + pendingRetireSlack

/-- What holds in every state, whatever has failed. -/
structure Sound (p : CidPool) : Prop where
  active_mem : p.activeSeq ∈ p.entries.keys
  live_le : p.live ≤ p.limit
  queue : QueueBounded p

/-- Only the active entry can be below `retirePriorTo`, and only alone. -/
def Settled (p : CidPool) : Prop :=
  ∀ s ∈ p.entries.keys, s < p.retirePriorTo → s = p.activeSeq ∧ ∀ t ∈ p.entries.keys, t < p.retirePriorTo

/-- What a queueing operation leaves as it was. -/
structure SameIndex (p q : CidPool) : Prop where
  entries : q.entries = p.entries
  activeSeq : q.activeSeq = p.activeSeq
  retirePriorTo : q.retirePriorTo = p.retirePriorTo
  limit : q.limit = p.limit

theorem queuePendingRetire_same (p : CidPool) (s : Nat) : SameIndex p (p.queuePendingRetire s).2 := by
  rw [queuePendingRetire]
  split_ifs <;> exact ⟨rfl,rfl,rfl,rfl⟩
variable {p q : CidPool} {l m : List Nat}
theorem QueueBounded.queuePendingRetire (h : QueueBounded p) (s : Nat) : QueueBounded (p.queuePendingRetire s).2 := by
  rw [CidPool.queuePendingRetire]
  split_ifs with hmem hfull
  · exact h
  · exact h
  · constructor
    · simpa [List.nodup_append] using ⟨h.nodup,fun t ht heq => hmem (heq ▸ ht)⟩
    · simp only [pendingRetireCap,saturatingAdd,not_le] at hfull
      simp only [List.length_append,List.length_singleton]
      omega

theorem mem_queuePendingRetire {s t : Nat} (h : t ∈ p.pendingRetire) :
    t ∈ (p.queuePendingRetire s).2.pendingRetire := by
  rw [queuePendingRetire]
  split_ifs <;> simp [h]

theorem queued_of_ok {s : Nat} (h : (p.queuePendingRetire s).1.isOk = true) :
    s ∈ (p.queuePendingRetire s).2.pendingRetire := by
  rw [queuePendingRetire] at h ⊢
  split_ifs at h ⊢ with hmem hfull
  · exact hmem
  · cases h
  · simp

/-- What the loop over `dropped` leaves: nothing else goes. -/
structure Dropped (dropped : List Nat) (p q : CidPool) : Prop where
  activeSeq : q.activeSeq = p.activeSeq
  retirePriorTo : q.retirePriorTo = p.retirePriorTo
  limit : q.limit = p.limit
  mem_of_mem : ∀ s ∈ q.entries.keys, s ∈ p.entries.keys
  kept : ∀ s ∈ p.entries.keys, s ∉ dropped → s ∈ q.entries.keys
  queue : QueueBounded p → QueueBounded q
  queued : ∀ s ∈ p.pendingRetire, s ∈ q.pendingRetire

theorem Dropped.one (p : CidPool) (s : Nat) :
    Dropped [s] p (queuePendingRetire { p with entries := p.entries.erase s } s).2 := by
  have hsame := queuePendingRetire_same { p with entries := p.entries.erase s } s
  constructor
  · exact hsame.activeSeq
  · exact hsame.retirePriorTo
  · exact hsame.limit
  · intro t ht
    rw [hsame.entries] at ht
    exact ((p.entries.mem_keys_erase s t).mp ht).2
  · intro t ht hne
    rw [hsame.entries]
    exact (p.entries.mem_keys_erase s t).mpr ⟨by simpa using hne,ht⟩
  · intro h
    have hq : QueueBounded { p with entries := p.entries.erase s } := ⟨h.nodup,h.length_le⟩
    exact hq.queuePendingRetire s
  · intro t ht
    exact mem_queuePendingRetire ht

theorem Dropped.trans {r : CidPool} (h : Dropped l p q) (h' : Dropped m q r) :
    Dropped (l ++ m) p r where
  activeSeq := h'.activeSeq.trans h.activeSeq
  retirePriorTo := h'.retirePriorTo.trans h.retirePriorTo
  limit := h'.limit.trans h.limit
  mem_of_mem s hs := h.mem_of_mem s (h'.mem_of_mem s hs)
  kept s hs hl := by
    rw [List.mem_append,not_or] at hl
    exact h'.kept s (h.kept s hs hl.1) hl.2
  queue hq := h'.queue (h.queue hq)
  queued s hs := h'.queued s (h.queued s hs)

theorem Dropped.mono (h : Dropped l p q) (hl : l ⊆ m) : Dropped m p q where
  activeSeq := h.activeSeq
  retirePriorTo := h.retirePriorTo
  limit := h.limit
  mem_of_mem := h.mem_of_mem
  kept s hs hm := h.kept s hs fun hmem => hm (hl hmem)
  queue := h.queue
  queued := h.queued

theorem dropAll_dropped (p : CidPool) (l : List Nat) : Dropped l p (p.dropAll l).2 := by
  induction l generalizing p with
  | nil =>
    exact ⟨rfl,rfl,rfl,fun _ h => h,fun _ h _ => h,fun h => h,fun _ h => h⟩
  | cons s l ih =>
    have hone := Dropped.one p s
    rw [dropAll]
    rcases hq : queuePendingRetire { p with entries := p.entries.erase s } s with ⟨r,q⟩
    rw [hq] at hone
    cases r with
    | error e => exact hone.mono (by simp)
    | ok u => exact hone.trans (ih q)

theorem dropAll_ok (h : (p.dropAll l).1.isOk = true) {s : Nat} (hs : s ∈ l) :
    s ∉ (p.dropAll l).2.entries.keys ∧ s ∈ (p.dropAll l).2.pendingRetire := by
  induction l generalizing p with
  | nil => cases hs
  | cons t l ih =>
    have hsame := queuePendingRetire_same { p with entries := p.entries.erase t } t
    have hqueued := queued_of_ok (p := { p with entries := p.entries.erase t }) (s := t)
    rw [dropAll] at h ⊢
    rcases hq : queuePendingRetire { p with entries := p.entries.erase t } t with ⟨r,q⟩
    rw [hq] at h hsame hqueued
    cases r with
    | error e => cases h
    | ok u =>
      have hrest := dropAll_dropped q l
      rcases List.mem_cons.mp hs with rfl | hs
      · constructor
        · intro hmem
          have hkeys := hrest.mem_of_mem s hmem
          rw [hsame.entries] at hkeys
          exact ((p.entries.mem_keys_erase s s).mp hkeys).1 rfl
        · exact hrest.queued s (hqueued rfl)
      · exact ih h hs

theorem live_le_of_subset (hprior : p.retirePriorTo ≤ q.retirePriorTo)
    (hkeys : ∀ s ∈ q.entries.keys, s ∈ p.entries.keys) : q.live ≤ p.live := by
  have hsub : (q.entries.fromKey q.retirePriorTo).map Prod.fst ⊆ (p.entries.fromKey p.retirePriorTo).map Prod.fst := by
    intro s hs
    obtain ⟨e,he,rfl⟩ := List.mem_map.mp hs
    obtain ⟨hmem,hle⟩ := (q.entries.mem_fromKey _ e).mp he
    obtain ⟨e',he',heq⟩ := List.mem_map.mp (hkeys e.1 (List.mem_map_of_mem hmem))
    exact List.mem_map.mpr ⟨e',(p.entries.mem_fromKey _ e').mpr ⟨he',by omega⟩,heq⟩
  have hnodup : ((q.entries.fromKey q.retirePriorTo).map Prod.fst).Nodup :=
    List.Pairwise.map Prod.fst (fun _ _ h => ne_of_lt h) (q.entries.fromKey_sorted _)
  have hle := (List.subperm_of_subset hnodup hsub).length_le
  simpa [live] using hle

theorem replacement_eq_some {repl : Nat} (h : p.replacement = some repl) :
    repl ∈ p.entries.keys ∧ p.retirePriorTo ≤ repl := by
  obtain ⟨e,he,rfl⟩ := Option.map_eq_some_iff.mp h
  obtain ⟨hmem,hle⟩ := (p.entries.mem_fromKey _ e).mp (List.mem_of_mem_head? he)
  exact ⟨List.mem_map_of_mem hmem,hle⟩

theorem replacement_eq_none (h : p.replacement = none) : ∀ s ∈ p.entries.keys, s < p.retirePriorTo := by
  intro s hs
  obtain ⟨e,he,rfl⟩ := List.mem_map.mp hs
  by_contra hle
  have hmem := (p.entries.mem_fromKey p.retirePriorTo e).mpr ⟨he,not_lt.mp hle⟩
  rw [replacement,Option.map_eq_none_iff,List.head?_eq_none_iff] at h
  rw [h] at hmem
  cases hmem

theorem rotateActive_cases (p : CidPool) :
    (p.rotateActive = (none, p) ∧ p.retirePriorTo ≤ p.activeSeq) ∨
      (∃ repl, p.replacement = some repl ∧ p.rotateActive = (none, { p with activeSeq := repl })) ∨
      (p.replacement = none ∧ p.rotateActive = (some p.activeSeq, p)) := by
  rw [rotateActive]
  split_ifs with hlt
  · cases hrepl : p.replacement with
    | some repl => exact .inr (.inl ⟨repl,rfl,rfl⟩)
    | none => exact .inr (.inr ⟨rfl,rfl⟩)
  · exact .inl ⟨rfl,not_lt.mp hlt⟩

theorem Sound.of_keys (h : Sound p) (hactive : q.activeSeq ∈ q.entries.keys)
    (hprior : p.retirePriorTo ≤ q.retirePriorTo) (hkeys : ∀ s ∈ q.entries.keys, s ∈ p.entries.keys)
    (hlimit : q.limit = p.limit) (hqueue : QueueBounded q) : Sound q where
  active_mem := hactive
  live_le := by
    rw [hlimit]
    exact (live_le_of_subset hprior hkeys).trans h.live_le
  queue := hqueue

theorem Sound.dropped (h : Sound p) (hd : Dropped l p q) (hactive : p.activeSeq ∉ l) : Sound q := by
  apply h.of_keys
  · rw [hd.activeSeq]
    exact hd.kept _ h.active_mem hactive
  · exact hd.retirePriorTo.ge
  · exact hd.mem_of_mem
  · exact hd.limit
  · exact hd.queue h.queue

theorem Sound.queuePendingRetire (h : Sound p) (s : Nat) : Sound (p.queuePendingRetire s).2 := by
  have hsame := queuePendingRetire_same p s
  apply h.of_keys
  · rw [hsame.entries,hsame.activeSeq]
    exact h.active_mem
  · exact hsame.retirePriorTo.ge
  · rw [hsame.entries]
    exact fun _ hs => hs
  · exact hsame.limit
  · exact h.queue.queuePendingRetire s

theorem Settled.of_same (h : Settled p) (hsame : SameIndex p q) : Settled q := by
  intro s hs hlt
  rw [hsame.entries] at hs
  rw [hsame.retirePriorTo] at hlt
  rw [hsame.entries,hsame.activeSeq,hsame.retirePriorTo]
  exact h s hs hlt

theorem Settled.of_le (h : ∀ s ∈ p.entries.keys, p.retirePriorTo ≤ s) : Settled p := by
  intro s hs hlt
  exact absurd (h s hs) (not_le.mpr hlt)

theorem Settled.le_of_active (h : Settled p) (hactive : p.retirePriorTo ≤ p.activeSeq) :
    ∀ s ∈ p.entries.keys, p.retirePriorTo ≤ s := by
  intro s hs
  by_contra hlt
  have heq := (h s hs (not_le.mp hlt)).1
  omega

theorem contains_of_mem_keys {s : Nat} (h : s ∈ p.entries.keys) : p.entries.contains s = true := by
  obtain ⟨v,hv⟩ := (p.entries.mem_keys_iff s).mp h
  simp [SortedMap.contains,hv]

theorem retireRetainedActive_cases (hactive : p.activeSeq ∈ p.entries.keys) :
    (p.retireRetainedActive = (.ok (), p) ∧ (p.retirePriorTo ≤ p.activeSeq ∨ p.replacement = none)) ∨
      ∃ repl, p.replacement = some repl ∧ p.activeSeq < p.retirePriorTo ∧
        p.retireRetainedActive = CidPool.queuePendingRetire
          { p with activeSeq := repl, entries := p.entries.erase p.activeSeq } p.activeSeq := by
  have hcontains := contains_of_mem_keys hactive
  rw [retireRetainedActive]
  split_ifs with hskip
  · exact .inl ⟨rfl,.inl (hskip.resolve_right (by simp [hcontains]))⟩
  · rw [not_or,not_le] at hskip
    cases hrepl : p.replacement with
    | none => exact .inl ⟨rfl,.inr rfl⟩
    | some repl => exact .inr ⟨repl,rfl,hskip.1,rfl⟩

theorem Sound.retireRetainedActive (h : Sound p) : Sound p.retireRetainedActive.2 := by
  rcases retireRetainedActive_cases h.active_mem with ⟨heq,-⟩ | ⟨repl,hrepl,hlt,heq⟩
  · rw [heq]
    exact h
  · obtain ⟨hmem,hle⟩ := replacement_eq_some hrepl
    have hrotated : Sound { p with activeSeq := repl } := ⟨hmem,h.live_le,{ h.queue with }⟩
    rw [heq]
    exact hrotated.dropped (Dropped.one { p with activeSeq := repl } p.activeSeq) (by simp; omega)

theorem Sound.insert (h : Sound p) {entry : CidEntry} (hnew : p.entries.get? entry.sequence = none)
    (hlive : p.live < p.limit) (high : Nat) :
    Sound { p with issuedHigh := high, entries := p.entries.insert entry.sequence entry } where
  active_mem := (p.entries.mem_keys_insert _ _ _).mpr (.inr h.active_mem)
  live_le := by
    have hperm : (p.entries.insert entry.sequence entry).entries.Perm ((entry.sequence, entry) :: p.entries.entries) := by
      have hinsert := p.entries.insert_perm entry.sequence entry
      rwa [p.entries.erase_of_get?_none hnew] at hinsert
    have hlen := (hperm.filter fun e => decide (p.retirePriorTo ≤ e.1)).length_eq
    have hcons : (((entry.sequence, entry) :: p.entries.entries).filter
        fun e => decide (p.retirePriorTo ≤ e.1)).length ≤ p.live + 1 := by
      rw [List.filter_cons]
      split_ifs <;> simp [live,fromKey]
    have hle : ((p.entries.insert entry.sequence entry).fromKey p.retirePriorTo).length ≤ p.live + 1 := by
      rw [fromKey,hlen]
      exact hcons
    exact hle.trans hlive
  queue := { h.queue with }

theorem add_cases (p : CidPool) (entry : CidEntry) :
    (∃ r, p.add entry = (r, p) ∧ (r.isOk = true → entry.sequence ∈ p.entries.keys)) ∨
      (entry.sequence < p.retirePriorTo ∧ p.add entry = p.queuePendingRetire entry.sequence) ∨
      (p.entries.get? entry.sequence = none ∧ p.retirePriorTo ≤ entry.sequence ∧ p.live < p.limit ∧
        p.add entry = CidPool.retireRetainedActive { p with
          issuedHigh := max p.issuedHigh entry.sequence
          entries := p.entries.insert entry.sequence entry }) := by
  rw [add]
  cases hget : p.entries.get? entry.sequence with
  | some existing =>
    have hmem := (p.entries.mem_keys_iff _).mpr ⟨existing,hget⟩
    simp only
    split_ifs
    · exact .inl ⟨_,rfl,fun _ => hmem⟩
    · exact .inl ⟨_,rfl,fun _ => hmem⟩
  | none =>
    simp only
    split_ifs with hlt hfull
    · exact .inr (.inl ⟨hlt,rfl⟩)
    · exact .inl ⟨_,rfl,fun h => by cases h⟩
    · exact .inr (.inr ⟨trivial,not_lt.mp hlt,not_le.mp hfull,rfl⟩)

theorem Sound.add (h : Sound p) (entry : CidEntry) : Sound (p.add entry).2 := by
  rcases add_cases p entry with ⟨r,heq,-⟩ | ⟨-,heq⟩ | ⟨hnew,-,hlive,heq⟩ <;> rw [heq]
  · exact h
  · exact h.queuePendingRetire _
  · exact (h.insert hnew hlive _).retireRetainedActive

theorem Settled.add (h : Settled p) (hsound : Sound p) (entry : CidEntry) : Settled (p.add entry).2 := by
  rcases add_cases p entry with ⟨r,heq,-⟩ | ⟨-,heq⟩ | ⟨hnew,hle,hlive,heq⟩
  · rw [heq]
    exact h
  · rw [heq]
    exact h.of_same (queuePendingRetire_same p _)
  · have hinsert := hsound.insert hnew hlive (max p.issuedHigh entry.sequence)
    rw [heq]
    rcases retireRetainedActive_cases hinsert.active_mem with ⟨heq',hdone⟩ | ⟨repl,-,hlt,heq'⟩ <;> rw [heq']
    · apply Settled.of_le
      intro s hs
      rcases (p.entries.mem_keys_insert _ _ _).mp hs with rfl | hs
      · exact hle
      · rcases hdone with hactive | hnone
        · exact h.le_of_active hactive s hs
        · -- the new entry is itself a replacement
          have := replacement_eq_none hnone entry.sequence ((p.entries.mem_keys_insert _ _ _).mpr (.inl rfl))
          exact absurd hle (not_le.mpr this)
    · have hsame := queuePendingRetire_same
        { p with
          issuedHigh := max p.issuedHigh entry.sequence
          activeSeq := repl
          entries := (p.entries.insert entry.sequence entry).erase p.activeSeq } p.activeSeq
      apply Settled.of_le
      intro s hs
      rw [hsame.entries] at hs
      rw [hsame.retirePriorTo]
      obtain ⟨hne,hs⟩ := (mem_keys_erase _ _ _).mp hs
      rcases (p.entries.mem_keys_insert _ _ _).mp hs with rfl | hs
      · exact hle
      · by_contra hs'
        exact hne (h s hs (not_le.mp hs')).1

theorem retire_cases (hactive : p.activeSeq ∈ p.entries.keys) (sequence : Nat) :
    (∃ e, p.retire sequence = (.error e, p)) ∨
      (∃ seq ∈ p.entries.keys, seq ≠ sequence ∧ sequence = p.activeSeq ∧
        (p.retire sequence).2 = { p with activeSeq := seq, entries := p.entries.erase sequence }) ∨
      (sequence ≠ p.activeSeq ∧ (p.retire sequence).2 = { p with entries := p.entries.erase sequence }) := by
  rw [retire]
  split_ifs with hhigh hact
  · exact .inl ⟨_,rfl⟩
  · cases hfind : p.entries.keys.find? (fun seq => decide (seq ≠ sequence)) with
    | none => exact .inl ⟨_,rfl⟩
    | some seq =>
      have hne : seq ≠ sequence := by simpa using List.find?_some hfind
      exact .inr (.inl ⟨seq,List.mem_of_find?_eq_some hfind,hne,hact.1,rfl⟩)
  · refine .inr (.inr ⟨?_,rfl⟩)
    intro heq
    exact hact ⟨heq,by rw [heq]; exact contains_of_mem_keys hactive⟩

theorem Sound.retire (h : Sound p) (sequence : Nat) : Sound (p.retire sequence).2 := by
  have hsub : ∀ s ∈ (p.entries.erase sequence).keys, s ∈ p.entries.keys :=
    fun s hs => ((p.entries.mem_keys_erase sequence s).mp hs).2
  rcases retire_cases h.active_mem sequence with ⟨e,heq⟩ | ⟨seq,hseq,hne,-,heq⟩ | ⟨hne,heq⟩ <;> rw [heq]
  · exact h
  · exact h.of_keys ((p.entries.mem_keys_erase _ _).mpr ⟨hne,hseq⟩) le_rfl hsub rfl
      { h.queue with }
  · exact h.of_keys ((p.entries.mem_keys_erase _ _).mpr ⟨hne.symm,h.active_mem⟩) le_rfl hsub rfl
      { h.queue with }

theorem Settled.retire (h : Settled p) (hsound : Sound p) (sequence : Nat) : Settled (p.retire sequence).2 := by
  rcases retire_cases hsound.active_mem sequence with ⟨e,heq⟩ | ⟨seq,hseq,hne,hact,heq⟩ | ⟨hne,heq⟩ <;> rw [heq]
  · exact h
  · -- an entry below would be the active one, and `seq` could not be stored next to it
    apply Settled.of_le
    intro s hs
    obtain ⟨hs',hs⟩ := (mem_keys_erase _ _ _).mp hs
    by_contra hlt
    exact hs' ((h s hs (not_le.mp hlt)).1.trans hact.symm)
  · intro s hs hlt
    obtain ⟨-,hs⟩ := (mem_keys_erase _ _ _).mp hs
    obtain ⟨hs,hall⟩ := h s hs hlt
    exact ⟨hs,fun t ht => hall t ((mem_keys_erase _ _ _).mp ht).2⟩

theorem Sound.rotateActive (h : Sound p) : Sound p.rotateActive.2 := by
  rcases rotateActive_cases p with ⟨heq,-⟩ | ⟨repl,hrepl,heq⟩ | ⟨-,heq⟩ <;> rw [heq]
  · exact h
  · exact ⟨(replacement_eq_some hrepl).1,h.live_le,{ h.queue with }⟩
  · exact h

theorem rotateActive_same (p : CidPool) :
    p.rotateActive.2.entries = p.entries ∧ p.rotateActive.2.retirePriorTo = p.retirePriorTo ∧
      p.rotateActive.2.pendingRetire = p.pendingRetire := by
  rcases rotateActive_cases p with ⟨heq,-⟩ | ⟨repl,-,heq⟩ | ⟨-,heq⟩ <;> rw [heq] <;> exact ⟨rfl,rfl,rfl⟩

theorem rotateActive_keeps (p : CidPool) :
    ¬(p.rotateActive.2.activeSeq < p.retirePriorTo ∧ some p.rotateActive.2.activeSeq ≠ p.rotateActive.1) := by
  rcases rotateActive_cases p with ⟨heq,hle⟩ | ⟨repl,hrepl,heq⟩ | ⟨-,heq⟩ <;> rw [heq]
  · exact fun h => absurd hle (not_le.mpr h.1)
  · exact fun h => absurd (replacement_eq_some hrepl).2 (not_le.mpr h.1)
  · exact fun h => h.2 rfl

theorem noteRetirePriorTo_cases (p : CidPool) (new : Nat) :
    (p.noteRetirePriorTo new = (.ok (), p)) ∨
      (p.retirePriorTo < new ∧ ∃ keep q, CidPool.rotateActive { p with retirePriorTo := new } = (keep, q) ∧
        p.noteRetirePriorTo new =
          q.dropAll (q.entries.keys.filter fun s => decide (s < new ∧ some s ≠ keep))) := by
  rw [noteRetirePriorTo]
  split_ifs with hle
  · exact .inl rfl
  · exact .inr ⟨not_le.mp hle,_,_,rfl,rfl⟩

theorem Sound.noteRetirePriorTo (h : Sound p) (new : Nat) : Sound (p.noteRetirePriorTo new).2 := by
  rcases noteRetirePriorTo_cases p new with heq | ⟨hlt,keep,q,hrotate,heq⟩
  · rw [heq]
    exact h
  · have hraised : Sound { p with retirePriorTo := new } :=
      h.of_keys h.active_mem hlt.le (fun _ hs => hs) rfl { h.queue with }
    have hsound := hraised.rotateActive
    have hkeeps := rotateActive_keeps { p with retirePriorTo := new }
    rw [hrotate] at hsound hkeeps
    rw [heq]
    apply hsound.dropped (dropAll_dropped q _)
    intro hmem
    exact hkeeps (by simpa using (List.mem_filter.mp hmem).2)

/-- Without an error only the kept active entry is left below. -/
theorem settled_noteRetirePriorTo (h : Settled p) (new : Nat)
    (hok : (p.noteRetirePriorTo new).1.isOk = true) : Settled (p.noteRetirePriorTo new).2 := by
  rcases noteRetirePriorTo_cases p new with heq | ⟨hlt,keep,q,hrotate,heq⟩
  · rw [heq]
    exact h
  · have hsame := rotateActive_same { p with retirePriorTo := new }
    rw [hrotate] at hsame
    rw [heq] at hok ⊢
    have hdropped := dropAll_dropped q (q.entries.keys.filter fun s => decide (s < new ∧ some s ≠ keep))
    have hprior : q.retirePriorTo = new := hsame.2.1
    intro s hs hslt
    rw [hdropped.retirePriorTo,hprior] at hslt
    have hkeep : some s = keep := by
      by_contra hne
      have hmem : s ∈ q.entries.keys.filter fun s => decide (s < new ∧ some s ≠ keep) :=
        List.mem_filter.mpr ⟨hdropped.mem_of_mem s hs,decide_eq_true ⟨hslt,hne⟩⟩
      exact (dropAll_ok hok hmem).1 hs
    rcases rotateActive_cases { p with retirePriorTo := new } with ⟨heq',-⟩ | ⟨repl,-,heq'⟩ | ⟨hnone,heq'⟩
    · rw [hrotate] at heq'
      simp [← hkeep] at heq'
    · rw [hrotate] at heq'
      simp [← hkeep] at heq'
    · rw [hrotate,Prod.mk.injEq,← hkeep,Option.some_inj] at heq'
      obtain ⟨rfl,rfl⟩ := heq'
      rw [hdropped.activeSeq,hdropped.retirePriorTo]
      exact ⟨rfl,fun t ht => replacement_eq_none hnone t (hdropped.mem_of_mem t ht)⟩

/-- What `retirePriorTo` drops is owed a RETIRE_CONNECTION_ID. -/
def DropsQueued (p : CidPool) : Op → Prop
  | .add entry => ∀ s, s ∈ p.entries.keys ∨ s = entry.sequence →
      s ∉ (p.add entry).2.entries.keys → s ∈ (p.add entry).2.pendingRetire
  | .noteRetirePriorTo new => ∀ s ∈ p.entries.keys,
      s ∉ (p.noteRetirePriorTo new).2.entries.keys → s ∈ (p.noteRetirePriorTo new).2.pendingRetire
  | _ => True

theorem dropsQueued_add (hsound : Sound p) (entry : CidEntry) (hok : (p.add entry).1.isOk = true) :
    DropsQueued p (.add entry) := by
  intro s hs hgone
  rcases add_cases p entry with ⟨r,heq,hstored⟩ | ⟨-,heq⟩ | ⟨hnew,hle,hlive,heq⟩
  · rw [heq] at hok hgone
    rcases hs with hs | rfl
    · exact absurd hs hgone
    · exact absurd (hstored hok) hgone
  · rw [heq] at hok hgone ⊢
    rcases hs with hs | rfl
    · rw [(queuePendingRetire_same p _).entries] at hgone
      exact absurd hs hgone
    · exact queued_of_ok hok
  · have hmem : s ∈ (p.entries.insert entry.sequence entry).keys := by
      rw [mem_keys_insert]
      exact hs.symm
    have hinsert := hsound.insert hnew hlive (max p.issuedHigh entry.sequence)
    rw [heq] at hok hgone ⊢
    rcases retireRetainedActive_cases hinsert.active_mem with ⟨heq',-⟩ | ⟨repl,-,-,heq'⟩
    · rw [heq'] at hgone
      exact absurd hmem hgone
    · rw [heq'] at hok hgone ⊢
      rw [(queuePendingRetire_same _ _).entries,mem_keys_erase] at hgone
      have hactive : s = p.activeSeq := by
        by_contra hne
        exact hgone ⟨hne,hmem⟩
      rw [hactive]
      exact queued_of_ok hok

theorem dropsQueued_noteRetirePriorTo (new : Nat) (hok : (p.noteRetirePriorTo new).1.isOk = true) :
    DropsQueued p (.noteRetirePriorTo new) := by
  intro s hs hgone
  rcases noteRetirePriorTo_cases p new with heq | ⟨-,keep,q,hrotate,heq⟩
  · rw [heq] at hgone
    exact absurd hs hgone
  · have hsame := rotateActive_same { p with retirePriorTo := new }
    rw [hrotate] at hsame
    have hs : s ∈ q.entries.keys := by rw [hsame.1]; exact hs
    rw [heq] at hok hgone ⊢
    have hmem : s ∈ q.entries.keys.filter fun s => decide (s < new ∧ some s ≠ keep) := by
      by_contra hnot
      exact hgone ((dropAll_dropped q _).kept s hs hnot)
    exact (dropAll_ok hok hmem).2

theorem Sound.step (h : Sound p) (op : Op) : Sound (p.step op) := by
  cases op with
  | add entry => exact h.add entry
  | retire sequence => exact h.retire sequence
  | noteRetirePriorTo new => exact h.noteRetirePriorTo new
  | setToken sequence token =>
    rw [CidPool.step,apply,setToken]
    split_ifs
    · have hkeys := p.entries.keys_modify sequence fun e => { e with resetToken := some token }
      exact h.of_keys (by simpa [hkeys] using h.active_mem) le_rfl (fun s hs => by simpa [hkeys] using hs) rfl
        { h.queue with }
    · exact h
  | popPendingRetire =>
    rw [CidPool.step,apply,popPendingRetire]
    cases hpending : p.pendingRetire with
    | nil => exact h
    | cons s rest =>
      have hnodup := h.queue.nodup
      have hlen := h.queue.length_le
      rw [hpending] at hnodup hlen
      exact ⟨h.active_mem,h.live_le,⟨hnodup.of_cons,(Nat.le_succ _).trans hlen⟩⟩
  | raiseLimit amount =>
    have hle : p.limit ≤ max (p.limit + amount) 2 := (Nat.le_add_right _ _).trans (le_max_left _ _)
    exact ⟨h.active_mem,h.live_le.trans hle,⟨h.queue.nodup,h.queue.length_le.trans (Nat.add_le_add_right hle _)⟩⟩

theorem Settled.step (h : Settled p) (hsound : Sound p) (op : Op)
    (hok : ∀ new, op = .noteRetirePriorTo new → (p.apply op).1 = true) : Settled (p.step op) := by
  cases op with
  | add entry => exact h.add hsound entry
  | retire sequence => exact h.retire hsound sequence
  | noteRetirePriorTo new => exact settled_noteRetirePriorTo h new (hok new rfl)
  | setToken sequence token =>
    rw [CidPool.step,apply,setToken]
    split_ifs
    · intro s hs hlt
      simp only [SortedMap.keys_modify] at hs ⊢
      exact h s hs hlt
    · exact h
  | popPendingRetire =>
    rw [CidPool.step,apply,popPendingRetire]
    cases p.pendingRetire with
    | nil => exact h
    | cons s rest => exact h.of_same ⟨rfl,rfl,rfl,rfl⟩
  | raiseLimit amount => exact h

theorem sound_new (initial : ConnectionId) (token : Option (Vector UInt8 16)) : Sound (new initial token) where
  active_mem := by
    rw [new,mem_keys_insert]
    exact .inl rfl
  live_le := by
    change ((SortedMap.empty.insert 0 (⟨initial,0,token⟩ : CidEntry)).fromKey 0).length ≤ 2
    exact (List.length_filter_le _ _).trans ((SortedMap.length_insert_le _ _ _).trans (by decide))
  queue := ⟨List.nodup_nil,Nat.zero_le _⟩

/-- In every state of every run the active sequence is stored, the limit is kept and the queue is
bounded; a call without an error owes what `retirePriorTo` dropped.  As long as no
`note_retire_prior_to` has failed, only the active entry can be below `retirePriorTo`, and only alone. -/
theorem pool_invariant (initial : ConnectionId) (token : Option (Vector UInt8 16)) (ops : List Op) :
    Sound (Trace.run step (new initial token) ops) ∧
      (∀ op, ((Trace.run step (new initial token) ops).apply op).1 = true →
        DropsQueued (Trace.run step (new initial token) ops) op) ∧
      (Trace.Along step (fun p op => ∀ n, op = .noteRetirePriorTo n → (p.apply op).1 = true)
          (new initial token) ops →
        Settled (Trace.run step (new initial token) ops)) := by
  have hsound : ∀ ops, Sound (Trace.run step (new initial token) ops) := by
    intro ops
    have halong : Trace.Along step (fun _ _ => True) (new initial token) ops :=
      Trace.Along.of_forall _ fun _ _ => trivial
    exact halong.invariant (fun p op h _ => h.step op) (sound_new initial token)
  refine ⟨hsound ops,?_,?_⟩
  · intro op hok
    cases op with
    | add entry => exact dropsQueued_add (hsound ops) entry hok
    | noteRetirePriorTo new => exact dropsQueued_noteRetirePriorTo new hok
    | _ => trivial
  · intro halong
    have hnew : Settled (new initial token) := Settled.of_le fun s _ => Nat.zero_le s
    have hstep : ∀ p op, (Sound p ∧ Settled p) → (∀ n, op = .noteRetirePriorTo n → (p.apply op).1 = true) →
        Sound (p.step op) ∧ Settled (p.step op) :=
      fun p op h hok => ⟨h.1.step op,h.2.step h.1 op hok⟩
    exact (halong.invariant hstep ⟨sound_new initial token,hnew⟩).2

private def entryAt (sequence : Nat) : CidEntry := ⟨⟨[], by decide⟩, sequence, none⟩

/-- A peer fills the queue and then retires three stored entries at once. All calls but the last succeed: that one
fails at the first of the two entries it can drop, and the other stays below `retirePriorTo` beside the active one. -/
theorem failed_note_leaves_retired :
    let ops : List Op := [.raiseLimit 1, .noteRetirePriorTo 100, .add (entryAt 100), .add (entryAt 101), .add (entryAt 102)] ++
      (List.range 10).map fun i => .add (entryAt (i + 1))
    Trace.Along step (fun p op => (p.apply op).1 = true) (new ⟨[], by decide⟩ none) ops ∧
      ¬Settled (Trace.run step (new ⟨[], by decide⟩ none) (ops ++ [.noteRetirePriorTo 103])) := by
  unfold Settled
  decide
end CidPool
end PureCrypto.Quic
