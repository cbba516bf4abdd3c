import PureCrypto.Framework.SortedMap
import PureCrypto.Quic.StreamTypes

/-!
# The receive half of a stream

`RecvStream` of `quic/stream.rs`: gap-buffered reassembly of STREAM frames, per-stream credit
and the final-size bookkeeping.  An operation returns its result next to the state it leaves
behind, also when it fails.
-/
namespace PureCrypto.Quic
/-- Hard cap on the out-of-order fragments one receive stream buffers. -/
def maxPendingFragments : Nat := 128

structure RecvStream where
  state : RecvState
  /-- Bytes the application can read; the front is at `readOff`. -/
  delivered : List UInt8
  /-- Offset of the next byte reassembly has not released. -/
  nextOffset : Nat
  readOff : Nat
  /-- Out-of-order fragments keyed by start offset. -/
  pending : SortedMap Nat (List UInt8)
  pendingBytes : Nat
  /-- Total stream length once it is known. -/
  finOffset : Option Nat
  maxData : Nat
  maxDataAnnounced : Nat
  window : Nat
  resetCode : Option Nat
  stopSendingSent : Bool
  stopSendingPending : Option Nat
  maxDataPending : Bool
  /-- Bytes of this stream already credited to the connection's consumed total. -/
  connFcCredited : Nat
namespace RecvStream
def new (maxData : Nat) : RecvStream where
  state := .recv
  delivered := []
  nextOffset := 0
  readOff := 0
  pending := .empty
  pendingBytes := 0
  finOffset := none
  maxData := maxData
  maxDataAnnounced := maxData
  window := maxData
  resetCode := none
  stopSendingSent := false
  stopSendingPending := none
  maxDataPending := false
  connFcCredited := 0

/-- The peer has reset the stream, whether or not the application has seen it. -/
def isReset (r : RecvStream) : Bool := r.state == .resetRecvd || r.state == .resetRead

def isReadable (r : RecvStream) : Bool :=
  !r.delivered.isEmpty || r.state == .dataRecvd || r.state == .resetRecvd
def isFinished (r : RecvStream) : Bool :=
  (r.state == .dataRead || r.state == .resetRead) && r.delivered.isEmpty

/-- The largest end of a buffered fragment, zero without one. -/
def highestPending (r : RecvStream) : Nat :=
  (r.pending.entries.map (fun e => e.1 + e.2.length)).foldr max 0

/-- Absorb the pending fragments at or below `nextOffset`. -/
def absorb (r : RecvStream) : List (Nat × List UInt8) → RecvStream
  | [] => r
  | (pOff, frag) :: rest =>
    if pOff ≤ r.nextOffset then
      let r := { r with
        pending := r.pending.erase pOff
        pendingBytes := r.pendingBytes - frag.length }
      let pEnd := pOff + frag.length
      if pEnd ≤ r.nextOffset then absorb r rest
      else absorb { r with
        delivered := r.delivered ++ frag.drop (r.nextOffset - pOff)
        nextOffset := pEnd } rest
    else r

/-- In-order data: append it, then release the fragments it reaches. -/
def appendInOrder (r : RecvStream) (data : List UInt8) : RecvStream :=
  let r := { r with
    delivered := r.delivered ++ data
    nextOffset := r.nextOffset + data.length }
  r.absorb r.pending.entries

/-- The sub-ranges from `cursor` to `newEnd` that none of the listed fragments holds. -/
def uncovered (newEnd : Nat) (cursor : Nat) : List (Nat × List UInt8) → List (Nat × Nat)
  | [] => if cursor < newEnd then [(cursor, newEnd)] else []
  | (pOff, pData) :: rest =>
    let pEnd := pOff + pData.length
    if pEnd ≤ cursor then uncovered newEnd cursor rest
    else
      let later := if newEnd ≤ pEnd then [] else uncovered newEnd pEnd rest
      if cursor < pOff then (cursor, pOff) :: later else later

/-- The fragments the walk for a frame on `[offset, newEnd)` visits. -/
def walk (r : RecvStream) (offset newEnd : Nat) : List (Nat × List UInt8) :=
  let walkFrom := match r.pending.lastLE offset with
    | some (k, _) => k
    | none => offset
  r.pending.range walkFrom newEnd

/-- Append a piece to the fragment that ends where it starts, or make it a fragment of its own. -/
def storePiece (offset : Nat) (data : List UInt8) (r : RecvStream) (piece : Nat × Nat) :
    Option RecvStream :=
  let (pStart, pEnd) := piece
  let bytes := (data.drop (pStart - offset)).take (pEnd - pStart)
  let budget := r.maxData - r.nextOffset
  let projected := r.pendingBytes + bytes.length
  if budget < projected then none
  else
    match (r.pending.lastLT pStart).filter (fun e => e.1 + e.2.length == pStart) with
    | some (k, _) =>
      some { r with
        pending := r.pending.modify k (fun frag => frag ++ bytes)
        pendingBytes := projected }
    | none =>
      if maxPendingFragments ≤ r.pending.length then none
      else
        some { r with
          pendingBytes := projected
          pending := r.pending.insert pStart bytes }

/-- The first piece that cannot be stored drops the rest of the frame, without an error. -/
def storePieces (offset : Nat) (data : List UInt8) (r : RecvStream) :
    List (Nat × Nat) → RecvStream
  | [] => r
  | piece :: rest =>
    match storePiece offset data r piece with
    | none => r
    | some r' => storePieces offset data r' rest

/-- Out-of-order data: store what no pending fragment holds yet. -/
def storeOutOfOrder (r : RecvStream) (offset : Nat) (data : List UInt8) : RecvStream :=
  let newEnd := offset + data.length
  storePieces offset data r (uncovered newEnd offset (r.walk offset newEnd))

/-- The state a frame leaves once its bytes are placed. -/
def settleFin (r : RecvStream) : RecvStream :=
  if r.finOffset.isSome then
    if some r.nextOffset = r.finOffset ∧ r.pending.isEmpty then { r with state := .dataRecvd }
    else if r.state ≠ .dataRecvd then { r with state := .sizeKnown }
    else r
  else r

/-- Place the bytes of a frame that passed the checks, and count those that became contiguous. -/
def place (r : RecvStream) (offset : Nat) (data : List UInt8) (fin : Bool) (frameEnd : Nat) :
    Nat × RecvStream :=
  if r.stopSendingSent then (0, r)
  else if offset < r.nextOffset ∧ data.length ≤ r.nextOffset - offset then
    -- nothing new, but a FIN may complete the stream
    if fin ∧ r.nextOffset = frameEnd ∧ r.pending.isEmpty then
      (0, { r with state := .dataRecvd })
    else (0, r)
  else
    let data := if offset < r.nextOffset then data.drop (r.nextOffset - offset) else data
    let offset := if offset < r.nextOffset then r.nextOffset else offset
    if offset = r.nextOffset then
      let r' := r.appendInOrder data
      (r'.nextOffset - r.nextOffset, r'.settleFin)
    else (0, (r.storeOutOfOrder offset data).settleFin)

def onData (r : RecvStream) (offset : Nat) (data : List UInt8) (fin : Bool) :
    Except StreamError Nat × RecvStream :=
  match checkedAdd offset data.length with
  | none => (.error .finalSize, r)
  | some frameEnd =>
    if r.isReset then
      match r.finOffset with
      | some final => if final < frameEnd then (.error .finalSize, r) else (.ok 0, r)
      | none => (.ok 0, r)
    else if r.maxData < frameEnd then (.error .flowControl, r)
    else if r.finOffset.any (fun prev => prev < frameEnd || (fin && frameEnd != prev)) then
      (.error .finalSize, r)
    else if fin then
      if frameEnd < r.nextOffset ∨ frameEnd < r.highestPending then (.error .finalSize, r)
      else if r.finOffset.any (fun prev => prev != frameEnd) then (.error .finalSize, r)
      else
        let (newlyContig, r) := { r with finOffset := some frameEnd }.place offset data fin frameEnd
        (.ok newlyContig, r)
    else
      let (newlyContig, r) := r.place offset data fin frameEnd
      (.ok newlyContig, r)

/-- Application read of up to `len` bytes: the bytes copied, and whether the FIN was seen. -/
def read (r : RecvStream) (len : Nat) : (List UInt8 × Bool) × RecvStream :=
  let copied := min len r.delivered.length
  let bytes := r.delivered.take copied
  let r := { r with
    delivered := r.delivered.drop copied
    readOff := r.readOff + copied }
  let finSeen := r.finOffset == some r.readOff &&
    (r.state == .dataRecvd || r.state == .sizeKnown || r.state == .dataRead)
  ((bytes, finSeen),
    if finSeen && r.delivered.isEmpty then { r with state := .dataRead } else r)

def onReset (r : RecvStream) (code finalSize : Nat) : Except StreamError Unit × RecvStream :=
  if finalSize < r.nextOffset then (.error .finalSize, r)
  else if r.maxData < finalSize then (.error .flowControl, r)
  else if finalSize < r.highestPending then (.error .finalSize, r)
  else if r.finOffset.any (fun prev => finalSize != prev) then (.error .finalSize, r)
  else if r.isReset then (.ok (), r)
  else (.ok (), { r with
    pending := .empty
    pendingBytes := 0
    delivered := []
    resetCode := some code
    finOffset := some finalSize
    state := .resetRecvd })

/-- The application has consumed the reset signal. -/
def ackReset (r : RecvStream) : RecvStream :=
  if r.state = .resetRecvd then { r with state := .resetRead } else r

theorem read_spec (r : RecvStream) (len : Nat) :
    ∃ st, (st = r.state ∨ st = .dataRead) ∧
      (r.read len).1.1 = r.delivered.take (min len r.delivered.length) ∧
      (r.read len).2 = { r with
        delivered := r.delivered.drop (min len r.delivered.length)
        readOff := r.readOff + min len r.delivered.length
        state := st } := by
  simp only [read,true_and]
  split_ifs
  · exact ⟨_,.inr rfl,rfl⟩
  · exact ⟨_,.inl rfl,rfl⟩

theorem read_state (r : RecvStream) (len : Nat) : (r.read len).2.state = r.state ∨ ((r.read len).2.state = .dataRead ∧
        (r.state = .dataRecvd ∨ r.state = .sizeKnown ∨ r.state = .dataRead) ∧
        (r.read len).2.delivered = [] ∧ r.finOffset = some (r.read len).2.readOff) := by
  simp only [read]
  split_ifs with hseen
  · refine .inr ⟨rfl,?_⟩
    simp only [Bool.and_eq_true,Bool.or_eq_true,beq_iff_eq,List.isEmpty_iff] at hseen
    obtain ⟨⟨hfin,hstate⟩,hempty⟩ := hseen
    exact ⟨or_assoc.mp hstate,hempty,hfin⟩
  · exact .inl rfl

theorem ackReset_rest (r : RecvStream) : r.ackReset = { r with state := r.ackReset.state } := by
  unfold ackReset
  split_ifs <;> rfl

/-- What the application's read leaves of a receive half. -/
structure AfterRead (r : RecvStream) (n : Nat) (r' : RecvStream) : Prop where
  le : n ≤ r.delivered.length
  rest : r' = { r with
    delivered := r.delivered.drop n
    readOff := r.readOff + n
    state := r'.state }
  state : r'.state = r.state ∨ (r.state = .resetRecvd ∧ r'.state = .resetRead) ∨
    (r.isReset = false ∧ r'.state = .dataRead ∧ r'.delivered = [] ∧ r.finOffset = some r'.readOff)
variable {r r' : RecvStream}
theorem afterRead {len : Nat} {bytes : List UInt8} {fin : Bool}
    (h : r.ackReset.read len = ((bytes, fin), r')) : AfterRead r bytes.length r' := by
  obtain ⟨st,-,hbytes,hrest⟩ := r.ackReset.read_spec len
  have hstate := r.ackReset.read_state len
  rw [h] at hbytes hrest hstate
  rw [r.ackReset_rest] at hbytes hrest
  simp only at hbytes hrest hstate
  have hlen : bytes.length = min len r.delivered.length := by
    rw [hbytes,List.length_take,Nat.min_eq_left (min_le_right _ _)]
  have hst : r'.state = st := by rw [hrest]
  constructor
  · rw [hlen]
    exact min_le_right _ _
  · rw [hst,hlen]
    exact hrest
  · by_cases hreset : r.state = .resetRecvd
    · have hack : r.ackReset.state = .resetRead := by rw [ackReset,if_pos hreset]
      rw [hack] at hstate
      rcases hstate with hsame | ⟨-,hwas,-⟩
      · exact .inr (.inl ⟨hreset,hsame⟩)
      · rcases hwas with hwas | hwas | hwas <;> cases hwas
    · have hack : r.ackReset = r := by rw [ackReset,if_neg hreset]
      rw [hack] at hstate
      rcases hstate with hsame | ⟨hread,hwas,hempty,hfin⟩
      · exact .inl hsame
      · refine .inr (.inr ⟨?_,hread,hempty,hfin⟩)
        rcases hwas with hwas | hwas | hwas <;> simp [isReset,hwas]

theorem AfterRead.isReset_eq {n : Nat} (h : AfterRead r n r') : r'.isReset = r.isReset := by
  unfold isReset
  rcases h.state with hst | ⟨hwas,hst⟩ | ⟨hopen,hst,-⟩
  · rw [hst]
  · rw [hwas,hst]
    rfl
  · rw [isReset] at hopen
    rw [hopen,hst]
    rfl

/-- A frame that carries the FIN fixes the final size. -/
def noteFin (r : RecvStream) (fin : Bool) (frameEnd : Nat) : RecvStream :=
  if fin then { r with finOffset := some frameEnd } else r

theorem noteFin_rest (r : RecvStream) (fin : Bool) (frameEnd : Nat) :
    r.noteFin fin frameEnd = { r with finOffset := (r.noteFin fin frameEnd).finOffset } := by
  cases fin <;> rfl

/-- The checks of `on_data` on a stream that was not reset. -/
structure Accepts (r : RecvStream) (frameEnd : Nat) (fin : Bool) : Prop where
  credit : frameEnd ≤ r.maxData
  final : ∀ size, r.finOffset = some size → frameEnd ≤ size ∧ (fin = true → frameEnd = size)
  ended : fin = true → r.nextOffset ≤ frameEnd ∧ r.highestPending ≤ frameEnd

theorem onData_cases (r : RecvStream) (offset : Nat) (data : List UInt8) (fin : Bool) :
    (∃ e, r.onData offset data fin = (.error e, r)) ∨ (r.isReset = true ∧ r.onData offset data fin = (.ok 0, r) ∧
      ∀ size, r.finOffset = some size → offset + data.length ≤ size) ∨
    (r.isReset = false ∧ r.Accepts (offset + data.length) fin ∧ r.onData offset data fin =
        (.ok ((r.noteFin fin (offset + data.length)).place offset data fin
            (offset + data.length)).1, ((r.noteFin fin (offset + data.length)).place offset data fin
            (offset + data.length)).2)) := by
  unfold onData
  cases hadd : checkedAdd offset data.length with
  | none => exact .inl ⟨_,rfl⟩
  | some frameEnd =>
    obtain ⟨rfl,-⟩ := checkedAdd_eq_some hadd
    simp only
    by_cases hreset : r.isReset = true
    · rw [if_pos hreset]
      cases hfin : r.finOffset with
      | none => exact .inr (.inl ⟨hreset,rfl,nofun⟩)
      | some final =>
        by_cases hlt : final < offset + data.length
        · exact .inl ⟨_,if_pos hlt⟩
        · refine .inr (.inl ⟨hreset,if_neg hlt,?_⟩)
          intro size h
          cases h
          omega
    rw [if_neg hreset]
    by_cases hcredit : r.maxData < offset + data.length
    · exact .inl ⟨_,if_pos hcredit⟩
    rw [if_neg hcredit]
    by_cases hany : r.finOffset.any (fun prev =>
        prev < offset + data.length || (fin && offset + data.length != prev)) = true
    · exact .inl ⟨_,if_pos hany⟩
    rw [if_neg hany]
    have hfinal : ∀ size, r.finOffset = some size →
        offset + data.length ≤ size ∧ (fin = true → offset + data.length = size) := by
      intro size hsize
      simp only [hsize,Option.any_some,Bool.or_eq_true,decide_eq_true_eq,Bool.and_eq_true,
        bne_iff_ne,ne_eq,not_or,not_lt,not_and,not_not] at hany
      exact hany
    cases fin with
    | false =>
      refine .inr (.inr ⟨by simpa using hreset,⟨by omega,hfinal,by simp⟩,rfl⟩)
    | true =>
      by_cases hshort : offset + data.length < r.nextOffset ∨
          offset + data.length < r.highestPending
      · exact .inl ⟨_,if_pos hshort⟩
      · have hsame : ¬ r.finOffset.any (fun prev => prev != offset + data.length) = true := by
          cases hsize : r.finOffset with
          | none => simp
          | some size => simp [((hfinal size hsize).2 rfl)]
        refine .inr (.inr ⟨by simpa using hreset,⟨by omega,hfinal,?_⟩,?_⟩)
        · omega
        · simp only [if_true,if_neg hshort,if_neg hsame]
          rfl

theorem onReset_cases (r : RecvStream) (code finalSize : Nat) :
    (∃ e, r.onReset code finalSize = (.error e, r)) ∨
    (r.nextOffset ≤ finalSize ∧ finalSize ≤ r.maxData ∧ r.highestPending ≤ finalSize ∧
      (∀ size, r.finOffset = some size → size = finalSize) ∧
      ((r.isReset = true ∧ r.onReset code finalSize = (.ok (), r)) ∨
        (r.isReset = false ∧ r.onReset code finalSize = (.ok (), { r with
          pending := .empty
          pendingBytes := 0
          delivered := []
          resetCode := some code
          finOffset := some finalSize
          state := .resetRecvd })))) := by
  unfold onReset
  by_cases hnext : finalSize < r.nextOffset
  · exact .inl ⟨_,if_pos hnext⟩
  rw [if_neg hnext]
  by_cases hmax : r.maxData < finalSize
  · exact .inl ⟨_,if_pos hmax⟩
  rw [if_neg hmax]
  by_cases hpending : finalSize < r.highestPending
  · exact .inl ⟨_,if_pos hpending⟩
  rw [if_neg hpending]
  by_cases hfinal : r.finOffset.any (fun prev => finalSize != prev) = true
  · exact .inl ⟨_,if_pos hfinal⟩
  rw [if_neg hfinal]
  refine .inr ⟨not_lt.mp hnext,not_lt.mp hmax,not_lt.mp hpending,?_,?_⟩
  · intro size hsize
    simp only [hsize,Option.any_some,bne_iff_ne,ne_eq,not_not] at hfinal
    exact hfinal.symm
  · cases hreset : r.isReset with
    | true => exact .inl ⟨rfl,rfl⟩
    | false => exact .inr ⟨rfl,rfl⟩

theorem onData_open {offset : Nat} {data : List UInt8} (hbound : offset + data.length < u64Bound)
    (hopen : r.isReset = false) (hcredit : offset + data.length ≤ r.maxData)
    (hfin : r.finOffset = none) : r.onData offset data false =
      (.ok (r.place offset data false (offset + data.length)).1,
        (r.place offset data false (offset + data.length)).2) := by
  have hadd : checkedAdd offset data.length = some (offset + data.length) := if_pos hbound
  have hlt : ¬ r.maxData < offset + data.length := by omega
  simp [onData,hadd,hopen,if_neg hlt,hfin]
end RecvStream
end PureCrypto.Quic
