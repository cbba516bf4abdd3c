import PureCrypto.Quic.StreamsSteps

/-! # Rejected frames -/
namespace PureCrypto.Quic.Streams
/-- The receive state of the connection, and of every stream in the table. -/
structure KeepsReceived (s s' : Streams) : Prop where
  connRecvUsed : s'.connRecvUsed = s.connRecvUsed
  connConsumed : s'.connConsumed = s.connConsumed
  connRecvMax : s'.connRecvMax = s.connRecvMax
  streamHighOffset : s'.streamHighOffset = s.streamHighOffset
  recvHalf : ∀ id, s.map.contains id = true → s'.recvHalf id = s.recvHalf id
variable {s s' : Streams} {id : Nat} {e : StreamError}
theorem onStreamLive_error {offset : Nat} {fin : Bool} {data : List UInt8}
    (h : s.onStreamLive id offset fin data = (.error e, s')) : s' = s := by
  simp only [onStreamLive] at h
  split_ifs at h
  · cases h
    rfl
  · cases hrecv : s.recvHalf id with
    | none =>
      rw [hrecv] at h
      cases h
      rfl
    | some recv =>
      simp only [hrecv] at h
      rcases recv.onData_cases offset data fin with ⟨e,heq⟩ | ⟨-,heq,-⟩ | ⟨-,-,heq⟩
      all_goals
        rw [heq] at h
        cases h
      exact setRecv_self hrecv

theorem onResetLive_error {appError finalSize : Nat}
    (h : s.onResetLive id appError finalSize = (.error e, s')) : s' = s := by
  simp only [onResetLive] at h
  split_ifs at h
  · cases h
    rfl
  · cases h
    rfl
  · cases hrecv : s.recvHalf id with
    | none =>
      rw [hrecv] at h
      cases h
      rfl
    | some recv =>
      simp only [hrecv] at h
      rcases recv.onReset_cases appError finalSize with ⟨e,heq⟩ | ⟨-,-,-,-,⟨-,heq⟩ | ⟨-,heq⟩⟩
      all_goals
        rw [heq] at h
        cases h
      exact setRecv_self hrecv

theorem KeepsReceived.refl (s : Streams) : KeepsReceived s s := ⟨rfl,rfl,rfl,rfl,fun _ _ => rfl⟩

theorem keepsReceived_openRemote (hnew : s.map.get? id = none) : KeepsReceived s (s.openRemote id) := by
  refine ⟨?_,?_,?_,?_,fun j hj => ?_⟩
  iterate 4
    unfold openRemote
    cases dirOf id <;> rfl
  have hne : j ≠ id := by
    rintro rfl
    rw [(s.map.contains_eq_false_iff j).mpr hnew] at hj
    cases hj
  rw [recvHalf,map_openRemote,s.map.get?_insert,if_neg hne,recvHalf]

/-- Whatever the state, a rejected frame changes nothing that was counted or received. -/
theorem rejected_frame_keeps_received (s : Streams) (id : Nat) :
    (∀ offset fin data e s', s.onStream id offset fin data = (.error e, s') → KeepsReceived s s') ∧
      ∀ appError finalSize e s', s.onReset id appError finalSize = (.error e, s') → KeepsReceived s s' := by
  constructor
  · intro offset fin data e s' h
    rw [onStream] at h
    rcases s.ensureRemoteStreamExists_cases (g := .any) id with ⟨e,heq⟩ | heq | heq | ⟨heq,hnew,-⟩ <;> rw [heq] at h
    · cases h
      exact .refl s
    · simp only at h
      split_ifs at h <;> cases h
      exact .refl s
    · exact onStreamLive_error h ▸ .refl s
    · exact onStreamLive_error h ▸ keepsReceived_openRemote hnew
  · intro appError finalSize e s' h
    rw [onReset] at h
    rcases s.ensureRemoteStreamExists_cases (g := .any) id with ⟨e,heq⟩ | heq | heq | ⟨heq,hnew,-⟩ <;> rw [heq] at h
    · cases h
      exact .refl s
    · cases h
    · exact onResetLive_error h ▸ .refl s
    · exact onResetLive_error h ▸ keepsReceived_openRemote hnew

/-- The connection's two bytes are used up: data on the same stream and a reset of a new one are refused. -/
theorem rejected_frame_keeps_received_full :
    let s := Trace.run step (Streams.new .server (.uniform 2 2) (.uniform 0 0)) [.onStream 0 0 false [7, 8]]
    (s.onStream 0 2 false [9]).1 = .error .flowControl ∧ KeepsReceived s (s.onStream 0 2 false [9]).2 ∧
      (s.onReset 4 0 1).1 = .error .flowControl ∧ KeepsReceived s (s.onReset 4 0 1).2 := by
  intro s
  exact ⟨rfl,(rejected_frame_keeps_received s 0).1 2 false [9] _ _ rfl,rfl,
    (rejected_frame_keeps_received s 4).2 0 1 _ _ rfl⟩
end PureCrypto.Quic.Streams
