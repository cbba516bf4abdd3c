import PureCrypto.Quic.PeerSlots

/-! # Admission of the peer's streams -/
namespace PureCrypto.Quic
namespace Streams
variable {s : Streams}
/-- Below the announced limit, the cap on live streams is the only reason to refuse. -/
theorem ensureRemoteStreamExists_limit_iff {id : Nat}
    (hbounded : (s.peerStreams (dirOf id)).Bounded) (hpeer : s.isPeerInitiated id = true)
    (hauthorised : id / 4 < (s.peerStreams (dirOf id)).selfMax) :
    (s.ensureRemoteStreamExists id).1 = .error .streamLimit ↔ s.map.contains id = false ∧
        ((s.peerStreams (dirOf id)).used ≤ id / 4 ∨
          id / 4 ∈ (s.peerStreams (dirOf id)).implicitOpen) ∧ s.liveStreamCap ≤ s.map.length := by
  have hmax : ¬(s.peerStreams (dirOf id)).selfMax <
      max (s.peerStreams (dirOf id)).used (id / 4 + 1) :=
    not_lt.mpr (max_le hbounded.used_le hauthorised)
  unfold ensureRemoteStreamExists
  cases hlive : s.map.contains id with
  | true => simp
  | false =>
    simp only [hpeer,Bool.false_eq_true,if_false,Bool.not_true,if_neg hmax,true_and]
    by_cases hretired : id / 4 < (s.peerStreams (dirOf id)).used ∧
        id / 4 ∉ (s.peerStreams (dirOf id)).implicitOpen
    · simp [hretired.1,hretired.2]
    · rw [if_neg hretired]
      have hopen : (s.peerStreams (dirOf id)).used ≤ id / 4 ∨
          id / 4 ∈ (s.peerStreams (dirOf id)).implicitOpen := by
        by_contra hnot
        rw [not_or,not_le] at hnot
        exact hretired hnot
      simp only [hopen,true_and]
      by_cases hcap : s.liveStreamCap ≤ s.map.length
      · simp [hcap]
      · simp [hcap]

/-- In every state, a stream of the peer below the limit is admitted exactly if it is live or
retired, or the table has room for one more stream. -/
theorem admission_of_authorised (role : Role) (our peer : TransportParameters)
    (ops : List StreamsOp) (id : Nat) :
    let s := Trace.run step (Streams.new role our peer) ops
    let p := s.peerStreams (dirOf id)
    s.isPeerInitiated id = true → id / 4 < p.selfMax →
      ((s.ensureRemoteStreamExists id).1 ≠ .error .streamLimit ↔
        s.map.contains id = true ∨ (id / 4 < p.used ∧ id / 4 ∉ p.implicitOpen) ∨
          s.map.length < s.liveStreamCap) := by
  intro s p hpeer hauthorised
  have hs : Accounted s := (Accounted.new role our peer).run ops
  rw [Ne,ensureRemoteStreamExists_limit_iff (hs.books (dirOf id)).bounded hpeer hauthorised,
    not_and_or,not_and_or,not_or,Bool.not_eq_false,not_le,not_le]

theorem admission_of_authorised_first :
    let s := Trace.run step (Streams.new .client (.uniform 0 1) (.uniform 0 minLiveStreams)) [.openUni]
    (s.ensureRemoteStreamExists 1).1 ≠ .error .streamLimit := by
  exact (admission_of_authorised .client (.uniform 0 1) (.uniform 0 minLiveStreams) [.openUni] 1 (by decide) (by decide)).mpr
    (.inr (.inr (by decide)))

/-- The state `n` calls of `open_uni` leave. -/
structure Opened (s s' : Streams) (n : Nat) : Prop where
  length : s'.map.length = s.map.length + n
  opened : s'.openedLocalUni = s.openedLocalUni + n
  rest : s'.role = s.role ∧ s'.bidi = s.bidi ∧ s'.uni = s.uni ∧ s'.peerMaxUni = s.peerMaxUni
  live : ∀ id, s.isPeerInitiated id = true → s'.map.contains id = s.map.contains id

theorem opened_openUni (hs : Accounted s) (hroom : s.openedLocalUni < s.peerMaxUni) :
    Opened s (s.step .openUni) 1 := by
  have heq : s.step .openUni = { s with
      map := s.map.insert s.nextLocalUni (.newSend s.peerInitialMaxStreamDataUni)
      nextLocalUni := s.nextLocalUni + 4
      openedLocalUni := s.openedLocalUni + 1 } := by
    simp [step,openUni,if_neg (not_le.mpr hroom)]
  have hnew : s.map.get? s.nextLocalUni = none := hs.localIds.get?_nextLocal .uni
  rw [heq]
  refine ⟨s.map.length_insert_new _ hnew,rfl,⟨rfl,rfl,rfl,rfl⟩,?_⟩
  intro id hpeer
  have hne : id ≠ s.nextLocalUni := by
    rintro rfl
    have hlocal : s.isPeerInitiated s.nextLocalUni = false := (hs.localIds.nextLocal .uni).2
    rw [hlocal] at hpeer
    cases hpeer
  simp [SortedMap.contains,s.map.get?_insert_ne _ hne]

theorem opened_replicate (hs : Accounted s) (n : Nat) (hroom : s.openedLocalUni + n ≤ s.peerMaxUni) :
    Opened s (Trace.run step s (List.replicate n .openUni)) n := by
  induction n generalizing s with
  | zero => exact ⟨rfl,rfl,⟨rfl,rfl,rfl,rfl⟩,fun _ _ => rfl⟩
  | succ n ih =>
    have hfirst := opened_openUni hs (by omega)
    have hs1 : Accounted (s.step .openUni) := hs.run [.openUni]
    obtain ⟨hrole,hbidi,huni,hmax⟩ := hfirst.rest
    have hrest := ih hs1 (by rw [hfirst.opened]; omega)
    obtain ⟨hrole',hbidi',huni',hmax'⟩ := hrest.rest
    rw [List.replicate_succ,Trace.run_cons]
    refine ⟨?_,?_,⟨hrole'.trans hrole,hbidi'.trans hbidi,huni'.trans huni,hmax'.trans hmax⟩,?_⟩
    · rw [hrest.length,hfirst.length]
      omega
    · rw [hrest.opened,hfirst.opened]
      omega
    · intro id hpeer
      rw [← hfirst.live id hpeer]
      apply hrest.live
      unfold isPeerInitiated at hpeer ⊢
      rw [hrole]
      exact hpeer

theorem refused_of_opened {n : Nat} (hs : Accounted s)
    (h : Opened (Streams.new .client (.uniform 0 1) (.uniform 0 minLiveStreams)) s n) (hn : minLiveStreams ≤ n) :
    s.isPeerInitiated 1 = true ∧ 1 / 4 < (s.peerStreams (dirOf 1)).selfMax ∧
      (s.ensureRemoteStreamExists 1).1 = .error .streamLimit := by
  obtain ⟨hrole,hbidi,huni,-⟩ := h.rest
  have hpeer : s.isPeerInitiated 1 = true := by
    unfold isPeerInitiated
    rw [hrole]
    rfl
  have hp : s.peerStreams (dirOf 1) = .new 1 := hbidi
  have hgranted : 1 / 4 < (s.peerStreams (dirOf 1)).selfMax := by
    rw [hp]
    decide
  refine ⟨hpeer,hgranted,?_⟩
  rw [ensureRemoteStreamExists_limit_iff (hs.books (dirOf 1)).bounded hpeer hgranted]
  refine ⟨?_,.inl ?_,?_⟩
  · rw [h.live 1 rfl]
    rfl
  · rw [hp]
    exact Nat.zero_le _
  · have hcap : (Streams.new .client (.uniform 0 1) (.uniform 0 minLiveStreams)).liveStreamCap = minLiveStreams := by decide
    rw [h.length,liveStreamCap,hbidi,huni]
    change (Streams.new .client (.uniform 0 1) (.uniform 0 minLiveStreams)).liveStreamCap ≤ 0 + n
    rw [zero_add]
    exact hn

/-- With 4096 local streams open, the first stream of the peer is refused although the peer was
granted it. -/
theorem authorised_stream_refused :
    let s := Trace.run step (Streams.new .client (.uniform 0 1) (.uniform 0 minLiveStreams)) (List.replicate 4096 .openUni)
    s.isPeerInitiated 1 = true ∧ 1 / 4 < (s.peerStreams (dirOf 1)).selfMax ∧
      (s.ensureRemoteStreamExists 1).1 = .error .streamLimit :=
  refused_of_opened ((Accounted.new .client (.uniform 0 1) (.uniform 0 minLiveStreams)).run _)
    (opened_replicate (Accounted.new .client (.uniform 0 1) (.uniform 0 minLiveStreams)) 4096 (by decide)) (by decide)
end Streams
end PureCrypto.Quic
