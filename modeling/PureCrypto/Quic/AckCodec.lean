import PureCrypto.Quic.AckRanges
import PureCrypto.Quic.Varint

/-!
# ACK ranges on the wire

`build_ack_payload` and `parse_ack_payload` of `quic/ack.rs`, and the raw form of `quic/frame.rs`.  A range is sent as
the gap to the range above it and its length, both less one.
-/
namespace PureCrypto.Quic.AckRanges
open ByteReader Tls List
open Varint (encode_eq reads_bytes bytes)
/-- The loop over the ranges below `prevSmallest`: the pairs written and their number. -/
def buildPairs (prevSmallest : Nat) : List AckRange → Nat × List UInt8 → Nat × List UInt8
  | [], built => built
  | r :: rest, (count, trailing) => buildPairs r.start rest <|
    if r.stop + 2 ≤ prevSmallest then
      (count + 1, Varint.encode (r.stop - r.start) (Varint.encode (prevSmallest - r.stop - 2) trailing))
    else (count, trailing)

/-- The delay in microseconds, scaled; the times are in nanoseconds. -/
def scaledDelay (largestArrival now ackDelayExponent : Nat) : Nat :=
  ((now - largestArrival) / 1000 % 2 ^ 64) >>> min ackDelayExponent 62

def buildAckPayload (ranges : List AckRange) (largestArrival now ackDelayExponent : Nat) : List UInt8 :=
  match ranges with
  | [] => []
  | r :: rest =>
    let (count, trailing) := buildPairs r.start rest (0, [])
    Varint.encode (r.stop - r.start) (Varint.encode count (Varint.encode
      (scaledDelay largestArrival now ackDelayExponent) (Varint.encode r.stop []))) ++ trailing

/-- The range that a pair stands for, below one that starts at `smallest`. -/
def nextRange (smallest gap len : Nat) : Except Tls.Error AckRange :=
  if smallest < gap + 2 then .error .decode
  else
    let largest := smallest - (gap + 2)
    if largest < len then .error .decode else .ok ⟨largest - len, largest⟩

def parsePairs : Nat → Nat → List AckRange → ByteReader Tls.Error (List AckRange)
  | 0, _, ranges => pure ranges
  | count + 1, smallest, ranges => do
    let gap ← Varint.read
    let len ← Varint.read
    let r ← StateT.lift (nextRange smallest gap len)
    parsePairs count r.start (ranges ++ [r])

/-- The ranges and the unscaled delay. -/
def readAckPayload : ByteReader Tls.Error (List AckRange × Nat) := do
  let largest ← Varint.read
  let ackDelayRaw ← Varint.read
  let rangeCount ← Varint.read
  let firstRange ← Varint.read
  if largest < firstRange then fail .decode
  else
    let ranges ← parsePairs rangeCount (largest - firstRange) [⟨largest - firstRange, largest⟩]
    pure (ranges, ackDelayRaw)

def parseAckPayload (body : List UInt8) : Except Tls.Error (List AckRange × Nat) :=
  Prod.fst <$> readAckPayload body

/-- The differences are those of `u64`. -/
def buildRaw (prevStart : Nat) : List AckRange → List UInt8 → List UInt8
  | [], raw => raw
  | r :: rest, raw => buildRaw r.start rest
      (Varint.encode (r.stop - r.start) (Varint.encode ((prevStart + 2 ^ 64 - r.stop - 2) % 2 ^ 64) raw))

def buildAckRangesRaw : List AckRange → Option (Nat × Nat × List UInt8)
  | [] => none
  | r :: rest => some (r.stop, r.stop - r.start, buildRaw r.start rest [])

/-- The numbers of a range, from the smallest up. -/
def insertAll (ranges : List AckRange) (r : AckRange) : List AckRange :=
  (List.range' r.start (r.stop + 1 - r.start)).foldl insert ranges

/-- The walk of `AckRangeIter`, which takes at least one byte in each round. -/
def parseRaw : Nat → List UInt8 → Nat → List AckRange → Except Tls.Error (List AckRange)
  | _, [], _, out => .ok out
  | 0, _ :: _, _, _ => .error .decode
  | fuel + 1, b :: raw, smallest, out => do
    let (gap, raw) ← Varint.read (b :: raw)
    let (len, raw) ← Varint.read raw
    let r ← nextRange smallest gap len
    parseRaw fuel raw r.start (insertAll out r)

def parseAckRanges (largest firstRange : Nat) (rangesRaw : List UInt8) : Except Tls.Error (List AckRange) :=
  if largest < firstRange then .error .decode
  else parseRaw rangesRaw.length rangesRaw (largest - firstRange) (insertAll [] ⟨largest - firstRange, largest⟩)

/-- The bytes of the pairs. -/
def pairs (prev : Nat) : List AckRange → List UInt8
  | [] => []
  | r :: rest => bytes (prev - r.stop - 2) ++ bytes (r.stop - r.start) ++ pairs r.start rest
variable {r : AckRange} {rest ranges : List AckRange}
private theorem Sorted.tail (h : Sorted (r :: rest)) : Sorted rest :=
  h.sublist (sublist_cons_self r rest)

private theorem buildPairs_eq (h : Sorted (r :: rest)) (count : Nat) (out : List UInt8) :
    buildPairs r.start rest (count, out) = (count + rest.length, out ++ pairs r.start rest) := by
  induction rest generalizing r count out with
  | nil => simp [buildPairs,pairs]
  | cons s rest ih =>
    have hgap := (pairwise_cons.mp h.apart).1 s (by simp)
    rw [buildPairs,if_pos (by omega),ih h.tail,pairs]
    simp only [encode_eq,append_assoc,length_cons]
    rw [add_assoc,add_comm 1]

private theorem buildRaw_eq (h : Sorted (r :: rest)) (hmax : r.start ≤ Varint.max) (out : List UInt8) :
    buildRaw r.start rest out = out ++ pairs r.start rest := by
  have hbound : Varint.max < 2 ^ 64 := by decide
  induction rest generalizing r out with
  | nil => simp [buildRaw,pairs]
  | cons s rest ih =>
    have hgap := (pairwise_cons.mp h.apart).1 s (by simp)
    have hs := h.nonempty s (by simp)
    have hdiff : (r.start + 2 ^ 64 - s.stop - 2) % 2 ^ 64 = r.start - s.stop - 2 := by omega
    rw [buildRaw,hdiff,ih h.tail (by omega),pairs]
    simp
variable {smallest x : Nat}
private theorem nextRange_eq (hs : r.start ≤ r.stop) (hgap : r.stop + 1 < smallest) :
    nextRange smallest (smallest - r.stop - 2) (r.stop - r.start) = .ok r := by
  have hlargest : smallest - (smallest - r.stop - 2 + 2) = r.stop := by omega
  rw [nextRange,if_neg (by omega)]
  simp only [hlargest]
  rw [if_neg (by omega),show r.stop - (r.stop - r.start) = r.start by omega]

private theorem of_nextRange_eq {gap len : Nat} (h : nextRange smallest gap len = .ok r) :
    r.start ≤ r.stop ∧ r.stop + 1 < smallest := by
  simp only [nextRange] at h
  split_ifs at h with hgap hlen
  cases h
  dsimp only
  omega

private theorem reads_parsePairs (h : Sorted (r :: rest)) (hmax : r.start ≤ Varint.max) (acc : List AckRange) :
    Reads (parsePairs rest.length r.start acc) (pairs r.start rest) (acc ++ rest) := by
  induction rest generalizing r acc with
  | nil =>
    rw [append_nil]
    exact .pure acc
  | cons s rest ih =>
    have hgap := (pairwise_cons.mp h.apart).1 s (by simp)
    have hs := h.nonempty s (by simp)
    have hrest := ih h.tail (by omega) (acc ++ [s])
    rw [pairs,append_assoc]
    refine (reads_bytes (by omega)).bind ((reads_bytes (by omega)).bind fun suffix => ?_)
    rw [append_assoc] at hrest
    rw [nextRange_eq hs hgap]
    exact hrest suffix

private theorem bytes_min (value : Nat) : bytes (min value Varint.max) = bytes value := by
  simp [bytes,Varint.encode]

private theorem parse_build (h : Sorted (r :: rest)) (hmax : r.stop ≤ Varint.max) (hlen : rest.length ≤ Varint.max)
    (largestArrival now ackDelayExponent : Nat) :
    parseAckPayload (buildAckPayload (r :: rest) largestArrival now ackDelayExponent) =
      .ok (r :: rest, min (scaledDelay largestArrival now ackDelayExponent) Varint.max) := by
  have hr := h.nonempty r (by simp)
  have hreads : Reads readAckPayload (bytes r.stop ++ (bytes (min (scaledDelay largestArrival now
      ackDelayExponent) Varint.max) ++ (bytes rest.length ++ (bytes (r.stop - r.start) ++
        pairs r.start rest)))) (r :: rest, min (scaledDelay largestArrival now ackDelayExponent) Varint.max) := by
    refine (reads_bytes hmax).bind ((reads_bytes (Nat.min_le_right _ _)).bind
      ((reads_bytes hlen).bind ((reads_bytes (by omega)).bind ?_)))
    rw [if_neg (by omega),show r.stop - (r.stop - r.start) = r.start by omega]
    exact (reads_parsePairs h (by omega) [r]).map _
  have hbuild : buildAckPayload (r :: rest) largestArrival now ackDelayExponent = _ ++ [] :=
    (append_nil _).symm
  rw [hbuild,parseAckPayload,buildAckPayload,buildPairs_eq h]
  simp only [encode_eq,nil_append,append_assoc,zero_add]
  rw [bytes_min] at hreads
  have hok := hreads []
  simp only [append_assoc] at hok
  rw [hok]
  rfl

/-- Every range that is parsed is below the one before it. -/
private theorem yields_parsePairs (count : Nat) (h : Sorted ranges) (hlow : ∀ r ∈ ranges, smallest ≤ r.start) :
    Yields (parsePairs count smallest ranges) Sorted := by
  induction count generalizing smallest ranges with
  | zero => exact .pure h
  | succ count ih =>
    refine (yields_true _).bind fun gap _ => (yields_true _).bind fun len _ => ?_
    cases hnext : nextRange smallest gap len with
    | error e => exact yields_fail e _
    | ok s =>
      obtain ⟨hne,hgap⟩ := of_nextRange_eq hnext
      refine ih ?_ ?_
      · refine Sorted.middle (by rwa [append_nil]) hne (fun q hq => ?_) (by simp)
        have := hlow q hq
        omega
      · refine forall_mem_append.mpr ⟨fun q hq => ?_,forall_mem_singleton.mpr le_rfl⟩
        have := hlow q hq
        omega

private theorem sorted_of_parseAckPayload {body : List UInt8} {delay : Nat}
    (h : parseAckPayload body = .ok (ranges, delay)) : Sorted ranges := by
  have hyields : Yields readAckPayload fun p => Sorted p.1 := by
    refine (yields_true _).bind fun largest _ => (yields_true _).bind fun _ _ => (yields_true _).bind fun count _ =>
      (yields_true _).bind fun first _ => ?_
    split_ifs with hlt
    · exact yields_fail _ _
    · exact (yields_parsePairs count ⟨pairwise_singleton _ _,by simp⟩ (by simp; omega)).bind fun _ hs => .pure hs
  rw [parseAckPayload] at h
  cases hread : readAckPayload body with
  | error e =>
    rw [hread] at h
    cases h
  | ok p =>
    obtain ⟨p,left⟩ := p
    rw [hread] at h
    cases h
    exact hyields body _ left hread

private theorem Sorted.lt_of_mem (h : Sorted (r :: rest)) (hx : Mem rest x) : x + 1 < r.start := by
  obtain ⟨s,hs,-,hle⟩ := hx
  have := (pairwise_cons.mp h.apart).1 s hs
  omega

private theorem Sorted.mem_tail (h : Sorted (r :: rest)) : Mem rest x ↔ Mem (r :: rest) x ∧ x < r.start := by
  rw [mem_cons]
  refine ⟨fun hx => ⟨.inr hx,?_⟩,fun ⟨hx,hlt⟩ => hx.resolve_left (by omega)⟩
  have := h.lt_of_mem hx
  omega

private theorem Sorted.stop_le {s : AckRange} {rest' : List AckRange} (h : Sorted (r :: rest)) (h' : Sorted (s :: rest'))
    (hmem : ∀ x, Mem (r :: rest) x → Mem (s :: rest') x) : r.stop ≤ s.stop := by
  have hs := h'.nonempty s (by simp)
  rcases mem_cons.mp (hmem r.stop (mem_cons.mpr (.inl ⟨h.nonempty r (by simp),le_refl _⟩))) with hin | hin
  · exact hin.2
  · have := h'.lt_of_mem hin
    omega

private theorem Sorted.start_le {s : AckRange} {rest' : List AckRange} (h : Sorted (s :: rest')) (hstop : s.stop ≤ r.stop)
    (hmem : ∀ x, Mem (r :: rest) x → Mem (s :: rest') x) : s.start ≤ r.start := by
  have hs := h.nonempty s (by simp)
  refine Nat.le_of_not_lt fun hlt => ?_
  -- the number in front of the shorter range is in the set
  rcases mem_cons.mp (hmem (s.start - 1) (mem_cons.mpr (.inl ⟨by omega,by omega⟩))) with hin | hin
  · omega
  · have := h.lt_of_mem hin
    omega

/-- A set has one representation. -/
private theorem Sorted.ext {ranges' : List AckRange} (h : Sorted ranges) (h' : Sorted ranges')
    (hmem : ∀ x, Mem ranges x ↔ Mem ranges' x) : ranges = ranges' := by
  have hhead : ∀ {r rest}, Sorted (r :: rest) → Mem (r :: rest) r.start := fun h =>
    mem_cons.mpr (.inl ⟨le_refl _,h.nonempty _ (by simp)⟩)
  induction ranges generalizing ranges' with
  | nil =>
    cases ranges' with
    | nil => rfl
    | cons s rest' => simpa [Mem] using (hmem s.start).mpr (hhead h')
  | cons r rest ih =>
    cases ranges' with
    | nil => simpa [Mem] using (hmem r.start).mp (hhead h)
    | cons s rest' =>
      have hstop := h.stop_le h' fun x => (hmem x).mp
      have hstop' := h'.stop_le h fun x => (hmem x).mpr
      have hstart := h'.start_le hstop' fun x => (hmem x).mp
      have hstart' := h.start_le hstop fun x => (hmem x).mpr
      obtain rfl : r = s := by
        cases r
        cases s
        simp only [AckRange.mk.injEq]
        exact ⟨le_antisymm hstart' hstart,le_antisymm hstop hstop'⟩
      rw [ih h.tail h'.tail fun x => by rw [h.mem_tail,h'.mem_tail,hmem]]

private theorem insert_eq {pn : Nat} {full : List AckRange} (h : Sorted ranges) (hlen : ranges.length ≤ maxAckRanges)
    (hfull : Sorted full) (hfew : full.length ≤ maxAckRanges) (hmem : ∀ x, Mem full x ↔ Mem ranges x ∨ x = pn) :
    insert ranges pn = full := by
  obtain ⟨full',hfull',hmem',heq⟩ := insert_spec h hlen pn
  rw [heq,hfull'.ext hfull fun x => (hmem' x).trans (hmem x).symm,take_of_length_le hfew]

private theorem insertAll_bottom (h : Sorted (ranges ++ [r])) (hlen : ranges.length < maxAckRanges) :
    insertAll ranges r = ranges ++ [r] := by
  obtain ⟨hranges,-,hlow⟩ := pairwise_append.mp h.apart
  have hr := h.nonempty r (by simp)
  suffices hcount : ∀ n, r.start + n ≤ r.stop →
      (List.range' r.start (n + 1)).foldl insert ranges = ranges ++ [⟨r.start,r.start + n⟩] by
    have hall := hcount (r.stop - r.start) (by omega)
    rw [show r.stop - r.start + 1 = r.stop + 1 - r.start by omega,show r.start + (r.stop - r.start) = r.stop by omega]
      at hall
    exact hall
  have hbottom : ∀ n, r.start + n ≤ r.stop → Sorted (ranges ++ [⟨r.start,r.start + n⟩]) := fun n hn =>
    Sorted.middle (by simpa using h.sublist (sublist_append_left ranges [r])) (Nat.le_add_right _ _)
      (fun s hs => by have := hlow s hs r (by simp); dsimp only; omega) (by simp)
  intro n hn
  induction n with
  | zero =>
    refine insert_eq (h.sublist (sublist_append_left ranges [r])) (le_of_lt hlen) (hbottom 0 hn) (by simpa) ?_
    simp only [mem_append,mem_singleton]
    grind
  | succ n ih =>
    rw [range'_concat,foldl_append,ih (by omega),foldl_cons]
    refine insert_eq (hbottom n (by omega)) (by simpa) (hbottom (n + 1) hn) (by simpa) fun x => ?_
    simp only [mem_append,mem_singleton]
    grind

private theorem parseRaw_succ (fuel : Nat) {raw : List UInt8} (hne : raw ≠ []) (smallest : Nat) (out : List AckRange) :
    parseRaw (fuel + 1) raw smallest out = (do
      let (gap, raw) ← Varint.read raw
      let (len, raw) ← Varint.read raw
      let r ← nextRange smallest gap len
      parseRaw fuel raw r.start (insertAll out r)) := by
  cases raw with
  | nil => exact absurd rfl hne
  | cons b raw => rfl

private theorem parseRaw_pairs (h : Sorted (ranges ++ r :: rest)) (hlen : (ranges ++ r :: rest).length ≤ maxAckRanges)
    (hmax : r.start ≤ Varint.max) {fuel : Nat} (hfuel : (pairs r.start rest).length ≤ fuel) :
    parseRaw fuel (pairs r.start rest) r.start (ranges ++ [r]) = .ok (ranges ++ r :: rest) := by
  induction rest generalizing r ranges fuel with
  | nil => cases fuel <;> rfl
  | cons s rest ih =>
    have happend : ranges ++ r :: s :: rest = (ranges ++ [r]) ++ s :: rest := by simp
    have hapart := (h.sublist (sublist_append_right ranges _)).apart
    have hgap := (pairwise_cons.mp hapart).1 s (by simp)
    have hs := h.nonempty s (by simp)
    have hpos : 0 < (bytes (r.start - s.stop - 2)).length := by
      rw [Varint.length_bytes,Varint.encodedLen]
      split_ifs <;> decide
    have hne : pairs r.start (s :: rest) ≠ [] := by
      rw [← length_pos_iff,pairs,length_append,length_append]
      omega
    rw [happend] at h hlen ⊢
    obtain ⟨fuel,rfl⟩ : ∃ f, fuel = f + 1 := ⟨fuel - 1,by have := length_pos_iff.mpr hne; omega⟩
    rw [parseRaw_succ fuel hne,pairs,append_assoc,reads_bytes (by omega)]
    dsimp only [bind,Except.bind]
    rw [reads_bytes (by omega)]
    dsimp only
    rw [nextRange_eq hs hgap]
    dsimp only
    have hnew : insertAll (ranges ++ [r]) s = ranges ++ [r] ++ [s] := by
      refine insertAll_bottom (h.sublist (List.Sublist.append_left ?_ _)) ?_
      · simp
      · simp only [length_append,length_cons] at hlen ⊢
        omega
    rw [hnew]
    refine ih h hlen (by omega) ?_
    rw [pairs,length_append,length_append] at hfuel
    omega

private theorem parse_buildRaw (h : Sorted (r :: rest)) (hlen : (r :: rest).length ≤ maxAckRanges) (hmax : r.stop ≤ Varint.max) :
    parseAckRanges r.stop (r.stop - r.start) (buildRaw r.start rest []) = .ok (r :: rest) := by
  have hr := h.nonempty r (by simp)
  have hfirst : insertAll [] r = [r] := insertAll_bottom (h.sublist (by simp)) (by decide)
  rw [buildRaw_eq h (by omega),parseAckRanges,if_neg (by omega),
    show r.stop - (r.stop - r.start) = r.start by omega,hfirst]
  exact @parseRaw_pairs r rest [] h hlen (by omega) _ (le_refl _)

/-- Packet numbers inserted in any order: their ranges come back from both forms, and no bytes parse to ranges out of
order. -/
theorem ack_ranges_round_trip (pns : List Nat) (largestArrival now ackDelayExponent : Nat) :
    (pns ≠ [] → (∀ pn ∈ pns, pn ≤ Varint.max) →
      parseAckPayload (buildAckPayload (run pns) largestArrival now ackDelayExponent) =
        .ok (run pns, min (scaledDelay largestArrival now ackDelayExponent) Varint.max) ∧
      ∃ largest firstRange raw, buildAckRangesRaw (run pns) = some (largest, firstRange, raw) ∧
        parseAckRanges largest firstRange raw = .ok (run pns)) ∧
    ∀ body ranges delay, parseAckPayload body = .ok (ranges, delay) → Sorted ranges := by
  refine ⟨fun hne hmax => ?_,fun body ranges delay => sorted_of_parseAckPayload⟩
  obtain ⟨hsorted,hlen⟩ := run_sorted pns
  obtain ⟨y,q,hq,-⟩ := run_ne_nil hne
  have hstop : ∀ r ∈ run pns, r.stop ≤ Varint.max := fun r hr =>
    hmax _ (mem_of_mem_run ⟨r,hr,hsorted.nonempty r hr,le_refl _⟩)
  obtain ⟨r,rest,heq⟩ := exists_cons_of_ne_nil (ne_nil_of_mem hq)
  rw [heq] at hsorted hlen hstop ⊢
  have hfew : rest.length ≤ Varint.max := by
    have hcap : maxAckRanges ≤ Varint.max := by decide
    rw [length_cons] at hlen
    omega
  exact ⟨parse_build hsorted (hstop r (by simp)) hfew _ _ _,_,_,_,rfl,parse_buildRaw hsorted hlen (hstop r (by simp))⟩

/-- Two ranges and a delay of eight microseconds. -/
theorem ack_ranges_round_trip_gap :
    parseAckPayload (buildAckPayload (run [9, 4, 5]) 0 8000 3) = .ok ([⟨9, 9⟩, ⟨4, 5⟩], 1) ∧
      Sorted [⟨9, 9⟩, ⟨4, 5⟩] := by
  obtain ⟨hround,hsorted⟩ := ack_ranges_round_trip [9, 4, 5] 0 8000 3
  have h := (hround (by decide) (by decide)).1
  exact ⟨h,hsorted _ _ _ h⟩

/-- A number beyond the largest varint is clamped by the encoder. -/
theorem clamped_packet_number :
    parseAckPayload (buildAckPayload (run [2 ^ 62]) 0 0 3) = .ok ([⟨2 ^ 62 - 1, 2 ^ 62 - 1⟩], 0) ∧
      run [2 ^ 62] = [⟨2 ^ 62, 2 ^ 62⟩] := by
  decide +kernel
end PureCrypto.Quic.AckRanges
