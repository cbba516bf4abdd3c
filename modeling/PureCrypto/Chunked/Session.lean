import PureCrypto.Chunked.Streaming

/-! # Whole streams -/
namespace PureCrypto.Chunked
open Blocks ByteArrays
open Trace (run run_cons)
inductive Call
  | push (ct : List UInt8)
  | finish

structure Session where
  dec : Decryptor
  out : List UInt8
  results : List (Except Error Unit)
namespace Session
def start (c : RawCipher) : Session := ⟨Decryptor.fromRaw c, [], []⟩

def step (s : Session) : Call → Session
  | .push ct =>
    let (dec, out, res) := s.dec.push ct s.out
    ⟨dec, out, s.results ++ [res]⟩
  | .finish =>
    let (dec, out, res) := s.dec.finish s.out
    ⟨dec, out, s.results ++ [res]⟩

def calls (pieces : List (List UInt8)) : List Call := pieces.map .push ++ [.finish]
def after (c : RawCipher) (pieces : List (List UInt8)) (k : Nat) : Session :=
  run step (start c) ((calls pieces).take k)

/-- The output is the plaintext of the first full chunks, each accepted at its index. -/
def Released (c : RawCipher) (ct out : List UInt8) : Prop :=
  ∃ xs : List (List UInt8), xs.length ≤ ct.length / encryptedChunkLen ∧
    (∀ k (hk : k < xs.length),
      c.openChunk k ((ct.drop (encryptedChunkLen * k)).take encryptedChunkLen) = .ok xs[k]) ∧
    out = xs.flatten

/-- After the bytes `ct` and no failure. -/
structure Fed (c : RawCipher) (ct : List UInt8) (s : Session) : Prop where
  cipher : s.dec.cipher = c
  state : s.dec.state = .open
  buf : s.dec.buf = ct.drop (encryptedChunkLen * chunksBefore ct.length)
  opened : feed c.openChunk 0 (blocks encryptedChunkLen (chunksBefore ct.length) ct) [] =
    (s.dec.index, s.out, .ok ())
  results : ∀ r ∈ s.results, r = .ok ()

/-- After a failure. -/
structure Stopped (e : Error) (s : Session) : Prop where
  state : s.dec.state = .failed e
  results : ∀ r ∈ s.results, r = .ok () ∨ r = .error e
  error_mem : .error e ∈ s.results

/-- The failure was that of one of the full chunks of `ct`. -/
def Broken (c : RawCipher) (ct : List UInt8) (e : Error) (out : List UInt8) : Prop :=
  ∃ k i, encryptedChunkLen * k ≤ ct.length ∧
    feed c.openChunk 0 (blocks encryptedChunkLen k ct) [] = (i, out, .error e)

private theorem start_fed (c : RawCipher) : Fed c [] (start c) where
  cipher := rfl
  state := rfl
  buf := rfl
  opened := rfl
  results r hr := by cases hr
variable {s : Session}
variable {e : Error} {k : Nat}
private theorem step_failed (h : s.dec.state = .failed e) (call : Call) :
    s.step call = { s with results := s.results ++ [.error e] } := by
  cases call with
  | push ct => simp [step,Decryptor.push,h]
  | finish => simp [step,Decryptor.finish,h]

private theorem run_failed (h : s.dec.state = .failed e) (calls : List Call) :
    run step s calls = { s with results := s.results ++ List.replicate calls.length (.error e) } := by
  induction calls generalizing s with
  | nil => simp
  | cons call calls ih =>
    rw [run_cons,step_failed h,ih (s := { s with results := s.results ++ [.error e] }) h]
    simp [List.replicate_succ]

private theorem Stopped.run (h : Stopped e s) (calls : List Call) : Stopped e (run step s calls) := by
  rw [run_failed h.state]
  refine ⟨h.state,?_,List.mem_append_left _ h.error_mem⟩
  exact List.forall_mem_append.mpr ⟨h.results,fun r hr => .inr (List.eq_of_mem_replicate hr)⟩
section Broken
variable {c : RawCipher} {ct out : List UInt8} {e : Error}
private theorem Broken.append (h : Broken c ct e out) (rest : List UInt8) : Broken c (ct ++ rest) e out := by
  obtain ⟨k,i,hk,hfeed⟩ := h
  refine ⟨k,i,by rw [List.length_append]; omega,?_⟩
  rwa [blocks_append _ hk]

private theorem le_div {k : Nat} (hk : encryptedChunkLen * k ≤ ct.length) : k ≤ ct.length / encryptedChunkLen := by
  rwa [Nat.le_div_iff_mul_le encryptedChunkLen_pos,mul_comm]

private theorem released_of_feed {k i : Nat} {r : Except Error Unit} (hk : encryptedChunkLen * k ≤ ct.length)
    (h : feed c.openChunk 0 (blocks encryptedChunkLen k ct) [] = (i, out, r)) : Released c ct out := by
  obtain ⟨xs,hlength,hxs,hout⟩ := feed_output c.openChunk 0 (blocks encryptedChunkLen k ct) []
  rw [h] at hout
  rw [length_blocks] at hlength
  refine ⟨xs,le_trans hlength (le_div hk),?_,hout⟩
  intro j hj
  have hstage := hxs j hj (by rw [length_blocks]; omega)
  rwa [getElem_blocks,zero_add] at hstage

private theorem Broken.released (h : Broken c ct e out) : Released c ct out := by
  obtain ⟨k,i,hk,hfeed⟩ := h
  exact released_of_feed hk hfeed

private theorem Broken.not_open (h : Broken c ct e out) (m : List UInt8) : c.«open» ct [] ≠ (m, .ok ()) := by
  obtain ⟨k,i,hk,hfeed⟩ := h
  intro hopen
  by_cases hmod : tagLen ≤ ct.length % encryptedChunkLen
  · obtain ⟨j,hj⟩ := Nat.exists_eq_add_of_le (le_div hk)
    rw [open_eq c hmod,hj,blocks_add,List.append_assoc,feed_append_error hfeed] at hopen
    cases hopen
  · rw [RawCipher.«open»,if_pos (Nat.lt_of_not_le hmod)] at hopen
    cases hopen
end Broken
variable {c : RawCipher} {ct out : List UInt8} {s : Session} {pieces : List (List UInt8)}
private theorem Fed.stopped (h : Fed c ct s) {d : Decryptor} (hstate : d.state = .failed e) :
    Stopped e ⟨d, out, s.results ++ [.error e]⟩ := by
  refine ⟨hstate,?_,by simp⟩
  exact List.forall_mem_append.mpr ⟨fun r hr => .inl (h.results r hr),List.forall_mem_singleton.mpr (.inr rfl)⟩

private theorem chunksBefore_append (ct p : List UInt8) : chunksBefore (ct ++ p).length = chunksBefore ct.length +
      chunksBefore (ct.drop (encryptedChunkLen * chunksBefore ct.length) ++ p).length := by
  have hpos := encryptedChunkLen_pos
  by_cases hempty : ct = []
  · simp [hempty,chunksBefore]
  · have hlt : encryptedChunkLen * chunksBefore ct.length ≤ ct.length - 1 := Nat.mul_div_le _ _
    have hlength : (ct ++ p).length - 1 =
        (ct.drop (encryptedChunkLen * chunksBefore ct.length) ++ p).length - 1 +
          encryptedChunkLen * chunksBefore ct.length := by
      simp only [List.length_append,List.length_drop]
      omega
    rw [chunksBefore,hlength,Nat.add_mul_div_left _ _ hpos,add_comm]
    rfl
section
variable (h : Fed c ct s)
include h
private theorem Fed.push (p : List UInt8) : Fed c (ct ++ p) (s.step (.push p)) ∨
      ∃ e, Stopped e (s.step (.push p)) ∧ Broken c (ct ++ p) e (s.step (.push p)).out := by
  have hle := mul_chunksBefore_le ct.length
  have hblocks : feed c.openChunk 0 (blocks encryptedChunkLen (chunksBefore (ct ++ p).length) (ct ++ p)) [] =
      feed c.openChunk s.dec.index (blocks encryptedChunkLen (chunksBefore (s.dec.buf ++ p).length)
        (s.dec.buf ++ p)) s.out := by
    rw [chunksBefore_append,blocks_resume _ hle,feed_append_ok h.opened,h.buf]
  have hspec := s.dec.pushLoop_spec p s.out
  rw [h.cipher] at hspec
  have hstep : s.step (.push p) = ⟨(s.dec.pushLoop p s.out).1,(s.dec.pushLoop p s.out).2.1,
      s.results ++ [(s.dec.pushLoop p s.out).2.2]⟩ := by
    simp [step,Decryptor.push,h.state]
  obtain ⟨i,out,r,hfeed⟩ : ∃ i out r, feed c.openChunk s.dec.index (blocks encryptedChunkLen
    (chunksBefore (s.dec.buf ++ p).length) (s.dec.buf ++ p)) s.out = (i, out, r) := ⟨_,_,_,rfl⟩
  rw [hfeed] at hblocks hspec
  cases r with
  | ok u =>
    obtain ⟨d,hpush,hcipher,hindex,hstate,hbuf⟩ := hspec
    left
    rw [hstep,hpush]
    refine ⟨hcipher,hstate.trans h.state,?_,by rw [hblocks,hindex],?_⟩
    · rw [hbuf,h.buf,chunksBefore_append ct,mul_add,← List.drop_drop,List.drop_append_of_le_length hle]
    · exact List.forall_mem_append.mpr ⟨h.results,fun r => List.mem_singleton.mp⟩
  | error e =>
    obtain ⟨d,hpush,hstate⟩ := hspec
    right
    rw [hstep,hpush]
    exact ⟨e,h.stopped hstate,_,i,mul_chunksBefore_le _,hblocks⟩

private theorem Fed.pushes (pieces : List (List UInt8)) : Fed c (ct ++ pieces.flatten) (run step s (pieces.map .push)) ∨
      ∃ e, Stopped e (run step s (pieces.map .push)) ∧
        Broken c (ct ++ pieces.flatten) e (run step s (pieces.map .push)).out := by
  induction pieces generalizing ct s with
  | nil =>
    left
    simpa using h
  | cons p pieces ih =>
    rw [List.map_cons,run_cons,List.flatten_cons,← List.append_assoc]
    rcases h.push p with hfed | ⟨e,hstopped,hbroken⟩
    · exact ih hfed
    · right
      refine ⟨e,hstopped.run _,?_⟩
      rw [run_failed hstopped.state]
      exact hbroken.append _

private theorem Fed.released : Released c ct s.out :=
  released_of_feed (mul_chunksBefore_le _) h.opened

/-- The rest that is buffered is the one the one-shot function needs, or there is none. -/
private theorem Fed.rest : if s.dec.buf.length < tagLen ∨ s.dec.buf.length = encryptedChunkLen then
      ct.length % encryptedChunkLen < tagLen else tagLen ≤ ct.length % encryptedChunkLen ∧
      ct.length / encryptedChunkLen = chunksBefore ct.length := by
  have hpos := encryptedChunkLen_pos
  have htag : 0 < tagLen := by decide
  have hle := length_drop_chunksBefore ct
  have hsplit : ct.length = s.dec.buf.length + encryptedChunkLen * chunksBefore ct.length := by
    have := mul_chunksBefore_le ct.length
    rw [h.buf,List.length_drop]
    omega
  rw [← h.buf] at hle
  split_ifs with hend
  · rcases hend with hshort | hfull
    · rw [hsplit,Nat.add_mul_mod_self_left]
      exact lt_of_le_of_lt (Nat.mod_le _ _) hshort
    · rw [hsplit,Nat.add_mul_mod_self_left,hfull]
      exact htag
  · have hlt : s.dec.buf.length < encryptedChunkLen := by omega
    refine ⟨?_,?_⟩
    · rw [hsplit,Nat.add_mul_mod_self_left,Nat.mod_eq_of_lt hlt]
      omega
    · conv_lhs => rw [hsplit]
      rw [Nat.add_mul_div_left _ _ hpos,Nat.div_eq_of_lt hlt,zero_add]

private theorem Fed.finish : (c.«open» ct [] = ((s.step .finish).out, .ok ()) ∧ ∀ r ∈ (s.step .finish).results, r = .ok ()) ∨
      ∃ e, Stopped e (s.step .finish) ∧ (s.step .finish).out = s.out ∧ ∀ m, c.«open» ct [] ≠ (m, .ok ()) := by
  have hrest := h.rest
  have hstep : s.step .finish = ⟨(s.dec.finish s.out).1,(s.dec.finish s.out).2.1,
      s.results ++ [(s.dec.finish s.out).2.2]⟩ := rfl
  rw [hstep,Decryptor.finish,h.state]
  split_ifs at hrest ⊢ with hend
  · refine .inr ⟨.truncated,h.stopped rfl,rfl,fun m hopen => ?_⟩
    rw [RawCipher.«open»,if_pos hrest] at hopen
    cases hopen
  · have hopen : c.«open» ct [] = (feed c.openChunk s.dec.index [s.dec.buf] s.out).2 := by
      rw [open_eq c hrest.1,hrest.2,← h.buf,feed_append_ok h.opened]
    rw [hopen,h.cipher,feed]
    cases c.openChunk s.dec.index s.dec.buf with
    | ok x =>
      refine .inl ⟨rfl,?_⟩
      exact List.forall_mem_append.mpr ⟨h.results,fun r => List.mem_singleton.mp⟩
    | error e =>
      refine .inr ⟨e,h.stopped rfl,rfl,fun m hm => ?_⟩
      cases hm
end
private theorem after_pieces (c : RawCipher) (h : k ≤ pieces.length) :
    after c pieces k = run step (start c) ((pieces.take k).map .push) := by
  rw [after,calls,List.take_append_of_le_length (by simpa using h),List.map_take]

private theorem after_end (c : RawCipher) (h : pieces.length < k) :
    after c pieces k = (run step (start c) (pieces.map .push)).step .finish := by
  rw [after,List.take_of_length_le (by simp [calls]; omega),calls,Trace.run_append,run_cons,Trace.run_nil]

private theorem not_ok_of_stopped (h : Stopped e s) : ¬ ∀ r ∈ s.results, r = .ok () := by
  intro hall
  cases hall _ h.error_mem

private theorem results_ok_iff (c : RawCipher) (pieces : List (List UInt8)) (m : List UInt8) :
    ((∀ r ∈ (after c pieces (pieces.length + 1)).results, r = .ok ()) ∧
        (after c pieces (pieces.length + 1)).out = m) ↔ c.«open» pieces.flatten [] = (m, .ok ()) := by
  rw [after_end c (Nat.lt_succ_self _)]
  rcases (start_fed c).pushes pieces with hfed | ⟨e,hstopped,hbroken⟩
  · rw [List.nil_append] at hfed
    rcases hfed.finish with ⟨hopen,hok⟩ | ⟨e,hstopped,_,hnone⟩
    · rw [hopen]
      constructor
      · rintro ⟨_,rfl⟩
        rfl
      · intro h
        exact ⟨hok,congrArg Prod.fst h⟩
    · exact ⟨fun h => absurd h.1 (not_ok_of_stopped hstopped),fun h => absurd h (hnone m)⟩
  · exact ⟨fun h => absurd h.1 (not_ok_of_stopped (hstopped.run [.finish])),fun h => absurd h (hbroken.not_open m)⟩

private theorem Released.append (h : Released c ct out) (rest : List UInt8) : Released c (ct ++ rest) out := by
  obtain ⟨xs,hlength,hxs,hout⟩ := h
  refine ⟨xs,le_trans hlength (Nat.div_le_div_right (by simp)),?_,hout⟩
  intro k hk
  have hle : encryptedChunkLen * (k + 1) ≤ ct.length :=
    le_trans (Nat.mul_le_mul_left _ (by omega)) (Nat.mul_div_le _ _)
  rw [Nat.mul_succ] at hle
  rw [List.drop_append_of_le_length (by omega),List.take_append_of_le_length (by rw [List.length_drop]; omega)]
  exact hxs k hk

/-- All calls have succeeded, or one has failed and only accepted full chunks are put out. -/
private theorem after_cases (c : RawCipher) (pieces : List (List UInt8)) (k : Nat) :
    (∀ r ∈ (after c pieces k).results, r = .ok ()) ∨
      ∃ e, Stopped e (after c pieces k) ∧ Released c pieces.flatten (after c pieces k).out := by
  rcases Nat.lt_or_ge pieces.length k with hend | hpiece
  · rw [after_end c hend]
    rcases (start_fed c).pushes pieces with hfed | ⟨e,hstopped,hbroken⟩
    · rcases hfed.finish with ⟨_,hok⟩ | ⟨e,hstopped,hout,_⟩
      · exact .inl hok
      · exact .inr ⟨e,hstopped,hout ▸ hfed.released⟩
    · refine .inr ⟨e,hstopped.run [.finish],?_⟩
      rw [step_failed hstopped.state]
      exact hbroken.released
  · rw [after_pieces c hpiece]
    have hflatten : pieces.flatten = (pieces.take k).flatten ++ (pieces.drop k).flatten := by
      rw [← List.flatten_append,List.take_append_drop]
    rcases (start_fed c).pushes (pieces.take k) with hfed | ⟨e,hstopped,hbroken⟩
    · exact .inl hfed.results
    · exact .inr ⟨e,hstopped,hflatten ▸ hbroken.released.append _⟩
end Session
section Header
variable (hmacSha512 : List UInt8 → List UInt8 → Vector UInt8 64) (inst : Instantiation)
variable {key : List UInt8}
private theorem header_eq (hkey : key.length = inst.keyLen) (ctx : List UInt8) (salt : Vector UInt8 saltLen) :
    ∃ cipher commitment hdr, derive hmacSha512 inst key ctx salt = .ok (cipher, commitment) ∧
      header hmacSha512 inst key ctx salt = .ok (cipher, hdr) ∧ hdr.toList = salt.toList ++ commitment.toList := by
  obtain ⟨cipher,commitment,hderive⟩ : ∃ cipher commitment,
      derive hmacSha512 inst key ctx salt = .ok (cipher, commitment) := ⟨_,_,if_neg (by simpa using hkey)⟩
  refine ⟨cipher,commitment,salt ++ commitment,hderive,?_,Vector.toList_append⟩
  simp only [header,hderive]
  rfl

private theorem openHeader_eq {ctx : List UInt8} {salt : Vector UInt8 saltLen} {cipher : RawCipher}
    {commitment : Vector UInt8 commitmentLen} {hdr : Vector UInt8 headerLen}
    (h : derive hmacSha512 inst key ctx salt = .ok (cipher, commitment))
    (hhdr : hdr.toList = salt.toList ++ commitment.toList) : openHeader hmacSha512 inst key ctx hdr = .ok cipher := by
  have hsalt : arrayAt saltLen hdr.toList 0 = salt := by rw [hhdr,arrayAt_append]
  have hcommitment : hdr.toList.drop saltLen = commitment.toList := by
    rw [hhdr,List.drop_left' salt.length_toList]
  simp only [openHeader,hsalt,h,hcommitment]
  simp [bind,Except.bind,pure,Except.pure]

/-- The stream of a message is its one-shot encryption, which decrypts to it. -/
private theorem stream_encryptWithSalt (hkey : key.length = inst.keyLen) (ctx : List UInt8)
    (salt : Vector UInt8 saltLen) (pieces : List (List UInt8))
    (hlimit : pieces.flatten.length / chunkSize < maxChunks) :
    ∃ enc ct, Encryptor.withSalt hmacSha512 inst key ctx salt = .ok enc ∧
      encryptWithSalt hmacSha512 inst key ctx pieces.flatten salt = .ok ct ∧
      enc.stream pieces enc.header.toList = (ct, .ok ()) ∧
      decrypt hmacSha512 inst key ctx ct = .ok pieces.flatten := by
  obtain ⟨cipher,commitment,hdr,hderive,hheader,hhdr⟩ := header_eq hmacSha512 inst hkey ctx salt
  obtain ⟨body,hseal,hopen⟩ := open_seal cipher pieces.flatten hlimit
  refine ⟨⟨cipher,hdr,[],0,Nat.zero_le _⟩,hdr.toList ++ body,?_,?_,?_,?_⟩
  · simp only [Encryptor.withSalt,hheader]
    rfl
  · simp only [encryptWithSalt,hheader,bind,Except.bind,hseal]
    rfl
  · exact Encryptor.stream_fresh rfl rfl pieces (hseal hdr.toList)
  · simp only [decrypt]
    rw [if_neg (by simpa using hkey),if_neg (by simp),arrayAt_append,
      openHeader_eq hmacSha512 inst hderive hhdr,List.drop_left' hdr.length_toList]
    simp only [bind,Except.bind,hopen]
    rfl

private theorem stream_invalidKeyLength (hkey : key.length ≠ inst.keyLen) (ctx m : List UInt8) (salt : Vector UInt8 saltLen) :
    Encryptor.withSalt hmacSha512 inst key ctx salt = .error .invalidKeyLength ∧
      encryptWithSalt hmacSha512 inst key ctx m salt = .error .invalidKeyLength := by
  have hderive : derive hmacSha512 inst key ctx salt = .error .invalidKeyLength := if_pos hkey
  have hheader : header hmacSha512 inst key ctx salt = .error .invalidKeyLength := by
    simp only [header,hderive]
    rfl
  refine ⟨?_,?_⟩
  · simp only [Encryptor.withSalt,hheader]
    rfl
  · simp only [encryptWithSalt,hheader]
    rfl

/-- Streams in both directions against the one-shot functions. -/
theorem streaming_eq_oneShot :
    (∀ (key ctx : List UInt8) (salt : Vector UInt8 saltLen) (pieces : List (List UInt8)),
      pieces.flatten.length / chunkSize < maxChunks →
      if key.length = inst.keyLen then
        ∃ enc ct, Encryptor.withSalt hmacSha512 inst key ctx salt = .ok enc ∧
          encryptWithSalt hmacSha512 inst key ctx pieces.flatten salt = .ok ct ∧
          enc.stream pieces enc.header.toList = (ct, .ok ()) ∧
          decrypt hmacSha512 inst key ctx ct = .ok pieces.flatten
      else
        Encryptor.withSalt hmacSha512 inst key ctx salt = .error .invalidKeyLength ∧
          encryptWithSalt hmacSha512 inst key ctx pieces.flatten salt = .error .invalidKeyLength) ∧
    ∀ (c : RawCipher) (pieces : List (List UInt8)),
      (∀ m, ((∀ r ∈ (Session.after c pieces (pieces.length + 1)).results, r = .ok ()) ∧
          (Session.after c pieces (pieces.length + 1)).out = m) ↔
        c.«open» pieces.flatten [] = (m, .ok ())) ∧
      ∀ k e, .error e ∈ (Session.after c pieces k).results →
        Session.Released c pieces.flatten (Session.after c pieces k).out ∧
          ∀ more, Trace.run Session.step (Session.after c pieces k) more =
            { Session.after c pieces k with
              results := (Session.after c pieces k).results ++ List.replicate more.length (.error e) } := by
  refine ⟨?_,?_⟩
  · intro key ctx salt pieces hlimit
    split_ifs with hkey
    · exact stream_encryptWithSalt hmacSha512 inst hkey ctx salt pieces hlimit
    · exact stream_invalidKeyLength hmacSha512 inst hkey ctx pieces.flatten salt
  · intro c pieces
    refine ⟨Session.results_ok_iff c pieces,?_⟩
    intro k e he
    rcases Session.after_cases c pieces k with hok | ⟨e',hstopped,hreleased⟩
    · cases hok _ he
    · rcases hstopped.results _ he with h | h
      · cases h
      · cases h
        exact ⟨hreleased,Session.run_failed hstopped.state⟩
end Header
/-- The text as it is, with the nonce as its tag. -/
private def nonceTagged : Aead where
  encrypt nonce m := (m, arrayAt tagLen nonce.toList 0)
  decrypt nonce m tag := if tag = arrayAt tagLen nonce.toList 0 then some m else none
  length_encrypt _ _ := rfl
  decrypt_encrypt _ _ := if_pos rfl

private def nonceTaggedInstance : Instantiation := ⟨32, [], fun _ => nonceTagged⟩

/-- Two pieces that fill one chunk and start another, and a stream that ends before its first tag. -/
theorem streaming_eq_oneShot_two_chunks :
    let hmac : List UInt8 → List UInt8 → Vector UInt8 64 := fun _ _ => Vector.replicate 64 1
    let salt : Vector UInt8 saltLen := Vector.replicate saltLen 2
    let key : List UInt8 := List.replicate 32 3
    let pieces : List (List UInt8) := [List.replicate 10000 4, List.replicate 10000 5]
    let c : RawCipher := ⟨nonceTagged, Vector.replicate nonceLen 0⟩
    pieces.flatten.length / chunkSize = 1 ∧
    (∃ enc ct, Encryptor.withSalt hmac nonceTaggedInstance key [] salt = .ok enc ∧
      encryptWithSalt hmac nonceTaggedInstance key [] pieces.flatten salt = .ok ct ∧
      enc.stream pieces enc.header.toList = (ct, .ok ()) ∧
      decrypt hmac nonceTaggedInstance key [] ct = .ok pieces.flatten) ∧
    (∃ ct, c.«seal» pieces.flatten [] = (ct, .ok ()) ∧
      (Session.after c [ct.take 9, ct.drop 9] 3).out = pieces.flatten) ∧
    Session.Released c [6, 7] (Session.after c [[6], [7]] 3).out := by
  intro hmac salt key pieces c
  obtain ⟨hencrypt,hdecrypt⟩ := streaming_eq_oneShot hmac nonceTaggedInstance
  have hlen : pieces.flatten.length / chunkSize = 1 := by
    simp only [pieces,List.flatten_cons,List.flatten_nil,List.length_append,List.length_replicate,List.length_nil]
    rfl
  have hlimit : pieces.flatten.length / chunkSize < maxChunks := hlen ▸ by decide
  refine ⟨hlen,?_,?_,?_⟩
  · have h := hencrypt key [] salt pieces hlimit
    rwa [if_pos (by simp [key,nonceTaggedInstance])] at h
  · obtain ⟨ct,hseal,hopen⟩ := open_seal c pieces.flatten hlimit
    refine ⟨ct,hseal [],?_⟩
    exact (((hdecrypt c [ct.take 9,ct.drop 9]).1 _).mpr (by simpa using hopen)).2
  · refine ((hdecrypt c [[6],[7]]).2 3 .truncated ?_).1
    simp [Session.after,Session.calls,Session.step,Session.start,Decryptor.push,Decryptor.fromRaw,Decryptor.pushLoop,
      Decryptor.finish,encryptedChunkLen,chunkSize,tagLen]
end PureCrypto.Chunked
