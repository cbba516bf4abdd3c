import PureCrypto.Framework.Trace
import PureCrypto.Chunked.Cobblestone

/-! # Streaming and one-shot -/
namespace PureCrypto.Chunked
open Blocks ByteArrays List Nat
section Chunk
variable (c : RawCipher)
private theorem exists_sealChunk {index : Nat} (hindex : index < maxChunks) {p : List UInt8} (hp : p.length ≤ chunkSize) :
    ∃ x, c.sealChunk index p = .ok x ∧ x.length = p.length + tagLen ∧ c.openChunk index x = .ok p := by
  obtain ⟨nonce,hnonce⟩ : ∃ nonce, c.nonce index = .ok nonce := ⟨_,if_neg (by omega)⟩
  have hlength := c.aead.length_encrypt nonce p
  refine ⟨(c.aead.encrypt nonce p).1 ++ (c.aead.encrypt nonce p).2.toList,?_,?_,?_⟩
  · simp only [RawCipher.sealChunk,hnonce,if_neg (Nat.not_lt.mpr hp)]
    rfl
  · simp [hlength]
  · have hbody : ((c.aead.encrypt nonce p).1 ++ (c.aead.encrypt nonce p).2.toList).length - tagLen =
        (c.aead.encrypt nonce p).1.length := by simp
    have htag : arrayAt tagLen ((c.aead.encrypt nonce p).1 ++ (c.aead.encrypt nonce p).2.toList)
        (c.aead.encrypt nonce p).1.length = (c.aead.encrypt nonce p).2 := by
      simpa using arrayAt_behind rfl (c.aead.encrypt nonce p).2 []
    simp only [RawCipher.openChunk,hnonce,hbody,htag,take_left]
    rw [if_neg (by simp),if_neg (by simp [hlength,encryptedChunkLen]; exact hp)]
    simp only [bind,Except.bind,c.aead.decrypt_encrypt]
    rfl
end Chunk
section OneShot
variable (c : RawCipher)
theorem open_eq {ct : List UInt8} (h : tagLen ≤ ct.length % encryptedChunkLen) (out : List UInt8) :
    c.«open» ct out = (feed c.openChunk 0 (blocks encryptedChunkLen (ct.length / encryptedChunkLen) ct ++
      [ct.drop (encryptedChunkLen * (ct.length / encryptedChunkLen))]) out).2 := by
  have hpos : 0 < ct.length % encryptedChunkLen := lt_of_lt_of_le (by decide) h
  have hlt : ct.length % encryptedChunkLen < encryptedChunkLen := mod_lt _ encryptedChunkLen_pos
  have hrest : (ct.drop (encryptedChunkLen * (ct.length / encryptedChunkLen))).length ≤ encryptedChunkLen := by
    rw [length_drop,← mod_eq_sub]
    exact le_of_lt hlt
  have hchunks : (ct.length + encryptedChunkLen - 1) / encryptedChunkLen = ct.length / encryptedChunkLen + 1 := by
    have hceil := div_ceil (k := ct.length / encryptedChunkLen) hpos (le_of_lt hlt)
    rwa [div_add_mod] at hceil
  unfold RawCipher.«open»
  rw [if_neg (Nat.not_lt.mpr h),hchunks]
  dsimp only
  rw [blocks_succ,take_of_length_le hrest]

private theorem exists_sealed {full : Nat} (hfull : full ≤ maxChunks) {m : List UInt8}
    (hle : chunkSize * full ≤ m.length) :
    ∃ xs : List (List UInt8), xs.length = full ∧ (∀ x ∈ xs, x.length = encryptedChunkLen) ∧
      (∀ out, feed c.sealChunk 0 (blocks chunkSize full m) out = (full, out ++ xs.flatten, .ok ())) ∧
      feed c.openChunk 0 xs [] = (full, m.take (chunkSize * full), .ok ()) := by
  have hcount : (blocks chunkSize full m).length = full := length_blocks _ _ _
  obtain ⟨xs,hlength,hxs⟩ := exists_images (fun k b x => c.sealChunk (0 + k) b = .ok x ∧
      x.length = encryptedChunkLen ∧ c.openChunk (0 + k) x = .ok b)
      (fun k hk => by
    have hlength := length_of_mem_blocks chunkSize hle (getElem_mem hk)
    obtain ⟨x,hseal,hx,hopen⟩ :=
      exists_sealChunk c (show 0 + k < maxChunks by omega) (le_of_eq hlength)
    exact ⟨x,hseal,by rw [hx,hlength]; rfl,hopen⟩)
  refine ⟨xs,hlength.trans hcount,?_,?_,?_⟩
  · intro x hx
    obtain ⟨k,hk,rfl⟩ := getElem_of_mem hx
    exact (hxs k (by omega) hk).2.1
  · intro out
    rw [feed_eq_ok hlength (fun k hk hk' => (hxs k hk hk').1) out,hcount,zero_add]
  · rw [feed_eq_ok hlength.symm (fun k hk hk' => (hxs k hk' hk).2.2) [],flatten_blocks,hlength,hcount,
      zero_add,nil_append]

theorem open_seal (m : List UInt8) (h : m.length / chunkSize < maxChunks) :
    ∃ body, (∀ out, c.«seal» m out = (out ++ body, .ok ())) ∧ c.«open» body [] = (m, .ok ()) := by
  have hle : chunkSize * (m.length / chunkSize) ≤ m.length := mul_div_le _ _
  have hlast : (m.drop (chunkSize * (m.length / chunkSize))).length < chunkSize := by
    rw [length_drop,← mod_eq_sub]
    exact mod_lt _ chunkSize_pos
  obtain ⟨xs,hcount,hfull,hseal,hopen⟩ := exists_sealed c (le_of_lt h) hle
  obtain ⟨x,hsealLast,hx,hopenLast⟩ := exists_sealChunk c h (le_of_lt hlast)
  refine ⟨xs.flatten ++ x,?_,?_⟩
  · intro out
    simp [RawCipher.«seal»,hseal,hsealLast,RawCipher.append]
  · have hshort : x.length < encryptedChunkLen := by
      rw [encryptedChunkLen]
      omega
    have hlength : (xs.flatten ++ x).length = x.length + encryptedChunkLen * xs.length := by
      rw [length_append,length_flatten_of_forall encryptedChunkLen hfull,add_comm]
    have hmod : (xs.flatten ++ x).length % encryptedChunkLen = x.length := by
      rw [hlength,add_mul_mod_self_left,mod_eq_of_lt hshort]
    have hdiv : (xs.flatten ++ x).length / encryptedChunkLen = xs.length := by
      rw [hlength,add_mul_div_left _ _ encryptedChunkLen_pos,div_eq_of_lt hshort,zero_add]
    have hrest : (xs.flatten ++ x).drop (encryptedChunkLen * xs.length) = x := by
      rw [← length_flatten_of_forall encryptedChunkLen hfull,drop_left]
    rw [open_eq c (by omega),hdiv,blocks_flatten encryptedChunkLen hfull,hrest,feed_append_ok hopen]
    simp [feed,hopenLast]
end OneShot
namespace Encryptor
def next (e : Encryptor) : Encryptor :=
  { e with buf := [], index := e.index + 1, length_le := zero_le _ }
variable {data out' : List UInt8}
section
variable (e : Encryptor)
private theorem push_short (out : List UInt8) (h : (e.buf ++ data).length < chunkSize) :
    ∃ e' : Encryptor, e.push data out = (e', out, .ok ()) ∧ e'.cipher = e.cipher ∧
      e'.buf = e.buf ++ data ∧ e'.index = e.index := by
  rw [length_append] at h
  rw [push,dif_pos (by omega)]
  exact ⟨_,rfl,rfl,rfl,rfl⟩

private theorem push_full {x : List UInt8} (out : List UInt8) (h : chunkSize ≤ (e.buf ++ data).length)
    (hx : e.cipher.sealChunk e.index ((e.buf ++ data).take chunkSize) = .ok x) :
    e.push data out = e.next.push ((e.buf ++ data).drop chunkSize) (out ++ x) := by
  have hle := e.length_le
  rw [length_append] at h
  rw [push,dif_neg (by omega)]
  by_cases hempty : e.buf = []
  · rw [hempty,nil_append] at hx
    simp only [hempty,isEmpty_nil,dif_pos,hx,nil_append]
    congr 1
  · rw [take_append,take_of_length_le hle] at hx
    rw [dif_neg (by simpa using hempty),drop_append,drop_eq_nil_of_le hle]
    simp only [hx]
    rfl

private theorem push_ok (data out : List UInt8) {i : Nat}
    (h : feed e.cipher.sealChunk e.index (blocks chunkSize ((e.buf ++ data).length / chunkSize) (e.buf ++ data)) out = (i, out', .ok ())) :
    ∃ e' : Encryptor, e.push data out = (e', out', .ok ()) ∧ e'.cipher = e.cipher ∧ e'.index = i ∧
      e'.buf = (e.buf ++ data).drop (chunkSize * ((e.buf ++ data).length / chunkSize)) := by
  have hpos := chunkSize_pos
  induction hk : (e.buf ++ data).length / chunkSize generalizing e data out with
  | zero =>
    rw [hk] at h
    obtain ⟨rfl,rfl⟩ : e.index = i ∧ out = out' := by simpa [blocks,feed] using h
    obtain ⟨e',hpush,hcipher,hbuf,hindex⟩ := e.push_short out ((div_eq_zero_iff_lt hpos).mp hk)
    exact ⟨e',hpush,hcipher,hindex,by simpa using hbuf⟩
  | succ k ih =>
    have hle : chunkSize ≤ (e.buf ++ data).length := by
      by_contra hlt
      rw [div_eq_of_lt (Nat.lt_of_not_le hlt)] at hk
      omega
    have hrest : ((e.buf ++ data).drop chunkSize).length / chunkSize = k := by
      rw [div_eq_sub_div hpos hle] at hk
      rw [length_drop]
      omega
    rw [hk,blocks,feed] at h
    cases hx : e.cipher.sealChunk e.index ((e.buf ++ data).take chunkSize) with
    | error err =>
      rw [hx] at h
      cases h
    | ok x =>
      rw [hx] at h
      obtain ⟨e',hpush,hcipher,hindex,hbuf⟩ := ih e.next ((e.buf ++ data).drop chunkSize) (out ++ x)
        (by rw [next,nil_append,hrest]; exact h) (by rw [next,nil_append,hrest])
      refine ⟨e',(e.push_full out hle hx).trans hpush,hcipher,hindex,?_⟩
      rw [hbuf,next,nil_append,drop_drop,mul_succ,add_comm]

private theorem stream_eq (hbuf : e.buf.length < chunkSize) (pieces : List (List UInt8)) (out : List UInt8) {i : Nat}
    (h : feed e.cipher.sealChunk e.index (blocks chunkSize ((e.buf ++ pieces.flatten).length / chunkSize) (e.buf ++ pieces.flatten)) out = (i, out', .ok ())) :
    e.stream pieces out = RawCipher.append out' (e.cipher.sealChunk i ((e.buf ++ pieces.flatten).drop
      (chunkSize * ((e.buf ++ pieces.flatten).length / chunkSize)))) := by
  have hpos := chunkSize_pos
  induction pieces generalizing e out with
  | nil =>
    have hzero : e.buf.length / chunkSize = 0 := div_eq_of_lt hbuf
    simp only [flatten_nil,append_nil,hzero] at h ⊢
    cases h
    rfl
  | cons p pieces ih =>
    have hle := mul_div_le (e.buf ++ p).length chunkSize
    have hcount := div_resume chunkSize hpos (e.buf ++ p) pieces.flatten
    rw [flatten_cons,← append_assoc] at h ⊢
    rw [hcount,blocks_resume chunkSize hle] at h
    obtain ⟨j,out₁,hfirst,hrest⟩ := feed_append_eq_ok h
    obtain ⟨e',hpush,hcipher,hindex,hkept⟩ := e.push_ok p out hfirst
    rw [← hcipher,← hindex,← hkept] at hrest
    have hshort : e'.buf.length < chunkSize := by
      rw [hkept,length_drop,← mod_eq_sub]
      exact mod_lt _ hpos
    have hstream : e.stream (p :: pieces) out = e'.stream pieces out₁ := by rw [stream,hpush]
    have hlast : (e'.buf ++ pieces.flatten) =
        (e.buf ++ p ++ pieces.flatten).drop (chunkSize * ((e.buf ++ p).length / chunkSize)) := by
      rw [drop_append_of_le_length hle,hkept]
    rw [hstream,ih e' hshort out₁ hrest,hcipher,hcount,← hkept,mul_add,← drop_drop,← hlast]
end
theorem stream_fresh {e : Encryptor} (hbuf : e.buf = []) (hindex : e.index = 0)
    (pieces : List (List UInt8)) {out : List UInt8} (h : e.cipher.«seal» pieces.flatten out = (out', .ok ())) :
    e.stream pieces out = (out', .ok ()) := by
  obtain ⟨cipher,header,buf,index,hle⟩ := e
  subst hbuf hindex
  unfold RawCipher.«seal» at h
  dsimp only at h
  split at h
  next index out₁ hfeed =>
    have hstream := stream_eq ⟨cipher,header,[],0,hle⟩ chunkSize_pos pieces out hfeed
    exact hstream.trans h
  next => cases h
end Encryptor
/-- The chunks of which more than the end has come after so many bytes. -/
def chunksBefore (len : Nat) : Nat := (len - 1) / encryptedChunkLen

theorem mul_chunksBefore_le (len : Nat) : encryptedChunkLen * chunksBefore len ≤ len :=
  le_trans (mul_div_le _ _) (sub_le _ _)

theorem length_drop_chunksBefore (ct : List UInt8) :
    (ct.drop (encryptedChunkLen * chunksBefore ct.length)).length ≤ encryptedChunkLen := by
  have hpos := encryptedChunkLen_pos
  have hmod := mod_lt (ct.length - 1) hpos
  rw [mod_eq_sub] at hmod
  rw [length_drop,chunksBefore]
  omega
namespace Decryptor
def next (d : Decryptor) : Decryptor := { d.cleared with index := d.index + 1 }
variable (d : Decryptor)
private theorem pushLoop_short {data : List UInt8} (out : List UInt8) (h : (d.buf ++ data).length ≤ encryptedChunkLen) :
    ∃ d' : Decryptor, d.pushLoop data out = (d', out, .ok ()) ∧ d'.cipher = d.cipher ∧
      d'.index = d.index ∧ d'.state = d.state ∧ d'.buf = d.buf ++ data := by
  rw [length_append] at h
  rw [pushLoop,dif_pos (by omega)]
  exact ⟨_,rfl,rfl,rfl,rfl,rfl⟩

private theorem pushLoop_full {data : List UInt8} (out : List UInt8)
    (h : encryptedChunkLen < (d.buf ++ data).length) :
    d.pushLoop data out =
      match d.cipher.openChunk d.index ((d.buf ++ data).take encryptedChunkLen) with
      | .error e => (d.fail e, out, .error e)
      | .ok x => d.next.pushLoop ((d.buf ++ data).drop encryptedChunkLen) (out ++ x) := by
  have hle := d.length_le
  rw [length_append] at h
  rw [pushLoop,dif_neg (by omega)]
  by_cases hempty : d.buf = []
  · simp only [hempty,isEmpty_nil,dif_pos,nil_append]
    congr 1
  · rw [dif_neg (by simpa using hempty),take_append,take_of_length_le hle,drop_append,drop_eq_nil_of_le hle]
    rfl

/-- Chunks that are followed by more are opened and the rest is kept. -/
theorem pushLoop_spec (data out : List UInt8) :
    match feed d.cipher.openChunk d.index
      (blocks encryptedChunkLen (chunksBefore (d.buf ++ data).length) (d.buf ++ data)) out with
    | (i, out', .ok ()) => ∃ d' : Decryptor, d.pushLoop data out = (d', out', .ok ()) ∧
        d'.cipher = d.cipher ∧ d'.index = i ∧ d'.state = d.state ∧
        d'.buf = (d.buf ++ data).drop (encryptedChunkLen * chunksBefore (d.buf ++ data).length)
    | (_, out', .error e) => ∃ d' : Decryptor, d.pushLoop data out = (d', out', .error e) ∧
        d'.state = .failed e := by
  have hpos := encryptedChunkLen_pos
  induction hk : chunksBefore (d.buf ++ data).length generalizing d data out with
  | zero =>
    have hle : (d.buf ++ data).length ≤ encryptedChunkLen := by
      rw [chunksBefore,div_eq_zero_iff_lt hpos] at hk
      omega
    obtain ⟨d',hpush,hcipher,hindex,hstate,hbuf⟩ := d.pushLoop_short out hle
    exact ⟨d',hpush,hcipher,hindex,hstate,by simpa using hbuf⟩
  | succ k ih =>
    have hlt : encryptedChunkLen < (d.buf ++ data).length := by
      by_contra hle
      rw [chunksBefore,div_eq_of_lt (by omega)] at hk
      omega
    have hrest : chunksBefore ((d.buf ++ data).drop encryptedChunkLen).length = k := by
      rw [chunksBefore,div_eq_sub_div hpos (by omega)] at hk
      rw [chunksBefore,length_drop,Nat.sub_right_comm]
      omega
    rw [blocks,feed,d.pushLoop_full out hlt]
    cases d.cipher.openChunk d.index ((d.buf ++ data).take encryptedChunkLen) with
    | error e => exact ⟨_,rfl,rfl⟩
    | ok x =>
      have h := ih d.next ((d.buf ++ data).drop encryptedChunkLen) (out ++ x) hrest
      simpa only [next,cleared,nil_append,drop_drop,mul_succ,add_comm] using h
end Decryptor
end PureCrypto.Chunked
