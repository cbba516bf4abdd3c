import PureCrypto.Framework.Trace
import PureCrypto.Tls.ChannelScript

/-!
# The record layer as a channel

A sending core makes its calls, and a receiving core reads the bytes in any segmentation. The
sender never reads from the receiver, so the calls are two runs, one after the other.
-/
namespace PureCrypto.Tls
open List Option
open Script (events leading)
open ByteReader (FixedBytes)
inductive SendOp where
  | emitHandshake (message : List UInt8)
  | sendApplicationData (data : List UInt8)
  | sendAlert (description : AlertDescription)
  | sendCloseNotify
  | setWrite (aead : Aead) (iv : FixedBytes 12)
  | writeTls

/-- A sending core, the bytes it has handed out, and what its peer should get from them. -/
structure Sender where
  core : ConnectionCore
  wire : List UInt8
  expected : List Incoming
  keys : List (Nat × RecordCrypter)
  data : List UInt8
namespace Sender
def start (limit : Option Nat) : Sender :=
  ⟨{ ConnectionCore.new with peerRecordSizeLimit := limit }, [], [], [], []⟩

def step (s : Sender) : SendOp → Sender
  | .emitHandshake message =>
    { s with
      core := s.core.emitHandshake message
      expected := s.expected ++ [.handshake message] }
  | .sendApplicationData data =>
    { s with
      core := s.core.sendApplicationData data
      expected := s.expected ++ (s.core.pieces data).map fun p => .applicationData p.length
      data := s.data ++ data }
  | .sendAlert description =>
    { s with
      core := s.core.sendAlert description
      expected := s.expected ++ [.alert ⟨true, description.received⟩] }
  | .sendCloseNotify =>
    { s with
      core := s.core.sendCloseNotify
      expected := s.expected ++
        if s.core.sentCloseNotify then [] else [.alert ⟨false, .closeNotify⟩] }
  | .setWrite aead iv =>
    { s with
      core := s.core.setWrite ⟨aead, iv, 0⟩
      keys := s.keys ++ [(s.expected.length, ⟨aead, iv, 0⟩)] }
  | .writeTls =>
    { s with
      core := s.core.writeTls.2
      wire := s.wire ++ s.core.writeTls.1 }

def produced (s : Sender) : List UInt8 := s.wire ++ s.core.outbuf

/-- The key stays below its record limit. -/
def Room (s : Sender) (payload : List UInt8) : Prop :=
  ∀ k ∈ s.core.write, k.seq + (s.core.pieces payload).length < maxRecordsPerKey

instance (s : Sender) (payload : List UInt8) : Decidable (s.Room payload) :=
  inferInstanceAs (Decidable (∀ k ∈ s.core.write, _))

/-- Whole handshake messages that fit the peer's buffer, and application data only under a key. -/
def Allows (s : Sender) : SendOp → Prop
  | .emitHandshake message =>
    WholeMessage message ∧ message.length ≤ maxHandshakeReassembly ∧ s.Room message
  | .sendApplicationData data => s.core.write.isSome ∧ s.Room data
  | .sendAlert description => s.Room [2, description.asU8]
  | .sendCloseNotify => s.Room [1, AlertDescription.closeNotify.asU8]
  | .setWrite aead _ => aead.Inverts
  | .writeTls => True

structure Follows (limit : Option Nat) (s : Sender) (script : List Item) : Prop where
  ok : Script.Ok limit none [] script
  wire : s.produced = Script.wire none script
  expected : s.expected = events [] script
  keys : s.keys = Script.keysFrom 0 script
  data : s.data = Script.payload script
  write : s.core.write = script.foldl Item.keyAfter none
  inverts : ∀ k ∈ s.core.write, k.aead.Inverts
  limit_eq : s.core.peerRecordSizeLimit = limit
  writeError : s.core.writeError = none
end Sender
namespace Script
variable (key : Option RecordCrypter)
variable (script more : List Item)
theorem wire_append : wire key (script ++ more) = wire key script ++ wire (script.foldl Item.keyAfter key) more := by
  induction script generalizing key with
  | nil => rfl
  | cons i rest ih =>
    rw [cons_append,wire,wire,ih,append_assoc]
    rfl

theorem ok_append {limit : Option Nat} {script more : List Item} (h : Ok limit key [] script)
    (hmore : Ok limit (script.foldl Item.keyAfter key) [] more) : Ok limit key [] (script ++ more) := by
  induction script generalizing key with
  | nil => exact hmore
  | cons i rest ih => exact ⟨h.1,ih _ h.2 hmore⟩

theorem events_append : events [] (script ++ more) = events [] script ++ events [] more := by
  induction script with
  | nil => rfl
  | cons i rest ih => rw [cons_append,events,events,ih,append_assoc]

theorem keysFrom_append (n : Nat) (script more : List Item) : keysFrom n (script ++ more) =
      keysFrom n script ++ keysFrom (n + (events [] script).length) more := by
  induction script generalizing n with
  | nil => rfl
  | cons i rest ih =>
    cases i with
    | key k => simp [keysFrom,ih,events,Item.event]
    | _ =>
      simp only [cons_append,keysFrom,ih,events,Item.event,toList_some,length_cons,nil_append]
      rw [Nat.add_right_comm,add_assoc]

theorem payload_append : payload (script ++ more) = payload script ++ payload more := flatMap_append
end Script
variable {key : Option RecordCrypter}
theorem advance_aead {n : Nat} {k : RecordCrypter} (h : k ∈ advance n key) : ∃ k₀ ∈ key, k.aead = k₀.aead := by
  induction n generalizing key with
  | zero => exact ⟨k,h,rfl⟩
  | succ n ih =>
    obtain ⟨k₁,hk₁,haead⟩ := ih h
    obtain ⟨k₀,hk₀,rfl⟩ := map_eq_some_iff.mp hk₁
    exact ⟨k₀,hk₀,haead⟩

theorem allFit_of_le {limit : Option Nat} {cap : Nat} {ps : List (List UInt8)}
    (hps : ∀ p ∈ ps, p.length ≤ cap) (hcap : cap ≤ 2 ^ 14)
    (hkey : ∀ k ∈ key, k.aead.Inverts ∧ k.seq + ps.length ≤ maxRecordsPerKey ∧ ∀ l ∈ limit, cap + 1 ≤ l) :
    AllFit limit key ps := by
  induction ps generalizing key with
  | nil => trivial
  | cons p ps ih =>
    have hp : p.length ≤ cap := hps p (by simp)
    refine ⟨⟨hp.trans hcap,fun k hk => ?_⟩,ih (fun q hq => hps q (by simp [hq])) fun k hk => ?_⟩
    · obtain ⟨hinverts,hseq,hlimit⟩ := hkey k hk
      refine ⟨hinverts,?_,fun l hl => ?_⟩
      · simp only [length_cons] at hseq
        omega
      · have := hlimit l hl
        omega
    · obtain ⟨k₀,hk₀,rfl⟩ := map_eq_some_iff.mp hk
      obtain ⟨hinverts,hseq,hlimit⟩ := hkey k₀ hk₀
      refine ⟨hinverts,?_,hlimit⟩
      simp only [length_cons,RecordCrypter.next] at hseq ⊢
      omega

theorem foldl_emitOneRecord {limit : Option Nat} (ct : ContentType) (ps : List (List UInt8))
    (c : ConnectionCore) (h : AllFit limit c.write ps) :
    ps.foldl (fun c p => c.emitOneRecord ct p) c =
      { c with
        outbuf := c.outbuf ++ wireRecords c.write (ps.map fun p => (ct, p))
        write := advance ps.length c.write } := by
  induction ps generalizing c with
  | nil => simp [wireRecords,advance]
  | cons p ps ih =>
    rw [foldl_cons,ConnectionCore.emitOneRecord_eq ct h.1,ih _ h.2]
    simp [wireRecords,advance]
section Cap
variable {c : ConnectionCore} (hlimit : ∀ l ∈ c.peerRecordSizeLimit, 64 ≤ l)
include hlimit
theorem outboundFragmentCap_lt {k : RecordCrypter} (hk : k ∈ c.write) :
    ∀ l ∈ c.peerRecordSizeLimit, c.outboundFragmentCap + 1 ≤ l := by
  intro l hl
  have := hlimit l hl
  rw [mem_def] at hk hl
  simp only [ConnectionCore.outboundFragmentCap,hk,hl]
  omega

theorem pieces_alert (level code : UInt8) : c.pieces [level, code] = [[level, code]] := by
  apply if_pos
  unfold ConnectionCore.outboundFragmentCap maxPlaintextFragment
  simp only [length_cons,length_nil]
  split
  · next k l hk hl =>
      have := hlimit l hl
      omega
  · omega
end Cap
namespace Sender
variable {limit : Option Nat} {s : Sender} {script : List Item}
section
variable (h : s.Follows limit script)
include h
theorem Follows.allFit (hlimit : ∀ l ∈ limit, 64 ≤ l) {payload : List UInt8} (hroom : s.Room payload) :
    AllFit limit s.core.write (s.core.pieces payload) := by
  refine allFit_of_le (fun p hp => ConnectionCore.length_le_of_mem_pieces hp)
    s.core.outboundFragmentCap_le fun k hk => ⟨h.inverts k hk,(hroom k hk).le,?_⟩
  rw [← h.limit_eq] at hlimit ⊢
  exact outboundFragmentCap_lt hlimit hk

theorem Follows.emitRecord (ct : ContentType) {payload : List UInt8}
    (hfit : AllFit limit s.core.write (s.core.pieces payload)) (more : List Item)
    (hok : Script.Ok limit s.core.write [] more)
    (hwire : Script.wire s.core.write more =
      wireRecords s.core.write ((s.core.pieces payload).map fun p => (ct, p)))
    (hafter : more.foldl Item.keyAfter s.core.write =
      advance (s.core.pieces payload).length s.core.write)
    (hkeys : ∀ n, Script.keysFrom n more = []) :
    Follows limit
      { s with
        core := s.core.emitRecord ct payload
        expected := s.expected ++ events [] more
        data := s.data ++ Script.payload more } (script ++ more) := by
  have hcore := s.core.emitRecord_eq ct payload
  rw [foldl_emitOneRecord ct _ _ hfit] at hcore
  rw [h.write] at hok hwire hafter
  refine ⟨Script.ok_append none h.ok hok,?_,?_,?_,?_,?_,?_,?_,?_⟩
  · rw [Script.wire_append,← h.wire,hwire,← h.write]
    simp only [produced,hcore,append_assoc]
  · rw [Script.events_append,← h.expected]
  · rw [Script.keysFrom_append,hkeys,append_nil]
    exact h.keys
  · rw [Script.payload_append,← h.data]
  · rw [foldl_append,hafter,hcore,← h.write]
  · intro k hk
    rw [hcore] at hk
    obtain ⟨k₀,hk₀,haead⟩ := advance_aead hk
    rw [haead]
    exact h.inverts k₀ hk₀
  · rw [hcore]
    exact h.limit_eq
  · rw [hcore]
    exact h.writeError

theorem Follows.emitAlert (hlimit : ∀ l ∈ limit, 64 ≤ l)
    {level code : UInt8} (hroom : s.Room [level, code]) :
    Follows limit
      { s with
        core := s.core.emitRecord .alert [level, code]
        expected := s.expected ++ [.alert ⟨level == 2,.fromU8 code⟩] }
      (script ++ [.alert level code]) := by
  have hpieces : s.core.pieces [level, code] = [[level, code]] := by
    rw [← h.limit_eq] at hlimit
    exact pieces_alert hlimit level code
  have hfit := h.allFit hlimit hroom
  have hall := hfit
  rw [hpieces] at hfit
  have hnext := h.emitRecord .alert hall [.alert level code] ⟨⟨hfit,rfl⟩,rfl⟩
    (by rw [hpieces]; simp [Script.wire,Item.records]) (by rw [hpieces]; rfl) fun _ => rfl
  simpa [Script.payload,Item.payload,events,Item.event] using hnext
end
theorem ok_data {key : Option RecordCrypter} (hkey : key.isSome) {ps : List (List UInt8)}
    (hfit : AllFit limit key ps) : Script.Ok limit key [] (ps.map Item.data) := by
  induction ps generalizing key with
  | nil => rfl
  | cons p ps ih =>
    refine ⟨⟨⟨hfit.1,trivial⟩,rfl,hkey⟩,ih ?_ hfit.2⟩
    exact (isSome_map ..).trans hkey

theorem wire_data (key : Option RecordCrypter) (ps : List (List UInt8)) :
    Script.wire key (ps.map Item.data) =
      wireRecords key (ps.map fun p => (.applicationData, p)) := by
  induction ps generalizing key with
  | nil => rfl
  | cons p ps ih =>
    rw [map_cons,map_cons,Script.wire,wireRecords,Item.records,wireRecords,wireRecords,append_nil,← ih]
    rfl

theorem keyAfter_data (key : Option RecordCrypter) (ps : List (List UInt8)) :
    (ps.map Item.data).foldl Item.keyAfter key = advance ps.length key := by
  induction ps generalizing key with
  | nil => rfl
  | cons p ps ih => exact ih _

theorem keysFrom_data (n : Nat) (ps : List (List UInt8)) : Script.keysFrom n (ps.map Item.data) = [] := by
  induction ps generalizing n with
  | nil => rfl
  | cons p ps ih => exact ih (n + 1)

theorem events_data (ps : List (List UInt8)) :
    events [] (ps.map Item.data) = ps.map fun p => .applicationData p.length := by
  induction ps with
  | nil => rfl
  | cons p ps ih => rw [map_cons,events,ih]; rfl

theorem payload_data (ps : List (List UInt8)) : Script.payload (ps.map Item.data) = ps.flatten := by
  induction ps with
  | nil => rfl
  | cons p ps ih =>
    rw [map_cons,Script.payload,flatMap_cons,← Script.payload,ih]
    rfl

theorem Follows.step (h : s.Follows limit script) (hlimit : ∀ l ∈ limit, 64 ≤ l) {op : SendOp}
    (hallows : s.Allows op) : ∃ script', (s.step op).Follows limit script' := by
  cases op with
  | emitHandshake m =>
    obtain ⟨hwhole,hlen,hroom⟩ := hallows
    have hfit := h.allFit hlimit hroom
    have hne : m ≠ [] := by
      rintro rfl
      exact hwhole
    have hflat := s.core.flatten_pieces m
    have hnext := h.emitRecord .handshake hfit [.message (s.core.pieces m)]
      ⟨⟨by simpa [Item.records,Function.comp_def] using hfit,by simpa [hflat] using hwhole,
        by simpa [hflat] using hlen,fun p hp => ConnectionCore.ne_nil_of_mem_pieces hne hp⟩,rfl⟩
      (by simp [Script.wire,Item.records]) (by simp [Item.keyAfter,Item.records]) fun _ => rfl
    simp only [Script.payload,Item.payload,events,Item.event,hflat,flatMap_cons,
      flatMap_nil,nil_append,append_nil,toList_some] at hnext
    exact ⟨_,hnext⟩
  | sendApplicationData d =>
    obtain ⟨hkeyed,hroom⟩ := hallows
    have hfit := h.allFit hlimit hroom
    have hnext := h.emitRecord .applicationData hfit _ (ok_data hkeyed hfit)
      (wire_data _ _) (keyAfter_data _ _) fun n => keysFrom_data n _
    rw [events_data,payload_data,s.core.flatten_pieces] at hnext
    exact ⟨_,hnext⟩
  | sendAlert description =>
    have hroom : s.Room [2, description.asU8] := hallows
    have hnext := h.emitAlert hlimit hroom
    rw [AlertDescription.fromU8_asU8] at hnext
    exact ⟨_,hnext⟩
  | sendCloseNotify =>
    by_cases hsent : s.core.sentCloseNotify = true
    · refine ⟨script,?_⟩
      simpa [Sender.step,ConnectionCore.sendCloseNotify,hsent] using h
    · have hmarked : Follows limit
          { s with core := { s.core with sentCloseNotify := true } } script :=
        ⟨h.ok,h.wire,h.expected,h.keys,h.data,h.write,h.inverts,h.limit_eq,h.writeError⟩
      have hnext := hmarked.emitAlert hlimit hallows
      refine ⟨script ++ [.alert 1 AlertDescription.closeNotify.asU8],?_⟩
      simp only [Sender.step,ConnectionCore.sendCloseNotify,if_neg hsent]
      exact hnext
  | setWrite aead iv =>
    refine ⟨script ++ [.key ⟨aead,iv,0⟩],
      Script.ok_append none h.ok ⟨⟨by simp [Item.records,AllFit],rfl⟩,rfl⟩,?_,?_,?_,?_,?_,?_,
      h.limit_eq,h.writeError⟩
    · rw [Script.wire_append,← h.wire]
      exact (append_nil _).symm
    · rw [Script.events_append,← h.expected]
      exact (append_nil _).symm
    · rw [Script.keysFrom_append,← h.keys,← h.expected,zero_add]
      rfl
    · rw [Script.payload_append,← h.data]
      exact (append_nil _).symm
    · rw [foldl_append]
      rfl
    · rintro k hk
      cases hk
      exact hallows
  | writeTls =>
    refine ⟨script,h.ok,?_,h.expected,h.keys,h.data,h.write,h.inverts,h.limit_eq,h.writeError⟩
    rw [← h.wire]
    exact append_nil _

theorem follows_start (limit : Option Nat) : (start limit).Follows limit [] :=
  ⟨rfl,rfl,rfl,rfl,rfl,rfl,nofun,rfl,rfl⟩

theorem follows_run (hlimit : ∀ l ∈ limit, 64 ≤ l) {ops : List SendOp}
    (hops : Trace.Along step Allows (start limit) ops) :
    ∃ script, (Trace.run step (start limit) ops).Follows limit script := by
  have hstep : ∀ (s : Sender) (op : SendOp), (∃ script, s.Follows limit script) → s.Allows op →
      ∃ script, (s.step op).Follows limit script := by
    rintro s op ⟨script,h⟩ hallows
    exact h.step hlimit hallows
  exact hops.invariant hstep ⟨[],follows_start limit⟩
end Sender
inductive ChannelOp where
  /-- Feed the next `n` bytes. -/
  | readTls (n : Nat)
  | nextMessage
  | takeReceived

/-- A receiving core, the number of bytes it was fed, and what came out of it. -/
structure Receiver where
  core : ConnectionCore
  fed : Nat
  log : List Incoming
  taken : List UInt8
  failed : Bool

/-- The keys that the sender installed behind its `n`-th message. -/
def Sender.due (s : Sender) (n : Nat) : List RecordCrypter :=
  (s.keys.filter fun e => e.1 == n).map Prod.snd
namespace Receiver
def install (r : Receiver) (keys : List RecordCrypter) : Receiver :=
  keys.foldl (fun r k =>
    match r.core.setRead k with
    | (.ok (), core) => { r with core }
    | (.error _, core) => { r with core, failed := true }) r

def start (s : Sender) (limit : Option Nat) (allowed routing : Bool) : Receiver :=
  install ⟨{ ConnectionCore.new with
    inboundRecordSizeLimit := limit
    appDataAllowed := allowed
    earlyDataRouting := routing }, 0, [], [], false⟩ (s.due 0)

def step (s : Sender) (r : Receiver) (op : ChannelOp) : Receiver :=
  if r.failed then r
  else
    match op with
    | .readTls n =>
      { r with
        core := r.core.readTls ((s.produced.drop r.fed).take n)
        fed := r.fed + n }
    | .nextMessage =>
      match r.core.nextMessage with
      | (.error _, core) => { r with core, failed := true }
      | (.ok none, core) => { r with core }
      | (.ok (some e), core) =>
        install { r with core, log := r.log ++ [e] } (s.due (r.log.length + 1))
    | .takeReceived =>
      { r with
        core := r.core.takeReceived.2
        taken := r.taken ++ r.core.takeReceived.1 }

/-- What application data does not come out of the receiver is still in the script. -/
structure Feeds (s : Sender) (r : Receiver) (script : List Item) (allowed routing : Bool) : Prop where
  allowed_eq : r.core.appDataAllowed = allowed
  routing_eq : r.core.earlyDataRouting = routing
  data : allowed = true → routing = false →
    r.taken ++ r.core.appIn ++ Script.payload script = s.data

structure Tracks (s : Sender) (r : Receiver) (script : List Item) (allowed routing : Bool) :
    Prop where
  running : r.failed = false
  no_key : ∀ k rest, script ≠ .key k :: rest
  awaits : Awaits r.core script (s.produced.drop r.fed)
  expected : r.log ++ events r.core.hsPending script = s.expected
  keys : ∃ before, s.keys = before ++ Script.keysFrom r.log.length script ∧
    ∀ e ∈ before, e.1 ≤ r.log.length
  feeds : Feeds s r script allowed routing

structure Arrived (s : Sender) (r : Receiver) (script : List Item) (allowed routing : Bool) :
    Prop where
  running : r.failed = false
  pending : r.core.hsPending = []
  awaits : Awaits r.core script (s.produced.drop r.fed)
  expected : r.log ++ events [] script = s.expected
  keys : ∃ before, s.keys = before ++ Script.keysFrom r.log.length script ∧
    ∀ e ∈ before, e.1 < r.log.length
  feeds : Feeds s r script allowed routing
variable {s : Sender} {r : Receiver} {script : List Item} {allowed routing : Bool}
theorem Feeds.delivers {script' : List Item} {core : ConnectionCore} {content : List UInt8}
    {log : List Incoming} (h : Feeds s r script allowed routing)
    (hdelivers : Delivers r.core core content)
    (hpayload : Script.payload script = content ++ Script.payload script') :
    Feeds s { r with core, log } script' allowed routing where
  allowed_eq := hdelivers.allowed.trans h.allowed_eq
  routing_eq := hdelivers.routing.trans h.routing_eq
  data := fun hallowed hrouting => by
    have happIn := hdelivers.appIn (h.allowed_eq.trans hallowed) (h.routing_eq.trans hrouting)
    rw [← h.data hallowed hrouting,hpayload]
    simp only [happIn,append_assoc]

theorem install_leading {unfed : List UInt8} (h : Awaits r.core script unfed) :
    ∃ read, r.install (leading script) = { r with core := { r.core with read } } ∧
      Awaits { r.core with read } (Script.dropKeys script) unfed := by
  induction script generalizing r with
  | nil => exact ⟨r.core.read,rfl,h⟩
  | cons i rest ih =>
    cases i with
    | key k =>
      obtain ⟨hset,hawaits⟩ := h.setRead
      obtain ⟨read,hinstall,hrest⟩ := @ih { r with core := { r.core with read := some k } } hawaits
      refine ⟨read,?_,hrest⟩
      rw [leading,install,foldl_cons,hset]
      exact hinstall
    | _ => exact ⟨r.core.read,rfl,h⟩

theorem install_frame (r : Receiver) (keys : List RecordCrypter) :
    (r.install keys).log = r.log ∧ (r.install keys).fed = r.fed := by
  induction keys generalizing r with
  | nil => exact ⟨rfl,rfl⟩
  | cons k keys ih =>
    rw [install,foldl_cons,← install]
    obtain ⟨hlog,hfed⟩ := ih (match r.core.setRead k with
      | (.ok (), core) => { r with core }
      | (.error _, core) => { r with core, failed := true })
    rw [hlog,hfed]
    split <;> exact ⟨rfl,rfl⟩

theorem Arrived.due (h : Arrived s r script allowed routing) : s.due r.log.length = leading script := by
  obtain ⟨before,hkeys,hbefore⟩ := h.keys
  have hnone : before.filter (fun e => e.1 == r.log.length) = [] := by
    rw [filter_eq_nil_iff]
    intro e he
    have := hbefore e he
    simp only [beq_iff_eq]
    omega
  have hlater : (Script.keysFrom r.log.length (Script.dropKeys script)).filter
      (fun e => e.1 == r.log.length) = [] := by
    rw [filter_eq_nil_iff]
    intro e he
    have := Script.keysFrom_lt (Script.dropKeys_ne_key script) e he
    simp only [beq_iff_eq]
    omega
  rw [Sender.due,hkeys,Script.keysFrom_eq,filter_append,filter_append,hnone,hlater]
  simp [List.filter_map,Function.comp_def]

theorem Arrived.install (h : Arrived s r script allowed routing) :
    Tracks s (r.install (s.due r.log.length)) (Script.dropKeys script) allowed routing := by
  obtain ⟨read,hinstall,hawaits⟩ := install_leading h.awaits
  obtain ⟨before,hkeys,hbefore⟩ := h.keys
  rw [h.due,hinstall]
  refine ⟨h.running,Script.dropKeys_ne_key script,hawaits,?_,?_,?_⟩
  · simp only [h.pending,Script.events_dropKeys,h.expected]
  · refine ⟨before ++ (leading script).map fun k => (r.log.length, k),?_,?_⟩
    · rw [append_assoc,← Script.keysFrom_eq,hkeys]
    · rw [forall_mem_append]
      refine ⟨fun e he => (hbefore e he).le,fun e he => ?_⟩
      obtain ⟨k,-,rfl⟩ := List.mem_map.mp he
      exact le_rfl
  · refine ⟨h.feeds.allowed_eq,h.feeds.routing_eq,?_⟩
    rw [Script.payload_dropKeys]
    exact h.feeds.data

/-- A call of `nextMessage`; once all bytes are there, it brings the next message as long as one is
missing. -/
theorem Tracks.nextMessage (h : Tracks s r script allowed routing) :
    ∃ script', Tracks s (r.step s .nextMessage) script' allowed routing ∧ (r.step s .nextMessage).fed = r.fed ∧
      (s.produced.length ≤ r.fed → (r.step s .nextMessage).log.length =
        min (r.log.length + 1) s.expected.length) := by
  have houtcome := h.awaits.nextMessage_outcome h.no_key
  have hlen := congrArg List.length h.expected
  rw [length_append] at hlen
  rw [Receiver.step,if_neg (by simp [h.running])]
  generalize r.core.nextMessage = result at houtcome
  cases houtcome with
  | @waiting script' c' hawaits hkey hevents hkeys hpayload hfed hdelivers =>
    refine ⟨script',⟨h.running,hkey,hawaits,?_,?_,?_⟩,rfl,fun hall => ?_⟩
    · rw [hevents]
      exact h.expected
    · rw [hkeys]
      exact h.keys
    · exact h.feeds.delivers hdelivers hpayload.symm
    · rw [← hevents,hfed (drop_of_length_le hall)] at hlen
      simp only [events,length_nil] at hlen
      change r.log.length = _
      omega
  | @event content rest e c' hevents hkeys hpayload hpending hawaits hdelivers =>
    have harrived : Arrived s { r with core := c', log := r.log ++ [e] } rest allowed routing := by
      obtain ⟨before,hbefore,hle⟩ := h.keys
      refine ⟨h.running,hpending,hawaits,?_,⟨before,?_,?_⟩,?_⟩
      · rw [← h.expected,hevents,append_assoc]
        rfl
      · rw [hbefore,hkeys,length_append,length_singleton]
      · intro e' he'
        have := hle e' he'
        simp only [length_append,length_singleton]
        omega
      · exact h.feeds.delivers hdelivers hpayload
    have htracks := harrived.install
    simp only [length_append,length_singleton] at htracks
    refine ⟨_,htracks,(install_frame _ _).2,fun _ => ?_⟩
    rw [hevents,length_cons] at hlen
    rw [(install_frame _ _).1,length_append,length_singleton]
    omega

theorem Tracks.step (h : Tracks s r script allowed routing) (op : ChannelOp) :
    ∃ script', Tracks s (r.step s op) script' allowed routing := by
  cases op with
  | nextMessage =>
    obtain ⟨script',htracks,-,-⟩ := h.nextMessage
    exact ⟨script',htracks⟩
  | readTls n =>
    refine ⟨script,?_⟩
    rw [Receiver.step,if_neg (by simp [h.running])]
    refine ⟨h.running,h.no_key,⟨h.awaits.ok,?_⟩,h.expected,h.keys,
      ⟨h.feeds.allowed_eq,h.feeds.routing_eq,h.feeds.data⟩⟩
    have hsplit : (s.produced.drop r.fed).take n ++ s.produced.drop (r.fed + n) =
        s.produced.drop r.fed := by
      rw [← drop_drop,take_append_drop]
    change (r.core.inbuf.drop r.core.inOff ++ (s.produced.drop r.fed).take n).drop 0 ++ _ = _
    rw [drop_zero,append_assoc,hsplit]
    exact h.awaits.bytes
  | takeReceived =>
    refine ⟨script,?_⟩
    rw [Receiver.step,if_neg (by simp [h.running])]
    refine ⟨h.running,h.no_key,⟨h.awaits.ok,h.awaits.bytes⟩,h.expected,h.keys,
      ⟨h.feeds.allowed_eq,h.feeds.routing_eq,fun hallowed hrouting => ?_⟩⟩
    rw [← h.feeds.data hallowed hrouting]
    simp [ConnectionCore.takeReceived]

theorem tracks_start {limit : Option Nat} (h : s.Follows limit script) (allowed routing : Bool) :
    Tracks s (start s limit allowed routing) (Script.dropKeys script) allowed routing := by
  have harrived : Arrived s ⟨{ ConnectionCore.new with
      inboundRecordSizeLimit := limit
      appDataAllowed := allowed
      earlyDataRouting := routing },0,[],[],false⟩ script allowed routing :=
    ⟨rfl,rfl,⟨h.ok,h.wire⟩,h.expected.symm,⟨[],h.keys,nofun⟩,
      ⟨rfl,rfl,fun _ _ => h.data.symm⟩⟩
  exact harrived.install
variable (h : Tracks s r script allowed routing)
include h
theorem tracks_run (ops : List ChannelOp) :
    ∃ script', Tracks s (Trace.run (step s) r ops) script' allowed routing := by
  induction ops generalizing r script with
  | nil => exact ⟨script,h⟩
  | cons op ops ih =>
    obtain ⟨script',h'⟩ := h.step op
    exact ih h'

/-- With all bytes there, every call brings a message until none is missing. -/
theorem tracks_drain (hfed : s.produced.length ≤ r.fed)
    (n : Nat) : ∃ script', Tracks s (Trace.run (step s) r (List.replicate n .nextMessage)) script'
        allowed routing ∧ (Trace.run (step s) r (List.replicate n .nextMessage)).log.length =
        min (r.log.length + n) s.expected.length := by
  induction n generalizing r script with
  | zero =>
    have := congrArg List.length h.expected
    rw [length_append] at this
    refine ⟨script,h,?_⟩
    simp only [replicate_zero,Trace.run_nil]
    omega
  | succ n ih =>
    obtain ⟨script',h',hfed',hlog⟩ := h.nextMessage
    obtain ⟨script'',h'',hlog'⟩ := ih h' (by omega)
    refine ⟨script'',h'',?_⟩
    rw [replicate_succ,Trace.run_cons,hlog']
    omega

theorem Tracks.finished (hlog : r.log.length = s.expected.length) : script = [] ∧ r.log = s.expected := by
  have hevents : events r.core.hsPending script = [] := by
    have := congrArg List.length h.expected
    rw [length_append] at this
    exact length_eq_zero_iff.mp (by omega)
  refine ⟨?_,by rw [← h.expected,hevents,append_nil]⟩
  match script with
  | [] => rfl
  | .key k :: rest => exact absurd rfl (h.no_key k rest)
  | .message _ :: _ | .data _ :: _ | .alert _ _ :: _ => simp [events,Item.event] at hevents

theorem drained :
    let r' := Trace.run (step s) r (.readTls s.produced.length ::
      List.replicate s.expected.length .nextMessage ++ [.takeReceived])
    r'.failed = false ∧ r'.log = s.expected ∧
      (allowed = true → routing = false → r'.taken = s.data) := by
  obtain ⟨_,hfed⟩ := h.step (.readTls s.produced.length)
  have hall : s.produced.length ≤ (r.step s (.readTls s.produced.length)).fed := by
    rw [step,if_neg (by simp [h.running])]
    exact Nat.le_add_left _ _
  obtain ⟨_,hlast,hcount⟩ := tracks_drain hfed hall s.expected.length
  obtain ⟨rfl,hlog⟩ := hlast.finished (by omega)
  rw [cons_append,Trace.run_cons,Trace.run_append,Trace.run_cons]
  generalize Trace.run (step s) (r.step s (.readTls s.produced.length))
    (List.replicate s.expected.length .nextMessage) = q at hlast hlog
  rw [step,if_neg (by simp [hlast.running])]
  refine ⟨hlast.running,hlog,fun hallowed hrouting => ?_⟩
  rw [← hlast.feeds.data hallowed hrouting]
  exact (append_nil _).symm
end Receiver
/-- The record layer is a faithful channel.  In every run the messages that have come out are the
first of those that were sent; and when the rest of the bytes is read, as many calls of `nextMessage`
as there are messages bring them all, and the application data is what was sent. -/
theorem channel_faithful (limit : Option Nat) (hlimit : ∀ l ∈ limit, 64 ≤ l) (sends : List SendOp)
    (hsends : Trace.Along Sender.step Sender.Allows (Sender.start limit) sends)
    (allowed routing : Bool) (recvs : List ChannelOp) :
    let s := Trace.run Sender.step (Sender.start limit) sends
    let r := Trace.run (Receiver.step s) (Receiver.start s limit allowed routing) recvs
    let r' := Trace.run (Receiver.step s) r (.readTls s.produced.length ::
      List.replicate s.expected.length .nextMessage ++ [.takeReceived])
    s.core.writeError = none ∧ r.failed = false ∧ r.log <+: s.expected ∧
      (allowed = true → routing = false → r.taken <+: s.data) ∧
      r'.failed = false ∧ r'.log = s.expected ∧
      (allowed = true → routing = false → r'.taken = s.data) := by
  intro s r r'
  obtain ⟨script,hsent⟩ := Sender.follows_run hlimit hsends
  obtain ⟨now,hnow⟩ := Receiver.tracks_run (Receiver.tracks_start hsent allowed routing) recvs
  refine ⟨hsent.writeError,hnow.running,⟨_,hnow.expected⟩,fun hallowed hrouting => ?_,Receiver.drained hnow⟩
  refine ⟨r.core.appIn ++ Script.payload now,?_⟩
  rw [← append_assoc]
  exact hnow.feeds.data hallowed hrouting

/-- A handshake message that is read in two parts, a key, data in two records, an empty write and two alerts. -/
theorem channel_faithful_keyed :
    let sends : List SendOp := [.emitHandshake ([2, 0, 0, 3] ++ [7, 8, 9]),
      .setWrite .null ⟨List.replicate 12 0,rfl⟩, .sendApplicationData (List.replicate 70 5),
      .sendApplicationData [], .writeTls, .sendAlert .internalError, .sendCloseNotify]
    let s := Trace.run Sender.step (Sender.start (some 64)) sends
    let r := Trace.run (Receiver.step s) (Receiver.start s (some 64) true false)
      [.readTls 1, .nextMessage, .readTls 12, .nextMessage, .takeReceived]
    let r' := Trace.run (Receiver.step s) r (.readTls s.produced.length ::
      List.replicate s.expected.length .nextMessage ++ [.takeReceived])
    r.log = [.handshake [2, 0, 0, 3, 7, 8, 9]] ∧
      r'.failed = false ∧ r'.log = s.expected ∧ r'.taken = List.replicate 70 5 ∧
      s.expected = [.handshake [2, 0, 0, 3, 7, 8, 9], .applicationData 63, .applicationData 7,
        .applicationData 0, .alert ⟨true,.internalError⟩, .alert ⟨false,.closeNotify⟩] := by
  intro sends s r r'
  have hsends : Trace.Along Sender.step Sender.Allows (Sender.start (some 64)) sends :=
    ⟨⟨by decide,by decide,by decide⟩,Aead.inverts_null,⟨rfl,by decide +kernel⟩,
      ⟨rfl,by decide +kernel⟩,trivial,(by decide +kernel : Sender.Room _ _),
      (by decide +kernel : Sender.Room _ _),trivial⟩
  have h := channel_faithful (some 64) (by decide) sends hsends true false
    [.readTls 1, .nextMessage, .readTls 12, .nextMessage, .takeReceived]
  obtain ⟨-,-,-,-,hfailed,hlog,htaken⟩ := h
  exact ⟨by decide +kernel,hfailed,hlog,(htaken rfl rfl).trans (by decide +kernel),by decide +kernel⟩
end PureCrypto.Tls
