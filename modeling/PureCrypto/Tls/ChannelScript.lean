import PureCrypto.Tls.Sealing

/-! # What is still to come -/
namespace PureCrypto.Tls
open List
open ConnectionCore (Fits wireRecord Turn)
/-- A whole handshake message: four bytes of header, and as much body as they say. -/
def WholeMessage : List UInt8 → Prop
  | _ :: a :: b :: d :: body => body.length = (a.toNat <<< 16) ||| (b.toNat <<< 8) ||| d.toNat
  | _ => False

instance : (m : List UInt8) → Decidable (WholeMessage m)
  | _ :: a :: b :: d :: body =>
    inferInstanceAs (Decidable (body.length = (a.toNat <<< 16) ||| (b.toNat <<< 8) ||| d.toNat))
  | [] | [_] | [_, _] | [_, _, _] => isFalse id
namespace ConnectionCore
variable {c : ConnectionCore}
theorem popHandshake_whole (h : WholeMessage c.hsPending) :
    c.popHandshake = some (c.hsPending, { c with hsPending := [] }) := by
  unfold popHandshake
  match hp : c.hsPending with
  | [] | [_] | [_, _] | [_, _, _] =>
    rw [hp] at h
    exact h.elim
  | t :: a :: b :: d :: body =>
    rw [hp,WholeMessage] at h
    simp only [← h]
    rw [if_neg (by omega),take_of_length_le (by simp; omega),drop_of_length_le (by simp; omega)]

theorem popHandshake_part {rest : List UInt8} (h : WholeMessage (c.hsPending ++ rest))
    (hrest : rest ≠ []) : c.popHandshake = none := by
  have hpos := length_pos_iff.mpr hrest
  unfold popHandshake
  match hp : c.hsPending with
  | [] | [_] | [_, _] | [_, _, _] => rfl
  | t :: a :: b :: d :: body =>
    rw [hp] at h
    simp only [cons_append,WholeMessage,length_append] at h
    simp only
    rw [if_pos (by omega)]

theorem popHandshake_nil (h : c.hsPending = []) : c.popHandshake = none := by
  unfold popHandshake
  rw [h]
end ConnectionCore
inductive Item
  /-- A handshake message, by the records it is cut into. -/
  | message (pieces : List (List UInt8))
  | data (content : List UInt8)
  | alert (level code : UInt8)
  | key (k : RecordCrypter)

/-- The key after so many records. -/
def advance : Nat → Option RecordCrypter → Option RecordCrypter
  | 0, key => key
  | n + 1, key => advance n (key.map RecordCrypter.next)

def wireRecords (key : Option RecordCrypter) : List (ContentType × List UInt8) → List UInt8
  | [] => []
  | (ct, content) :: rest => wireRecord key ct content ++ wireRecords (key.map RecordCrypter.next) rest

def AllFit (limit : Option Nat) (key : Option RecordCrypter) : List (List UInt8) → Prop
  | [] => True
  | content :: rest => Fits limit key content ∧ AllFit limit (key.map RecordCrypter.next) rest
namespace Item
def records : Item → List (ContentType × List UInt8)
  | message pieces => pieces.map fun p => (.handshake, p)
  | data content => [(.applicationData, content)]
  | alert level code => [(.alert, [level, code])]
  | key _ => []

def keyAfter (key : Option RecordCrypter) : Item → Option RecordCrypter
  | .key k => some k
  | i => advance i.records.length key

/-- What the receiver gets, when `pending` has come before. -/
def event (pending : List UInt8) : Item → Option Incoming
  | message pieces => some (.handshake (pending ++ pieces.flatten))
  | data content => some (.applicationData content.length)
  | alert level code => some (.alert ⟨level == 2, .fromU8 code⟩)
  | key _ => none

def payload : Item → List UInt8
  | data content => content
  | _ => []

/-- An item that the receiver can take when `pending` has come before. -/
def Ok (limit : Option Nat) (key : Option RecordCrypter) (pending : List UInt8) (i : Item) : Prop :=
  AllFit limit key (i.records.map Prod.snd) ∧
    match i with
    | message pieces => WholeMessage (pending ++ pieces.flatten) ∧
        (pending ++ pieces.flatten).length ≤ maxHandshakeReassembly ∧ ∀ p ∈ pieces, p ≠ []
    | data _ => pending = [] ∧ key.isSome
    | alert _ _ => pending = []
    | .key _ => pending = []
end Item
namespace Script
def wire (key : Option RecordCrypter) : List Item → List UInt8
  | [] => []
  | i :: rest => wireRecords key i.records ++ wire (i.keyAfter key) rest

def Ok (limit : Option Nat) (key : Option RecordCrypter) (pending : List UInt8) : List Item → Prop
  | [] => pending = []
  | i :: rest => i.Ok limit key pending ∧ Ok limit (i.keyAfter key) [] rest
def events (pending : List UInt8) : List Item → List Incoming
  | [] => []
  | i :: rest => (i.event pending).toList ++ events [] rest
def payload (script : List Item) : List UInt8 := script.flatMap Item.payload

/-- The keys, each with the number of messages before it. -/
def keysFrom (n : Nat) : List Item → List (Nat × RecordCrypter)
  | [] => []
  | .key k :: rest => (n, k) :: keysFrom n rest
  | _ :: rest => keysFrom (n + 1) rest

def leading : List Item → List RecordCrypter
  | .key k :: rest => k :: leading rest
  | _ => []

def dropKeys : List Item → List Item
  | .key _ :: rest => dropKeys rest
  | script => script
end Script
structure Awaits (c : ConnectionCore) (script : List Item) (unfed : List UInt8) : Prop where
  ok : Script.Ok c.inboundRecordSizeLimit c.read c.hsPending script
  bytes : c.inbuf.drop c.inOff ++ unfed = Script.wire c.read script

/-- From `c` to `c'` the settings stay, and `content` is delivered to the application. -/
structure Delivers (c c' : ConnectionCore) (content : List UInt8) : Prop where
  limit : c'.inboundRecordSizeLimit = c.inboundRecordSizeLimit
  routing : c'.earlyDataRouting = c.earlyDataRouting
  allowed : c'.appDataAllowed = c.appDataAllowed
  appIn : c.appDataAllowed = true → c.earlyDataRouting = false → c'.appIn = c.appIn ++ content

/-- What one round does to a core that awaits a script. -/
inductive Advance (c : ConnectionCore) (unfed : List UInt8) : List Item → Turn → Prop
  | waiting {script : List Item} (hfed : unfed = [] → script = []) :
      Advance c unfed script (.done (.ok none) c)
  | piece {p : List UInt8} {ps : List (List UInt8)} {rest : List Item} {c' : ConnectionCore}
      (hpending : c'.hsPending = c.hsPending ++ p) (hawaits : Awaits c' (.message ps :: rest) unfed)
      (hless : (c'.inbuf.drop c'.inOff).length < (c.inbuf.drop c.inOff).length)
      (hdelivers : Delivers c c' []) : Advance c unfed (.message (p :: ps) :: rest) (.again c')
  | event {i : Item} {rest : List Item} {e : Incoming} {c' : ConnectionCore}
      (hevent : i.event c.hsPending = some e) (hpending : c'.hsPending = [])
      (hawaits : Awaits c' rest unfed) (hdelivers : Delivers c c' i.payload) :
      Advance c unfed (i :: rest) (.done (.ok (some e)) c')
section Awaits
variable {c : ConnectionCore} {unfed : List UInt8} {rest : List Item}
variable {content p : List UInt8} {ps : List (List UInt8)} {script : List Item}
theorem record_or_wait {key : Option RecordCrypter} {ct : ContentType} {front behind : List UInt8}
    (h : front ++ unfed = wireRecord key ct content ++ behind) :
    (∃ more, front = wireRecord key ct content ++ more ∧ more ++ unfed = behind) ∨
      (unfed ≠ [] ∧ front <+: wireRecord key ct content ∧ front.length < (wireRecord key ct content).length) := by
  by_cases hlen : (wireRecord key ct content).length ≤ front.length
  · left
    obtain ⟨more,rfl⟩ := prefix_of_prefix_length_le
      (prefix_append (wireRecord key ct content) behind) (h ▸ prefix_append front unfed) hlen
    refine ⟨more,rfl,?_⟩
    rw [append_assoc] at h
    exact append_cancel_left h
  · right
    refine ⟨?_,?_,by omega⟩
    · rintro rfl
      have := congrArg List.length h
      simp only [append_nil,length_append] at this
      omega
    · exact prefix_of_prefix_length_le (h ▸ prefix_append front unfed)
        (prefix_append _ _) (by omega)

theorem wireRecord_length_pos (key : Option RecordCrypter) (ct : ContentType) (content : List UInt8) :
    0 < (wireRecord key ct content).length := by
  unfold wireRecord
  split <;> rw [length_frame] <;> omega

theorem advance_piece (h : Awaits c (.message (p :: ps) :: rest) unfed) :
    Advance c unfed (.message (p :: ps) :: rest) c.turn := by
  obtain ⟨⟨⟨⟨hfits,hfit⟩,hwhole,hlen,hne⟩,hrest⟩,hbytes⟩ := h
  rw [flatten_cons] at hwhole hlen
  have hp : p ≠ [] := hne p (by simp)
  have hpop : c.popHandshake = none := by
    apply ConnectionCore.popHandshake_part hwhole
    simp [hp]
  have hadmits : c.Admits .handshake p := ⟨hfits,.inl rfl,fun _ => hp,fun _ => rfl⟩
  let routed : ConnectionCore := { c.opened with hsPending := c.hsPending ++ p }
  have hroute : ∀ off, { c.opened with inOff := off }.dispatchInner .handshake p =
      (.ok none, { routed with inOff := off }) := by
    have hroom : ¬ maxHandshakeReassembly < c.hsPending.length + p.length := by
      simp only [length_append] at hlen
      omega
    simp [ConnectionCore.dispatchInner,ConnectionCore.appendHandshakeBytes,ConnectionCore.opened,hp,hroom,routed]
  simp only [Script.wire,Item.records,map_cons,wireRecords,append_assoc] at hbytes
  rcases record_or_wait hbytes with ⟨more,hfront,hmore⟩ | ⟨hunfed,hpart,hshort⟩
  · obtain ⟨inbuf,inOff,hdrop,hturn⟩ :=
      ConnectionCore.turn_wireRecord hadmits hpop hfront routed rfl hroute
    rw [hturn]
    refine .piece rfl ⟨⟨⟨hfit,?_⟩,hrest⟩,?_⟩ ?_ ⟨rfl,rfl,rfl,fun _ _ => (append_nil _).symm⟩
    · simp only [routed,append_assoc]
      exact ⟨hwhole,hlen,fun q hq => hne q (mem_cons_of_mem _ hq)⟩
    · rw [hdrop,hmore]
      rfl
    · rw [hdrop,hfront,length_append]
      have := wireRecord_length_pos c.read .handshake p
      omega
  · rw [ConnectionCore.turn_wait hadmits hpop hpart hshort]
    exact .waiting fun hnone => absurd hnone hunfed

/-- A complete message is popped before the next record is looked at. -/
theorem advance_message (h : Awaits c (.message [] :: rest) unfed) :
    Advance c unfed (.message [] :: rest) c.turn := by
  obtain ⟨⟨⟨-,hwhole,-,-⟩,hrest⟩,hbytes⟩ := h
  rw [flatten_nil,append_nil] at hwhole
  have hturn : c.turn = .done (.ok (some (.handshake c.hsPending))) { c with hsPending := [] } := by
    unfold ConnectionCore.turn
    rw [ConnectionCore.popHandshake_whole hwhole]
  rw [hturn]
  refine .event ?_ rfl ⟨hrest,hbytes⟩ ⟨rfl,rfl,rfl,fun _ _ => (append_nil _).symm⟩
  simp [Item.event]

theorem advance_record {i : Item} {ct : ContentType} {e : Incoming}
    (hrecords : i.records = [(ct, content)]) (h : Awaits c (i :: rest) unfed)
    (hpending : c.hsPending = []) (htype : ct = .alert ∨ ct = .applicationData ∧ c.read.isSome)
    (hne : ct ≠ .applicationData → content ≠ []) (hevent : i.event [] = some e)
    (hkey : i.keyAfter c.read = c.read.map RecordCrypter.next) (routed : ConnectionCore)
    (hinbuf : routed.inbuf = c.inbuf) (hrouted : routed.hsPending = [])
    (hread : routed.read = c.read.map RecordCrypter.next) (hdelivers : Delivers c routed i.payload)
    (hroute : ∀ off, { c.opened with inOff := off }.dispatchInner ct content = (.ok (some e), { routed with inOff := off })) :
    Advance c unfed (i :: rest) c.turn := by
  obtain ⟨⟨⟨hfit,-⟩,hrest⟩,hbytes⟩ := h
  rw [hrecords] at hfit
  have hadmits : c.Admits ct content :=
    ⟨hfit.1,.inr htype,hne,fun hp => absurd hpending hp⟩
  have hpop := ConnectionCore.popHandshake_nil hpending
  rw [Script.wire,hrecords,hkey,wireRecords,wireRecords,append_nil] at hbytes
  rcases record_or_wait hbytes with ⟨more,hfront,hmore⟩ | ⟨hunfed,hpart,hshort⟩
  · obtain ⟨inbuf,inOff,hdrop,hturn⟩ :=
      ConnectionCore.turn_wireRecord hadmits hpop hfront routed hinbuf hroute
    rw [hturn]
    refine .event (by rw [hpending,hevent]) hrouted ⟨?_,?_⟩
      ⟨hdelivers.limit,hdelivers.routing,hdelivers.allowed,hdelivers.appIn⟩
    · simpa only [hread,hrouted,hdelivers.limit,hkey] using hrest
    · simp [hdrop,hmore,hread]
  · rw [ConnectionCore.turn_wait hadmits hpop hpart hshort]
    exact .waiting fun hnone => absurd hnone hunfed

theorem advance_alert {level code : UInt8} (h : Awaits c (.alert level code :: rest) unfed) :
    Advance c unfed (.alert level code :: rest) c.turn := by
  have hpending : c.hsPending = [] := h.ok.1.2
  refine advance_record rfl h hpending (.inl rfl) (by simp) rfl rfl c.opened rfl hpending rfl
    ⟨rfl,rfl,rfl,fun _ _ => (append_nil _).symm⟩ fun off => ?_
  simp [ConnectionCore.dispatchInner,ConnectionCore.opened,hpending,parseAlert,Except.map]

def stored (c : ConnectionCore) (content : List UInt8) : ConnectionCore :=
  if c.earlyDataRouting then { c with earlyIn := c.earlyIn ++ content }
  else if c.appDataAllowed then { c with appIn := c.appIn ++ content }
  else c

theorem delivers_stored (c : ConnectionCore) (content : List UInt8) :
    Delivers c (stored c.opened content) content := by
  unfold stored
  split_ifs with hrouting hallowed
  · exact ⟨rfl,rfl,rfl,fun _ h => absurd (hrouting.symm.trans h) (by decide)⟩
  · exact ⟨rfl,rfl,rfl,fun _ _ => rfl⟩
  · exact ⟨rfl,rfl,rfl,fun h _ => absurd h hallowed⟩

theorem advance_data (h : Awaits c (.data content :: rest) unfed) :
    Advance c unfed (.data content :: rest) c.turn := by
  obtain ⟨hpending,hkeyed⟩ : c.hsPending = [] ∧ c.read.isSome = true := h.ok.1.2
  have hsame : (stored c.opened content).inbuf = c.inbuf ∧ (stored c.opened content).hsPending = [] ∧
      (stored c.opened content).read = c.read.map RecordCrypter.next := by
    unfold stored
    split_ifs <;> exact ⟨rfl,hpending,rfl⟩
  refine advance_record rfl h hpending (.inr ⟨rfl,hkeyed⟩) (by simp) rfl rfl
    (stored c.opened content) hsame.1 hsame.2.1 hsame.2.2 (delivers_stored c content) fun off => ?_
  have hempty : c.opened.hsPending.isEmpty = true := by
    rw [List.isEmpty_iff]
    exact hpending
  simp only [ConnectionCore.dispatchInner,stored,hempty,Bool.not_true,Bool.false_and,Bool.false_eq_true,if_false]
  split_ifs <;> rfl

theorem Awaits.turn_advance (h : Awaits c script unfed) (hkey : ∀ k rest, script ≠ .key k :: rest) :
    Advance c unfed script c.turn := by
  match script with
  | [] =>
    have hfront : c.inbuf.drop c.inOff = [] := (append_eq_nil_iff.mp h.bytes).1
    have hturn : c.turn = .done (.ok none) c := by
      unfold ConnectionCore.turn
      simp [ConnectionCore.popHandshake_nil h.ok,hfront,readRecord]
    rw [hturn]
    exact .waiting fun _ => rfl
  | .message [] :: rest => exact advance_message h
  | .message (p :: ps) :: rest => exact advance_piece h
  | .alert level code :: rest => exact advance_alert h
  | .data content :: rest => exact advance_data h
  | .key k :: rest => exact absurd rfl (hkey k rest)

/-- What `nextMessage` does to a core that awaits a script. -/
inductive Outcome (c : ConnectionCore) (unfed : List UInt8) (script : List Item) :
    Except Error (Option Incoming) × ConnectionCore → Prop
  | waiting {script' : List Item} {c' : ConnectionCore} (hawaits : Awaits c' script' unfed)
      (hkey : ∀ k rest, script' ≠ .key k :: rest)
      (hevents : Script.events c'.hsPending script' = Script.events c.hsPending script)
      (hkeys : ∀ n, Script.keysFrom n script' = Script.keysFrom n script)
      (hpayload : Script.payload script' = Script.payload script)
      (hfed : unfed = [] → script' = []) (hdelivers : Delivers c c' []) :
      Outcome c unfed script (.ok none, c')
  | event {content : List UInt8} {rest : List Item} {e : Incoming} {c' : ConnectionCore}
      (hevents : Script.events c.hsPending script = e :: Script.events [] rest)
      (hkeys : ∀ n, Script.keysFrom n script = Script.keysFrom (n + 1) rest)
      (hpayload : Script.payload script = content ++ Script.payload rest)
      (hpending : c'.hsPending = []) (hawaits : Awaits c' rest unfed)
      (hdelivers : Delivers c c' content) : Outcome c unfed script (.ok (some e), c')

theorem Delivers.after {c' c'' : ConnectionCore} (h : Delivers c c' [])
    (h' : Delivers c' c'' content) : Delivers c c'' content where
  limit := h'.limit.trans h.limit
  routing := h'.routing.trans h.routing
  allowed := h'.allowed.trans h.allowed
  appIn := fun hallowed hrouting => by
    rw [h'.appIn (h.allowed.trans hallowed) (h.routing.trans hrouting),h.appIn hallowed hrouting,append_nil]

/-- A piece that was taken changes nothing of what is to come. -/
theorem Outcome.of_piece {c' : ConnectionCore} {r : Except Error (Option Incoming) × ConnectionCore}
    (hpending : c'.hsPending = c.hsPending ++ p) (hdelivers : Delivers c c' [])
    (h : Outcome c' unfed (.message ps :: rest) r) : Outcome c unfed (.message (p :: ps) :: rest) r := by
  have hsame : Script.events c'.hsPending (.message ps :: rest) =
      Script.events c.hsPending (.message (p :: ps) :: rest) := by
    simp [Script.events,Item.event,hpending]
  cases h with
  | waiting hawaits hkey hevents hkeys hpayload hfed hdelivers' =>
    exact .waiting hawaits hkey (hevents.trans hsame) hkeys hpayload hfed
      (hdelivers.after hdelivers')
  | event hevents hkeys hpayload hpending' hawaits hdelivers' =>
    exact .event (hsame.symm.trans hevents) hkeys hpayload hpending' hawaits
      (hdelivers.after hdelivers')

theorem Awaits.turns_outcome {fuel : Nat} (h : Awaits c script unfed)
    (hkey : ∀ k rest, script ≠ .key k :: rest) (hfuel : (c.inbuf.drop c.inOff).length < fuel) :
    Outcome c unfed script (ConnectionCore.turns fuel c) := by
  induction fuel generalizing c script with
  | zero => omega
  | succ fuel ih =>
    have hadvance := h.turn_advance hkey
    unfold ConnectionCore.turns
    generalize c.turn = turn at hadvance
    cases hadvance with
    | waiting hfed =>
      exact .waiting h hkey rfl (fun _ => rfl) rfl hfed
        ⟨rfl,rfl,rfl,fun _ _ => (append_nil _).symm⟩
    | piece hpending hawaits hless hdelivers =>
      exact (ih hawaits (by simp) (by omega)).of_piece hpending hdelivers
    | @event i rest e c' hevent hpending hawaits hdelivers =>
      refine .event ?_ ?_ (flatMap_cons ..) hpending hawaits hdelivers
      · rw [Script.events,hevent]
        rfl
      · cases i with
        | key k => exact absurd rfl (hkey k rest)
        | _ => exact fun _ => rfl

theorem Awaits.nextMessage_outcome (h : Awaits c script unfed)
    (hkey : ∀ k rest, script ≠ .key k :: rest) : Outcome c unfed script c.nextMessage := by
  apply h.turns_outcome hkey
  rw [length_drop]
  omega

theorem Awaits.setRead {k : RecordCrypter} (h : Awaits c (.key k :: rest) unfed) :
    c.setRead k = (.ok (), { c with read := some k }) ∧ Awaits { c with read := some k } rest unfed := by
  obtain ⟨⟨⟨-,hpending⟩,hrest⟩,hbytes⟩ := h
  refine ⟨?_,?_,hbytes⟩
  · simp [ConnectionCore.setRead,hpending]
  · rw [hpending]
    exact hrest
namespace Script
variable (script : List Item)
theorem dropKeys_ne_key (k : RecordCrypter) (rest : List Item) : dropKeys script ≠ .key k :: rest := by
  induction script with
  | nil => simp [dropKeys]
  | cons i tail ih =>
    cases i with
    | key k' => exact ih
    | _ => simp [dropKeys]

theorem keysFrom_lt {n : Nat} {script : List Item} (h : ∀ k rest, script ≠ .key k :: rest) :
    ∀ e ∈ keysFrom n script, n < e.1 := by
  have hle : ∀ (m : Nat) (script : List Item), ∀ e ∈ keysFrom m script, m ≤ e.1 := by
    intro m script
    induction script generalizing m with
    | nil => simp [keysFrom]
    | cons i tail ih =>
      cases i with
      | key k =>
        rw [keysFrom,forall_mem_cons]
        exact ⟨le_rfl,ih m⟩
      | _ => exact fun e he => Nat.le_of_succ_le (ih (m + 1) e he)
  match script with
  | [] => simp [keysFrom]
  | .key k :: rest => exact absurd rfl (h k rest)
  | .message _ :: rest => exact hle (n + 1) rest
  | .data _ :: rest => exact hle (n + 1) rest
  | .alert _ _ :: rest => exact hle (n + 1) rest

theorem keysFrom_eq (n : Nat) (script : List Item) :
    keysFrom n script = (leading script).map (fun k => (n, k)) ++ keysFrom n (dropKeys script) := by
  induction script with
  | nil => rfl
  | cons i tail ih =>
    cases i with
    | key k => rw [keysFrom,leading,dropKeys,ih,map_cons,cons_append]
    | _ => rfl

theorem events_dropKeys : events [] (dropKeys script) = events [] script := by
  induction script with
  | nil => rfl
  | cons i tail ih =>
    cases i with
    | key k => exact ih
    | _ => rfl

theorem payload_dropKeys : payload (dropKeys script) = payload script := by
  induction script with
  | nil => rfl
  | cons i tail ih =>
    cases i with
    | key k => exact ih
    | _ => rfl
end Script
end Awaits
end PureCrypto.Tls
