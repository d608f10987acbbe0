import BitcoinNode.Net.Handshake

/-!
# The peer of the new manager

The handshake of `net/new_peer.rs`, and the messages that it reads afterwards.
-/

namespace BitcoinNode

namespace NewPeer

inductive CompactRelay where
  | headers | inv
  deriving DecidableEq, Repr

/-- How blocks are announced to a peer. -/
inductive BlockRelay where
  | compact (witness : Bool) (relay : Option CompactRelay)
  | headers
  | inv
  deriving DecidableEq, Repr

/-- The state of a peer that its own messages write; the rest is in `State` and `Requests`. -/
structure Session where
  version : Option Nat
  services : ServiceFlags
  startHeight : Int32
  relay : Bool
  userAgent : String
  addrRelay : AddrRelay
  txRelay : TxRelay
  blockRelay : BlockRelay
  handshake : Bool
  deriving DecidableEq

/-- `State::default()` -/
def Session.default : Session where
  version := none
  services := 0
  startHeight := 0
  relay := false
  userAgent := ""
  addrRelay := .v1
  txRelay := .txid
  blockRelay := .inv
  handshake := false

inductive Failure where
  | unexpectedHandshakeMessage
  | handshakeMessageAfterHandshake
  | notNewEnough | notFullNode | notSegwitNode
  deriving DecidableEq, Repr

/-- What the task of the peer waits for: the first message of `handshake`, one of its loop, or one
of `run_peer`. It has ended once it returned. -/
inductive Stage where
  | version | verack | running | ended
  deriving DecidableEq, Repr

/-- A peer with its task. -/
structure Connection (M : Type) where
  outbound : Bool
  state : Session
  stage : Stage
  received : List (Message M)
  sent : List (Message M)
  deriving DecidableEq

namespace Connection

variable {M : Type}

def queueMessage (c : Connection M) (message : Message M) : Connection M :=
  { c with sent := c.sent ++ [message] }

def queueVersionMessage (c : Connection M) : Connection M :=
  c.queueMessage (.version (BitcoinNode.Connection.ownVersion 0))

/-- `Peer::new`, and the start of `handshake` -/
def new : Connection M :=
  let c : Connection M := ⟨true, .default, .version, [], []⟩
  if c.outbound then c.queueVersionMessage else c

def handleVersion (c : Connection M) (version : VersionMessage) :
    Connection M × Except Failure Unit :=
  let c := { c with state := { c.state with
    version := some version.version
    services := version.services
    startHeight := version.startHeight
    userAgent := version.userAgent
    relay := version.relay } }
  if version.version < 70001 then (c, .error .notNewEnough)
  else if c.outbound ∧ c.state.services.has .NETWORK = false then (c, .error .notFullNode)
  else if c.outbound ∧ c.state.services.has .WITNESS = false then (c, .error .notSegwitNode)
  else
    let c := if !c.outbound then c.queueVersionMessage else c
    let c := if version.version ≥ WTXID_RELAY_VERSION then c.queueMessage .wtxidRelay else c
    ((c.queueMessage .sendAddrV2).queueMessage .verack, .ok ())

def handleSendAddrV2 (c : Connection M) : Connection M :=
  { c with state := { c.state with addrRelay := .v2 } }

def handleWtxidRelay (c : Connection M) : Connection M :=
  { c with state := { c.state with txRelay := .wtxid } }

def handleVerack (c : Connection M) : Connection M :=
  { c with state := { c.state with handshake := true } }.queueMessage .sendHeaders

/-- One message for `handshake`. -/
def shake (c : Connection M) (message : Message M) : Connection M × Except Failure Unit :=
  match c.stage with
  | .version =>
    match message with
    | .version version =>
      match c.handleVersion version with
      | (c, .ok _) => ({ c with stage := .verack }, .ok ())
      | (c, .error e) => (c, .error e)
    | _ => (c, .error .unexpectedHandshakeMessage)
  | _ =>
    match message with
    | .verack => ({ c.handleVerack with stage := .running }, .ok ())
    | .wtxidRelay =>
      if c.state.version.any (· ≥ WTXID_RELAY_VERSION) then (c.handleWtxidRelay, .ok ())
      else (c, .ok ())
    | .sendAddrV2 => (c.handleSendAddrV2, .ok ())
    | _ => (c, .error .unexpectedHandshakeMessage)

end Connection

/-! ## Block relay -/

def BlockRelay.handleSendHeaders : BlockRelay → BlockRelay
  | .compact witness relay =>
    if relay = some .inv then .compact witness (some .headers) else .compact witness relay
  | .inv => .headers
  | .headers => .headers

def BlockRelay.handleSendCmpct (blockRelay : BlockRelay) (sendCompact : Bool) (version : Nat) :
    BlockRelay :=
  let witness := version == 2
  match blockRelay with
  | .compact witness relay => .compact witness relay
  | .headers => .compact witness (if sendCompact then none else some .headers)
  | .inv => .compact witness (if sendCompact then none else some .inv)

namespace Connection

variable {M : Type}

def handleSendHeaders (c : Connection M) : Connection M :=
  { c with state := { c.state with blockRelay := c.state.blockRelay.handleSendHeaders } }

def handleSendCmpct (c : Connection M) (sendCompact : Bool) (version : Nat) : Connection M :=
  { c with state := { c.state with
    blockRelay := c.state.blockRelay.handleSendCmpct sendCompact version } }

def handleMessage (c : Connection M) : Message M → Connection M × Except Failure Unit
  | .version _ | .verack | .wtxidRelay | .sendAddrV2 =>
    (c, .error .handshakeMessageAfterHandshake)
  | .sendHeaders => (c.handleSendHeaders, .ok ())
  | .ping nonce => (c.queueMessage (.pong nonce), .ok ())
  | .sendCmpct sendCompact version => (c.handleSendCmpct sendCompact version, .ok ())
  | _ => (c, .ok ())

/-- The task goes on with its next message, or ends with an error. -/
def proceed : Connection M × Except Failure Unit → Connection M
  | (c, .ok _) => c
  | (c, .error _) => { c with stage := .ended }

/-- One message for the task, to which the manager has no objection. -/
def read (c : Connection M) (message : Message M) : Connection M :=
  let c := { c with received := c.received ++ [message] }
  match c.stage with
  | .version | .verack => proceed (c.shake message)
  | .running => proceed (c.handleMessage message)
  | .ended => c

/-- The messages of a peer one after the other. -/
def readAll (c : Connection M) (messages : List (Message M)) : Connection M :=
  messages.foldl read c

end Connection

/-! ## What is to hold -/

end NewPeer

namespace Message

variable {M : Type}

/-- The messages that belong before the end of the handshake. -/
def isOpening : Message M → Bool
  | .version _ | .verack | .wtxidRelay | .sendAddrV2 => true
  | _ => false

def isSendHeaders : Message M → Bool
  | .sendHeaders => true
  | _ => false

def compact? : Message M → Option (Bool × Nat)
  | .sendCmpct sendCompact compactVersion => some (sendCompact, compactVersion)
  | _ => none

def pong? : Message M → Option (Message M)
  | .ping nonce => some (.pong nonce)
  | _ => none

end Message

namespace NewPeer

variable {M : Type}

/-- What the first `sendcmpct` and any `sendheaders` ask for, in whatever order they come. -/
def relayOf (messages : List (Message M)) : BlockRelay :=
  let relay := if messages.any Message.isSendHeaders then CompactRelay.headers else .inv
  match messages.findSome? Message.compact? with
  | none => if messages.any Message.isSendHeaders then .headers else .inv
  | some (true, version) => .compact (version == 2) none
  | some (false, version) => .compact (version == 2) (some relay)

/-- What a peer has to send: a version that passes, what it relays, a `verack`, and no message of
the handshake behind it. -/
structure Shape (version : VersionMessage) (relays rest messages : List (Message M)) : Prop where
  eq : messages = .version version :: relays ++ .verack :: rest
  accepts : BitcoinNode.Connection.Accepts true version
  relays : ∀ message ∈ relays, message = .wtxidRelay ∨ message = .sendAddrV2
  rest : ∀ message ∈ rest, message.isOpening = false

/-! ## Block relay -/

/-- What a message does to the way blocks are announced. -/
def BlockRelay.read (blockRelay : BlockRelay) (message : Message M) : BlockRelay :=
  match message with
  | .sendHeaders => blockRelay.handleSendHeaders
  | .sendCmpct sendCompact version => blockRelay.handleSendCmpct sendCompact version
  | _ => blockRelay

def BlockRelay.readAll (blockRelay : BlockRelay) (messages : List (Message M)) : BlockRelay :=
  messages.foldl BlockRelay.read blockRelay

/-- Compact blocks once asked for stay, and so do headers. -/
theorem BlockRelay.readAll_settled {blockRelay : BlockRelay} {witness : Bool}
    (h : blockRelay = .compact witness none ∨ blockRelay = .compact witness (some .headers))
    (messages : List (Message M)) : blockRelay.readAll messages = blockRelay := by
  induction messages with
  | nil => rfl
  | cons message messages ih =>
    have hread : blockRelay.read message = blockRelay := by
      rcases h with rfl | rfl <;> cases message <;> rfl
    rw [readAll, List.foldl_cons, hread]
    exact ih

theorem BlockRelay.readAll_compact (witness : Bool) (messages : List (Message M)) :
    (BlockRelay.compact witness (some .inv)).readAll messages = .compact witness
      (some (if messages.any Message.isSendHeaders then .headers else .inv)) := by
  induction messages with
  | nil => rfl
  | cons message messages ih =>
    rw [readAll, List.foldl_cons]
    cases message with
    | sendHeaders => exact readAll_settled (.inr rfl) messages
    | _ => exact ih

theorem BlockRelay.readAll_headers (messages : List (Message M)) :
    BlockRelay.headers.readAll messages = match messages.findSome? Message.compact? with
      | none => .headers
      | some (true, version) => .compact (version == 2) none
      | some (false, version) => .compact (version == 2) (some .headers) := by
  induction messages with
  | nil => rfl
  | cons message messages ih =>
    rw [readAll, List.foldl_cons]
    cases message with
    | sendCmpct sendCompact version =>
      cases sendCompact with
      | true => exact readAll_settled (.inl rfl) messages
      | false => exact readAll_settled (.inr rfl) messages
    | _ => exact ih

theorem BlockRelay.readAll_inv (messages : List (Message M)) :
    BlockRelay.inv.readAll messages = relayOf messages := by
  induction messages with
  | nil => rfl
  | cons message messages ih =>
    rw [readAll, List.foldl_cons]
    cases message with
    | sendHeaders => exact readAll_headers messages
    | sendCmpct sendCompact version =>
      cases sendCompact with
      | true => exact readAll_settled (.inl rfl) messages
      | false => exact readAll_compact (version == 2) messages
    | _ => exact ih

namespace Connection

variable {c : Connection M} {messages : List (Message M)} {message : Message M}

/-! ## The loops -/

theorem readAll_append (c : Connection M) (messages more : List (Message M)) :
    c.readAll (messages ++ more) = (c.readAll messages).readAll more :=
  List.foldl_append

theorem readAll_ended (h : c.stage = .ended) (messages : List (Message M)) :
    (c.readAll messages).stage = .ended := by
  induction messages generalizing c with
  | nil => exact h
  | cons message messages ih =>
    refine ih ?_
    unfold read
    rw [h]

/-- The loop of `run_peer`, as long as no message of the handshake comes. -/
theorem readAll_running (h : c.stage = .running)
    (hrest : ∀ message ∈ messages, message.isOpening = false) :
    c.readAll messages = { c with
      received := c.received ++ messages
      sent := c.sent ++ messages.filterMap Message.pong?
      state := { c.state with blockRelay := c.state.blockRelay.readAll messages } } := by
  induction messages generalizing c with
  | nil => simp [readAll, BlockRelay.readAll]
  | cons message messages ih =>
    obtain ⟨hmessage, hrest⟩ := List.forall_mem_cons.1 hrest
    have hread : c.read message = { c with
        received := c.received ++ [message]
        sent := c.sent ++ message.pong?.toList
        state := { c.state with blockRelay := c.state.blockRelay.read message } } := by
      unfold read
      rw [h]
      cases message with
      | version | verack | wtxidRelay | sendAddrV2 => cases hmessage
      | ping nonce => rfl
      | _ => simp [proceed, handleMessage, handleSendHeaders, handleSendCmpct, BlockRelay.read,
          Message.pong?]
    rw [readAll, List.foldl_cons, ← readAll, hread, ih (by exact h) hrest]
    cases hpong : message.pong? <;> simp [hpong, BlockRelay.readAll]

theorem opening_of_running (h : c.stage = .running)
    (hrunning : (c.readAll messages).stage = .running) :
    ∀ message ∈ messages, message.isOpening = false := by
  induction messages generalizing c with
  | nil => simp
  | cons message messages ih =>
    rw [readAll, List.foldl_cons, ← readAll] at hrunning
    by_cases hmessage : message.isOpening = true
    · have hended : (c.read message).stage = .ended := by
        unfold read
        rw [h]
        cases message with
        | version | verack | wtxidRelay | sendAddrV2 => rfl
        | _ => cases hmessage
      rw [readAll_ended hended] at hrunning
      cases hrunning
    · have hstage : (c.read message).stage = .running := by
        rw [show c.read message = c.readAll [message] from rfl,
          readAll_running h (by simpa using hmessage)]
        exact h
      exact List.forall_mem_cons.2 ⟨by simpa using hmessage, ih hstage hrunning⟩

/-- The loop of `handshake`, as long as the peer says what it relays. -/
theorem readAll_relays (h : c.stage = .verack) {version : Nat}
    (hversion : c.state.version = some version)
    (hrelays : ∀ message ∈ messages, message = .wtxidRelay ∨ message = .sendAddrV2) :
    ∃ txRelay addrRelay, c.readAll messages = { c with
        received := c.received ++ messages
        state := { c.state with txRelay := txRelay, addrRelay := addrRelay } }
      ∧ (txRelay = .wtxid ↔ c.state.txRelay = .wtxid
        ∨ WTXID_RELAY_VERSION ≤ version ∧ .wtxidRelay ∈ messages)
      ∧ (addrRelay = .v2 ↔ c.state.addrRelay = .v2 ∨ .sendAddrV2 ∈ messages) := by
  induction messages generalizing c with
  | nil => exact ⟨c.state.txRelay, c.state.addrRelay, by simp [readAll], by simp, by simp⟩
  | cons message messages ih =>
    obtain ⟨hmessage, hmore⟩ := List.forall_mem_cons.1 hrelays
    rw [readAll, List.foldl_cons, ← readAll]
    rcases hmessage with rfl | rfl
    · have hread : c.read .wtxidRelay = { c with
          received := c.received ++ [.wtxidRelay]
          state := { c.state with txRelay :=
            if WTXID_RELAY_VERSION ≤ version then .wtxid else c.state.txRelay } } := by
        have hany : c.state.version.any (· ≥ WTXID_RELAY_VERSION)
            = decide (WTXID_RELAY_VERSION ≤ version) := by
          rw [hversion]
          rfl
        unfold read shake
        by_cases hrecent : WTXID_RELAY_VERSION ≤ version
        · simp [h, hany, hrecent, proceed, handleWtxidRelay]
        · simp [h, hany, hrecent, proceed]
      obtain ⟨txRelay, addrRelay, heq, htx, haddr⟩ := ih (c := c.read .wtxidRelay)
        (by rw [hread]; exact h) (by rw [hread]; exact hversion) hmore
      refine ⟨txRelay, addrRelay, by rw [heq, hread]; simp, ?_, ?_⟩
      · rw [htx, hread]
        by_cases hrecent : WTXID_RELAY_VERSION ≤ version <;> simp [hrecent]
      · rw [haddr, hread]
        simp
    · have hread : c.read .sendAddrV2 = { c with
          received := c.received ++ [.sendAddrV2]
          state := { c.state with addrRelay := .v2 } } := by
        unfold read shake
        rw [h]
        rfl
      obtain ⟨txRelay, addrRelay, heq, htx, haddr⟩ := ih (c := c.read .sendAddrV2)
        (by rw [hread]; exact h) (by rw [hread]; exact hversion) hmore
      refine ⟨txRelay, addrRelay, by rw [heq, hread]; simp, ?_, ?_⟩
      · rw [htx, hread]
        simp
      · rw [haddr, hread]
        simp

/-- What the loop of `handshake` reads before it is left. -/
theorem relays_of_running (h : c.stage = .verack)
    (hrunning : (c.readAll messages).stage = .running) :
    ∃ relays rest, messages = relays ++ Message.verack :: rest
      ∧ (∀ message ∈ relays, message = .wtxidRelay ∨ message = .sendAddrV2)
      ∧ ∀ message ∈ rest, message.isOpening = false := by
  induction messages generalizing c with
  | nil =>
    rw [readAll, List.foldl_nil, h] at hrunning
    cases hrunning
  | cons message messages ih =>
    rw [readAll, List.foldl_cons, ← readAll] at hrunning
    have hgoes (hmessage : message = .wtxidRelay ∨ message = .sendAddrV2)
        (hstage : (c.read message).stage = .verack) :
        ∃ relays rest, message :: messages = relays ++ .verack :: rest
          ∧ (∀ message ∈ relays, message = .wtxidRelay ∨ message = .sendAddrV2)
          ∧ ∀ message ∈ rest, message.isOpening = false := by
      obtain ⟨relays, rest, rfl, hrelays, hrest⟩ := ih hstage hrunning
      exact ⟨message :: relays, rest, rfl, List.forall_mem_cons.2 ⟨hmessage, hrelays⟩, hrest⟩
    cases message with
    | verack =>
      have hstage : (c.read .verack).stage = .running := by
        unfold read shake
        rw [h]
        rfl
      exact ⟨[], messages, rfl, by simp, opening_of_running hstage hrunning⟩
    | wtxidRelay =>
      refine hgoes (.inl rfl) ?_
      unfold read shake
      rw [h]
      dsimp only
      split <;> rfl
    | sendAddrV2 =>
      refine hgoes (.inr rfl) ?_
      unfold read shake
      rw [h]
      rfl
    | _ =>
      have hended :=
        (readAll_ended (by unfold read shake; rw [h]; rfl) messages).symm.trans hrunning
      cases hended

theorem handleVersion_outbound (h : c.outbound = true) (version : VersionMessage) :
    (∃ e, (c.handleVersion version).2 = .error e ∧ ¬ BitcoinNode.Connection.Accepts true version)
      ∨ BitcoinNode.Connection.Accepts true version ∧ c.handleVersion version = ({ c with
        state := { c.state with
          version := some version.version
          services := version.services
          startHeight := version.startHeight
          userAgent := version.userAgent
          relay := version.relay }
        sent := c.sent ++ (if version.version ≥ WTXID_RELAY_VERSION then [.wtxidRelay] else [])
          ++ [.sendAddrV2, .verack] }, .ok ()) := by
  unfold handleVersion
  dsimp only
  split
  · rename_i hold
    exact .inl ⟨_, rfl, fun haccepts => absurd haccepts.recent (not_le.2 hold)⟩
  rename_i hrecent
  split
  · rename_i hpruned
    exact .inl ⟨_, rfl, fun haccepts => by simp [haccepts.full rfl] at hpruned⟩
  rename_i hfull
  split
  · rename_i hlegacy
    exact .inl ⟨_, rfl, fun haccepts => by simp [haccepts.segwit rfl] at hlegacy⟩
  rename_i hsegwit
  refine .inr ⟨⟨not_lt.1 hrecent, fun _ => ?_, fun _ => ?_⟩, ?_⟩
  · simpa [h] using hfull
  · simpa [h] using hsegwit
  · by_cases hrelay : version.version ≥ WTXID_RELAY_VERSION
    · simp [h, hrelay, queueMessage]
    · simp [h, hrelay, queueMessage]

/-- The first message of `handshake` is to be a version. -/
theorem read_version_eq (version : VersionMessage) : (new : Connection M).read (.version version)
    = match { (new : Connection M) with received := [.version version] }.handleVersion version with
      | (c, .ok _) => { c with stage := .verack }
      | (c, .error _) => { c with stage := .ended } := by
  have hread : (new : Connection M).read (.version version) = proceed
      (match { (new : Connection M) with received := [.version version] }.handleVersion version with
        | (c, .ok _) => ({ c with stage := .verack }, .ok ())
        | (c, .error e) => (c, .error e)) := rfl
  rw [hread]
  split <;> rfl

theorem read_version {version : VersionMessage}
    (h : BitcoinNode.Connection.Accepts true version) : ∃ state : Session,
      (new : Connection M).read (.version version) = ⟨true, state, .verack, [.version version],
        Message.version (BitcoinNode.Connection.ownVersion 0)
          :: (if version.version ≥ WTXID_RELAY_VERSION then [Message.wtxidRelay] else [])
          ++ [Message.sendAddrV2, .verack]⟩
      ∧ state.version = some version.version ∧ state.txRelay = .txid ∧ state.addrRelay = .v1
      ∧ state.blockRelay = .inv := by
  rw [read_version_eq]
  obtain ⟨e, -, hrefused⟩ | ⟨-, hversion⟩ := handleVersion_outbound
    (c := { (new : Connection M) with received := [.version version] }) rfl version
  · exact absurd h hrefused
  · rw [hversion]
    exact ⟨_, rfl, rfl, rfl, rfl, rfl⟩

theorem read_refused {message : Message M} (h : (new.read message).stage ≠ .ended) :
    ∃ version, message = .version version ∧ BitcoinNode.Connection.Accepts true version := by
  cases message with
  | version version =>
    refine ⟨version, rfl, ?_⟩
    obtain ⟨e, hfails, -⟩ | ⟨haccepts, -⟩ := handleVersion_outbound
      (c := { (new : Connection M) with received := [.version version] }) rfl version
    · rw [read_version_eq] at h
      split at h
      case h_1 heq =>
        rw [heq] at hfails
        cases hfails
      case h_2 => exact absurd rfl h
    · exact haccepts
  | _ => exact absurd rfl h

/-- A connection of which the peer keeps to the shape. -/
theorem spec_of_shape {version : VersionMessage} {relays rest : List (Message M)}
    (h : Shape version relays rest messages) : ∃ state : Session,
      new.readAll messages = ⟨true, state, .running, messages,
        Message.version (BitcoinNode.Connection.ownVersion 0)
          :: (if version.version ≥ WTXID_RELAY_VERSION then [Message.wtxidRelay] else [])
          ++ [Message.sendAddrV2, .verack, .sendHeaders] ++ rest.filterMap Message.pong?⟩
      ∧ state.handshake = true ∧ state.version = some version.version
      ∧ (state.txRelay = .wtxid ↔ WTXID_RELAY_VERSION ≤ version.version ∧ .wtxidRelay ∈ relays)
      ∧ (state.addrRelay = .v2 ↔ .sendAddrV2 ∈ relays) ∧ state.blockRelay = relayOf rest := by
  obtain ⟨rfl, haccepts, hrelays, hrest⟩ := h
  obtain ⟨state, hread, hversion, htx, haddr, hblock⟩ := read_version (M := M) haccepts
  rw [readAll, List.cons_append, List.foldl_cons, ← readAll, hread, readAll_append]
  generalize hstart : (⟨true, state, .verack, [.version version], _⟩ : Connection M) = c
  obtain ⟨txRelay, addrRelay, heq, htx', haddr'⟩ := readAll_relays (c := c)
    (by rw [← hstart]) (by rw [← hstart]; exact hversion) hrelays
  have hverack : (c.readAll relays).read .verack = { c with
      received := c.received ++ relays ++ [.verack]
      sent := c.sent ++ [.sendHeaders]
      stage := .running
      state := { c.state with
        txRelay := txRelay, addrRelay := addrRelay, handshake := true } } := by
    rw [heq, ← hstart]
    rfl
  rw [readAll, List.foldl_cons, ← readAll, hverack, readAll_running rfl hrest, ← hstart]
  refine ⟨{ state with
    txRelay := txRelay
    addrRelay := addrRelay
    handshake := true
    blockRelay := state.blockRelay.readAll rest }, ?_, rfl, hversion, ?_, ?_, ?_⟩
  · simp
  · rw [htx', ← hstart]
    simp [htx]
  · rw [haddr', ← hstart]
    simp [haddr]
  · dsimp only
    rw [hblock, BlockRelay.readAll_inv]

end Connection

end NewPeer

end BitcoinNode
