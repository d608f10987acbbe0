import BitcoinNode.Library.System
import BitcoinNode.Net.BloomFilter
import BitcoinNode.Net.PeerRequests

/-!
# The handshake

What the connection reader of `net/peer.rs` does with the messages of a peer before they come to
the peer manager.
-/

namespace BitcoinNode

/-! ## Service flags -/

abbrev ServiceFlags : Type := UInt64

namespace ServiceFlags

def NETWORK : ServiceFlags := 1
def BLOOM : ServiceFlags := 4
def WITNESS : ServiceFlags := 8
def COMPACT_FILTERS : ServiceFlags := 64
def NETWORK_LIMITED : ServiceFlags := 1024

def has (services flags : ServiceFlags) : Bool := services ||| flags == services

end ServiceFlags

def WTXID_RELAY_VERSION : Nat := 70016

/-- What is read of a version message. -/
structure VersionMessage where
  version : Nat
  services : ServiceFlags
  startHeight : Int32
  userAgent : String
  relay : Bool
  deriving DecidableEq

/-- The messages that the peer reads itself; `other` are those that only its manager reads. -/
inductive Message (M : Type) where
  | version (version : VersionMessage)
  | verack
  | wtxidRelay
  | sendHeaders
  | ping (nonce : Nat)
  | pong (nonce : Nat)
  | feeFilter (rate : Int64)
  | filterLoad (filter : FilterLoad)
  | filterAdd (data : List UInt8)
  | filterClear
  | sendCmpct (sendCompact : Bool) (version : Nat)
  | sendAddrV2
  | other (payload : M)
  deriving DecidableEq

def Message.isHandshake {M : Type} : Message M → Bool
  | .version _ | .verack | .wtxidRelay => true
  | _ => false

inductive AddrRelay where
  | v1 | v2
  deriving DecidableEq, Repr

namespace Peer

/-- The state of a peer. -/
structure Session extends Peer.State, Peer.Requests where
  version : Option Nat
  services : ServiceFlags
  startHeight : Int32
  relay : Bool
  userAgent : String
  preferHeaders : Bool
  spvFilter : Option BloomFilter
  feeRate : Nat
  compactWitness : Bool
  addrRelay : AddrRelay
  pingNonceSent : Option Nat

def Session.new : Session where
  toState := .new
  toRequests := .new
  version := none
  services := 0
  startHeight := 0
  relay := false
  userAgent := ""
  preferHeaders := false
  spvFilter := none
  feeRate := 0
  compactWitness := false
  addrRelay := .v1
  pingNonceSent := none

/-- How the handling of a message stops early. -/
inductive Failure where
  | notNewEnough | notFullNode | notSegwitNode | misplacedWtxidRelay | beforeHandshake
  | filterNotWithinConstraints | filterTooBig | sendFailed
  /-- The manager returns an error. -/
  | manager
  | panic (p : Panic)
  deriving DecidableEq

/-- A panic ends the thread of the reader and leaves the connection as it is. -/
def Failure.isPanic : Failure → Bool
  | .panic _ => true
  | _ => false

abbrev Handled : Type := Except Failure Unit

/-- What the manager and other threads write to the state of a peer. -/
structure Foreign where
  invFilter : Finset BlockHash
  blockMap : Finset BlockHash
  bestHash : Option BlockHash
  bestHeight : Option Nat
  connected : Bool
  txMap : Finset GenericTxid
  compactBlocks : FMap BlockHash CompactBlock
  disconnect : Bool
  pingNonceSent : Option Nat

def Session.write (state : Session) (o : Foreign) : Session :=
  { state with
    invFilter := o.invFilter
    blockMap := o.blockMap
    bestHash := o.bestHash
    bestHeight := o.bestHeight
    connected := o.connected
    txMap := o.txMap
    compactBlocks := o.compactBlocks
    disconnect := o.disconnect
    pingNonceSent := o.pingNonceSent }

/-- What `PeerManager::handle_message` does to the peer, and how it ends. -/
structure Managed extends Foreign where
  result : Handled

end Peer

open Peer (Session Failure Handled Foreign Managed)

/-- A peer with its connection. `reading` says that the thread of the reader runs and `dropped` that
the connection was shut down; `received`, `passed` and `sent` are what came in, what was handed to
the manager with the `ack` of that moment, and what went out. -/
structure Connection (M : Type) where
  outbound : Bool
  state : Session
  reading : Bool
  dropped : Bool
  received : List (Message M)
  passed : List (Message M × Bool)
  sent : List (Message M)

namespace Connection

variable {M : Type}

def new (outbound : Bool) : Connection M := ⟨outbound, .new, true, false, [], [], []⟩

/-- Sends messages until one fails. -/
def send : List (Message M) → Connection M → Connection M × Handled
  | [], c => (c, .ok ())
  | message :: messages, c =>
    if c.state.connected then send messages { c with sent := c.sent ++ [message] }
    else (c, .error .sendFailed)

/-- Our own version message; `height` is that of the chain. -/
def ownVersion (height : Nat) : VersionMessage where
  version := 70016
  services := ServiceFlags.WITNESS ||| ServiceFlags.BLOOM ||| ServiceFlags.NETWORK
    ||| ServiceFlags.COMPACT_FILTERS ||| ServiceFlags.NETWORK_LIMITED
  startHeight := Int32.ofNat height
  userAgent := "/rust_bitcoin_node:0.1.0/"
  relay := true

def handleVersion (height : Nat) (c : Connection M) (version : VersionMessage) :
    Connection M × Handled :=
  let c := { c with state := { c.state with
    version := some version.version
    services := version.services
    startHeight := version.startHeight
    userAgent := version.userAgent
    relay := version.relay } }
  if version.version < 70001 then (c, .error .notNewEnough)
  else if c.outbound ∧ c.state.services.has .NETWORK = false then (c, .error .notFullNode)
  else if c.outbound ∧ c.state.services.has .WITNESS = false then (c, .error .notSegwitNode)
  else
    let greeting := if c.outbound then [] else [Message.version (ownVersion height)]
    let relay := if version.version ≥ WTXID_RELAY_VERSION then [Message.wtxidRelay] else []
    c.send (greeting ++ relay ++ [.verack, .sendAddrV2])

def handleVerack (c : Connection M) : Connection M :=
  if c.state.ack then c else { c with state := { c.state with ack := true } }

def handleWtxidRelay (c : Connection M) : Connection M × Handled :=
  if c.state.version.isNone ∨ c.state.ack then (c, .error .misplacedWtxidRelay)
  else ({ c with state := { c.state with txRelay := .wtxid } }, .ok ())

end Connection

namespace Peer.Session

/-! ## Messages after the handshake -/

def handleSendHeaders (state : Session) : Session := { state with preferHeaders := true }

def handlePong (state : Session) (nonce : Nat) : Session :=
  if state.pingNonceSent = some nonce then { state with pingNonceSent := none } else state

def handleFeeFilter (state : Session) (rate : Int64) : Session :=
  if rate ≥ 0 ∧ rate.toInt.toNat ≤ MAX_MONEY ∧ state.relay then
    { state with feeRate := rate.toInt.toNat }
  else state

def handleFilterLoad (state : Session) (filter : BloomFilter) : Except Failure Session :=
  if filter.isWithinSizeConstraints then
    .ok { state with spvFilter := some filter, relay := true }
  else .error .filterNotWithinConstraints

def handleFilterAdd (lib : Bip37) (state : Session) (data : List UInt8) : Except Failure Session :=
  if data.length > MAX_SCRIPT_PUSH then .error .filterTooBig
  else
    match state.spvFilter with
    | none => .ok { state with relay := true }
    | some filter =>
      match filter.insert lib data with
      | .error p => .error (.panic p)
      | .ok filter => .ok { state with spvFilter := some filter, relay := true }

def handleFilterClear (state : Session) : Session :=
  { state with spvFilter := none, relay := true }

def handleSendCmpct (state : Session) (sendCompact : Bool) (version : Nat) : Session :=
  if state.sendCompact.isSome then state
  else { state with sendCompact := some sendCompact, compactWitness := version == 2 }

end Peer.Session

namespace Connection

variable {M : Type}

/-- A message that only writes the state. -/
def update (c : Connection M) : Except Failure Session → Connection M × Handled
  | .ok state => ({ c with state := state }, .ok ())
  | .error e => (c, .error e)

/-- The messages that are read once the handshake is complete. -/
def handleFurther (lib : Bip37) (c : Connection M) : Message M → Connection M × Handled
  | .sendHeaders => c.update (.ok c.state.handleSendHeaders)
  | .ping nonce => c.send [.pong nonce]
  | .pong nonce => c.update (.ok (c.state.handlePong nonce))
  | .feeFilter rate => c.update (.ok (c.state.handleFeeFilter rate))
  | .filterLoad filter => c.update (c.state.handleFilterLoad (.ofFilterLoad filter))
  | .filterAdd data => c.update (c.state.handleFilterAdd lib data)
  | .filterClear => c.update (.ok c.state.handleFilterClear)
  | .sendCmpct sendCompact version => c.update (.ok (c.state.handleSendCmpct sendCompact version))
  | .sendAddrV2 => c.update (.ok { c.state with addrRelay := .v2 })
  | _ => (c, .ok ())

/-- The part of `handle_message` before the manager. -/
def handlePart (lib : Bip37) (height : Nat) (c : Connection M) (message : Message M) :
    Connection M × Handled :=
  match message with
  | .version version => c.handleVersion height version
  | .verack => (c.handleVerack, .ok ())
  | .wtxidRelay => c.handleWtxidRelay
  | message => if !c.state.ack then (c, .error .beforeHandshake) else c.handleFurther lib message

/-- The manager handles the message. -/
def manage (c : Connection M) (message : Message M) (managed : Managed) : Connection M × Handled :=
  ({ c with
    passed := c.passed ++ [(message, c.state.ack)]
    state := c.state.write managed.toForeign }, managed.result)

def handleMessage (lib : Bip37) (height : Nat) (c : Connection M) (message : Message M)
    (managed : Managed) : Connection M × Handled :=
  match c.handlePart lib height message with
  | (c, .error e) => (c, .error e)
  | (c, .ok _) => c.manage message managed

/-- The end of `run` of the reader. -/
def drop (c : Connection M) : Connection M :=
  { c with state := { c.state with disconnect := true }, reading := false, dropped := true }

/-- What the reader does after a message: it ends on an error, when the peer is to be disconnected,
and without doing anything else when its thread panics. -/
def proceed (c : Connection M) : Handled → Connection M
  | .ok _ => if c.state.disconnect then c.drop else c
  | .error e => if e.isPanic then { c with reading := false } else c.drop

/-- One round of the loop of the reader. -/
def read (lib : Bip37) (height : Nat) (c : Connection M) (message : Message M)
    (managed : Managed) : Connection M :=
  let (c, result) :=
    { c with received := c.received ++ [message] }.handleMessage lib height message managed
  c.proceed result

/-- A message, what other threads write, or the end of the stream. -/
inductive Event (M : Type) where
  | message (message : Message M) (height : Nat) (managed : Managed)
  | foreign (o : Foreign)
  | closed

inductive Step (lib : Bip37) (c : Connection M) : Event M → Connection M → Prop where
  | message {message : Message M} {height : Nat} {managed : Managed} : c.reading = true →
      Step lib c (.message message height managed) (c.read lib height message managed)
  | foreign {o : Foreign} : Step lib c (.foreign o) { c with state := c.state.write o }
  | closed : c.reading = true → Step lib c .closed c.drop

/-! ## What is to hold -/

/-- `handle_version` lets the version pass. -/
structure Accepts (outbound : Bool) (v : VersionMessage) : Prop where
  recent : 70001 ≤ v.version
  full : outbound = true → v.services.has .NETWORK = true
  segwit : outbound = true → v.services.has .WITNESS = true

/-- A version that passes came, behind it `wtxidrelay`, and no `verack` before that. -/
def Relayed (c : Connection M) : Prop :=
  ∃ before v between after,
    c.received = before ++ .version v :: between ++ .wtxidRelay :: after
      ∧ Accepts c.outbound v ∧ .verack ∉ before ++ .version v :: between

/-- No traffic before the handshake. -/
structure Shaken (c : Connection M) : Prop where
  accepted : c.state.ack = true → ∃ v, .version v ∈ c.received ∧ Accepts c.outbound v
  relayed : c.state.txRelay = .wtxid → c.Relayed
  passed {message : Message M} {ack : Bool} : (message, ack) ∈ c.passed →
    message.isHandshake = false → ack = true

/-! ## One message -/

variable {c c' : Connection M} {lib : Bip37} {height : Nat} {message : Message M}
  {managed : Managed} {r : Handled}

/-- What a message does to the flags of the handshake, unless the connection is dropped. -/
structure Reads (message : Message M) (c c' : Connection M) : Prop where
  outbound : c'.outbound = c.outbound
  received : c'.received = c.received
  passed : c'.passed = c.passed
  dropped : c'.dropped = c.dropped
  version : c'.state.version.isSome = true
    ↔ c.state.version.isSome = true ∨ ∃ v, message = .version v
  ack : c'.state.ack = true ↔ c.state.ack = true ∨ message = .verack
  txRelay : c'.state.txRelay = c.state.txRelay
    ∨ message = .wtxidRelay ∧ c.state.version.isSome = true ∧ c.state.ack = false
  accepts {v : VersionMessage} : message = .version v → Accepts c.outbound v
  further : message.isHandshake = false → c.state.ack = true

/-- The connection with more messages sent. -/
theorem send_eq (messages : List (Message M)) (c : Connection M) :
    ∃ sent, (c.send messages).1 = { c with sent := sent } := by
  fun_induction send with
  | case1 c => exact ⟨c.sent, rfl⟩
  | case2 _ _ c _ ih => exact ih
  | case3 _ _ c _ => exact ⟨c.sent, rfl⟩

theorem send_fails {messages : List (Message M)} {e : Failure}
    (h : (c.send messages).2 = .error e) : e.isPanic = false := by
  fun_induction send with
  | case1 c => cases h
  | case2 _ _ c _ ih => exact ih h
  | case3 _ _ c _ =>
    cases h
    rfl

theorem handleVersion_reads {v : VersionMessage} (h : c.handleVersion height v = (c', .ok ())) :
    Reads (.version v) c c' := by
  unfold handleVersion at h
  dsimp only at h
  split at h
  · cases h
  split at h
  · cases h
  split at h
  · cases h
  rename_i hrecent hfull hsegwit
  obtain ⟨sent, rfl⟩ : ∃ sent, c' = { c with
      sent := sent
      state := { c.state with
        version := some v.version
        services := v.services
        startHeight := v.startHeight
        userAgent := v.userAgent
        relay := v.relay } } := by
    obtain rfl : _ = c' := congrArg Prod.fst h
    exact send_eq _ _
  refine ⟨rfl, rfl, rfl, rfl, by simp, by simp, .inl rfl, ?_, nofun⟩
  rintro _ ⟨⟩
  exact ⟨not_lt.1 hrecent, fun hout => by simpa [hout] using hfull,
    fun hout => by simpa [hout] using hsegwit⟩

theorem handleVersion_fails {v : VersionMessage} {e : Failure}
    (h : c.handleVersion height v = (c', .error e)) : e.isPanic = false := by
  unfold handleVersion at h
  dsimp only at h
  split at h
  · cases h
    rfl
  split at h
  · cases h
    rfl
  split at h
  · cases h
    rfl
  · exact send_fails (congrArg Prod.snd h)

theorem handleVerack_reads : Reads .verack c c.handleVerack := by
  unfold handleVerack
  split
  · rename_i hack
    exact ⟨rfl, rfl, rfl, rfl, by simp, by simp [hack], .inl rfl, nofun, nofun⟩
  · exact ⟨rfl, rfl, rfl, rfl, by simp, by simp, .inl rfl, nofun, nofun⟩

theorem handleWtxidRelay_reads (h : c.handleWtxidRelay = (c', .ok ())) :
    Reads .wtxidRelay c c' := by
  unfold handleWtxidRelay at h
  split at h
  · cases h
  · rename_i hplace
    cases h
    refine ⟨rfl, rfl, rfl, rfl, by simp, by simp, .inr ⟨rfl, ?_⟩, nofun, nofun⟩
    simpa [Option.isSome_iff_ne_none] using hplace

/-- A message that is read once the handshake is complete writes none of its flags. -/
theorem reads_of_same {state : Session} {sent : List (Message M)} (hack : c.state.ack = true)
    (hmessage : message.isHandshake = false) (hversion : state.version = c.state.version)
    (hsame : state.ack = c.state.ack) (hrelay : state.txRelay = c.state.txRelay) :
    Reads message c { c with state := state, sent := sent } := by
  refine ⟨rfl, rfl, rfl, rfl, ?_, ?_, .inl hrelay, ?_, fun _ => hack⟩
  · rw [hversion]
    refine (or_iff_left ?_).symm
    rintro ⟨v, rfl⟩
    cases hmessage
  · simp [hsame, hack]
  · rintro v rfl
    cases hmessage

theorem handleFurther_reads (lib : Bip37) (hack : c.state.ack = true)
    (hmessage : message.isHandshake = false) :
    Reads message c (c.handleFurther lib message).1 := by
  have hsame := @reads_of_same M c message
  have hnone : Reads message c c := hsame hack hmessage rfl rfl rfl
  cases message with
  | version | verack | wtxidRelay => cases hmessage
  | other => exact hnone
  | sendHeaders | filterClear | sendAddrV2 => exact hsame hack hmessage rfl rfl rfl
  | ping nonce =>
    obtain ⟨sent, hsent⟩ := send_eq [.pong nonce] c
    rw [handleFurther, hsent]
    exact hsame hack hmessage rfl rfl rfl
  | pong nonce =>
    refine hsame hack hmessage ?_ ?_ ?_ <;> (unfold Session.handlePong; split <;> rfl)
  | feeFilter rate =>
    refine hsame hack hmessage ?_ ?_ ?_ <;> (unfold Session.handleFeeFilter; split <;> rfl)
  | sendCmpct sendCompact version =>
    refine hsame hack hmessage ?_ ?_ ?_ <;> (unfold Session.handleSendCmpct; split <;> rfl)
  | filterLoad filter =>
    rw [handleFurther, Session.handleFilterLoad]
    split
    · exact hsame hack hmessage rfl rfl rfl
    · exact hnone
  | filterAdd data =>
    rw [handleFurther, Session.handleFilterAdd]
    split
    · exact hnone
    split
    · exact hsame hack hmessage rfl rfl rfl
    split
    · exact hnone
    · exact hsame hack hmessage rfl rfl rfl

/-- The part before the manager, when it is not an error that drops the connection. -/
theorem handlePart_reads (h : c.handlePart lib height message = (c', r))
    (hr : ∀ e, r = .error e → e.isPanic = true) : Reads message c c' := by
  cases message with
  | version v =>
    cases r with
    | error e => exact absurd (hr e rfl) (by simp [handleVersion_fails h])
    | ok _ => exact handleVersion_reads h
  | verack =>
    cases h
    exact handleVerack_reads
  | wtxidRelay =>
    cases r with
    | error e =>
      have hpanic := hr e rfl
      rw [handlePart, handleWtxidRelay] at h
      split at h <;> cases h
      cases hpanic
    | ok _ => exact handleWtxidRelay_reads h
  | _ =>
    by_cases hack : c.state.ack = true
    · simp only [handlePart, hack, Bool.not_true, Bool.false_eq_true, if_false] at h
      obtain rfl := (congrArg Prod.fst h).symm
      exact handleFurther_reads lib hack rfl
    · simp only [handlePart, hack, Bool.not_false, if_true] at h
      obtain rfl := congrArg Prod.snd h
      cases hr _ rfl

/-! ## One step -/

/-- What a message leaves behind that does not drop the connection. -/
structure Took (message : Message M) (c c' : Connection M) : Prop where
  outbound : c'.outbound = c.outbound
  received : c'.received = c.received ++ [message]
  version : c'.state.version.isSome = true
    ↔ c.state.version.isSome = true ∨ ∃ v, message = .version v
  ack : c'.state.ack = true ↔ c.state.ack = true ∨ message = .verack
  txRelay : c'.state.txRelay = c.state.txRelay
    ∨ message = .wtxidRelay ∧ c.state.version.isSome = true ∧ c.state.ack = false
  accepts {v : VersionMessage} : message = .version v → Accepts c.outbound v
  passed {message' : Message M} {ack : Bool} : (message', ack) ∈ c'.passed →
    (message', ack) ∈ c.passed ∨ message' = message ∧ (message.isHandshake = false → ack = true)

theorem Reads.took {mid : Connection M}
    (h : Reads message { c with received := c.received ++ [message] } mid)
    (hout : c'.outbound = mid.outbound) (hreceived : c'.received = mid.received)
    (hversion : c'.state.version = mid.state.version) (hack : c'.state.ack = mid.state.ack)
    (hrelay : c'.state.txRelay = mid.state.txRelay)
    (hpassed : c'.passed = mid.passed ∨ c'.passed = mid.passed ++ [(message, mid.state.ack)]) :
    Took message c c' := by
  refine ⟨hout.trans h.outbound, hreceived.trans h.received, hversion ▸ h.version, hack ▸ h.ack,
    hrelay ▸ h.txRelay, h.accepts, fun {m a} hmem => ?_⟩
  rw [h.passed] at hpassed
  rcases hpassed with hpassed | hpassed <;> rw [hpassed] at hmem
  · exact .inl hmem
  · rcases List.mem_append.1 hmem with hmem | hmem
    · exact .inl hmem
    · obtain ⟨rfl, rfl⟩ := Prod.mk.inj (List.mem_singleton.1 hmem)
      exact .inr ⟨rfl, fun hfurther => h.ack.2 (.inl (h.further hfurther))⟩

/-- The reader goes on with the same state, or its thread is gone. -/
theorem proceed_open (h : (c.proceed r).dropped = false) :
    (∀ e, r = .error e → e.isPanic = true)
    ∧ ∃ reading, c.proceed r = { c with reading := reading } := by
  cases r with
  | error e =>
    by_cases hpanic : e.isPanic = true
    · refine ⟨fun _ heq => by cases heq; exact hpanic, false, ?_⟩
      rw [proceed, if_pos hpanic]
    · simp [proceed, hpanic, drop] at h
  | ok _ =>
    by_cases hgone : c.state.disconnect = true
    · simp [proceed, hgone, drop] at h
    · refine ⟨nofun, c.reading, ?_⟩
      rw [proceed, if_neg hgone]

theorem read_took (h : (c.read lib height message managed).dropped = false) :
    Took message c (c.read lib height message managed) := by
  obtain ⟨⟨mid, r⟩, hpart⟩ : ∃ x, ({ c with received := c.received ++ [message] } :
    Connection M).handlePart lib height message = x := ⟨_, rfl⟩
  simp only [read, handleMessage, hpart] at h ⊢
  cases r with
  | error e =>
    obtain ⟨hpanic, reading, heq⟩ := proceed_open h
    have hreads := handlePart_reads hpart hpanic
    rw [heq]
    exact hreads.took rfl rfl rfl rfl rfl (.inl rfl)
  | ok _ =>
    obtain ⟨-, reading, heq⟩ := proceed_open h
    have hreads := handlePart_reads hpart nofun
    rw [heq]
    exact hreads.took rfl rfl rfl rfl rfl (.inr rfl)

/-- The manager ends the connection when it is done with a message. -/
def Drops (managed : Managed) : Prop :=
  (managed.result = .ok () ∧ managed.disconnect = true)
    ∨ ∃ e, managed.result = .error e ∧ e.isPanic = false

theorem handleVerack_dropped : c.handleVerack.dropped = c.dropped := by
  unfold handleVerack
  split <;> rfl

theorem read_verack (h : c.dropped = false) :
    (c.read lib height .verack managed).dropped = false ↔ ¬ Drops managed := by
  have hread : c.read lib height .verack managed
      = (({ c with received := c.received ++ [.verack] } : Connection M).handleVerack.manage .verack
          managed).1.proceed managed.result := rfl
  rw [hread, Drops]
  cases hresult : managed.result with
  | error e => by_cases hpanic : e.isPanic = true <;>
      simp [proceed, hpanic, drop, manage, handleVerack_dropped, h]
  | ok _ => by_cases hgone : managed.disconnect = true <;>
      simp [proceed, hgone, drop, manage, handleVerack_dropped, Session.write, h]

/-! ## Runs -/

/-- What every state before the end of the connection has. -/
structure Sound (c : Connection M) : Prop where
  version : c.state.version.isSome = true ↔ ∃ v, .version v ∈ c.received
  accepts {v : VersionMessage} : .version v ∈ c.received → Accepts c.outbound v
  ack : c.state.ack = true ↔ .verack ∈ c.received
  relayed : c.state.txRelay = .wtxid → c.Relayed
  passed {message : Message M} {ack : Bool} : (message, ack) ∈ c.passed →
    message.isHandshake = false → ack = true

theorem Sound.took (inv : c.Sound) (h : Took message c c') : c'.Sound := by
  have hmem {message' : Message M} : message' ∈ c'.received ↔ message' ∈ c.received
      ∨ message' = message := by
    rw [h.received, List.mem_append, List.mem_singleton]
  refine ⟨?_, fun {v} hv => ?_, ?_, fun hrelay => ?_, fun {m a} hpassed hfurther => ?_⟩
  · rw [h.version, inv.version]
    simp only [hmem, exists_or, eq_comm]
  · rw [h.outbound]
    exact (hmem.1 hv).elim inv.accepts fun heq => h.accepts heq.symm
  · rw [h.ack, inv.ack, hmem, eq_comm]
  · rw [Relayed, h.received, h.outbound]
    rcases h.txRelay with hsame | ⟨rfl, hversion, hack⟩
    · obtain ⟨before, v, between, after, hsplit, haccepts, hnone⟩ := inv.relayed (hsame ▸ hrelay)
      exact ⟨before, v, between, after ++ [message], by simp [hsplit], haccepts, hnone⟩
    · obtain ⟨v, hv⟩ := inv.version.1 hversion
      obtain ⟨before, between, hsplit⟩ := List.append_of_mem hv
      refine ⟨before, v, between, [], by rw [hsplit], inv.accepts hv, ?_⟩
      rw [← hsplit, ← inv.ack, hack]
      decide
  · obtain hold | ⟨rfl, hack⟩ := h.passed hpassed
    · exact inv.passed hold hfurther
    · exact hack hfurther

/-- What every state of a run has. -/
structure Running (c : Connection M) : Prop where
  reading : c.reading = true → c.dropped = false
  sound : c.dropped = false → c.Sound

theorem Running.new (outbound : Bool) : (new outbound : Connection M).Running where
  reading _ := rfl
  sound _ := ⟨by simp [Connection.new, Session.new],
    nofun, by simp [Connection.new, Session.new, Peer.State.new], nofun, nofun⟩

theorem read_reading (h : (c.read lib height message managed).reading = true) :
    (c.read lib height message managed).dropped = c.dropped := by
  have hproceed {c : Connection M} {r : Handled} (h : (c.proceed r).reading = true) :
      r = .ok () ∧ (c.proceed r).dropped = c.dropped := by
    unfold proceed at h ⊢
    split at h
    · by_cases hgone : c.state.disconnect = true <;> simp_all [drop]
    · split at h <;> cases h
  obtain ⟨⟨mid, r⟩, hpart⟩ : ∃ x, ({ c with received := c.received ++ [message] } :
    Connection M).handlePart lib height message = x := ⟨_, rfl⟩
  simp only [read, handleMessage, hpart] at h ⊢
  cases r with
  | error e => cases (hproceed h).1
  | ok _ => exact (hproceed h).2.trans (handlePart_reads hpart nofun).dropped

theorem Running.step {e : Event M} (inv : c.Running) (h : Step lib c e c') : c'.Running := by
  cases h with
  | message hreading =>
    exact ⟨fun hreads => (read_reading hreads).trans (inv.reading hreading), fun hopen =>
      (inv.sound (inv.reading hreading)).took (read_took hopen)⟩
  | foreign =>
    refine ⟨inv.reading, fun hopen => ?_⟩
    have sound := inv.sound hopen
    exact ⟨sound.version, sound.accepts, sound.ack, sound.relayed, sound.passed⟩
  | closed => exact ⟨nofun, nofun⟩

/-- A `verack` comes after a version, unless the connection ends with it. -/
def Ordered (c : Connection M) (e : Event M) : Prop :=
  ∀ height managed, e = .message .verack height managed → ¬ Drops managed →
    c.state.version.isSome = true

/-- The states before the connection is dropped. -/
def Guarded (c : Connection M) : Prop := c.dropped = false → c.Shaken

theorem Sound.shaken (inv : c.Sound) (h : c.state.ack = true → ∃ v, .version v ∈ c.received) :
    c.Shaken where
  accepted hack := by
    obtain ⟨v, hv⟩ := h hack
    exact ⟨v, hv, inv.accepts hv⟩
  relayed := inv.relayed
  passed := inv.passed

theorem guarded_step_iff {e : Event M} (h : Step lib c e c') (inv : c.Running)
    (hguarded : c.Guarded) : c'.Guarded ↔ c.Ordered e := by
  have inv' := inv.step h
  cases h with
  | foreign =>
    refine iff_of_true (fun hopen => ?_) fun _ _ hmessage => by cases hmessage
    exact (inv'.sound hopen).shaken fun hack =>
      ((hguarded hopen).accepted hack).imp fun _ => And.left
  | closed => exact iff_of_true (fun hopen => by cases hopen) fun _ _ hmessage => by cases hmessage
  | @message message height managed hreading =>
    have hopen := inv.reading hreading
    have hshaken := hguarded hopen
    constructor
    · rintro hguarded' height managed ⟨⟩ hkeeps
      have hopen' : (c.read lib height .verack managed).dropped = false :=
        (read_verack hopen).2 hkeeps
      have htook := read_took hopen'
      obtain ⟨v, hv, -⟩ := (hguarded' hopen').accepted (htook.ack.2 (.inr rfl))
      rw [htook.received, List.mem_append] at hv
      exact (inv.sound hopen).version.2 ⟨v, hv.resolve_right (by simp)⟩
    · intro hordered hopen'
      have htook := read_took hopen'
      refine (inv'.sound hopen').shaken fun hack => ?_
      have hversion : c.state.version.isSome = true := by
        rcases htook.ack.1 hack with hack | rfl
        · obtain ⟨v, hv, -⟩ := hshaken.accepted hack
          exact (inv.sound hopen).version.2 ⟨v, hv⟩
        · exact hordered height managed rfl ((read_verack hopen).1 hopen')
      exact (inv'.sound hopen').version.1 (htook.version.2 (.inl hversion))

/-- Whatever a peer sends, and in whatever order: in every state before the connection is dropped
the handshake came before the traffic, exactly when no `verack` is handled before a version. -/
theorem handshake_first_iff {trace : List (Event M × Connection M)} {outbound : Bool}
    (h : Trace (Step lib) (.new outbound) trace) :
    (∀ e ∈ trace, e.2.dropped = false → e.2.Shaken) ↔ Meets Ordered (.new outbound) trace := by
  refine Trace.forall_iff (fun c e c' (hstep : Step lib c e c') (inv : c.Running) _ _ =>
    inv.step hstep) (fun c e c' hstep inv (hguarded : c.Guarded) =>
      guarded_step_iff hstep inv hguarded) h (.new outbound) fun _ => ?_
  exact ((Running.new outbound).sound rfl).shaken nofun

end Connection

namespace Small

/-- The manager has nothing to say. -/
def quiet : Managed where
  invFilter := ∅
  blockMap := ∅
  bestHash := none
  bestHeight := none
  connected := true
  txMap := ∅
  compactBlocks := ∅
  disconnect := false
  pingNonceSent := none
  result := .ok ()

def fullNode : VersionMessage := ⟨70016, ServiceFlags.NETWORK ||| ServiceFlags.WITNESS, 0, "", true⟩

/-- A message without consequences. -/
def incoming (message : Message Unit) : Connection.Event Unit := .message message 0 quiet

end Small

namespace Connection

theorem handshake_first_iff_full : ∃ trace : List (Event Unit × Connection Unit),
    (∃ e ∈ trace, e.2.state.ack = true ∧ e.2.state.txRelay = .wtxid)
      ∧ ((∀ e ∈ trace, e.2.dropped = false → e.2.Shaken) ↔ Meets Ordered (.new true) trace) := by
  refine ⟨_, ?_, @handshake_first_iff _ Small.bip37 _ _
    (.cons (a := Small.incoming (.version Small.fullNode)) (.message rfl)
      (.cons (a := Small.incoming .wtxidRelay) (.message rfl)
      (.cons (a := Small.incoming .verack) (.message rfl) .nil)))⟩
  exact ⟨_, List.mem_cons_of_mem _ (List.mem_cons_of_mem _ List.mem_cons_self), rfl, rfl⟩

/-- A `verack` alone completes the handshake. -/
theorem verack_alone_acks : ∃ trace : List (Event Unit × Connection Unit),
    Trace (Step Small.bip37) (.new true) trace
      ∧ ¬ ∀ e ∈ trace, e.2.dropped = false → e.2.Shaken := by
  refine ⟨_, .cons (a := Small.incoming .verack) (.message rfl) .nil, fun h => ?_⟩
  obtain ⟨v, hv, -⟩ := (h _ List.mem_cons_self rfl).accepted rfl
  exact absurd (List.mem_singleton.1 hv) nofun

end Connection

end BitcoinNode
