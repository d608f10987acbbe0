import BitcoinNode.Library.Channel
import BitcoinNode.Net.NewPeer

/-!
# The handshake between two nodes

Two nodes that run `net/peer.rs`, one of which made the connection, and the messages that are
under way between them; and a node of `net/new_peer.rs` that connects to one of `net/peer.rs`.
-/

namespace BitcoinNode

open Peer (Session Handled Foreign Managed)

namespace Message

variable {M : Type}

/-- What a node sends once the handshake is complete. -/
def isTraffic : Message M → Bool
  | .sendHeaders | .ping _ | .pong _ | .feeFilter _ | .sendCmpct .. | .other _ => true
  | _ => false

end Message

namespace Connection

variable {M : Type} {c c' : Connection M} {lib : Bip37} {height : Nat} {message : Message M}
  {managed : Managed}

/-! ## The frame of a step -/

theorem send_frame (messages : List (Message M)) (c : Connection M) :
    (c.send messages).1.received = c.received ∧ c.sent <+: (c.send messages).1.sent := by
  fun_induction send with
  | case1 c => exact ⟨rfl, List.prefix_rfl⟩
  | case2 message _ c _ ih => exact ⟨ih.1, (List.prefix_append _ [message]).trans ih.2⟩
  | case3 _ _ c _ => exact ⟨rfl, List.prefix_rfl⟩

theorem send_connected {messages : List (Message M)} (h : c.state.connected = true) :
    c.send messages = ({ c with sent := c.sent ++ messages }, .ok ()) := by
  fun_induction send with
  | case1 c => simp
  | case2 message messages c _ ih => rw [ih h, List.append_assoc, List.singleton_append]
  | case3 _ _ c hclosed => exact absurd h hclosed

theorem handlePart_frame (lib : Bip37) (height : Nat) (c : Connection M) (message : Message M) :
    (c.handlePart lib height message).1.received = c.received
      ∧ c.sent <+: (c.handlePart lib height message).1.sent := by
  have hfurther : (c.handleFurther lib message).1.received = c.received
      ∧ c.sent <+: (c.handleFurther lib message).1.sent := by
    have hupdate (r : Except Peer.Failure Session) :
        (c.update r).1.received = c.received ∧ c.sent <+: (c.update r).1.sent := by
      cases r <;> exact ⟨rfl, List.prefix_rfl⟩
    cases message with
    | ping nonce => exact send_frame _ c
    | version | verack | wtxidRelay | other => exact ⟨rfl, List.prefix_rfl⟩
    | _ => exact hupdate _
  cases message with
  | version v =>
    unfold handlePart handleVersion
    dsimp only
    split
    · exact ⟨rfl, List.prefix_rfl⟩
    split
    · exact ⟨rfl, List.prefix_rfl⟩
    split
    · exact ⟨rfl, List.prefix_rfl⟩
    · exact send_frame _ { c with state := { c.state with
        version := some v.version
        services := v.services
        startHeight := v.startHeight
        userAgent := v.userAgent
        relay := v.relay } }
  | verack =>
    unfold handlePart handleVerack
    dsimp only
    split <;> exact ⟨rfl, List.prefix_rfl⟩
  | wtxidRelay =>
    unfold handlePart handleWtxidRelay
    dsimp only
    split <;> exact ⟨rfl, List.prefix_rfl⟩
  | _ =>
    unfold handlePart
    dsimp only
    split
    · exact ⟨rfl, List.prefix_rfl⟩
    · exact hfurther

theorem proceed_frame (c : Connection M) (r : Handled) :
    (c.proceed r).received = c.received ∧ (c.proceed r).sent = c.sent := by
  unfold proceed
  split
  · split <;> exact ⟨rfl, rfl⟩
  · split <;> exact ⟨rfl, rfl⟩

theorem read_frame (lib : Bip37) (height : Nat) (c : Connection M) (message : Message M)
    (managed : Managed) :
    (c.read lib height message managed).received = c.received ++ [message]
      ∧ c.sent <+: (c.read lib height message managed).sent := by
  have hpart := handlePart_frame lib height { c with received := c.received ++ [message] } message
  unfold read handleMessage
  generalize handlePart lib height { c with received := c.received ++ [message] } message = part
    at hpart ⊢
  obtain ⟨mid, r⟩ := part
  cases r with
  | error e =>
    obtain ⟨hreceived, hsent⟩ := proceed_frame mid (.error e)
    exact ⟨hreceived.trans hpart.1, hsent ▸ hpart.2⟩
  | ok _ =>
    obtain ⟨hreceived, hsent⟩ := proceed_frame (mid.manage message managed).1 managed.result
    exact ⟨hreceived.trans hpart.1, hsent ▸ hpart.2⟩

/-! ## A node as a party -/

/-- What the manager and other threads write to a peer that they keep. -/
structure Kept (o : Foreign) : Prop where
  connected : o.connected = true
  disconnect : o.disconnect = false

/-- A node whose manager has no objection to what it reads. -/
def party (lib : Bip37) : Party (Connection M) (Message M) where
  read c message c' := c.reading = true ∧ ∃ height managed,
    Kept managed.toForeign ∧ managed.result = .ok () ∧ c' = c.read lib height message managed
  act c c' := (∃ o, Kept o ∧ c' = { c with state := c.state.write o })
    ∨ c.state.ack = true ∧ ∃ message : Message M, message.isTraffic = true
      ∧ c' = { c with sent := c.sent ++ [message] }
  received := received
  sent := sent
  read_received := by
    rintro c _ message ⟨-, height, managed, -, -, rfl⟩
    exact (read_frame lib height c message managed).1
  read_sent := by
    rintro c _ message ⟨-, height, managed, -, -, rfl⟩
    exact (read_frame lib height c message managed).2
  act_received := by
    rintro c _ (⟨o, -, rfl⟩ | ⟨-, message, -, rfl⟩) <;> rfl
  act_sent := by
    rintro c _ (⟨o, -, rfl⟩ | ⟨-, message, -, rfl⟩)
    · exact List.prefix_rfl
    · exact List.prefix_append _ _

/-- A message that the node has no objection to either. -/
theorem read_of_part {mid : Connection M}
    (hpart : handlePart lib height { c with received := c.received ++ [message] } message
      = (mid, .ok ()))
    (hkept : Kept managed.toForeign) (hresult : managed.result = .ok ()) :
    c.read lib height message managed = { mid with
      passed := mid.passed ++ [(message, mid.state.ack)]
      state := mid.state.write managed.toForeign } := by
  unfold read handleMessage
  rw [hpart]
  dsimp only
  rw [manage, hresult, proceed, if_neg (by simp [Session.write, hkept.disconnect])]

/-! ## What a node sends -/

/-- How every node opens a connection. -/
def opening (height : Nat) : List (Message M) :=
  [.version (ownVersion height), .wtxidRelay, .verack, .sendAddrV2]

/-- A part of an opening with traffic behind it. -/
def Script (messages : List (Message M)) : Prop :=
  ∃ height traffic, (∀ message ∈ traffic, message.isTraffic = true)
    ∧ messages <+: opening height ++ traffic

theorem Script.next {whole received : List (Message M)} (h : Script whole)
    (hinit : received ++ [message] <+: whole) :
    (∃ height, (opening height)[received.length]? = some message)
      ∨ 4 ≤ received.length ∧ message.isTraffic = true := by
  obtain ⟨height, traffic, htraffic, hwhole⟩ := h
  have hget := Channel.getElem?_of_prefix (hinit.trans hwhole)
  by_cases hlength : received.length < 4
  · rw [List.getElem?_append_left hlength] at hget
    exact .inl ⟨height, hget⟩
  · rw [List.getElem?_append_right (not_lt.1 hlength)] at hget
    exact .inr ⟨not_lt.1 hlength, htraffic _ (List.mem_of_getElem? hget)⟩

/-- How far a node is, by the number of messages that it received. -/
structure Greeted (c : Connection M) : Prop where
  reading : c.reading = true
  dropped : c.dropped = false
  connected : c.state.connected = true
  version : c.state.version = if c.received.length = 0 then none else some 70016
  txRelay : c.state.txRelay = if c.received.length ≤ 1 then .txid else .wtxid
  ack : c.state.ack = decide (3 ≤ c.received.length)
  addrRelay : c.state.addrRelay = if c.received.length ≤ 3 then .v1 else .v2
  sent : ∃ height, ∃ traffic : List (Message M), (∀ message ∈ traffic, message.isTraffic = true)
    ∧ (traffic ≠ [] → 3 ≤ c.received.length)
    ∧ c.sent = (if 0 < c.received.length then opening height
      else if c.outbound then [.version (ownVersion height)] else []) ++ traffic

theorem Greeted.script (h : c.Greeted) : Script c.sent := by
  obtain ⟨height, traffic, htraffic, hlength, hsent⟩ := h.sent
  refine ⟨height, traffic, htraffic, ?_⟩
  by_cases hany : 0 < c.received.length
  · rw [hsent, if_pos hany]
  · obtain rfl : traffic = [] := by
      by_contra hne
      have := hlength hne
      omega
    rw [hsent, if_neg hany, List.append_nil, List.append_nil]
    split
    · exact ⟨_, rfl⟩
    · exact List.nil_prefix

/-- What the manager and other threads write makes no difference. -/
theorem Greeted.write (h : c.Greeted) {o : Foreign} (hkept : Kept o)
    (passed : List (Message M × Bool)) :
    Greeted { c with passed := passed, state := c.state.write o } :=
  ⟨h.reading, h.dropped, hkept.connected, h.version, h.txRelay, h.ack, h.addrRelay, h.sent⟩

theorem accepts_ownVersion (outbound : Bool) (height : Nat) :
    Accepts outbound (ownVersion height) where
  recent := by simp [ownVersion]
  full _ := by
    dsimp only [ownVersion]
    decide
  segwit _ := by
    dsimp only [ownVersion]
    decide

/-- The version of a node of the same kind is answered. -/
theorem Greeted.version_next (h : c.Greeted) (hlength : c.received.length = 0) (lib : Bip37)
    (height height' : Nat) : ∃ mid, handlePart lib height
      { c with received := c.received ++ [.version (ownVersion height')] }
      (.version (ownVersion height')) = (mid, .ok ()) ∧ mid.Greeted := by
  have hfull := (accepts_ownVersion true height').full rfl
  have hsegwit := (accepts_ownVersion true height').segwit rfl
  unfold handlePart handleVersion
  dsimp only
  rw [if_neg (by simp [ownVersion]), if_neg (by simp [hfull]), if_neg (by simp [hsegwit])]
  refine ⟨_, send_connected h.connected, h.reading, h.dropped, h.connected, ?_, ?_, ?_, ?_, ?_⟩
  · simp [ownVersion]
  · simp [h.txRelay, hlength]
  · simp [h.ack, hlength]
  · simp [h.addrRelay, hlength]
  · obtain ⟨height₀, traffic, -, htraffic, hsent⟩ := h.sent
    obtain rfl : traffic = [] := by
      by_contra hne
      have := htraffic hne
      omega
    have hrelay : (ownVersion height').version ≥ WTXID_RELAY_VERSION := le_rfl
    cases hout : c.outbound with
    | false =>
      exact ⟨height, [], by simp, by simp, by simp [hsent, hlength, hout, hrelay, opening]⟩
    | true =>
      exact ⟨height₀, [], by simp, by simp, by simp [hsent, hlength, hout, hrelay, opening]⟩

theorem Greeted.sent_next (h : c.Greeted) (hlength : 0 < c.received.length) :
    ∃ height, ∃ traffic : List (Message M), (∀ message ∈ traffic, message.isTraffic = true)
      ∧ (traffic ≠ [] → 3 ≤ (c.received ++ [message]).length)
      ∧ c.sent = (if 0 < (c.received ++ [message]).length then opening height
        else if c.outbound then [.version (ownVersion height)] else []) ++ traffic := by
  obtain ⟨height, traffic, htraffic, hack, hsent⟩ := h.sent
  rw [List.length_append, List.length_singleton]
  refine ⟨height, traffic, htraffic, fun hne => (hack hne).trans (Nat.le_succ _), ?_⟩
  rw [hsent, if_pos hlength, if_pos (Nat.succ_pos _)]

theorem Greeted.opens (h : c.Greeted) {height' : Nat}
    (hmessage : (opening height')[c.received.length]? = some message) (lib : Bip37)
    (height : Nat) : ∃ mid, handlePart lib height
      { c with received := c.received ++ [message] } message = (mid, .ok ()) ∧ mid.Greeted := by
  have hlt : c.received.length < 4 := (List.getElem?_eq_some_iff.1 hmessage).1
  obtain hzero | hone | htwo | hthree : c.received.length = 0 ∨ c.received.length = 1
      ∨ c.received.length = 2 ∨ c.received.length = 3 := by omega
  · rw [hzero] at hmessage
    obtain rfl := Option.some.inj hmessage
    exact h.version_next hzero lib height height'
  · rw [hone] at hmessage
    obtain rfl := Option.some.inj hmessage
    unfold handlePart handleWtxidRelay
    dsimp only
    rw [if_neg (by simp [h.version, h.ack, hone])]
    refine ⟨_, rfl, h.reading, h.dropped, h.connected, ?_, ?_, ?_, ?_, h.sent_next (by omega)⟩
    · simp [h.version, hone]
    · simp [hone]
    · simp [h.ack, hone]
    · simp [h.addrRelay, hone]
  · rw [htwo] at hmessage
    obtain rfl := Option.some.inj hmessage
    unfold handlePart handleVerack
    dsimp only
    rw [if_neg (by simp [h.ack, htwo])]
    refine ⟨_, rfl, h.reading, h.dropped, h.connected, ?_, ?_, ?_, ?_, h.sent_next (by omega)⟩
    · simp [h.version, htwo]
    · simp [h.txRelay, htwo]
    · simp [htwo]
    · simp [h.addrRelay, htwo]
  · rw [hthree] at hmessage
    obtain rfl := Option.some.inj hmessage
    unfold handlePart
    dsimp only
    rw [if_neg (by simp [h.ack, hthree])]
    refine ⟨_, rfl, h.reading, h.dropped, h.connected, ?_, ?_, ?_, ?_, h.sent_next (by omega)⟩
    · simp [h.version, hthree]
    · simp [h.txRelay, hthree]
    · simp [h.ack, hthree]
    · simp [hthree]

/-- What a node sends on its own account. -/
theorem Greeted.talk (h : c.Greeted) (hack : 3 ≤ c.received.length)
    (hmessage : message.isTraffic = true) : Greeted { c with sent := c.sent ++ [message] } := by
  refine ⟨h.reading, h.dropped, h.connected, h.version, h.txRelay, h.ack, h.addrRelay, ?_⟩
  obtain ⟨height, traffic, htraffic, -, hsent⟩ := h.sent
  refine ⟨height, traffic ++ [message], fun message' hmem => ?_, fun _ => hack, ?_⟩
  · rcases List.mem_append.1 hmem with hmem | hmem
    · exact htraffic _ hmem
    · rwa [List.mem_singleton.1 hmem]
  · dsimp only
    rw [hsent, List.append_assoc]

theorem Greeted.trafficked (h : c.Greeted) (hlength : 4 ≤ c.received.length)
    (hmessage : message.isTraffic = true) (lib : Bip37) (height : Nat) :
    ∃ mid, handlePart lib height { c with received := c.received ++ [message] } message
      = (mid, .ok ()) ∧ mid.Greeted := by
  have hack : c.state.ack = true := by simp [h.ack, show 3 ≤ c.received.length by omega]
  have hsame : Greeted { c with received := c.received ++ [message] } := by
    have hne : c.received ≠ [] := List.ne_nil_of_length_pos (by omega)
    refine ⟨h.reading, h.dropped, h.connected, ?_, ?_, ?_, ?_, h.sent_next (by omega)⟩
    · simp [h.version, hne]
    · simp [h.txRelay, hne, show ¬ c.received.length ≤ 1 by omega]
    · rw [hack, List.length_append, eq_comm, decide_eq_true_eq]
      omega
    · simp [h.addrRelay, show ¬ c.received.length ≤ 3 by omega]
      omega
  -- the flags of the handshake stay as they are, whatever else is written
  have hkeep : ∀ {state : Session}, state.connected = c.state.connected →
      state.version = c.state.version → state.txRelay = c.state.txRelay →
      state.ack = c.state.ack → state.addrRelay = c.state.addrRelay →
      Greeted { c with received := c.received ++ [message], state := state } :=
    fun hconnected hversion hrelay hsameAck haddr =>
      ⟨h.reading, h.dropped, hconnected.trans h.connected, hversion.trans hsame.version,
        hrelay.trans hsame.txRelay, hsameAck.trans hsame.ack, haddr.trans hsame.addrRelay,
        hsame.sent⟩
  have hpart : handlePart lib height { c with received := c.received ++ [message] } message
      = handleFurther lib { c with received := c.received ++ [message] } message := by
    cases message with
    | version | verack | wtxidRelay => cases hmessage
    | _ => exact if_neg (by simp [hack])
  rw [hpart]
  cases message with
  | version | verack | wtxidRelay | filterLoad | filterAdd | filterClear | sendAddrV2 =>
    cases hmessage
  | other => exact ⟨_, rfl, hsame⟩
  | sendHeaders => exact ⟨_, rfl, hkeep rfl rfl rfl rfl rfl⟩
  | ping nonce =>
    exact ⟨_, send_connected h.connected, hsame.talk (by simp; omega) rfl⟩
  | pong nonce =>
    refine ⟨_, rfl, hkeep ?_ ?_ ?_ ?_ ?_⟩ <;> (unfold Session.handlePong; split <;> rfl)
  | feeFilter rate =>
    refine ⟨_, rfl, hkeep ?_ ?_ ?_ ?_ ?_⟩ <;> (unfold Session.handleFeeFilter; split <;> rfl)
  | sendCmpct sendCompact version =>
    refine ⟨_, rfl, hkeep ?_ ?_ ?_ ?_ ?_⟩ <;> (unfold Session.handleSendCmpct; split <;> rfl)

theorem Greeted.keeps : Channel.Keeps (party lib) (Greeted (M := M)) Script where
  read := by
    rintro c _ message whole h hscript hinit ⟨-, height, managed, hkept, hresult, rfl⟩
    obtain ⟨mid, hpart, hgreeted⟩ : ∃ mid, handlePart lib height
        { c with received := c.received ++ [message] } message = (mid, .ok ()) ∧ mid.Greeted := by
      rcases hscript.next hinit with ⟨height', hopening⟩ | ⟨hlength, htraffic⟩
      · exact h.opens hopening lib height
      · exact h.trafficked hlength htraffic lib height
    rw [read_of_part hpart hkept hresult]
    exact hgreeted.write hkept _
  act := by
    rintro c _ h (⟨o, hkept, rfl⟩ | ⟨hack, message, hmessage, rfl⟩)
    · exact h.write hkept _
    · exact h.talk (by simpa [h.ack] using hack) hmessage

/-! ## Two nodes -/

/-- A connection that a node has just made: `maintain_peers` sends the version. -/
def dialed (height : Nat) : Connection M :=
  { new true with sent := [.version (ownVersion height)] }

theorem Greeted.dialed (height : Nat) : (dialed height : Connection M).Greeted :=
  ⟨rfl, rfl, rfl, rfl, rfl, rfl, rfl, height, [], by simp, by simp, rfl⟩

theorem Greeted.accepted : (new false : Connection M).Greeted :=
  ⟨rfl, rfl, rfl, rfl, rfl, rfl, rfl, 0, [], by simp, by simp, rfl⟩

/-- The handshake is complete, with all that both sides offer. -/
structure Complete (c : Connection M) : Prop where
  ack : c.state.ack = true
  version : c.state.version = some 70016
  txRelay : c.state.txRelay = .wtxid
  addrRelay : c.state.addrRelay = .v2

theorem Greeted.complete (h : c.Greeted) (hlength : 4 ≤ c.received.length) : c.Complete where
  ack := by simp [h.ack, show 3 ≤ c.received.length by omega]
  version := by simp [h.version, List.ne_nil_of_length_pos (show 0 < c.received.length by omega)]
  txRelay := by simp [h.txRelay, show ¬ c.received.length ≤ 1 by omega]
  addrRelay := by simp [h.addrRelay, show ¬ c.received.length ≤ 3 by omega]

theorem Greeted.length_sent (h : c.Greeted) (hlength : 0 < c.received.length) :
    4 ≤ c.sent.length := by
  obtain ⟨height, traffic, -, -, hsent⟩ := h.sent
  rw [hsent, if_pos hlength, List.length_append]
  exact Nat.le_add_right 4 _

end Connection

namespace Small

/-- Two nodes, one of which reads a message. -/
def readsLeft (x : Channel (Connection Unit) (Connection Unit) (Message Unit)) :
    Channel (Connection Unit) (Connection Unit) (Message Unit) :=
  match x.toLeft with
  | [] => x
  | message :: rest =>
    let left := x.left.read bip37 0 message quiet
    { x with
      left := left
      toLeft := rest
      toRight := x.toRight ++ left.sent.drop x.left.sent.length }

def readsRight (x : Channel (Connection Unit) (Connection Unit) (Message Unit)) :
    Channel (Connection Unit) (Connection Unit) (Message Unit) :=
  match x.toRight with
  | [] => x
  | message :: rest =>
    let right := x.right.read bip37 0 message quiet
    { x with
      right := right
      toRight := rest
      toLeft := x.toLeft ++ right.sent.drop x.right.sent.length }

variable {s t : Connection Unit} {x : Channel (Connection Unit) (Connection Unit) (Message Unit)}

theorem reaches_readsLeft
    (h : Channel.Reachable (Connection.party bip37) (Connection.party bip37) s t x)
    (hreading : x.left.reading = true) :
    Channel.Reachable (Connection.party bip37) (Connection.party bip37) s t (readsLeft x) := by
  unfold readsLeft
  split
  · exact h
  · rename_i message rest hchannel
    exact h.tail (.readLeft hchannel ⟨hreading, 0, quiet, ⟨rfl, rfl⟩, rfl, rfl⟩)

theorem reaches_readsRight
    (h : Channel.Reachable (Connection.party bip37) (Connection.party bip37) s t x)
    (hreading : x.right.reading = true) :
    Channel.Reachable (Connection.party bip37) (Connection.party bip37) s t (readsRight x) := by
  unfold readsRight
  split
  · exact h
  · rename_i message rest hchannel
    exact h.tail (.readRight hchannel ⟨hreading, 0, quiet, ⟨rfl, rfl⟩, rfl, rfl⟩)

/-- All messages of a handshake, read as late as possible by the node that made the connection. -/
def greeted : Channel (Connection Unit) (Connection Unit) (Message Unit) :=
  readsRight <| readsRight <| readsRight <| readsLeft <| readsLeft <| readsLeft <| readsLeft <|
    readsRight (Channel.start (Connection.party bip37) (Connection.party bip37)
      (Connection.dialed 0) (Connection.new false))

theorem reaches_greeted : Channel.Reachable (Connection.party bip37) (Connection.party bip37)
    (Connection.dialed 0) (Connection.new false) greeted := by
  refine reaches_readsRight (reaches_readsRight (reaches_readsRight ?_ ?_) ?_) ?_
  · refine reaches_readsLeft (reaches_readsLeft (reaches_readsLeft (reaches_readsLeft ?_ ?_) ?_)
      ?_) ?_
    · exact reaches_readsRight .refl rfl
    all_goals rfl
  all_goals rfl

end Small

namespace Connection

end Connection

/-! ## A new peer and an old one -/

namespace NewPeer.Connection

variable {M : Type} {c : Connection M} {height : Nat}

theorem handleVersion_frame (c : Connection M) (version : VersionMessage) :
    (c.handleVersion version).1.received = c.received
      ∧ c.sent <+: (c.handleVersion version).1.sent := by
  unfold handleVersion
  dsimp only
  split
  · exact ⟨rfl, List.prefix_rfl⟩
  split
  · exact ⟨rfl, List.prefix_rfl⟩
  split
  · exact ⟨rfl, List.prefix_rfl⟩
  cases hout : c.outbound with
  | false =>
    split <;> simp [queueMessage, queueVersionMessage]
  | true =>
    split <;> simp [queueMessage]

theorem shake_frame (c : Connection M) (message : Message M) :
    (c.shake message).1.received = c.received ∧ c.sent <+: (c.shake message).1.sent := by
  unfold shake
  split
  · split
    · rename_i version
      have hframe := handleVersion_frame c version
      split <;> (rename_i heq; rw [heq] at hframe; exact hframe)
    · exact ⟨rfl, List.prefix_rfl⟩
  · split
    · exact ⟨rfl, List.prefix_append _ _⟩
    · split <;> exact ⟨rfl, List.prefix_rfl⟩
    · exact ⟨rfl, List.prefix_rfl⟩
    · exact ⟨rfl, List.prefix_rfl⟩

theorem handleMessage_frame (c : Connection M) (message : Message M) :
    (c.handleMessage message).1.received = c.received
      ∧ c.sent <+: (c.handleMessage message).1.sent := by
  cases message with
  | ping nonce => exact ⟨rfl, List.prefix_append _ _⟩
  | _ => exact ⟨rfl, List.prefix_rfl⟩

theorem read_frame (c : Connection M) (message : Message M) :
    (c.read message).received = c.received ++ [message] ∧ c.sent <+: (c.read message).sent := by
  have hproceed (r : Connection M × Except Failure Unit) :
      (proceed r).received = r.1.received ∧ (proceed r).sent = r.1.sent := by
    obtain ⟨c, e | u⟩ := r <;> exact ⟨rfl, rfl⟩
  have hshake := shake_frame { c with received := c.received ++ [message] } message
  have hhandle := handleMessage_frame { c with received := c.received ++ [message] } message
  unfold read
  dsimp only
  split
  · rw [(hproceed _).1, (hproceed _).2]
    exact hshake
  · rw [(hproceed _).1, (hproceed _).2]
    exact hshake
  · rw [(hproceed _).1, (hproceed _).2]
    exact hhandle
  · exact ⟨rfl, List.prefix_rfl⟩

/-- A new peer whose manager has no objection to what it reads. -/
def party : Party (Connection M) (Message M) where
  read c message c' := c.stage ≠ .ended ∧ c' = c.read message
  act _ _ := False
  received := received
  sent := sent
  read_received := by
    rintro c _ message ⟨-, rfl⟩
    exact (read_frame c message).1
  read_sent := by
    rintro c _ message ⟨-, rfl⟩
    exact (read_frame c message).2
  act_received := False.elim
  act_sent := False.elim

/-- What a new peer says to an old one. -/
def greeting : List (Message M) :=
  [.version (BitcoinNode.Connection.ownVersion 0), .wtxidRelay, .sendAddrV2, .verack, .sendHeaders]

/-- A new peer that has read a part of an opening. -/
structure Opened (c : Connection M) : Prop where
  eq : c = new.readAll c.received
  opening : ∃ height, c.received <+: BitcoinNode.Connection.opening height

/-- How far a new peer comes with an opening: the last message ends it. -/
theorem readAll_opening (height n : Nat) (h : n ≤ 4) :
    let c : Connection M := new.readAll ((BitcoinNode.Connection.opening height).take n)
    (c.stage = .ended ↔ n = 4) ∧ c.sent <+: greeting ∧ 1 ≤ c.sent.length
      ∧ (1 ≤ n → 4 ≤ c.sent.length) := by
  obtain ⟨state, hread, hversion, -⟩ :=
    read_version (M := M) (BitcoinNode.Connection.accepts_ownVersion true height)
  have hrelay : (BitcoinNode.Connection.ownVersion height).version ≥ WTXID_RELAY_VERSION := le_rfl
  rw [if_pos hrelay] at hread
  have hany : state.version.any (· ≥ WTXID_RELAY_VERSION) = true := by
    rw [hversion]
    exact decide_eq_true hrelay
  cases n with
  | zero => simp [readAll, new, queueVersionMessage, queueMessage, greeting]
  | succ n =>
    rw [BitcoinNode.Connection.opening, List.take_succ_cons, readAll, List.foldl_cons, hread]
    obtain rfl | rfl | rfl | rfl : n = 0 ∨ n = 1 ∨ n = 2 ∨ n = 3 := by omega
    · simp [greeting]
    · simp [read, shake, hany, proceed, handleWtxidRelay, greeting]
    · simp [read, shake, hany, proceed, handleWtxidRelay, handleVerack, queueMessage, greeting]
    · simp [read, shake, hany, proceed, handleWtxidRelay, handleVerack, handleMessage,
        queueMessage, greeting]

theorem Opened.spec (h : c.Opened) : c.received.length ≤ 4
    ∧ (c.stage = .ended ↔ c.received.length = 4) ∧ c.sent <+: greeting ∧ 1 ≤ c.sent.length
    ∧ (1 ≤ c.received.length → 4 ≤ c.sent.length) := by
  obtain ⟨height, hopening⟩ := h.opening
  have hle : c.received.length ≤ 4 := hopening.length_le
  have hspec := readAll_opening (M := M) height c.received.length hle
  rw [← List.prefix_iff_eq_take.1 hopening, ← h.eq] at hspec
  exact ⟨hle, hspec⟩

theorem Opened.keeps : Channel.Keeps party (Opened (M := M))
    fun whole => ∃ height, whole <+: BitcoinNode.Connection.opening height where
  read := by
    rintro c _ message whole h ⟨height, hwhole⟩ hinit ⟨-, rfl⟩
    have hreceived := (read_frame c message).1
    refine ⟨?_, height, hreceived ▸ hinit.trans hwhole⟩
    rw [hreceived, readAll_append, ← h.eq]
    rfl
  act _ hact := hact.elim

end NewPeer.Connection

namespace Connection

variable {M : Type} {c : Connection M} {lib : Bip37}

/-- An old peer that has read a part of the greeting of a new one. -/
structure Answers (c : Connection M) : Prop where
  ack : c.state.ack = false
  goes : c.received.length ≤ 2 → c.Greeted ∧ c.outbound = false
  ends : 2 < c.received.length → c.received.length = 3 ∧ c.reading = false ∧ c.dropped = true
    ∧ ∃ height, c.sent = opening height

theorem Greeted.ack_eq_false (h : c.Greeted) (hlength : c.received.length ≤ 2) :
    c.state.ack = false := by
  rw [h.ack, decide_eq_false_iff_not]
  omega

theorem Answers.sent (h : c.Answers) : c.received = [] ∧ c.sent = []
    ∨ 1 ≤ c.received.length ∧ ∃ height, c.sent = opening height := by
  by_cases hlength : c.received.length ≤ 2
  · obtain ⟨hgreeted, hout⟩ := h.goes hlength
    obtain ⟨height, traffic, -, htraffic, hsent⟩ := hgreeted.sent
    obtain rfl : traffic = [] := by
      by_contra hne
      have := htraffic hne
      omega
    rw [List.append_nil, hout] at hsent
    rcases Nat.eq_zero_or_pos c.received.length with hzero | hpos
    · exact .inl ⟨List.length_eq_zero_iff.1 hzero, by simpa [hzero] using hsent⟩
    · exact .inr ⟨hpos, height, by rwa [if_pos hpos] at hsent⟩
  · obtain ⟨hthree, -, -, hopening⟩ := h.ends (not_le.1 hlength)
    exact .inr ⟨by omega, hopening⟩

theorem Answers.start : (new false : Connection M).Answers :=
  ⟨rfl, fun _ => ⟨.accepted, rfl⟩, fun hlength => by cases hlength⟩

theorem Answers.script (h : c.Answers) : ∃ height, c.sent <+: opening height := by
  obtain ⟨-, hsent⟩ | ⟨-, height, hsent⟩ := h.sent
  · exact ⟨0, hsent ▸ List.nil_prefix⟩
  · exact ⟨height, hsent ▸ List.prefix_rfl⟩

theorem Answers.keeps :
    Channel.Keeps (party lib) (Answers (M := M)) (· <+: NewPeer.Connection.greeting) where
  read := by
    rintro c _ message whole h hwhole hinit ⟨hreading, height, managed, hkept, hresult, rfl⟩
    have hget := Channel.getElem?_of_prefix (hinit.trans hwhole)
    change NewPeer.Connection.greeting[c.received.length]? = some message at hget
    have hle : c.received.length ≤ 2 := by
      by_contra hlong
      rw [(h.ends (not_le.1 hlong)).2.1] at hreading
      cases hreading
    obtain ⟨hgreeted, hout⟩ := h.goes hle
    have hlength : (c.read lib height message managed).received.length = c.received.length + 1 := by
      rw [(read_frame lib height c message managed).1, List.length_append, List.length_singleton]
    by_cases htwo : c.received.length = 2
    · -- the address relay comes before the `verack`
      rw [htwo] at hget
      obtain rfl := Option.some.inj hget
      have hread : c.read lib height .sendAddrV2 managed
          = drop { c with received := c.received ++ [.sendAddrV2] } := by
        have hpart : handlePart lib height { c with received := c.received ++ [.sendAddrV2] }
            .sendAddrV2 = ({ c with received := c.received ++ [.sendAddrV2] },
              .error .beforeHandshake) := if_pos (by simp [h.ack])
        unfold read handleMessage
        rw [hpart]
        rfl
      obtain ⟨hnone, -⟩ | ⟨-, hsent⟩ := h.sent
      · simp [hnone] at htwo
      · refine ⟨by rw [hread]; exact h.ack, fun hshort => ?_, fun _ => ⟨by omega, ?_, ?_, ?_⟩⟩
        · omega
        · rw [hread]; rfl
        · rw [hread]; rfl
        · rw [hread]; exact hsent
    · have hopening : (opening 0)[c.received.length]? = some message := by
        obtain hzero | hone : c.received.length = 0 ∨ c.received.length = 1 := by omega
        · rw [hzero] at hget ⊢
          exact hget
        · rw [hone] at hget ⊢
          exact hget
      obtain ⟨mid, hpart, hmid⟩ := hgreeted.opens hopening lib height
      have hread : (c.read lib height message managed).Greeted := by
        rw [read_of_part hpart hkept hresult]
        exact hmid.write hkept _
      refine ⟨hread.ack_eq_false (by omega), fun _ => ⟨hread, ?_⟩, fun hlong => by omega⟩
      rw [(read_took hread.dropped).outbound, hout]
  act := by
    rintro c _ h (⟨o, hkept, rfl⟩ | ⟨hack, -⟩)
    · refine ⟨h.ack, fun hlength => ?_, h.ends⟩
      obtain ⟨hgreeted, hout⟩ := h.goes hlength
      exact ⟨hgreeted.write hkept c.passed, hout⟩
    · rw [h.ack] at hack
      cases hack

/-- A new peer never gets through to an old one. In whatever order they read, the handshake is not
complete on the old side, and as long as not both have dropped the connection there is a message
that one of them is about to read: no more than seven of them. -/
theorem new_to_old {x : Channel (NewPeer.Connection M) (Connection M) (Message M)}
    (h : Channel.Reachable NewPeer.Connection.party (party lib) NewPeer.Connection.new (new false)
      x) :
    x.right.state.ack = false
      ∧ x.left.received.length + x.right.received.length ≤ 7
      ∧ (x.left.stage = .ended ∧ x.right.dropped = true
        ∨ x.left.stage ≠ .ended ∧ x.toLeft ≠ []
        ∨ x.right.reading = true ∧ x.toRight ≠ []) := by
  obtain ⟨fifo, hleft, hright⟩ := h.invariant NewPeer.Connection.Opened.keeps Answers.keeps
    (fun _ h => h.spec.2.2.1) (fun _ h => h.script) ⟨rfl, 0, List.nil_prefix⟩ .start rfl rfl
  obtain ⟨hle, hended, -, hone, hfour⟩ := hleft.spec
  have hin := congrArg List.length fifo.left
  have hout := congrArg List.length fifo.right
  rw [List.length_append] at hin hout
  change x.left.received.length + x.toLeft.length = x.right.sent.length at hin
  change x.right.received.length + x.toRight.length = x.left.sent.length at hout
  refine ⟨hright.ack, ?_, ?_⟩
  · by_cases hlong : 2 < x.right.received.length
    · have := (hright.ends hlong).1
      omega
    · omega
  obtain ⟨hnone, hsilent⟩ | ⟨hany, height, hopening⟩ := hright.sent
  · -- the version is under way
    refine .inr (.inr ⟨(hright.goes (by simp [hnone])).1.reading, fun hempty => ?_⟩)
    simp [hnone, hempty] at hout
    omega
  have hfourth : x.right.sent.length = 4 := by
    rw [hopening]
    rfl
  by_cases hlast : x.left.received.length = 4
  · by_cases hlong : 2 < x.right.received.length
    · exact .inl ⟨hended.2 hlast, (hright.ends hlong).2.2.1⟩
    · refine .inr (.inr ⟨(hright.goes (not_lt.1 hlong)).1.reading, fun hempty => ?_⟩)
      have := hfour (by omega)
      simp [hempty] at hout
      omega
  · refine .inr (.inl ⟨fun hstage => hlast (hended.1 hstage), fun hempty => ?_⟩)
    simp [hempty] at hin
    omega

/-- Both sides drop the connection. -/
theorem new_to_old_small :
    ∃ x : Channel (NewPeer.Connection Unit) (Connection Unit) (Message Unit),
      x.left.stage = .ended ∧ x.right.dropped = true ∧ x.right.state.ack = false := by
  have hright {c : Connection Unit} (message : Message Unit) (h : c.reading = true) :
      (party Small.bip37).read c message (c.read Small.bip37 0 message Small.quiet) :=
    ⟨h, 0, Small.quiet, ⟨rfl, rfl⟩, rfl, rfl⟩
  refine ⟨_, ?_, ?_, (new_to_old (.tail (.tail (.tail (.tail (.tail (.tail
    (.tail .refl
      (.readRight rfl (hright (.version (ownVersion 0)) rfl)))
      (.readLeft rfl ⟨by decide, rfl⟩)) (.readLeft rfl ⟨by decide, rfl⟩))
      (.readLeft rfl ⟨by decide, rfl⟩)) (.readLeft rfl ⟨by decide, rfl⟩))
      (.readRight rfl (hright .wtxidRelay rfl))) (.readRight rfl (hright .sendAddrV2 rfl)))).1⟩
  · rfl
  · rfl

end Connection

end BitcoinNode
