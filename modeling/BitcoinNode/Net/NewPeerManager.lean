import BitcoinNode.Net.Headers

/-!
# Headers in the new peer manager

`handle_headers` of `net/new_peer_manager.rs`.
-/

namespace BitcoinNode

/-- Peers are shared: a handler is given a name and finds the state of the peer under it. -/
abbrev PeerId := Nat

namespace NewPeer

/-- The state of a peer that headers change. -/
structure State where
  bestHash : Option BlockHash
  bestHeight : Option Nat

def writes : PeerWrites State where
  note _ state := state
  setBestHash hash state := { state with bestHash := some hash }
  setBestHeight height state := { state with bestHeight := some height }

end NewPeer

/-- The manager with the states of its peers, the messages queued for them, and whether the
task that resolves headers has been notified. -/
structure NewPeerManager where
  chain : Chain
  peers : PeerId → NewPeer.State
  outbox : List (PeerId × NetworkMessage)
  resolveHeaders : Bool

namespace NewPeerManager

/-- `get_headers` of a peer. -/
def getHeaders (m : NewPeerManager) (peer : PeerId) (locator : List BlockHash)
    (stop : Option BlockHash) : NewPeerManager :=
  if locator.isEmpty then m
  else { m with outbox := m.outbox ++ [(peer, .getHeaders locator (stop.getD 0))] }

def queueResolveHeaders (m : NewPeerManager) : NewPeerManager := { m with resolveHeaders := true }

def handleHeaders (env : Env) (clock : Nat → Nat) (m : NewPeerManager) (peer : PeerId)
    (headers : List BlockHeader) : Except Panic (NewPeerManager × Except HandleError Unit) :=
  match headers.getLast? with
  | none => .ok (m, .ok ())
  | some last =>
    if !linked env none headers then .ok (m, .error .badHeaderChain)
    else do
      let (chain, state, added) ←
        addHeaders env NewPeer.writes clock headers m.chain (m.peers peer)
      let m := { m with chain := chain, peers := Function.update m.peers peer state }
      match added with
      | .error e => return (m, .error e)
      | .ok _ =>
        let m ←
          if headers.length = 2000 then do
            let locator ← chain.getLocator (some (env.blockHash last))
            pure (m.getHeaders peer locator none)
          else pure m
        return (m.queueResolveHeaders, .ok ())

variable {env : Env} {m : NewPeerManager} {clock : Nat → Nat} {peer : PeerId}
  {headers : List BlockHeader}

theorem handleHeaders_total_iff (law : env.Lawful) (hinj : Function.Injective env.blockHash)
    (h : Chain.Visited env m.chain) :
    (∃ r, m.handleHeaders env clock peer headers = .ok r)
      ↔ (linked env none headers = true → FirstAttaches env m.chain headers) := by
  unfold handleHeaders
  split
  · rename_i hnil
    obtain rfl := List.getLast?_eq_none_iff.1 hnil
    exact ⟨fun _ _ => by simp [FirstAttaches], fun _ => ⟨_, rfl⟩⟩
  cases hlinked : linked env none headers with
  | false => simp
  | true =>
    rw [if_neg (by simp), forall_prop_of_true rfl]
    refine Chain.bind_addHeaders_total_iff law hinj h hlinked fun chain state added hvisited => ?_
    cases added with
    | error e => exact ⟨_, rfl⟩
    | ok u =>
      dsimp only
      split
      · obtain ⟨locator, hlocator⟩ := Chain.exists_getLocator law hvisited (some (env.blockHash _))
        rw [hlocator]
        exact ⟨_, rfl⟩
      · exact ⟨_, rfl⟩

end NewPeerManager

end BitcoinNode
