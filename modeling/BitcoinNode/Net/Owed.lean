import BitcoinNode.Net.Verifying

/-!
# Transactions that peers owe

The set of requested transactions follows those of the peers, except that a peer which leaves
takes back its blocks only.
-/

namespace BitcoinNode

namespace SyncManager

variable {env : Env} {lib : Bip152} {m m' : SyncManager} {peer : PeerId} {a : Act}

/-- The transactions that were asked of a peer. -/
def owes (m : SyncManager) (peer : PeerId) : Finset GenericTxid :=
  (m.requests peer).requestedTransactions

/-- The requested transactions are those that connected peers owe. -/
def Owed (m : SyncManager) : Prop :=
  ∀ gtxid, gtxid ∈ m.requestedTransactions ↔ ∃ peer ∈ m.listed, gtxid ∈ m.owes peer

/-- A peer that is removed owes no transaction. -/
def Settled (m : SyncManager) : Act → Prop
  | .peerDisconnected peer _ => m.owes peer = ∅
  | _ => True

/-- Running peers are listed and have shaken hands; before, a peer owes nothing. -/
structure Placed (state : NewPeer.Requests) (seen listed handshaking running : Prop) : Prop where
  running : running → listed ∧ ¬ handshaking
  handshaking : handshaking →
    listed ∧ state.handshake = false ∧ state.requestedTransactions = ∅
  listed : listed → seen

/-- The places of all peers. -/
def Orderly (m : SyncManager) : Prop :=
  ∀ peer, Placed (m.requests peer) (peer ∈ m.seen) (peer ∈ m.listed) (peer ∈ m.handshaking)
    (peer ∈ m.running)

/-- No two connected peers owe the same. -/
def Apart (m : SyncManager) : Prop :=
  ∀ ⦃gtxid p q⦄, p ∈ m.listed → q ∈ m.listed → gtxid ∈ m.owes p → gtxid ∈ m.owes q → p = q

/-- The set is shared by the connected peers. -/
abbrev Divided (m : SyncManager) : Prop := Shared m.requestedTransactions m.owes m.listed

theorem divided_iff : m.Divided ↔ m.Owed ∧ m.Apart :=
  ⟨fun h => ⟨fun _ => h.mem_iff, fun _ _ _ => h.unique⟩, fun h => ⟨h.1 _, @h.2⟩⟩

theorem owes_update {state : NewPeer.Requests} :
    (m.update peer state).owes = Function.update m.owes peer state.requestedTransactions := by
  funext q
  rw [owes, update_requests, Function.update_apply]
  split <;> rfl

/-! ## Places -/

theorem Orderly.update {state : NewPeer.Requests} (inv : m.Orderly)
    (hhandshake : state.handshake = (m.requests peer).handshake)
    (howes : peer ∈ m.handshaking → state.requestedTransactions = m.owes peer) :
    (m.update peer state).Orderly := by
  intro q
  rw [update_requests]
  split
  · rename_i hq
    subst hq
    obtain ⟨h₁, h₂, h₃⟩ := inv q
    refine ⟨h₁, fun h => ⟨(h₂ h).1, hhandshake.trans (h₂ h).2.1, (howes h).trans (h₂ h).2.2⟩, h₃⟩
  · exact inv q

/-- A peer that is served may owe more or less. -/
theorem Orderly.serve {state : NewPeer.Requests} (inv : m.Orderly) (hpeer : peer ∈ m.running)
    (hhandshake : state.handshake = (m.requests peer).handshake) :
    (m.update peer state).Orderly :=
  inv.update hhandshake fun h => absurd h ((inv peer).running hpeer).2

theorem Orderly.stop (inv : m.Orderly) : (m.stop peer).Orderly := fun q =>
  ⟨fun h => (inv q).running (Finset.mem_of_mem_erase h), (inv q).handshaking, (inv q).listed⟩

theorem Orderly.handled {result : SyncManager × Except HandleError Unit}
    (inv : result.1.Orderly) : (handled peer result).Orderly := by
  obtain ⟨m', _ | _⟩ := result
  · exact inv.stop
  · exact inv

theorem Orderly.step (inv : m.Orderly) (h : Step env lib m a m') : m'.Orderly := by
  cases h with
  | @connect peer hnew =>
    intro q
    rw [update_requests]
    split
    · rename_i hq
      subst hq
      have hlisted : q ∉ m.listed := fun h => hnew ((inv q).listed h)
      have hrunning : q ∉ m.running := fun h => hlisted ((inv q).running h).1
      exact ⟨fun h => absurd h hrunning, fun _ => ⟨Finset.mem_insert_self _ _, rfl, rfl⟩,
        fun _ => Finset.mem_insert_self _ _⟩
    · rename_i hq
      simpa [SyncManager.update, Finset.mem_insert, hq] using inv q
  | @handshakeComplete peer txRelay hpeer =>
    intro q
    rw [update_requests]
    split
    · rename_i hq
      subst hq
      exact ⟨fun _ => ⟨((inv q).handshaking hpeer).1, Finset.notMem_erase _ _⟩,
        fun h => absurd h (Finset.notMem_erase _ _), (inv q).listed⟩
    · rename_i hq
      simpa [SyncManager.update, Finset.mem_insert, Finset.mem_erase, hq] using inv q
  | @handshakeFailed peer hpeer =>
    intro q
    obtain ⟨h₁, h₂, h₃⟩ := inv q
    by_cases hq : q = peer
    · subst hq
      exact ⟨fun h => absurd hpeer (h₁ h).2, fun h => absurd h (Finset.notMem_erase _ _),
        fun h => absurd h (Finset.notMem_erase _ _)⟩
    · simpa [Finset.mem_erase, hq] using inv q
  | getNextBlocks _ _ hnext =>
    obtain ⟨⟨commonHash, commonHeight, rfl⟩, -⟩ := getNextBlocks_eq_ok hnext
    obtain ⟨resolver, events, hresolve⟩ := @resolve_eq _ _ _
    rw [hresolve]
    exact inv.update rfl fun _ => rfl
  | @getBlock now peer =>
    obtain ⟨requested, blocks, time, outbox, heq⟩ := getBlock_eq _
    rw [heq]
    exact Orderly.update (m := { m with resolver := .idle }) inv rfl fun _ => rfl
  | handleBlock hlistening hresult =>
    refine .handled ?_
    simp only [SyncManager.handleBlock] at hresult
    split at hresult
    · cases hresult
      exact inv
    split at hresult
    · cases hresult
    split at hresult
    · cases hresult
    · cases hresult
      exact inv.update rfl fun _ => rfl
  | handleTx hlistening =>
    refine .handled ?_
    simp only [SyncManager.handleTx]
    split
    · exact inv
    split
    · exact inv
    · exact inv.serve hlistening.1 rfl
  | handleInv hlistening =>
    obtain ⟨requested, transactions, outbox, heq⟩ := handleInv_eq _
    rw [heq]
    exact inv.serve hlistening.1 rfl
  | add _ hadd =>
    have hevent := addEvent_eq_ok hadd
    split at hevent
    · obtain ⟨chain, accepted, rfl⟩ := hevent
      exact inv
    · obtain ⟨chain, rfl⟩ := hevent
      exact inv
    · obtain ⟨mempool, accepted, rfl⟩ := hevent
      exact inv
  | finish =>
    refine .handled ?_
    unfold SyncManager.finish
    split <;> exact inv
  | disconnect | disconnected => exact inv.update rfl fun _ => rfl
  | drop => exact inv.stop
  | @peerDisconnected peer next hlisted hhandshake _ hstopped =>
    intro q
    obtain ⟨h₁, h₂, h₃⟩ := inv q
    by_cases hq : q = peer
    · subst hq
      refine ⟨fun h => absurd h hstopped, fun h => ?_, fun h => absurd h (Finset.notMem_erase _ _)⟩
      simp [(h₂ h).2.1] at hhandshake
    · have hstate : (m.peerDisconnected peer next).requests q = m.requests q :=
        Function.update_of_ne hq _ _
      rw [hstate]
      exact ⟨fun h => ⟨Finset.mem_erase.2 ⟨hq, (h₁ h).1⟩, (h₁ h).2⟩,
        fun h => ⟨Finset.mem_erase.2 ⟨hq, (h₂ h).1⟩, (h₂ h).2⟩,
        fun h => h₃ (Finset.mem_of_mem_erase h)⟩
  | other => exact inv

/-! ## What one act does to the set -/

/-- A change of a peer's state that is not about its transactions. -/
theorem Shared.update {state : NewPeer.Requests} (hdivided : m.Divided)
    (hstate : state.requestedTransactions = m.owes peer) : (m.update peer state).Divided := by
  have howes : (m.update peer state).owes = m.owes := by
    rw [owes_update, hstate, Function.update_eq_self]
  exact hdivided.congr fun q _ => congrFun howes q

theorem invLoop_divided {items : List Inventory} {gtxids : List GenericTxid}
    (hdivided : m.Divided) (hpeer : peer ∈ m.listed) : (invLoop peer items m gtxids).1.Divided := by
  induction items generalizing m gtxids with
  | nil => exact hdivided
  | cons item items ih =>
    rw [invLoop]
    split
    · exact ih hdivided hpeer
    split
    · exact ih hdivided hpeer
    · rename_i gtxid _ hnew
      refine ih ?_ hpeer
      have htake := hdivided.take hpeer fun h => hnew (.inl h)
      exact htake.congr fun q _ => congrFun owes_update q

theorem handleInv_divided {now : Nat} {items : List Inventory} (hdivided : m.Divided)
    (hpeer : peer ∈ m.listed) : (m.handleInv now peer items).Divided := by
  unfold handleInv
  split
  · exact hdivided
  · have hloop := @invLoop_divided _ peer items [] hdivided hpeer
    dsimp only
    split <;> exact hloop

theorem handleTx_divided {tx : Transaction} (hdivided : m.Divided) (hpeer : peer ∈ m.listed) :
    (m.handleTx env lib peer tx).1.Divided := by
  simp only [handleTx]
  split
  · exact hdivided
  split
  · exact hdivided
  · rename_i howed
    have hrelease := hdivided.release hpeer (not_not.1 howed)
    exact hrelease.congr fun q _ => congrFun owes_update q

theorem handled_divided {result : SyncManager × Except HandleError Unit}
    (hdivided : result.1.Divided) : (handled peer result).Divided := by
  obtain ⟨m', _ | _⟩ := result <;> exact hdivided

/-- Only a peer that is removed while it owes transactions breaks the agreement. -/
theorem Step.divided_iff (h : Step env lib m a m') (inv : m.Orderly) (hdivided : m.Divided) :
    m'.Divided ↔ m.Settled a := by
  cases h with
  | @connect peer hnew =>
    refine iff_of_true ?_ trivial
    have hlisted : peer ∉ m.listed := fun h => hnew ((inv peer).listed h)
    have hfresh : Shared m.requestedTransactions (Function.update m.owes peer ∅) m.listed :=
      hdivided.congr fun q hq => Function.update_of_ne (ne_of_mem_of_not_mem hq hlisted) ∅ m.owes
    exact ((Shared.join_iff (by simp)).2 hfresh).congr fun q _ => congrFun owes_update q
  | handshakeComplete => exact iff_of_true (Shared.update hdivided rfl) trivial
  | @handshakeFailed peer hpeer =>
    obtain ⟨hlisted, -, howes⟩ := (inv peer).handshaking hpeer
    exact iff_of_true ((hdivided.leave_iff hlisted).2 howes) trivial
  | getNextBlocks _ _ hnext =>
    obtain ⟨⟨commonHash, commonHeight, rfl⟩, -⟩ := getNextBlocks_eq_ok hnext
    obtain ⟨resolver, events, hresolve⟩ := @resolve_eq _ _ _
    rw [hresolve]
    exact iff_of_true (Shared.update hdivided rfl) trivial
  | getBlock =>
    obtain ⟨requested, blocks, time, outbox, heq⟩ := getBlock_eq _
    rw [heq]
    exact iff_of_true (Shared.update hdivided rfl) trivial
  | handleBlock hlistening hresult =>
    refine iff_of_true (handled_divided ?_) trivial
    simp only [SyncManager.handleBlock] at hresult
    split at hresult
    · cases hresult
      exact hdivided
    split at hresult
    · cases hresult
    split at hresult
    · cases hresult
    · cases hresult
      exact Shared.update hdivided rfl
  | handleTx hlistening =>
    exact iff_of_true
      (handled_divided (handleTx_divided hdivided ((inv _).running hlistening.1).1)) trivial
  | handleInv hlistening =>
    exact iff_of_true (handleInv_divided hdivided ((inv _).running hlistening.1).1) trivial
  | add _ hadd =>
    refine iff_of_true ?_ trivial
    have hevent := addEvent_eq_ok hadd
    split at hevent
    · obtain ⟨chain, accepted, rfl⟩ := hevent
      exact hdivided
    · obtain ⟨chain, rfl⟩ := hevent
      exact hdivided
    · obtain ⟨mempool, accepted, rfl⟩ := hevent
      exact hdivided
  | finish =>
    refine iff_of_true (handled_divided ?_) trivial
    unfold SyncManager.finish
    split <;> exact hdivided
  | disconnect | disconnected => exact iff_of_true (Shared.update hdivided rfl) trivial
  | drop => exact iff_of_true hdivided trivial
  | @peerDisconnected peer next hlisted =>
    rw [Settled, ← hdivided.leave_iff hlisted]
    have howes : (m.peerDisconnected peer next).owes = m.owes := by
      refine owes_update.trans ?_
      exact Function.update_eq_self peer m.owes
    exact ⟨fun h => h.congr fun q _ => (congrFun howes q).symm,
      fun h => h.congr fun q _ => congrFun howes q⟩
  | other => exact iff_of_true hdivided trivial

/-- Nobody comes to owe what another peer owes. -/
theorem Step.apart (h : Step env lib m a m') (inv : m.Orderly) (hdivided : m.Divided) :
    m'.Apart := by
  by_cases hsettled : m.Settled a
  · exact (SyncManager.divided_iff.1 ((h.divided_iff inv hdivided).2 hsettled)).2
  · cases h with
    | @peerDisconnected peer next =>
      have howes : (m.peerDisconnected peer next).owes = m.owes := by
        refine owes_update.trans ?_
        exact Function.update_eq_self peer m.owes
      intro gtxid p q hp hq hpowes hqowes
      rw [howes] at hpowes hqowes
      exact hdivided.unique (Finset.mem_of_mem_erase hp) (Finset.mem_of_mem_erase hq) hpowes hqowes
    | _ => exact absurd trivial hsettled

/-- What a peer hands over is not asked for any more, unless the pool had it: then it stays
owed. -/
theorem handleTx_requested_iff {tx : Transaction} {gtxid : GenericTxid}
    (hgtxid : (m.requests peer).txRelay.gtxid env lib tx = gtxid)
    (hok : (m.handleTx env lib peer tx).2 = .ok ()) :
    gtxid ∈ (m.handleTx env lib peer tx).1.requestedTransactions
      ↔ m.mempoolHasTx gtxid ∧ gtxid ∈ m.requestedTransactions := by
  subst hgtxid
  simp only [handleTx] at hok ⊢
  split
  · rename_i hhas
    simp [hhas]
  · rename_i hhas
    split
    · rename_i hunrequested
      simp [hhas, hunrequested] at hok
    · simp [hhas, update]

/-! ## Runs -/

/-- In a run of the tasks in any order, the requested transactions are those that connected
peers owe in every state, exactly when every peer that is removed owes none. What a peer hands
over can be asked for again, exactly unless the pool has it while it is owed. -/
theorem requested_owed (chain : Chain) (mempool : Option MemPool) (maxTipAge : Nat)
    {trace : List (Act × SyncManager)}
    (h : Trace (ActStep env lib) (.new chain mempool maxTipAge) trace) :
    ((∀ e ∈ trace, e.2.Owed) ↔ Meets Settled (.new chain mempool maxTipAge) trace)
    ∧ ∀ e ∈ trace, ∀ peer tx gtxid, (e.2.requests peer).txRelay.gtxid env lib tx = gtxid →
      (e.2.handleTx env lib peer tx).2 = .ok () →
      (gtxid ∉ (e.2.handleTx env lib peer tx).1.requestedTransactions
        ↔ ¬ (e.2.mempoolHasTx gtxid ∧ gtxid ∈ e.2.requestedTransactions)) := by
  refine ⟨h.forall_iff (I := fun m => m.Orderly ∧ m.Apart) ?_ ?_ ⟨?_, ?_⟩ ?_,
    fun e _ peer tx gtxid hgtxid hok => not_congr (handleTx_requested_iff hgtxid hok)⟩
  · intro m a m' hact inv howed _
    have hdivided := divided_iff.2 ⟨howed, inv.2⟩
    exact ⟨inv.1.step (act_step hact), (act_step hact).apart inv.1 hdivided⟩
  · intro m a m' hact inv howed
    have hdivided := divided_iff.2 ⟨howed, inv.2⟩
    have hapart := (act_step hact).apart inv.1 hdivided
    rw [← (act_step hact).divided_iff inv.1 hdivided, divided_iff]
    exact (and_iff_left hapart).symm
  · exact fun peer => ⟨nofun, nofun, nofun⟩
  · intro gtxid p q hp
    cases hp
  · simp [Owed, SyncManager.new]

/-- A peer announces a transaction and is about to send it. -/
theorem requested_owed_small : ∃ c trace, ∃ e ∈ trace, e.2.requestedTransactions ≠ ∅
    ∧ ((∀ e ∈ trace, e.2.Owed) ↔ Meets Settled (.new c (some .new) 3600) trace)
    ∧ (⟨Small.env.txid (Small.relayed 2), false⟩
        ∉ (e.2.handleTx Small.env Small.bip152 0 (Small.relayed 2)).1.requestedTransactions
      ↔ ¬ (e.2.mempoolHasTx ⟨Small.env.txid (Small.relayed 2), false⟩
        ∧ ⟨Small.env.txid (Small.relayed 2), false⟩ ∈ e.2.requestedTransactions)) := by
  obtain ⟨c, -, hP⟩ := Chain.exists_reachable Small.env []
    (fun c => ((SyncManager.new c (some .new) 3600).run Small.env Small.bip152
      (Small.relayActs.take 3)).any fun m : SyncManager =>
        decide (m.requestedTransactions ≠ ∅ ∧ (m.requests 0).txRelay = .txid)
          && (m.handleTx Small.env Small.bip152 0 (Small.relayed 2)).2.isOk)
    (by decide) (by decide +kernel)
  obtain ⟨m, hrun, hm⟩ := (Option.any_eq_true _ _).1 hP
  obtain ⟨hstate, hok⟩ := Bool.and_eq_true_iff.1 hm
  obtain ⟨hrequested, hrelay⟩ := of_decide_eq_true hstate
  obtain ⟨trace, htrace, -, hlast⟩ := exists_trace hrun
  obtain ⟨e, he, rfl⟩ := hlast nofun
  have hclaim := requested_owed c (some .new) 3600 htrace
  refine ⟨c, trace, e, he, hrequested, hclaim.1, hclaim.2 e he 0 _ _ (by rw [hrelay]; rfl) ?_⟩
  generalize (e.2.handleTx Small.env Small.bip152 0 (Small.relayed 2)).2 = result at hok
  cases result with
  | ok => rfl
  | error => cases hok

/-- A peer that was asked for a transaction leaves: nobody owes the transaction, and nobody is
asked for it again. -/
theorem disconnected_keeps_request : ∃ c trace,
    Chain.Reachable Small.env c
      ∧ Trace (ActStep Small.env Small.bip152) (.new c (some .new) 3600) trace
      ∧ ¬ ∀ e ∈ trace, e.2.Owed := by
  obtain ⟨c, hc, hP⟩ := Chain.exists_reachable Small.env []
    (fun c => ((SyncManager.new c (some .new) 3600).run Small.env Small.bip152
      (Small.relayActs.take 3 ++ [Act.drop 0, .disconnected 0, .peerDisconnected 0 none])).any
        fun m : SyncManager => decide (m.requestedTransactions ≠ ∅ ∧ m.listed = ∅))
    (by decide) (by decide +kernel)
  obtain ⟨m, hrun, hm⟩ := (Option.any_eq_true _ _).1 hP
  obtain ⟨hrequested, hlisted⟩ := of_decide_eq_true hm
  obtain ⟨trace, htrace, -, hlast⟩ := exists_trace hrun
  obtain ⟨e, he, rfl⟩ := hlast nofun
  refine ⟨c, trace, hc, htrace, fun howed => ?_⟩
  obtain ⟨gtxid, hgtxid⟩ := Finset.nonempty_iff_ne_empty.2 hrequested
  obtain ⟨peer, hpeer, -⟩ := (howed e he gtxid).1 hgtxid
  rw [hlisted] at hpeer
  cases hpeer

end SyncManager

end BitcoinNode
