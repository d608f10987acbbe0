import BitcoinNode.Net.InFlight

/-!
# What is being verified

A handler puts the hash of a block or a transaction into `verifying` before it waits for the
thread that adds, and only the handler of a block that was accepted takes it out again.
-/

namespace BitcoinNode

/-- The peer whose handler waits for the event. -/
def AddEvent.peer : AddEvent → Option PeerId
  | addBlock _ peer => some peer
  | attach _ => none
  | addTransaction _ peer => some peer

namespace Small

/-- A peer announces a transaction and sends it, and the pool does not take it. -/
def relayActs : List SyncManager.Act :=
  [.connect 0, .handshakeComplete 0 .txid, .handleInv 0 100 [.transaction (env.txid (relayed 2))],
    .handleTx 0 (relayed 2), .add 100, .finish 0]

end Small

namespace SyncManager

variable {env : Env} {lib : Bip152} {m m' : SyncManager} {peer : PeerId} {hash : Nat} {a : Act}

/-- The event that a handler has sent is in the queue. -/
def Queued (env : Env) (lib : Bip152) (m : SyncManager) (peer : PeerId) : Awaiting → Prop
  | .block hash _ => ∃ block, env.blockHash block.header = hash ∧ .addBlock block peer ∈ m.queue
  | .transaction gtxid _ =>
    ∃ tx relay, TxRelay.gtxid env lib relay tx = gtxid ∧ .addTransaction tx peer ∈ m.queue

/-- Everything that is being verified is so for a handler that has not finished: its event is
queued, or the answer is there and the handler is about to take it. -/
def Owned (env : Env) (lib : Bip152) (m : SyncManager) : Prop :=
  ∀ hash ∈ m.verifying, ∃ peer waiting, m.awaiting peer = some waiting ∧ waiting.hash = hash
    ∧ (waiting.answered = true ∨ m.Queued env lib peer waiting)

/-- A handler that waits other than the one of the peer keeps the hash. -/
def KeptByOther (m : SyncManager) (peer : PeerId) (hash : Nat) : Prop :=
  hash ∉ m.verifying ∨ ∃ q waiting, q ≠ peer ∧ m.awaiting q = some waiting ∧ waiting.hash = hash

/-- No handler that ends leaves a hash behind: one that finishes is that of a block the chain
accepted, and one that is dropped was not waiting. -/
def Clean (m : SyncManager) : Act → Prop
  | .finish peer => ∀ waiting, m.awaiting peer = some waiting →
    waiting = .block waiting.hash (some true) ∨ m.KeptByOther peer waiting.hash
  | .drop peer => ∀ waiting, m.awaiting peer = some waiting → m.KeptByOther peer waiting.hash
  | _ => True

/-- Events are queued for the handlers that wait, and these are handlers of running peers. -/
structure Waiting (env : Env) (lib : Bip152) (m : SyncManager) : Prop where
  queued {peer : PeerId} {waiting : Awaiting} : m.awaiting peer = some waiting →
    waiting.answered = false → m.Queued env lib peer waiting
  running {peer : PeerId} : m.awaiting peer ≠ none → peer ∈ m.running

/-- With events queued for the handlers, it is enough that one waits. -/
theorem Waiting.owned_iff (inv : m.Waiting env lib) : m.Owned env lib ↔
    ∀ hash ∈ m.verifying, ∃ peer waiting, m.awaiting peer = some waiting ∧ waiting.hash = hash := by
  refine forall₂_congr fun hash _ => exists₂_congr fun peer waiting => ?_
  constructor
  · rintro ⟨hwaiting, hhash, -⟩
    exact ⟨hwaiting, hhash⟩
  · rintro ⟨hwaiting, hhash⟩
    refine ⟨hwaiting, hhash, ?_⟩
    cases hanswered : waiting.answered with
    | true => exact .inl rfl
    | false => exact .inr (inv.queued hwaiting hanswered)

/-! ## One step -/

/-- What is queued for the peer stays queued, and the peer stays running. -/
def Keeps (m m' : SyncManager) (peer : PeerId) : Prop :=
  (∀ event ∈ m.queue, event.peer = some peer → event ∈ m'.queue)
    ∧ (peer ∈ m.running → peer ∈ m'.running)

theorem Queued.mono {waiting : Awaiting} (h : m.Queued env lib peer waiting)
    (hkeeps : m.Keeps m' peer) : m'.Queued env lib peer waiting := by
  cases waiting with
  | block hash accepted =>
    obtain ⟨block, hblock, hmem⟩ := h
    exact ⟨block, hblock, hkeeps.1 _ hmem rfl⟩
  | transaction gtxid accepted =>
    obtain ⟨tx, relay, htx, hmem⟩ := h
    exact ⟨tx, relay, htx, hkeeps.1 _ hmem rfl⟩

/-- What an act does to the handlers that wait and to what is being verified. -/
inductive Effect (env : Env) (lib : Bip152) (m m' : SyncManager) : Act → Prop where
  | same {a : Act} : m'.verifying = m.verifying → m'.awaiting = m.awaiting →
      (∀ q, m.Keeps m' q) → m.Clean a → Effect env lib m m' a
  | start {a : Act} {peer : PeerId} {waiting : Awaiting} : m.Listening peer →
      m'.verifying = insert waiting.hash m.verifying →
      m'.awaiting = Function.update m.awaiting peer (some waiting) → (∀ q, m.Keeps m' q) →
      m'.Queued env lib peer waiting → m.Clean a → Effect env lib m m' a
  | answer {a : Act} {peer : PeerId} {accepted : Bool} : m'.verifying = m.verifying →
      m'.awaiting = Function.update m.awaiting peer
        ((m.awaiting peer).map (Awaiting.answer accepted)) →
      (∀ q, q ≠ peer → m.Keeps m' q) → m'.running = m.running → m.Clean a → Effect env lib m m' a
  | accept {a : Act} {peer : PeerId} {hash : BlockHash} {accepted : Option Bool} :
      m.awaiting peer = some (.block hash accepted) → m'.verifying = m.verifying.erase hash →
      m'.awaiting = Function.update m.awaiting peer none → (∀ q, q ≠ peer → m.Keeps m' q) →
      m.Clean a → Effect env lib m m' a
  | leave {a : Act} {peer : PeerId} : m'.verifying = m.verifying →
      m'.awaiting = Function.update m.awaiting peer none → (∀ q, q ≠ peer → m.Keeps m' q) →
      (m.Clean a ↔ ∀ waiting, m.awaiting peer = some waiting → m.KeptByOther peer waiting.hash) →
      Effect env lib m m' a

/-- Events stay queued for the handlers that wait. -/
theorem Effect.waiting (h : Effect env lib m m' a) (inv : m.Waiting env lib) :
    m'.Waiting env lib := by
  cases h with
  | same hverifying hawaiting hkeeps =>
    refine ⟨fun {q w} hw hanswered => ?_, fun {q} hw => ?_⟩ <;> rw [hawaiting] at hw
    · exact (inv.queued hw hanswered).mono (hkeeps q)
    · exact (hkeeps q).2 (inv.running hw)
  | @start peer waiting hlistening hverifying hawaiting hkeeps hqueued =>
    refine ⟨fun {q w} hw hanswered => ?_, fun {q} hw => ?_⟩ <;>
      rw [hawaiting, Function.update_apply] at hw <;> split at hw <;> rename_i hq
    · obtain rfl := Option.some.inj hw
      exact hq ▸ hqueued
    · exact (inv.queued hw hanswered).mono (hkeeps q)
    · exact (hkeeps q).2 (hq ▸ hlistening.1)
    · exact (hkeeps q).2 (inv.running hw)
  | @answer peer accepted hverifying hawaiting hkeeps hrunning =>
    refine ⟨fun {q w} hw hanswered => ?_, fun {q} hw => ?_⟩ <;>
      rw [hawaiting, Function.update_apply] at hw <;> split at hw <;> rename_i hq
    · obtain ⟨w', -, rfl⟩ := Option.map_eq_some_iff.1 hw
      cases w' <;> simp [Awaiting.answer, Awaiting.answered] at hanswered
    · exact (inv.queued hw hanswered).mono (hkeeps q hq)
    · rw [hrunning, hq]
      exact inv.running fun hnone => hw (by rw [hnone]; rfl)
    · exact (hkeeps q hq).2 (inv.running hw)
  | @accept peer hash accepted _ hverifying hawaiting hkeeps
  | @leave peer hverifying hawaiting hkeeps =>
    refine ⟨fun {q w} hw hanswered => ?_, fun {q} hw => ?_⟩ <;>
      rw [hawaiting, Function.update_apply] at hw <;> split at hw <;> rename_i hq
    · cases hw
    · exact (inv.queued hw hanswered).mono (hkeeps q hq)
    · exact absurd rfl hw
    · exact (hkeeps q hq).2 (inv.running hw)

/-- A hash is left behind exactly by an act that is not clean. -/
theorem Effect.owned_iff (h : Effect env lib m m' a) (inv : m.Waiting env lib)
    (howned : m.Owned env lib) : m'.Owned env lib ↔ m.Clean a := by
  rw [(h.waiting inv).owned_iff]
  rw [inv.owned_iff] at howned
  cases h with
  | same hverifying hawaiting hkeeps hclean =>
    rw [hverifying, hawaiting]
    exact iff_of_true howned hclean
  | @start peer waiting hlistening hverifying hawaiting hkeeps hqueued hclean =>
    refine iff_of_true (fun hash hmem => ?_) hclean
    rw [hverifying, Finset.mem_insert] at hmem
    rw [hawaiting]
    rcases hmem with rfl | hmem
    · exact ⟨peer, waiting, by simp, rfl⟩
    · obtain ⟨q, w, hw, hhash⟩ := howned hash hmem
      have hq : q ≠ peer := by
        rintro rfl
        simp [hlistening.2] at hw
      exact ⟨q, w, by rwa [Function.update_of_ne hq], hhash⟩
  | @answer peer accepted hverifying hawaiting hkeeps hrunning hclean =>
    refine iff_of_true (fun hash hmem => ?_) hclean
    rw [hverifying] at hmem
    rw [hawaiting]
    obtain ⟨q, w, hw, hhash⟩ := howned hash hmem
    by_cases hq : q = peer
    · subst hq
      refine ⟨q, w.answer accepted, by simp [hw], ?_⟩
      cases w <;> exact hhash
    · exact ⟨q, w, by rwa [Function.update_of_ne hq], hhash⟩
  | @accept peer hash accepted hawaits hverifying hawaiting hkeeps hclean =>
    refine iff_of_true (fun hash' hmem => ?_) hclean
    rw [hverifying, Finset.mem_erase] at hmem
    rw [hawaiting]
    obtain ⟨q, w, hw, hhash⟩ := howned hash' hmem.2
    have hq : q ≠ peer := by
      rintro rfl
      obtain rfl := Option.some.inj (hawaits.symm.trans hw)
      exact hmem.1 hhash.symm
    exact ⟨q, w, by rwa [Function.update_of_ne hq], hhash⟩
  | @leave peer hverifying hawaiting hkeeps hclean =>
    rw [hclean, hverifying, hawaiting]
    constructor
    · intro h waiting hwaiting
      by_cases hmem : waiting.hash ∈ m.verifying
      · obtain ⟨q, w, hw, hhash⟩ := h _ hmem
        have hq : q ≠ peer := by
          rintro rfl
          simp at hw
        exact .inr ⟨q, w, hq, by rwa [Function.update_of_ne hq] at hw, hhash⟩
      · exact .inl hmem
    · intro h hash hmem
      obtain ⟨q, w, hw, hhash⟩ := howned hash hmem
      by_cases hq : q = peer
      · subst hq
        rcases h w hw with hnot | ⟨q', w', hq', hw', hhash'⟩
        · exact absurd (hhash ▸ hmem) hnot
        · exact ⟨q', w', by rwa [Function.update_of_ne hq'], hhash'.trans hhash⟩
      · exact ⟨q, w, by rwa [Function.update_of_ne hq], hhash⟩

theorem Keeps.refl : m.Keeps m peer := ⟨fun _ h _ => h, id⟩

/-- A peer with the same queue and the same running peers keeps everything. -/
theorem Keeps.of_eq (hqueue : m'.queue = m.queue) (hrunning : m'.running = m.running) :
    m.Keeps m' peer := ⟨fun _ h _ => hqueue ▸ h, fun h => hrunning ▸ h⟩

/-- Stopping the loop of a peer leaves what its handler verifies, unless another one keeps it. -/
theorem Effect.stop (hclean : m.Clean a ↔
      ∀ waiting, m.awaiting peer = some waiting → m.KeptByOther peer waiting.hash) :
    Effect env lib m (m.stop peer) a :=
  .leave rfl rfl (fun _ hq => ⟨fun _ h _ => h, fun h => Finset.mem_erase.2 ⟨hq, h⟩⟩) hclean

/-- Choosing blocks changes the state of the peer and the resolver, and may queue an event. -/
theorem resolve_eq {next : Option (List ChainEntry × List BlockHash)} :
    ∃ resolver events, m.resolve peer next
      = { m with resolver := resolver, queue := m.queue ++ events } := by
  unfold resolve
  split
  · exact ⟨m.resolver, [], by simp⟩
  · rename_i entry _ items
    exact ⟨.attaching peer items, [.attach entry], rfl⟩
  · split
    · exact ⟨m.resolver, [], by simp⟩
    · rename_i items _
      exact ⟨.booking peer items, [], by simp⟩

theorem handleBlock_effect {now : Nat} {block : Block}
    {result : SyncManager × Except HandleError Unit} (hlistening : m.Listening peer)
    (h : m.handleBlock env now peer block = .ok result) :
    Effect env lib m (handled peer result) (.handleBlock peer now block) := by
  simp only [handleBlock] at h
  split at h
  · cases h
    exact .stop (iff_of_true trivial (by simp [hlistening.2]))
  split at h
  · cases h
  split at h
  · cases h
  · cases h
    refine .start hlistening rfl rfl (fun q => ⟨fun _ hevent _ => ?_, id⟩) ?_ trivial
    · exact List.mem_append_left _ hevent
    · exact ⟨block, rfl, by simp [handled, update]⟩

theorem handleTx_effect {tx : Transaction} (hlistening : m.Listening peer) :
    Effect env lib m (handled peer (m.handleTx env lib peer tx)) (.handleTx peer tx) := by
  simp only [handleTx]
  split
  · exact .same rfl rfl (fun _ => .refl) trivial
  split
  · exact .stop (iff_of_true trivial (by simp [hlistening.2]))
  · refine .start hlistening rfl rfl (fun q => ⟨fun _ hevent _ => ?_, id⟩) ?_ trivial
    · exact List.mem_append_left _ hevent
    · exact ⟨tx, _, rfl, by simp [handled, update]⟩

theorem finish_effect {waiting : Awaiting} (hwaiting : m.awaiting peer = some waiting)
    (hanswered : waiting.answered = true) :
    Effect env lib m (handled peer (m.finish peer)) (.finish peer) := by
  have hclean (hnot : waiting ≠ .block waiting.hash (some true)) : m.Clean (.finish peer) ↔
      ∀ waiting, m.awaiting peer = some waiting → m.KeptByOther peer waiting.hash := by
    simp [Clean, hwaiting, hnot]
  cases waiting with
  | block hash accepted =>
    match accepted, hanswered with
    | some true, _ =>
      simp only [finish, hwaiting, handled]
      refine .accept hwaiting rfl rfl (fun q _ => .of_eq rfl rfl) fun w hw => ?_
      obtain rfl := Option.some.inj (hwaiting.symm.trans hw)
      exact .inl rfl
    | some false, _ =>
      simp only [finish, hwaiting, handled]
      refine .leave rfl (by simp [SyncManager.stop]) (fun q hq => ?_)
        (hclean (by simp [Awaiting.hash]))
      exact ⟨fun _ h _ => h, fun h => Finset.mem_erase.2 ⟨hq, h⟩⟩
  | transaction gtxid accepted =>
    match accepted, hanswered with
    | some accepted, _ =>
      simp only [finish, hwaiting, handled]
      exact .leave rfl rfl (fun q _ => .of_eq rfl rfl) (hclean (by simp))

theorem add_effect {now : Nat} {event : AddEvent} {queue : List AddEvent}
    (hqueue : m.queue = event :: queue)
    (h : { m with queue := queue }.addEvent env now event = .ok m') :
    Effect env lib m m' (.add now) := by
  have hothers {q : PeerId} (hq : event.peer ≠ some q) :
      m.Keeps { m with queue := queue } q := by
    refine ⟨fun e he hpeer => ?_, id⟩
    rw [hqueue, List.mem_cons] at he
    rcases he with rfl | he
    · exact absurd hpeer hq
    · exact he
  have hevent := addEvent_eq_ok h
  cases event with
  | addBlock block peer =>
    obtain ⟨chain, accepted, rfl⟩ := hevent
    exact .answer rfl rfl (fun q hq => hothers fun h => hq (Option.some.inj h).symm) rfl trivial
  | attach entry =>
    obtain ⟨chain, rfl⟩ := hevent
    exact .same rfl rfl (fun q => hothers nofun) trivial
  | addTransaction tx peer =>
    obtain ⟨mempool, accepted, rfl⟩ := hevent
    exact .answer rfl rfl (fun q hq => hothers fun h => hq (Option.some.inj h).symm) rfl trivial

/-- Every act has one of the effects. -/
theorem Step.effect (h : Step env lib m a m') : Effect env lib m m' a := by
  cases h with
  | connect => exact .same rfl rfl (fun _ => .of_eq rfl rfl) trivial
  | handshakeComplete =>
    exact .same rfl rfl (fun _ => ⟨fun _ h _ => h, Finset.mem_insert_of_mem⟩) trivial
  | handshakeFailed => exact .same rfl rfl (fun _ => .of_eq rfl rfl) trivial
  | getNextBlocks _ _ hnext =>
    obtain ⟨⟨commonHash, commonHeight, rfl⟩, -⟩ := getNextBlocks_eq_ok hnext
    obtain ⟨resolver, events, hresolve⟩ := @resolve_eq _ _ _
    rw [hresolve]
    exact .same rfl rfl (fun _ => ⟨fun _ h _ => List.mem_append_left _ h, id⟩) trivial
  | getBlock =>
    obtain ⟨requested, blocks, time, outbox, heq⟩ := getBlock_eq _
    rw [heq]
    exact .same rfl rfl (fun _ => .of_eq rfl rfl) trivial
  | handleBlock hlistening hresult => exact handleBlock_effect hlistening hresult
  | handleTx hlistening => exact handleTx_effect hlistening
  | handleInv =>
    obtain ⟨requested, transactions, outbox, heq⟩ := handleInv_eq _
    rw [heq]
    exact .same rfl rfl (fun _ => .of_eq rfl rfl) trivial
  | add hqueue hadd => exact add_effect hqueue hadd
  | finish hwaiting hanswered => exact finish_effect hwaiting hanswered
  | disconnect | disconnected => exact .same rfl rfl (fun _ => .of_eq rfl rfl) trivial
  | drop => exact .stop Iff.rfl
  | peerDisconnected => exact .same rfl rfl (fun _ => .of_eq rfl rfl) trivial
  | other => exact .same rfl rfl (fun _ => .of_eq rfl rfl) trivial

theorem Waiting.new (chain : Chain) (mempool : Option MemPool) (maxTipAge : Nat) :
    (SyncManager.new chain mempool maxTipAge).Waiting env lib :=
  ⟨nofun, fun h => absurd rfl h⟩

/-- The steps of a run of acts. -/
abbrev ActStep (env : Env) (lib : Bip152) (m : SyncManager) (a : Act) (m' : SyncManager) : Prop :=
  m.act env lib a = .ok (some m')

/-- In a run of the tasks in any order, everything that is being verified is so for a handler
that has not finished in every state, exactly when every act of the run is clean. -/
theorem verifying_owned (chain : Chain) (mempool : Option MemPool) (maxTipAge : Nat)
    {trace : List (Act × SyncManager)}
    (h : Trace (ActStep env lib) (.new chain mempool maxTipAge) trace) :
    (∀ e ∈ trace, e.2.Owned env lib) ↔ Meets Clean (.new chain mempool maxTipAge) trace := by
  refine h.forall_iff (I := Waiting env lib) ?_ ?_ (.new chain mempool maxTipAge) ?_
  · intro m a m' hstep inv _ _
    exact (act_step hstep).effect.waiting inv
  · intro m a m' hstep inv howned
    exact (act_step hstep).effect.owned_iff inv howned
  · exact fun hash hmem => absurd hmem (Finset.notMem_empty hash)

theorem run_invariant {I : SyncManager → Prop}
    (hI : ∀ m a m', m.act env lib a = .ok (some m') → I m → I m') {acts : List Act}
    (h : m.run env lib acts = some m') (hm : I m) : I m' := by
  induction acts generalizing m with
  | nil => exact Option.some.inj h ▸ hm
  | cons a acts ih =>
    rw [run] at h
    split at h
    · rename_i m₁ hact
      exact ih h (hI m a m₁ hact hm)
    · cases h

/-- A run has its states. -/
theorem exists_trace {acts : List Act} (h : m.run env lib acts = some m') :
    ∃ trace, Trace (ActStep env lib) m trace ∧ trace.map Prod.fst = acts
      ∧ (acts ≠ [] → ∃ e ∈ trace, e.2 = m') := by
  induction acts generalizing m with
  | nil => exact ⟨[], .nil, rfl, fun h => absurd rfl h⟩
  | cons a acts ih =>
    rw [run] at h
    split at h
    · rename_i m₁ hact
      obtain ⟨trace, htrace, hacts, hlast⟩ := ih h
      refine ⟨(a, m₁) :: trace, .cons hact htrace, by rw [List.map_cons, hacts], fun _ => ?_⟩
      by_cases hnil : acts = []
      · subst hnil
        exact ⟨_, List.mem_cons_self, Option.some.inj h⟩
      · obtain ⟨e, he, heq⟩ := hlast hnil
        exact ⟨e, List.mem_cons_of_mem _ he, heq⟩
    · cases h

/-- A peer announces a transaction and sends it. -/
theorem verifying_owned_small : ∃ c trace,
    (∃ e ∈ trace, e.2.verifying ≠ ∅)
      ∧ ((∀ e ∈ trace, e.2.Owned Small.env Small.bip152)
        ↔ Meets Clean (.new c (some .new) 3600) trace) := by
  obtain ⟨c, -, hP⟩ := Chain.exists_reachable Small.env []
    (fun c => ((SyncManager.new c (some .new) 3600).run Small.env Small.bip152
      (Small.relayActs.take 4)).any fun m : SyncManager => decide (m.verifying ≠ ∅))
    (by decide) (by decide +kernel)
  obtain ⟨m, hrun, hm⟩ := (Option.any_eq_true _ _).1 hP
  obtain ⟨trace, htrace, -, hlast⟩ := exists_trace hrun
  obtain ⟨e, he, rfl⟩ := hlast nofun
  exact ⟨c, trace, ⟨e, he, of_decide_eq_true hm⟩, verifying_owned c (some .new) 3600 htrace⟩

/-- The transaction is rejected, its handler ends, and nothing takes the hash out. -/
theorem rejected_stays_verifying : ∃ c trace,
    Chain.Reachable Small.env c
      ∧ Trace (ActStep Small.env Small.bip152) (.new c (some .new) 3600) trace
      ∧ ¬ ∀ e ∈ trace, e.2.Owned Small.env Small.bip152 := by
  obtain ⟨c, hc, hP⟩ := Chain.exists_reachable Small.env []
    (fun c => ((SyncManager.new c (some .new) 3600).run Small.env Small.bip152
      Small.relayActs).any fun m : SyncManager =>
        decide (Small.env.txid (Small.relayed 2) ∈ m.verifying ∧ m.awaiting 0 = none
          ∧ m.running ⊆ {0}))
    (by decide) (by decide +kernel)
  obtain ⟨m, hrun, hm⟩ := (Option.any_eq_true _ _).1 hP
  obtain ⟨hverifying, hidle, hrunning⟩ := of_decide_eq_true hm
  obtain ⟨trace, htrace, -, hlast⟩ := exists_trace hrun
  obtain ⟨e, he, rfl⟩ := hlast nofun
  refine ⟨c, trace, hc, htrace, fun howned => ?_⟩
  obtain ⟨peer, waiting, hwaiting, -⟩ := howned e he _ hverifying
  have inv : e.2.Waiting Small.env Small.bip152 :=
    run_invariant (fun _ _ _ hact hm => (act_step hact).effect.waiting hm) hrun (.new ..)
  have hpeer : peer = 0 := Finset.mem_singleton.1 (hrunning (inv.running (by simp [hwaiting])))
  simp [← hpeer, hwaiting] at hidle

end SyncManager

end BitcoinNode
