import BitcoinNode.Library.Shares
import BitcoinNode.Library.System
import BitcoinNode.Net.Requests

/-!
# Blocks in flight

The manager and its peers agree on which block was asked of which peer, whatever the order
in which their tasks take the locks.
-/

namespace BitcoinNode

namespace SyncManager

open Relation

variable {env : Env} {lib : Bip152} {m m' : SyncManager} {peer : PeerId} {hash : BlockHash}
  {now : Nat}

/-! ## The choice of blocks -/

/-- The loop over a path stays within the limit of the peer, and goes on below it. -/
theorem scan_items {endHeight blocksToFetch : Nat} {entries : List ChainEntry} {f : Fetch}
    (h : f.items.length < blocksToFetch) :
    (m.scan peer endHeight blocksToFetch entries f).1.items.length ≤ blocksToFetch
      ∧ ((m.scan peer endHeight blocksToFetch entries f).2 = .next →
        (m.scan peer endHeight blocksToFetch entries f).1.items.length < blocksToFetch) := by
  induction entries generalizing f with
  | nil => exact ⟨h.le, fun _ => h⟩
  | cons entry entries ih =>
    rw [scan]
    split
    · exact ih (by split <;> exact h)
    split
    · exact ⟨h.le, fun _ => h⟩
    split
    · exact ih h
    split
    · exact ih h
    split
    · exact ih h
    split
    · exact ⟨h.le, fun _ => h⟩
    have hone : (if entry.height > endHeight then f
        else { f with items := f.items ++ [entry.hash] }).items.length ≤ blocksToFetch := by
      split
      · exact h.le
      · rw [List.length_append, List.length_singleton]
        omega
    dsimp only
    generalize (if entry.height > endHeight then f
      else { f with items := f.items ++ [entry.hash] }) = f' at hone ⊢
    by_cases hfull : f'.items.length ≥ blocksToFetch
    · rw [if_pos hfull]
      exact ⟨hone, nofun⟩
    · rw [if_neg hfull]
      exact ih (by omega)

theorem walk_items {best walker : ChainEntry} {endHeight maxHeight blocksToFetch fuel : Nat}
    {f f' : Fetch} {returned : Bool} (hf : f.items.length < blocksToFetch)
    (h : m.walk peer best endHeight maxHeight blocksToFetch fuel walker f = .ok (f', returned)) :
    f'.items.length ≤ blocksToFetch := by
  induction fuel generalizing walker f with
  | zero =>
    rw [walk] at h
    split at h <;> cases h
    exact hf.le
  | succ fuel ih =>
    rw [walk] at h
    split at h
    · obtain ⟨entries, -, h⟩ := bind_eq_ok.1 h
      have hscan := @scan_items m peer endHeight blocksToFetch entries f hf
      split at h
      · cases h
        exact hf.le
      · split at h <;> rename_i hresult <;> rw [hresult] at hscan
        · cases h
          exact hscan.1
        · cases h
          exact hscan.1
        · exact ih (hscan.2 rfl) h
    · cases h
      exact hf.le

/-- `get_next_blocks` notes the last common block, and chooses what the limit leaves room for. -/
theorem getNextBlocks_eq_ok {best : ChainEntry}
    {next : Option (List ChainEntry × List BlockHash)} {staller : Option PeerId}
    (h : m.getNextBlocks peer best = .ok (m', next, staller)) :
    (∃ commonHash commonHeight, m' = m.update peer { m.requests peer with
      commonHash := commonHash, commonHeight := commonHeight })
    ∧ ∀ saved items, next = some (saved, items) →
      (m.requests peer).requestedBlocks.keys.card + items.length ≤ MAX_BLOCKS_PER_PEER := by
  unfold getNextBlocks at h
  dsimp only at h
  split at h
  · cases h
    refine ⟨⟨(m.requests peer).commonHash, (m.requests peer).commonHeight, ?_⟩, nofun⟩
    simp [update, Function.update_eq_self]
  · rename_i hroom
    obtain ⟨walker, -, h⟩ := bind_eq_ok.1 h
    obtain ⟨⟨f, returned⟩, hwalk, h⟩ := bind_eq_ok.1 h
    cases h
    refine ⟨⟨_, _, rfl⟩, fun saved items hnext => ?_⟩
    have hitems := walk_items (by exact Nat.pos_of_ne_zero hroom) hwalk
    cases returned with
    | true => cases hnext
    | false =>
      obtain ⟨rfl, rfl⟩ := Prod.mk.inj (Option.some.inj hnext)
      change _ + f.items.length ≤ _
      change f.items.length ≤ _ at hitems
      omega

/-! ## What holds in every state -/

/-- The blocks in flight from a peer. -/
def blocksOf (m : SyncManager) (peer : PeerId) : Finset BlockHash :=
  (m.requests peer).requestedBlocks.keys

/-- The manager and its peers agree on the blocks in flight. -/
structure Consistent (m : SyncManager) : Prop where
  attributed {hash : BlockHash} {peer : PeerId} :
    m.requestedBlocks.lookup hash = some peer ↔ hash ∈ (m.requests peer).requestedBlocks
  notVerifying {hash : BlockHash} : hash ∈ m.requestedBlocks → hash ∉ m.verifying
  bounded (peer : PeerId) :
    (m.requests peer).requestedBlocks.keys.card ≤ MAX_BLOCKS_PER_PEER
  gone {peer : PeerId} {hash : BlockHash} :
    peer ∉ m.listed → m.requestedBlocks.lookup hash ≠ some peer

/-- A peer is asked for blocks when it is listed and has shaken hands, and one that is not
listed any more is marked. -/
structure Tidy (state : NewPeer.Requests) (seen listed handshaking : Prop) : Prop where
  bounded : state.requestedBlocks.keys.card ≤ MAX_BLOCKS_PER_PEER
  asked {hash : BlockHash} :
    hash ∈ state.requestedBlocks → listed ∧ state.handshake = true
  marked : state.handshake = true → ¬ listed → state.disconnected = true
  fresh : ¬ seen ∨ handshaking → state.handshake = false
  connected : handshaking → seen ∧ listed

/-- What the resolver chose fits into the limit of the peer. -/
def Room (m : SyncManager) (peer : PeerId) (items : List BlockHash) : Prop :=
  (m.requests peer).handshake = true ∧ (m.blocksOf peer).card + items.length ≤ MAX_BLOCKS_PER_PEER

/-- The invariant of the tasks that deal with blocks. -/
structure InFlight (m : SyncManager) : Prop where
  leased : Leased m.requestedBlocks m.blocksOf
  notVerifying {hash : BlockHash} : hash ∈ m.requestedBlocks → hash ∉ m.verifying
  tidy (peer : PeerId) :
    Tidy (m.requests peer) (peer ∈ m.seen) (peer ∈ m.listed) (peer ∈ m.handshaking)
  attaching {peer : PeerId} {items : List BlockHash} :
    m.resolver = .attaching peer items → m.Room peer items
  booking {peer : PeerId} {items : List BlockHash} :
    m.resolver = .booking peer items → m.Room peer items

theorem blocksOf_update {state : NewPeer.Requests} :
    (m.update peer state).blocksOf
      = Function.update m.blocksOf peer state.requestedBlocks.keys := by
  funext q
  rw [blocksOf, update_requests, Function.update_apply]
  split <;> rfl

theorem card_blocksOf_update_le {state : NewPeer.Requests}
    (hle : state.requestedBlocks.keys ⊆ m.blocksOf peer) (q : PeerId) :
    ((m.update peer state).blocksOf q).card ≤ (m.blocksOf q).card := by
  rw [blocksOf_update, Function.update_apply]
  split
  · rename_i hq
    subst hq
    exact Finset.card_le_card hle
  · exact le_rfl

/-- A peer that got rid of blocks has no less room. -/
theorem Room.update {state : NewPeer.Requests} {q : PeerId} {items : List BlockHash}
    (h : m.Room q items) (hhandshake : state.handshake = (m.requests peer).handshake)
    (hle : state.requestedBlocks.keys ⊆ m.blocksOf peer) : (m.update peer state).Room q items := by
  have hcard := card_blocksOf_update_le hle q
  refine ⟨?_, by have := h.2; omega⟩
  rw [update_requests]
  split
  · rename_i hq
    subst hq
    exact hhandshake.trans h.1
  · exact h.1

namespace InFlight

variable (inv : m.InFlight)

include inv

theorem consistent : m.Consistent where
  attributed := (inv.leased _ _).trans Finmap.mem_keys
  notVerifying := inv.notVerifying
  bounded peer := (inv.tidy peer).bounded
  gone hlisted hlookup :=
    hlisted ((inv.tidy _).asked (Finmap.mem_keys.1 ((inv.leased _ _).1 hlookup))).1

/-- A change of a peer's state that is not about its blocks. -/
theorem update {state : NewPeer.Requests}
    (hblocks : state.requestedBlocks = (m.requests peer).requestedBlocks)
    (hhandshake : state.handshake = (m.requests peer).handshake)
    (hmark : (m.requests peer).disconnected = true → state.disconnected = true) :
    (m.update peer state).InFlight := by
  have hle : state.requestedBlocks.keys ⊆ m.blocksOf peer := by rw [hblocks]; exact fun _ h => h
  have hsame : (m.update peer state).blocksOf = m.blocksOf := by
    rw [blocksOf_update, hblocks]
    exact Function.update_eq_self peer m.blocksOf
  refine ⟨?_, inv.notVerifying, fun q => ?_, fun h => (inv.attaching h).update hhandshake hle,
    fun h => (inv.booking h).update hhandshake hle⟩
  · rw [hsame]
    exact inv.leased
  · rw [update_requests]
    split
    · rename_i hq
      subst hq
      obtain ⟨h₁, h₂, h₃, h₄, h₅⟩ := inv.tidy q
      rw [← hblocks] at h₁
      rw [← hblocks, ← hhandshake] at h₂
      rw [← hhandshake] at h₃ h₄
      exact ⟨h₁, h₂, fun h hlisted => hmark (h₃ h hlisted), h₄, h₅⟩
    · exact inv.tidy q

/-- Asking a peer for one more block. -/
theorem book (hidle : m.resolver = .idle) (hhandshake : (m.requests peer).handshake = true)
    (hmark : (m.requests peer).disconnected = false) (hnew : hash ∉ m.requestedBlocks)
    (hverifying : hash ∉ m.verifying) (hroom : (m.blocksOf peer).card < MAX_BLOCKS_PER_PEER) :
    (m.book now peer hash).InFlight := by
  have hlisted : peer ∈ m.listed := by
    by_contra hnot
    simp [(inv.tidy peer).marked hhandshake hnot] at hmark
  have hkeys : ((m.requests peer).requestedBlocks.insert hash now).keys
      = insert hash (m.blocksOf peer) := FMap.keys_insert
  refine ⟨?_, fun {x} hx => ?_, fun q => ?_, fun h => ?_, fun h => ?_⟩
  · rw [SyncManager.book, blocksOf_update, hkeys]
    exact inv.leased.insert hnew
  · rcases Finmap.mem_insert.1 hx with rfl | hx
    · exact hverifying
    · exact inv.notVerifying hx
  · rw [SyncManager.book, update_requests]
    split
    · rename_i hq
      subst hq
      obtain ⟨-, -, h₃, h₄, h₅⟩ := inv.tidy q
      refine ⟨?_, fun _ => ⟨hlisted, hhandshake⟩, h₃, h₄, h₅⟩
      rw [hkeys]
      exact (Finset.card_insert_le _ _).trans hroom
    · exact inv.tidy q
  all_goals
    have h' : m.resolver = _ := h
    rw [hidle] at h'
    cases h'

/-- The resolver stands elsewhere, and what it chose fits. -/
theorem withResolver {resolver : Resolver}
    (hattaching : ∀ peer items, resolver = .attaching peer items → m.Room peer items)
    (hbooking : ∀ peer items, resolver = .booking peer items → m.Room peer items) :
    { m with resolver := resolver }.InFlight where
  leased := inv.leased
  notVerifying := inv.notVerifying
  tidy := inv.tidy
  attaching h := hattaching _ _ h
  booking h := hbooking _ _ h

theorem bookLoop {hashes items : List BlockHash} (hidle : m.resolver = .idle)
    (hhandshake : (m.requests peer).handshake = true)
    (hmark : (m.requests peer).disconnected = false)
    (hroom : (m.blocksOf peer).card + hashes.length ≤ MAX_BLOCKS_PER_PEER) :
    (SyncManager.bookLoop now peer hashes m items).1.InFlight := by
  induction hashes generalizing m items with
  | nil => exact inv
  | cons hash hashes ih =>
    rw [List.length_cons] at hroom
    rw [SyncManager.bookLoop]
    split
    · exact ih inv hidle hhandshake hmark (by omega)
    · rename_i hnew
      rw [not_or, not_or] at hnew
      have inv' : (m.book now peer hash).InFlight :=
        inv.book hidle hhandshake hmark hnew.2.1 hnew.1 (by omega)
      have hstate : (m.book now peer hash).requests peer = { m.requests peer with
          requestedBlocks := (m.requests peer).requestedBlocks.insert hash now } :=
        update_requests_self
      refine ih inv' hidle (by rw [hstate, hhandshake]) (by rw [hstate, hmark]) ?_
      have hkeys : (m.book now peer hash).blocksOf peer ⊆ insert hash (m.blocksOf peer) := by
        intro x hx
        rw [blocksOf, hstate] at hx
        simpa [blocksOf, Finmap.mem_keys] using hx
      have hcard := (Finset.card_le_card hkeys).trans (Finset.card_insert_le _ _)
      omega

theorem getBlock {items : List BlockHash} (hidle : m.resolver = .idle)
    (hroom : m.Room peer items) : (m.getBlock now peer items).InFlight := by
  unfold SyncManager.getBlock
  split
  · exact inv
  · rename_i hmark
    have hbooked := @bookLoop m peer now inv items [] hidle hroom.1 (by simpa using hmark) hroom.2
    generalize SyncManager.bookLoop now peer items m [] = result at hbooked ⊢
    obtain ⟨m', items'⟩ := result
    dsimp only
    split
    · exact hbooked
    · exact InFlight.update (m := m'.queueMessage peer _) ⟨hbooked.leased, hbooked.notVerifying,
        hbooked.tidy, hbooked.attaching, hbooked.booking⟩ rfl rfl id

theorem getNextBlocks {best : ChainEntry} {next : Option (List ChainEntry × List BlockHash)}
    {staller : Option PeerId} (hhandshake : (m.requests peer).handshake = true)
    (h : m.getNextBlocks peer best = .ok (m', next, staller)) :
    (m'.resolve peer next).InFlight := by
  obtain ⟨⟨commonHash, commonHeight, rfl⟩, hroom⟩ := getNextBlocks_eq_ok h
  have inv' : (m.update peer { m.requests peer with
      commonHash := commonHash, commonHeight := commonHeight }).InFlight := inv.update rfl rfl id
  have hfits : ∀ saved items, next = some (saved, items) → (m.update peer { m.requests peer with
      commonHash := commonHash, commonHeight := commonHeight }).Room peer items :=
    fun saved items hnext => Room.update ⟨hhandshake, hroom saved items hnext⟩ rfl fun _ h => h
  obtain _ | ⟨_ | ⟨entry, saved⟩, items⟩ := next
  · exact inv'
  · rw [resolve]
    split
    · exact inv'
    · refine inv'.withResolver nofun fun q items' heq => ?_
      cases heq
      exact hfits _ _ rfl
  · have hqueue : ∀ queue, { m.update peer { m.requests peer with
        commonHash := commonHash, commonHeight := commonHeight } with queue := queue }.InFlight :=
      fun _ => ⟨inv'.leased, inv'.notVerifying, inv'.tidy, inv'.attaching, inv'.booking⟩
    have hresolver := @withResolver _ (hqueue (m.queue ++ [.attach entry]))
      (.attaching peer items) (fun q items' heq => by cases heq; exact hfits _ _ rfl) nofun
    exact hresolver

/-- The `unwrap` and the assertion of `handle_block` hold. -/
theorem exists_handleBlock (block : Block) :
    ∃ r, m.handleBlock env now peer block = .ok r := by
  unfold SyncManager.handleBlock
  dsimp only
  split
  · exact ⟨_, rfl⟩
  · rename_i hasked
    have howner := inv.leased.mem_of_mem (o := peer) (Finmap.mem_keys.2 (not_not.1 hasked))
    rw [if_neg (not_not.2 howner), if_neg (inv.notVerifying howner)]
    exact ⟨_, rfl⟩

theorem handleBlock {block : Block} {result : SyncManager × Except HandleError Unit}
    (h : m.handleBlock env now peer block = .ok result) : (handled peer result).InFlight := by
  unfold SyncManager.handleBlock at h
  dsimp only at h
  split at h
  · cases h
    exact ⟨inv.leased, inv.notVerifying, inv.tidy, inv.attaching, inv.booking⟩
  rename_i hasked
  have hmem : env.blockHash block.header ∈ m.blocksOf peer := Finmap.mem_keys.2 (not_not.1 hasked)
  split at h
  · cases h
  split at h
  · cases h
  cases h
  have hle : (((m.requests peer).requestedBlocks.erase (env.blockHash block.header))).keys
      ⊆ m.blocksOf peer := by
    rw [Finmap.keys_erase]
    exact Finset.erase_subset _ _
  refine ⟨?_, fun {hash} hhash => ?_, fun q => ?_, fun h => (inv.attaching h).update rfl hle,
    fun h => (inv.booking h).update rfl hle⟩
  · have hleased := inv.leased.erase hmem
    rw [blocksOf, ← Finmap.keys_erase] at hleased
    rwa [← @blocksOf_update m peer { m.requests peer with
      requestedBlocks := (m.requests peer).requestedBlocks.erase _, blockTime := some now,
      stallingSince := none }] at hleased
  · obtain ⟨hne, hhash⟩ := Finmap.mem_erase.1 hhash
    exact fun hmem => (Finset.mem_insert.1 hmem).elim hne (inv.notVerifying hhash)
  · change Tidy ((m.update peer _).requests q) _ _ _
    rw [update_requests]
    split
    · rename_i hq
      subst hq
      obtain ⟨h₁, h₂, h₃, h₄, h₅⟩ := inv.tidy q
      exact ⟨(Finset.card_le_card hle).trans h₁, fun hx => h₂ (Finmap.mem_erase.1 hx).2, h₃, h₄, h₅⟩
    · exact inv.tidy q

theorem invLoop {items : List Inventory} {gtxids : List GenericTxid} :
    (SyncManager.invLoop peer items m gtxids).1.InFlight := by
  induction items generalizing m gtxids with
  | nil => exact inv
  | cons item items ih =>
    rw [SyncManager.invLoop]
    split
    · exact ih inv
    split
    · exact ih inv
    · have hinv : ∀ gtxids, { m with requestedTransactions := gtxids }.InFlight :=
        fun _ => ⟨inv.leased, inv.notVerifying, inv.tidy, inv.attaching, inv.booking⟩
      refine ih ?_
      exact (hinv _).update rfl rfl id

theorem handleInv {items : List Inventory} : (m.handleInv now peer items).InFlight := by
  unfold SyncManager.handleInv
  split
  · exact inv
  · have hloop : (SyncManager.invLoop peer items m []).1.InFlight := inv.invLoop
    generalize SyncManager.invLoop peer items m [] = result at hloop ⊢
    obtain ⟨m', gtxids⟩ := result
    dsimp only
    split
    · exact hloop
    · exact ⟨hloop.leased, hloop.notVerifying, hloop.tidy, hloop.attaching, hloop.booking⟩

theorem finish : (handled peer (m.finish peer)).InFlight := by
  have hsame : { m with awaiting := Function.update m.awaiting peer none }.InFlight :=
    ⟨inv.leased, inv.notVerifying, inv.tidy, inv.attaching, inv.booking⟩
  unfold SyncManager.finish
  dsimp only
  split
  · exact ⟨inv.leased, fun h hmem => inv.notVerifying h (Finset.mem_of_mem_erase hmem), inv.tidy,
      inv.attaching, inv.booking⟩
  · exact ⟨inv.leased, inv.notVerifying, inv.tidy, inv.attaching, inv.booking⟩
  · exact hsame
  · exact inv

theorem addEvent {event : AddEvent} (h : m.addEvent env now event = .ok m') : m'.InFlight := by
  have hcases := addEvent_eq_ok h
  cases event with
  | addBlock block q =>
    obtain ⟨chain, accepted, rfl⟩ := hcases
    exact ⟨inv.leased, inv.notVerifying, inv.tidy, inv.attaching, inv.booking⟩
  | attach entry =>
    obtain ⟨chain, rfl⟩ := hcases
    refine InFlight.withResolver (m := { m with chain := chain, resolveHeaders := true })
      ⟨inv.leased, inv.notVerifying, inv.tidy, inv.attaching, inv.booking⟩
      (fun q items h => absurd h Resolver.attached_ne_attaching) fun q items h => ?_
    exact (Resolver.attached_eq_booking h).elim inv.attaching inv.booking
  | addTransaction tx q =>
    obtain ⟨mempool, accepted, rfl⟩ := hcases
    exact ⟨inv.leased, inv.notVerifying, inv.tidy, inv.attaching, inv.booking⟩

theorem connect (hnew : peer ∉ m.seen) : ({ m with
    seen := insert peer m.seen
    listed := insert peer m.listed
    handshaking := insert peer m.handshaking }.update peer .new).InFlight := by
  have hfresh := (inv.tidy peer).fresh (.inl hnew)
  have hempty : m.blocksOf peer = ∅ := by
    rw [Finset.eq_empty_iff_forall_notMem]
    intro hash hmem
    have := ((inv.tidy peer).asked (Finmap.mem_keys.1 hmem)).2
    simp [hfresh] at this
  have hroom : ∀ {q items}, m.Room q items → q ≠ peer := by
    rintro q items h rfl
    exact absurd h.1 (by simp [hfresh])
  have hroom' : ∀ {q items}, m.Room q items → (m.update peer .new).Room q items := by
    intro q items h
    have hne := hroom h
    refine ⟨?_, ?_⟩
    · rw [update_requests, if_neg hne]
      exact h.1
    · rw [blocksOf_update, Function.update_of_ne hne]
      exact h.2
  refine ⟨?_, inv.notVerifying, fun q => ?_, fun h => hroom' (inv.attaching h),
    fun h => hroom' (inv.booking h)⟩
  · have hsame : (m.update peer .new).blocksOf = m.blocksOf := by
      rw [blocksOf_update, ← Function.update_eq_self peer m.blocksOf, hempty]
      simp [NewPeer.Requests.new]
    exact (congrArg (Leased m.requestedBlocks) hsame).mpr inv.leased
  · change Tidy ((m.update peer .new).requests q) _ _ _
    rw [update_requests]
    split
    · rename_i hq
      subst hq
      exact ⟨by simp [NewPeer.Requests.new], fun h => absurd h Finmap.notMem_empty, nofun,
        fun _ => rfl, fun _ => ⟨Finset.mem_insert_self _ _, Finset.mem_insert_self _ _⟩⟩
    · rename_i hne
      have hiff : ∀ s : Finset PeerId, q ∈ insert peer s ↔ q ∈ s := by simp [hne]
      change Tidy (m.requests q) (q ∈ insert peer m.seen) (q ∈ insert peer m.listed)
        (q ∈ insert peer m.handshaking)
      rw [hiff, hiff, hiff]
      exact inv.tidy q

theorem handshakeComplete {txRelay : TxRelay} (hpeer : peer ∈ m.handshaking) : ({ m with
    handshaking := m.handshaking.erase peer
    running := insert peer m.running
    headerSyncPeer := m.headerSyncPeer.or (some peer)
    resolveHeaders := true }.update peer
      { m.requests peer with handshake := true, txRelay := txRelay }).InFlight := by
  have hfresh := (inv.tidy peer).fresh (.inr hpeer)
  have hroom : ∀ {q items}, m.Room q items → (m.update peer { m.requests peer with
      handshake := true, txRelay := txRelay }).Room q items := by
    intro q items h
    have hne : q ≠ peer := by
      rintro rfl
      exact absurd h.1 (by simp [hfresh])
    refine ⟨?_, ?_⟩
    · rw [update_requests, if_neg hne]
      exact h.1
    · rw [blocksOf_update, Function.update_of_ne hne]
      exact h.2
  refine ⟨?_, inv.notVerifying, fun q => ?_, fun h => hroom (inv.attaching h),
    fun h => hroom (inv.booking h)⟩
  · have hsame : (m.update peer { m.requests peer with
        handshake := true, txRelay := txRelay }).blocksOf = m.blocksOf := by
      rw [blocksOf_update]
      exact Function.update_eq_self peer m.blocksOf
    exact (congrArg (Leased m.requestedBlocks) hsame).mpr inv.leased
  · change Tidy ((m.update peer _).requests q) (q ∈ m.seen) (q ∈ m.listed)
      (q ∈ m.handshaking.erase peer)
    rw [update_requests]
    split
    · rename_i hq
      subst hq
      obtain ⟨h₁, h₂, -, -, h₅⟩ := inv.tidy q
      obtain ⟨hseen, hlisted⟩ := h₅ hpeer
      refine ⟨h₁, fun h => absurd (h₂ h).2 (by simp [hfresh]), fun _ hnot => absurd hlisted hnot,
        ?_, fun _ => ⟨hseen, hlisted⟩⟩
      rintro (hnot | hmem)
      · exact absurd hseen hnot
      · simp at hmem
    · rename_i hne
      rw [Finset.mem_erase, and_iff_right hne]
      exact inv.tidy q

/-- A peer that failed to shake hands was asked for nothing. -/
theorem handshakeFailed (hpeer : peer ∈ m.handshaking) :
    { m with handshaking := m.handshaking.erase peer, listed := m.listed.erase peer }.InFlight := by
  have hfresh := (inv.tidy peer).fresh (.inr hpeer)
  refine ⟨inv.leased, inv.notVerifying, fun q => ?_, inv.attaching, inv.booking⟩
  change Tidy (m.requests q) (q ∈ m.seen) (q ∈ m.listed.erase peer) (q ∈ m.handshaking.erase peer)
  obtain ⟨h₁, h₂, h₃, h₄, h₅⟩ := inv.tidy q
  by_cases hq : q = peer
  · subst hq
    exact ⟨h₁, fun h => absurd (h₂ h).2 (by simp [hfresh]), fun h => absurd h (by simp [hfresh]),
      fun _ => hfresh, fun h => absurd h (by simp)⟩
  · rw [Finset.mem_erase, Finset.mem_erase, and_iff_right hq, and_iff_right hq]
    exact ⟨h₁, h₂, h₃, h₄, h₅⟩

theorem disconnect : (m.disconnect peer).InFlight := inv.update rfl rfl fun _ => rfl

theorem peerDisconnected {next : Option PeerId}
    (hhandshake : (m.requests peer).handshake = true)
    (hmark : (m.requests peer).disconnected = true) :
    (m.peerDisconnected peer next).InFlight := by
  have hle : (∅ : FMap BlockHash Nat).keys ⊆ m.blocksOf peer := by simp
  refine ⟨?_, fun {hash} hhash => ?_, fun q => ?_, fun h => (inv.attaching h).update rfl hle,
    fun h => (inv.booking h).update rfl hle⟩
  · have hleased := @Leased.eraseKeys _ _ _ _ _ peer _ _ (m.requests peer).requestedBlocks
      inv.leased rfl
    have hown : (m.update peer { m.requests peer with requestedBlocks := ∅ }).blocksOf
        = Function.update m.blocksOf peer ∅ := by
      rw [blocksOf_update, Finmap.keys_empty]
    rw [← hown] at hleased
    exact hleased
  · obtain ⟨q, hq⟩ := Finmap.mem_iff.1 hhash
    exact inv.notVerifying
      (Finmap.mem_of_lookup_eq_some (FMap.lookup_eraseKeys_eq_some.1 hq).2)
  · change Tidy ((m.update peer _).requests q) (q ∈ m.seen) (q ∈ m.listed.erase peer)
      (q ∈ m.handshaking)
    rw [update_requests]
    obtain ⟨h₁, h₂, h₃, h₄, h₅⟩ := inv.tidy q
    split
    · rename_i hq
      subst hq
      exact ⟨by simp, fun h => absurd h Finmap.notMem_empty, fun _ _ => hmark, h₄,
        fun h => absurd hhandshake (by simp [h₄ (.inr h)])⟩
    · rename_i hne
      rw [Finset.mem_erase, and_iff_right hne]
      exact ⟨h₁, h₂, h₃, h₄, h₅⟩

omit inv in
theorem new (chain : Chain) (mempool : Option MemPool) (maxTipAge : Nat) :
    (SyncManager.new chain mempool maxTipAge).InFlight := by
  have hempty : ∀ hash : BlockHash, hash ∉ (∅ : FMap BlockHash Nat) := fun _ => Finmap.notMem_empty
  refine ⟨fun hash q => ?_, fun h => absurd h Finmap.notMem_empty, fun q => ?_, nofun, nofun⟩
  · simp [SyncManager.new, blocksOf, NewPeer.Requests.new]
  · exact ⟨by simp [SyncManager.new, NewPeer.Requests.new], fun h => absurd h (hempty _), nofun,
      fun _ => rfl, fun h => absurd h (Finset.notMem_empty _)⟩

omit inv in
/-- No act but a transaction that is handed over breaks the agreement. -/
theorem step {a : Act} (inv : m.InFlight) (h : Step env lib m a m')
    (ha : ∀ peer tx, a ≠ .handleTx peer tx) : m'.InFlight := by
  cases h with
  | connect hnew => exact inv.connect hnew
  | handshakeComplete hpeer => exact inv.handshakeComplete hpeer
  | handshakeFailed hpeer => exact inv.handshakeFailed hpeer
  | getNextBlocks _ hhandshake hnext => exact inv.getNextBlocks hhandshake hnext
  | getBlock hbooking =>
    have hidle : { m with resolver := Resolver.idle }.InFlight := inv.withResolver nofun nofun
    exact hidle.getBlock rfl (inv.booking hbooking)
  | handleBlock _ hresult => exact inv.handleBlock hresult
  | handleTx => exact absurd rfl (ha _ _)
  | handleInv => exact inv.handleInv
  | add _ hadd =>
    have hqueue : ∀ queue, { m with queue := queue }.InFlight :=
      fun _ => ⟨inv.leased, inv.notVerifying, inv.tidy, inv.attaching, inv.booking⟩
    exact (hqueue _).addEvent hadd
  | finish => exact inv.finish
  | disconnect => exact inv.disconnect
  | drop => exact ⟨inv.leased, inv.notVerifying, inv.tidy, inv.attaching, inv.booking⟩
  | disconnected => exact inv.disconnect
  | peerDisconnected _ hhandshake hmark => exact inv.peerDisconnected hhandshake hmark
  | other => exact ⟨inv.leased, inv.notVerifying, inv.tidy, inv.attaching, inv.booking⟩

end InFlight

/-- A turn of a task other than handing a transaction over. -/
def BlockStep (env : Env) (lib : Bip152) (m m' : SyncManager) : Prop :=
  ∃ a, (∀ peer tx, a ≠ .handleTx peer tx) ∧ m.act env lib a = .ok (some m')

theorem run_blockSteps {acts : List Act}
    (hacts : ∀ a ∈ acts, ∀ peer tx, a ≠ .handleTx peer tx)
    (h : m.run env lib acts = some m') : ReflTransGen (BlockStep env lib) m m' := by
  induction acts generalizing m with
  | nil =>
    cases h
    exact .refl
  | cons a acts ih =>
    rw [run] at h
    obtain ⟨ha, hacts⟩ := List.forall_mem_cons.1 hacts
    split at h
    · rename_i m₁ hact
      exact .head ⟨a, ha, hact⟩ (ih hacts h)
    · cases h

end SyncManager

end BitcoinNode
