import BitcoinNode.Blockchain.AddHeader
import BitcoinNode.Blockchain.Locator

/-!
# Headers from a peer

The loops of `handle_headers` that both peer managers share: the check that the headers are
linked, and the calls of `add_header` for those that are not stored. The calls panic exactly
when the first header that is not stored does not attach to a stored, valid one.
-/

namespace BitcoinNode

/-- How a handler returns early: by `bail!`, because a block was refused, or because the
connection of a peer is closed. -/
inductive HandleError where
  | badHeaderChain | badHeader | sendFailed
  | unrequestedBlock | invalidBlock | unrequestedTransaction
  | invalidCompactBlock | siphashCollision | compactBlockDos | nonFullBlocktxn
  deriving DecidableEq, Repr

inductive Inventory where
  | compactBlock (hash : BlockHash)
  | witnessBlock (hash : BlockHash)
  | block (hash : BlockHash)
  | filteredBlock (hash : BlockHash)
  | witnessFilteredBlock (hash : BlockHash)
  | transaction (txid : Txid)
  | witnessTransaction (txid : Txid)
  | wTx (wtxid : Nat)
  | error
  | unknown (kind : Nat) (hash : Nat)
  deriving DecidableEq, Repr

/-- The messages sent in answer to headers, inventories and compact blocks. -/
inductive NetworkMessage where
  | getHeaders (locator : List BlockHash) (stop : BlockHash)
  | getData (items : List Inventory)
  | getBlockTxn (blockHash : BlockHash) (indexes : List Nat)
  deriving DecidableEq, Repr

/-- What the loop over the headers writes to the state of the peer: at every header, and its
best hash and best height. -/
structure PeerWrites (P : Type) where
  note : BlockHash → P → P
  setBestHash : BlockHash → P → P
  setBestHeight : Nat → P → P

/-- The first loop of `handle_headers`: every header is the parent of the next. -/
def linked (env : Env) : Option BlockHeader → List BlockHeader → Bool
  | _, [] => true
  | last, header :: headers =>
    (match last with
      | none => true
      | some last => header.prevBlockhash == env.blockHash last) && linked env (some header) headers

/-- The second loop of `handle_headers`. The clock is read with the number of headers left. -/
def addHeaders {P : Type} (env : Env) (writes : PeerWrites P) (clock : Nat → Nat) :
    List BlockHeader → Chain → P → Except Panic (Chain × P × Except HandleError Unit)
  | [], c, peer => .ok (c, peer, .ok ())
  | header :: headers, c, peer =>
    let hash := env.blockHash header
    let peer := writes.note hash peer
    if c.db.hasHeader hash then
      addHeaders env writes clock headers c (writes.setBestHash hash peer)
    else do
      let (c, added) ← c.addHeader env (clock headers.length) header
      match added with
      | .error _ => return (c, peer, .error .badHeader)
      | .ok (entry, _) =>
        let peer := writes.setBestHeight entry.height (writes.setBestHash hash peer)
        addHeaders env writes clock headers c peer

/-- The parent of the header is stored and is not marked invalid. -/
def Attaches (c : Chain) (header : BlockHeader) : Prop :=
  header.prevBlockhash ∉ c.db.invalid ∧ (c.db.getEntryByHash header.prevBlockhash).isSome

/-- The first header that is not stored attaches, or fails its proof-of-work check. -/
def FirstAttaches (env : Env) (c : Chain) (headers : List BlockHeader) : Prop :=
  ∀ header ∈ headers.find? fun header => !c.db.hasHeader (env.blockHash header),
    env.validatePow header = true → Attaches c header

namespace Chain

variable {env : Env} {c c' : Chain} {P : Type} {writes : PeerWrites P} {clock : Nat → Nat}
  {peer : P} {header : BlockHeader} {headers : List BlockHeader}

theorem Visited.tail (h : Visited env c) (hmove : Move env c c') : Visited env c' := by
  obtain ⟨c₀, hnew, hrun⟩ := h
  exact ⟨c₀, hnew, hrun.tail hmove⟩

theorem Visited.moves (h : Visited env c) (hmoves : Relation.ReflTransGen (Move env) c c') :
    Visited env c' := by
  induction hmoves with
  | refl => exact h
  | tail _ hmove ih => exact ih.tail hmove

/-- A stored header other than genesis has a stored parent. -/
theorem Inv.parent_of_hasHeader (inv : c.Inv env) (hinj : Function.Injective env.blockHash)
    (h : c.db.hasHeader (env.blockHash header) = true) :
    header.prevBlockhash = env.genesisBlock.header.prevBlockhash
      ∨ c.db.hasHeader header.prevBlockhash = true := by
  obtain ⟨e, he⟩ := Option.isSome_iff_exists.1 h
  have hheader : e.header = header := hinj (inv.tree.header_hash he)
  by_cases hgen : e = env.genesisEntry
  · exact .inl (by rw [← hheader, hgen, Env.genesisEntry_header])
  · obtain ⟨p, hp⟩ := inv.tree.rooted.exists_parent he hgen
    refine .inr (Option.isSome_iff_exists.2 ⟨p, ?_⟩)
    rw [← hheader]
    exact hp

/-- A header that was saved is stored, nothing else changed but the tree. -/
theorem addHeader_ok (inv : c.Inv env) {now : Nat} {r : ChainEntry × ChainEntry}
    (h : c.addHeader env now header = .ok (c', .ok r)) :
    c'.db.hasHeader (env.blockHash header) = true ∧ c'.db.invalid = c.db.invalid := by
  obtain ⟨entry, prev⟩ := r
  obtain ⟨-, hget⟩ := getEntryByHash_addHeader inv h
  rcases addHeader_eq_ok h with ⟨_, hr, -⟩ | ⟨_, _, _, _, hr, -, -, -, -, -, hentry, -, hsave, rfl⟩
  · cases hr
  cases hr
  obtain ⟨mostWork, rfl⟩ := ChainDB.saveEntry_eq_ok inv.idle hsave
  refine ⟨?_, rfl⟩
  rw [ChainDB.hasHeader, hget, if_pos (by rw [hentry]; rfl)]
  rfl

/-- Behind a header that was just saved nothing panics: the headers that follow were not
stored before, so none of them is marked invalid. -/
theorem addHeaders_total (law : env.Lawful) (hinj : Function.Injective env.blockHash)
    {c₀ : Chain} (h₀ : Visited env c₀) (h : Visited env c) (hinvalid : c.db.invalid = c₀.db.invalid)
    {last : BlockHeader} (hlast : c₀.db.hasHeader (env.blockHash last) = false)
    (hstored : c.db.hasHeader (env.blockHash last) = true)
    (hlinked : linked env (some last) headers = true) :
    Total (addHeaders env writes clock headers c peer) := by
  induction headers generalizing c last peer with
  | nil => exact throws_ok
  | cons header headers ih =>
    obtain ⟨hparent, hlinked⟩ := Bool.and_eq_true_iff.1 hlinked
    have hparent : header.prevBlockhash = env.blockHash last := eq_of_beq hparent
    have hfresh : c₀.db.hasHeader (env.blockHash header) = false := by
      rw [← Bool.not_eq_true]
      intro hold
      rcases (h₀.inv law).parent_of_hasHeader hinj hold with hgen | hold
      · exact law.blockHash_ne_zero last (by rw [← hparent, hgen, law.genesis_prev])
      · rw [hparent, hlast] at hold
        cases hold
    have hvalid : ∀ {hash}, c₀.db.hasHeader hash = false → hash ∉ c.db.invalid := by
      intro hash hnot hmem
      obtain ⟨e, he⟩ := h₀.invalid_stored law (hinvalid ▸ hmem)
      simp [ChainDB.hasHeader, he] at hnot
    rw [addHeaders]
    dsimp only
    split
    · rename_i hknown
      exact ih h hinvalid hfresh hknown hlinked
    · rename_i hnew
      refine Throws.bind (fun p hp => ?_) fun result hadd => ?_
      · obtain ⟨-, hbad⟩ := (addHeader_panics_iff law h).1 ⟨p, hp⟩
        rcases hbad with hbad | hbad | hbad
        · rw [hparent] at hbad
          simp [Chain.hasInvalid, ChainDB.hasInvalid, hvalid hfresh, hvalid hlast] at hbad
        · exact hnew hbad
        · rw [hparent] at hbad
          simp [ChainDB.hasHeader, hbad] at hstored
      · obtain ⟨c', added⟩ := result
        cases added with
        | error e => exact throws_pure
        | ok r =>
          obtain ⟨hsaved, hsame⟩ := addHeader_ok (h.inv law) hadd
          exact ih (h.tail (.header hadd)) (hsame.trans hinvalid) hfresh hsaved hlinked

/-- The chain the loop leaves behind is one that calls reach. -/
theorem addHeaders_visited (h : Visited env c) {r : Except HandleError Unit} {peer' : P}
    (hadd : addHeaders env writes clock headers c peer = .ok (c', peer', r)) : Visited env c' := by
  induction headers generalizing c peer with
  | nil =>
    cases hadd
    exact h
  | cons header headers ih =>
    rw [addHeaders] at hadd
    dsimp only at hadd
    split at hadd
    · exact ih h hadd
    · simp only [bind_eq_ok] at hadd
      obtain ⟨⟨c₁, added⟩, hcall, hadd⟩ := hadd
      cases added with
      | error e =>
        cases hadd
        rcases addHeader_eq_ok hcall with ⟨_, -, rfl⟩ | ⟨_, _, _, _, hr, -⟩
        · exact h
        · cases hr
      | ok r => exact ih (h.tail (.header hcall)) hadd

/-- The calls of `add_header` panic exactly when the first header that is not stored passes
its proof-of-work check and does not attach. -/
theorem addHeaders_total_iff (law : env.Lawful) (hinj : Function.Injective env.blockHash)
    (h : Visited env c) {last : Option BlockHeader} (hlinked : linked env last headers = true) :
    (∃ r, addHeaders env writes clock headers c peer = .ok r) ↔ FirstAttaches env c headers := by
  induction headers generalizing last peer with
  | nil => exact ⟨fun _ => by simp [FirstAttaches], fun _ => ⟨_, rfl⟩⟩
  | cons header headers ih =>
    obtain ⟨-, hlinked⟩ := Bool.and_eq_true_iff.1 hlinked
    rw [addHeaders]
    dsimp only
    split
    · rename_i hknown
      rw [ih hlinked, FirstAttaches, FirstAttaches, List.find?_cons_of_neg (by simp [hknown])]
    · rename_i hnew
      have hnew' : c.db.hasHeader (env.blockHash header) = false := by simpa using hnew
      have hvalid : env.blockHash header ∉ c.db.invalid := by
        intro hmem
        obtain ⟨e, he⟩ := h.invalid_stored law hmem
        simp [ChainDB.hasHeader, he] at hnew'
      have hpanics := @addHeader_panics_iff env c law h (clock headers.length) header
      rw [FirstAttaches, List.find?_cons_of_pos (by simp [hnew'])]
      constructor
      · rintro ⟨r, hr⟩ _ ⟨⟩ hpow
        obtain ⟨added, hadd, -⟩ := bind_eq_ok.1 hr
        refine ⟨fun hmem => ?_, Option.isSome_iff_ne_none.2 fun hnone => ?_⟩
        · obtain ⟨p, hp⟩ := hpanics.2
            ⟨hpow, .inl (by simp [Chain.hasInvalid, ChainDB.hasInvalid, hmem])⟩
          cases hadd.symm.trans hp
        · obtain ⟨p, hp⟩ := hpanics.2 ⟨hpow, .inr (.inr hnone)⟩
          cases hadd.symm.trans hp
      · intro hattaches
        have hadd : Total (c.addHeader env (clock headers.length) header) := by
          intro p hp
          obtain ⟨hpow, hbad⟩ := hpanics.1 ⟨p, hp⟩
          obtain ⟨hparent, hsome⟩ := hattaches header rfl hpow
          rcases hbad with hbad | hbad | hbad
          · simp [Chain.hasInvalid, ChainDB.hasInvalid, hvalid, hparent] at hbad
          · exact hnew hbad
          · simp [hbad] at hsome
        refine Total.exists_ok (hadd.bind fun result hok => ?_)
        obtain ⟨c', added⟩ := result
        cases added with
        | error e => exact throws_pure
        | ok r =>
          obtain ⟨hsaved, hsame⟩ := addHeader_ok (h.inv law) hok
          exact addHeaders_total law hinj h (h.tail (.header hok)) hsame hnew' hsaved hlinked

/-- The same of a handler that goes on from the loop without panicking. -/
theorem bind_addHeaders_total_iff {α : Type} {peer : P}
    {rest : Chain × P × Except HandleError Unit → Except Panic α} (law : env.Lawful)
    (hinj : Function.Injective env.blockHash) (h : Visited env c)
    (hlinked : linked env none headers = true)
    (hrest : ∀ c' peer' r, Visited env c' → ∃ a, rest (c', peer', r) = .ok a) :
    (∃ a, (addHeaders env writes clock headers c peer >>= rest) = .ok a)
      ↔ FirstAttaches env c headers := by
  have hloop : (∃ r, addHeaders env writes clock headers c peer = .ok r)
      ↔ FirstAttaches env c headers := addHeaders_total_iff law hinj h hlinked
  rw [← hloop]
  constructor
  · rintro ⟨a, ha⟩
    obtain ⟨added, hadded, -⟩ := bind_eq_ok.1 ha
    exact ⟨added, hadded⟩
  · rintro ⟨⟨c', peer', r⟩, hadded⟩
    rw [bind_of_ok hadded]
    exact hrest c' peer' r (addHeaders_visited h hadded)

end Chain

end BitcoinNode
