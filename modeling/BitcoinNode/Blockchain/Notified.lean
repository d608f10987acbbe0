import BitcoinNode.Blockchain.Replay

/-!
# What the listeners of a chain are told

Every block is connected on the tip and only the tip is disconnected. The blocks connected
and not disconnected are those of the main chain, each with the view it was connected with
last.
-/

namespace BitcoinNode

/-- A connected block, with the view it was connected with. -/
structure Link where
  entry : ChainEntry
  block : Block
  view : CoinView

namespace Chain

/-- The blocks connected and not disconnected, with their views. -/
def linksOf (log : List Notification) : List Link :=
  log.foldl (fun links notification =>
    match notification with
    | .connect _ entry block view => links ++ [⟨entry, block, view⟩]
    | .disconnect _ _ _ _ => links.dropLast) []

@[simp] theorem linksOf_nil : linksOf [] = [] := rfl

@[simp] theorem linksOf_connect (log : List Notification) (s : Snapshot) (e : ChainEntry)
    (b : Block) (v : CoinView) :
    linksOf (log ++ [Notification.connect s e b v]) = linksOf log ++ [⟨e, b, v⟩] := by
  simp [linksOf]

@[simp] theorem linksOf_disconnect (log : List Notification) (s : Snapshot) (e : ChainEntry)
    (b : Block) (v : CoinView) :
    linksOf (log ++ [Notification.disconnect s e b v]) = (linksOf log).dropLast := by
  simp [linksOf]

theorem mem_of_mem_linksOf {log : List Notification} {link : Link} (h : link ∈ linksOf log) :
    ∃ s, .connect s link.entry link.block link.view ∈ log := by
  induction log using List.reverseRecOn with
  | nil => simp at h
  | append_singleton log notification ih =>
    cases notification with
    | connect s e b v =>
      rw [linksOf_connect] at h
      rcases List.mem_append.1 h with h | h
      · obtain ⟨s', hs'⟩ := ih h
        exact ⟨s', List.mem_append_left _ hs'⟩
      · obtain rfl := List.mem_singleton.1 h
        exact ⟨s, by simp⟩
    | disconnect s e b v =>
      rw [linksOf_disconnect] at h
      obtain ⟨s', hs'⟩ := ih (List.mem_of_mem_dropLast h)
      exact ⟨s', List.mem_append_left _ hs'⟩

end Chain

namespace ChainDB

open Chain

/-- The blocks of a branch above its root, in order, stored with their entries. -/
inductive Branch (db : ChainDB) (root : ChainEntry) : List Link → ChainEntry → Prop where
  | root : Branch db root [] root
  | child {links : List Link} {e p : ChainEntry} {b : Block} {v : CoinView} :
      Branch db root links p → db.getEntryByHash e.hash = some e → db.getBlock e.hash = some b →
      e.prevBlock = p.hash → Branch db root (links ++ [⟨e, b, v⟩]) e

/-- What listeners are told on the way from the root to a tip. -/
inductive Told (db : ChainDB) (root : ChainEntry) : List Notification → ChainEntry → Prop where
  | start : Told db root [] root
  | connect {log : List Notification} {s : Snapshot} {e tip : ChainEntry} {b : Block}
      {v : CoinView} : Told db root log tip → db.getEntryByHash e.hash = some e →
      db.getBlock e.hash = some b → e.prevBlock = tip.hash →
      Told db root (log ++ [.connect s e b v]) e
  | disconnect {log : List Notification} {s : Snapshot} {e p : ChainEntry} {b : Block}
      {v : CoinView} : Told db root log e → e ≠ root → db.getBlock e.hash = some b →
      db.getEntryByHash e.prevBlock = some p → Told db root (log ++ [.disconnect s e b v]) p

variable {env : Env} {db db' : ChainDB} {root tip : ChainEntry} {log : List Notification}
  {links : List Link}

theorem Told.mono (h : Told db root log tip)
    (hentries : ∀ hash e, db.getEntryByHash hash = some e → db'.getEntryByHash hash = some e)
    (hblocks : ∀ hash b, db.getBlock hash = some b → db'.getBlock hash = some b) :
    Told db' root log tip := by
  induction h with
  | start => exact .start
  | connect _ he hb hprev ih => exact .connect ih (hentries _ _ he) (hblocks _ _ hb) hprev
  | disconnect _ hne hb hp ih => exact .disconnect ih hne (hblocks _ _ hb) (hentries _ _ hp)

theorem Told.of_append {log' : List Notification} (h : Told db root (log ++ log') tip) :
    ∃ tip', Told db root log tip' := by
  induction log' using List.reverseRecOn generalizing tip with
  | nil => exact ⟨tip, by simpa using h⟩
  | append_singleton log' n ih =>
    rw [← List.append_assoc] at h
    generalize hlog : log ++ log' ++ [n] = whole at h
    cases h with
    | start => simp at hlog
    | connect hbefore _ _ _ =>
      obtain ⟨rfl, -⟩ := List.append_inj' hlog rfl
      exact ih hbefore
    | disconnect hbefore _ _ _ =>
      obtain ⟨rfl, -⟩ := List.append_inj' hlog rfl
      exact ih hbefore

namespace Branch

theorem tip_stored (h : Branch db root links tip)
    (hroot : db.getEntryByHash root.hash = some root) : db.getEntryByHash tip.hash = some tip := by
  cases h with
  | root => exact hroot
  | child _ he _ _ => exact he

/-- The last block of a branch that is not its root. -/
theorem exists_last (h : Branch db root links tip)
    (hroot : db.getEntryByHash root.hash = some root) (hne : tip ≠ root) :
    ∃ rest b v p, links = rest ++ [⟨tip, b, v⟩] ∧ db.getBlock tip.hash = some b
      ∧ db.getEntryByHash tip.prevBlock = some p ∧ Branch db root rest p := by
  cases h with
  | root => exact absurd rfl hne
  | child hrest _ hb hprev =>
    exact ⟨_, _, _, _, rfl, hb, hprev ▸ hrest.tip_stored hroot, hrest⟩

theorem height_eq (tree : db.Tree env) (h : Branch db root links tip)
    (hroot : db.getEntryByHash root.hash = some root) :
    tip.height = root.height + links.length := by
  induction h with
  | root => rfl
  | child hrest he _ hprev ih =>
    have hp := hrest.tip_stored hroot
    rw [← hprev] at hp
    rw [tree.height_eq he hp, ih, List.length_append, List.length_singleton, Nat.add_assoc]

/-- The entry of each block is one higher than the entry before it. -/
theorem height_getElem (tree : db.Tree env) (h : Branch db root links tip)
    (hroot : db.getEntryByHash root.hash = some root) {i : Nat} {link : Link}
    (hi : links[i]? = some link) : link.entry.height = root.height + i + 1 := by
  induction h with
  | root => simp at hi
  | @child links e p b v hrest he hb hprev ih =>
    by_cases hlt : i < links.length
    · rw [List.getElem?_append_left hlt] at hi
      exact ih hi
    · have hlen := (List.getElem?_eq_some_iff.1 hi).choose
      obtain rfl : i = links.length := by grind
      obtain rfl : ⟨e, b, v⟩ = link := by simpa using hi
      have := (Branch.child (v := v) hrest he hb hprev).height_eq tree hroot
      grind

/-- The blocks of the branch of a main tip are those of the height index. -/
theorem lookup_height (tree : db.Tree env) {main : ChainEntry} (hmain : db.Main main)
    (h : Branch db root links tip) (hroot : db.getEntryByHash root.hash = some root)
    (htop : db.entryCache.height.lookup tip.height = some tip.hash) {i : Nat} {link : Link}
    (hi : links[i]? = some link) :
    db.entryCache.height.lookup (root.height + i + 1) = some link.entry.hash
      ∧ db.getEntryByHash link.entry.hash = some link.entry
      ∧ db.getBlock link.entry.hash = some link.block := by
  induction h with
  | root => simp at hi
  | @child links e p b v hrest he hb hprev ih =>
    have hheight := (Branch.child (v := v) hrest he hb hprev).height_eq tree hroot
    rw [List.length_append, List.length_singleton, ← Nat.add_assoc] at hheight
    by_cases hlt : i < links.length
    · rw [List.getElem?_append_left hlt] at hi
      rw [hheight] at htop
      refine ih ?_ hi
      rw [hrest.height_eq tree hroot, hmain.prev htop he, hprev]
    · have hlen := (List.getElem?_eq_some_iff.1 hi).choose
      obtain rfl : i = links.length := by grind
      obtain rfl : ⟨e, b, v⟩ = link := by simpa using hi
      exact ⟨hheight ▸ htop, he, hb⟩

end Branch

/-- The blocks connected and not disconnected are a branch that ends with the tip. -/
theorem Told.branch (hroot : db.getEntryByHash root.hash = some root) (h : Told db root log tip) :
    Branch db root (linksOf log) tip := by
  induction h with
  | start => exact .root
  | connect _ he hb hprev ih =>
    rw [linksOf_connect]
    exact .child ih he hb hprev
  | @disconnect log s e p b v _ hne _ hp ih =>
    obtain ⟨rest, _, _, p', hlinks, -, hp', hrest⟩ := ih.exists_last hroot hne
    cases hp.symm.trans hp'
    rw [linksOf_disconnect, hlinks, List.dropLast_concat]
    exact hrest

/-- What is disconnected is the last of the blocks connected and not disconnected. -/
theorem Told.exists_link (hroot : db.getEntryByHash root.hash = some root) {s : Snapshot}
    {e : ChainEntry} {b : Block} {v : CoinView}
    (h : Told db root (log ++ [Notification.disconnect s e b v]) tip) :
    ∃ rest view, linksOf log = rest ++ [⟨e, b, view⟩] := by
  generalize hlog : log ++ [Notification.disconnect s e b v] = whole at h
  cases h with
  | start => simp at hlog
  | connect => simp at hlog
  | disconnect hbefore hne hb _ =>
    obtain ⟨rfl, hlast⟩ := List.append_inj' hlog rfl
    cases hlast
    obtain ⟨rest, _, view, _, hlinks, hb', -, -⟩ := (hbefore.branch hroot).exists_last hroot hne
    cases hb.symm.trans hb'
    exact ⟨rest, view, hlinks⟩

theorem Told.height_eq (tree : db.Tree env) (h : Told db env.genesisEntry log tip) :
    tip.height = (linksOf log).length := by
  have := (h.branch tree.genesis).height_eq tree tree.genesis
  simpa using this

end ChainDB

namespace Chain

open Relation

variable {env : Env} {c c' : Chain}

theorem Move.told (inv : c.Inv env) (h : Move env c c')
    (told : c.db.Told env.genesisEntry c.notified c.tip) :
    c'.db.Told env.genesisEntry c'.notified c'.tip := by
  obtain ⟨hentries, hblocks⟩ := h.stored inv
  have hkept := told.mono hentries hblocks
  rcases h.sameLedger_or inv with hsame | ⟨_, _, hentry, hblock, hprev, h⟩ | h
  · rwa [hsame.notified, hsame.tip]
  · obtain ⟨-, -, cache, ⟨_, he, -⟩ | ⟨_, _, _, -, -, -, -, -, rfl⟩⟩ := connect_eq_ok h
    · cases he
    · exact hkept.connect (hentries _ _ hentry) (hblocks _ _ hblock) hprev
  · obtain ⟨-, hprev⟩ := disconnect_sameStore inv h
    have hgen := inv.tree.isGenesis_eq_false inv.tip_stored hprev
    obtain ⟨block, prev, _, _, hblock, hprev', -, rfl⟩ := disconnect_eq_ok h
    refine hkept.disconnect ?_ (hblocks _ _ hblock) (hentries _ _ hprev')
    rintro heq
    rw [heq] at hgen
    exact absurd hgen (by simp [ChainEntry.isGenesis, Env.genesisEntry, ChainEntry.fromBlockHeader])

/-- The listeners of a chain are told how it went from the genesis block to its tip. -/
theorem Visited.told (law : env.Lawful) (h : Visited env c) :
    c.db.Told env.genesisEntry c.notified c.tip := by
  obtain ⟨c₀, hnew, hrun⟩ := h
  refine ReflTransGen.invariant_with (Q := fun c => c.Inv env)
    (P := fun c => c.db.Told env.genesisEntry c.notified c.tip)
    (fun _ _ hst hs => hs.move law hst) (fun _ _ hst hs htold => hst.told hs htold) hrun
    (Inv.new law hnew) ?_
  obtain ⟨mostWork, rfl⟩ := new_eq_ok law hnew
  exact .start

/-- A block that was connected and not disconnected is the main-chain block at its height. -/
theorem Visited.getElem_linksOf (law : env.Lawful) (h : Visited env c) {i : Nat} {link : Link}
    (hi : (linksOf c.notified)[i]? = some link) : link.entry.height = i + 1
      ∧ c.db.getEntryByHeight (i + 1) = .ok (some link.entry)
      ∧ c.db.getBlock link.entry.hash = some link.block
        ∧ link.entry.hash ≠ env.genesisEntry.hash := by
  have inv := h.inv law
  have hbranch := (h.told law).branch inv.tree.genesis
  obtain ⟨hlookup, hentry, hblock⟩ :=
    hbranch.lookup_height inv.tree inv.main inv.tree.genesis inv.main.top hi
  have hheight := hbranch.height_getElem inv.tree inv.tree.genesis hi
  rw [Env.genesisEntry_height, Nat.zero_add] at hlookup hheight
  refine ⟨hheight, ?_, hblock, fun heq => ?_⟩
  · have hself : c.db.entryCache.hash.lookup link.entry.hash = some link.entry := hentry
    rw [ChainDB.getEntryByHeight, hlookup]
    dsimp only
    rw [hself]
  · rw [heq, inv.tree.genesis] at hentry
    rw [← Option.some.inj hentry, Env.genesisEntry_height] at hheight
    omega

/-- The block of a stored hash other than that of the genesis block fits a file. -/
theorem Visited.getSize_le (law : env.Lawful) (h : Visited env c) {hash : BlockHash} {b : Block}
    (hb : c.db.getBlock hash = some b) (hgen : hash ≠ env.genesisEntry.hash) :
    env.getSize b + 8 ≤ BlockStore.MAX_FILE_LENGTH := by
  obtain ⟨c₀, hnew, hrun⟩ := h
  refine ReflTransGen.invariant_with (Q := fun c => c.Inv env)
    (P := fun c => ∀ hash b, c.db.getBlock hash = some b → hash ≠ env.genesisEntry.hash →
      env.getSize b + 8 ≤ BlockStore.MAX_FILE_LENGTH)
    (fun _ _ hst hs => hs.move law hst) ?_ hrun (Inv.new law hnew) ?_ hash b hb hgen
  · intro c c' hmove inv ih hash b hb hgen
    cases hmove with
    | cache cache => exact ih hash b hb hgen
    | header h =>
      rcases addHeader_eq_ok h with ⟨_, -, rfl⟩ | ⟨_, _, _, _, -, -, -, -, -, -, -, -, hsave, rfl⟩
      · exact ih hash b hb hgen
      · obtain ⟨mostWork, rfl⟩ := ChainDB.saveEntry_eq_ok inv.idle hsave
        exact ih hash b hb hgen
    | invalid _ _ => exact ih hash b hb hgen
    | block _ _ hnew _ hwrite =>
      rw [(getBlock_writeBlock inv hnew hwrite).1] at hb
      split_ifs at hb with heq
      · cases hb
        obtain ⟨_, hblocks, -⟩ := ChainDB.writeBlock_eq_ok hwrite
        unfold BlockStore.writeBlock at hblocks
        rw [if_neg] at hblocks
        · split_ifs at hblocks with hlong
          omega
        · rw [← inv.downloaded_iff]
          simpa [ChainDB.hasBlock] using hnew
      · exact ih hash b hb hgen
    | connect hentry _ hblock hprev h =>
      rw [(connect_sameStore inv hentry hblock hprev h).1.blocks] at hb
      exact ih hash b hb hgen
    | disconnect h =>
      rw [(disconnect_sameStore inv h).1.blocks] at hb
      exact ih hash b hb hgen
  · obtain ⟨mostWork, rfl⟩ := new_eq_ok law hnew
    intro hash b hb hgen
    change ((∅ : FMap BlockHash Block).insert env.genesisEntry.hash env.genesisBlock).lookup hash
      = some b at hb
    rw [Finmap.lookup_insert_of_ne _ hgen, Finmap.lookup_empty] at hb
    cases hb

/-! ## Views -/

/-- The view of every notification of a connected block is the one it was verified with. -/
theorem Visited.connected_view (law : env.Lawful) (h : Visited env c) {s : Snapshot}
    {e : ChainEntry} {b : Block} {v : CoinView} (hmem : .connect s e b v ∈ c.notified) :
    b.WellFormed ∧ ∃ coins, blockView env coins e.height b.txdata CoinView.empty = .ok v := by
  obtain ⟨c₀, hnew, hrun⟩ := h
  refine ReflTransGen.invariant_with (Q := fun c => c.Inv env)
    (P := fun c => ∀ s e b v, .connect s e b v ∈ c.notified → b.WellFormed ∧
      ∃ coins, blockView env coins e.height b.txdata CoinView.empty = .ok v)
    (fun _ _ hst hs => hs.move law hst) ?_ hrun (Inv.new law hnew) ?_ s e b v hmem
  · intro c c' hmove inv ih s e b v hmem
    cases hmove with
    | cache cache => exact ih s e b v hmem
    | header h =>
      rcases addHeader_eq_ok h with ⟨_, -, rfl⟩ | ⟨_, _, _, _, -, -, -, -, -, -, -, -, -, rfl⟩
      · exact ih s e b v hmem
      · exact ih s e b v hmem
    | invalid _ _ => exact ih s e b v hmem
    | block _ _ _ _ _ => exact ih s e b v hmem
    | @connect _ block entry hentry _ _ hprev h =>
      obtain ⟨-, -, cache, ⟨_, he, -⟩ | ⟨view, state, db, -, -, hbody, hinputs, -, rfl⟩⟩ :=
        connect_eq_ok h
      · cases he
      rcases List.mem_append.1 hmem with hmem | hmem
      · exact ih s e b v hmem
      obtain ⟨rfl, rfl, rfl, rfl⟩ := Notification.connect.inj (List.mem_singleton.1 hmem)
      obtain ⟨_, _, htxs, -⟩ := verifyInputs_eq_ok hinputs
      have htip : c.db.getEntryByHash e.prevBlock = some c.tip := by rw [hprev, inv.tip_stored]
      refine ⟨Block.checkBody_eq_ok hbody, c.db.db.coin, ?_⟩
      rw [inv.tree.height_eq hentry htip]
      exact verifyTransactions_view (c := c.withCache cache) htxs
    | disconnect h =>
      obtain ⟨_, _, _, _, -, -, -, rfl⟩ := disconnect_eq_ok h
      rcases List.mem_append.1 hmem with hmem | hmem
      · exact ih s e b v hmem
      · cases List.mem_singleton.1 hmem
  · obtain ⟨mostWork, rfl⟩ := new_eq_ok law hnew
    simp

end Chain

/-! ## Spent coins -/

/-- The view holds a coin for every input of the block. -/
def CoinView.Covers (view : CoinView) (block : Block) : Prop :=
  ∀ tx ∈ block.txdata, tx.isCoinBase = false → ∀ input ∈ tx.input,
    input.previousOutput ∈ view.map

namespace CoinView

variable {env : Env} {coins : FMap OutPoint CoinEntry} {view view' : CoinView}

theorem mem_indexOutputs {tx : Transaction} {height : Nat} {spent : Bool} {o : OutPoint}
    {outputs : List TxOut} {index : Nat} (h : o ∈ view.map) :
    o ∈ (indexOutputs env tx height spent outputs index view).map := by
  induction outputs generalizing index view with
  | nil => exact h
  | cons output outputs ih =>
    rw [indexOutputs]
    split_ifs
    · exact ih h
    · exact ih ((AList.mem_insert _).2 (.inr h))

theorem mem_readCoin {o o' : OutPoint} (h : o ∈ view.map) :
    o ∈ (view.readCoin coins o').1.map := by
  unfold readCoin
  split
  · exact h
  · split
    · exact (AList.mem_insert _).2 (.inr h)
    · exact h

/-- Spending inputs keeps what the view holds and adds the coins of the inputs. -/
theorem mem_spendInputs {inputs : List TxIn} (h : view.spendInputs coins inputs = .ok view') :
    (∀ o ∈ view.map, o ∈ view'.map) ∧ ∀ input ∈ inputs, input.previousOutput ∈ view'.map := by
  induction inputs generalizing view with
  | nil =>
    cases h
    exact ⟨fun _ ho => ho, by simp⟩
  | cons input inputs ih =>
    unfold spendInputs at h
    split at h
    · rename_i view₁ coin hread
      split at h
      · cases h
      obtain ⟨hkept, hinputs⟩ := ih h
      have hkeep : ∀ o ∈ view.map, o ∈ view₁.map := fun o ho => by
        simpa [hread] using @mem_readCoin coins _ _ input.previousOutput ho
      refine ⟨fun o ho => hkept o ((AList.mem_insert _).2 (.inr (hkeep o ho))), ?_⟩
      exact List.forall_mem_cons.2 ⟨hkept _ ((AList.mem_insert _).2 (.inl rfl)), hinputs⟩
    · cases h

theorem mem_blockView {height : Nat} {txs : List Transaction}
    (h : blockView env coins height txs view = .ok view') :
    (∀ o ∈ view.map, o ∈ view'.map) ∧ ∀ tx ∈ txs, tx.isCoinBase = false →
      ∀ input ∈ tx.input, input.previousOutput ∈ view'.map := by
  induction txs generalizing view with
  | nil =>
    cases h
    exact ⟨fun _ ho => ho, by simp⟩
  | cons tx txs ih =>
    rw [blockView] at h
    split at h
    · rename_i hcoinbase
      obtain ⟨hkept, hrest⟩ := ih h
      refine ⟨fun o ho => hkept o (mem_indexOutputs ho), ?_⟩
      exact List.forall_mem_cons.2 ⟨fun hnot => by simp [hcoinbase] at hnot, hrest⟩
    · rw [bind_eq_ok] at h
      obtain ⟨view₁, hspend, h⟩ := h
      obtain ⟨hkeep, hinputs⟩ := mem_spendInputs hspend
      obtain ⟨hkept, hrest⟩ := ih h
      refine ⟨fun o ho => hkept o (mem_indexOutputs (hkeep o ho)), ?_⟩
      exact List.forall_mem_cons.2
        ⟨fun _ input hinput => hkept _ (mem_indexOutputs (hinputs input hinput)), hrest⟩

theorem covers_of_blockView {height : Nat} {block : Block}
    (h : blockView env coins height block.txdata view = .ok view') : view'.Covers block :=
  (mem_blockView h).2

end CoinView

end BitcoinNode
