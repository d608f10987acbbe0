import BitcoinNode.Blockchain.CommonAncestor
import BitcoinNode.Net.Verifying
import BitcoinNode.Net.Headers

/-!
# The download window

Which blocks `get_next_blocks` of `net/new_peer_manager.rs` chooses: it walks the path from the
last common block to the best entry of a peer in batches, and stops at the edge of the window
or at the limit of the peer.
-/

namespace BitcoinNode

open Relation

/-! ## The path to an entry -/

namespace ChainDB

variable {env : Env} {db : ChainDB} {tip best e : ChainEntry} {lo mid hi : Nat}

/-- The ancestors of an entry above one height and up to another one, lowest first. -/
def path (db : ChainDB) (best : ChainEntry) (lo hi : Nat) : List ChainEntry :=
  (List.range' (lo + 1) (hi - lo)).filterMap fun height => db.parentWalk (best.height - height) best

theorem path_eq_nil (h : hi ≤ lo) : db.path best lo hi = [] := by
  rw [path, Nat.sub_eq_zero_of_le h]
  rfl

theorem path_append (hlo : lo ≤ mid) (hhi : mid ≤ hi) :
    db.path best lo hi = db.path best lo mid ++ db.path best mid hi := by
  have hrange := @List.range'_append (lo + 1) (mid - lo) (hi - mid) 1
  rw [show lo + 1 + 1 * (mid - lo) = mid + 1 by omega,
    show mid - lo + (hi - mid) = hi - lo by omega] at hrange
  rw [path, path, path, ← List.filterMap_append, hrange]

theorem mem_path_iff (tree : db.Tree env) (hbest : db.getEntryByHash best.hash = some best)
    (hhi : hi ≤ best.height) :
    e ∈ db.path best lo hi ↔ db.Ancestor best e ∧ lo < e.height ∧ e.height ≤ hi := by
  simp only [path, List.mem_filterMap, List.mem_range'_1]
  constructor
  · rintro ⟨height, hrange, hwalk⟩
    have := tree.rooted.rank_climb hbest hwalk
    exact ⟨Forest.ancestor_of_climb hwalk, by omega, by omega⟩
  · rintro ⟨hanc, habove, hle⟩
    exact ⟨e.height, by omega, tree.rooted.climb_of_ancestor hbest hanc⟩

/-- The path goes up. -/
theorem path_pairwise (lo : Nat) (tree : db.Tree env)
    (hbest : db.getEntryByHash best.hash = some best) (hhi : hi ≤ best.height) :
    (db.path best lo hi).Pairwise fun a b => a.height < b.height := by
  rw [path, List.pairwise_filterMap]
  refine List.Pairwise.imp_of_mem ?_ List.pairwise_lt_range'
  intro h h' hh hh' hlt a ha b hb
  have hrank := tree.rooted.rank_climb hbest ha
  have hrank' := tree.rooted.rank_climb hbest hb
  rw [List.mem_range'_1] at hh hh'
  omega

theorem path_concat (tree : db.Tree env) (hbest : db.getEntryByHash best.hash = some best)
    (he : db.Ancestor best e) (hlo : lo < e.height) :
    db.path best lo e.height = db.path best lo (e.height - 1) ++ [e] := by
  rw [path_append (show lo ≤ e.height - 1 by omega) (Nat.sub_le _ _)]
  have hone : e.height - (e.height - 1) = 1 := by omega
  have hwalk : db.parentWalk (best.height - e.height) best = some e :=
    tree.rooted.climb_of_ancestor hbest he
  have hlast : db.path best (e.height - 1) e.height = [e] := by
    rw [path, hone, show e.height - 1 + 1 = e.height by omega]
    simp [hwalk]
  rw [hlast]

/-- Up to a height, the path is the path to the ancestor there. -/
theorem path_filter (tree : db.Tree env) (hbest : db.getEntryByHash best.hash = some best)
    (hhi : hi ≤ best.height) (bound : Nat) :
    (db.path best lo hi).filter (fun e => decide (e.height ≤ bound))
      = db.path best lo (min hi bound) := by
  by_cases hbound : hi ≤ bound
  · rw [min_eq_left hbound, List.filter_eq_self]
    intro e he
    have := (mem_path_iff tree hbest hhi).1 he
    exact decide_eq_true (by omega)
  by_cases hlo : lo ≤ bound
  · have hkeep : (db.path best lo bound).filter (fun e => decide (e.height ≤ bound))
        = db.path best lo bound := by
      rw [List.filter_eq_self]
      intro e he
      exact decide_eq_true ((mem_path_iff tree hbest (by omega)).1 he).2.2
    have hdrop : (db.path best bound hi).filter (fun e => decide (e.height ≤ bound)) = [] := by
      rw [List.filter_eq_nil_iff]
      intro e he
      have := (mem_path_iff tree hbest hhi).1 he
      simp only [decide_eq_true_eq]
      omega
    rw [path_append hlo (by omega), List.filter_append, hkeep, hdrop, List.append_nil,
      min_eq_right (by omega)]
  · rw [path_eq_nil (show min hi bound ≤ lo by omega), List.filter_eq_nil_iff]
    intro e he
    have := (mem_path_iff tree hbest hhi).1 he
    simp only [decide_eq_true_eq]
    omega

theorem pathAbove_eq (tree : db.Tree env) (hbest : db.getEntryByHash best.hash = some best)
    (he : db.Ancestor best e) {fuel : Nat} (hfuel : e.height ≤ lo + fuel)
    (entries : List ChainEntry) :
    db.pathAbove lo fuel e entries = .ok (db.path best lo e.height ++ entries) := by
  induction fuel generalizing e entries with
  | zero => rw [pathAbove, if_neg (by omega), path_eq_nil (by omega), List.nil_append]
  | succ fuel ih =>
    rw [pathAbove]
    by_cases habove : e.height > lo
    · have hstored := he.stored tree hbest
      obtain ⟨prev, hprev⟩ := tree.exists_parent hstored (by simp [ChainEntry.isGenesis]; omega)
      have hheight := tree.height_eq hstored hprev
      have hrest := ih (ReflTransGen.tail he hprev) (by omega) (e :: entries)
      rw [if_pos habove, hprev, path_concat tree hbest he habove, List.append_assoc,
        show e.height - 1 = prev.height by omega]
      exact hrest
    · rw [if_neg habove, path_eq_nil (by omega), List.nil_append]

theorem getNextPath_eq (tree : db.Tree env) (main : db.Main tip) (skips : db.Skips)
    (hbest : db.getEntryByHash best.hash = some best) {limit : Nat} (hlimit : 0 < limit) :
    db.getNextPath best lo limit = .ok (db.path best lo (min best.height (lo + limit))) := by
  rw [getNextPath, if_neg hlimit.ne']
  by_cases hstart : lo + limit < best.height
  · obtain ⟨a, ha, hanc, hheight⟩ := getAncestor_eq tree main skips hbest hstart.le
    dsimp only
    rw [if_pos hstart, ha, bind_of_ok rfl, pathAbove_eq tree hbest hanc (by omega), hheight,
      min_eq_right hstart.le, List.append_nil]
  · dsimp only
    rw [if_neg hstart, pure_bind, pathAbove_eq tree hbest .refl (by omega),
      min_eq_left (by omega), List.append_nil]

end ChainDB

/-- No entry is lost as the chain goes on. -/
theorem Chain.Visited.entries_mono {env : Env} {c c' : Chain} (law : env.Lawful)
    (h : Visited env c) (hmoves : ReflTransGen (Move env) c c') :
    ∀ hash e, c.db.getEntryByHash hash = some e → c'.db.getEntryByHash hash = some e := by
  induction hmoves with
  | refl => exact fun _ _ h => h
  | tail hrun hmove ih =>
    exact fun hash e he => hmove.entries_mono ((h.moves hrun).inv law) hash e (ih hash e he)

namespace SyncManager

variable {env : Env} {lib : Bip152} {m m' : SyncManager} {peer : PeerId}
  {tip best walker : ChainEntry}
  {endHeight maxHeight k : Nat} {entries : List ChainEntry} {f f' : Fetch}

/-! ## What the loops choose -/

/-- Nobody has the block yet, and nobody was asked for it. -/
def wants (m : SyncManager) (entry : ChainEntry) : Bool :=
  decide (entry.hash ∉ m.requestedBlocks) && !m.chain.db.isMainChain entry
    && decide (entry.hash ∉ m.verifying) && !m.chain.db.hasBlock entry.hash

/-- The blocks of a path that are chosen within the window. -/
def wanted (m : SyncManager) (endHeight : Nat) (entries : List ChainEntry) : List BlockHash :=
  ((entries.filter fun e => decide (e.height ≤ endHeight)).filter m.wants).map ChainEntry.hash

@[simp] theorem wanted_nil : m.wanted endHeight [] = [] := rfl

theorem wanted_append {entries' : List ChainEntry} :
    m.wanted endHeight (entries ++ entries')
      = m.wanted endHeight entries ++ m.wanted endHeight entries' := by
  simp [wanted]

theorem wanted_cons_of_pos {entry : ChainEntry} (hle : entry.height ≤ endHeight)
    (hwants : m.wants entry = true) :
    m.wanted endHeight (entry :: entries) = entry.hash :: m.wanted endHeight entries := by
  simp [wanted, hle, hwants]

theorem wanted_cons_of_neg {entry : ChainEntry} (h : m.wants entry = false) :
    m.wanted endHeight (entry :: entries) = m.wanted endHeight entries := by
  by_cases hle : entry.height ≤ endHeight <;> simp [wanted, hle, h]

theorem wanted_eq_nil (h : ∀ e ∈ entries, endHeight < e.height) :
    m.wanted endHeight entries = [] := by
  have hfilter : entries.filter (fun e => decide (e.height ≤ endHeight)) = [] := by
    rw [List.filter_eq_nil_iff]
    intro e he
    simpa using h e he
  rw [wanted, hfilter]
  rfl

/-- Without an invalid block the loop over a path chooses what is wanted, up to the limit. -/
theorem scan_eq (hvalid : ∀ e ∈ entries, m.chain.db.hasInvalid e.hash = false)
    (hup : entries.Pairwise fun a b => a.height < b.height) (hroom : f.items.length < k) :
    (m.scan peer endHeight k entries f).2 ≠ .returned
      ∧ (m.scan peer endHeight k entries f).1.items
        = (f.items ++ m.wanted endHeight entries).take k
      ∧ ((m.scan peer endHeight k entries f).2 = .filled →
        k ≤ (m.scan peer endHeight k entries f).1.items.length) := by
  induction entries generalizing f with
  | nil => simp [scan, hroom.le]
  | cons entry entries ih =>
    rw [List.forall_mem_cons] at hvalid
    rw [List.pairwise_cons] at hup
    have hskip (hwants : m.wants entry = false) := @wanted_cons_of_neg m endHeight entries _ hwants
    rw [scan]
    by_cases hrequested : entry.hash ∈ m.requestedBlocks
    · rw [if_pos hrequested, hskip (by simp [wants, hrequested])]
      by_cases hwaiting : f.waiting.isNone = true
      · rw [if_pos hwaiting]
        exact ih hvalid.2 hup.2 hroom
      · rw [if_neg hwaiting]
        exact ih hvalid.2 hup.2 hroom
    rw [if_neg hrequested, if_neg (by simp [hvalid.1])]
    by_cases hmain : m.chain.db.isMainChain entry = true
    · rw [if_pos hmain, hskip (by simp [wants, hmain])]
      exact ih hvalid.2 hup.2 hroom
    rw [if_neg hmain]
    by_cases hverifying : entry.hash ∈ m.verifying
    · rw [if_pos hverifying, hskip (by simp [wants, hverifying])]
      exact ih hvalid.2 hup.2 hroom
    rw [if_neg hverifying]
    by_cases hblock : m.chain.db.hasBlock entry.hash = true
    · rw [if_pos hblock, hskip (by simp [wants, hblock])]
      exact ih hvalid.2 hup.2 hroom
    rw [if_neg hblock]
    have hwants : m.wants entry = true := by simp [wants, hrequested, hmain, hverifying, hblock]
    by_cases hedge : entry.height > endHeight
    · -- beyond the edge nothing is chosen, whether the loop goes on or not
      have hnone : m.wanted endHeight (entry :: entries) = [] := by
        refine wanted_eq_nil fun e he => ?_
        rcases List.mem_cons.1 he with rfl | he
        · exact hedge
        · exact hedge.trans (hup.1 e he)
      have hrest : m.wanted endHeight entries = [] :=
        wanted_eq_nil fun e he => hedge.trans (hup.1 e he)
      rw [hnone]
      by_cases hstall : f.items.isEmpty ∧ f.waiting ≠ some peer
      · rw [if_pos ⟨hedge, hstall⟩]
        simp [hroom.le]
      · rw [if_neg (fun h => hstall h.2)]
        dsimp only
        rw [if_pos hedge, if_neg (by omega), ← hrest]
        exact ih hvalid.2 hup.2 hroom
    · rw [if_neg (fun h => hedge h.1), wanted_cons_of_pos (by omega) hwants]
      dsimp only
      rw [if_neg hedge]
      dsimp only
      have hassoc : f.items ++ entry.hash :: m.wanted endHeight entries
          = f.items ++ [entry.hash] ++ m.wanted endHeight entries := by simp
      by_cases hfull : (f.items ++ [entry.hash]).length ≥ k
      · have hexact : (f.items ++ [entry.hash]).length = k := by
          rw [List.length_append, List.length_singleton] at hfull ⊢
          omega
        rw [if_pos hfull, hassoc, ← hexact, List.take_left]
        exact ⟨Flow.noConfusion, rfl, fun _ => le_rfl⟩
      · rw [if_neg hfull, hassoc]
        exact ih hvalid.2 hup.2 (by simpa using hfull)

/-- Without an invalid block the loop over paths chooses what is wanted of the path up to the
edge of the window, up to the limit. The induction is on the batches that are left. -/
theorem walk_eq (tree : m.chain.db.Tree env) (main : m.chain.db.Main tip)
    (skips : m.chain.db.Skips) (hbest : m.chain.db.getEntryByHash best.hash = some best)
    (hvalid : ∀ e, m.chain.db.Ancestor best e → m.chain.db.hasInvalid e.hash = false)
    {fuel : Nat} (hwalker : m.chain.db.Ancestor best walker)
    (hfuel : best.height ≤ walker.height + fuel) (hroom : f.items.length < k) :
    ∃ f', m.walk peer best endHeight (min best.height (endHeight + 1)) k fuel walker f
        = .ok (f', false)
      ∧ f'.items = (f.items
        ++ m.wanted endHeight (m.chain.db.path best walker.height best.height)).take k := by
  have hdone {walker : ChainEntry} (h : ¬ walker.height < min best.height (endHeight + 1)) :
      m.wanted endHeight (m.chain.db.path best walker.height best.height) = [] := by
    refine wanted_eq_nil fun e he => ?_
    have := (ChainDB.mem_path_iff tree hbest le_rfl).1 he
    omega
  induction fuel generalizing walker f with
  | zero =>
    have hend : ¬ walker.height < min best.height (endHeight + 1) := by omega
    refine ⟨f, by rw [walk, if_neg hend], ?_⟩
    rw [hdone hend, List.append_nil, List.take_of_length_le hroom.le]
  | succ fuel ih =>
    rw [walk]
    by_cases hend : walker.height < min best.height (endHeight + 1)
    swap
    · refine ⟨f, by rw [if_neg hend], ?_⟩
      rw [hdone hend, List.append_nil, List.take_of_length_le hroom.le]
    rw [if_pos hend, ChainDB.getNextPath_eq tree main skips hbest (by decide), bind_of_ok rfl]
    obtain ⟨last, -, hlast, hheight⟩ := ChainDB.getAncestor_eq tree main skips hbest
      (min_le_left best.height (walker.height + MAX_BLOCKS_PER_PEER))
    have hpos : 0 < MAX_BLOCKS_PER_PEER := by decide
    have hconcat := ChainDB.path_concat tree hbest hlast
      (show walker.height < last.height by omega)
    have hsplit := @ChainDB.path_append m.chain.db best _ _ _
      (show walker.height ≤ last.height by omega) (show last.height ≤ best.height by omega)
    rw [← hheight]
    have hmem {e : ChainEntry} (he : e ∈ m.chain.db.path best walker.height last.height) :
        m.chain.db.Ancestor best e := ((ChainDB.mem_path_iff tree hbest (by omega)).1 he).1
    obtain ⟨hgoes, hitems, hfilled⟩ := @scan_eq m peer endHeight k
      (m.chain.db.path best walker.height last.height) f (fun e he => hvalid e (hmem he))
      (ChainDB.path_pairwise _ tree hbest (by omega)) hroom
    have hnext := (@scan_items m peer endHeight k
      (m.chain.db.path best walker.height last.height) f hroom).2
    rw [show (m.chain.db.path best walker.height last.height).getLast? = some last by
      rw [hconcat, List.getLast?_concat]]
    generalize m.scan peer endHeight k (m.chain.db.path best walker.height last.height) f
      = result at hgoes hitems hfilled hnext ⊢
    obtain ⟨f', flow⟩ := result
    rw [hsplit, wanted_append, ← List.append_assoc]
    cases flow with
    | returned => exact absurd rfl hgoes
    | filled =>
      refine ⟨f', rfl, ?_⟩
      have hlength := hfilled rfl
      rw [hitems, List.length_take] at hlength
      rw [List.take_append_of_le_length (by omega)]
      exact hitems
    | next =>
      have hlength := hnext rfl
      have hall : f'.items
          = f.items ++ m.wanted endHeight (m.chain.db.path best walker.height last.height) := by
        rw [hitems] at hlength ⊢
        rw [List.length_take] at hlength
        exact List.take_of_length_le (by omega)
      rw [← hall]
      exact ih hlast (by omega) hlength

/-! ## What the manager knows to be stored -/

/-- The entries that the loops note are among some. -/
structure Fetch.Among (P : ChainEntry → Prop) (f : Fetch) : Prop where
  saved {e : ChainEntry} : e ∈ f.saved → P e
  common {hash : BlockHash} : f.commonHash = some hash → ∃ e, P e ∧ e.hash = hash

theorem scan_among {P : ChainEntry → Prop} (hentries : ∀ e ∈ entries, P e) (hf : f.Among P) :
    (m.scan peer endHeight k entries f).1.Among P := by
  induction entries generalizing f with
  | nil => exact hf
  | cons entry entries ih =>
    obtain ⟨hentry, hentries⟩ := List.forall_mem_cons.1 hentries
    rw [scan]
    split
    · refine ih hentries ?_
      split <;> exact ⟨hf.saved, hf.common⟩
    split
    · exact hf
    split
    · exact ih hentries ⟨hf.saved, fun h => ⟨entry, hentry, Option.some.inj h⟩⟩
    split
    · exact ih hentries hf
    split
    · refine ih hentries ⟨fun he => ?_, hf.common⟩
      rcases List.mem_append.1 he with he | he
      · exact hf.saved he
      · rwa [List.mem_singleton.1 he]
    split
    · exact ⟨hf.saved, hf.common⟩
    dsimp only
    have hsame : (if entry.height > endHeight then f
        else { f with items := f.items ++ [entry.hash] }).Among P := by
      split <;> exact ⟨hf.saved, hf.common⟩
    generalize (if entry.height > endHeight then f
      else { f with items := f.items ++ [entry.hash] }) = f' at hsame ⊢
    split
    · exact hsame
    · exact ih hentries hsame

theorem walk_among (tree : m.chain.db.Tree env) (main : m.chain.db.Main tip)
    (skips : m.chain.db.Skips) (hbest : m.chain.db.getEntryByHash best.hash = some best)
    {fuel : Nat} {returned : Bool} (hf : f.Among (m.chain.db.Ancestor best))
    (h : m.walk peer best endHeight maxHeight k fuel walker f = .ok (f', returned)) :
    f'.Among (m.chain.db.Ancestor best) := by
  induction fuel generalizing walker f with
  | zero =>
    rw [walk] at h
    split at h <;> cases h
    exact hf
  | succ fuel ih =>
    rw [walk] at h
    split at h
    · obtain ⟨entries, hentries, h⟩ := bind_eq_ok.1 h
      rw [ChainDB.getNextPath_eq tree main skips hbest (by decide)] at hentries
      have hscan : (m.scan peer endHeight k entries f).1.Among (m.chain.db.Ancestor best) := by
        refine scan_among (fun e he => ?_) hf
        rw [← Except.ok.inj hentries, ChainDB.mem_path_iff tree hbest (Nat.min_le_left _ _)] at he
        exact he.1
      split at h
      · cases h
        exact hf
      · split at h <;> rename_i hresult <;> rw [hresult] at hscan
        · cases h
          exact hscan
        · cases h
          exact hscan
        · exact ih hscan h
    · cases h
      exact hf

/-- The last block that the peer and the chain are known to have in common: the one noted
for the peer, or that of the main chain as high as both may be. -/
def CommonBlock (m : SyncManager) (peer : PeerId) (best common : ChainEntry) : Prop :=
  m.chain.db.getEntryByHash common.hash = some common
    ∧ match (m.requests peer).commonHash with
      | some hash => common.hash = hash
      | none => m.chain.db.getEntryByHeight (min m.chain.height best.height) = .ok (some common)

/-- The chain is one that a node reaches, and what is noted of it is stored. -/
structure Anchored (env : Env) (m : SyncManager) : Prop where
  visited : Chain.Visited env m.chain
  common {peer : PeerId} {hash : BlockHash} : (m.requests peer).commonHash = some hash →
    ∃ e, m.chain.db.getEntryByHash hash = some e
  queued {entry : ChainEntry} : .attach entry ∈ m.queue →
    m.chain.db.getEntryByHash entry.hash = some entry

namespace Anchored

variable (inv : m.Anchored env)

include inv

theorem exists_commonEntry (peer : PeerId) (law : env.Lawful)
    (hbest : m.chain.db.getEntryByHash best.hash = some best) :
    ∃ common c, m.CommonBlock peer best common ∧ m.chain.db.Meets common best c
      ∧ m.commonEntry peer best = .ok c := by
  have chain := inv.visited.inv law
  have hmeets {common : ChainEntry}
      (hcommon : m.chain.db.getEntryByHash common.hash = some common) :=
    Chain.commonAncestor_meets chain.tree chain.main (inv.visited.skips law) hcommon hbest
  unfold commonEntry CommonBlock
  cases hhash : (m.requests peer).commonHash with
  | some hash =>
    obtain ⟨common, hcommon⟩ := inv.common hhash
    have hself := chain.tree.self hcommon
    obtain ⟨c, hc, hmeets⟩ := hmeets hself
    refine ⟨common, c, ⟨hself, chain.tree.hash_eq hcommon⟩, hmeets, ?_⟩
    dsimp only
    rw [pure_bind, hcommon]
    dsimp only
    rw [hc]
    rfl
  | none =>
    obtain ⟨hash, hlookup⟩ := chain.main.exists_lookup
      (show min m.chain.height best.height ≤ m.chain.tip.height from
        chain.height_eq ▸ Nat.min_le_left _ _)
    obtain ⟨common, hcommon, -⟩ := chain.main.stored hlookup
    have hentry : m.chain.db.getEntryByHeight (min m.chain.height best.height)
        = .ok (some common) := by
      have hself : m.chain.db.entryCache.hash.lookup hash = some common := hcommon
      simp only [ChainDB.getEntryByHeight, hlookup, hself]
    have hself := chain.tree.self hcommon
    obtain ⟨c, hc, hmeets⟩ := hmeets hself
    refine ⟨common, c, ⟨hself, hentry⟩, hmeets, ?_⟩
    dsimp only
    rw [hentry, bind_of_ok rfl]
    dsimp only
    rw [pure_bind, hself]
    dsimp only
    rw [hc]
    rfl

/-- A state with the same requests, no new entry to attach and a chain that went on. -/
theorem of_moves (law : env.Lawful) (hmoves : ReflTransGen (Chain.Move env) m.chain m'.chain)
    (hcommon : ∀ peer hash, (m'.requests peer).commonHash = some hash →
      (m.requests peer).commonHash = some hash)
    (hqueued : ∀ entry, .attach entry ∈ m'.queue → .attach entry ∈ m.queue) :
    m'.Anchored env := by
  have hmono := inv.visited.entries_mono law hmoves
  refine ⟨inv.visited.moves hmoves, fun h => ?_, fun h => hmono _ _ (inv.queued (hqueued _ h))⟩
  obtain ⟨e, he⟩ := inv.common (hcommon _ _ h)
  exact ⟨e, hmono _ _ he⟩

/-- A state with the same chain. -/
theorem congr (law : env.Lawful) (hchain : m'.chain = m.chain)
    (hcommon : ∀ peer hash, (m'.requests peer).commonHash = some hash →
      (m.requests peer).commonHash = some hash)
    (hqueued : ∀ entry, .attach entry ∈ m'.queue → .attach entry ∈ m.queue) :
    m'.Anchored env := inv.of_moves law (hchain ▸ .refl) hcommon hqueued

theorem update {state : NewPeer.Requests} (hstate : ∀ hash, state.commonHash = some hash →
      ∃ e, m.chain.db.getEntryByHash hash = some e) : (m.update peer state).Anchored env := by
  refine ⟨inv.visited, fun {q hash} h => ?_, inv.queued⟩
  rw [update_requests] at h
  split at h
  · exact hstate hash h
  · exact inv.common h

/-- A change of a peer's state that is not about the last common block. -/
theorem of_update (law : env.Lawful) {state : NewPeer.Requests} (hchain : m'.chain = m.chain)
    (hrequests : m'.requests = Function.update m.requests peer state)
    (hcommon : ∀ hash, state.commonHash = some hash → (m.requests peer).commonHash = some hash)
    (hqueued : ∀ entry, .attach entry ∈ m'.queue → .attach entry ∈ m.queue) :
    m'.Anchored env := by
  refine inv.congr law hchain (fun q hash h => ?_) hqueued
  by_cases hq : q = peer
  · subst hq
    rw [hrequests, Function.update_self] at h
    exact hcommon hash h
  · rwa [hrequests, Function.update_of_ne hq] at h

omit inv in
/-- The loop that serves a peer may stop. -/
theorem handled (law : env.Lawful) {result : SyncManager × Except HandleError Unit}
    (h : result.1.Anchored env) : (SyncManager.handled peer result).Anchored env := by
  obtain ⟨m', _ | _⟩ := result
  · exact h.congr law rfl (fun _ _ h => h) fun _ h => h
  · exact h

/-- The choice of blocks notes stored entries only. -/
theorem getNextBlocks (law : env.Lawful) {next : Option (List ChainEntry × List BlockHash)}
    {staller : Option PeerId} (hbest : m.chain.db.getEntryByHash best.hash = some best)
    (h : m.getNextBlocks peer best = .ok (m', next, staller)) :
    m'.Anchored env ∧ m'.chain = m.chain ∧ ∀ saved items, next = some (saved, items) →
      ∀ e ∈ saved, m.chain.db.getEntryByHash e.hash = some e := by
  have chain := inv.visited.inv law
  obtain ⟨common, c, hcommon, hmeets, hentry⟩ := inv.exists_commonEntry peer law hbest
  unfold SyncManager.getNextBlocks at h
  dsimp only at h
  split at h
  · cases h
    exact ⟨inv, rfl, fun _ _ h => nomatch h⟩
  rw [hentry, bind_of_ok rfl] at h
  obtain ⟨⟨f, returned⟩, hwalk, h⟩ := bind_eq_ok.1 h
  dsimp only at h
  cases h
  have hamong := walk_among chain.tree chain.main (inv.visited.skips law) hbest
    ⟨fun h => absurd h List.not_mem_nil, fun h => ⟨c, hmeets.right, Option.some.inj h⟩⟩ hwalk
  refine ⟨inv.update fun hash hhash => ?_, rfl, fun saved items hnext e he => ?_⟩
  · obtain ⟨e, he, rfl⟩ := hamong.common hhash
    exact ⟨e, he.stored chain.tree hbest⟩
  · cases returned with
    | true => cases hnext
    | false =>
      obtain ⟨rfl, rfl⟩ := Prod.mk.inj (Option.some.inj hnext)
      exact (hamong.saved he).stored chain.tree hbest

theorem resolve (law : env.Lawful) {next : Option (List ChainEntry × List BlockHash)}
    (hsaved : ∀ saved items, next = some (saved, items) →
      ∀ e ∈ saved, m.chain.db.getEntryByHash e.hash = some e) :
    (m.resolve peer next).Anchored env := by
  unfold SyncManager.resolve
  split
  · exact inv
  · rename_i entry saved items
    refine ⟨inv.visited, inv.common, fun {e} he => ?_⟩
    rcases List.mem_append.1 he with he | he
    · exact inv.queued he
    · cases List.mem_singleton.1 he
      exact hsaved _ _ rfl _ List.mem_cons_self
  · split
    · exact inv
    · exact inv.congr law rfl (fun _ _ h => h) fun _ h => h

theorem handleBlock (law : env.Lawful) {now : Nat} {block : Block}
    {result : SyncManager × Except HandleError Unit}
    (h : m.handleBlock env now peer block = .ok result) : result.1.Anchored env := by
  unfold SyncManager.handleBlock at h
  dsimp only at h
  split at h
  · cases h
    exact inv
  split at h
  · cases h
  split at h
  · cases h
  cases h
  exact inv.of_update law rfl rfl (fun _ h => h) (by simp [SyncManager.update])

theorem handleTx (law : env.Lawful) {tx : Transaction} :
    (m.handleTx env lib peer tx).1.Anchored env := by
  unfold SyncManager.handleTx
  dsimp only
  split
  · exact inv
  split
  · exact inv
  · exact inv.of_update law rfl rfl (fun _ h => h) (by simp [SyncManager.update])

theorem finish (law : env.Lawful) : (m.finish peer).1.Anchored env := by
  unfold SyncManager.finish
  dsimp only
  split <;> exact inv.congr law rfl (fun _ _ h => h) fun _ h => h

theorem addEvent (law : env.Lawful) {now : Nat} {event : AddEvent}
    (hevent : ∀ entry, event = .attach entry → m.chain.db.getEntryByHash entry.hash = some entry)
    (h : m.addEvent env now event = .ok m') : m'.Anchored env := by
  have chain := inv.visited.inv law
  cases event with
  | addBlock block q =>
    obtain ⟨⟨c, added⟩, hadd, h⟩ := bind_eq_ok.1 h
    cases h
    exact inv.of_moves law (Chain.add_moves law chain hadd) (fun _ _ h => h) fun _ h => h
  | attach entry =>
    obtain ⟨⟨c, attached⟩, hattach, h⟩ := bind_eq_ok.1 h
    cases attached with
    | error e => cases h
    | ok _ =>
      cases h
      exact inv.of_moves law (Chain.attach_moves chain (hevent _ rfl) hattach)
        (fun _ _ h => h) fun _ h => h
  | addTransaction tx q =>
    obtain ⟨mempool, accepted, rfl⟩ := addEvent_eq_ok h
    exact inv.congr law rfl (fun _ _ h => h) fun _ h => h

end Anchored

/-- What a task may do: blocks are chosen towards a stored entry, and other tasks make moves
of the chain. -/
def Permits (env : Env) (m : SyncManager) : Act → Prop
  | .getNextBlocks _ best => m.chain.db.getEntryByHash best.hash = some best
  | .other manager _ => ReflTransGen (Chain.Move env) m.chain manager.chain
  | _ => True

theorem Anchored.step (law : env.Lawful) (inv : m.Anchored env) {a : Act}
    (hpermits : m.Permits env a) (h : Step env lib m a m') : m'.Anchored env := by
  cases h with
  | connect => exact inv.of_update law rfl rfl nofun fun _ h => h
  | handshakeComplete =>
    exact inv.of_update law rfl rfl (fun _ h => h) fun _ h => h
  | handshakeFailed => exact inv.congr law rfl (fun _ _ h => h) fun _ h => h
  | getNextBlocks _ _ hnext =>
    obtain ⟨inv', hchain, hsaved⟩ := inv.getNextBlocks law hpermits hnext
    exact inv'.resolve law (hchain ▸ hsaved)
  | getBlock =>
    obtain ⟨requested, blocks, time, outbox, heq⟩ := getBlock_eq _
    rw [heq]
    exact inv.of_update law rfl rfl (fun _ h => h) fun _ h => h
  | handleBlock _ hresult => exact .handled law (inv.handleBlock law hresult)
  | handleTx => exact .handled law (inv.handleTx law)
  | handleInv =>
    obtain ⟨requested, transactions, outbox, heq⟩ := handleInv_eq _
    rw [heq]
    exact inv.of_update law rfl rfl (fun _ h => h) fun _ h => h
  | @add now event queue _ hqueue hadd =>
    have inv' : { m with queue := queue }.Anchored env :=
      inv.congr law rfl (fun _ _ h => h) fun _ h => by
        rw [hqueue]
        exact List.mem_cons_of_mem _ h
    refine inv'.addEvent law (fun entry hentry => inv.queued ?_) hadd
    rw [hqueue, hentry]
    exact List.mem_cons_self
  | finish => exact .handled law (inv.finish law)
  | disconnect | disconnected => exact inv.of_update law rfl rfl (fun _ h => h) fun _ h => h
  | drop => exact inv.congr law rfl (fun _ _ h => h) fun _ h => h
  | peerDisconnected => exact inv.of_update law rfl rfl (fun _ h => h) fun _ h => h
  | other => exact inv.of_moves law hpermits (fun _ _ h => h) fun _ h => h

/-- A turn of a task on a chain that a node reaches. -/
def Turn (env : Env) (lib : Bip152) (m m' : SyncManager) : Prop :=
  ∃ a, m.Permits env a ∧ m.act env lib a = .ok (some m')

theorem Anchored.turns (law : env.Lawful) {chain : Chain} {mempool : Option MemPool}
    {maxTipAge : Nat} (hchain : Chain.Visited env chain)
    (h : ReflTransGen (Turn env lib) (.new chain mempool maxTipAge) m) : m.Anchored env := by
  refine ReflTransGen.invariant (fun s t hst hs => ?_) h ⟨hchain, nofun, nofun⟩
  obtain ⟨a, hpermits, hact⟩ := hst
  exact hs.step law hpermits (act_step hact)

/-- The blocks that `get_next_blocks` goes on to ask for. -/
def chosen (next : Option (List ChainEntry × List BlockHash)) : List BlockHash :=
  next.elim [] Prod.snd

/-- In every state that the tasks reach in any order, the blocks that are chosen towards an
entry without an invalid ancestor are the lowest of those on the path from the last common
block, up to the edge of the window, that nobody has and nobody was asked for; as many as the
peer may still be asked for. -/
theorem getNextBlocks_window (law : env.Lawful) {chain : Chain} {mempool : Option MemPool}
    {maxTipAge : Nat} (hchain : Chain.Visited env chain)
    (h : ReflTransGen (Turn env lib) (.new chain mempool maxTipAge) m)
    (hbest : m.chain.db.getEntryByHash best.hash = some best)
    (hvalid : ∀ e, m.chain.db.Ancestor best e → m.chain.db.hasInvalid e.hash = false) :
    ∃ common c m' next staller, m.CommonBlock peer best common ∧ m.chain.db.Meets common best c
      ∧ m.getNextBlocks peer best = .ok (m', next, staller)
      ∧ chosen next = (((m.chain.db.path best c.height
          (min best.height (c.height + BLOCK_DOWNLOAD_WINDOW))).filter m.wants).take
            (MAX_BLOCKS_PER_PEER - (m.requests peer).requestedBlocks.keys.card)).map ChainEntry.hash
      ∧ (chosen next).Nodup := by
  have inv := Anchored.turns law hchain h
  have tree := (inv.visited.inv law).tree
  obtain ⟨common, c, hcommon, hmeets, hentry⟩ := inv.exists_commonEntry peer law hbest
  have hle := tree.rooted.rank_le_of_ancestor hbest hmeets.right
  generalize hk : MAX_BLOCKS_PER_PEER - (m.requests peer).requestedBlocks.keys.card = k
  -- different entries of the path have different heights, and so different hashes
  have hnodup : ((((m.chain.db.path best c.height
      (min best.height (c.height + BLOCK_DOWNLOAD_WINDOW))).filter m.wants).take k).map
        ChainEntry.hash).Nodup := by
    have hup := ChainDB.path_pairwise c.height tree hbest
      (Nat.min_le_left best.height (c.height + BLOCK_DOWNLOAD_WINDOW))
    have hsub := (List.take_sublist k _).trans (List.filter_sublist (p := m.wants)
      (l := m.chain.db.path best c.height (min best.height (c.height + BLOCK_DOWNLOAD_WINDOW))))
    rw [List.Nodup, List.pairwise_map]
    refine (hup.sublist hsub).imp_of_mem fun {a b} ha hb hlt heq => ?_
    have hstored {e : ChainEntry} (he : e ∈ _) : m.chain.db.getEntryByHash e.hash = some e :=
      ((ChainDB.mem_path_iff tree hbest (Nat.min_le_left _ _)).1 (hsub.subset he)).1.stored
        tree hbest
    have hab := hstored ha
    rw [heq, hstored hb] at hab
    exact hlt.ne (congrArg ChainEntry.height (Option.some.inj hab).symm)
  by_cases hzero : k = 0
  · refine ⟨common, c, m, none, none, hcommon, hmeets, ?_, by rw [hzero]; rfl, List.nodup_nil⟩
    rw [getNextBlocks, hk]
    exact if_pos hzero
  · let start : Fetch := ⟨[], [], none, none, some c.hash, some c.height⟩
    obtain ⟨f, hwalk, hitems⟩ : ∃ f, m.walk peer best (c.height + BLOCK_DOWNLOAD_WINDOW)
        (min best.height (c.height + BLOCK_DOWNLOAD_WINDOW + 1)) k (best.height + 1) c start
          = .ok (f, false)
        ∧ f.items = (start.items ++ m.wanted (c.height + BLOCK_DOWNLOAD_WINDOW)
          (m.chain.db.path best c.height best.height)).take k :=
      walk_eq tree (inv.visited.inv law).main (inv.visited.skips law) hbest hvalid hmeets.right
        (by omega) (Nat.pos_of_ne_zero hzero)
    rw [List.nil_append, wanted, ChainDB.path_filter tree hbest le_rfl, ← List.map_take] at hitems
    have hnext : m.getNextBlocks peer best = .ok (m.update peer { m.requests peer with
        commonHash := f.commonHash, commonHeight := f.commonHeight },
        some (f.saved, f.items), f.staller) := by
      rw [getNextBlocks, hk, if_neg hzero, hentry, bind_of_ok rfl]
      dsimp only
      rw [hwalk]
      rfl
    rw [← hitems] at hnodup
    exact ⟨common, c, _, _, _, hcommon, hmeets, hnext, hitems, hnodup⟩

theorem run_turns {acts : List Act} (hacts : ∀ a ∈ acts, ∀ m, Permits env m a)
    (h : m.run env lib acts = some m') : ReflTransGen (Turn env lib) m m' := by
  induction acts generalizing m with
  | nil =>
    cases h
    exact .refl
  | cons a acts ih =>
    rw [run] at h
    obtain ⟨ha, hacts⟩ := List.forall_mem_cons.1 hacts
    split at h
    · rename_i m₁ hact
      exact .head ⟨a, ha m, hact⟩ (ih hacts h)
    · cases h

/-- A peer has shaken hands, and the headers of two blocks are known. -/
theorem getNextBlocks_window_small : ∃ (m m' : SyncManager) (best : ChainEntry)
    (next : Option (List ChainEntry × List BlockHash)) (staller : Option PeerId),
    m.getNextBlocks 0 best = .ok (m', next, staller) ∧ best.height = 2
      ∧ (chosen next).length = 2 ∧ (chosen next).Nodup := by
  let acts : List Act := [.connect 0, .handshakeComplete 0 .txid]
  obtain ⟨c, hc, hP⟩ := Chain.exists_reachable Small.env
    [.addHeader 100 Small.first.header, .addHeader 100 Small.overpaid.header]
    (fun c => c.mostWork.toOption.any fun best : ChainEntry =>
      ((SyncManager.new c none 3600).run Small.env Small.bip152 acts).any
        fun m : SyncManager => decide (m.chain.db.invalid = ∅ ∧ best.height = 2
          ∧ m.chain.db.getEntryByHash best.hash = some best)
          && (m.getNextBlocks 0 best).toOption.any
            fun result : SyncManager × Option (List ChainEntry × List BlockHash) × Option PeerId =>
              (chosen result.2.1).length == 2)
    (by decide) (by decide +kernel)
  obtain ⟨best, -, hP⟩ := (Option.any_eq_true _ _).1 hP
  obtain ⟨m, hrun, hm⟩ := (Option.any_eq_true _ _).1 hP
  rw [Bool.and_eq_true, decide_eq_true_iff] at hm
  obtain ⟨⟨hinvalid, hheight, hbest⟩, hlength⟩ := hm
  have hturns : ReflTransGen (Turn Small.env Small.bip152) (.new c none 3600) m :=
    run_turns (by simp [acts, Permits]) hrun
  obtain ⟨common, e, m', next, staller, -, -, hnext, -, hnodup⟩ := @getNextBlocks_window
    Small.env Small.bip152 m 0 best Small.lawful _ _ _ (hc.visited Small.lawful) hturns hbest
    (fun e _ => by simp [ChainDB.hasInvalid, hinvalid])
  rw [hnext] at hlength
  exact ⟨m, m', best, next, staller, hnext, hheight, eq_of_beq hlength, hnodup⟩

end SyncManager

end BitcoinNode
