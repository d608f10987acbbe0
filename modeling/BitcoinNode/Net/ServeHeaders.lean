import BitcoinNode.Blockchain.Children
import BitcoinNode.Blockchain.Locating

/-!
# Serving headers

`handle_get_headers` of `net/peer_manager.rs`: it looks up where the locator leaves the main
chain, and sends the headers that follow there.
-/

namespace BitcoinNode

namespace PeerManager

def MAX_HEADERS : Nat := 2000

/-- The loop of `handle_get_headers`, from an entry on. -/
def headersLoop (db : ChainDB) (stopHash : BlockHash) :
    Nat → ChainEntry → List BlockHeader → Except Panic (List BlockHeader)
  | fuel, entry, headers =>
    let headers := headers ++ [entry.header]
    if entry.hash = stopHash then .ok headers
    else if headers.length = MAX_HEADERS then .ok headers
    else
      match db.getNext entry with
      | none => .ok headers
      | some next =>
        match fuel with
        | 0 => .error .diverges
        | fuel + 1 => headersLoop db stopHash fuel next headers

/-- The headers that are sent, if any are. -/
def handleGetHeaders (env : Env) (now maxTipAge : Nat) (chain : Chain)
    (locatorHashes : List BlockHash) (stopHash : BlockHash) :
    Except Panic (Option (List BlockHeader)) :=
  if !chain.synced now maxTipAge then .ok none
  else
    let hash :=
      if locatorHashes.isEmpty then some stopHash
      else chain.db.getNextHash (chain.findLocator env locatorHashes)
    match hash.bind chain.db.getEntryByHash with
    | none => .ok none
    | some entry => do
      let headers ← headersLoop chain.db stopHash MAX_HEADERS entry []
      return some headers

end PeerManager

/-! ## Following the main chain -/

namespace ChainDB

variable {env : Env} {db : ChainDB} {tip e next : ChainEntry} {above : List ChainEntry}

/-- The entries that `get_next` goes through after an entry. -/
def Follows (db : ChainDB) : ChainEntry → List ChainEntry → Prop
  | e, [] => db.getNext e = none
  | e, next :: above => db.getNext e = some next ∧ Follows db next above

/-- The entries up to the one with a hash, that one included. -/
def upTo (hash : BlockHash) : List ChainEntry → List ChainEntry
  | [] => []
  | e :: es => if e.hash = hash then [e] else e :: upTo hash es

theorem headersLoop_eq {stopHash : BlockHash} {fuel : Nat} {headers : List BlockHeader}
    (h : db.Follows e above) (hfuel : PeerManager.MAX_HEADERS ≤ headers.length + fuel)
    (hlt : headers.length < PeerManager.MAX_HEADERS) :
    PeerManager.headersLoop db stopHash fuel e headers
      = .ok (headers ++ (((upTo stopHash (e :: above)).take
        (PeerManager.MAX_HEADERS - headers.length)).map ChainEntry.header)) := by
  induction fuel generalizing e above headers with
  | zero => omega
  | succ fuel ih =>
    obtain ⟨room, hroom⟩ := Nat.exists_eq_add_of_lt hlt
    rw [PeerManager.headersLoop, upTo,
      show PeerManager.MAX_HEADERS - headers.length = room + 1 by omega]
    dsimp only
    by_cases hstop : e.hash = stopHash
    · simp [hstop]
    rw [if_neg hstop, if_neg hstop, List.take_succ_cons, List.map_cons]
    by_cases hfull : (headers ++ [e.header]).length = PeerManager.MAX_HEADERS
    · rw [if_pos hfull]
      rw [List.length_append, List.length_singleton] at hfull
      obtain rfl : room = 0 := by omega
      simp
    rw [if_neg hfull]
    rw [List.length_append, List.length_singleton] at hfull
    cases above with
    | nil =>
      rw [show db.getNext e = none from h]
      simp [upTo]
    | cons next above =>
      obtain ⟨hnext, hrest⟩ := h
      rw [hnext]
      dsimp only
      rw [ih hrest (by simp; omega) (by simp; omega), List.length_append, List.length_singleton,
        show PeerManager.MAX_HEADERS - (headers.length + 1) = room by omega, List.append_assoc,
        List.singleton_append]

/-- The next entry of a main-chain entry is the one above it. -/
theorem getNext_eq_some {c : Chain} (nexts : c.Nexts) (main : c.db.Main c.tip)
    (hmain : c.db.isMainChain e = true) :
    c.db.getNext e = some next ↔ c.db.getEntryByHeight (e.height + 1) = .ok (some next) := by
  have hlookup := isMainChain_iff.1 hmain
  have hcolumn : ∀ hash, c.db.getNextHash e.hash = some hash
      ↔ c.db.entryCache.height.lookup (e.height + 1) = some hash := by
    intro hash
    rw [nexts.main]
    constructor
    · rintro ⟨h, hh, hnext⟩
      rwa [← main.height_unique hh hlookup]
    · exact fun hnext => ⟨e.height, hlookup, hnext⟩
  rw [getNext, Option.bind_eq_some_iff, getEntryByHeight]
  cases hheight : c.db.entryCache.height.lookup (e.height + 1) with
  | none =>
    refine iff_of_false ?_ (by simp)
    rintro ⟨hash, hhash, -⟩
    rw [hcolumn, hheight] at hhash
    cases hhash
  | some hash =>
    obtain ⟨a, ha, -⟩ := main.stored hheight
    have ha' : c.db.entryCache.hash.lookup hash = some a := ha
    dsimp only
    rw [ha']
    constructor
    · rintro ⟨hash', hhash', hnext⟩
      rw [hcolumn, hheight] at hhash'
      cases hhash'
      rw [ha] at hnext
      rw [Option.some.inj hnext]
    · intro hok
      exact ⟨hash, (hcolumn hash).2 hheight, by rw [ha]; exact Except.ok.inj hok⟩

/-- The entries that follow a main-chain entry are those of the heights above it. -/
theorem exists_follows {c : Chain} (nexts : c.Nexts) (tree : c.db.Tree env)
    (main : c.db.Main c.tip) (hmain : c.db.isMainChain e = true) :
    ∃ above, c.db.Follows e above
      ∧ ∀ i, c.db.getEntryByHeight (e.height + 1 + i) = .ok above[i]? := by
  have hle := main.lookup_le (isMainChain_iff.1 hmain)
  obtain ⟨n, hn⟩ := Nat.exists_eq_add_of_le hle
  induction n generalizing e with
  | zero =>
    have hnone : ∀ i, c.db.getEntryByHeight (e.height + 1 + i) = .ok none := fun i => by
      rw [getEntryByHeight, main.above (by omega)]
    refine ⟨[], ?_, by simpa using hnone⟩
    cases hnext : c.db.getNext e with
    | none => exact hnext
    | some next =>
      rw [getNext_eq_some nexts main hmain] at hnext
      cases (hnone 0).symm.trans hnext
  | succ n ih =>
    obtain ⟨hash, hhash⟩ := main.exists_lookup (show e.height + 1 ≤ c.tip.height by omega)
    obtain ⟨next, hnext, hheight⟩ := main.stored hhash
    have hself : c.db.entryCache.hash.lookup hash = some next := hnext
    have hentry : c.db.getEntryByHeight (e.height + 1) = .ok (some next) := by
      rw [getEntryByHeight, hhash]
      dsimp only
      rw [hself]
    have hmain' : c.db.isMainChain next = true :=
      isMainChain_iff.2 (by rw [hheight, hhash, tree.hash_eq hnext])
    obtain ⟨above, hfollows, habove⟩ := ih hmain' (by omega) (by omega)
    refine ⟨next :: above, ⟨(getNext_eq_some nexts main hmain).2 hentry, hfollows⟩,
      fun i => ?_⟩
    cases i with
    | zero => exact hentry
    | succ i =>
      rw [List.getElem?_cons_succ, ← habove, hheight]
      congr 1
      omega

end ChainDB

namespace Chain

variable {env : Env} {c : Chain}

/-- `NextHash` leads from every main-chain block below the tip to its child there, and from no
other block. -/
theorem getNextHash_iff (inv : c.Inv env) (nexts : c.Nexts) {hash next : BlockHash} :
    c.db.getNextHash hash = some next ↔ ∃ e e', c.db.getEntryByHash hash = some e
      ∧ c.db.getEntryByHash next = some e' ∧ c.db.isMainChain e = true
      ∧ c.db.isMainChain e' = true ∧ e'.prevBlock = hash := by
  rw [nexts.main]
  constructor
  · rintro ⟨h, hh, hnext⟩
    obtain ⟨e, he, rfl⟩ := inv.main.stored hh
    obtain ⟨e', he', hheight⟩ := inv.main.stored hnext
    have hprev := inv.main.prev hnext he'
    rw [hh] at hprev
    refine ⟨e, e', he, he', ?_, ?_, (Option.some.inj hprev).symm⟩
    · exact ChainDB.isMainChain_iff.2 (by rw [hh, inv.tree.hash_eq he])
    · exact ChainDB.isMainChain_iff.2 (by rw [hheight, hnext, inv.tree.hash_eq he'])
  · rintro ⟨e, e', he, he', hmain, hmain', rfl⟩
    have hheight := inv.tree.height_eq he' he
    rw [ChainDB.isMainChain_iff] at hmain hmain'
    rw [inv.tree.hash_eq he] at hmain
    rw [inv.tree.hash_eq he', hheight] at hmain'
    exact ⟨e.height, hmain, hmain'⟩

theorem exists_findLocator (inv : c.Inv env) (locator : List BlockHash) :
    ∃ found, c.db.getEntryByHash (c.findLocator env locator) = some found
      ∧ c.db.isMainChain found = true := by
  induction locator with
  | nil => exact ⟨_, inv.tree.genesis, isMainChain_genesis inv inv.tree.genesis rfl⟩
  | cons hash locator ih =>
    rw [findLocator]
    split
    · rename_i hmain
      unfold ChainDB.isMainHash at hmain
      split at hmain
      · cases hmain
      · exact ⟨_, ‹_›, hmain⟩
    · exact ih

/-- The headers served for a locator are those of the main chain after the block it leads to, up
to the stop hash, at most two thousand; none are sent when that block is the tip. -/
theorem handleGetHeaders_eq (law : env.Lawful) (h : Visited env c) {now maxTipAge : Nat}
    (hsynced : c.synced now maxTipAge = true) {locator : List BlockHash} (hne : locator ≠ [])
    (stopHash : BlockHash) :
    ∃ found above, c.db.getEntryByHash (c.findLocator env locator) = some found
      ∧ c.db.isMainChain found = true
      ∧ (∀ i, c.db.getEntryByHeight (found.height + 1 + i) = .ok above[i]?)
      ∧ PeerManager.handleGetHeaders env now maxTipAge c locator stopHash
        = .ok (if found = c.tip then none
          else some (((ChainDB.upTo stopHash above).take 2000).map ChainEntry.header))
      ∧ ∀ hash next, c.db.getNextHash hash = some next ↔
        ∃ e e', c.db.getEntryByHash hash = some e ∧ c.db.getEntryByHash next = some e'
          ∧ c.db.isMainChain e = true ∧ c.db.isMainChain e' = true ∧ e'.prevBlock = hash := by
  have inv := h.inv law
  have nexts := h.nexts law
  obtain ⟨found, hfound, hmain⟩ := exists_findLocator inv locator
  obtain ⟨above, hfollows, habove⟩ := ChainDB.exists_follows nexts inv.tree inv.main hmain
  refine ⟨found, above, hfound, hmain, habove, ?_, fun hash next => getNextHash_iff inv nexts⟩
  have hnext : (c.db.getNextHash (c.findLocator env locator)).bind c.db.getEntryByHash
      = c.db.getNext found := by
    rw [ChainDB.getNext, inv.tree.hash_eq hfound]
  unfold PeerManager.handleGetHeaders
  rw [if_neg (by simp [hsynced]), if_neg (by simpa using hne)]
  dsimp only
  rw [hnext]
  cases above with
  | nil =>
    have htip : found = c.tip := by
      have hlookup := ChainDB.isMainChain_iff.1 hmain
      have hle := inv.main.lookup_le hlookup
      have hheight : found.height = c.tip.height := by
        by_contra hdiffer
        obtain ⟨hash, hhash⟩ := inv.main.exists_lookup
          (show found.height + 1 ≤ c.tip.height by omega)
        obtain ⟨e, he, -⟩ := inv.main.stored hhash
        have hself : c.db.entryCache.hash.lookup hash = some e := he
        have hentry := habove 0
        rw [Nat.add_zero, ChainDB.getEntryByHeight, hhash] at hentry
        dsimp only at hentry
        rw [hself] at hentry
        cases hentry
      rw [hheight, inv.main.top] at hlookup
      have hself := inv.tree.self hfound
      rw [← Option.some.inj hlookup, inv.tip_stored] at hself
      exact (Option.some.inj hself).symm
    rw [show c.db.getNext found = none from hfollows, if_pos htip]
  | cons e above =>
    obtain ⟨he, hrest⟩ := hfollows
    have htip : found ≠ c.tip := by
      rintro rfl
      have hnone := inv.main.above (Nat.lt_succ_self c.tip.height)
      have hentry := habove 0
      rw [ChainDB.getEntryByHeight, hnone] at hentry
      cases hentry
    rw [he, if_neg htip]
    dsimp only
    rw [ChainDB.headersLoop_eq hrest (by simp) (by decide), bind_of_ok rfl]
    rfl

/-- A locator of unknown hashes, after one block. -/
theorem handleGetHeaders_eq_first : ∃ c above, Reachable Small.env c ∧ c.tip.height = 1
    ∧ (∀ i, c.db.getEntryByHeight (1 + i) = .ok above[i]?)
    ∧ PeerManager.handleGetHeaders Small.env 0 0 c [5] 0
      = .ok (some (((ChainDB.upTo 0 above).take 2000).map ChainEntry.header)) := by
  obtain ⟨c, hc, hP⟩ := exists_reachable Small.env [.add 100 Small.first]
    (fun c => decide (c.tip.height = 1 ∧ c.synced 0 0 = true
      ∧ c.findLocator Small.env [5] = Small.env.genesisEntry.hash)) (by decide) (by decide +kernel)
  obtain ⟨hheight, hsynced, hfind⟩ := of_decide_eq_true hP
  have hvisited := hc.visited Small.lawful
  obtain ⟨found, above, hfound, -, habove, hsent, -⟩ :=
    handleGetHeaders_eq Small.lawful hvisited hsynced (List.cons_ne_nil 5 []) 0
  rw [hfind, (hvisited.inv Small.lawful).tree.genesis] at hfound
  cases hfound
  have hne : Small.env.genesisEntry ≠ c.tip := by
    rintro heq
    rw [← heq] at hheight
    cases hheight
  rw [if_neg hne] at hsent
  exact ⟨c, above, hc, hheight, habove, hsent⟩

end Chain

end BitcoinNode
