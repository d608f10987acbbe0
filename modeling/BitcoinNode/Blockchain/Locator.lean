import BitcoinNode.Blockchain.Restart

/-!
# What the network asks of the chain

The entry with the most work, block locators, and the path of headers above a height, with
the proof that none of them panics on a reachable chain.
-/

namespace BitcoinNode

namespace ChainDB

/-- The loop of `get_next_path`: the entries above `height` down from `entry`, lowest first. -/
def pathAbove (db : ChainDB) (height : Nat) :
    Nat → ChainEntry → List ChainEntry → Except Panic (List ChainEntry)
  | fuel, entry, entries =>
    if entry.height > height then
      match fuel with
      | 0 => .error .diverges
      | fuel + 1 =>
        match db.getEntryByHash entry.prevBlock with
        | none => .error .nextPathMissing
        | some prev => pathAbove db height fuel prev (entry :: entries)
    else .ok entries

def getNextPath (db : ChainDB) (entry : ChainEntry) (height limit : Nat) :
    Except Panic (List ChainEntry) :=
  if limit = 0 then .ok []
  else do
    let start := height + limit
    let entry ← if start < entry.height then db.getAncestor entry start else pure entry
    db.pathAbove height entry.height entry []

/-- The loop of `get_locator`; every round lowers the height. -/
def locatorLoop (db : ChainDB) (start : ChainEntry) :
    Nat → Nat → Nat → Bool → List BlockHash → Except Panic (List BlockHash)
  | fuel, height, step, inBestChain, hashes =>
    if height = 0 then .ok hashes
    else
      match fuel with
      | 0 => .error .diverges
      | fuel + 1 => do
        let height := height - step
        let step := if hashes.length > 10 then step * 2 else step
        let (hash, inBestChain) ←
          if inBestChain then
            match ← db.getEntryByHeight height with
            | none => throw .locatorMain
            | some entry => pure (entry.hash, true)
          else do
            let ancestor ← db.getAncestor start height
            pure (ancestor.hash, db.isMainChain ancestor)
        locatorLoop db start fuel height step inBestChain (hashes ++ [hash])

end ChainDB

namespace Chain

def mostWork (c : Chain) : Except Panic ChainEntry :=
  match c.db.mostWork with
  | none => .error .notOpen
  | some entry => .ok entry

/-- `now` is the adjusted clock reading and `maxTipAge` the parameter of the network. -/
def isRecent (c : Chain) (now maxTipAge : Nat) : Except Panic Bool := do
  let best ← c.mostWork
  return best.time > (now - maxTipAge) % 2 ^ 32

def synced (c : Chain) (now maxTipAge : Nat) : Bool := c.tip.time > (now - maxTipAge) % 2 ^ 32

/-- The loop of `common_ancestor`: both sides go to their parents until they meet. -/
def commonLoop (c : Chain) :
    Nat → Option ChainEntry → Option ChainEntry → Except Panic (Option ChainEntry)
  | fuel, some a, some b =>
    if a.hash = b.hash then .ok (some a)
    else
      match fuel with
      | 0 => .error .diverges
      | fuel + 1 =>
        commonLoop c fuel (c.db.getEntryByHash a.prevBlock) (c.db.getEntryByHash b.prevBlock)
  | _, _, _ => .ok none

def commonAncestor (c : Chain) (a b : ChainEntry) : Except Panic (Option ChainEntry) := do
  let a' ← if a.height > b.height then c.db.getAncestor a b.height else pure a
  let b' ← if a.height < b.height then c.db.getAncestor b a.height else pure b
  c.commonLoop (min a.height b.height + 1) (some a') (some b')

def getLocator (c : Chain) (start : Option BlockHash) : Except Panic (List BlockHash) :=
  let start := start.getD c.tip.hash
  let (startEntry, hashes) :=
    match c.db.getEntryByHash start with
    | some entry => (entry, [])
    | none => (c.tip, [start])
  c.db.locatorLoop startEntry startEntry.height startEntry.height 1 (c.db.isMainChain startEntry)
    (hashes ++ [startEntry.hash])

end Chain

namespace ChainDB

variable {env : Env} {db : ChainDB} {tip entry : ChainEntry}

theorem exists_pathAbove (tree : db.Tree env) (he : db.getEntryByHash entry.hash = some entry)
    {height fuel : Nat} (hfuel : entry.height ≤ height + fuel) (entries : List ChainEntry) :
    ∃ path, db.pathAbove height fuel entry entries = .ok path := by
  induction fuel generalizing entry entries with
  | zero => exact ⟨entries, by rw [pathAbove, if_neg (by omega)]⟩
  | succ fuel ih =>
    rw [pathAbove]
    split
    · rename_i habove
      have hgen : entry.isGenesis = false := by
        simp only [ChainEntry.isGenesis, beq_eq_false_iff_ne]
        omega
      obtain ⟨prev, hprev⟩ := tree.exists_parent he hgen
      have hheight := tree.height_eq he hprev
      rw [hprev]
      exact ih (tree.self hprev) (by omega) (entry :: entries)
    · exact ⟨entries, rfl⟩

theorem exists_getNextPath (tree : db.Tree env) (main : db.Main tip) (skips : db.Skips)
    (he : db.getEntryByHash entry.hash = some entry) (height limit : Nat) :
    ∃ path, db.getNextPath entry height limit = .ok path := by
  unfold getNextPath
  split
  · exact ⟨[], rfl⟩
  dsimp only
  split
  · rename_i hstart
    obtain ⟨a, ha, hanc, -⟩ := getAncestor_eq tree main skips he hstart.le
    rw [ha, bind_of_ok rfl]
    exact exists_pathAbove tree (hanc.stored tree he) (by omega) []
  · rw [pure_bind]
    exact exists_pathAbove tree he (by omega) []

/-- The locator of a stored entry is found: on the main chain by height, elsewhere by
ancestors. -/
theorem exists_locatorLoop (tree : db.Tree env) (main : db.Main tip) (skips : db.Skips)
    (he : db.getEntryByHash entry.hash = some entry) {fuel height step : Nat} {inBestChain : Bool}
    (hstep : 0 < step) (hfuel : height ≤ fuel) (hle : height ≤ entry.height)
    (hbest : inBestChain = true → height ≤ tip.height) (hashes : List BlockHash) :
    ∃ locator, db.locatorLoop entry fuel height step inBestChain hashes = .ok locator := by
  induction fuel generalizing height step inBestChain hashes with
  | zero => exact ⟨hashes, by rw [locatorLoop, if_pos (by omega)]⟩
  | succ fuel ih =>
    rw [locatorLoop]
    split
    · exact ⟨hashes, rfl⟩
    have hstep' : 0 < (if hashes.length > 10 then step * 2 else step) := by
      split_ifs <;> omega
    dsimp only
    cases inBestChain with
    | true =>
      have htip := hbest rfl
      obtain ⟨hash, hhash⟩ := main.exists_lookup (show height - step ≤ tip.height by omega)
      obtain ⟨e, hstored, -⟩ := main.stored hhash
      have hentry : db.getEntryByHeight (height - step) = .ok (some e) := by
        rw [getEntryByHeight, hhash]
        dsimp only
        rw [show db.entryCache.hash.lookup hash = some e from hstored]
      rw [if_pos rfl, hentry, bind_of_ok rfl]
      exact ih hstep' (by omega) (by omega) (fun _ => by omega) _
    | false =>
      obtain ⟨a, ha, hanc, hheight⟩ :=
        getAncestor_eq tree main skips he (show height - step ≤ entry.height by omega)
      rw [if_neg (by simp), ha, bind_of_ok rfl]
      refine ih hstep' (by omega) (by omega) (fun hmain => ?_) _
      rw [← hheight]
      exact main.lookup_le (isMainChain_iff.1 hmain)

end ChainDB

namespace Chain

variable {env : Env} {c : Chain}

theorem exists_getLocator (law : env.Lawful) (h : Visited env c) (start : Option BlockHash) :
    ∃ locator, c.getLocator start = .ok locator := by
  have inv := h.inv law
  have skips := h.skips law
  unfold getLocator
  dsimp only
  have hloop : ∀ {e : ChainEntry}, c.db.getEntryByHash e.hash = some e → ∀ hashes,
      ∃ locator, c.db.locatorLoop e e.height e.height 1 (c.db.isMainChain e) hashes
        = .ok locator := by
    intro e he hashes
    refine ChainDB.exists_locatorLoop inv.tree inv.main skips he one_pos le_rfl le_rfl ?_ hashes
    exact fun hmain => inv.main.lookup_le (ChainDB.isMainChain_iff.1 hmain)
  split
  · rename_i entry hentry
    exact hloop (inv.tree.self hentry) _
  · exact hloop inv.tip_stored _

theorem exists_mostWork (law : env.Lawful) (h : Visited env c) :
    ∃ best, c.mostWork = .ok best ∧ c.db.getEntryByHash best.hash = some best := by
  obtain ⟨best, hbest, ⟨hstored, -⟩, -⟩ := h.mostWorkKept law
  exact ⟨best, by rw [mostWork, hbest], hstored⟩

end Chain

end BitcoinNode
