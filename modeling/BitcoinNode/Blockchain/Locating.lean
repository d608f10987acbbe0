import BitcoinNode.Blockchain.Locator
import BitcoinNode.Blockchain.Loops

/-!
# Locators

A block locator lists ancestors of its start, ten of them one apart and then at distances that
double. Another node answers from the first one on its main chain, which lies at most twice as
deep as the fork.
-/

namespace BitcoinNode

/-! ## The heights of a locator -/

/-- The heights that the loop of `get_locator` visits below one, given how many it has. -/
def locatorHeights : Nat → Nat → Nat → Nat → List Nat
  | 0, _, _, _ => []
  | fuel + 1, height, step, count =>
    if height = 0 then []
    else (height - step) :: locatorHeights fuel (height - step)
      (if count > 10 then step * 2 else step) (count + 1)

/-- How the step goes with the depth: the first eleven heights are one apart, and from then on
the step is the depth less nine. -/
structure Pace (top height step count : Nat) : Prop where
  step_pos : 0 < step
  early : 0 < height → count ≤ 10 → step = 1 ∧ top + 1 = height + count
  late : 0 < height → 10 < count → top = height + 9 + step

namespace Pace

variable {top height step count : Nat}

theorem start (top : Nat) : Pace top top 1 1 where
  step_pos := Nat.one_pos
  early _ _ := ⟨rfl, rfl⟩
  late _ h := absurd h (by decide)

theorem next (h : Pace top height step count) (hheight : 0 < height) :
    Pace top (height - step) (if count > 10 then step * 2 else step) (count + 1) := by
  have hpos := h.step_pos
  have hearly := h.early hheight
  have hlate := h.late hheight
  constructor <;> grind

/-- The step fits a 32-bit word for heights that fit 31 bits, and so does its double. -/
theorem step_lt (h : Pace top height step count) (hheight : 0 < height) (htop : top < 2 ^ 31) :
    step * 2 < 2 ^ 32 := by
  have hearly := h.early hheight
  have hlate := h.late hheight
  omega

end Pace

section Heights

variable {top height step count fuel t : Nat}

theorem locatorHeights_lt (hstep : 0 < step) :
    (height :: locatorHeights fuel height step count).Pairwise (· > ·) := by
  induction fuel generalizing height step count with
  | zero => exact List.pairwise_singleton _ _
  | succ fuel ih =>
    rw [locatorHeights]
    by_cases hzero : height = 0
    · rw [if_pos hzero]
      exact List.pairwise_singleton _ _
    · rw [if_neg hzero]
      have hstep' : 0 < (if count > 10 then step * 2 else step) := by split_ifs <;> omega
      have hrest := @ih (height - step) _ (count + 1) hstep'
      refine List.pairwise_cons.2 ⟨fun x hx => ?_, hrest⟩
      have hlt : height - step < height := by omega
      rcases List.mem_cons.1 hx with rfl | hx
      · exact hlt
      · exact ((List.pairwise_cons.1 hrest).1 x hx).trans hlt

theorem getLast?_locatorHeights (hstep : 0 < step) (hfuel : height ≤ fuel) :
    (height :: locatorHeights fuel height step count).getLast? = some 0 := by
  induction fuel generalizing height step count with
  | zero =>
    obtain rfl := Nat.le_zero.1 hfuel
    rfl
  | succ fuel ih =>
    rw [locatorHeights]
    by_cases hzero : height = 0
    · rw [if_pos hzero, hzero]
      rfl
    · rw [if_neg hzero, List.getLast?_cons_cons]
      exact ih (by split_ifs <;> omega) (by omega)

/-- The first height at most `t` is `t` itself within the first eleven, and else not twice as
deep. -/
theorem exists_locatorHeight (hpace : Pace top height step count) (hfuel : height ≤ fuel)
    (htop : height ≤ top) (ht : t < height) :
    ∃ before h after, locatorHeights fuel height step count = before ++ h :: after
      ∧ (∀ x ∈ before, t < x) ∧ h ≤ t ∧ (top - t ≤ 11 → h = t) ∧ top - h ≤ 2 * (top - t) := by
  induction fuel generalizing height step count with
  | zero => omega
  | succ fuel ih =>
    have hearly := hpace.early (Nat.zero_lt_of_lt ht)
    have hlate := hpace.late (Nat.zero_lt_of_lt ht)
    have hpos := hpace.step_pos
    rw [locatorHeights, if_neg (by omega)]
    by_cases hreached : height - step ≤ t
    · refine ⟨[], height - step, _, rfl, by simp, hreached, ?_, ?_⟩
      · omega
      · omega
    · obtain ⟨before, h, after, hsplit, hbefore, hfound⟩ :=
        ih (hpace.next (Nat.zero_lt_of_lt ht)) (by omega) (by omega) (by omega)
      exact ⟨(height - step) :: before, h, after, by rw [hsplit, List.cons_append],
        List.forall_mem_cons.2 ⟨by omega, hbefore⟩, hfound⟩

/-- The same for the whole list, which starts with its top. -/
theorem exists_locatorHeight_top (ht : t ≤ top) :
    ∃ before h after, top :: locatorHeights top top 1 1 = before ++ h :: after
      ∧ (∀ x ∈ before, t < x) ∧ h ≤ t ∧ (top - t ≤ 11 → h = t) ∧ top - h ≤ 2 * (top - t) := by
  rcases ht.eq_or_lt with rfl | hlt
  · exact ⟨[], t, _, rfl, by simp, le_rfl, fun _ => rfl, by omega⟩
  · obtain ⟨before, h, after, hsplit, hbefore, hfound⟩ :=
      exists_locatorHeight (.start top) le_rfl le_rfl hlt
    exact ⟨top :: before, h, after, by rw [hsplit, List.cons_append],
      List.forall_mem_cons.2 ⟨hlt, hbefore⟩, hfound⟩

end Heights

/-! ## The loop -/

namespace ChainDB

variable {env : Env} {db : ChainDB} {tip entry : ChainEntry}

/-- `get_locator` in a build with overflow checks: its steps are 32-bit words. -/
def checkedLocatorLoop (db : ChainDB) (start : ChainEntry) :
    Nat → Nat → Nat → Bool → List BlockHash → Except Panic (List BlockHash)
  | fuel, height, step, inBestChain, hashes =>
    if height = 0 then .ok hashes
    else
      match fuel with
      | 0 => .error .diverges
      | fuel + 1 => do
        let height := height - step
        if hashes.length > 10 ∧ ¬ step * 2 < 2 ^ 32 then throw .overflow
        let step := if hashes.length > 10 then step * 2 else step
        let (hash, inBestChain) ←
          if inBestChain then
            match ← db.getEntryByHeight height with
            | none => throw .locatorMain
            | some entry => pure (entry.hash, true)
          else do
            let ancestor ← db.getAncestor start height
            pure (ancestor.hash, db.isMainChain ancestor)
        checkedLocatorLoop db start fuel height step inBestChain (hashes ++ [hash])

theorem checkedLocatorLoop_eq {top fuel height step : Nat} {inBestChain : Bool}
    {hashes : List BlockHash} (hpace : Pace top height step hashes.length) (htop : top < 2 ^ 31) :
    db.checkedLocatorLoop entry fuel height step inBestChain hashes
      = db.locatorLoop entry fuel height step inBestChain hashes := by
  induction fuel generalizing height step inBestChain hashes with
  | zero => rw [checkedLocatorLoop, locatorLoop]
  | succ fuel ih =>
    rw [checkedLocatorLoop, locatorLoop]
    by_cases hzero : height = 0
    · rw [if_pos hzero, if_pos hzero]
    · have hpos := Nat.pos_of_ne_zero hzero
      have hfits := hpace.step_lt hpos htop
      rw [if_neg hzero, if_neg hzero]
      dsimp only
      rw [if_neg (fun h => h.2 hfits)]
      have hround : ∀ hash best, db.checkedLocatorLoop entry fuel (height - step)
          (if hashes.length > 10 then step * 2 else step) best (hashes ++ [hash])
          = db.locatorLoop entry fuel (height - step)
            (if hashes.length > 10 then step * 2 else step) best (hashes ++ [hash]) :=
        fun hash best => ih (by simpa using hpace.next hpos)
      by_cases hbest : inBestChain = true
      · rw [if_pos hbest, if_pos hbest]
        refine bind_congr fun found => ?_
        cases found with
        | none => rfl
        | some found => exact hround _ _
      · rw [if_neg hbest, if_neg hbest]
        exact bind_congr fun _ => hround _ _

/-- The entry found for a height of the locator, by the height index or by its ancestry. -/
theorem exists_locatorEntry (tree : db.Tree env) (main : db.Main tip) (skips : db.Skips)
    (he : db.getEntryByHash entry.hash = some entry) {height h : Nat} {inBestChain : Bool}
    (hle : height ≤ entry.height) (hh : h ≤ height)
    (hbest : inBestChain = true → ∃ a, db.Ancestor entry a ∧ a.height = height
      ∧ db.isMainChain a = true) :
    ∃ a, db.Ancestor entry a ∧ a.height = h
      ∧ (inBestChain = true → db.getEntryByHeight h = .ok (some a) ∧ db.isMainChain a = true)
      ∧ (inBestChain = false → db.getAncestor entry h = .ok a) := by
  cases inBestChain with
  | false =>
    obtain ⟨a, ha, hanc, hheight⟩ := getAncestor_eq tree main skips he (hh.trans hle)
    exact ⟨a, hanc, hheight, nofun, fun _ => ha⟩
  | true =>
    obtain ⟨b, hb, hheight, hmain⟩ := hbest rfl
    have hstored := hb.stored tree he
    obtain ⟨a, hclimb⟩ := tree.rooted.exists_climb hstored (n := b.height - h) (by omega)
    have hanc : db.Ancestor b a := Forest.ancestor_of_climb hclimb
    have hrank := tree.rooted.rank_climb hstored hclimb
    have hmain' := main.isMainChain_of_ancestor tree hstored hanc hmain
    have hself : db.entryCache.hash.lookup a.hash = some a := hanc.stored tree hstored
    have hlookup := isMainChain_iff.1 hmain'
    refine ⟨a, hb.trans hanc, by omega, fun _ => ⟨?_, hmain'⟩, nofun⟩
    rw [show a.height = h by omega] at hlookup
    simp only [getEntryByHeight, hlookup, hself]

/-- The loop appends the hashes of ancestors at the heights that it visits. -/
theorem locatorLoop_eq (tree : db.Tree env) (main : db.Main tip) (skips : db.Skips)
    (he : db.getEntryByHash entry.hash = some entry) {fuel height step : Nat} {inBestChain : Bool}
    (hashes : List BlockHash) (hstep : 0 < step) (hfuel : height ≤ fuel)
    (hle : height ≤ entry.height)
    (hbest : inBestChain = true → ∃ a, db.Ancestor entry a ∧ a.height = height
      ∧ db.isMainChain a = true) :
    ∃ entries : List ChainEntry, db.locatorLoop entry fuel height step inBestChain hashes
        = .ok (hashes ++ entries.map ChainEntry.hash)
      ∧ entries.map ChainEntry.height = locatorHeights fuel height step hashes.length
      ∧ ∀ a ∈ entries, db.Ancestor entry a := by
  induction fuel generalizing height step inBestChain hashes with
  | zero =>
    refine ⟨[], ?_, rfl, nofun⟩
    rw [locatorLoop, if_pos (Nat.le_zero.1 hfuel)]
    simp
  | succ fuel ih =>
    rw [locatorLoop, locatorHeights]
    by_cases hzero : height = 0
    · rw [if_pos hzero, if_pos hzero]
      exact ⟨[], by simp, rfl, nofun⟩
    rw [if_neg hzero, if_neg hzero]
    obtain ⟨a, hanc, hheight, hindex, hsearch⟩ :=
      exists_locatorEntry tree main skips he hle (Nat.sub_le height step) hbest
    have hround : ∀ best, (best = true → db.isMainChain a = true) → ∃ entries : List ChainEntry,
        db.locatorLoop entry fuel (height - step)
          (if hashes.length > 10 then step * 2 else step) best
          (hashes ++ [a.hash]) = .ok (hashes ++ (a :: entries).map ChainEntry.hash)
        ∧ (a :: entries).map ChainEntry.height =
          (height - step) :: locatorHeights fuel (height - step)
          (if hashes.length > 10 then step * 2 else step) (hashes.length + 1)
        ∧ ∀ b ∈ a :: entries, db.Ancestor entry b := by
      intro best hbest
      obtain ⟨entries, hloop, hheights, hancs⟩ := @ih (height - step)
        (if hashes.length > 10 then step * 2 else step) best (hashes ++ [a.hash])
        (by split_ifs <;> omega) (by omega) (by omega) fun h => ⟨a, hanc, hheight, hbest h⟩
      refine ⟨entries, ?_, ?_, List.forall_mem_cons.2 ⟨hanc, hancs⟩⟩
      · rw [hloop, List.map_cons, List.append_assoc, List.singleton_append]
      · rw [List.map_cons, hheights, hheight, List.length_append, List.length_singleton]
    dsimp only
    cases inBestChain with
    | true =>
      obtain ⟨hentry, hmain⟩ := hindex rfl
      obtain ⟨entries, hentries⟩ := hround true fun _ => hmain
      rw [if_pos rfl, hentry, bind_of_ok rfl]
      exact ⟨a :: entries, hentries⟩
    | false =>
      obtain ⟨entries, hentries⟩ := hround (db.isMainChain a) id
      rw [if_neg (by simp), hsearch rfl, bind_of_ok rfl]
      exact ⟨a :: entries, hentries⟩

end ChainDB

namespace Chain

variable {env env' : Env} {c c' : Chain} {start : ChainEntry}

def checkedGetLocator (c : Chain) (start : Option BlockHash) : Except Panic (List BlockHash) :=
  let start := start.getD c.tip.hash
  let (startEntry, hashes) :=
    match c.db.getEntryByHash start with
    | some entry => (entry, [])
    | none => (c.tip, [start])
  c.db.checkedLocatorLoop startEntry startEntry.height startEntry.height 1
    (c.db.isMainChain startEntry) (hashes ++ [startEntry.hash])

/-- The first hash of the locator that is on the main chain, or else genesis. -/
def findLocator (env : Env) (c : Chain) : List BlockHash → BlockHash
  | [] => env.blockHash env.genesisBlock.header
  | hash :: locator => if c.db.isMainHash hash then hash else findLocator env c locator

theorem findLocator_append {before : List BlockHash}
    (h : ∀ hash ∈ before, c.db.isMainHash hash = false)
    {hash : BlockHash} (hmain : c.db.isMainHash hash = true) (after : List BlockHash) :
    c.findLocator env (before ++ hash :: after) = hash := by
  induction before with
  | nil => exact if_pos hmain
  | cons first before ih =>
    obtain ⟨hfirst, hbefore⟩ := List.forall_mem_cons.1 h
    rw [List.cons_append, findLocator, if_neg (by simp [hfirst])]
    exact ih hbefore

/-- The locator of a stored entry, as the ancestors that it lists. -/
theorem getLocator_eq (law : env.Lawful) (h : Visited env c)
    (hstart : c.db.getEntryByHash start.hash = some start) :
    ∃ entries : List ChainEntry, c.getLocator (some start.hash) = .ok (entries.map ChainEntry.hash)
      ∧ entries.map ChainEntry.height
        = start.height :: locatorHeights start.height start.height 1 1
      ∧ entries.head? = some start ∧ ∀ a ∈ entries, c.db.Ancestor start a := by
  have inv := h.inv law
  obtain ⟨entries, hloop, hheights, hancs⟩ := @ChainDB.locatorLoop_eq env _ _ start
    inv.tree inv.main (h.skips law) hstart start.height start.height 1
    (c.db.isMainChain start) [start.hash] Nat.one_pos
    le_rfl le_rfl fun hmain => ⟨start, .refl, rfl, hmain⟩
  refine ⟨start :: entries, ?_, ?_, rfl, List.forall_mem_cons.2 ⟨.refl, hancs⟩⟩
  · rw [getLocator, Option.getD_some, hstart]
    exact hloop
  · rw [List.map_cons, hheights]
    rfl

theorem checkedGetLocator_eq (hstart : c.db.getEntryByHash start.hash = some start)
    (hheight : start.height < 2 ^ 31) :
    c.checkedGetLocator (some start.hash) = c.getLocator (some start.hash) := by
  rw [checkedGetLocator, getLocator, Option.getD_some, hstart]
  exact ChainDB.checkedLocatorLoop_eq (.start start.height) hheight

/-- If another node has a block on its main chain then it has the ancestors there too. -/
theorem isMainHash_of_ancestor (law : env.Lawful) (inv : c.Inv env) (law' : env'.Lawful)
    (inv' : c'.Inv env')
    (hinj : Function.Injective env.blockHash) (hhash : env'.blockHash = env.blockHash)
    {e a : ChainEntry} (he : c.db.getEntryByHash e.hash = some e) (hanc : c.db.Ancestor e a)
    (hmain : c'.db.isMainHash e.hash = true) : c'.db.isMainHash a.hash = true := by
  induction hanc using Relation.ReflTransGen.head_induction_on with
  | refl => exact hmain
  | @head e p hp hanc ih =>
    refine ih (inv.tree.self hp) ?_
    unfold ChainDB.isMainHash at hmain ⊢
    split at hmain
    · cases hmain
    rename_i e' he'
    have hself := inv'.tree.self he'
    -- one hash has one header, so the parents have one hash
    have hheader : e'.header = e.header := by
      refine hinj ?_
      rw [inv.tree.header_hash he, ← hhash, inv'.tree.header_hash he']
    have hprev : e'.prevBlock = p.hash :=
      (congrArg BlockHeader.prevBlockhash hheader).trans (inv.tree.hash_eq hp).symm
    have hgen : e'.isGenesis = false := by
      by_contra hgen
      have hroot := inv'.tree.rooted.eq_root_of_rank he'
        (by simpa [ChainEntry.isGenesis] using hgen)
      have hzero : e'.prevBlock = 0 := hroot ▸ law'.genesis_prev
      refine law.blockHash_ne_zero p.header ?_
      rw [inv.tree.header_hash (inv.tree.self hp), ← hprev, hzero]
    obtain ⟨p', hp'⟩ := inv'.tree.exists_parent he' hgen
    rw [← hprev, hp']
    exact inv'.main.isMainChain_parent inv'.tree hself hp' hmain

/-- Nodes with one genesis block have a highest common block below any entry. -/
theorem exists_highest_common (law : env.Lawful) (law' : env'.Lawful)
    (hhash : env'.blockHash = env.blockHash)
    (hgenesis : env'.genesisBlock = env.genesisBlock) (h : Visited env c) (h' : Visited env' c')
    (hstart : c.db.getEntryByHash start.hash = some start) :
    ∃ fork, c.db.Ancestor start fork ∧ c'.db.isMainHash fork.hash = true
      ∧ ∀ a, c.db.Ancestor start a → c'.db.isMainHash a.hash = true → a.height ≤ fork.height := by
  classical
  have inv := h.inv law
  have inv' := h'.inv law'
  let Common (n : Nat) : Prop :=
    ∃ a, c.db.Ancestor start a ∧ a.height = n ∧ c'.db.isMainHash a.hash = true
  obtain ⟨root, hclimb⟩ := inv.tree.rooted.exists_climb hstart le_rfl
  have hanc : c.db.Ancestor start root := Forest.ancestor_of_climb hclimb
  have hrank := inv.tree.rooted.rank_climb hstart hclimb
  have hroot := inv.tree.rooted.eq_root_of_rank (hanc.stored inv.tree hstart) (by omega)
  have hcommon : Common 0 := by
    refine ⟨root, hanc, by omega, ?_⟩
    have hsame : root.hash = env'.genesisEntry.hash := by
      rw [hroot]
      simp [Env.genesisEntry, ChainEntry.fromBlockHeader, hhash, hgenesis]
    rw [hsame, ChainDB.isMainHash, inv'.tree.genesis]
    exact isMainChain_genesis inv' inv'.tree.genesis rfl
  obtain ⟨fork, hfork, hheight, hmain⟩ :=
    Nat.findGreatest_spec (P := Common) (Nat.zero_le start.height) hcommon
  refine ⟨fork, hfork, hmain, fun a ha hamain => ?_⟩
  rw [hheight]
  exact Nat.le_findGreatest (inv.tree.rooted.rank_le_of_ancestor hstart ha) ⟨a, ha, rfl, hamain⟩

/-- A locator leads another node to the fork, exactly when it is not deep and else to a block at
most twice as deep. -/
theorem locator_finds_fork (law : env.Lawful) (law' : env'.Lawful)
    (hinj : Function.Injective env.blockHash) (hhash : env'.blockHash = env.blockHash)
    (hgenesis : env'.genesisBlock = env.genesisBlock) (h : Visited env c) (h' : Visited env' c')
    (hstart : c.db.getEntryByHash start.hash = some start) (hheight : start.height < 2 ^ 31) :
    ∃ entries : List ChainEntry, c.getLocator (some start.hash) = .ok (entries.map ChainEntry.hash)
      ∧ c.checkedGetLocator (some start.hash) = .ok (entries.map ChainEntry.hash)
      ∧ entries.head? = some start ∧ (∀ a ∈ entries, c.db.Ancestor start a)
      ∧ entries.Pairwise (fun a b => b.height < a.height)
      ∧ entries.getLast? = some env.genesisEntry
      ∧ ∃ fork found, c.db.Ancestor start fork ∧ c'.db.isMainHash fork.hash = true
        ∧ (∀ a, c.db.Ancestor start a → c'.db.isMainHash a.hash = true → a.height ≤ fork.height)
        ∧ c'.findLocator env' (entries.map ChainEntry.hash) = found.hash
        ∧ c.db.Ancestor start found ∧ c'.db.isMainHash found.hash = true
        ∧ (start.height - fork.height ≤ 11 →
          start.height - found.height = start.height - fork.height)
        ∧ start.height - found.height ≤ 2 * (start.height - fork.height) := by
  have inv := h.inv law
  have inv' := h'.inv law'
  obtain ⟨entries, hlocator, hheights, hhead, hancs⟩ := getLocator_eq law h hstart
  obtain ⟨fork, hfork, hmain, hhighest⟩ := exists_highest_common law law' hhash hgenesis h h'
    hstart
  obtain ⟨before, height, after, hsplit, hbefore, hle, hexact, htwice⟩ :=
    exists_locatorHeight_top (inv.tree.rooted.rank_le_of_ancestor hstart hfork)
  rw [hsplit] at hheights
  obtain ⟨before, rest, rfl, rfl, hrest⟩ := List.map_eq_append_iff.1 hheights
  obtain ⟨found, after, rfl, rfl, rfl⟩ := List.map_eq_cons_iff.1 hrest
  have hfound := hancs found (by simp)
  have hlow := inv.tree.rooted.ancestor_of_rank_le hstart hfork hfound hle
  have hfoundMain := isMainHash_of_ancestor law inv law' inv' hinj hhash
    (hfork.stored inv.tree hstart) hlow hmain
  refine ⟨_, hlocator, ?_, hhead, hancs, ?_, ?_, fork, found, hfork, hmain, hhighest, ?_, hfound,
    hfoundMain, ?_, htwice⟩
  · rw [checkedGetLocator_eq hstart hheight, hlocator]
  · have hsorted := @locatorHeights_lt start.height 1 1 start.height Nat.one_pos
    rw [hsplit, ← hheights, List.pairwise_map] at hsorted
    exact hsorted
  · have hlast := @getLast?_locatorHeights start.height 1 1 start.height Nat.one_pos le_rfl
    rw [hsplit, ← hheights, List.getLast?_map] at hlast
    obtain ⟨root, hroot, hzero⟩ := Option.map_eq_some_iff.1 hlast
    have hanc := hancs root (List.mem_of_getLast? hroot)
    rw [hroot, inv.tree.rooted.eq_root_of_rank (hanc.stored inv.tree hstart) hzero]
  · rw [List.map_append, List.map_cons]
    refine findLocator_append (fun hash hmem => ?_) hfoundMain _
    obtain ⟨a, ha, rfl⟩ := List.mem_map.1 hmem
    by_contra hnot
    have := hhighest a (hancs a (by simp [ha])) (by simpa using hnot)
    have := hbefore _ (List.mem_map_of_mem ha)
    omega
  · intro hd
    rw [hexact hd]

/-- A node with one block asks one that has none. -/
theorem locator_finds_fork_first : ∃ (c c' : Chain) (locator : List BlockHash) (found : ChainEntry),
    c.tip.height = 1 ∧ c'.tip.height = 0 ∧ c.getLocator (some c.tip.hash) = .ok locator
      ∧ c'.findLocator Small.env locator = found.hash ∧ c'.db.isMainHash found.hash = true
      ∧ c.db.Ancestor c.tip found := by
  obtain ⟨c, hc, hP⟩ := exists_reachable Small.env [.add 100 Small.first]
    (fun c => c.tip.height == 1) (by decide) (by decide +kernel)
  obtain ⟨c', hc', hP'⟩ := exists_reachable Small.env [] (fun c => c.tip.height == 0) (by decide)
    (by decide +kernel)
  have hvisited := hc.visited Small.lawful
  obtain ⟨entries, hlocator, -, -, -, -, -, fork, found, -, -, -, hfind, hfound, hmain, -⟩ :=
    locator_finds_fork Small.lawful Small.lawful Small.blockHash_injective rfl rfl hvisited
      (hc'.visited Small.lawful) (hvisited.inv Small.lawful).tip_stored
      (show c.tip.height < 2 ^ 31 by rw [eq_of_beq hP]; decide)
  exact ⟨c, c', _, found, eq_of_beq hP, eq_of_beq hP', hlocator, hfind, hmain, hfound⟩

end Chain

end BitcoinNode
