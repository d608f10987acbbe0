import BitcoinNode.Net.CompactNew

/-!
# Counting filled slots

The counter of `fill_mempool`. A second transaction with the short id of a slot empties it
again, and a third one is counted out of a slot that is empty.
-/

namespace BitcoinNode

namespace CompactBlock

variable {lib : Bip152} {m : HeaderAndShortIds} {c c' : CompactBlock} {mempool : List Transaction}
  {set : Finset Nat} {slots before ahead : List Nat} {full : Bool}

/-- The loop of `fill_mempool` in a build with overflow checks. -/
def checkedFillLoop (lib : Bip152) :
    List Transaction → CompactBlock → Finset Nat → Except Panic (CompactBlock × Bool)
  | [], c, _ => .ok (c, false)
  | tx :: mempool, c, set =>
    match c.idMap.lookup (c.shortId lib (lib.wtxid tx)) with
    | none => checkedFillLoop lib mempool c set
    | some index =>
      if index ∈ set then
        if c.count = 0 then .error .overflow
        else checkedFillLoop lib mempool
          { c with available := c.available.set index none, count := c.count - 1 } set
      else
        let c := { c with available := c.available.set index (some tx), count := c.count + 1 }
        if c.count = c.totalTx then .ok (c, true)
        else checkedFillLoop lib mempool c (insert index set)

def checkedFillMempool (lib : Bip152) (c : CompactBlock) (mempool : List Transaction) :
    Except Panic (CompactBlock × Bool) :=
  if c.count = c.totalTx then .ok (c, true) else checkedFillLoop lib mempool c ∅

/-- The slots that the transactions of the pool have the short ids of, in their order. -/
def hits (lib : Bip152) (c : CompactBlock) (mempool : List Transaction) : List Nat :=
  mempool.filterMap fun tx => c.idMap.lookup (c.shortId lib (lib.wtxid tx))

theorem hits_cons_none {tx : Transaction}
    (h : c.idMap.lookup (c.shortId lib (lib.wtxid tx)) = none) :
    c.hits lib (tx :: mempool) = c.hits lib mempool := by
  rw [hits, List.filterMap_cons, h]
  rfl

theorem hits_cons_some {tx : Transaction} {index : Nat}
    (h : c.idMap.lookup (c.shortId lib (lib.wtxid tx)) = some index) :
    c.hits lib (tx :: mempool) = index :: c.hits lib mempool := by
  rw [hits, List.filterMap_cons, h]
  rfl

/-- The counter is right, and only a block without an empty slot is said to be full. -/
def Counts (c : CompactBlock) (full : Bool) : Prop :=
  c.count = c.available.countP Option.isSome
    ∧ (full = true → (∀ slot ∈ c.available, slot.isSome = true) ∧ ∃ block, c.toBlock = .ok block)

/-- Filling from the pool never counts below zero, and ends with the counter right. -/
def FillsRight (lib : Bip152) (c : CompactBlock) (mempool : List Transaction) : Prop :=
  c.checkedFillMempool lib mempool = .ok (c.fillMempool lib mempool)
    ∧ (c.fillMempool lib mempool).1.Counts (c.fillMempool lib mempool).2

/-- After `before`, no slot is hit a third time before each of the slots was hit once. -/
def Uncrowded (slots before ahead : List Nat) : Prop :=
  ∀ after i, after ++ [i] <+: ahead → (before ++ after).count i < 2
    ∨ ∃ upto, upto <+: after ∧ ∀ j ∈ slots, (before ++ upto).count j = 1

theorem uncrowded_nil : Uncrowded slots before [] := by
  intro after i h
  simp at h

/-- One hit more, while the slots are not all hit once. -/
theorem uncrowded_cons {i : Nat} (hopen : ¬ ∀ j ∈ slots, before.count j = 1) :
    Uncrowded slots before (i :: ahead) ↔ before.count i < 2
      ∧ ((∀ j ∈ slots, (before ++ [i]).count j = 1) ∨ Uncrowded slots (before ++ [i]) ahead) := by
  constructor
  · intro h
    have hfirst := h [] i (by simp)
    rw [List.append_nil] at hfirst
    refine ⟨hfirst.resolve_right ?_, ?_⟩
    · rintro ⟨upto, hupto, hall⟩
      obtain rfl := List.prefix_nil.1 hupto
      exact hopen (by simpa using hall)
    · by_cases hall : ∀ j ∈ slots, (before ++ [i]).count j = 1
      · exact .inl hall
      refine .inr fun after k hafter => ?_
      rcases h (i :: after) k (by simpa using hafter) with hlt | ⟨upto, hupto, hones⟩
      · exact .inl (by simpa using hlt)
      · cases upto with
        | nil => exact absurd (by simpa using hones) hopen
        | cons j upto =>
          obtain ⟨rfl, hrest⟩ := List.cons_prefix_cons.1 hupto
          exact .inr ⟨upto, hrest, by simpa using hones⟩
  · rintro ⟨hlt, h⟩ after k hafter
    cases after with
    | nil =>
      obtain ⟨rfl, -⟩ := List.cons_prefix_cons.1 hafter
      exact .inl (by simpa using hlt)
    | cons j after =>
      obtain ⟨rfl, hrest⟩ := List.cons_prefix_cons.1 hafter
      rcases h with hall | h
      · exact .inr ⟨[j], by simp, hall⟩
      rcases h after k hrest with hlt | ⟨upto, hupto, hall⟩
      · exact .inl (by simpa using hlt)
      · exact .inr ⟨j :: upto, by simpa using hupto, by simpa using hall⟩

/-! ## The counter -/

/-- The counter is below the number of filled slots, and slots that were not hit are empty. -/
structure Short (c : CompactBlock) (set : Finset Nat) : Prop where
  count : c.count < c.available.countP Option.isSome
  empty {id : ShortId} {j : Nat} :
    c.idMap.lookup id = some j → j ∉ set → c.available[j]? = some none

theorem Short.sub (h : c.Short set) {index : Nat} (hindex : index ∈ set) (hpos : 1 ≤ c.count) :
    Short { c with available := c.available.set index none, count := c.count - 1 } set := by
  refine ⟨?_, fun {id j} hj hnot => ?_⟩
  · have hle := @Slots.countP_le_set_none _ c.available index
    have hshort := h.count
    dsimp only
    omega
  · have hne : index ≠ j := fun heq => hnot (heq ▸ hindex)
    rw [List.getElem?_set_ne hne]
    exact h.empty hj hnot

/-- A counter that is too low stays too low. -/
theorem Short.count_lt (h : c.Short set)
    (hresult : checkedFillLoop lib mempool c set = .ok (c', full)) :
    c'.count < c'.available.countP Option.isSome := by
  induction mempool generalizing c set with
  | nil =>
    cases hresult
    exact h.count
  | cons tx mempool ih =>
    rw [checkedFillLoop] at hresult
    cases hindex : c.idMap.lookup (c.shortId lib (lib.wtxid tx)) with
    | none =>
      rw [hindex] at hresult
      exact ih h hresult
    | some index =>
      rw [hindex] at hresult
      dsimp only at hresult
      by_cases hset : index ∈ set
      · rw [if_pos hset] at hresult
        by_cases hcount : c.count = 0
        · rw [if_pos hcount] at hresult
          cases hresult
        · rw [if_neg hcount] at hresult
          exact ih (h.sub hset (Nat.pos_of_ne_zero hcount)) hresult
      · rw [if_neg hset] at hresult
        have hempty := h.empty hindex hset
        have hfilled := Slots.countP_set (x := tx) hempty
        have hshort := h.count
        split at hresult
        · cases hresult
          exact hfilled ▸ Nat.succ_lt_succ hshort
        · refine ih ⟨hfilled ▸ Nat.succ_lt_succ hshort, fun {id j} hj hnot => ?_⟩ hresult
          rw [Finset.mem_insert, not_or] at hnot
          rw [List.getElem?_set_ne (Ne.symm hnot.1)]
          exact h.empty hj hnot.2

/-- The slots that short ids have were hit as often as `before` says. -/
structure Tracks (slots before : List Nat) (c : CompactBlock) (set : Finset Nat) : Prop where
  totalTx : c.totalTx = c.available.length
  count : c.count = c.available.countP Option.isSome
  mapped {id : ShortId} {j : Nat} : c.idMap.lookup id = some j → j ∈ slots
  slot {j : Nat} : j ∈ slots → ∃ slot, c.available[j]? = some slot
    ∧ (slot.isSome = true ↔ before.count j = 1)
  others {j : Nat} {slot : Option Transaction} : j ∉ slots → c.available[j]? = some slot →
    slot.isSome = true
  set {j : Nat} : j ∈ set ↔ j ∈ before

namespace Tracks

variable (h : Tracks slots before c set)

include h

theorem empty {j : Nat} (hj : j ∈ slots) (hne : before.count j ≠ 1) :
    c.available[j]? = some none := by
  obtain ⟨slot, hget, hslot⟩ := h.slot hj
  cases slot with
  | none => exact hget
  | some tx => exact absurd (hslot.1 rfl) hne

theorem filled {j : Nat} (hj : j ∈ slots) (hone : before.count j = 1) :
    ∃ tx, c.available[j]? = some (some tx) := by
  obtain ⟨slot, hget, hslot⟩ := h.slot hj
  obtain ⟨tx, rfl⟩ := Option.isSome_iff_exists.1 (hslot.2 hone)
  exact ⟨tx, hget⟩

/-- Every slot is filled when each one that a short id has was hit once. -/
theorem full_iff : c.count = c.totalTx ↔ ∀ j ∈ slots, before.count j = 1 := by
  rw [h.count, h.totalTx, List.countP_eq_length]
  constructor
  · intro hall j hj
    obtain ⟨slot, hget, hslot⟩ := h.slot hj
    exact hslot.1 (hall slot (List.mem_of_getElem? hget))
  · intro hones slot hslot
    obtain ⟨j, hget⟩ := List.mem_iff_getElem?.1 hslot
    by_cases hj : j ∈ slots
    · obtain ⟨tx, htx⟩ := h.filled hj (hones j hj)
      rw [Option.some.inj (hget.symm.trans htx)]
      rfl
    · exact h.others hj hget

theorem fill {i : Nat} (tx : Transaction) (hi : i ∈ slots) (hzero : before.count i = 0) :
    Tracks slots (before ++ [i])
      { c with available := c.available.set i (some tx), count := c.count + 1 } (insert i set) := by
  have hempty := h.empty hi (by omega)
  have hlt := (List.getElem?_eq_some_iff.1 hempty).1
  refine ⟨by simpa using h.totalTx, ?_, h.mapped, fun {j} hj => ?_, fun {j slot} hj hget => ?_,
    fun {j} => ?_⟩
  · rw [Slots.countP_set hempty, h.count]
  · by_cases hij : i = j
    · subst hij
      exact ⟨some tx, List.getElem?_set_self hlt, by simp [hzero]⟩
    · obtain ⟨slot, hget, hslot⟩ := h.slot hj
      refine ⟨slot, by rwa [List.getElem?_set_ne hij], ?_⟩
      simp [hslot, hij]
  · have hij : i ≠ j := fun heq => hj (heq ▸ hi)
    rw [List.getElem?_set_ne hij] at hget
    exact h.others hj hget
  · rw [Finset.mem_insert, h.set, List.mem_append, List.mem_singleton, or_comm]

theorem empties {i : Nat} (hi : i ∈ slots) (hone : before.count i = 1) : 1 ≤ c.count
    ∧ Tracks slots (before ++ [i])
      { c with available := c.available.set i none, count := c.count - 1 } set := by
  obtain ⟨tx, hfilled⟩ := h.filled hi hone
  have hlt := (List.getElem?_eq_some_iff.1 hfilled).1
  have hcount := Slots.countP_set_none hfilled
  have hbefore : i ∈ before := List.count_pos_iff.1 (by omega)
  rw [← h.count] at hcount
  refine ⟨by omega, by simpa using h.totalTx, ?_, h.mapped, fun {j} hj => ?_,
    fun {j slot} hj hget => ?_, fun {j} => ?_⟩
  · dsimp only
    omega
  · by_cases hij : i = j
    · subst hij
      exact ⟨none, List.getElem?_set_self hlt, by simp [hone]⟩
    · obtain ⟨slot, hget, hslot⟩ := h.slot hj
      refine ⟨slot, by rwa [List.getElem?_set_ne hij], ?_⟩
      simp [hslot, hij]
  · have hij : i ≠ j := fun heq => hj (heq ▸ hi)
    rw [List.getElem?_set_ne hij] at hget
    exact h.others hj hget
  · rw [h.set, List.mem_append, List.mem_singleton]
    exact ⟨.inl, fun hj => hj.elim id fun heq => heq ▸ hbefore⟩

/-- The third hit of a slot is counted out of an empty one. -/
theorem short {i : Nat} (hi : i ∈ slots) (hcrowded : ¬ before.count i < 2) (hpos : 1 ≤ c.count) :
    Short { c with available := c.available.set i none, count := c.count - 1 } set := by
  have hempty := h.empty hi (by omega)
  obtain ⟨hlt, hget⟩ := List.getElem?_eq_some_iff.1 hempty
  have hsame : c.available.set i none = c.available := by
    rw [← hget, List.set_getElem_self]
  refine ⟨?_, fun {id j} hj hnot => ?_⟩
  · rw [hsame, ← h.count]
    exact Nat.sub_lt hpos one_pos
  · rw [h.set] at hnot
    rw [hsame]
    exact h.empty (h.mapped hj) (by rw [List.count_eq_zero_of_not_mem hnot]; exact zero_ne_one)

theorem toBlock_ok (hones : ∀ j ∈ slots, before.count j = 1) :
    (∀ slot ∈ c.available, slot.isSome = true) ∧ ∃ block, c.toBlock = .ok block := by
  have hfull := h.full_iff.2 hones
  rw [h.count, h.totalTx, List.countP_eq_length] at hfull
  obtain ⟨txdata, htxdata⟩ := Slots.exists_eq_map_some hfull
  exact ⟨hfull, ⟨c.header, txdata⟩, toBlock_eq htxdata rfl⟩

/-- The loop counts right exactly if no slot is crowded before all are filled. The induction
is on the transactions of the pool that are left. -/
theorem fillLoop_iff (hopen : ¬ ∀ j ∈ slots, before.count j = 1)
    (htotal : c.totalTx < 2 ^ 64) :
    checkedFillLoop lib mempool c set = .ok (fillLoop lib mempool c set)
        ∧ (fillLoop lib mempool c set).1.Counts (fillLoop lib mempool c set).2
      ↔ Uncrowded slots before (c.hits lib mempool) := by
  induction mempool generalizing c set before with
  | nil => exact iff_of_true ⟨rfl, h.count, nofun⟩ uncrowded_nil
  | cons tx mempool ih =>
    rw [checkedFillLoop, fillLoop]
    cases hindex : c.idMap.lookup (c.shortId lib (lib.wtxid tx)) with
    | none =>
      rw [hits_cons_none hindex]
      exact ih h hopen htotal
    | some index =>
      rw [hits_cons_some hindex, uncrowded_cons hopen]
      dsimp only
      have hmem := h.mapped hindex
      by_cases hset : index ∈ set
      · rw [if_pos hset, if_pos hset]
        have hbefore := List.count_pos_iff.2 (h.set.1 hset)
        by_cases hlt : before.count index < 2
        · obtain ⟨hpos, hempties⟩ := h.empties hmem (by omega)
          have hopen' : ¬ ∀ j ∈ slots, (before ++ [index]).count j = 1 := fun hones => by
            have := hones index hmem
            simp at this
            omega
          have hle : c.count ≤ c.totalTx := by
            rw [h.count, h.totalTx]
            exact List.countP_le_length
          have hsub : Word.sub 64 c.count 1 = c.count - 1 := Word.sub_eq hpos (by omega)
          rw [if_neg (by omega), hsub, ih hempties hopen' htotal, and_iff_right hlt,
            or_iff_right hopen']
          rfl
        · refine iff_of_false ?_ fun hboth => hlt hboth.1
          rintro ⟨hchecked, hcounts⟩
          by_cases hcount : c.count = 0
          · rw [if_pos hcount] at hchecked
            cases hchecked
          · rw [if_neg hcount] at hchecked
            have hshort := (h.short hmem hlt (Nat.pos_of_ne_zero hcount)).count_lt hchecked
            exact hshort.ne hcounts.1
      · rw [if_neg hset, if_neg hset]
        have hzero : before.count index = 0 :=
          List.count_eq_zero.2 fun hmem => hset (h.set.2 hmem)
        have hfill := h.fill tx hmem hzero
        rw [and_iff_right (show before.count index < 2 by omega)]
        by_cases hones : ∀ j ∈ slots, (before ++ [index]).count j = 1
        · have hfull := hfill.full_iff.2 hones
          rw [if_pos hfull, if_pos hfull]
          exact iff_of_true ⟨rfl, hfill.count, fun _ => hfill.toBlock_ok hones⟩ (.inl hones)
        · have hnot := mt hfill.full_iff.1 hones
          rw [if_neg hnot, if_neg hnot, ih hfill hones htotal, or_iff_right hones]
          rfl

end Tracks

/-- No slot was hit yet in a block that was just opened. -/
theorem Opened.tracks (h : c.Opened m) : Tracks (Slots.missing c.available 0) [] c ∅ where
  totalTx := h.totalTx.trans h.length.symm
  count := h.count
  mapped hj := by
    obtain ⟨k, -, hslot⟩ := h.idMap.1 hj
    exact List.mem_of_getElem? hslot
  slot hj := ⟨none, (Slots.mem_missing_iff.1 hj).2, by simp⟩
  others {j slot} hj hget := by
    cases slot with
    | none => exact absurd (Slots.mem_missing_iff.2 ⟨Nat.zero_le j, hget⟩) hj
    | some tx => rfl
  set := by simp

/-- Filling an opened block from the pool counts right exactly if no slot is hit a third time
before there is a moment with each empty slot hit once. -/
theorem fillMempool_counts_iff (hnew : new lib m = .ok (some c)) (htotal : m.totalTx < 2 ^ 64) :
    c.FillsRight lib mempool
      ↔ Uncrowded (Slots.missing c.available 0) [] (c.hits lib mempool) := by
  have hopened := opened_of_new hnew
  have htracks := hopened.tracks
  have htotal : c.totalTx < 2 ^ 64 := hopened.totalTx ▸ htotal
  unfold FillsRight checkedFillMempool fillMempool
  by_cases hfull : c.count = c.totalTx
  · have hones := htracks.full_iff.1 hfull
    rw [if_pos hfull, if_pos hfull]
    refine iff_of_true ⟨rfl, hopened.count, fun _ => htracks.toBlock_ok hones⟩ ?_
    exact fun after i _ => .inr ⟨[], List.nil_prefix, hones⟩
  · rw [if_neg hfull, if_neg hfull]
    exact htracks.fillLoop_iff (mt htracks.full_iff.2 hfull) htotal

/-- One of two short ids is that of a transaction of the pool. -/
theorem fillMempool_counts_iff_small : ∃ c,
    new Small.bip152 ⟨Small.relayedBlock.header, 5, [⟨0, Small.relayed 0⟩], [13, 14]⟩ = .ok (some c)
      ∧ c.FillsRight Small.bip152 [Small.relayed 1, Small.relayed 9] := by
  obtain ⟨c, hnew⟩ : ∃ c, new Small.bip152 ⟨Small.relayedBlock.header, 5,
      [⟨0, Small.relayed 0⟩], [13, 14]⟩ = .ok (some c) := ⟨_, rfl⟩
  refine ⟨c, hnew, (fillMempool_counts_iff hnew (by decide)).2 fun after i h => .inl ?_⟩
  have hcount := @List.count_le_length _ _ i after
  have hhits : (c.hits Small.bip152 [Small.relayed 1, Small.relayed 9]).length ≤ 2 :=
    List.length_filterMap_le _ _
  have hlength := h.length_le
  rw [List.length_append, List.length_singleton] at hlength
  rw [List.nil_append]
  omega

end CompactBlock

namespace Small

/-- Short ids of one bit. -/
def crowded : Bip152 :=
  { bip152 with withSiphashKeys := fun txid key => (txid + key.1 + key.2) % 2 }

end Small

/-- Three transactions of the pool have the short id of a slot. -/
theorem CompactBlock.crowded_not_fillsRight : ∃ c,
    new Small.crowded ⟨Small.relayedBlock.header, 5, [⟨0, Small.relayed 0⟩], [1, 0]⟩ = .ok (some c)
      ∧ ¬ c.FillsRight Small.crowded [Small.relayed 1, Small.relayed 3, Small.relayed 5] := by
  refine ⟨_, rfl, fun h => ?_⟩
  have hcount := h.2.1
  revert hcount
  decide

end BitcoinNode
