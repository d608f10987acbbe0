import BitcoinNode.Net.CompactBlock

/-!
# Opening compact blocks

What `CompactBlock::new` makes of a message of a peer. It asserts that no index of a prefilled
transaction is above one more than the number of short ids, so that some messages stop it.
-/

namespace BitcoinNode

/-- The prefilled transactions with their indexes in the block; `next` is the lowest index
that the first of them may have. -/
def PrefilledTransaction.absolute (next : Nat) :
    List PrefilledTransaction → List (Nat × Transaction)
  | [] => []
  | ⟨index, tx⟩ :: prefilled => (next + index, tx) :: absolute (next + index + 1) prefilled

namespace HeaderAndShortIds

def totalTx (m : HeaderAndShortIds) : Nat := m.prefilledTxs.length + m.shortIds.length

def prefilled (m : HeaderAndShortIds) : List (Nat × Transaction) :=
  PrefilledTransaction.absolute 0 m.prefilledTxs

/-- All prefilled transactions are in the block, and the short ids tell the others apart. -/
def WellFormed (m : HeaderAndShortIds) : Prop :=
  (∀ p ∈ m.prefilled, p.1 < m.totalTx) ∧ m.shortIds.Nodup

end HeaderAndShortIds

namespace PrefilledTransaction

variable {next : Nat} {prefilled : List PrefilledTransaction} {p : Nat × Transaction}

@[simp, grind =] theorem length_absolute :
    (absolute next prefilled).length = prefilled.length := by
  fun_induction absolute next prefilled <;> grind

theorem le_of_mem_absolute (h : p ∈ absolute next prefilled) : next ≤ p.1 := by
  fun_induction absolute next prefilled <;> grind

theorem absolute_pairwise : (absolute next prefilled).Pairwise fun p q => p.1 < q.1 := by
  fun_induction absolute next prefilled with
  | case1 => exact .nil
  | case2 next index tx prefilled ih =>
    refine List.pairwise_cons.2 ⟨fun p hp => ?_, ih⟩
    have := le_of_mem_absolute hp
    dsimp only
    omega

end PrefilledTransaction

namespace CompactBlock

open PrefilledTransaction

variable {lib : Bip152} {m : HeaderAndShortIds} {c : CompactBlock}
  {available : List (Option Transaction)}

/-! ## The loops -/

/-- The loop over the prefilled transactions places them, and stops at the first index that
is not asserted. -/
theorem prefill_eq_ok {ids next count : Nat} {prefilled : List PrefilledTransaction}
    {result : List (Option Transaction) × Nat} :
    prefill ids prefilled (next - 1) available count = .ok result ↔
      (∀ p ∈ absolute next prefilled, p.1 < 0xffff ∧ p.1 ≤ ids + 1 ∧ p.1 < available.length)
        ∧ result = (Slots.place (absolute next prefilled) available, count + prefilled.length) := by
  induction prefilled generalizing next available count with
  | nil =>
    rw [prefill, Except.ok.injEq]
    exact ⟨fun h => ⟨List.forall_mem_nil _, h.symm⟩, fun h => h.2.symm⟩
  | cons head prefilled ih =>
    obtain ⟨index, tx⟩ := head
    have hlast : (next - 1 : Int) + index + 1 = (next + index : Nat) := by
      push_cast
      omega
    have hnext : ((next + index : Nat) : Int) = ((next + index + 1 : Nat) : Int) - 1 := by
      push_cast
      omega
    rw [prefill, absolute, List.forall_mem_cons, Slots.place, List.length_cons]
    dsimp only
    rw [hlast, Int.toNat_natCast]
    by_cases hbound : next + index < 0xffff ∧ next + index ≤ ids + 1
      ∧ next + index < available.length
    · rw [if_neg (by omega), if_neg (by omega), if_neg (by omega), hnext, ih, List.length_set,
        and_iff_right hbound, show count + 1 + prefilled.length = count + (prefilled.length + 1) by
          omega]
    · refine iff_of_false (fun h => ?_) fun h => hbound h.1.1
      split_ifs at h
      omega

/-- The offset moves to the next empty slot. -/
theorem skipFilled_eq {slots : List (Option Transaction)} {position j : Nat}
    {rest : List Nat} (offset : Nat) (h : Slots.missing slots position = j :: rest) :
    ∃ d, skipFilled slots offset = some (offset + d) ∧ j = position + d
      ∧ Slots.missing (slots.drop (d + 1)) (position + d + 1) = rest := by
  induction slots generalizing position offset with
  | nil => cases h
  | cons slot slots ih =>
    cases slot with
    | none =>
      obtain ⟨rfl, rfl⟩ := List.cons.inj h
      exact ⟨0, rfl, rfl, rfl⟩
    | some tx =>
      obtain ⟨d, hskip, hj, hrest⟩ := ih (offset + 1) h
      refine ⟨d + 1, ?_, by omega, ?_⟩
      · rw [skipFilled, hskip, show offset + 1 + d = offset + (d + 1) by omega]
      · rw [List.drop_succ_cons, ← hrest, show position + 1 + d = position + (d + 1) by omega]

/-- The loop over the short ids gives each one the next empty slot, unless two are equal. -/
theorem mapIds_spec {ids : List ShortId} {i offset : Nat} {idMap : FMap ShortId Nat}
    {rest : List Nat} (hrest : Slots.missing (available.drop (i + offset)) (i + offset) = rest)
    (hlength : ids.length ≤ rest.length) :
    ∃ result : Option (FMap ShortId Nat), mapIds available ids i offset idMap = .ok result
      ∧ (result.isSome ↔ ids.Nodup ∧ ∀ id ∈ ids, id ∉ idMap)
      ∧ ∀ idMap' ∈ result, ∀ id j, idMap'.lookup id = some j ↔
        idMap.lookup id = some j ∨ ∃ k : Nat, ids[k]? = some id ∧ rest[k]? = some j := by
  induction ids generalizing i offset idMap rest with
  | nil => exact ⟨some idMap, rfl, by simp, by simp⟩
  | cons id ids ih =>
    cases rest with
    | nil => simp at hlength
    | cons slot rest =>
      obtain ⟨d, hskip, rfl, hdrop⟩ := skipFilled_eq offset hrest
      rw [List.drop_drop, show i + offset + (d + 1) = i + 1 + (offset + d) by omega,
        show i + offset + d + 1 = i + 1 + (offset + d) by omega] at hdrop
      rw [mapIds, hskip]
      dsimp only
      by_cases hid : id ∈ idMap
      · refine ⟨none, if_pos hid, iff_of_false Bool.false_ne_true ?_, fun _ h => ?_⟩
        swap
        · exact absurd h (Option.not_mem_none _)
        exact fun h => h.2 id List.mem_cons_self hid
      obtain ⟨result, hmap, hsome, hlookup⟩ :=
        @ih (i + 1) (offset + d) (idMap.insert id (i + offset + d)) _ hdrop
          (by simpa using hlength)
      rw [if_neg hid, ← Nat.add_assoc]
      refine ⟨result, hmap, hsome.trans ?_, fun idMap' hresult id' j => ?_⟩
      · rw [List.nodup_cons, List.forall_mem_cons]
        constructor
        · rintro ⟨hnodup, hnew⟩
          refine ⟨⟨fun hmem => ?_, hnodup⟩, hid, fun id' hmem hin => ?_⟩
          · exact hnew id hmem (Finmap.mem_insert.2 (.inl rfl))
          · exact hnew id' hmem (Finmap.mem_insert.2 (.inr hin))
        · rintro ⟨⟨hnotin, hnodup⟩, -, hnew⟩
          refine ⟨hnodup, fun id' hmem hin => ?_⟩
          rcases Finmap.mem_insert.1 hin with rfl | hin
          · exact hnotin hmem
          · exact hnew id' hmem hin
      · rw [hlookup idMap' hresult]
        -- the new id has the first of the slots, and the others keep theirs
        have hinsert : (idMap.insert id (i + offset + d)).lookup id' = some j ↔
            idMap.lookup id' = some j ∨ id = id' ∧ i + offset + d = j := by
          by_cases heq : id' = id
          · subst heq
            rw [Finmap.lookup_insert, Option.some.injEq, Finmap.lookup_eq_none.2 hid]
            simp
          · rw [Finmap.lookup_insert_of_ne _ heq]
            simp [Ne.symm heq]
        rw [hinsert, or_assoc]
        refine or_congr_right ⟨?_, ?_⟩
        · rintro (⟨rfl, rfl⟩ | ⟨k, hk⟩)
          · exact ⟨0, rfl, rfl⟩
          · exact ⟨k + 1, hk⟩
        · rintro ⟨k, hid', hslot⟩
          cases k with
          | zero => exact .inl ⟨Option.some.inj hid', Option.some.inj hslot⟩
          | succ k => exact .inr ⟨k, hid', hslot⟩

/-! ## The whole function -/

/-- The block as it is opened: the prefilled transactions are at their indexes, and each short
id has the next of the slots that are left. -/
structure Opened (m : HeaderAndShortIds) (c : CompactBlock) : Prop where
  header : c.header = m.header
  totalTx : c.totalTx = m.totalTx
  length : c.available.length = m.totalTx
  prefilled {p : Nat × Transaction} : p ∈ m.prefilled → c.available[p.1]? = some (some p.2)
  count : c.count = c.available.countP Option.isSome
  missing : (Slots.missing c.available 0).length = m.shortIds.length
  idMap {id : ShortId} {j : Nat} : c.idMap.lookup id = some j ↔
    ∃ k : Nat, m.shortIds[k]? = some id ∧ (Slots.missing c.available 0)[k]? = some j

/-- The message is opened if it is well formed, and refused otherwise. -/
def OpensRight (lib : Bip152) (m : HeaderAndShortIds) : Prop :=
  ∃ result, new lib m = .ok result ∧ (result.isSome ↔ m.WellFormed) ∧ ∀ c ∈ result, c.Opened m

/-- What the assertions and the array ask of the indexes. -/
def Asserted (m : HeaderAndShortIds) : Prop :=
  ∀ p ∈ m.prefilled, p.1 < 0xffff ∧ p.1 ≤ m.shortIds.length + 1 ∧ p.1 < m.totalTx

/-- The slots with the prefilled transactions in them. -/
def slots (m : HeaderAndShortIds) : List (Option Transaction) :=
  Slots.place m.prefilled (List.replicate m.totalTx none)

theorem prefill_slots_iff {result : List (Option Transaction) × Nat} :
    prefill m.shortIds.length m.prefilledTxs (-1) (List.replicate m.totalTx none) 0 = .ok result
      ↔ Asserted m ∧ result = (slots m, m.prefilledTxs.length) := by
  rw [show (-1 : Int) = (0 : Nat) - 1 by rfl, prefill_eq_ok, List.length_replicate, Nat.zero_add]
  rfl

theorem countP_slots (h : Asserted m) :
    (slots m).countP Option.isSome = m.prefilledTxs.length := by
  have hempty : ∀ p ∈ m.prefilled,
      (List.replicate m.totalTx (none : Option Transaction))[p.1]? = some none := fun p hp => by
    rw [List.getElem?_replicate, if_pos (h p hp).2.2]
  have hcount := Slots.countP_place
    (show m.prefilled.Pairwise fun p q => p.1 < q.1 from absolute_pairwise) hempty
  rw [slots, hcount, List.countP_replicate, HeaderAndShortIds.prefilled, length_absolute]
  simp

theorem length_missing_slots (h : Asserted m) :
    (Slots.missing (slots m) 0).length = m.shortIds.length := by
  have hmissing := @Slots.length_missing _ (slots m) 0
  rw [countP_slots h] at hmissing
  simp only [slots, Slots.length_place, List.length_replicate,
    HeaderAndShortIds.totalTx] at hmissing ⊢
  omega

theorem asserted_of_new_eq_ok {result : Option CompactBlock} (h : new lib m = .ok result) :
    Asserted m := by
  obtain ⟨⟨available, count⟩, hprefill, -⟩ := bind_eq_ok.1 h
  exact (prefill_slots_iff.1 hprefill).1

/-- When the assertions hold, a block is opened if the short ids are distinct. -/
theorem new_spec (h : Asserted m) : ∃ result : Option CompactBlock, new lib m = .ok result
    ∧ (result.isSome ↔ m.shortIds.Nodup) ∧ ∀ c ∈ result, c.Opened m := by
  have hmissing := length_missing_slots h
  obtain ⟨idMap, hmap, hsome, hlookup⟩ :=
    @mapIds_spec (slots m) m.shortIds 0 0 ∅ _ rfl hmissing.ge
  refine ⟨idMap.map fun idMap => ⟨slots m, m.header, lib.calculateSiphashKeys m.header m.nonce,
    m.totalTx, m.prefilledTxs.length, idMap⟩, ?_, ?_, fun c hc => ?_⟩
  · have hprefill := prefill_slots_iff.2 ⟨h, rfl⟩
    unfold HeaderAndShortIds.totalTx at hprefill
    rw [new]
    dsimp only
    rw [hprefill, bind_of_ok rfl]
    dsimp only
    rw [hmap, bind_of_ok rfl]
    rfl
  · rw [Option.isSome_map, hsome]
    exact and_iff_left fun _ _ => Finmap.notMem_empty
  · obtain ⟨idMap, hidMap, rfl⟩ := Option.map_eq_some_iff.1 hc
    refine ⟨rfl, rfl, by simp [slots], fun {p} hp => ?_, (countP_slots h).symm, hmissing,
      fun {id j} => ?_⟩
    · exact Slots.getElem?_place absolute_pairwise hp (by simpa using (h p hp).2.2)
    · rw [hlookup idMap hidMap]
      simp

theorem opened_of_new (h : new lib m = .ok (some c)) : c.Opened m := by
  obtain ⟨result, hnew, -, hopened⟩ := @new_spec lib m (asserted_of_new_eq_ok h)
  rw [h] at hnew
  exact hopened c (Except.ok.inj hnew).symm

/-- A message of a block of at most 65535 transactions is opened or refused as it should be
exactly if no index of a prefilled transaction is outside the block, or above one more than
the number of short ids. -/
theorem new_opens_iff (htotal : m.totalTx ≤ 65535) : OpensRight lib m ↔
    ∀ p ∈ m.prefilled, p.1 < m.totalTx ∧ p.1 ≤ m.shortIds.length + 1 := by
  constructor
  · rintro ⟨result, hnew, -⟩ p hp
    have hasserted := asserted_of_new_eq_ok hnew p hp
    exact ⟨hasserted.2.2, hasserted.2.1⟩
  · intro h
    obtain ⟨result, hnew, hsome, hopened⟩ := @new_spec lib m fun p hp =>
      ⟨(h p hp).1.trans_le htotal, (h p hp).2, (h p hp).1⟩
    refine ⟨result, hnew, hsome.trans ?_, hopened⟩
    exact (and_iff_right fun p hp => (h p hp).1).symm

/-- Two prefilled transactions and two short ids. -/
theorem new_opens_iff_small : OpensRight Small.bip152
    ⟨Small.relayedBlock.header, 5, [⟨0, Small.relayed 0⟩, ⟨1, Small.relayed 2⟩], [13, 15]⟩ :=
  (new_opens_iff (by decide)).2 (by decide)

/-- A block of three transactions that are all prefilled stops the function. -/
theorem allPrefilled_not_opened : ¬ OpensRight Small.bip152 ⟨Small.relayedBlock.header, 5,
    [⟨0, Small.relayed 0⟩, ⟨0, Small.relayed 1⟩, ⟨0, Small.relayed 2⟩], []⟩ := by
  rintro ⟨result, hnew, -⟩
  cases hnew

end CompactBlock

end BitcoinNode
