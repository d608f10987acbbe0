import BitcoinNode.Library.Ledger

/-!
# Ledgers compared

A ledger with more keys can do what one with fewer keys does, and reverting in the smaller one
stays within what the larger one had before. A key that is neither spent nor created keeps its
value. What a ledger is worth changes by no more than what is created and what is spent, and by
exactly that when no key is created twice.
-/

namespace BitcoinNode.Ledger

variable {K V : Type} [DecidableEq K] {m m' M M' : FMap K V} {tx : Tx K V} {txs : List (Tx K V)}
  {k : K}

/-- Every key of the one ledger is in the other. -/
def Within (m M : FMap K V) : Prop := ∀ k ∈ m, k ∈ M

theorem Within.erase (h : Within m M) (k : K) : Within (m.erase k) (M.erase k) := by
  intro x hx
  rw [Finmap.mem_erase] at hx ⊢
  exact ⟨hx.1, h x hx.2⟩

theorem Within.create (h : Within m M) (kvs : List (K × V)) :
    Within (create m kvs) (create M kvs) := by
  intro x hx
  rw [mem_create] at hx ⊢
  exact hx.imp_right (h x)

theorem Within.spend (h : Within m M) {ks : List K} {r : FMap K V × List V}
    (hspend : spend m ks = some r) :
    ∃ R, spend M ks = some R ∧ Within r.1 R.1 := by
  induction ks generalizing m M r with
  | nil =>
    cases hspend
    exact ⟨(M, []), rfl, h⟩
  | cons k ks ih =>
    obtain ⟨v, vs, hv, hrest, -⟩ := spend_cons_eq_some.1 hspend
    obtain ⟨w, hw⟩ := Finmap.mem_iff.1 (h k (Finmap.mem_of_lookup_eq_some hv))
    obtain ⟨R, hR, hwithin⟩ := ih (h.erase k) hrest
    exact ⟨(R.1, w :: R.2), spend_cons_eq_some.2 ⟨w, R.2, hw, hR, rfl⟩, hwithin⟩

theorem Within.applyAll (h : Within m M) {r : FMap K V × List V}
    (happly : applyAll m txs = some r) :
    ∃ R, Ledger.applyAll M txs = some R ∧ Within r.1 R.1 := by
  induction txs generalizing m M r with
  | nil =>
    cases happly
    exact ⟨(M, []), rfl, h⟩
  | cons tx txs ih =>
    obtain ⟨m₁, vs, js, htx, htxs, -⟩ := applyAll_cons_eq_some.1 happly
    obtain ⟨m₂, hspend, rfl⟩ := apply_eq_some.1 htx
    obtain ⟨S, hS, hwithin⟩ := h.spend hspend
    obtain ⟨R, hR, hwithin'⟩ := ih (hwithin.create tx.creates) htxs
    exact ⟨(R.1, S.2 ++ R.2), applyAll_cons_eq_some.2
      ⟨Ledger.create S.1 tx.creates, S.2, R.2, apply_eq_some.2 ⟨S.1, hS, rfl⟩, hR, rfl⟩, hwithin'⟩

/-! ## Reverting within a ledger -/

theorem mem_of_spend {ks : List K} {r : FMap K V × List V} (h : spend m ks = some r) :
    (∀ k ∈ ks, k ∈ m) ∧ Within r.1 m := by
  induction ks generalizing m r with
  | nil =>
    cases h
    exact ⟨nofun, fun _ hk => hk⟩
  | cons k ks ih =>
    obtain ⟨v, vs, hv, hrest, -⟩ := spend_cons_eq_some.1 h
    obtain ⟨hks, hwithin⟩ := ih hrest
    have herase : ∀ x ∈ m.erase k, x ∈ m := fun x hx => (Finmap.mem_erase.1 hx).2
    exact ⟨List.forall_mem_cons.2
      ⟨Finmap.mem_of_lookup_eq_some hv, fun x hx => herase x (hks x hx)⟩,
      fun x hx => herase x (hwithin x hx)⟩

theorem mem_revert {journal : List V} {x : K} (h : x ∈ revert m tx journal) :
    x ∉ tx.creates.map Prod.fst ∧ (x ∈ tx.spends ∨ x ∈ m) := by
  obtain ⟨v, hv⟩ := Finmap.mem_iff.1 h
  rw [revert, lookup_drop] at hv
  split_ifs at hv with hcreated
  refine ⟨hcreated, ?_⟩
  rcases mem_create.1 (Finmap.mem_of_lookup_eq_some hv) with hx | hx
  · rw [List.map_reverse, List.mem_reverse] at hx
    obtain ⟨kv, hkv, rfl⟩ := List.mem_map.1 hx
    exact .inl (List.of_mem_zip hkv).1
  · exact .inr hx

theorem Within.revert (happly : apply M tx = some (M', journal')) (h : Within m M')
    (journal : List V) : Within (revert m tx journal) M := by
  obtain ⟨M₁, hspend, hM'⟩ := apply_eq_some.1 happly
  obtain rfl : M' = Ledger.create M₁ tx.creates := hM'
  obtain ⟨hspends, hwithin⟩ := mem_of_spend hspend
  intro x hx
  obtain ⟨hcreated, hx⟩ := mem_revert hx
  rcases hx with hx | hx
  · exact hspends x hx
  · exact hwithin x ((mem_create.1 (h x hx)).resolve_left hcreated)

/-- A ledger within the one after transactions is, after they are reverted, within the one
before them, whatever the journal. -/
theorem Within.revertAll (happly : Ledger.applyAll M txs = some R) (h : Within m R.1)
    (journal : List V) : Within (revertAll m txs journal) M := by
  induction txs generalizing M R journal with
  | nil =>
    cases happly
    exact h
  | cons tx txs ih =>
    obtain ⟨M₁, vs, js, htx, htxs, -⟩ := applyAll_cons_eq_some.1 happly
    exact Within.revert htx (ih htxs h _) _

/-! ## One key -/

/-- A created key has one of the values it is created with. -/
theorem lookup_create (kvs : List (K × V)) :
    (∃ v, (k, v) ∈ kvs ∧ (create m kvs).lookup k = some v)
      ∨ k ∉ kvs.map Prod.fst ∧ (create m kvs).lookup k = m.lookup k := by
  induction kvs generalizing m with
  | nil => exact .inr ⟨List.not_mem_nil, rfl⟩
  | cons kv kvs ih =>
    obtain ⟨v, hv, hlookup⟩ | ⟨hnot, hlookup⟩ := @ih (m.insert kv.1 kv.2)
    · exact .inl ⟨v, List.mem_cons_of_mem _ hv, hlookup⟩
    · change (create m (kv :: kvs)).lookup k = _ at hlookup
      rcases eq_or_ne k kv.1 with rfl | hne
      · exact .inl ⟨kv.2, List.mem_cons_self, hlookup.trans (Finmap.lookup_insert _)⟩
      · refine .inr ⟨?_, hlookup.trans (Finmap.lookup_insert_of_ne _ hne)⟩
        rw [List.map_cons, List.mem_cons, not_or]
        exact ⟨hne, hnot⟩

/-- A key that nothing spends has a value it is created with, or the one it had. -/
theorem lookup_applyAll {r : FMap K V × List V} (h : applyAll m txs = some r)
    (hspent : ∀ tx ∈ txs, k ∉ tx.spends) :
    (∃ tx ∈ txs, ∃ v, (k, v) ∈ tx.creates ∧ r.1.lookup k = some v)
      ∨ (∀ tx ∈ txs, k ∉ tx.creates.map Prod.fst) ∧ r.1.lookup k = m.lookup k := by
  induction txs generalizing m r with
  | nil =>
    cases h
    exact .inr ⟨by simp, rfl⟩
  | cons tx txs ih =>
    obtain ⟨m₁, vs, js, happly, hrest, -⟩ := applyAll_cons_eq_some.1 h
    obtain ⟨m₂, hspend, rfl⟩ := apply_eq_some.1 happly
    obtain ⟨hnot, hspent⟩ := List.forall_mem_cons.1 hspent
    obtain ⟨tx', htx', hv⟩ | ⟨hkept, hlookup⟩ := ih hrest hspent
    · exact .inl ⟨tx', List.mem_cons_of_mem _ htx', hv⟩
    obtain ⟨v, hv, hcreate⟩ | ⟨hcreate, hsame⟩ := lookup_create (m := m₂) (k := k) tx.creates
    · exact .inl ⟨tx, List.mem_cons_self, v, hv, hlookup.trans hcreate⟩
    · refine .inr ⟨List.forall_mem_cons.2 ⟨hcreate, hkept⟩, ?_⟩
      exact (hlookup.trans hsame).trans ((lookup_spend hspend k).trans (if_neg hnot))

/-- Reverting transactions leaves a key alone that none of them spends or creates. -/
theorem lookup_revertAll {journal : List V} (hspent : ∀ tx ∈ txs, k ∉ tx.spends)
    (hcreated : ∀ tx ∈ txs, k ∉ tx.creates.map Prod.fst) :
    (revertAll m txs journal).lookup k = m.lookup k := by
  induction txs generalizing journal with
  | nil => rfl
  | cons tx txs ih =>
    obtain ⟨hnot, hspent⟩ := List.forall_mem_cons.1 hspent
    obtain ⟨hnew, hcreated⟩ := List.forall_mem_cons.1 hcreated
    rw [revertAll, revert, lookup_drop, if_neg hnew, lookup_create_of_notMem, ih hspent hcreated]
    intro hmem
    obtain ⟨kv, hkv, rfl⟩ := List.mem_map.1 hmem
    exact hnot (List.of_mem_zip (List.mem_reverse.1 hkv)).1

/-- A key that is there after transactions which do not create it was spent by none of them. -/
theorem notMem_spends {r : FMap K V × List V} (h : applyAll m txs = some r) (hk : k ∈ r.1)
    (hcreated : ∀ tx ∈ txs, k ∉ tx.creates.map Prod.fst) :
    k ∈ m ∧ ∀ tx ∈ txs, k ∉ tx.spends := by
  induction txs generalizing m r with
  | nil =>
    cases h
    exact ⟨hk, by simp⟩
  | cons tx txs ih =>
    obtain ⟨m₁, vs, js, happly, hrest, -⟩ := applyAll_cons_eq_some.1 h
    obtain ⟨m₂, hspend, rfl⟩ := apply_eq_some.1 happly
    obtain ⟨hnew, hcreated⟩ := List.forall_mem_cons.1 hcreated
    obtain ⟨hmem, hspent⟩ := ih (r := (r.1, js)) hrest hk hcreated
    have hleft := (mem_create.1 hmem).resolve_left hnew
    rw [← Finmap.lookup_isSome, lookup_spend hspend] at hleft
    split_ifs at hleft with hspends
    · cases hleft
    · exact ⟨Finmap.lookup_isSome.1 hleft, List.forall_mem_cons.2 ⟨hspends, hspent⟩⟩

/-! ## Journals -/

section Journals

variable {P : K → V → Prop}

theorem spend_forall₂ (hm : ∀ k v, m.lookup k = some v → P k v) {ks : List K}
    {r : FMap K V × List V} (h : spend m ks = some r) : List.Forall₂ P ks r.2 := by
  induction ks generalizing m r with
  | nil =>
    cases h
    exact .nil
  | cons k ks ih =>
    obtain ⟨v, vs, hv, hrest, hr⟩ := spend_cons_eq_some.1 h
    rw [hr]
    refine .cons (hm k v hv) (ih (r := (r.1, vs)) (fun x w hw => hm x w ?_) hrest)
    exact (FMap.lookup_erase_eq_some.1 hw).2

/-- The journal has a value for each key spent, in order. -/
theorem applyAll_forall₂ (hm : ∀ k v, m.lookup k = some v → P k v)
    (htxs : ∀ tx ∈ txs, ∀ kv ∈ tx.creates, P kv.1 kv.2) {r : FMap K V × List V}
    (h : applyAll m txs = some r) : List.Forall₂ P (txs.flatMap Tx.spends) r.2 := by
  induction txs generalizing m r with
  | nil =>
    cases h
    exact .nil
  | cons tx txs ih =>
    obtain ⟨m₁, vs, js, ha, hs, hr⟩ := applyAll_cons_eq_some.1 h
    obtain ⟨htx, htxs⟩ := List.forall_mem_cons.1 htxs
    obtain ⟨m₂, hspend, rfl⟩ := apply_eq_some.1 ha
    rw [hr, List.flatMap_cons]
    exact List.rel_append (spend_forall₂ hm hspend)
      (ih (r := (r.1, js)) (create_values (spend_values hm hspend).2 htx) htxs hs)

end Journals

/-! ## Worth -/

variable (f : V → Nat)

/-- A ledger with more keys is worth more, if its values are worth no less. -/
theorem total_le_total (h : ∀ k v, m.lookup k = some v → ∃ w, M.lookup k = some w ∧ f v ≤ f w) :
    FMap.total f m ≤ FMap.total f M := by
  induction hn : m.keys.card generalizing m M with
  | zero =>
    have hnone : m = ∅ := Finmap.ext_lookup fun x => by
      rw [Finmap.lookup_empty, Finmap.lookup_eq_none, ← Finmap.mem_keys, Finset.card_eq_zero.1 hn]
      exact Finset.notMem_empty x
    rw [hnone, FMap.total_empty]
    exact Nat.zero_le _
  | succ n ih =>
    obtain ⟨k, hk⟩ := Finset.card_pos.1 (hn.symm ▸ Nat.succ_pos n : 0 < m.keys.card)
    obtain ⟨v, hv⟩ := Finmap.mem_iff.1 (Finmap.mem_keys.1 hk)
    obtain ⟨w, hw, hle⟩ := h k v hv
    have hrest := @ih (m.erase k) (M.erase k) (fun x u hu => by
      obtain ⟨hne, hu⟩ := FMap.lookup_erase_eq_some.1 hu
      obtain ⟨u', hu', hle⟩ := h x u hu
      exact ⟨u', FMap.lookup_erase_eq_some.2 ⟨hne, hu'⟩, hle⟩)
      (by rw [Finmap.keys_erase, Finset.card_erase_of_mem hk, hn, Nat.add_sub_cancel])
    have := FMap.total_erase f hv
    have := FMap.total_erase f hw
    omega

/-- What transactions create, in all. -/
def created (txs : List (Tx K V)) : Nat :=
  (txs.map fun tx => (tx.creates.map fun kv => f kv.2).sum).sum

theorem total_create_le (kvs : List (K × V)) :
    FMap.total f (create m kvs) ≤ FMap.total f m + (kvs.map fun kv => f kv.2).sum := by
  induction kvs generalizing m with
  | nil => exact le_rfl
  | cons kv kvs ih =>
    have hinsert := FMap.total_insert_le f m kv.1 kv.2
    have hrest := @ih (m.insert kv.1 kv.2)
    rw [List.map_cons, List.sum_cons]
    exact hrest.trans (by omega)

/-- Transactions add to a ledger no more than what they create beyond what they spend. -/
theorem total_applyAll_le {r : FMap K V × List V} (h : applyAll m txs = some r) :
    FMap.total f r.1 + (r.2.map f).sum ≤ FMap.total f m + created f txs := by
  induction txs generalizing m r with
  | nil =>
    cases h
    simp [created]
  | cons tx txs ih =>
    obtain ⟨m₁, vs, js, ha, hs, hr⟩ := applyAll_cons_eq_some.1 h
    obtain ⟨m₂, hspend, rfl⟩ := apply_eq_some.1 ha
    have hspent : FMap.total f m₂ + (vs.map f).sum = FMap.total f m := total_spend f hspend
    have hcreate := total_create_le f (m := m₂) tx.creates
    have hrest := ih (r := (r.1, js)) hs
    simp only [created, List.map_cons, List.sum_cons, hr, List.map_append,
      List.sum_append] at hrest ⊢
    omega

/-- And exactly that, when what they create is new. -/
theorem total_applyAll {r : FMap K V × List V} (hfresh : FreshAll m txs)
    (hnd : ∀ tx ∈ txs, (tx.creates.map Prod.fst).Nodup) (h : applyAll m txs = some r) :
    FMap.total f r.1 + (r.2.map f).sum = FMap.total f m + created f txs := by
  induction txs generalizing m r with
  | nil =>
    cases h
    simp [created]
  | cons tx txs ih =>
    obtain ⟨m₁, vs, js, ha, hs, hr⟩ := applyAll_cons_eq_some.1 h
    obtain ⟨htx, htxs⟩ := List.forall_mem_cons.1 hnd
    have hfirst : FMap.total f m₁ + (vs.map f).sum
        = FMap.total f m + (tx.creates.map fun kv => f kv.2).sum := total_apply f htx hfresh.1 ha
    have hrest := ih (r := (r.1, js)) (hfresh.2 _ ha) htxs hs
    simp only [created, List.map_cons, List.sum_cons, hr, List.map_append,
      List.sum_append] at hrest ⊢
    omega

end BitcoinNode.Ledger
