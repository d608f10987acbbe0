import BitcoinNode.Library.FiniteMap

/-!
# Ledgers with a journal

A ledger is a finite map of unspent values. A transaction spends keys, each of which must
be there, and then creates keys with values; the spent values go to a journal. Given its
part of the journal a transaction can be reverted: spent values come back, then created
keys are dropped. A reverted transaction leaves no trace when none of the keys it created
was in the ledger before.
-/

namespace BitcoinNode.Ledger

variable {K V : Type} [DecidableEq K]

/-- What a transaction does: it spends some keys in order and then creates others. -/
structure Tx (K V : Type) where
  spends : List K
  creates : List (K × V)

/-- Add values, a later one over an earlier one. -/
def create (m : FMap K V) (kvs : List (K × V)) : FMap K V :=
  kvs.foldl (fun m kv => m.insert kv.1 kv.2) m

/-- Drop keys, whether they are there or not. -/
def drop (m : FMap K V) (ks : List K) : FMap K V := ks.foldl (fun m k => m.erase k) m

/-- Spend keys one after the other, each of which must be there. -/
def spend : FMap K V → List K → Option (FMap K V × List V)
  | m, [] => some (m, [])
  | m, k :: ks =>
    (m.lookup k).bind fun v => (spend (m.erase k) ks).map fun r => (r.1, v :: r.2)

def apply (m : FMap K V) (tx : Tx K V) : Option (FMap K V × List V) :=
  (spend m tx.spends).map fun r => (create r.1 tx.creates, r.2)

/-- Apply transactions in order; the journal lists the spent values in spending order. -/
def applyAll : FMap K V → List (Tx K V) → Option (FMap K V × List V)
  | m, [] => some (m, [])
  | m, tx :: txs =>
    (apply m tx).bind fun r => (applyAll r.1 txs).map fun r' => (r'.1, r.2 ++ r'.2)

/-- Bring back the spent values, last one first, and then drop the created keys. -/
def revert (m : FMap K V) (tx : Tx K V) (journal : List V) : FMap K V :=
  drop (create m (tx.spends.zip journal).reverse) (tx.creates.map Prod.fst)

/-- Revert transactions in reverse order, each with its part of the journal. -/
def revertAll (m : FMap K V) : List (Tx K V) → List V → FMap K V
  | [], _ => m
  | tx :: txs, journal =>
    revert (revertAll m txs (journal.drop tx.spends.length)) tx (journal.take tx.spends.length)

/-- The transaction creates no key that is in the ledger. -/
def Fresh (m : FMap K V) (tx : Tx K V) : Prop := ∀ k ∈ tx.creates.map Prod.fst, k ∉ m

/-- No transaction creates a key that is in the ledger at its turn. -/
def FreshAll : FMap K V → List (Tx K V) → Prop
  | _, [] => True
  | m, tx :: txs => Fresh m tx ∧ ∀ r, apply m tx = some r → FreshAll r.1 txs

variable {m m' : FMap K V} {tx : Tx K V} {txs : List (Tx K V)}

/-! ## Inverting the operations -/

theorem spend_cons_eq_some {k : K} {ks : List K} {r : FMap K V × List V} :
    spend m (k :: ks) = some r ↔
      ∃ v vs, m.lookup k = some v ∧ spend (m.erase k) ks = some (r.1, vs) ∧ r.2 = v :: vs := by
  simp only [spend, Option.bind_eq_some_iff, Option.map_eq_some_iff]
  constructor
  · rintro ⟨v, hv, ⟨m₁, vs⟩, hs, rfl⟩
    exact ⟨v, vs, hv, hs, rfl⟩
  · rintro ⟨v, vs, hv, hs, hr⟩
    exact ⟨v, hv, (r.1, vs), hs, by rw [← hr]⟩

theorem apply_eq_some {r : FMap K V × List V} :
    apply m tx = some r ↔
      ∃ m₁, spend m tx.spends = some (m₁, r.2) ∧ r.1 = create m₁ tx.creates := by
  simp only [apply, Option.map_eq_some_iff]
  constructor
  · rintro ⟨⟨m₁, vs⟩, hs, rfl⟩
    exact ⟨m₁, hs, rfl⟩
  · rintro ⟨m₁, hs, hr⟩
    exact ⟨(m₁, r.2), hs, by rw [← hr]⟩

theorem applyAll_cons_eq_some {r : FMap K V × List V} :
    applyAll m (tx :: txs) = some r ↔ ∃ m₁ vs js, apply m tx = some (m₁, vs)
      ∧ applyAll m₁ txs = some (r.1, js) ∧ r.2 = vs ++ js := by
  simp only [applyAll, Option.bind_eq_some_iff, Option.map_eq_some_iff]
  constructor
  · rintro ⟨⟨m₁, vs⟩, ha, ⟨m₂, js⟩, hs, rfl⟩
    exact ⟨m₁, vs, js, ha, hs, rfl⟩
  · rintro ⟨m₁, vs, js, ha, hs, hr⟩
    exact ⟨(m₁, vs), ha, (r.1, js), hs, by rw [← hr]⟩

theorem length_spend {ks : List K} {vs : List V} (h : spend m ks = some (m', vs)) :
    vs.length = ks.length := by
  induction ks generalizing m vs with
  | nil => simp_all [spend]
  | cons k ks ih =>
    obtain ⟨v, vs', -, hs, rfl⟩ := spend_cons_eq_some.1 h
    simp [ih hs]

theorem length_apply {r : FMap K V × List V} (h : apply m tx = some r) :
    r.2.length = tx.spends.length := by
  obtain ⟨m₁, hs, -⟩ := apply_eq_some.1 h
  exact length_spend hs

theorem length_applyAll {r : FMap K V × List V} (h : applyAll m txs = some r) :
    r.2.length = (txs.map fun tx => tx.spends.length).sum := by
  induction txs generalizing m r with
  | nil =>
    cases h
    rfl
  | cons tx txs ih =>
    obtain ⟨m₁, vs, js, ha, hs, hr⟩ := applyAll_cons_eq_some.1 h
    have htx : vs.length = tx.spends.length := length_apply ha
    have htxs : js.length = _ := ih hs
    rw [hr, List.length_append, htx, htxs, List.map_cons, List.sum_cons]

/-! ## What holds of all values -/

section Values

variable {P : K → V → Prop}

theorem spend_values (hm : ∀ k v, m.lookup k = some v → P k v) {ks : List K} {vs : List V}
    (h : spend m ks = some (m', vs)) :
    (∀ v ∈ vs, ∃ k, P k v) ∧ ∀ k v, m'.lookup k = some v → P k v := by
  induction ks generalizing m vs with
  | nil =>
    cases h
    exact ⟨nofun, hm⟩
  | cons k ks ih =>
    obtain ⟨v, vs', hv, hs, rfl⟩ := spend_cons_eq_some.1 h
    have herase : ∀ x w, (m.erase k).lookup x = some w → P x w := by
      intro x w hw
      rcases eq_or_ne x k with rfl | hne
      · rw [Finmap.lookup_erase] at hw
        cases hw
      · rw [Finmap.lookup_erase_ne hne] at hw
        exact hm x w hw
    obtain ⟨hvs, hm'⟩ := ih herase hs
    exact ⟨List.forall_mem_cons.2 ⟨⟨k, hm k v hv⟩, hvs⟩, hm'⟩

theorem create_values (hm : ∀ k v, m.lookup k = some v → P k v) {kvs : List (K × V)}
    (hkvs : ∀ kv ∈ kvs, P kv.1 kv.2) : ∀ k v, (create m kvs).lookup k = some v → P k v := by
  induction kvs generalizing m with
  | nil => exact hm
  | cons kv kvs ih =>
    obtain ⟨hkv, hkvs⟩ := List.forall_mem_cons.1 hkvs
    refine ih (m := m.insert kv.1 kv.2) (fun k v hv => ?_) hkvs
    rcases eq_or_ne k kv.1 with rfl | hne
    · rw [Finmap.lookup_insert] at hv
      exact Option.some.inj hv ▸ hkv
    · rw [Finmap.lookup_insert_of_ne _ hne] at hv
      exact hm k v hv

/-- What holds of the values there are and of the values created holds of the values spent
and of those left. -/
theorem applyAll_values (hm : ∀ k v, m.lookup k = some v → P k v)
    (htxs : ∀ tx ∈ txs, ∀ kv ∈ tx.creates, P kv.1 kv.2) {r : FMap K V × List V}
    (h : applyAll m txs = some r) :
    (∀ v ∈ r.2, ∃ k, P k v) ∧ ∀ k v, r.1.lookup k = some v → P k v := by
  induction txs generalizing m r with
  | nil =>
    cases h
    exact ⟨nofun, hm⟩
  | cons tx txs ih =>
    obtain ⟨m₁, vs, js, ha, hs, hr⟩ := applyAll_cons_eq_some.1 h
    obtain ⟨htx, htxs⟩ := List.forall_mem_cons.1 htxs
    obtain ⟨m₂, hspend, rfl⟩ := apply_eq_some.1 ha
    obtain ⟨hvs, hm₂⟩ := spend_values hm hspend
    obtain ⟨hjs, hm'⟩ := ih (create_values hm₂ htx) htxs hs
    refine ⟨fun v hv => ?_, hm'⟩
    rw [hr] at hv
    exact (List.mem_append.1 hv).elim (hvs v) (hjs v)

end Values

/-! ## Lookups -/

theorem create_append (kvs kvs' : List (K × V)) :
    create m (kvs ++ kvs') = create (create m kvs) kvs' := List.foldl_append

theorem lookup_create_of_notMem {kvs : List (K × V)} {x : K} (h : x ∉ kvs.map Prod.fst) :
    (create m kvs).lookup x = m.lookup x := by
  induction kvs generalizing m with
  | nil => rfl
  | cons kv kvs ih =>
    rw [List.map_cons, List.mem_cons, not_or] at h
    exact (ih h.2).trans (Finmap.lookup_insert_of_ne _ h.1)

/-- Without repeated keys, what is added is found and covers what was there. -/
theorem lookup_create_eq_some {kvs : List (K × V)} (hnd : (kvs.map Prod.fst).Nodup)
    {k : K} {v : V} :
    (create m kvs).lookup k = some v ↔
      (k, v) ∈ kvs ∨ k ∉ kvs.map Prod.fst ∧ m.lookup k = some v := by
  induction kvs generalizing m with
  | nil => simp [create]
  | cons kv kvs ih =>
    obtain ⟨k', v'⟩ := kv
    rw [List.map_cons, List.nodup_cons] at hnd
    rw [show create m ((k', v') :: kvs) = create (m.insert k' v') kvs from rfl, ih hnd.2]
    rcases eq_or_ne k k' with rfl | hne
    · have hnot : ∀ v, (k, v) ∉ kvs := fun _ hmem => hnd.1 (List.mem_map.2 ⟨_, hmem, rfl⟩)
      simp only [List.mem_cons, List.map_cons, hnot, Finmap.lookup_insert]
      grind
    · simp [Finmap.lookup_insert_of_ne _ hne, hne]

theorem mem_create {kvs : List (K × V)} {x : K} :
    x ∈ create m kvs ↔ x ∈ kvs.map Prod.fst ∨ x ∈ m := by
  induction kvs generalizing m with
  | nil => simp [create]
  | cons kv kvs ih =>
    rw [show create m (kv :: kvs) = create (m.insert kv.1 kv.2) kvs from rfl, ih,
      Finmap.mem_insert, List.map_cons, List.mem_cons]
    tauto

theorem lookup_drop {ks : List K} {x : K} :
    (drop m ks).lookup x = if x ∈ ks then none else m.lookup x := by
  induction ks generalizing m with
  | nil => simp [drop]
  | cons k ks ih =>
    rw [show drop m (k :: ks) = drop (m.erase k) ks from rfl, ih]
    rcases eq_or_ne x k with rfl | h
    · simp
    · simp [h, Finmap.lookup_erase_ne h]

/-- Spent keys are gone and the others are untouched. -/
theorem lookup_spend {ks : List K} {vs : List V} (h : spend m ks = some (m', vs)) (x : K) :
    m'.lookup x = if x ∈ ks then none else m.lookup x := by
  induction ks generalizing m vs with
  | nil => simp_all [spend]
  | cons k ks ih =>
    obtain ⟨v, vs', -, hs, -⟩ := spend_cons_eq_some.1 h
    rw [ih hs]
    rcases eq_or_ne x k with rfl | hne
    · simp
    · simp [hne, Finmap.lookup_erase_ne hne]

/-- A key that is there or is created, and that no transaction spends, is there afterwards. -/
theorem mem_applyAll {r : FMap K V × List V} (h : applyAll m txs = some r) {x : K}
    (hx : x ∈ m ∨ ∃ tx ∈ txs, x ∈ tx.creates.map Prod.fst) (hspent : ∀ tx ∈ txs, x ∉ tx.spends) :
    x ∈ r.1 := by
  induction txs generalizing m r with
  | nil =>
    cases h
    simpa using hx
  | cons tx txs ih =>
    obtain ⟨m₁, vs, js, ha, hs, -⟩ := applyAll_cons_eq_some.1 h
    obtain ⟨m₂, hspend, rfl⟩ := apply_eq_some.1 ha
    obtain ⟨hnot, hspent⟩ := List.forall_mem_cons.1 hspent
    refine ih (r := (r.1, js)) hs ?_ hspent
    rw [mem_create]
    rcases hx with hx | ⟨tx', htx', hx⟩
    · refine .inl (.inr ?_)
      rw [← Finmap.lookup_isSome, lookup_spend hspend, if_neg hnot, Finmap.lookup_isSome]
      exact hx
    · rcases List.mem_cons.1 htx' with rfl | htx'
      · exact .inl (.inl hx)
      · exact .inr ⟨tx', htx', hx⟩

/-- The journal brings every spent key back to its value. -/
theorem lookup_create_journal {ks : List K} {vs : List V} (h : spend m ks = some (m', vs))
    (base : FMap K V) (x : K) :
    (create base (ks.zip vs).reverse).lookup x = if x ∈ ks then m.lookup x else base.lookup x := by
  induction ks generalizing m vs with
  | nil => simp [create]
  | cons k ks ih =>
    obtain ⟨v, vs', hv, hs, hvs⟩ := spend_cons_eq_some.1 h
    obtain rfl : vs = v :: vs' := hvs
    rw [List.zip_cons_cons, List.reverse_cons, create_append]
    rcases eq_or_ne x k with rfl | hne
    · simpa [create] using hv.symm
    · rw [show create (create base (ks.zip vs').reverse) [(k, v)] =
          (create base (ks.zip vs').reverse).insert k v from rfl,
        Finmap.lookup_insert_of_ne _ hne, ih hs, Finmap.lookup_erase_ne hne]
      simp [hne]

/-! ## Reverting -/

/-- Reverting a transaction whose keys were new restores the ledger. -/
theorem revert_apply {journal : List V} (hfresh : Fresh m tx)
    (h : apply m tx = some (m', journal)) : revert m' tx journal = m := by
  obtain ⟨m₁, hs, hm'⟩ := apply_eq_some.1 h
  obtain rfl : m' = create m₁ tx.creates := hm'
  apply Finmap.ext_lookup
  intro x
  rw [revert, lookup_drop, lookup_create_journal hs]
  split_ifs with hcreate hspend
  · exact (Finmap.lookup_eq_none.2 (hfresh x hcreate)).symm
  · rfl
  · rw [lookup_create_of_notMem hcreate, lookup_spend hs, if_neg hspend]

theorem revertAll_applyAll {journal : List V} (hfresh : FreshAll m txs)
    (h : applyAll m txs = some (m', journal)) : revertAll m' txs journal = m := by
  induction txs generalizing m journal with
  | nil =>
    cases h
    rfl
  | cons tx txs ih =>
    obtain ⟨m₁, vs, js, ha, hs, hj⟩ := applyAll_cons_eq_some.1 h
    obtain rfl : journal = vs ++ js := hj
    have hlen : vs.length = tx.spends.length := length_apply ha
    rw [revertAll, ← hlen, List.drop_left, List.take_left, ih (hfresh.2 _ ha) hs]
    exact revert_apply hfresh.1 ha

/-! ## Totals -/

variable (f : V → Nat)

theorem total_spend {ks : List K} {vs : List V} (h : spend m ks = some (m', vs)) :
    FMap.total f m' + (vs.map f).sum = FMap.total f m := by
  induction ks generalizing m vs with
  | nil =>
    cases h
    simp
  | cons k ks ih =>
    obtain ⟨v, vs', hv, hs, hvs⟩ := spend_cons_eq_some.1 h
    obtain rfl : vs = v :: vs' := hvs
    have := ih hs
    have := FMap.total_erase f hv
    rw [List.map_cons, List.sum_cons]
    omega

theorem total_create {kvs : List (K × V)} (hnd : (kvs.map Prod.fst).Nodup)
    (hfresh : ∀ k ∈ kvs.map Prod.fst, k ∉ m) :
    FMap.total f (create m kvs) = FMap.total f m + (kvs.map fun kv => f kv.2).sum := by
  induction kvs generalizing m with
  | nil => rfl
  | cons kv kvs ih =>
    obtain ⟨hnot, hnd⟩ := List.nodup_cons.1 hnd
    rw [show create m (kv :: kvs) = create (m.insert kv.1 kv.2) kvs from rfl, ih hnd ?_,
      FMap.total_insert f _ (hfresh kv.1 List.mem_cons_self), List.map_cons, List.sum_cons]
    · omega
    · intro k hk
      rw [Finmap.mem_insert, not_or]
      exact ⟨fun heq => hnot (heq ▸ hk), hfresh k (List.mem_cons_of_mem _ hk)⟩

/-- A transaction moves the total by what it creates and what it spends. -/
theorem total_apply {r : FMap K V × List V} (hnd : (tx.creates.map Prod.fst).Nodup)
    (hfresh : Fresh m tx) (h : apply m tx = some r) :
    FMap.total f r.1 + (r.2.map f).sum
      = FMap.total f m + (tx.creates.map fun kv => f kv.2).sum := by
  obtain ⟨m₁, hs, hr⟩ := apply_eq_some.1 h
  have hspend := total_spend f hs
  rw [hr, total_create f hnd]
  · omega
  · intro k hk hmem
    have := lookup_spend hs k
    split_ifs at this
    · exact absurd hmem (Finmap.lookup_eq_none.1 this)
    · rw [Finmap.lookup_eq_none.2 (hfresh k hk)] at this
      exact absurd hmem (Finmap.lookup_eq_none.1 this)

end BitcoinNode.Ledger
