import Mathlib.Data.Finmap
import Mathlib.Algebra.BigOperators.Group.Multiset.Basic
import Mathlib.Tactic

/-!
# Finite maps, totals and write-back views

Facts about `Finmap` that a key-value store needs: the total of a measure over the
stored values, and views. A view is an association list of pending values over a base
map, some of them marked dead; flushing it writes the live ones and erases the dead ones.
The order in which a view lists its keys never shows in the flushed map.
-/

namespace BitcoinNode

/-- Finite maps with values of one type. -/
abbrev FMap (K V : Type) := Finmap fun _ : K => V

/-- Association lists with values of one type, listed in some order. -/
abbrev FList (K V : Type) := AList fun _ : K => V

variable {K V : Type}

namespace FMap

/-! ## Totals -/

/-- The sum of a measure over all stored values. -/
def total (f : V → Nat) (m : FMap K V) : Nat := (m.entries.map fun e => f e.2).sum

/-- The number of stored values. -/
def count (m : FMap K V) : Nat := total (fun _ => 1) m

@[simp] theorem total_empty (f : V → Nat) : total f (∅ : FMap K V) = 0 := rfl

theorem count_eq (m : FMap K V) : count m = m.keys.card := by
  rw [count, total, Multiset.map_const', Multiset.sum_replicate, smul_eq_mul, Nat.mul_one]
  exact (Multiset.card_map _ _).symm

variable [DecidableEq K]

theorem total_insert (f : V → Nat) {m : FMap K V} {k : K} (v : V) (h : k ∉ m) :
    total f (m.insert k v) = f v + total f m := by
  rw [total, total, Finmap.entries_insert_of_notMem h, Multiset.map_cons, Multiset.sum_cons]

theorem insert_erase {m : FMap K V} {k : K} {v : V} (h : m.lookup k = some v) :
    (m.erase k).insert k v = m := by
  apply Finmap.ext_lookup
  intro x
  rcases eq_or_ne x k with rfl | hx
  · rw [Finmap.lookup_insert, h]
  · rw [Finmap.lookup_insert_of_ne _ hx, Finmap.lookup_erase_ne hx]

theorem total_erase (f : V → Nat) {m : FMap K V} {k : K} {v : V} (h : m.lookup k = some v) :
    total f (m.erase k) + f v = total f m := by
  have hins := total_insert f v (Finmap.notMem_erase_self (a := k) (s := m))
  rw [insert_erase h] at hins
  omega

theorem erase_of_notMem {m : FMap K V} {k : K} (h : k ∉ m) : m.erase k = m := by
  apply Finmap.ext_lookup
  intro x
  rcases eq_or_ne x k with rfl | hx
  · rw [Finmap.lookup_erase, Finmap.lookup_eq_none.2 h]
  · rw [Finmap.lookup_erase_ne hx]

theorem insert_erase_self (m : FMap K V) (k : K) (v : V) :
    (m.erase k).insert k v = m.insert k v := by
  apply Finmap.ext_lookup
  intro x
  rcases eq_or_ne x k with rfl | hx
  · simp
  · simp [Finmap.lookup_insert_of_ne _ hx, Finmap.lookup_erase_ne hx]

/-- Writing what is there already changes nothing. -/
theorem insert_of_lookup {m : FMap K V} {k : K} {v : V} (h : m.lookup k = some v) :
    m.insert k v = m := by
  rw [← insert_erase_self, insert_erase h]

/-- Overwriting a key cannot add more than the new value. -/
theorem total_insert_le (f : V → Nat) (m : FMap K V) (k : K) (v : V) :
    total f (m.insert k v) ≤ f v + total f m := by
  cases h : m.lookup k with
  | none => exact (total_insert f v (Finmap.lookup_eq_none.1 h)).le
  | some w =>
    have he := total_insert f v (Finmap.notMem_erase_self (a := k) (s := m))
    rw [insert_erase_self] at he
    have := total_erase f h
    omega

theorem insert_erase_cancel {m : FMap K V} {k : K} (v : V) (h : k ∉ m) :
    (m.insert k v).erase k = m := by
  apply Finmap.ext_lookup
  intro x
  rcases eq_or_ne x k with rfl | hx
  · rw [Finmap.lookup_erase, Finmap.lookup_eq_none.2 h]
  · rw [Finmap.lookup_erase_ne hx, Finmap.lookup_insert_of_ne _ hx]

theorem keys_insert {m : FMap K V} {k : K} {v : V} :
    Finmap.keys (m.insert k v) = insert k (Finmap.keys m) := by
  ext x
  simp [Finmap.mem_keys]

/-! ## Dropping keys -/

theorem lookup_erase_eq_some {m : FMap K V} {k x : K} {v : V} :
    (m.erase k).lookup x = some v ↔ x ≠ k ∧ m.lookup x = some v := by
  by_cases h : x = k
  · subst h
    simp
  · rw [Finmap.lookup_erase_ne h]
    exact ⟨fun hv => ⟨h, hv⟩, fun hv => hv.2⟩

/-- Drop a list of keys. -/
def eraseAll (m : FMap K V) (ks : List K) : FMap K V := ks.foldl (fun m k => m.erase k) m

theorem lookup_eraseAll_eq_some {m : FMap K V} {ks : List K} {x : K} {v : V} :
    (eraseAll m ks).lookup x = some v ↔ x ∉ ks ∧ m.lookup x = some v := by
  induction ks generalizing m with
  | nil => simp [eraseAll]
  | cons k ks ih =>
    change (eraseAll (m.erase k) ks).lookup x = some v ↔ _
    rw [ih, lookup_erase_eq_some, List.mem_cons, not_or]
    tauto

/-- Erase the keys of another map. -/
def eraseKeys {W : Type} (m : FMap K V) (m' : FMap K W) : FMap K V :=
  m'.foldl (fun m k _ => m.erase k) (fun _ _ _ _ _ => Finmap.erase_erase.symm) m

theorem lookup_eraseKeys_eq_some {W : Type} {m : FMap K V} {m' : FMap K W} {x : K} {v : V} :
    (m.eraseKeys m').lookup x = some v ↔ x ∉ m' ∧ m.lookup x = some v := by
  induction m' using Finmap.induction_on with | _ a
  have hfold : m.eraseKeys a.toFinmap = eraseAll m a.keys := by
    rw [eraseAll, AList.keys, List.keys, List.foldl_map]
    rfl
  rw [hfold, lookup_eraseAll_eq_some]
  rfl

end FMap

/-! ## Numbered rows -/

namespace FMap

/-- The first `n` of a sequence of rows, the last one in front. -/
def rowList (row : Nat → K × V) : Nat → List (Sigma fun _ : K => V)
  | 0 => []
  | n + 1 => ⟨(row n).1, (row n).2⟩ :: rowList row n

/-- The first `n` rows have different keys, none of which is in the map. -/
structure Fresh (base : FMap K V) (row : Nat → K × V) (n : Nat) : Prop where
  new {i : Nat} : i < n → (row i).1 ∉ base
  distinct {i j : Nat} : i < n → j < n → (row i).1 = (row j).1 → i = j

variable {base : FMap K V} {row : Nat → K × V} {n i : Nat} {k : K} {v : V}

theorem Fresh.mono (h : Fresh base row n) (hi : i ≤ n) : Fresh base row i :=
  ⟨fun hj => h.new (hj.trans_le hi), fun hj hk => h.distinct (hj.trans_le hi) (hk.trans_le hi)⟩

theorem mem_keys_rowList : k ∈ (rowList row n).keys ↔ ∃ i < n, (row i).1 = k := by
  induction n with
  | zero => simp [rowList]
  | succ n ih =>
    rw [rowList, List.keys_cons, List.mem_cons, ih]
    constructor
    · rintro (rfl | ⟨i, hi, rfl⟩)
      · exact ⟨n, Nat.lt_succ_self n, rfl⟩
      · exact ⟨i, hi.trans (Nat.lt_succ_self n), rfl⟩
    · rintro ⟨i, hi, rfl⟩
      rcases Nat.lt_succ_iff_lt_or_eq.1 hi with hi | rfl
      · exact .inr ⟨i, hi, rfl⟩
      · exact .inl rfl

theorem Fresh.nodupKeys_rowList (h : Fresh base row n) : (rowList row n).NodupKeys := by
  induction n with
  | zero => exact List.nodupKeys_nil
  | succ n ih =>
    refine List.nodupKeys_cons.2 ⟨fun hmem => ?_, ih (h.mono (Nat.le_succ n))⟩
    obtain ⟨i, hi, hkey⟩ := mem_keys_rowList.1 hmem
    exact hi.ne (h.distinct (hi.trans (Nat.lt_succ_self n)) (Nat.lt_succ_self n) hkey)

theorem Fresh.nodupKeys (h : Fresh base row n) :
    (↑(rowList row n) + base.entries : Multiset (Sigma fun _ : K => V)).NodupKeys := by
  induction base using Finmap.induction_on with | _ a
  change (rowList row n ++ a.entries).NodupKeys
  rw [List.NodupKeys, List.keys, List.map_append, List.nodup_append']
  refine ⟨h.nodupKeys_rowList, a.nodupKeys, fun k hk ha => ?_⟩
  obtain ⟨i, hi, rfl⟩ := mem_keys_rowList.1 hk
  exact h.new hi (Finmap.mem_toFinmap.2 ha)

/-- The map with the first rows of a sequence on top. It is listed as it stands, where a fold of
`insert` would erase every key from the rows below it. -/
def stack (base : FMap K V) (row : Nat → K × V) (n : Nat) (h : Fresh base row n) : FMap K V :=
  ⟨↑(rowList row n) + base.entries, h.nodupKeys⟩

variable [DecidableEq K]

theorem lookup_stack_of_ne (h : Fresh base row n) (hk : ∀ i < n, (row i).1 ≠ k) :
    (stack base row n h).lookup k = base.lookup k := by
  induction base using Finmap.induction_on with | _ a
  change (rowList row n ++ a.entries).dlookup k = a.entries.dlookup k
  rw [List.dlookup_append]
  have hnone : (rowList row n).dlookup k = none := List.dlookup_eq_none.2 fun hmem => by
    obtain ⟨i, hi, hkey⟩ := mem_keys_rowList.1 hmem
    exact hk i hi hkey
  rw [hnone]
  rfl

theorem notMem_stack (h : Fresh base row n) (hnew : k ∉ base) (hk : ∀ i < n, (row i).1 ≠ k) :
    k ∉ stack base row n h := by
  rw [← Finmap.lookup_eq_none, lookup_stack_of_ne h hk, Finmap.lookup_eq_none]
  exact hnew

theorem stack_succ (h : Fresh base row (n + 1)) : stack base row (n + 1) h
    = (stack base row n (h.mono (Nat.le_succ n))).insert (row n).1 (row n).2 := by
  apply Finmap.ext
  rw [Finmap.entries_insert_of_notMem]
  · exact Multiset.cons_add ⟨(row n).1, (row n).2⟩ (rowList row n) base.entries
  · refine notMem_stack _ (h.new (Nat.lt_succ_self n)) fun i hi hkey => hi.ne ?_
    exact h.distinct (hi.trans (Nat.lt_succ_self n)) (Nat.lt_succ_self n) hkey

theorem lookup_stack (h : Fresh base row n) (hi : i < n) :
    (stack base row n h).lookup (row i).1 = some (row i).2 := by
  induction n with
  | zero => cases hi
  | succ n ih =>
    rw [stack_succ]
    rcases Nat.lt_succ_iff_lt_or_eq.1 hi with hlt | rfl
    · rw [Finmap.lookup_insert_of_ne, ih _ hlt]
      exact fun hkey => hlt.ne (h.distinct hi (Nat.lt_succ_self n) hkey)
    · exact Finmap.lookup_insert _

theorem lookup_stack_eq_some (h : Fresh base row n) (hv : (stack base row n h).lookup k = some v) :
    base.lookup k = some v ∨ ∃ i < n, row i = (k, v) := by
  by_cases hk : ∃ i < n, (row i).1 = k
  · obtain ⟨i, hi, rfl⟩ := hk
    rw [lookup_stack h hi] at hv
    exact .inr ⟨i, hi, Prod.ext rfl (Option.some.inj hv)⟩
  · rw [lookup_stack_of_ne h fun i hi hkey => hk ⟨i, hi, hkey⟩] at hv
    exact .inl hv

end FMap

/-! ## Write-back views -/

namespace View

variable [DecidableEq K] (dead : V → Bool)

/-- Write one pending value to the base map. -/
def write (m : FMap K V) (k : K) (v : V) : FMap K V :=
  if dead v then m.erase k else m.insert k v

/-- Write a whole view to the base map. -/
def flush (view : FList K V) (base : FMap K V) : FMap K V :=
  view.entries.foldl (fun m e => write dead m e.1 e.2) base

theorem lookup_write_self (m : FMap K V) (k : K) (v : V) :
    (write dead m k v).lookup k = if dead v then none else some v := by
  unfold write
  split_ifs <;> simp

theorem lookup_write_of_ne (m : FMap K V) {k x : K} (v : V) (h : x ≠ k) :
    (write dead m k v).lookup x = m.lookup x := by
  unfold write
  split_ifs
  · exact Finmap.lookup_erase_ne h
  · exact Finmap.lookup_insert_of_ne _ h

theorem lookup_foldl_write_of_notMem (es : List (Sigma fun _ : K => V)) (m : FMap K V) {x : K}
    (h : x ∉ es.keys) :
    (es.foldl (fun m e => write dead m e.1 e.2) m).lookup x = m.lookup x := by
  induction es generalizing m with
  | nil => rfl
  | cons e es ih =>
    rw [List.keys_cons, List.mem_cons, not_or] at h
    rw [List.foldl_cons, ih _ h.2, lookup_write_of_ne dead m e.2 h.1]

theorem lookup_foldl_write (es : List (Sigma fun _ : K => V)) (m : FMap K V) (x : K)
    (hnd : es.NodupKeys) :
    (es.foldl (fun m e => write dead m e.1 e.2) m).lookup x =
      match es.dlookup x with
      | some v => if dead v then none else some v
      | none => m.lookup x := by
  induction es generalizing m with
  | nil => rfl
  | cons e es ih =>
    obtain ⟨k, v⟩ := e
    obtain ⟨hk, hnd⟩ := List.nodupKeys_cons.1 hnd
    rw [List.foldl_cons]
    rcases eq_or_ne x k with rfl | hx
    · rw [lookup_foldl_write_of_notMem dead es _ hk, lookup_write_self, List.dlookup_cons_eq]
    · rw [ih _ hnd, List.dlookup_cons_ne _ _ hx, lookup_write_of_ne dead m v hx]

/-- The flushed map shows a live pending value, hides a dead one and otherwise shows the
base. -/
theorem lookup_flush (view : FList K V) (base : FMap K V) (x : K) :
    (flush dead view base).lookup x =
      match view.lookup x with
      | some v => if dead v then none else some v
      | none => base.lookup x :=
  lookup_foldl_write dead view.entries base x view.nodupKeys

@[simp] theorem flush_empty (base : FMap K V) : flush dead (∅ : FList K V) base = base := rfl

/-- Adding a pending value to a view writes it to the flushed map. -/
theorem flush_insert (view : FList K V) (base : FMap K V) (k : K) (v : V) :
    flush dead (view.insert k v) base = write dead (flush dead view base) k v := by
  apply Finmap.ext_lookup
  intro x
  rw [lookup_flush]
  rcases eq_or_ne x k with rfl | hx
  · rw [AList.lookup_insert, lookup_write_self]
  · rw [AList.lookup_insert_ne hx, lookup_write_of_ne dead _ v hx, lookup_flush]

/-- Reading a base value into the view changes nothing. -/
theorem flush_insert_base {view : FList K V} {base : FMap K V} {k : K} {v : V}
    (hview : view.lookup k = none) (hbase : base.lookup k = some v) (hlive : dead v = false) :
    flush dead (view.insert k v) base = flush dead view base := by
  apply Finmap.ext_lookup
  intro x
  rw [lookup_flush, lookup_flush]
  rcases eq_or_ne x k with rfl | hx
  · simp [hview, hbase, hlive]
  · rw [AList.lookup_insert_ne hx]

end View

end BitcoinNode
