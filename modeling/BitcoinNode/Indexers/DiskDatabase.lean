import BitcoinNode.Blockstore.FileBlockStore

/-!
# The databases of the indexers

`db/disk.rs` and `db/key.rs`: a value is stored in a column under the bytes of its key, so
two keys of one column that have the same bytes are one key.
-/

namespace BitcoinNode

/-- A kind of key: the column it stands in, and its bytes. -/
class DBKey (K : Type) where
  col : K → String
  encode : K → List UInt8

/-- A database: the values of each column, by the bytes of their keys. -/
abbrev DiskDatabase (V : Type) := FMap (String × List UInt8) V

inductive DiskOperation (K V : Type) where
  | insert (key : K) (value : V)
  | remove (key : K)

/-- The column and the bytes under which the value of a key is stored. -/
def DiskDatabase.rawKey {K : Type} [DBKey K] (key : K) : String × List UInt8 :=
  (DBKey.col key, DBKey.encode key)

namespace DiskOperation

variable {K V : Type}

def rawKey [DBKey K] : DiskOperation K V → String × List UInt8
  | .insert key _ | .remove key => DiskDatabase.rawKey key

/-- The value that is there after the operation. -/
def left : DiskOperation K V → Option V
  | .insert _ value => some value
  | .remove _ => none

end DiskOperation

namespace DiskDatabase

variable {K V : Type} [DBKey K] {db : DiskDatabase V} {key key' : K} {value : V}

def get (db : DiskDatabase V) (key : K) : Option V := db.lookup (rawKey key)

def has (db : DiskDatabase V) (key : K) : Bool := decide (rawKey key ∈ db)

def apply (db : DiskDatabase V) : DiskOperation K V → DiskDatabase V
  | .insert key value => Finmap.insert (rawKey key) value db
  | .remove key => Finmap.erase (rawKey key) db

def writeBatch (db : DiskDatabase V) (batch : List (DiskOperation K V)) : DiskDatabase V :=
  batch.foldl apply db

@[simp] theorem writeBatch_nil : db.writeBatch ([] : List (DiskOperation K V)) = db := rfl

@[simp] theorem writeBatch_cons (op : DiskOperation K V) (batch : List (DiskOperation K V)) :
    db.writeBatch (op :: batch) = (db.apply op).writeBatch batch := rfl

theorem writeBatch_append (batch batch' : List (DiskOperation K V)) :
    db.writeBatch (batch ++ batch') = (db.writeBatch batch).writeBatch batch' :=
  List.foldl_append

theorem get_insert : (db.apply (.insert key value)).get key' =
    if rawKey key' = rawKey key then some value else db.get key' := by
  unfold get apply
  split_ifs with h
  · rw [h, Finmap.lookup_insert]
  · rw [Finmap.lookup_insert_of_ne _ h]

/-- What an operation leaves under its key, and nothing else changes. -/
theorem lookup_apply {op : DiskOperation K V} {raw : String × List UInt8} :
    Finmap.lookup raw (db.apply op) = if raw = op.rawKey then op.left else db.lookup raw := by
  cases op with
  | insert key value =>
    change Finmap.lookup raw (Finmap.insert (rawKey key) value db)
      = if raw = rawKey key then some value else Finmap.lookup raw db
    by_cases h : raw = rawKey key
    · rw [if_pos h, h]
      exact Finmap.lookup_insert _
    · rw [if_neg h]
      exact Finmap.lookup_insert_of_ne _ h
  | remove key =>
    change Finmap.lookup raw (Finmap.erase (rawKey key) db)
      = if raw = rawKey key then none else Finmap.lookup raw db
    by_cases h : raw = rawKey key
    · rw [if_pos h, h]
      exact Finmap.lookup_erase _ _
    · rw [if_neg h]
      exact Finmap.lookup_erase_ne h

theorem lookup_writeBatch_of_ne {batch : List (DiskOperation K V)} {raw : String × List UInt8}
    (h : ∀ op ∈ batch, op.rawKey ≠ raw) :
    Finmap.lookup raw (db.writeBatch batch) = db.lookup raw := by
  induction batch generalizing db with
  | nil => rfl
  | cons op batch ih => grind [writeBatch_cons, lookup_apply]

theorem lookup_writeBatch_eq_some {batch : List (DiskOperation K V)} {raw : String × List UInt8}
    (h : Finmap.lookup raw (db.writeBatch batch) = some value) :
    (∃ op ∈ batch, op.rawKey = raw ∧ op.left = some value) ∨ db.lookup raw = some value := by
  induction batch using List.reverseRecOn with
  | nil => exact .inr h
  | append_singleton batch last ih =>
    rw [writeBatch_append, writeBatch_cons, writeBatch_nil, lookup_apply] at h
    grind

/-- A batch whose operations agree on a key leaves there what they say. -/
theorem lookup_writeBatch_of_mem {batch : List (DiskOperation K V)} {raw : String × List UInt8}
    {op : DiskOperation K V} (hop : op ∈ batch) (hraw : op.rawKey = raw)
    (h : ∀ op' ∈ batch, op'.rawKey = raw → op'.left = op.left) :
    Finmap.lookup raw (db.writeBatch batch) = op.left := by
  induction batch using List.reverseRecOn with
  | nil => simp at hop
  | append_singleton batch last ih =>
    rw [writeBatch_append, writeBatch_cons, writeBatch_nil, lookup_apply]
    grind

@[simp] theorem get_empty : get (∅ : DiskDatabase V) key = none := Finmap.lookup_empty _

end DiskDatabase

/-! ## The bytes of hashes and heights -/

theorem hashBytes_inj {hash hash' : BlockHash} (h : hash < 2 ^ 256) (h' : hash' < 2 ^ 256) :
    hashBytes hash = hashBytes hash' ↔ hash = hash' := by
  refine ⟨fun heq => ?_, congrArg _⟩
  rw [← hashFromSlice_hashBytes h, heq, hashFromSlice_hashBytes h']

end BitcoinNode
