import BitcoinNode.Blockstore.Records

/-!
# Partial reads

`read` adds its offset to the length and to the position of the record as 32-bit words. A sum
that wraps around passes the check on the end of the record, and a read that starts in front of
the record goes through.
-/

namespace BitcoinNode

namespace FileBlockStore

open Bytes

variable {options : BlockStoreOptions} {store : FileBlockStore} {records : Records}
  {recordType : RecordType} {hash : BlockHash} {data part : List UInt8} {r : BlockRecord}
  {offset n : Nat} {length : Option Nat}

/-- The part of the data at an offset, of a length or up to the end. -/
def PartAt (data : List UInt8) (offset : Nat) (length : Option Nat) (part : List UInt8) : Prop :=
  offset + length.getD (data.length - offset) ≤ data.length
    ∧ part = slice data offset (length.getD (data.length - offset))

/-- A read stops, or it returns the part of the data that it was asked for. -/
def ReadsInside (store : FileBlockStore) (recordType : RecordType) (hash : BlockHash)
    (data : List UInt8) (offset : Nat) (length : Option Nat) : Prop :=
  (∃ stop, store.read recordType hash offset length = .error stop)
    ∨ ∃ part, store.read recordType hash offset length = .ok (some part)
      ∧ PartAt data offset length part

/-- Where a record stands in its file. -/
structure Stands (store : FileBlockStore) (recordType : RecordType) (r : BlockRecord)
    (data bytes : List UInt8) : Prop where
  file : store.files.lookup (recordType, r.file) = some bytes
  slice : slice bytes r.position r.length = data
  length : r.length = data.length
  room : r.position + r.length ≤ bytes.length
  small : bytes.length < 2 ^ 31

theorem Runs.stands (h : Runs options store records)
    (hkey : records.lookup (recordType, hash) = some data)
    (hr : store.db.blockRecord.lookup (recordType, hash) = some r) :
    ∃ bytes, Stands store recordType r data bytes := by
  obtain ⟨-, frames, hl⟩ := h.layout
  obtain ⟨before, data', after, hfs, hpos, hlen, hdata⟩ := hl.located hr
  obtain rfl := Option.some.inj (hdata.symm.trans hkey)
  have hfile : store.files.lookup (recordType, r.file) = _ := hl.files.trans (by rw [hfs])
  have hmax : size recordType (before ++ (hash, data') :: after) ≤ store.options.maxFileLength :=
    (hl.file hfs).2.1
  refine ⟨_, hfile, ?_, hlen, ?_, ?_⟩
  · rw [hpos, hlen]
    exact slice_encode before hash data' after
  · rw [hpos, hlen, length_encode, size_append, size_cons]
    dsimp only
    omega
  · rw [length_encode]
    exact hmax.trans_lt store.options.maxFileLength_lt

theorem Stands.slice_part {bytes : List UInt8} (h : Stands store recordType r data bytes)
    (hle : offset + n ≤ data.length) :
    Bytes.slice bytes (r.position + offset) n = Bytes.slice data offset n := by
  have hlen := h.length
  rw [← h.slice, Bytes.slice_slice (by omega)]

/-- A part of the record reads back. -/
theorem Stands.read {bytes : List UInt8} (h : Stands store recordType r data bytes)
    (hr : store.db.blockRecord.lookup (recordType, hash) = some r)
    (hle : offset + n ≤ data.length) :
    store.read recordType hash offset (some n) = .ok (some (Bytes.slice data offset n)) := by
  have hsmall := h.small
  have hlen := h.length
  rw [read_of_le hr h.file h.room (by omega) (by omega), h.slice_part hle]

/-- After any writes and prunes, a read stops or returns the part of the record it was asked for,
unless its end wraps around into the record and its start into the file. -/
theorem Runs.readsInside_iff (h : Runs options store records)
    (hkey : records.lookup (recordType, hash) = some data)
    (hr : store.db.blockRecord.lookup (recordType, hash) = some r) (hoffset : offset < 2 ^ 32)
    (hlength : ∀ n ∈ length, n < 2 ^ 32) :
    ReadsInside store recordType hash data offset length ↔
      ¬ ∃ n, length = some n ∧ 2 ^ 32 ≤ offset + n ∧ offset + n - 2 ^ 32 ≤ data.length
        ∧ 2 ^ 32 ≤ r.position + offset := by
  obtain ⟨bytes, hstands⟩ := h.stands hkey hr
  have hlen := hstands.length
  have hroom := hstands.room
  have hsmall := hstands.small
  cases length with
  | none =>
    refine iff_of_true ?_ (by simp)
    by_cases hout : offset > r.length
    · exact .inl ⟨_, by rw [read_to_end hr, if_pos hout]⟩
    · refine .inr ⟨_, ?_, ?_, rfl⟩
      · rw [read_to_end hr, if_neg hout, hlen]
        exact hstands.read hr (by omega)
      · rw [Option.getD_none]
        omega
  | some n =>
    have hn := hlength n rfl
    have hexists : (∃ n', some n = some n' ∧ 2 ^ 32 ≤ offset + n' ∧ offset + n' - 2 ^ 32
        ≤ data.length ∧ 2 ^ 32 ≤ r.position + offset) ↔ 2 ^ 32 ≤ offset + n
          ∧ offset + n - 2 ^ 32 ≤ data.length ∧ 2 ^ 32 ≤ r.position + offset := by
      simp only [Option.some.injEq, exists_eq_left']
    rw [hexists]
    by_cases hexact : offset + n < 2 ^ 32
    · refine iff_of_true ?_ (by omega)
      by_cases hout : offset + n > r.length
      · exact .inl ⟨_, by rw [read_of_lookup hr hstands.file, Word.add_eq hexact, if_pos hout]⟩
      · exact .inr ⟨_, hstands.read hr (by omega), by rw [Option.getD_some]; omega, rfl⟩
    have hend : Word.add 32 offset n = offset + n - 2 ^ 32 := by
      rw [Word.add]
      omega
    by_cases hout : offset + n - 2 ^ 32 > r.length
    · exact iff_of_true (.inl ⟨_, by rw [read_of_lookup hr hstands.file, hend, if_pos hout]⟩)
        (by omega)
    by_cases hfront : r.position + offset < 2 ^ 32
    · refine iff_of_true (.inl ⟨.error .io, ?_⟩) (by omega)
      rw [read_of_lookup hr hstands.file, hend, if_neg hout, Word.add_eq hfront, if_pos (by omega)]
    · -- the read starts in front of the record and ends within it
      have hstart : Word.add 32 r.position offset = r.position + offset - 2 ^ 32 := by
        rw [Word.add]
        omega
      refine iff_of_false ?_ (not_not.2 (by omega))
      rw [ReadsInside, read_of_lookup hr hstands.file, hend, if_neg hout, hstart,
        if_neg (by omega)]
      rintro (⟨_, hstop⟩ | ⟨part, -, hle, -⟩)
      · cases hstop
      · rw [Option.getD_some] at hle
        omega

/-- Twelve bytes of a block of twenty. -/
theorem Runs.readsInside_iff_twelve : ∃ store records,
    Runs (.bitcoin 43 (by decide)) store records ∧ ReadsInside store .block 1
      (List.replicate 20 1) 4 (some 12) :=
  have run : Runs (.bitcoin 43 (by decide)) _ _ :=
    @Runs.step _ _ _ _ (.writeBlock 1 (List.replicate 20 1)) .new rfl
  ⟨_, _, run, (run.readsInside_iff rfl rfl (by decide) (by decide)).2 (by decide)⟩

/-- Read at an offset eight bytes below the end of the 32-bit words, a block comes with the
header of its record. -/
theorem header_read : ∃ store records,
    Runs (.bitcoin 43 (by decide)) store records
      ∧ records.lookup (.block, 1) = some (List.replicate 20 1)
      ∧ store.read .block 1 (2 ^ 32 - 8) (some 12)
        = .ok (some [0xF9, 0xBE, 0xB4, 0xD9, 20, 0, 0, 0, 1, 1, 1, 1]) :=
  ⟨_, _, @Runs.step _ _ _ _ (.writeBlock 1 (List.replicate 20 1)) .new rfl, rfl,
    by decide +kernel⟩

end FileBlockStore

end BitcoinNode
