import BitcoinNode.Library.Result
import BitcoinNode.Primitives.Transaction

/-!
# What the checks guarantee

The facts a transaction or a block carries once its checks passed: the shape of the
transaction list, distinct inputs, and sums of outputs that are exact and within the
money range.
-/

namespace BitcoinNode

namespace Transaction

/-- The exact value of all outputs. -/
def outputTotal (tx : Transaction) : Nat := (tx.output.map TxOut.value).sum

theorem checkOutputs_eq_ok {outputs : List TxOut} {valueOut : Nat}
    (h : checkOutputs outputs valueOut = .ok ()) :
    outputs = [] ∨ valueOut + (outputs.map TxOut.value).sum ≤ MAX_MONEY := by
  induction outputs generalizing valueOut with
  | nil => exact .inl rfl
  | cons output outputs ih =>
    refine .inr ?_
    unfold checkOutputs at h
    split at h
    · cases h
    split at h
    · cases h
    rename_i total hadd
    obtain ⟨-, rfl⟩ := Word.checkedAdd_eq_some.1 hadd
    split at h
    · cases h
    rename_i hmax
    rw [List.map_cons, List.sum_cons]
    rcases ih h with rfl | hle
    · simpa using hmax
    · omega

/-- A transaction that passed `check_sanity`. -/
structure Sane (tx : Transaction) : Prop where
  input_ne_nil : tx.input ≠ []
  output_ne_nil : tx.output ≠ []
  outputTotal_le : tx.outputTotal ≤ MAX_MONEY
  nodup : (tx.input.map TxIn.previousOutput).Nodup

theorem checkSanity_eq_ok {tx : Transaction} (h : tx.checkSanity = .ok ()) : tx.Sane := by
  simp only [checkSanity, throw_bind, ite_throw_eq_ok, bind_eq_ok] at h
  obtain ⟨hinput, houtput, -, ⟨⟩, houtputs, hdup, -⟩ := h
  have hne : tx.output ≠ [] := by simpa using houtput
  refine ⟨by simpa using hinput, hne, ?_, ?_⟩
  · simpa [outputTotal] using (checkOutputs_eq_ok houtputs).resolve_left hne
  · by_contra hnodup
    have hlen : ¬ 1 < tx.input.length := by
      intro hlen
      simp [hlen, hnodup] at hdup
    refine hnodup (List.nodup_iff_injective_get.2 fun i j _ => Fin.ext ?_)
    have hi := i.2
    have hj := j.2
    simp only [List.length_map] at hi hj
    omega

/-- The unchecked sum of the outputs of a sane transaction does not wrap. -/
theorem Sane.getOutputValue_eq {tx : Transaction} (h : tx.Sane) :
    tx.getOutputValue = tx.outputTotal := by
  have := Word.foldl_add_eq 64 TxOut.value tx.output 0
    (by
      have hle := h.outputTotal_le
      have hmax : MAX_MONEY < 2 ^ 64 := by decide
      simp only [outputTotal] at hle
      omega)
  simpa [getOutputValue, outputTotal] using this

end Transaction

namespace Block

/-- A block that passed `check_body`: a coinbase, then sane transactions that are not. -/
structure WellFormed (block : Block) : Prop where
  exists_coinbase : ∃ coinbase rest, block.txdata = coinbase :: rest
    ∧ coinbase.isCoinBase = true ∧ ∀ tx ∈ rest, tx.isCoinBase = false
  sane : ∀ tx ∈ block.txdata, tx.Sane
  strippedSize_le : block.strippedSize ≤ 1000000

theorem checkTransactions_eq_ok {env : Env} {txs : List Transaction} {index sigops total : Nat}
    (h : checkTransactions env txs index sigops = .ok total) :
    (∀ tx ∈ txs, tx.Sane) ∧ (0 < index → ∀ tx ∈ txs, tx.isCoinBase = false) := by
  induction txs generalizing index sigops with
  | nil => simp
  | cons tx txs ih =>
    unfold checkTransactions at h
    split at h
    · cases h
    rename_i hcoinbase
    split at h
    · cases h
    rename_i hsane
    obtain ⟨hsanes, hrest⟩ := ih h
    refine ⟨List.forall_mem_cons.2 ⟨Transaction.checkSanity_eq_ok hsane, hsanes⟩, fun hi => ?_⟩
    refine List.forall_mem_cons.2 ⟨?_, hrest (Nat.succ_pos _)⟩
    simpa [hi] using hcoinbase

theorem checkBody_eq_ok {env : Env} {block : Block} (h : block.checkBody env = .ok ()) :
    block.WellFormed := by
  simp only [checkBody, throw_bind, ite_throw_eq_ok, bind_eq_ok] at h
  obtain ⟨-, hlength, hcoinbase, total, htxs, -⟩ := h
  cases hdata : block.txdata with
  | nil => simp [hdata] at hcoinbase
  | cons coinbase rest =>
    rw [hdata] at htxs hcoinbase
    have htail : ∀ tx ∈ rest, tx.isCoinBase = false := by
      unfold checkTransactions at htxs
      split at htxs
      · cases htxs
      split at htxs
      · cases htxs
      · exact (checkTransactions_eq_ok htxs).2 (Nat.succ_pos _)
    refine ⟨⟨coinbase, rest, hdata, by simpa using hcoinbase, htail⟩,
      hdata ▸ (checkTransactions_eq_ok htxs).1, ?_⟩
    simp [WITNESS_SCALE_FACTOR, MAX_BLOCK_WEIGHT] at hlength
    omega

end Block

end BitcoinNode
