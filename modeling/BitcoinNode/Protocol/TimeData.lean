import BitcoinNode.Library.Median
import Mathlib.Data.Finset.Insert

/-!
# Adjusted time

The clock offsets that peers report, as `protocol/timedata.rs` collects them. An address gives
one sample at most, and the offset follows the median of the samples, within 70 minutes.
-/

namespace BitcoinNode

/-- Signed 64-bit numbers in their order. -/
instance instLinearOrderInt64 : LinearOrder Int64 where
  le_refl := Int64.le_refl
  le_trans _ _ _ := Int64.le_trans
  le_antisymm _ _ := Int64.le_antisymm
  le_total := Int64.le_total
  lt_iff_le_not_ge a b := by grind [Int64.le_iff_toInt_le, Int64.lt_iff_toInt_lt]
  toDecidableLE := inferInstance
  toDecidableLT := inferInstance

/-- `i64::abs`, which overflows on the least number. -/
def checkedAbs (x : Int64) : Option Int64 := if x = Int64.minValue then none else some x.abs

structure TimeData (SocketAddr : Type) where
  offset : Int64
  samples : List Int64
  known : Finset SocketAddr

namespace TimeData

variable {SocketAddr : Type}

def default : TimeData SocketAddr where
  offset := 0
  samples := [0]
  known := ∅

def BITCOIN_TIMEDATA_MAX_SAMPLES : Nat := 200
def DEFAULT_MAX_TIME_ADJUSTMENT : Int64 := 70 * 60

def getTimeOffset (data : TimeData SocketAddr) : Int64 := data.offset

/-- The time shown by a clock, with the offset. Fails where the sum is negative. -/
def getAdjustedTime (data : TimeData SocketAddr) (now : UInt64) : Option UInt64 :=
  let adjusted := now.toInt64 + data.offset
  if 0 ≤ adjusted then some adjusted.toUInt64 else none

def input (data : TimeData SocketAddr) (sample : Int64) : TimeData SocketAddr :=
  { data with samples := (data.samples ++ [sample]).insertionSort (· ≤ ·) }

def median (data : TimeData SocketAddr) : Int64 :=
  let len := data.samples.length
  if len % 2 = 1 then data.samples.getD (len / 2) 0
  else (data.samples.getD (len / 2 - 1) 0 + data.samples.getD (len / 2) 0) / 2

variable [DecidableEq SocketAddr]

/-- Fails where the absolute value of the median overflows. -/
def addTimeData (data : TimeData SocketAddr) (addr : SocketAddr) (offset : Int64) :
    Option (TimeData SocketAddr) :=
  if data.samples.length = BITCOIN_TIMEDATA_MAX_SAMPLES then some data
  else if addr ∈ data.known then some data
  else
    let data := { data with known := insert addr data.known }.input offset
    if data.samples.length ≥ 5 ∧ data.samples.length % 2 = 1 then do
      let median := data.median
      if (← checkedAbs median) ≤ DEFAULT_MAX_TIME_ADJUSTMENT then
        some { data with offset := median }
      else
        some { data with offset := 0 }
    else
      some data

/-- A sequence of calls of `add_time_data`. -/
def addAll (data : TimeData SocketAddr) (calls : List (SocketAddr × Int64)) :
    Option (TimeData SocketAddr) :=
  calls.foldlM (fun data call => data.addTimeData call.1 call.2) data

/-- The calls that add a sample. -/
def accepted (data : TimeData SocketAddr) :
    List (SocketAddr × Int64) → List (SocketAddr × Int64)
  | [] => []
  | (addr, offset) :: calls =>
    match data.addTimeData addr offset with
    | none => []
    | some data' =>
      if data.samples.length < data'.samples.length then
        (addr, offset) :: data'.accepted calls
      else
        data'.accepted calls

variable {data data' : TimeData SocketAddr} {addr : SocketAddr} {offset sample : Int64}
  {calls taken : List (SocketAddr × Int64)}

omit [DecidableEq SocketAddr]

/-! ## One call -/

theorem toInt_abs {x : Int64} (hx : Int64.minValue < x) : x.abs.toInt = |x.toInt| := by
  have hne : x.toBitVec ≠ BitVec.intMin 64 := by
    intro h
    rw [← Int64.toBitVec_minValue, Int64.toBitVec_inj] at h
    exact hx.ne' h
  rw [Int.abs_eq_natAbs]
  exact BitVec.toInt_abs_eq_natAbs_of_ne_intMin hne

theorem checkedAbs_eq {x : Int64} (hx : Int64.minValue < x) : checkedAbs x = some x.abs :=
  if_neg hx.ne'

theorem input_perm : (data.input sample).samples.Perm (data.samples ++ [sample]) :=
  List.perm_insertionSort _ _

theorem input_sorted : (data.input sample).samples.Pairwise (· ≤ ·) :=
  List.pairwise_insertionSort _ _

/-- With an odd number of sorted samples, the middle one. -/
theorem isMedian_median (hs : data.samples.Pairwise (· ≤ ·)) (hodd : data.samples.length % 2 = 1) :
    Median.IsMedian data.samples data.median := by
  have hlt : data.samples.length / 2 < data.samples.length := by omega
  have hget : data.median = data.samples[data.samples.length / 2] := by
    simp only [median, if_pos hodd, List.getD, List.getElem?_eq_getElem hlt, Option.getD_some]
  rw [hget]
  exact Median.isMedian_getElem hs hlt hodd

/-- The offset that follows from a median. -/
def adjustment (median : Int64) : Int64 :=
  if |median.toInt| ≤ 70 * 60 then median else 0

theorem abs_adjustment_le (median : Int64) : |(adjustment median).toInt| ≤ 70 * 60 := by
  unfold adjustment
  split_ifs with h
  · exact h
  · decide

/-! ## Sequences of calls -/

/-- The samples and the addresses after some calls were accepted. -/
structure Sampled (data : TimeData SocketAddr) (taken : List (SocketAddr × Int64)) : Prop where
  sorted : data.samples.Pairwise (· ≤ ·)
  length_le : data.samples.length ≤ BITCOIN_TIMEDATA_MAX_SAMPLES
  perm : data.samples.Perm (0 :: taken.map Prod.snd)
  known {addr : SocketAddr} : addr ∈ data.known ↔ addr ∈ taken.map Prod.fst
  nodup : (taken.map Prod.fst).Nodup
  above : ∀ call ∈ taken, Int64.minValue < call.2

/-- The offset follows the median whenever the number of accepted calls is even. -/
structure Collected (data : TimeData SocketAddr) (taken : List (SocketAddr × Int64)) : Prop
    extends data.Sampled taken where
  abs_le : |data.offset.toInt| ≤ 70 * 60
  median : taken.length % 2 = 0 → 4 ≤ taken.length →
    ∃ m, Median.IsMedian (0 :: taken.map Prod.snd) m ∧ data.offset = adjustment m

theorem Collected.default : (default : TimeData SocketAddr).Collected [] where
  sorted := List.pairwise_singleton _ _
  length_le := by simp [TimeData.default, BITCOIN_TIMEDATA_MAX_SAMPLES]
  perm := .refl _
  known := by simp [TimeData.default]
  nodup := List.nodup_nil
  above := nofun
  abs_le := by simp [TimeData.default]
  median _ h := by simp at h

namespace Sampled

theorem withOffset (h : data.Sampled taken) : { data with offset }.Sampled taken :=
  ⟨h.sorted, h.length_le, h.perm, h.known, h.nodup, h.above⟩

theorem length_samples (h : data.Sampled taken) : data.samples.length = taken.length + 1 := by
  simpa using h.perm.length_eq

theorem minValue_lt (h : data.Sampled taken) {x : Int64} (hx : x ∈ data.samples) :
    Int64.minValue < x := by
  rcases List.mem_cons.1 (h.perm.mem_iff.1 hx) with rfl | hx
  · decide
  · obtain ⟨call, hcall, rfl⟩ := List.mem_map.1 hx
    exact h.above call hcall

theorem isMedian (h : data.Sampled taken) (heven : taken.length % 2 = 0) :
    Median.IsMedian data.samples data.median :=
  isMedian_median h.sorted (by rw [h.length_samples]; omega)

theorem input [DecidableEq SocketAddr] (h : data.Sampled taken) (hoffset : Int64.minValue < offset)
    (hroom : data.samples.length ≠ BITCOIN_TIMEDATA_MAX_SAMPLES) (haddr : addr ∉ data.known) :
    ({ data with known := insert addr data.known }.input offset).Sampled
      (taken ++ [(addr, offset)]) where
  sorted := input_sorted
  length_le := by
    rw [input_perm.length_eq, List.length_append, List.length_singleton]
    have hle := h.length_le
    dsimp only
    omega
  perm := by
    rw [List.map_append, ← List.cons_append]
    exact input_perm.trans (h.perm.append_right _)
  known := by
    intro other
    simp [TimeData.input, h.known, or_comm]
  nodup := by
    rw [h.known] at haddr
    rw [List.map_append, List.nodup_append]
    grind [h.nodup]
  above := by
    intro call hcall
    rcases List.mem_append.1 hcall with hcall | hcall
    · exact h.above call hcall
    · rw [List.mem_singleton.1 hcall]
      exact hoffset

end Sampled

/-- The check behind a new sample. -/
theorem adjust_eq (h : Int64.minValue < sample) :
    (do if (← checkedAbs sample) ≤ DEFAULT_MAX_TIME_ADJUSTMENT then
          some { data with offset := sample }
        else some { data with offset := 0 }) = some { data with offset := adjustment sample } := by
  rw [checkedAbs_eq h, adjustment, ← toInt_abs h]
  have hmax : sample.abs ≤ DEFAULT_MAX_TIME_ADJUSTMENT ↔ sample.abs.toInt ≤ 70 * 60 :=
    Int64.le_iff_toInt_le
  simp only [Option.bind_eq_bind, Option.bind_some, hmax]
  split_ifs <;> rfl

/-- The offset after an even number of samples depends on the samples only. -/
theorem Collected.offset_eq (h : data.Collected taken) {taken' : List (SocketAddr × Int64)}
    (h' : data'.Collected taken') (hperm : taken'.Perm taken) (heven : taken.length % 2 = 0)
    (hfour : 4 ≤ taken.length) : data'.offset = data.offset := by
  obtain ⟨m, hm, hoffset⟩ := h.median heven hfour
  obtain ⟨m', hm', hoffset'⟩ := h'.median (hperm.length_eq ▸ heven) (hperm.length_eq ▸ hfour)
  have hodd : (0 :: taken.map Prod.snd).length % 2 = 1 := by
    rw [List.length_cons, List.length_map]
    omega
  have hsame := (hm'.perm ((hperm.map Prod.snd).cons 0)).unique hm hodd
  rw [hoffset, hoffset', hsame]

/-- The adjusted time is there, and within 70 minutes of the clock. -/
theorem getAdjustedTime_near (h : data.Collected taken) {now : UInt64}
    (hlow : 70 * 60 ≤ now.toNat) (hhigh : now.toNat < 2 ^ 63 - 70 * 60) :
    ∃ time, data.getAdjustedTime now = some time ∧
      |(time.toNat : Int) - now.toNat| ≤ 70 * 60 := by
  obtain ⟨hneg, hpos⟩ := abs_le.1 h.abs_le
  have hnow : now.toInt64.toInt = now.toNat :=
    BitVec.toInt_eq_toNat_of_lt (x := now.toBitVec) (by rw [UInt64.toNat_toBitVec]; omega)
  have hsum : (now.toInt64 + data.offset).toInt = now.toNat + data.offset.toInt := by
    rw [Int64.toInt_add, hnow]
    exact Int.bmod_eq_of_le (by omega) (by omega)
  have hle : (0 : Int64) ≤ now.toInt64 + data.offset := by
    rw [Int64.le_iff_toInt_le, hsum, Int64.toInt_zero]
    omega
  refine ⟨_, if_pos hle, ?_⟩
  have htime : ((now.toInt64 + data.offset).toUInt64.toNat : Int)
      = now.toNat + data.offset.toInt := by
    rw [Int64.toNat_toUInt64_of_le hle, ← Int64.toNat_toInt, hsum]
    omega
  rw [htime, add_sub_cancel_left]
  exact h.abs_le

variable [DecidableEq SocketAddr]

theorem addTimeData_of_known (h : addr ∈ data.known) :
    data.addTimeData addr offset = some data := by
  unfold addTimeData
  split_ifs <;> rfl

theorem addTimeData_of_full (h : data.samples.length = BITCOIN_TIMEDATA_MAX_SAMPLES) :
    data.addTimeData addr offset = some data := if_pos h

theorem Collected.add (h : data.Collected taken) (hoffset : Int64.minValue < offset)
    (hroom : data.samples.length ≠ BITCOIN_TIMEDATA_MAX_SAMPLES) (haddr : addr ∉ data.known) :
    ∃ data', data.addTimeData addr offset = some data' ∧
      data.samples.length < data'.samples.length ∧ data'.Collected (taken ++ [(addr, offset)]) := by
  have hnext := h.input hoffset hroom haddr
  have hlen := hnext.length_samples
  have hgrown : data.samples.length < taken.length + 1 + 1 := by
    rw [h.length_samples]
    omega
  rw [List.length_append, List.length_singleton] at hlen
  rw [addTimeData, if_neg hroom, if_neg haddr]
  dsimp only
  split_ifs with hodd
  · have heven : (taken ++ [(addr, offset)]).length % 2 = 0 := by
      rw [List.length_append, List.length_singleton]
      omega
    have hmedian := hnext.isMedian heven
    rw [adjust_eq (hnext.minValue_lt hmedian.mem)]
    refine ⟨_, rfl, hlen ▸ hgrown, hnext.withOffset, abs_adjustment_le _, fun _ _ => ?_⟩
    exact ⟨_, hmedian.perm hnext.perm, rfl⟩
  · refine ⟨_, rfl, hlen ▸ hgrown, hnext, h.abs_le, fun heven hfour => ?_⟩
    rw [List.length_append, List.length_singleton] at heven hfour
    exact absurd (by omega) hodd

/-- Every call is ignored or adds its sample. -/
theorem Collected.call (h : data.Collected taken) (addr : SocketAddr)
    (hoffset : Int64.minValue < offset) :
    data.addTimeData addr offset = some data ∨
      ∃ data', data.addTimeData addr offset = some data' ∧
        data.samples.length < data'.samples.length ∧
        data'.Collected (taken ++ [(addr, offset)]) := by
  by_cases hfull : data.samples.length = BITCOIN_TIMEDATA_MAX_SAMPLES
  · exact .inl (addTimeData_of_full hfull)
  · by_cases haddr : addr ∈ data.known
    · exact .inl (addTimeData_of_known haddr)
    · exact .inr (h.add hoffset hfull haddr)

theorem Collected.addAll (h : data.Collected taken)
    (hcalls : ∀ call ∈ calls, Int64.minValue < call.2) :
    ∃ data', data.addAll calls = some data' ∧
      data'.Collected (taken ++ data.accepted calls) := by
  induction calls generalizing data taken with
  | nil => exact ⟨data, rfl, by rwa [accepted, List.append_nil]⟩
  | cons call calls ih =>
    obtain ⟨hcall, hcalls⟩ := List.forall_mem_cons.1 hcalls
    rw [TimeData.addAll, List.foldlM_cons]
    rcases h.call call.1 hcall with hadd | ⟨data', hadd, hgrown, h'⟩
    · obtain ⟨data₂, hrun, h₂⟩ := ih h hcalls
      refine ⟨data₂, by rw [hadd]; exact hrun, ?_⟩
      simpa only [accepted, hadd, lt_irrefl, if_false] using h₂
    · obtain ⟨data₂, hrun, h₂⟩ := ih h' hcalls
      refine ⟨data₂, by rw [hadd]; exact hrun, ?_⟩
      simpa only [accepted, hadd, hgrown, if_true, List.append_assoc, List.singleton_append]
        using h₂

/-- Samples of new addresses are accepted while there is room. -/
theorem Collected.accepted_eq (h : data.Collected taken)
    (hcalls : ∀ call ∈ calls, Int64.minValue < call.2)
    (hnodup : ((taken ++ calls).map Prod.fst).Nodup)
    (hroom : (taken ++ calls).length < BITCOIN_TIMEDATA_MAX_SAMPLES) :
    data.accepted calls = calls := by
  induction calls generalizing data taken with
  | nil => rfl
  | cons call calls ih =>
    obtain ⟨hcall, hcalls⟩ := List.forall_mem_cons.1 hcalls
    rw [List.append_cons] at hnodup hroom
    have hfree : data.samples.length ≠ BITCOIN_TIMEDATA_MAX_SAMPLES := by
      have hlen := h.length_samples
      simp only [List.length_append, List.length_singleton] at hroom
      omega
    have haddr : call.1 ∉ data.known := by
      rw [h.known]
      intro hmem
      simp only [List.map_append, List.map_cons, List.map_nil] at hnodup
      exact (List.nodup_append.1 (List.nodup_append.1 hnodup).1).2.2 _ hmem _
        (List.mem_singleton_self _) rfl
    obtain ⟨data', hadd, hgrown, h'⟩ := h.add hcall hfree haddr
    simp only [accepted, hadd, hgrown, if_true]
    rw [ih h' hcalls hnodup hroom]

end TimeData

end BitcoinNode
