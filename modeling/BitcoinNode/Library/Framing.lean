import BitcoinNode.Library.Result

/-!
# Values in a stream of bytes

A decoder that reads one value off the front of what has arrived so far, or says that more is
needed. When its answers stand whatever comes behind, a stream is one sequence of values with
one end, however it arrives.
-/

namespace BitcoinNode

variable {α β ε : Type} {decode : List β → Except ε (α × Nat)} {incomplete : ε → Bool}
  {bytes rest : List β} {a : α} {as as' : List α} {n k : Nat} {e : ε} {last last' : Option ε}

/-- What the decoder says of a string stands for every extension, unless it asks for more. -/
structure Framing (decode : List β → Except ε (α × Nat)) (incomplete : ε → Bool) : Prop where
  nil : ∃ e, decode [] = .error e ∧ incomplete e = true
  length_le {bytes : List β} {a : α} {n : Nat} : decode bytes = .ok (a, n) → n ≤ bytes.length
  ok {bytes : List β} {a : α} {n : Nat} :
    decode bytes = .ok (a, n) → ∀ rest, decode (bytes.take n ++ rest) = .ok (a, n)
  error {bytes : List β} {e : ε} :
    decode bytes = .error e → incomplete e = false → ∀ rest, decode (bytes ++ rest) = .error e

namespace Framing

variable (law : Framing decode incomplete)

include law

theorem append (h : decode bytes = .ok (a, n)) (rest : List β) :
    decode (bytes ++ rest) = .ok (a, n) := by
  have hsplit := law.ok h (bytes.drop n ++ rest)
  rwa [← List.append_assoc, List.take_append_drop] at hsplit

theorem pos (h : decode bytes = .ok (a, n)) : 0 < n := by
  obtain ⟨e, he, -⟩ := law.nil
  by_contra hn
  obtain rfl : n = 0 := by omega
  have hnil := law.ok h []
  rw [List.take_zero, List.append_nil, he] at hnil
  cases hnil

/-- A proper prefix of a value asks for more. -/
theorem incomplete_take (h : decode bytes = .ok (a, n)) (hk : k < n) :
    ∃ e, decode (bytes.take k) = .error e ∧ incomplete e = true := by
  cases htake : decode (bytes.take k) with
  | ok found =>
    obtain ⟨b, m⟩ := found
    have hall := law.append htake (bytes.drop k)
    rw [List.take_append_drop, h] at hall
    have hle := (law.length_le htake).trans (List.length_take_le k bytes)
    obtain ⟨rfl, rfl⟩ := Prod.mk.inj (Except.ok.inj hall)
    omega
  | error e =>
    refine ⟨e, rfl, ?_⟩
    by_contra hstop
    have hall := law.error htake (by simpa using hstop) (bytes.drop k)
    rw [List.take_append_drop, h] at hall
    cases hall

end Framing

/-- The values of a whole stream, and the error behind them if it is not only cut short. -/
inductive Parses (decode : List β → Except ε (α × Nat)) (incomplete : ε → Bool) :
    List β → List α → Option ε → Prop where
  | value {bytes : List β} {a : α} {n : Nat} {as : List α} {last : Option ε} :
      decode bytes = .ok (a, n) → Parses decode incomplete (bytes.drop n) as last →
      Parses decode incomplete bytes (a :: as) last
  | cut {bytes : List β} {e : ε} :
      decode bytes = .error e → incomplete e = true → Parses decode incomplete bytes [] none
  | failed {bytes : List β} {e : ε} :
      decode bytes = .error e → incomplete e = false →
      Parses decode incomplete bytes [] (some e)

namespace Parses

theorem unique (h : Parses decode incomplete bytes as last)
    (h' : Parses decode incomplete bytes as' last') : as = as' ∧ last = last' := by
  induction h generalizing as' with
  | value => cases h' <;> grind
  | cut => cases h' <;> grind
  | failed => cases h' <;> grind

/-- A value found at the front of a part of the stream is the first one. -/
theorem of_ok (law : Framing decode incomplete)
    (h : Parses decode incomplete (bytes ++ rest) as last) (ha : decode bytes = .ok (a, n)) :
    ∃ as', as = a :: as' ∧ Parses decode incomplete (bytes.drop n ++ rest) as' last := by
  have hall := law.append ha rest
  rw [← List.drop_append_of_le_length (law.length_le ha)]
  cases h <;> grind

/-- So is an error found there. -/
theorem of_error (law : Framing decode incomplete)
    (h : Parses decode incomplete (bytes ++ rest) as last) (he : decode bytes = .error e)
    (hstop : incomplete e = false) : as = [] ∧ last = some e := by
  have hall := law.error he hstop rest
  cases h <;> grind

theorem of_incomplete (h : Parses decode incomplete bytes as last) (he : decode bytes = .error e)
    (hmore : incomplete e = true) : as = [] ∧ last = none := by
  cases h <;> grind

/-- Every stream is a sequence of values with an end. -/
theorem exists_of_framing (law : Framing decode incomplete) (bytes : List β) :
    ∃ as last, Parses decode incomplete bytes as last := by
  induction hlen : bytes.length using Nat.strong_induction_on generalizing bytes with
  | _ len ih =>
    cases h : decode bytes with
    | ok found =>
      obtain ⟨a, n⟩ := found
      have hpos := law.pos h
      have hle := law.length_le h
      obtain ⟨as, last, hrest⟩ := ih _ (by rw [List.length_drop]; omega) (bytes.drop n) rfl
      exact ⟨a :: as, last, .value h hrest⟩
    | error e =>
      cases hstop : incomplete e with
      | true => exact ⟨[], none, .cut h hstop⟩
      | false => exact ⟨[], some e, .failed h hstop⟩

/-- Every value takes a byte. -/
theorem length_le (law : Framing decode incomplete)
    (h : Parses decode incomplete bytes as last) : as.length ≤ bytes.length := by
  induction h with
  | value h _ ih =>
    have hpos := law.pos h
    have hle := law.length_le h
    rw [List.length_drop] at ih
    rw [List.length_cons]
    omega
  | cut => exact Nat.zero_le _
  | failed => exact Nat.zero_le _

/-- Values written one after another and cut off somewhere: those that are whole. -/
theorem exists_take (law : Framing decode incomplete) {encode : α → List β}
    (hencode : ∀ a, decode (encode a) = .ok (a, (encode a).length)) (as : List α) (n : Nat) :
    ∃ k, ((as.flatMap encode).length ≤ n → k = as.length) ∧
      ((as.take k).flatMap encode).length ≤ n ∧
      Parses decode incomplete ((as.flatMap encode).take n) (as.take k) none := by
  induction as generalizing n with
  | nil =>
    obtain ⟨e, he, hmore⟩ := law.nil
    exact ⟨0, fun _ => rfl, Nat.zero_le n, by simpa using .cut he hmore⟩
  | cons a as ih =>
    rw [List.flatMap_cons, List.length_append, List.take_append]
    by_cases hn : n < (encode a).length
    · obtain ⟨e, he, hmore⟩ := law.incomplete_take (hencode a) hn
      refine ⟨0, fun h => by omega, Nat.zero_le n, ?_⟩
      rw [Nat.sub_eq_zero_of_le hn.le, List.take_zero, List.append_nil]
      exact .cut he hmore
    · obtain ⟨k, hall, hlen, h⟩ := ih (n - (encode a).length)
      refine ⟨k + 1, fun hle => ?_, ?_, ?_⟩
      · rw [hall (by omega), List.length_cons]
      · rw [List.take_succ_cons, List.flatMap_cons, List.length_append]
        omega
      · rw [List.take_of_length_le (by omega), List.take_succ_cons]
        exact .value (law.append (hencode a) _) (by rwa [List.drop_left])

end Parses

end BitcoinNode
