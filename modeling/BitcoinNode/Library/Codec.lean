import BitcoinNode.Library.Result

/-!
# Codecs

Decoders that read values off the front of a string of bytes, and what it means that one reads a
value back, whatever comes behind. The rules follow the way decoders are put together.
-/

namespace BitcoinNode

variable {ε α β : Type}

/-- A decoder takes bytes off the front, or fails. -/
abbrev Decoder (ε α : Type) : Type := StateT (List UInt8) (Except ε) α

namespace Decoder

/-- The decoder reads exactly these bytes as the value, and leaves what comes behind. -/
def Reads (d : Decoder ε α) (bytes : List UInt8) (a : α) : Prop :=
  ∀ rest, d.run (bytes ++ rest) = .ok (a, rest)

variable {d : Decoder ε α} {bytes bytes' : List UInt8} {a : α} {b : β}

theorem Reads.pure (a : α) : Reads (Pure.pure a : Decoder ε α) [] a := fun _ => rfl

theorem Reads.bind {f : α → Decoder ε β} (h : d.Reads bytes a) (hf : (f a).Reads bytes' b) :
    (d >>= f).Reads (bytes ++ bytes') b := by
  intro rest
  rw [StateT.run_bind, List.append_assoc, h, bind_of_ok rfl]
  exact hf rest

/-- The last decoder only puts the value together. -/
theorem Reads.finish {f : α → β} (h : d.Reads bytes a) :
    (d >>= fun a => Pure.pure (f a)).Reads bytes (f a) := by
  have := h.bind (f := fun a => Pure.pure (f a)) (Reads.pure (f a))
  rwa [List.append_nil] at this

/-- What is read alone is read to the end. -/
theorem Reads.run_eq (h : d.Reads bytes a) : d.run bytes = .ok (a, []) := by
  have := h []
  rwa [List.append_nil] at this

/-- Reads a number of values and puts them behind others. -/
def many (d : Decoder ε α) : Nat → List α → Decoder ε (List α)
  | 0, items => Pure.pure items
  | n + 1, items => do
    let item ← d
    many d n (items ++ [item])

theorem Reads.many {encode : β → List UInt8} {decoded : β → α} {values : List β}
    (h : ∀ v ∈ values, d.Reads (encode v) (decoded v)) (items : List α) :
    (d.many values.length items).Reads (values.flatMap encode) (items ++ values.map decoded) := by
  induction values generalizing items with
  | nil =>
    rw [List.map_nil, List.append_nil]
    exact .pure items
  | cons v values ih =>
    obtain ⟨hv, hvalues⟩ := List.forall_mem_cons.1 h
    have hrest := ih hvalues (items ++ [decoded v])
    rw [List.append_assoc, List.singleton_append] at hrest
    exact hv.bind hrest

end Decoder

/-- An encoder with its decoder. -/
structure Codec (ε α : Type) where
  encode : α → List UInt8
  decode : Decoder ε α

/-- The values of a kind are read back. -/
def Codec.RoundTrips (codec : Codec ε α) (P : α → Prop) : Prop :=
  ∀ a, P a → codec.decode.Reads (codec.encode a) a

end BitcoinNode
