import BitcoinNode.Library.Framing

/-!
# Connections

The reader of `run_connection` in `net/connection.rs`, which decodes messages from a growing
buffer, and its writer. What `deserialize_partial` makes of the buffer is a parameter.
-/

namespace BitcoinNode

namespace RunConnection

/-- The kinds of `std::io::Error`. -/
inductive ErrorKind where
  | unexpectedEof
  | other (kind : Nat)
  deriving DecidableEq, Repr

/-- The `encode::Error` of the library, with its variants beside `Io`. -/
inductive EncodeError (Variant : Type) where
  | io (kind : ErrorKind)
  | other (error : Variant)
  deriving DecidableEq, Repr

structure RawNetworkMessage (NetworkMessage : Type) where
  magic : UInt32
  payload : NetworkMessage
  deriving DecidableEq, Repr

/-- What the reader returns: `Ok(())`, or the error of a `?` or of the decoder. -/
inductive Ending (Variant : Type) where
  | clean
  | decode (error : EncodeError Variant)
  | read (kind : ErrorKind)
  | closed
  deriving DecidableEq, Repr

variable {NetworkMessage Variant : Type}

def EncodeError.isUnexpectedEof : EncodeError Variant → Bool
  | .io kind => kind == .unexpectedEof
  | .other _ => false

/-- `deserialize_partial::<RawNetworkMessage>`: a message and the bytes it takes. -/
abbrev DeserializePartial (NetworkMessage Variant : Type) : Type :=
  List UInt8 → Except (EncodeError Variant) (RawNetworkMessage NetworkMessage × Nat)

/-- What a read behind the last bytes does: it returns no bytes, or fails. -/
def lastRead : Option ErrorKind → Ending Variant
  | none => .clean
  | some kind => .read kind

/-- The rounds of the reader's loop, `none` when they run out or `advance` panics. A read of no
bytes is the end of the stream. The receiving half may be dropped after some messages. -/
def readerLoop (deserializePartial : DeserializePartial NetworkMessage Variant)
    (receiving : List NetworkMessage → Bool) (fault : Option ErrorKind) :
    Nat → List (List UInt8) → List UInt8 → List NetworkMessage →
      Option (List NetworkMessage × Ending Variant)
  | 0, _, _, _ => none
  | fuel + 1, reads, buf, sent =>
    match deserializePartial buf with
    | .ok (message, nBytes) =>
      if buf.length < nBytes then none
      else if receiving sent then
        readerLoop deserializePartial receiving fault fuel reads (buf.drop nBytes)
          (sent ++ [message.payload])
      else some (sent, .closed)
    | .error error =>
      if error.isUnexpectedEof then
        match reads with
        | [] => some (sent, lastRead fault)
        | bytes :: reads =>
          if bytes.length = 0 then some (sent, .clean)
          else readerLoop deserializePartial receiving fault fuel reads (buf ++ bytes) sent
      else some (sent, .decode error)

/-- The bytes that the writer puts on the wire for the messages it receives. -/
def writer (consensusEncode : RawNetworkMessage NetworkMessage → List UInt8)
    (messages : List (RawNetworkMessage NetworkMessage)) : List UInt8 :=
  messages.flatMap consensusEncode

/-! ## Independence of the reads -/

/-- How the reader ends when it has seen the messages of a whole stream. -/
def outcome (receiving : List NetworkMessage → Bool) (fault : Option ErrorKind) :
    List NetworkMessage → List (RawNetworkMessage NetworkMessage) →
      Option (EncodeError Variant) → List NetworkMessage × Ending Variant
  | sent, [], some error => (sent, .decode error)
  | sent, [], none => (sent, lastRead fault)
  | sent, message :: messages, last =>
    if receiving sent then outcome receiving fault (sent ++ [message.payload]) messages last
    else (sent, .closed)

variable {deserializePartial : DeserializePartial NetworkMessage Variant}
  {receiving : List NetworkMessage → Bool} {fault : Option ErrorKind} {fuel : Nat}
  {reads : List (List UInt8)} {buf : List UInt8} {sent : List NetworkMessage}
  {messages : List (RawNetworkMessage NetworkMessage)} {last : Option (EncodeError Variant)}

/-- However the stream arrives, the reader delivers the messages of the whole stream. -/
theorem readerLoop_eq (law : Framing deserializePartial EncodeError.isUnexpectedEof)
    (hreads : ∀ bytes ∈ reads, bytes ≠ [])
    (h : Parses deserializePartial EncodeError.isUnexpectedEof (buf ++ reads.flatten) messages last)
    (hfuel : messages.length + reads.length < fuel) :
    readerLoop deserializePartial receiving fault fuel reads buf sent
      = some (outcome receiving fault sent messages last) := by
  induction fuel generalizing reads buf sent messages with
  | zero => omega
  | succ fuel ih =>
    unfold readerLoop
    cases hbuf : deserializePartial buf with
    | ok found =>
      obtain ⟨message, nBytes⟩ := found
      obtain ⟨messages, rfl, hrest⟩ := h.of_ok law hbuf
      have hle := law.length_le hbuf
      dsimp only
      rw [if_neg (by omega), outcome]
      split_ifs with hreceiving
      · exact ih hreads hrest (by rw [List.length_cons] at hfuel; omega)
      · rfl
    | error error =>
      dsimp only
      cases hstop : error.isUnexpectedEof with
      | false =>
        obtain ⟨rfl, rfl⟩ := h.of_error law hbuf hstop
        rfl
      | true =>
        rw [if_pos rfl]
        cases reads with
        | nil =>
          rw [List.flatten_nil, List.append_nil] at h
          obtain ⟨rfl, rfl⟩ := h.of_incomplete hbuf hstop
          rfl
        | cons bytes reads =>
          obtain ⟨hbytes, hreads⟩ := List.forall_mem_cons.1 hreads
          dsimp only
          rw [if_neg (by simpa using hbytes)]
          refine ih hreads ?_ (by rw [List.length_cons] at hfuel; omega)
          rwa [List.append_assoc, ← List.flatten_cons]

/-- The reader delivers the same payloads and ends in the same way, however the stream is cut
into reads. -/
theorem readerLoop_packets (law : Framing deserializePartial EncodeError.isUnexpectedEof)
    (receiving : List NetworkMessage → Bool) (fault : Option ErrorKind) (stream : List UInt8)
    (reads reads' : List (List UInt8)) (hstream : reads.flatten = stream)
    (hreads : ∀ bytes ∈ reads, bytes ≠ []) (hstream' : reads'.flatten = stream)
    (hreads' : ∀ bytes ∈ reads', bytes ≠ []) :
    ∃ result, ∀ fuel,
      (stream.length + reads.length < fuel →
        readerLoop deserializePartial receiving fault fuel reads [] [] = some result) ∧
      (stream.length + reads'.length < fuel →
        readerLoop deserializePartial receiving fault fuel reads' [] [] = some result) := by
  obtain ⟨messages, last, h⟩ := Parses.exists_of_framing law stream
  have hlen := h.length_le law
  refine ⟨outcome receiving fault [] messages last, fun fuel => ⟨fun hfuel => ?_, fun hfuel => ?_⟩⟩
  · exact readerLoop_eq law hreads (by rwa [List.nil_append, hstream]) (by omega)
  · exact readerLoop_eq law hreads' (by rwa [List.nil_append, hstream']) (by omega)

/-! ## Both ends of a connection -/

theorem outcome_none :
    outcome (fun _ => true) none sent messages (none : Option (EncodeError Variant))
      = (sent ++ messages.map RawNetworkMessage.payload, .clean) := by
  induction messages generalizing sent with
  | nil => rw [outcome, List.map_nil, List.append_nil, lastRead]
  | cons message messages ih =>
    rw [outcome, if_pos rfl, ih, List.append_assoc, List.singleton_append, List.map_cons]

/-- Of the messages that one end writes, the other end delivers the payloads of those that arrive
whole, in order and once each, wherever the connection breaks. -/
theorem reader_writer (law : Framing deserializePartial EncodeError.isUnexpectedEof)
    {consensusEncode : RawNetworkMessage NetworkMessage → List UInt8}
    (hencode : ∀ message, deserializePartial (consensusEncode message)
      = .ok (message, (consensusEncode message).length))
    (messages : List (RawNetworkMessage NetworkMessage)) {n : Nat}
    (hstream : reads.flatten = (writer consensusEncode messages).take n)
    (hreads : ∀ bytes ∈ reads, bytes ≠ []) :
    ∃ k, ((writer consensusEncode messages).length ≤ n → k = messages.length) ∧
      (writer consensusEncode (messages.take k)).length ≤ n ∧
      ∃ limit, ∀ fuel > limit,
        readerLoop deserializePartial (fun _ => true) none fuel reads [] []
          = some ((messages.take k).map RawNetworkMessage.payload, .clean) := by
  obtain ⟨k, hall, hlen, h⟩ := Parses.exists_take law hencode messages n
  refine ⟨k, hall, hlen, (messages.take k).length + reads.length, fun fuel hfuel => ?_⟩
  rw [readerLoop_eq law hreads (by rwa [List.nil_append, hstream]) hfuel, outcome_none,
    List.nil_append]

end RunConnection

namespace Small

/-- The message without payload that completes a handshake, as it stands on the wire. -/
def verackBytes : List UInt8 :=
  [0xf9, 0xbe, 0xb4, 0xd9, 0x76, 0x65, 0x72, 0x61, 0x63, 0x6b, 0, 0, 0, 0, 0, 0, 0, 0, 0, 0,
    0x5d, 0xf6, 0xe0, 0xe2]

/-- Knows this one message. -/
def deserializeVerack : RunConnection.DeserializePartial Unit Unit := fun bytes =>
  if verackBytes.isPrefixOf bytes then .ok (⟨0xd9b4bef9, ()⟩, verackBytes.length)
  else if bytes.isPrefixOf verackBytes then .error (.io .unexpectedEof)
  else .error (.other ())

theorem framing_verack :
    Framing deserializeVerack RunConnection.EncodeError.isUnexpectedEof where
  nil := ⟨.io .unexpectedEof, by decide, rfl⟩
  length_le := by
    intro bytes message n h
    unfold deserializeVerack at h
    split_ifs at h with hprefix
    cases h
    exact (List.isPrefixOf_iff_prefix.1 hprefix).length_le
  ok := by
    intro bytes message n h rest
    unfold deserializeVerack at h
    split_ifs at h with hprefix
    cases h
    rw [← List.prefix_iff_eq_take.1 (List.isPrefixOf_iff_prefix.1 hprefix)]
    exact if_pos (List.isPrefixOf_iff_prefix.2 (List.prefix_append _ _))
  error := by
    intro bytes e h hstop rest
    unfold deserializeVerack at h ⊢
    simp only [List.isPrefixOf_iff_prefix] at h ⊢
    split_ifs at h with hall hpart
    · cases h
      cases hstop
    · rw [if_neg, if_neg]
      · exact h
      · exact fun hpart' => hpart ((List.prefix_append _ _).trans hpart')
      · intro hall'
        rcases List.prefix_or_prefix_of_prefix hall' (List.prefix_append bytes rest) with hc | hc
        · exact hall hc
        · exact hpart hc

end Small

namespace RunConnection

theorem readerLoop_packets_verack :
    ∃ result, ∀ fuel,
      ((Small.verackBytes ++ Small.verackBytes.take 5).length + 2 < fuel →
        readerLoop Small.deserializeVerack (fun _ => true) none fuel
          [Small.verackBytes.take 10, Small.verackBytes.drop 10 ++ Small.verackBytes.take 5]
          [] [] = some result) ∧
      ((Small.verackBytes ++ Small.verackBytes.take 5).length + 1 < fuel →
        readerLoop Small.deserializeVerack (fun _ => true) none fuel
          [Small.verackBytes ++ Small.verackBytes.take 5] [] [] = some result) :=
  readerLoop_packets Small.framing_verack (fun _ => true) none
    (Small.verackBytes ++ Small.verackBytes.take 5)
    [Small.verackBytes.take 10, Small.verackBytes.drop 10 ++ Small.verackBytes.take 5]
    [Small.verackBytes ++ Small.verackBytes.take 5] (by decide) (by decide) (by decide) (by decide)

end RunConnection

end BitcoinNode
