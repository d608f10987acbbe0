import Mathlib.Logic.Relation
import Mathlib.Tactic

/-!
# Two parties and the channels between them

Each party reads what the other one has sent, in order, and sends more on its own account or in
answer to what it reads. A pair of invariants that rely on one another's messages carries over to
every run.
-/

namespace BitcoinNode

open Relation

universe u v w

/-- What a party does: it reads a message, or takes a step of its own. It keeps what it received
and what it sent. -/
structure Party (σ : Type u) (μ : Type w) where
  read : σ → μ → σ → Prop
  act : σ → σ → Prop
  received : σ → List μ
  sent : σ → List μ
  read_received {s t : σ} {m : μ} : read s m t → received t = received s ++ [m]
  read_sent {s t : σ} {m : μ} : read s m t → sent s <+: sent t
  act_received {s t : σ} : act s t → received t = received s
  act_sent {s t : σ} : act s t → sent s <+: sent t

/-- Two parties, and what is under way to each. -/
structure Channel (σ : Type u) (τ : Type v) (μ : Type w) where
  left : σ
  right : τ
  toLeft : List μ
  toRight : List μ

namespace Channel

variable {σ : Type u} {τ : Type v} {μ : Type w}

section Runs

variable (p : Party σ μ) (q : Party τ μ)

/-- What a party sends in a step is put behind what is under way. -/
inductive Step (x : Channel σ τ μ) : Channel σ τ μ → Prop where
  | readLeft {s : σ} {m : μ} {rest : List μ} : x.toLeft = m :: rest → p.read x.left m s →
      Step x { x with
        left := s
        toLeft := rest
        toRight := x.toRight ++ (p.sent s).drop (p.sent x.left).length }
  | readRight {t : τ} {m : μ} {rest : List μ} : x.toRight = m :: rest → q.read x.right m t →
      Step x { x with
        right := t
        toRight := rest
        toLeft := x.toLeft ++ (q.sent t).drop (q.sent x.right).length }
  | actLeft {s : σ} : p.act x.left s →
      Step x { x with
        left := s
        toRight := x.toRight ++ (p.sent s).drop (p.sent x.left).length }
  | actRight {t : τ} : q.act x.right t →
      Step x { x with
        right := t
        toLeft := x.toLeft ++ (q.sent t).drop (q.sent x.right).length }

/-- Nothing has been received, and all that has been sent is under way. -/
def start (s : σ) (t : τ) : Channel σ τ μ := ⟨s, t, q.sent t, p.sent s⟩

def Reachable (s : σ) (t : τ) : Channel σ τ μ → Prop := ReflTransGen (Step p q) (start p q s t)

/-- Nothing is lost, added or put out of order on the way. -/
structure Fifo (x : Channel σ τ μ) : Prop where
  left : p.received x.left ++ x.toLeft = q.sent x.right
  right : q.received x.right ++ x.toRight = p.sent x.left

end Runs

variable {p : Party σ μ} {q : Party τ μ} {x y : Channel σ τ μ} {s : σ} {t : τ}

theorem append_drop {sent more received channel : List μ} (h : received ++ channel = sent)
    (hinit : sent <+: more) : received ++ (channel ++ more.drop sent.length) = more := by
  obtain ⟨rest, rfl⟩ := hinit
  rw [List.drop_left, ← List.append_assoc, h]

theorem Fifo.step (h : Fifo p q x) (hstep : Step p q x y) : Fifo p q y := by
  cases hstep with
  | readLeft hchannel hread =>
    refine ⟨?_, append_drop h.right (p.read_sent hread)⟩
    rw [p.read_received hread, List.append_assoc, List.singleton_append, ← hchannel, h.left]
  | readRight hchannel hread =>
    refine ⟨append_drop h.left (q.read_sent hread), ?_⟩
    rw [q.read_received hread, List.append_assoc, List.singleton_append, ← hchannel, h.right]
  | actLeft hact =>
    refine ⟨?_, append_drop h.right (p.act_sent hact)⟩
    rw [p.act_received hact, h.left]
  | actRight hact =>
    refine ⟨append_drop h.left (q.act_sent hact), ?_⟩
    rw [q.act_received hact, h.right]

/-- What was sent at the start stays in front. -/
theorem Reachable.sent_left (h : Reachable p q s t x) : p.sent s <+: p.sent x.left := by
  induction h with
  | refl => exact List.prefix_rfl
  | tail _ hstep ih =>
    cases hstep with
    | readLeft _ hread => exact ih.trans (p.read_sent hread)
    | actLeft hact => exact ih.trans (p.act_sent hact)
    | readRight | actRight => exact ih

/-- The message that is read next. -/
theorem getElem?_of_prefix {received whole : List μ} {m : μ} (h : received ++ [m] <+: whole) :
    whole[received.length]? = some m := by
  obtain ⟨rest, rfl⟩ := h
  rw [List.append_assoc, List.getElem?_append_right le_rfl, Nat.sub_self]
  rfl

/-- A party keeps an invariant as long as what it reads is part of a script. -/
structure Keeps (p : Party σ μ) (inv : σ → Prop) (script : List μ → Prop) : Prop where
  read {s t : σ} {m : μ} {whole : List μ} : inv s → script whole →
    p.received s ++ [m] <+: whole → p.read s m t → inv t
  act {s t : σ} : inv s → p.act s t → inv t

/-- Two invariants, each of which makes its party follow the script that the other one relies on,
hold in every run. -/
theorem Reachable.invariant {inv : σ → Prop} {inv' : τ → Prop} {script script' : List μ → Prop}
    (hp : Keeps p inv script') (hq : Keeps q inv' script)
    (hsent : ∀ s, inv s → script (p.sent s)) (hsent' : ∀ t, inv' t → script' (q.sent t))
    (h : Reachable p q s t x) (hs : inv s) (ht : inv' t)
    (hreceived : p.received s = []) (hreceived' : q.received t = []) :
    Fifo p q x ∧ inv x.left ∧ inv' x.right := by
  induction h with
  | refl => exact ⟨⟨by simp [start, hreceived], by simp [start, hreceived']⟩, hs, ht⟩
  | @tail x y _ hstep ih =>
    obtain ⟨fifo, hleft, hright⟩ := ih
    refine ⟨fifo.step hstep, ?_⟩
    cases hstep with
    | @readLeft _ m rest hchannel hread =>
      refine ⟨hp.read hleft (hsent' _ hright) ⟨rest, ?_⟩ hread, hright⟩
      rw [List.append_assoc, List.singleton_append, ← hchannel, fifo.left]
    | @readRight _ m rest hchannel hread =>
      refine ⟨hleft, hq.read hright (hsent _ hleft) ⟨rest, ?_⟩ hread⟩
      rw [List.append_assoc, List.singleton_append, ← hchannel, fifo.right]
    | actLeft hact => exact ⟨hp.act hleft hact, hright⟩
    | actRight hact => exact ⟨hleft, hq.act hright hact⟩

/-- When nothing is under way each party has received all that the other one sent. -/
theorem Fifo.quiescent (h : Fifo p q x) (hleft : x.toLeft = []) (hright : x.toRight = []) :
    p.received x.left = q.sent x.right ∧ q.received x.right = p.sent x.left := by
  have hl := h.left
  have hr := h.right
  rw [hleft, List.append_nil] at hl
  rw [hright, List.append_nil] at hr
  exact ⟨hl, hr⟩

end Channel

end BitcoinNode
