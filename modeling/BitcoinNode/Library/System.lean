import Mathlib.Logic.Relation

/-!
# Runs of a system that takes steps

Reachable states of a step relation, and the rules that carry a property from one step to
a whole run: an invariant, an invariant that may use another one, and the refinement of a
coarse step by a sequence of fine ones.
-/

namespace BitcoinNode

open Relation

variable {σ : Type*}

/-- What every fine step keeps, every sequence of fine steps keeps. -/
theorem ReflTransGen.invariant {step : σ → σ → Prop} {P : σ → Prop}
    (hstep : ∀ s t, step s t → P s → P t) {s t : σ} (h : ReflTransGen step s t) (hs : P s) :
    P t := by
  induction h with
  | refl => exact hs
  | tail _ hst ih => exact hstep _ _ hst ih

/-- A fine step may use what is already known to hold before it. -/
theorem ReflTransGen.invariant_with {step : σ → σ → Prop} {P Q : σ → Prop}
    (hQ : ∀ s t, step s t → Q s → Q t) (hstep : ∀ s t, step s t → Q s → P s → P t) {s t : σ}
    (h : ReflTransGen step s t) (hq : Q s) (hs : P s) : P t := by
  have := ReflTransGen.invariant (P := fun s => Q s ∧ P s)
    (fun s t hst h => ⟨hQ s t hst h.1, hstep s t hst h.1 h.2⟩) h ⟨hq, hs⟩
  exact this.2

/-! ## Runs with labels -/

variable {α : Type*} {step : σ → α → σ → Prop}

/-- The steps of a run, each with its label and the state it leads to. -/
inductive Trace (step : σ → α → σ → Prop) : σ → List (α × σ) → Prop where
  | nil {s : σ} : Trace step s []
  | cons {s t : σ} {a : α} {rest : List (α × σ)} :
      step s a t → Trace step t rest → Trace step s ((a, t) :: rest)

/-- Every step of a run meets a condition on its label and the state before it. -/
def Meets (C : σ → α → Prop) : σ → List (α × σ) → Prop
  | _, [] => True
  | s, (a, t) :: rest => C s a ∧ Meets C t rest

/-- When steps from good states are good and lead to good states exactly if they meet a
condition, a run stays good exactly if all of its steps meet it. -/
theorem Trace.forall_and_iff {P I : σ → Prop} {Q : α → Prop} {C : σ → α → Prop}
    (hI : ∀ s a t, step s a t → I s → P s → P t → C s a → I t)
    (hP : ∀ s a t, step s a t → I s → P s → (P t ∧ Q a ↔ C s a)) {s : σ} {trace : List (α × σ)}
    (h : Trace step s trace) (hs : I s) (hgood : P s) :
    (∀ e ∈ trace, P e.2 ∧ Q e.1) ↔ Meets C s trace := by
  induction h with
  | nil => simp [Meets]
  | @cons s t a rest hstep _ ih =>
    rw [List.forall_mem_cons, Meets, hP _ _ _ hstep hs hgood]
    refine and_congr_right fun hmeets => ?_
    have hgood' := ((hP _ _ _ hstep hs hgood).2 hmeets).1
    exact ih (hI _ _ _ hstep hs hgood hgood' hmeets) hgood'

/-- The same for the states alone. -/
theorem Trace.forall_iff {P I : σ → Prop} {C : σ → α → Prop}
    (hI : ∀ s a t, step s a t → I s → P s → P t → I t)
    (hP : ∀ s a t, step s a t → I s → P s → (P t ↔ C s a)) {s : σ} {trace : List (α × σ)}
    (h : Trace step s trace) (hs : I s) (hgood : P s) :
    (∀ e ∈ trace, P e.2) ↔ Meets C s trace := by
  have hboth := h.forall_and_iff (P := P) (I := I) (Q := fun _ => True) (C := C)
    (fun s a t hstep hs hgood hgood' _ => hI s a t hstep hs hgood hgood')
    (fun s a t hstep hs hgood => (and_iff_left trivial).trans (hP s a t hstep hs hgood)) hs hgood
  rw [← hboth]
  exact forall₂_congr fun _ _ => (and_iff_left trivial).symm

end BitcoinNode
