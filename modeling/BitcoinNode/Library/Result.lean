import Mathlib.Tactic

/-!
# Inverting computations that may fail

When a composed computation in `Except` returns a value, so did each of its parts.
-/

namespace BitcoinNode

variable {ε α β : Type} {x : Except ε α} {f : α → Except ε β}

theorem bind_eq_ok {b : β} : (x >>= f) = .ok b ↔ ∃ a, x = .ok a ∧ f a = .ok b := by
  cases x <;> simp [bind, Except.bind]

theorem bind_eq_error {e : ε} :
    (x >>= f) = .error e ↔ x = .error e ∨ ∃ a, x = .ok a ∧ f a = .error e := by
  cases x <;> simp [bind, Except.bind]

theorem bind_of_ok {a : α} (h : x = .ok a) : (x >>= f) = f a := by
  rw [h]
  rfl

@[simp] theorem pure_eq_ok {a b : α} : (pure a : Except ε α) = .ok b ↔ a = b := by
  simp [pure, Except.pure]

@[simp] theorem pure_ne_error {a : α} {e : ε} : (pure a : Except ε α) ≠ .error e := by
  simp [pure, Except.pure]

@[simp] theorem throw_ne_ok {e : ε} {a : α} : (throw e : Except ε α) ≠ .ok a := by
  simp [throw, throwThe, MonadExceptOf.throw]

@[simp] theorem throw_eq_error {e e' : ε} : (throw e : Except ε α) = .error e' ↔ e = e' := by
  simp [throw, throwThe, MonadExceptOf.throw]

@[simp] theorem map_throw {e : ε} {f : α → β} : f <$> (throw e : Except ε α) = throw e := rfl

@[simp] theorem throw_bind {e : ε} : ((throw e : Except ε α) >>= f) = throw e := rfl

/-- A computation behind a check returned, so the check passed. -/
theorem ite_throw_eq_ok {c : Prop} [Decidable c] {e : ε} {a : α} :
    (if c then throw e else x) = .ok a ↔ ¬ c ∧ x = .ok a := by
  split_ifs with h <;> simp [h]

/-- A continuation that always returns, with a first component that is known, only chooses the
second one. -/
theorem exists_bind_eq {γ δ : Type} {f : α → Except ε (γ × δ)} {g : α → γ}
    (h : ∀ a, ∃ d, f a = .ok (g a, d)) (x : Except ε α) :
    ∃ choice : α → δ, (x >>= f) = x >>= fun a => .ok (g a, choice a) := by
  choose choice hchoice using h
  exact ⟨choice, congrArg (x >>= ·) (funext hchoice)⟩

theorem exists_mapM_eq_ok {xs : List α} (h : ∀ x ∈ xs, ∃ y, f x = .ok y) :
    ∃ ys, xs.mapM f = .ok ys := by
  induction xs with
  | nil => exact ⟨[], rfl⟩
  | cons x xs ih =>
    obtain ⟨⟨y, hy⟩, hxs⟩ := List.forall_mem_cons.1 h
    obtain ⟨ys, hys⟩ := ih hxs
    exact ⟨y :: ys, by rw [List.mapM_cons, hy, bind_of_ok rfl, hys, bind_of_ok rfl]; rfl⟩

theorem mapM_map_eq_ok {γ : Type} {key : γ → α} {out : γ → β} {xs : List γ}
    (h : ∀ x ∈ xs, f (key x) = .ok (out x)) : (xs.map key).mapM f = .ok (xs.map out) := by
  induction xs with
  | nil => rfl
  | cons x xs ih =>
    obtain ⟨hx, hxs⟩ := List.forall_mem_cons.1 h
    rw [List.map_cons, List.mapM_cons, hx, bind_of_ok rfl, ih hxs]
    rfl

theorem exists_of_mapM {xs : List α} {ys : List β} (h : xs.mapM f = .ok ys) {x : α}
    (hx : x ∈ xs) : ∃ y, f x = .ok y := by
  induction xs generalizing ys with
  | nil => simp at hx
  | cons x' xs ih =>
    simp only [List.mapM_cons, bind_eq_ok, pure_eq_ok] at h
    grind

/-! ## Which errors occur -/

/-- Every error of the computation has the property. -/
def Throws (x : Except ε α) (P : ε → Prop) : Prop := ∀ e, x = .error e → P e

variable {P : ε → Prop}

@[simp] theorem throws_ok {a : α} : Throws (.ok a : Except ε α) P := nofun

@[simp] theorem throws_pure {a : α} : Throws (pure a : Except ε α) P := nofun

@[simp] theorem throws_error {e : ε} : Throws (.error e : Except ε α) P ↔ P e := by
  simp [Throws]

@[simp] theorem throws_throw {e : ε} : Throws (throw e : Except ε α) P ↔ P e := throws_error

theorem throws_of_exists (h : ∃ a, x = .ok a) : Throws x P := by
  obtain ⟨a, rfl⟩ := h
  exact throws_ok

theorem Throws.mono {Q : ε → Prop} (h : Throws x P) (hPQ : ∀ e, P e → Q e) : Throws x Q :=
  fun e he => hPQ e (h e he)

theorem Throws.bind (hx : Throws x P) (hf : ∀ a, x = .ok a → Throws (f a) P) :
    Throws (x >>= f) P := by
  intro e he
  rcases bind_eq_error.1 he with he | ⟨a, ha, he⟩
  · exact hx e he
  · exact hf a ha e he

/-- A check in front of a computation throws an error of its own. -/
theorem Throws.check {c : Prop} [Decidable c] {e : ε} (he : P e) (hx : Throws x P) :
    Throws (if c then throw e else x) P := by
  split_ifs
  · exact throws_throw.2 he
  · exact hx

theorem Throws.mapM {xs : List α} (hf : ∀ x ∈ xs, Throws (f x) P) : Throws (xs.mapM f) P := by
  induction xs with
  | nil => simp
  | cons x xs ih =>
    obtain ⟨hx, hxs⟩ := List.forall_mem_cons.1 hf
    rw [List.mapM_cons]
    exact hx.bind fun _ _ => (ih hxs).bind fun _ _ => throws_pure

theorem Throws.forIn {σ : Type} {xs : List α} {s : σ} {f : α → σ → Except ε (ForInStep σ)}
    (hf : ∀ x ∈ xs, ∀ s, Throws (f x s) P) : Throws (forIn xs s f) P := by
  induction xs generalizing s with
  | nil => simp
  | cons x xs ih =>
    obtain ⟨hx, hxs⟩ := List.forall_mem_cons.1 hf
    rw [List.forIn_cons]
    refine (hx s).bind fun step _ => ?_
    cases step with
    | done s => exact throws_pure
    | yield s => exact ih hxs

/-- What a traversal that succeeds collects. -/
theorem mem_mapM_eq_ok {xs : List α} {ys : List β} (h : xs.mapM f = .ok ys) {y : β} :
    y ∈ ys ↔ ∃ x ∈ xs, f x = .ok y := by
  induction xs generalizing ys with
  | nil => simp_all
  | cons x xs ih =>
    simp only [List.mapM_cons, bind_eq_ok, pure_eq_ok] at h
    obtain ⟨y', hy', ys', hys', rfl⟩ := h
    simp [ih hys', hy', eq_comm]

end BitcoinNode
