import Mathlib.Data.Finset.Sort
import BitcoinNode.Library.Bytes

/-!
# The order of keys

Byte strings in the order of their first difference, a shorter one before its extensions. The
keys between a string and any extension of it extend it themselves. A scan of sorted keys that
stops behind an upper bound sees every key up to the bound.
-/

namespace BitcoinNode.Bytes

/-- The first string is not behind the second one. -/
def lexLe : List UInt8 → List UInt8 → Bool
  | [], _ => true
  | _ :: _, [] => false
  | a :: as, b :: bs => if a < b then true else if b < a then false else lexLe as bs

variable {as bs cs p k s : List UInt8}

theorem lexLe_cons {a b : UInt8} :
    lexLe (a :: as) (b :: bs) = true ↔ a < b ∨ a = b ∧ lexLe as bs = true := by
  rw [lexLe]
  split_ifs with h₁ h₂
  · simp [h₁]
  · have hne : a ≠ b := by
      rintro rfl
      exact h₁ h₂
    simp [h₁, hne]
  · have heq : a = b := UInt8.le_antisymm (UInt8.not_lt.1 h₂) (UInt8.not_lt.1 h₁)
    simp [heq]

@[simp] theorem lexLe_refl (as : List UInt8) : lexLe as as = true := by
  induction as with
  | nil => rfl
  | cons a as ih => exact lexLe_cons.2 (.inr ⟨rfl, ih⟩)

theorem lexLe_trans (h : lexLe as bs = true) (h' : lexLe bs cs = true) : lexLe as cs = true := by
  induction as generalizing bs cs with
  | nil => rfl
  | cons a as ih =>
    cases bs with
    | nil => cases h
    | cons b bs =>
      cases cs with
      | nil => cases h'
      | cons c cs =>
        rcases lexLe_cons.1 h with hlt | ⟨rfl, ht⟩
        · rcases lexLe_cons.1 h' with hlt' | ⟨rfl, -⟩
          · exact lexLe_cons.2 (.inl (UInt8.lt_trans hlt hlt'))
          · exact lexLe_cons.2 (.inl hlt)
        · rcases lexLe_cons.1 h' with hlt' | ⟨rfl, ht'⟩
          · exact lexLe_cons.2 (.inl hlt')
          · exact lexLe_cons.2 (.inr ⟨rfl, ih ht ht'⟩)

theorem lexLe_antisymm (h : lexLe as bs = true) (h' : lexLe bs as = true) : as = bs := by
  induction as generalizing bs with
  | nil =>
    cases bs with
    | nil => rfl
    | cons => cases h'
  | cons a as ih =>
    cases bs with
    | nil => cases h
    | cons b bs =>
      rcases lexLe_cons.1 h with hlt | ⟨rfl, ht⟩
      · rcases lexLe_cons.1 h' with hlt' | ⟨rfl, -⟩
        · exact absurd (UInt8.lt_trans hlt hlt') (UInt8.lt_irrefl _)
        · exact absurd hlt (UInt8.lt_irrefl _)
      · rcases lexLe_cons.1 h' with hlt' | ⟨-, ht'⟩
        · exact absurd hlt' (UInt8.lt_irrefl _)
        · rw [ih ht ht']

theorem lexLe_total (as bs : List UInt8) : lexLe as bs = true ∨ lexLe bs as = true := by
  induction as generalizing bs with
  | nil => exact .inl rfl
  | cons a as ih =>
    cases bs with
    | nil => exact .inr rfl
    | cons b bs =>
      rw [lexLe_cons, lexLe_cons]
      rcases UInt8.lt_or_le a b with hlt | hle
      · exact .inl (.inl hlt)
      · rcases UInt8.lt_or_eq_of_le hle with hlt | rfl
        · exact .inr (.inl hlt)
        · exact (ih bs).imp (fun h => .inr ⟨rfl, h⟩) fun h => .inr ⟨rfl, h⟩

instance : IsTrans (List UInt8) fun as bs => lexLe as bs = true := ⟨fun _ _ _ => lexLe_trans⟩
instance : Std.Antisymm fun as bs : List UInt8 => lexLe as bs = true :=
  ⟨fun _ _ => lexLe_antisymm⟩
instance : Std.Total fun as bs : List UInt8 => lexLe as bs = true := ⟨lexLe_total⟩

theorem lexLe_append_left : lexLe (p ++ as) (p ++ bs) = lexLe as bs := by
  induction p with
  | nil => rfl
  | cons a p ih =>
    rw [List.cons_append, List.cons_append, lexLe, if_neg (UInt8.lt_irrefl a),
      if_neg (UInt8.lt_irrefl a), ih]

/-- A string that lies between another one and an extension of it extends it. -/
theorem prefix_of_lexLe (h : lexLe p k = true) (h' : lexLe k (p ++ s) = true) : p <+: k := by
  induction p generalizing k with
  | nil => exact List.nil_prefix
  | cons a p ih =>
    cases k with
    | nil => cases h
    | cons b k =>
      rw [List.cons_append] at h'
      rcases lexLe_cons.1 h with hlt | ⟨rfl, ht⟩
      · rcases lexLe_cons.1 h' with hlt' | ⟨rfl, -⟩
        · exact absurd (UInt8.lt_trans hlt hlt') (UInt8.lt_irrefl _)
        · exact absurd hlt (UInt8.lt_irrefl _)
      · rcases lexLe_cons.1 h' with hlt' | ⟨-, ht'⟩
        · exact absurd hlt' (UInt8.lt_irrefl _)
        · exact (List.prefix_cons_inj a).2 (ih ht ht')

/-- No string of the same length is behind the one of the largest bytes. -/
theorem lexLe_top : lexLe as (List.replicate as.length 0xff) = true := by
  induction as with
  | nil => rfl
  | cons a as ih =>
    rw [List.length_cons, List.replicate_succ, lexLe_cons]
    rcases UInt8.lt_or_eq_of_le (show a ≤ 0xff from UInt8.le_iff_toNat_le.2 (by
      have := a.toNat_lt
      change a.toNat ≤ 255
      omega)) with hlt | rfl
    · exact .inl hlt
    · exact .inr ⟨rfl, ih⟩

/-- The keys of a set from a bound on, in order. -/
def sortedFrom (keys : Finset (List UInt8)) (bound : List UInt8) : List (List UInt8) :=
  (keys.filter fun key => lexLe bound key = true).sort fun as bs => lexLe as bs = true

theorem mem_sortedFrom {keys : Finset (List UInt8)} {bound key : List UInt8} :
    key ∈ sortedFrom keys bound ↔ key ∈ keys ∧ lexLe bound key = true := by
  simp [sortedFrom]

theorem pairwise_sortedFrom (keys : Finset (List UInt8)) (bound : List UInt8) :
    (sortedFrom keys bound).Pairwise fun as bs => lexLe as bs = true :=
  Finset.pairwise_sort _ _

end BitcoinNode.Bytes
