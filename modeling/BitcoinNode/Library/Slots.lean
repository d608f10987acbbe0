import Mathlib.Tactic

/-!
# Slots

A list some of whose elements are known. The empty slots are listed by index, and filled in
order.
-/

namespace BitcoinNode.Slots

variable {α : Type*} {slots : List (Option α)} {xs ys : List α} {x : α} {i : Nat}

/-- The indexes of the empty slots; the first slot has index `i`. -/
def missing : List (Option α) → Nat → List Nat
  | [], _ => []
  | none :: slots, i => i :: missing slots (i + 1)
  | some _ :: slots, i => missing slots (i + 1)

/-- Replace the empty slots by the elements, and say whether there are as many of both. -/
def replaceMissing : List (Option α) → List α → List (Option α) × Bool
  | [], xs => ([], xs.isEmpty)
  | some y :: slots, xs =>
    let (slots, full) := replaceMissing slots xs
    (some y :: slots, full)
  | none :: slots, [] => (none :: slots, false)
  | none :: slots, x :: xs =>
    let (slots, full) := replaceMissing slots xs
    (some x :: slots, full)

/-- What is known is known right. -/
def Agrees (slots : List (Option α)) (xs : List α) : Prop :=
  List.Forall₂ (fun slot x => ∀ y ∈ slot, y = x) slots xs

theorem agrees_replicate : Agrees (List.replicate xs.length none) xs := by
  induction xs with
  | nil => exact .nil
  | cons x xs ih => exact .cons (by simp) ih

theorem Agrees.set (h : Agrees slots xs) (hx : xs[i]? = some x) :
    Agrees (slots.set i (some x)) xs := by
  induction h generalizing i with
  | nil => exact .nil
  | cons hslot hrest ih =>
    cases i with
    | zero =>
      obtain rfl := Option.some.inj hx
      exact .cons (by simp) hrest
    | succ i => exact .cons hslot (ih hx)

/-- Slots that are all known are the list. -/
theorem Agrees.eq_map_some (h : Agrees slots xs)
    (hfull : slots.countP Option.isSome = slots.length) : slots = xs.map some := by
  rw [List.countP_eq_length] at hfull
  induction h with
  | nil => rfl
  | @cons slot x slots xs hslot hrest ih =>
    obtain ⟨y, rfl⟩ := Option.isSome_iff_exists.1 (hfull slot List.mem_cons_self)
    rw [hslot y rfl, ih fun slot hmem => hfull slot (List.mem_cons_of_mem _ hmem), List.map_cons]

/-- The elements at the missing indexes complete the list. -/
theorem Agrees.replaceMissing_eq {before : List α} (h : Agrees slots xs)
    (hi : i = before.length) : ∃ ys, (missing slots i).mapM ((before ++ xs)[·]?) = some ys
      ∧ replaceMissing slots ys = (xs.map some, true) := by
  induction h generalizing i before with
  | nil => exact ⟨[], rfl, rfl⟩
  | @cons slot x slots xs hslot hrest ih =>
    obtain ⟨ys, hys, hreplace⟩ := @ih (i + 1) (before ++ [x]) (by simp [hi])
    rw [List.append_assoc, List.singleton_append] at hys
    cases slot with
    | none =>
      refine ⟨x :: ys, ?_, by simp [replaceMissing, hreplace]⟩
      have hx : (before ++ x :: xs)[i]? = some x := by simp [hi]
      rw [missing, List.mapM_cons, hx, hys]
      rfl
    | some y =>
      obtain rfl := hslot y rfl
      exact ⟨ys, hys, by simp [replaceMissing, hreplace]⟩

theorem countP_set (h : slots[i]? = some none) :
    (slots.set i (some x)).countP Option.isSome = slots.countP Option.isSome + 1 := by
  obtain ⟨hi, hget⟩ := List.getElem?_eq_some_iff.1 h
  rw [List.countP_set hi]
  simp [hget]

theorem countP_set_none (h : slots[i]? = some (some x)) :
    (slots.set i none).countP Option.isSome + 1 = slots.countP Option.isSome := by
  obtain ⟨hi, hget⟩ := List.getElem?_eq_some_iff.1 h
  have hpos : 0 < slots.countP Option.isSome :=
    List.countP_pos_iff.2 ⟨some x, List.mem_of_getElem? h, rfl⟩
  rw [List.countP_set hi]
  simp [hget]
  omega

theorem countP_le_set_none :
    slots.countP Option.isSome ≤ (slots.set i none).countP Option.isSome + 1 := by
  rcases hslot : slots[i]? with _ | _ | x
  · rw [List.set_eq_of_length_le (List.getElem?_eq_none_iff.1 hslot)]
    exact Nat.le_succ _
  · obtain ⟨hi, hget⟩ := List.getElem?_eq_some_iff.1 hslot
    rw [← hget, List.set_getElem_self]
    exact Nat.le_succ _
  · exact (countP_set_none hslot).ge

theorem exists_eq_map_some (h : ∀ slot ∈ slots, slot.isSome = true) :
    ∃ xs : List α, slots = xs.map some := by
  induction slots with
  | nil => exact ⟨[], rfl⟩
  | cons slot slots ih =>
    obtain ⟨hslot, hrest⟩ := List.forall_mem_cons.1 h
    obtain ⟨x, rfl⟩ := Option.isSome_iff_exists.1 hslot
    obtain ⟨xs, rfl⟩ := ih hrest
    exact ⟨x :: xs, rfl⟩

/-- Fill slots, each with its element. -/
def place : List (Nat × α) → List (Option α) → List (Option α)
  | [], slots => slots
  | (i, x) :: xs, slots => place xs (slots.set i (some x))

@[simp, grind =] theorem length_place {xs : List (Nat × α)} :
    (place xs slots).length = slots.length := by
  fun_induction place xs slots <;> grind

theorem getElem?_place_of_ne {xs : List (Nat × α)} (h : ∀ p ∈ xs, p.1 ≠ i) :
    (place xs slots)[i]? = slots[i]? := by
  fun_induction place xs slots with
  | case1 => rfl
  | case2 j x xs slots ih =>
    obtain ⟨hne, hrest⟩ := List.forall_mem_cons.1 h
    rw [ih hrest, List.getElem?_set_ne hne]

theorem getElem?_place {xs : List (Nat × α)} (hup : xs.Pairwise fun p q => p.1 < q.1)
    {p : Nat × α} (hp : p ∈ xs) (hlt : p.1 < slots.length) :
    (place xs slots)[p.1]? = some (some p.2) := by
  fun_induction place xs slots with
  | case1 => cases hp
  | case2 i x xs slots ih =>
    rw [List.pairwise_cons] at hup
    rcases List.mem_cons.1 hp with rfl | hp
    · rw [getElem?_place_of_ne fun q hq => (hup.1 q hq).ne', List.getElem?_set_self hlt]
    · exact ih hup.2 hp (by simpa using hlt)

theorem countP_place {xs : List (Nat × α)} (hup : xs.Pairwise fun p q => p.1 < q.1)
    (h : ∀ p ∈ xs, slots[p.1]? = some none) :
    (place xs slots).countP Option.isSome = slots.countP Option.isSome + xs.length := by
  fun_induction place xs slots with
  | case1 => rfl
  | case2 i x xs slots ih =>
    rw [List.pairwise_cons] at hup
    obtain ⟨hhead, hrest⟩ := List.forall_mem_cons.1 h
    have hkept : ∀ p ∈ xs, (slots.set i (some x))[p.1]? = some none := fun p hp => by
      rw [List.getElem?_set_ne (hup.1 p hp).ne]
      exact hrest p hp
    rw [ih hup.2 hkept, countP_set hhead, List.length_cons]
    omega

theorem length_missing : (missing slots i).length + slots.countP Option.isSome = slots.length := by
  fun_induction missing slots i <;> grind

theorem mem_missing_iff {j : Nat} :
    j ∈ missing slots i ↔ i ≤ j ∧ slots[j - i]? = some none := by
  fun_induction missing slots i <;> grind

end BitcoinNode.Slots
