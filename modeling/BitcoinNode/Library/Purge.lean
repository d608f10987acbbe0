import BitcoinNode.Library.Eviction

/-!
# Purges of a registry

A purge goes through a list of items, each a name and the keys used under that name: an
item that is a node of the registry is settled, and any other one has its keys swept. What
a purge drops and frees is told in terms of the registry before it: the items, and the lines
of descent from the nodes that use a key of an item.
-/

namespace BitcoinNode.Registry

open Relation

variable {N K V : Type} [DecidableEq N] [DecidableEq K] {r r' r₁ : Registry N K V}
  (uses makes : V → List K)

/-- Drop a node with the keys it uses. -/
def settle (r : Registry N K V) (n : N) (ks : List K) : Registry N K V :=
  ⟨r.nodes.erase n, FMap.eraseAll r.holder ks⟩

/-- Go through items, each a name and the keys used under that name. -/
inductive Purge : Registry N K V → List (N × List K) → Registry N K V → Prop where
  | nil {r : Registry N K V} : Purge r [] r
  | settle {r r' : Registry N K V} {n : N} {ks : List K} {items : List (N × List K)} {v : V} :
      r.nodes.lookup n = some v → Purge (r.settle n (uses v)) items r' →
      Purge r ((n, ks) :: items) r'
  | evict {r r₁ r' : Registry N K V} {n : N} {ks : List K} {items : List (N × List K)} :
      r.nodes.lookup n = none → Sweep makes r ks r₁ → Purge r₁ items r' →
      Purge r ((n, ks) :: items) r'

/-- Items and nodes of one name use the same keys. -/
def Agree (r : Registry N K V) (items : List (N × List K)) : Prop :=
  ∀ item ∈ items, ∀ v, r.nodes.lookup item.1 = some v → uses v = item.2

/-- The node descends from one that uses a key of an item, along a line without that item
and those before it. -/
def Evicted (r : Registry N K V) (items : List (N × List K)) (n : N) : Prop :=
  ∃ before item after, items = before ++ item :: after ∧
    r.Line uses makes item.2 ((before ++ [item]).map Prod.fst) n

variable {uses makes} {items before after : List (N × List K)} {n : N} {ks : List K} {v : V}

theorem settle_sub (r : Registry N K V) (n : N) (ks : List K) : (r.settle n ks).Sub r :=
  ⟨fun h => (FMap.lookup_erase_eq_some.1 h).2, fun h => (FMap.lookup_eraseAll_eq_some.1 h).2⟩

theorem settle_holder_none {k : K} (hk : k ∈ ks) : (r.settle n ks).holder.lookup k = none := by
  cases h : (r.settle n ks).holder.lookup k with
  | none => rfl
  | some m => exact absurd hk (FMap.lookup_eraseAll_eq_some.1 h).1

theorem settle_holder_of_notMem {k : K} (hk : k ∉ ks) :
    (r.settle n ks).holder.lookup k = r.holder.lookup k := by
  cases h : r.holder.lookup k with
  | none => exact (settle_sub r n ks).holder_none h
  | some m => exact FMap.lookup_eraseAll_eq_some.2 ⟨hk, h⟩

theorem settle_nodes_none : (r.settle n ks).nodes.lookup n = none := Finmap.lookup_erase _ _

theorem settle_dropped {m : N} {w : V} (h : r.Dropped (r.settle n ks) m w) : m = n := by
  by_contra hne
  exact absurd (h.1.symm.trans ((Finmap.lookup_erase_ne hne).symm.trans h.2)) (by simp)

theorem Indexed.settle (hr : r.Indexed uses) (hn : r.nodes.lookup n = some v) :
    (r.settle n (uses v)).Indexed uses := by
  intro m w hm k hk
  obtain ⟨hne, hm⟩ := FMap.lookup_erase_eq_some.1 hm
  refine FMap.lookup_eraseAll_eq_some.2 ⟨fun hkv => hne (hr.unique hm hn hk hkv), ?_⟩
  exact hr m w hm k hk

theorem Agree.mono (h : r.Agree uses items) (hsub : r'.Sub r) : r'.Agree uses items :=
  fun item hitem v hv => h item hitem v (hsub.nodes hv)

omit [DecidableEq K] in
theorem Agree.tail {item : N × List K} (h : r.Agree uses (item :: items)) :
    r.Agree uses items := fun i hi => h i (List.mem_cons_of_mem _ hi)

theorem Purge.sub (h : Purge uses makes r items r') : r'.Sub r := by
  induction h with
  | nil => exact Sub.refl _
  | settle _ _ ih => exact ih.trans (settle_sub _ _ _)
  | evict _ hs _ ih => exact ih.trans hs.sub

theorem Purge.indexed (h : Purge uses makes r items r') (hr : r.Indexed uses) :
    r'.Indexed uses := by
  induction h with
  | nil => exact hr
  | settle hn _ ih => exact ih (hr.settle hn)
  | evict _ hs _ ih => exact ih (hs.indexed hr)

/-- The items are gone. -/
theorem Purge.nodes_none (h : Purge uses makes r items r') (hn : n ∈ items.map Prod.fst) :
    r'.nodes.lookup n = none := by
  induction h with
  | nil => cases hn
  | settle _ h ih =>
    rcases List.mem_cons.1 hn with rfl | hn
    · exact h.sub.nodes_none settle_nodes_none
    · exact ih hn
  | evict hnone hs h ih =>
    rcases List.mem_cons.1 hn with rfl | hn
    · exact h.sub.nodes_none (hs.sub.nodes_none hnone)
    · exact ih hn

/-- The keys of the items are free. -/
theorem Purge.holder_none (h : Purge uses makes r items r') (ha : r.Agree uses items) {k : K}
    (hk : k ∈ items.flatMap Prod.snd) : r'.holder.lookup k = none := by
  induction h with
  | nil => cases hk
  | settle hn h ih =>
    rw [List.flatMap_cons, List.mem_append] at hk
    rcases hk with hk | hk
    · rw [← ha _ List.mem_cons_self _ hn] at hk
      exact h.sub.holder_none (settle_holder_none hk)
    · exact ih (ha.tail.mono (settle_sub _ _ _)) hk
  | evict _ hs h ih =>
    rw [List.flatMap_cons, List.mem_append] at hk
    rcases hk with hk | hk
    · exact h.sub.holder_none (hs.holder_none hk)
    · exact ih (ha.tail.mono hs.sub) hk

/-- So are the keys made by a dropped node that is no item. -/
theorem Purge.closed (h : Purge uses makes r items r') {w : V} (hd : r.Dropped r' n w)
    (hn : n ∉ items.map Prod.fst) {k : K} (hk : k ∈ makes w) : r'.holder.lookup k = none := by
  induction h with
  | nil => exact absurd (hd.1.symm.trans hd.2) (by simp)
  | settle _ h ih =>
    rw [List.map_cons, List.mem_cons, not_or] at hn
    rcases hd.cases (settle_sub _ _ _) with hd | hd
    · exact absurd (settle_dropped hd) hn.1
    · exact ih hd hn.2
  | evict _ hs h ih =>
    rw [List.map_cons, List.mem_cons, not_or] at hn
    rcases hd.cases hs.sub with hd | hd
    · exact h.sub.holder_none (hs.closed hd hk)
    · exact ih hd hn.2

theorem Purge.append (h : Purge uses makes r (before ++ after) r') :
    ∃ r₁, Purge uses makes r before r₁ ∧ Purge uses makes r₁ after r' := by
  induction before generalizing r with
  | nil => exact ⟨r, .nil, h⟩
  | cons item before ih =>
    cases h with
    | settle hn h =>
      obtain ⟨r₁, h₁, h₂⟩ := ih h
      exact ⟨r₁, .settle hn h₁, h₂⟩
    | evict hn hs h =>
      obtain ⟨r₁, h₁, h₂⟩ := ih h
      exact ⟨r₁, .evict hn hs h₁, h₂⟩

/-- What is evicted after the first item is evicted by all items. -/
theorem Evicted.cons {item : N × List K} (hsub : r₁.Sub r) (hitem : r₁.nodes.lookup item.1 = none)
    (h : r₁.Evicted uses makes items n) : r.Evicted uses makes (item :: items) n := by
  obtain ⟨before, i, after, rfl, b, ⟨v, hb, hk⟩, havoid, hbn⟩ := h
  have hne : ∀ m w, r₁.nodes.lookup m = some w → m ≠ item.1 := by
    rintro m w hm rfl
    rw [hitem] at hm
    cases hm
  refine ⟨item :: before, i, after, rfl, b, ⟨v, hsub.nodes hb, hk⟩, ?_, ?_⟩
  · exact fun hmem => (List.mem_cons.1 hmem).elim (hne b v hb) havoid
  · refine ReflTransGen.mono (fun m n hc => ⟨hc.1.mono hsub, fun hmem => ?_⟩) b n hbn
    obtain ⟨⟨w, u, hm, hn, hk⟩, hn'⟩ := hc
    exact (List.mem_cons.1 hmem).elim (hne n u hn) hn'

theorem Sweep.evicted (h : Sweep makes r ks r₁) (hr : r.Held uses) {m : N}
    (hm : r.nodes.lookup m = none) {w : V} (hd : r.Dropped r₁ n w) :
    r.Evicted uses makes ((m, ks) :: items) n := by
  obtain ⟨b, hb, hbn⟩ := h.descends hr hd
  exact ⟨[], (m, ks), items, rfl, line_of_descends (by simpa using hm) hb hbn⟩

/-- An evicted node is gone, and the keys it made are free. -/
theorem Purge.of_evicted (h : Purge uses makes r items r') (hr : r.Indexed uses)
    (ha : r.Agree uses items) (hev : r.Evicted uses makes items n) :
    ∃ w, r.Dropped r' n w ∧ ∀ k ∈ makes w, r'.holder.lookup k = none := by
  obtain ⟨before, item, after, rfl, hl⟩ := hev
  rw [List.append_cons] at h
  obtain ⟨r₁, h₁, h₂⟩ := h.append
  have ha₁ : r.Agree uses (before ++ [item]) := by
    intro i hi
    refine ha i ?_
    rw [List.append_cons]
    exact List.mem_append_left _ hi
  obtain ⟨hn, w, hw⟩ := hl.dropped h₁.sub (h₁.indexed hr)
    (fun k hk => h₁.holder_none ha₁
      (List.mem_flatMap.2 ⟨item, List.mem_append_right _ List.mem_cons_self, hk⟩))
    fun _ _ hd hm _ => h₁.closed hd hm
  exact ⟨w, hw.mono h₂.sub, fun k hk => h₂.sub.holder_none (h₁.closed hw hn hk)⟩

/-- A purge drops the items and what they evict. -/
theorem Purge.dropped_iff (h : Purge uses makes r items r') (hr : r.Indexed uses)
    (hh : r.Held uses) (ha : r.Agree uses items) (hn : r.nodes.lookup n = some v) :
    r'.nodes.lookup n = none ↔ n ∈ items.map Prod.fst ∨ r.Evicted uses makes items n := by
  constructor
  · intro hn'
    induction h with
    | nil => exact absurd (hn.symm.trans hn') (by simp)
    | settle hm h ih =>
      rcases Dropped.cases (settle_sub _ _ _) ⟨hn, hn'⟩ with hd | hd
      · exact .inl (List.mem_cons.2 (.inl (settle_dropped hd)))
      · rcases ih (hr.settle hm) (hh.mono (settle_sub _ _ _)) (ha.tail.mono (settle_sub _ _ _))
          hd.1 hd.2 with hmem | hev
        · exact .inl (List.mem_cons_of_mem _ hmem)
        · exact .inr (hev.cons (settle_sub _ _ _) settle_nodes_none)
    | evict hm hs h ih =>
      rcases Dropped.cases hs.sub ⟨hn, hn'⟩ with hd | hd
      · exact .inr (hs.evicted hh hm hd)
      · rcases ih (hs.indexed hr) (hh.mono hs.sub) (ha.tail.mono hs.sub) hd.1 hd.2 with hmem | hev
        · exact .inl (List.mem_cons_of_mem _ hmem)
        · exact .inr (hev.cons hs.sub (hs.sub.nodes_none hm))
  · rintro (hmem | hev)
    · exact h.nodes_none hmem
    · obtain ⟨w, hw, -⟩ := h.of_evicted hr ha hev
      exact hw.2

/-- A purge frees the keys of the items and the keys made by what they evict. -/
theorem Purge.freed_iff (h : Purge uses makes r items r') (hr : r.Indexed uses)
    (hh : r.Held uses) (ha : r.Agree uses items) {k : K} (hk : r.holder.lookup k ≠ none) :
    r'.holder.lookup k = none ↔ k ∈ items.flatMap Prod.snd ∨
      ∃ n w, r.Evicted uses makes items n ∧ r.nodes.lookup n = some w ∧ k ∈ makes w := by
  constructor
  · intro hk'
    induction h with
    | nil => exact absurd hk' hk
    | @settle r r' m ks items w hm h ih =>
      have hsub := settle_sub r m (uses w)
      by_cases hkw : k ∈ uses w
      · rw [ha _ List.mem_cons_self w hm] at hkw
        exact .inl (List.mem_append_left _ hkw)
      · rcases ih (hr.settle hm) (hh.mono hsub) (ha.tail.mono hsub)
          (by rwa [settle_holder_of_notMem hkw]) hk' with hmem | ⟨n, u, hev, hn, hku⟩
        · exact .inl (List.mem_append_right _ hmem)
        · exact .inr ⟨n, u, hev.cons hsub settle_nodes_none, hsub.nodes hn, hku⟩
    | @evict r r₁ r' m ks items hm hs h ih =>
      by_cases hk₁ : r₁.holder.lookup k = none
      · rcases hs.freed hk hk₁ with hmem | ⟨n, u, hd, hku⟩
        · exact .inl (List.mem_append_left _ hmem)
        · exact .inr ⟨n, u, hs.evicted hh hm hd, hd.1, hku⟩
      · rcases ih (hs.indexed hr) (hh.mono hs.sub) (ha.tail.mono hs.sub) hk₁ hk' with
          hmem | ⟨n, u, hev, hn, hku⟩
        · exact .inl (List.mem_append_right _ hmem)
        · exact .inr ⟨n, u, hev.cons hs.sub (hs.sub.nodes_none hm), hs.sub.nodes hn, hku⟩
  · rintro (hk' | ⟨n, w, hev, hn, hkw⟩)
    · exact h.holder_none ha hk'
    · obtain ⟨w', hw', hfree⟩ := h.of_evicted hr ha hev
      obtain rfl := Option.some.inj (hn.symm.trans hw'.1)
      exact hfree k hkw

/-- A purge of a tight registry leaves it tight exactly when the nodes it evicts use only
keys that it frees. -/
theorem Purge.tight_iff (h : Purge uses makes r items r') (hr : r.Indexed uses)
    (ht : r.Tight uses) (ha : r.Agree uses items) :
    r'.Tight uses ↔ ∀ n v, r.Evicted uses makes items n → r.nodes.lookup n = some v →
      ∀ k ∈ uses v, k ∈ items.flatMap Prod.snd ∨
        ∃ m w, r.Evicted uses makes items m ∧ r.nodes.lookup m = some w ∧ k ∈ makes w := by
  refine tight_iff_of_gone (items.map Prod.fst) h.sub hr ht (fun n v => h.dropped_iff hr ht.held ha)
    (fun k => h.freed_iff hr ht.held ha) fun n hn v hv k hk => .inl ?_
  obtain ⟨item, hitem, rfl⟩ := List.mem_map.1 hn
  exact List.mem_flatMap.2 ⟨item, hitem, ha item hitem v hv ▸ hk⟩

end BitcoinNode.Registry
