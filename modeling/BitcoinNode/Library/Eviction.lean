import BitcoinNode.Library.FiniteMap
import Mathlib.Logic.Relation

/-!
# Eviction from a registry

Named nodes hold the keys they use and make keys that other nodes may use. A registry
maps names to nodes and keys to the names of their holders. Releasing a key drops the node
that holds it; a sweep releases keys and then, for every node dropped, the keys that node
made. It drops the lines of descent from the nodes that use one of its keys.
-/

namespace BitcoinNode

open Relation

/-- Nodes under their names, and for each held key the name of its holder. -/
structure Registry (N K V : Type) where
  nodes : FMap N V
  holder : FMap K N

namespace Registry

variable {N K V : Type} {r r' r₁ : Registry N K V}

/-- One registry is part of another. -/
structure Sub (r' r : Registry N K V) [DecidableEq N] [DecidableEq K] : Prop where
  nodes {n : N} {v : V} : r'.nodes.lookup n = some v → r.nodes.lookup n = some v
  holder {k : K} {n : N} : r'.holder.lookup k = some n → r.holder.lookup k = some n

variable [DecidableEq N] [DecidableEq K]

theorem Sub.refl (r : Registry N K V) : r.Sub r := ⟨id, id⟩

theorem Sub.trans (h' : r'.Sub r₁) (h : r₁.Sub r) : r'.Sub r :=
  ⟨fun hv => h.nodes (h'.nodes hv), fun hn => h.holder (h'.holder hn)⟩

/-- The registry no longer has a node it had before. -/
def Dropped (r r' : Registry N K V) (n : N) (v : V) : Prop :=
  r.nodes.lookup n = some v ∧ r'.nodes.lookup n = none

theorem Sub.holder_none (h : r'.Sub r) {k : K} (hk : r.holder.lookup k = none) :
    r'.holder.lookup k = none := by
  cases hk' : r'.holder.lookup k with
  | none => rfl
  | some n => rw [h.holder hk'] at hk; cases hk

theorem Sub.nodes_none (h : r'.Sub r) {n : N} (hn : r.nodes.lookup n = none) :
    r'.nodes.lookup n = none := by
  cases hn' : r'.nodes.lookup n with
  | none => rfl
  | some v => rw [h.nodes hn'] at hn; cases hn

/-- A node dropped by two stages is dropped by one of them. -/
theorem Dropped.cases (h : r₁.Sub r) {n : N} {v : V} (hd : r.Dropped r' n v) :
    r.Dropped r₁ n v ∨ r₁.Dropped r' n v := by
  cases hn : r₁.nodes.lookup n with
  | none => exact .inl ⟨hd.1, hn⟩
  | some w =>
    have hw : w = v := Option.some.inj ((h.nodes hn).symm.trans hd.1)
    exact .inr ⟨hw ▸ hn, hd.2⟩

theorem Dropped.mono (h : r'.Sub r₁) {n : N} {v : V} (hd : r.Dropped r₁ n v) :
    r.Dropped r' n v := ⟨hd.1, h.nodes_none hd.2⟩

/-! ## Releasing a key -/

/-- Release a key, and drop the node that holds it. -/
def take (r : Registry N K V) (k : K) : Registry N K V × Option V :=
  match r.holder.lookup k with
  | none => (r, none)
  | some n => (⟨r.nodes.erase n, r.holder.erase k⟩, r.nodes.lookup n)

variable {k : K} {v : V}

theorem take_sub (r : Registry N K V) (k : K) : (r.take k).1.Sub r := by
  unfold take
  split
  · exact Sub.refl r
  · exact ⟨fun h => (FMap.lookup_erase_eq_some.1 h).2, fun h => (FMap.lookup_erase_eq_some.1 h).2⟩

theorem take_holder (r : Registry N K V) (k : K) : (r.take k).1.holder.lookup k = none := by
  unfold take
  split
  · assumption
  · exact Finmap.lookup_erase _ _

theorem take_holder_of_ne {x : K} (h : x ≠ k) :
    (r.take k).1.holder.lookup x = r.holder.lookup x := by
  unfold take
  split
  · rfl
  · exact Finmap.lookup_erase_ne h

/-- Only the holder of the key is dropped. -/
theorem take_dropped {n : N} {w : V} (h : r.Dropped (r.take k).1 n w) :
    r.holder.lookup k = some n ∧ (r.take k).2 = some w := by
  obtain ⟨hn, hn'⟩ := h
  unfold take at hn' ⊢
  split at hn' <;> rename_i hk
  · rw [hn] at hn'
    cases hn'
  · rename_i m
    by_cases hm : n = m
    · subst hm
      exact ⟨hk, hn⟩
    · rw [Finmap.lookup_erase_ne hm, hn] at hn'
      cases hn'

theorem take_eq_some (h : (r.take k).2 = some v) :
    ∃ n, r.holder.lookup k = some n ∧ r.Dropped (r.take k).1 n v := by
  unfold take at h ⊢
  split at h <;> rename_i hk
  · cases h
  · exact ⟨_, hk, h, Finmap.lookup_erase _ _⟩

/-! ## Consistent registries -/

section Consistent

variable (uses : V → List K)

/-- Every node holds the keys it uses. -/
def Indexed (r : Registry N K V) : Prop :=
  ∀ n v, r.nodes.lookup n = some v → ∀ k ∈ uses v, r.holder.lookup k = some n

/-- A node uses the keys it holds. -/
def Held (r : Registry N K V) : Prop :=
  ∀ k n v, r.holder.lookup k = some n → r.nodes.lookup n = some v → k ∈ uses v

/-- Every held key is held by a node. -/
def Tight (r : Registry N K V) : Prop :=
  ∀ k n, r.holder.lookup k = some n → ∃ v, r.nodes.lookup n = some v ∧ k ∈ uses v

variable {uses}

theorem Tight.held (h : r.Tight uses) : r.Held uses := by
  intro k n v hk hn
  obtain ⟨w, hw, hmem⟩ := h k n hk
  rw [hn] at hw
  obtain rfl := Option.some.inj hw
  exact hmem

theorem Held.mono (h : r.Held uses) (hsub : r'.Sub r) : r'.Held uses :=
  fun k n v hk hn => h k n v (hsub.holder hk) (hsub.nodes hn)

/-- Two nodes that use one key are one node. -/
theorem Indexed.unique (h : r.Indexed uses) {n m : N} {v w : V} (hn : r.nodes.lookup n = some v)
    (hm : r.nodes.lookup m = some w) (hv : k ∈ uses v) (hw : k ∈ uses w) : n = m :=
  Option.some.inj ((h n v hn k hv).symm.trans (h m w hm k hw))

/-- A node that uses a free key is not there. -/
theorem Indexed.lookup_none (h : r'.Indexed uses) (hsub : r'.Sub r) {n : N}
    (hn : r.nodes.lookup n = some v) (hk : k ∈ uses v) (hfree : r'.holder.lookup k = none) :
    r'.nodes.lookup n = none := by
  cases hn' : r'.nodes.lookup n with
  | none => rfl
  | some w =>
    have hw : w = v := Option.some.inj ((hsub.nodes hn').symm.trans hn)
    rw [h n w hn' k (hw ▸ hk)] at hfree
    cases hfree

theorem Indexed.take (h : r.Indexed uses) (k : K) : (r.take k).1.Indexed uses := by
  intro n v hn x hx
  have hn₀ := (take_sub r k).nodes hn
  have hhold := h n v hn₀ x hx
  by_cases hxk : x = k
  · subst hxk
    unfold Registry.take at hn
    rw [hhold] at hn
    simp at hn
  · rwa [take_holder_of_ne hxk]

end Consistent

/-! ## Sweeps -/

section Sweep

variable (uses makes : V → List K)

/-- Release keys one after the other; when a node is dropped, sweep the keys it made before
going on. -/
inductive Sweep : Registry N K V → List K → Registry N K V → Prop where
  | nil {r : Registry N K V} : Sweep r [] r
  | free {r r' : Registry N K V} {k : K} {ks : List K} :
      (r.take k).2 = none → Sweep (r.take k).1 ks r' → Sweep r (k :: ks) r'
  | held {r r₁ r' : Registry N K V} {k : K} {ks : List K} {v : V} :
      (r.take k).2 = some v → Sweep (r.take k).1 (makes v) r₁ → Sweep r₁ ks r' →
      Sweep r (k :: ks) r'

/-- A node makes a key that another node uses. -/
def Child (r : Registry N K V) (m n : N) : Prop :=
  ∃ w v, r.nodes.lookup m = some w ∧ r.nodes.lookup n = some v ∧ ∃ k ∈ makes w, k ∈ uses v

/-- A node of the registry uses one of the keys. -/
def User (r : Registry N K V) (ks : List K) (n : N) : Prop :=
  ∃ v, r.nodes.lookup n = some v ∧ ∃ k ∈ ks, k ∈ uses v

/-- A line of descent through nodes that are not avoided, from a node which uses one of the
keys. -/
def Line (r : Registry N K V) (ks : List K) (avoid : List N) (n : N) : Prop :=
  ∃ b, r.User uses ks b ∧ b ∉ avoid ∧
    ReflTransGen (fun m n => r.Child uses makes m n ∧ n ∉ avoid) b n

variable {uses makes} {ks : List K}

theorem Child.mono (h : r'.Sub r) {m n : N} (hc : r'.Child uses makes m n) :
    r.Child uses makes m n := by
  obtain ⟨w, v, hm, hn, hk⟩ := hc
  exact ⟨w, v, h.nodes hm, h.nodes hn, hk⟩

theorem descends_mono (h : r'.Sub r) {m n : N}
    (hd : ReflTransGen (r'.Child uses makes) m n) : ReflTransGen (r.Child uses makes) m n :=
  ReflTransGen.mono (fun _ _ => Child.mono h) m n hd

theorem Sweep.sub (h : Sweep makes r ks r') : r'.Sub r := by
  induction h with
  | nil => exact Sub.refl _
  | free _ _ ih => exact ih.trans (take_sub _ _)
  | held _ _ _ ih₁ ih₂ => exact ih₂.trans (ih₁.trans (take_sub _ _))

theorem Sweep.indexed (h : Sweep makes r ks r') (hr : r.Indexed uses) : r'.Indexed uses := by
  induction h with
  | nil => exact hr
  | free _ _ ih => exact ih (hr.take _)
  | held _ _ _ ih₁ ih₂ => exact ih₂ (ih₁ (hr.take _))

/-- The keys swept are free afterwards. -/
theorem Sweep.holder_none (h : Sweep makes r ks r') {k : K} (hk : k ∈ ks) :
    r'.holder.lookup k = none := by
  induction h with
  | nil => cases hk
  | free _ h₂ ih =>
    rcases List.mem_cons.1 hk with rfl | hk
    · exact h₂.sub.holder_none (take_holder _ _)
    · exact ih hk
  | held _ h₁ h₂ _ ih₂ =>
    rcases List.mem_cons.1 hk with rfl | hk
    · exact h₂.sub.holder_none (h₁.sub.holder_none (take_holder _ _))
    · exact ih₂ hk

/-- So are the keys that a dropped node made. -/
theorem Sweep.closed (h : Sweep makes r ks r') {n : N} {w : V} (hd : r.Dropped r' n w) {k : K}
    (hk : k ∈ makes w) : r'.holder.lookup k = none := by
  induction h with
  | nil => exact absurd (hd.1.symm.trans hd.2) (by simp)
  | free hnone h₂ ih =>
    rcases hd.cases (take_sub _ _) with hd | hd
    · rw [(take_dropped hd).2] at hnone
      cases hnone
    · exact ih hd
  | held hsome h₁ h₂ ih₁ ih₂ =>
    rcases hd.cases (h₁.sub.trans (take_sub _ _)) with hd | hd
    · rcases hd.cases (take_sub _ _) with hd | hd
      · rw [(take_dropped hd).2] at hsome
        obtain rfl := Option.some.inj hsome
        exact h₂.sub.holder_none (h₁.holder_none hk)
      · exact h₂.sub.holder_none (ih₁ hd)
    · exact ih₂ hd

/-- A key is freed because it is swept or because a dropped node made it. -/
theorem Sweep.freed (h : Sweep makes r ks r') {k : K} (hk : r.holder.lookup k ≠ none)
    (hk' : r'.holder.lookup k = none) :
    k ∈ ks ∨ ∃ n w, r.Dropped r' n w ∧ k ∈ makes w := by
  induction h with
  | nil => exact absurd hk' hk
  | @free r _ x _ hnone h₂ ih =>
    by_cases hx : k = x
    · exact .inl (hx ▸ List.mem_cons_self)
    · rcases ih (by rwa [take_holder_of_ne hx]) hk' with hmem | ⟨n, w, hd, hw⟩
      · exact .inl (List.mem_cons_of_mem _ hmem)
      · exact .inr ⟨n, w, ⟨(take_sub r x).nodes hd.1, hd.2⟩, hw⟩
  | @held r r₁ _ x _ v hsome h₁ h₂ ih₁ ih₂ =>
    by_cases hx : k = x
    · exact .inl (hx ▸ List.mem_cons_self)
    by_cases hmid : r₁.holder.lookup k = none
    · refine .inr ?_
      obtain ⟨n, -, hn⟩ := take_eq_some hsome
      rcases ih₁ (by rwa [take_holder_of_ne hx]) hmid with hmem | ⟨m, w, hd, hw⟩
      · exact ⟨n, v, hn.mono (h₂.sub.trans h₁.sub), hmem⟩
      · exact ⟨m, w, Dropped.mono h₂.sub ⟨(take_sub r x).nodes hd.1, hd.2⟩, hw⟩
    · rcases ih₂ hmid hk' with hmem | ⟨n, w, hd, hw⟩
      · exact .inl (List.mem_cons_of_mem _ hmem)
      · exact .inr ⟨n, w, ⟨(take_sub r x).nodes (h₁.sub.nodes hd.1), hd.2⟩, hw⟩

/-- Every dropped node descends from a node that uses a key swept. -/
theorem Sweep.descends (h : Sweep makes r ks r') (hr : r.Held uses) {n : N} {w : V}
    (hd : r.Dropped r' n w) :
    ∃ b, r.User uses ks b ∧ ReflTransGen (r.Child uses makes) b n := by
  induction h with
  | nil => exact absurd (hd.1.symm.trans hd.2) (by simp)
  | @free r _ x ks hnone h₂ ih =>
    rcases hd.cases (take_sub _ _) with hd | hd
    · rw [(take_dropped hd).2] at hnone
      cases hnone
    · obtain ⟨b, ⟨v, hb, k, hk, hkv⟩, hbn⟩ := ih (hr.mono (take_sub _ _)) hd
      exact ⟨b, ⟨v, (take_sub r x).nodes hb, k, List.mem_cons_of_mem _ hk, hkv⟩,
        descends_mono (take_sub _ _) hbn⟩
  | @held r r₁ _ x ks v hsome h₁ h₂ ih₁ ih₂ =>
    obtain ⟨top, hhold, htop⟩ := take_eq_some hsome
    have huser : r.User uses (x :: ks) top :=
      ⟨v, htop.1, x, List.mem_cons_self, hr x top v hhold htop.1⟩
    have hsub := take_sub r x
    rcases hd.cases (h₁.sub.trans hsub) with hd | hd
    · rcases hd.cases hsub with hd | hd
      · have hn : top = n := Option.some.inj (hhold.symm.trans (take_dropped hd).1)
        exact ⟨top, huser, hn ▸ .refl⟩
      · obtain ⟨b, ⟨u, hb, k, hk, hku⟩, hbn⟩ := ih₁ (hr.mono hsub) hd
        have hc : r.Child uses makes top b := ⟨v, u, htop.1, hsub.nodes hb, k, hk, hku⟩
        exact ⟨top, huser, .head hc (descends_mono hsub hbn)⟩
    · have hsub₁ := h₁.sub.trans hsub
      obtain ⟨b, ⟨u, hb, k, hk, hku⟩, hbn⟩ := ih₂ (hr.mono hsub₁) hd
      exact ⟨b, ⟨u, hsub₁.nodes hb, k, List.mem_cons_of_mem _ hk, hku⟩,
        descends_mono hsub₁ hbn⟩

omit [DecidableEq K] in
/-- A line of descent avoids names that the registry does not have. -/
theorem line_of_descends {avoid : List N} (havoid : ∀ n ∈ avoid, r.nodes.lookup n = none)
    {b n : N} (hb : r.User uses ks b) (hn : ReflTransGen (r.Child uses makes) b n) :
    r.Line uses makes ks avoid n := by
  have hnot : ∀ n v, r.nodes.lookup n = some v → n ∉ avoid := by
    intro n v hn hmem
    rw [havoid n hmem] at hn
    cases hn
  obtain ⟨v, hv, hk⟩ := hb
  refine ⟨b, ⟨v, hv, hk⟩, hnot b v hv, ReflTransGen.mono (fun m n hc => ⟨hc, ?_⟩) b n hn⟩
  obtain ⟨w, u, hm, hn, hk⟩ := hc
  exact hnot n u hn

/-- Where the keys are free and every dropped node outside `avoid` freed the keys it made,
whole lines of descent are gone. -/
theorem Line.dropped (hsub : r'.Sub r) (hr' : r'.Indexed uses) {avoid : List N}
    (hkeys : ∀ k ∈ ks, r'.holder.lookup k = none)
    (hclosed : ∀ n w, r.Dropped r' n w → n ∉ avoid → ∀ k ∈ makes w, r'.holder.lookup k = none)
    {n : N} (h : r.Line uses makes ks avoid n) : n ∉ avoid ∧ ∃ w, r.Dropped r' n w := by
  obtain ⟨b, ⟨v, hv, k, hk, hkv⟩, hb, hn⟩ := h
  induction hn with
  | refl => exact ⟨hb, v, hv, hr'.lookup_none hsub hv hkv (hkeys k hk)⟩
  | tail _ hc ih =>
    obtain ⟨hm, w, hw⟩ := ih
    obtain ⟨⟨w', u, hm', hn, x, hx, hxu⟩, hn'⟩ := hc
    obtain rfl := Option.some.inj (hw.1.symm.trans hm')
    exact ⟨hn', u, hn, hr'.lookup_none hsub hn hxu (hclosed _ w hw hm x hx)⟩

/-- A sweep drops the lines of descent from the users of its keys. -/
theorem Sweep.dropped_iff (h : Sweep makes r ks r') (hr : r.Indexed uses) (hh : r.Held uses)
    {n : N} {v : V} (hn : r.nodes.lookup n = some v) :
    r'.nodes.lookup n = none ↔ r.Line uses makes ks [] n := by
  constructor
  · intro hn'
    obtain ⟨b, hb, hbn⟩ := h.descends hh ⟨hn, hn'⟩
    exact line_of_descends (by simp) hb hbn
  · intro hl
    obtain ⟨-, w, hw⟩ := hl.dropped h.sub (h.indexed hr) (fun _ => h.holder_none)
      fun _ _ hd _ _ => h.closed hd
    exact hw.2

/-- A sweep frees its keys and the keys that the nodes it drops made. -/
theorem Sweep.freed_iff (h : Sweep makes r ks r') (hr : r.Indexed uses) (hh : r.Held uses)
    {k : K} (hk : r.holder.lookup k ≠ none) :
    r'.holder.lookup k = none ↔ k ∈ ks ∨
      ∃ n w, r.Line uses makes ks [] n ∧ r.nodes.lookup n = some w ∧ k ∈ makes w := by
  constructor
  · intro hk'
    refine (h.freed hk hk').imp_right ?_
    rintro ⟨n, w, hd, hkw⟩
    exact ⟨n, w, (h.dropped_iff hr hh hd.1).1 hd.2, hd.1, hkw⟩
  · rintro (hk' | ⟨n, w, hl, hn, hkw⟩)
    · exact h.holder_none hk'
    · exact h.closed ⟨hn, (h.dropped_iff hr hh hn).2 hl⟩ hkw

/-- What is left of a tight registry is tight when the nodes in `gone` used no key that stays
held. -/
theorem tight_iff_of_gone (settled : List N) (hsub : r'.Sub r) (hr : r.Indexed uses)
    (ht : r.Tight uses) {gone : N → Prop} {free : K → Prop}
    (hdrop : ∀ n v, r.nodes.lookup n = some v →
      (r'.nodes.lookup n = none ↔ n ∈ settled ∨ gone n))
    (hfree : ∀ k, r.holder.lookup k ≠ none → (r'.holder.lookup k = none ↔ free k))
    (hsettled : ∀ n ∈ settled, ∀ v, r.nodes.lookup n = some v → ∀ k ∈ uses v, free k) :
    r'.Tight uses ↔ ∀ n v, gone n → r.nodes.lookup n = some v → ∀ k ∈ uses v, free k := by
  constructor
  · intro ht' n v hgone hn k hk
    have hhold := hr n v hn k hk
    by_contra hnot
    cases hk' : r'.holder.lookup k with
    | none => exact hnot ((hfree k (by simp [hhold])).1 hk')
    | some m =>
      obtain rfl := Option.some.inj ((hsub.holder hk').symm.trans hhold)
      obtain ⟨w, hw, -⟩ := ht' k m hk'
      rw [(hdrop m v hn).2 (.inr hgone)] at hw
      cases hw
  · intro h k n hk
    have hk₀ := hsub.holder hk
    obtain ⟨v, hn, hkv⟩ := ht k n hk₀
    have hnot : ¬ free k := by
      intro hf
      rw [(hfree k (by simp [hk₀])).2 hf] at hk
      cases hk
    cases hn' : r'.nodes.lookup n with
    | none =>
      rcases (hdrop n v hn).1 hn' with hmem | hgone
      · exact absurd (hsettled n hmem v hn k hkv) hnot
      · exact absurd (h n v hgone hn k hkv) hnot
    | some w =>
      obtain rfl := Option.some.inj ((hsub.nodes hn').symm.trans hn)
      exact ⟨w, rfl, hkv⟩

/-- A sweep of a tight registry leaves it tight exactly when the nodes it drops use only keys
that it frees. -/
theorem Sweep.tight_iff (h : Sweep makes r ks r') (hr : r.Indexed uses) (ht : r.Tight uses) :
    r'.Tight uses ↔ ∀ n v, r.Line uses makes ks [] n → r.nodes.lookup n = some v →
      ∀ k ∈ uses v, k ∈ ks ∨
        ∃ m w, r.Line uses makes ks [] m ∧ r.nodes.lookup m = some w ∧ k ∈ makes w :=
  tight_iff_of_gone [] h.sub hr ht
    (fun n v hn => by simpa using h.dropped_iff hr ht.held hn)
    (fun k hk => h.freed_iff hr ht.held hk) (by simp)

end Sweep

end Registry

end BitcoinNode
