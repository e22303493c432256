/-
# Linked lists in a heap

A heap is read through the link functions `next` and `prev` of its nodes, and
`z` is the null link. `Chain next z p l`: following `next` from `p` visits
exactly the nodes `l` and then finds `z`. `DList next prev z q p l`: the same,
and `prev` of each node is the node before it (`q` for the first).

A chain is determined by its start (`Chain.unique`), so it has no node twice
(`Chain.nodup`): a list that ends is acyclic. The edits of a list are stated
about the link functions after the edit, so that any heap with these reads can
use them: `Chain.congr`, `DList.congr` (frame), `DList.push`, `DList.pop`,
`DList.remove`.
-/
import Mathlib.Data.List.Nodup
import Mathlib.Data.Nat.Notation

namespace Lib

variable {α : Type} {next prev next' prev' : α → α} {z : α}

/-- Following `next` from `p` visits `l` and ends in `z`. -/
def Chain (next : α → α) (z : α) : α → List α → Prop
  | p, [] => p = z
  | p, a :: l => p = a ∧ a ≠ z ∧ Chain next z (next a) l

@[simp] theorem chain_nil {p : α} : Chain next z p [] ↔ p = z := Iff.rfl

@[simp] theorem chain_cons {p a : α} {l : List α} :
    Chain next z p (a :: l) ↔ p = a ∧ a ≠ z ∧ Chain next z (next a) l := Iff.rfl

namespace Chain

theorem start {p : α} {l : List α} (h : Chain next z p l) : p = l.headD z := by
  cases l with
  | nil => exact h
  | cons a l => exact h.1

theorem ne_null {p : α} : ∀ {l : List α}, Chain next z p l → ∀ a ∈ l, a ≠ z
  | [], _, a, ha => by cases ha
  | b :: l, h, a, ha => by
    rcases List.mem_cons.mp ha with rfl | ha
    · exact h.2.1
    · exact ne_null h.2.2 a ha

/-- The start determines the chain. -/
theorem unique : ∀ {p : α} {l l' : List α}, Chain next z p l → Chain next z p l' → l = l'
  | _, [], [], _, _ => rfl
  | _, [], _ :: _, h, h' => absurd (h'.1.symm.trans h) h'.2.1
  | _, _ :: _, [], h, h' => absurd (h.1.symm.trans h') h.2.1
  | _, a :: l, b :: l', h, h' => by
    obtain rfl : a = b := h.1.symm.trans h'.1
    rw [unique h.2.2 h'.2.2]

/-- The rest of a chain from one of its nodes. -/
theorem suffix : ∀ {l₁ : List α} {p a : α} {l₂ : List α}, Chain next z p (l₁ ++ a :: l₂) →
    Chain next z a (a :: l₂)
  | [], _, _, _, h => ⟨rfl, h.2⟩
  | _ :: _, _, _, _, h => suffix h.2.2

/-- A chain that ends has no node twice. -/
theorem nodup : ∀ {p : α} {l : List α}, Chain next z p l → l.Nodup
  | _, [], _ => List.nodup_nil
  | _, a :: l, h => by
    refine List.nodup_cons.mpr ⟨fun ha => ?_, nodup h.2.2⟩
    obtain ⟨l₁, l₂, rfl⟩ := List.append_of_mem ha
    have h1 : Chain next z a (a :: l₂) := suffix h.2.2
    have h2 : Chain next z a (a :: (l₁ ++ a :: l₂)) := ⟨rfl, h.2⟩
    have := congrArg List.length (unique h1 h2)
    simp only [List.length_cons, List.length_append] at this
    omega

/-- A heap whose links agree on the nodes has the same chain. -/
theorem congr : ∀ {p : α} {l : List α}, Chain next z p l → (∀ a ∈ l, next' a = next a) →
    Chain next' z p l
  | _, [], h, _ => h
  | _, a :: l, h, he => by
    refine ⟨h.1, h.2.1, ?_⟩
    rw [he a List.mem_cons_self]
    exact congr h.2.2 fun b hb => he b (List.mem_cons_of_mem _ hb)

/-- The link of a node is a node or null. -/
theorem next_mem : ∀ {p : α} {l : List α}, Chain next z p l → ∀ a ∈ l, next a ∈ l ∨ next a = z
  | _, [], _, a, ha => by cases ha
  | _, b :: l, h, a, ha => by
    rcases List.mem_cons.mp ha with rfl | ha
    · cases l with
      | nil => exact Or.inr h.2.2
      | cons c l => exact Or.inl (by rw [h.2.2.1]; simp)
    · exact (next_mem h.2.2 a ha).imp (List.mem_cons_of_mem _) id

end Chain

/-- Following `next` from `p` visits `l` and ends in `z`; `prev` of each node
is the one before, `q` for the first. -/
def DList (next prev : α → α) (z : α) : α → α → List α → Prop
  | _, p, [] => p = z
  | q, p, a :: l => p = a ∧ a ≠ z ∧ prev a = q ∧ DList next prev z a (next a) l

namespace DList

theorem toChain : ∀ {q p : α} {l : List α}, DList next prev z q p l → Chain next z p l
  | _, _, [], h => h
  | _, _, _ :: _, h => ⟨h.1, h.2.1, h.2.2.2.toChain⟩

theorem nodup {q p : α} {l : List α} (h : DList next prev z q p l) : l.Nodup := h.toChain.nodup

theorem congr : ∀ {q p : α} {l : List α}, DList next prev z q p l →
    (∀ a ∈ l, next' a = next a ∧ prev' a = prev a) → DList next' prev' z q p l
  | _, _, [], h, _ => h
  | _, _, a :: l, h, he => by
    have ha := he a List.mem_cons_self
    refine ⟨h.1, h.2.1, ha.2.trans h.2.2.1, ?_⟩
    rw [ha.1]
    exact congr h.2.2.2 fun b hb => he b (List.mem_cons_of_mem _ hb)

/-- `prev` of a node other than the first is a node, whose `next` it is. -/
theorem prev_mem : ∀ {q p : α} {l : List α}, DList next prev z q p l → ∀ a ∈ l, a ≠ p →
    prev a ∈ l ∧ next (prev a) = a
  | _, _, [], _, a, ha, _ => by cases ha
  | _, _, b :: l, h, a, ha, hne => by
    rcases List.mem_cons.mp ha with rfl | ha
    · exact absurd h.1.symm hne
    · by_cases hb : a = next b
      · have : prev a = b := by
          cases l with
          | nil => cases ha
          | cons c l =>
            obtain ⟨hc, -, hp, -⟩ := h.2.2.2
            rw [hb, hc, hp]
        rw [this]
        exact ⟨List.mem_cons_self, hb.symm⟩
      · obtain ⟨h1, h2⟩ := prev_mem h.2.2.2 a ha hb
        exact ⟨List.mem_cons_of_mem _ h1, h2⟩

/-- `next` of a node is null or a node, whose `prev` it is. -/
theorem next_prev : ∀ {q p : α} {l : List α}, DList next prev z q p l → ∀ a ∈ l,
    next a = z ∨ next a ∈ l ∧ prev (next a) = a
  | _, _, [], _, a, ha => by cases ha
  | _, _, b :: l, h, a, ha => by
    rcases List.mem_cons.mp ha with rfl | ha
    · cases l with
      | nil => exact Or.inl h.2.2.2
      | cons c l =>
        obtain ⟨hc, -, hp, -⟩ := h.2.2.2
        exact Or.inr ⟨by rw [hc]; simp, by rw [hc, hp]⟩
    · exact (next_prev h.2.2.2 a ha).imp_right fun h => ⟨List.mem_cons_of_mem _ h.1, h.2⟩

/-- A new first node. -/
theorem push {q p x : α} {l : List α} (h : DList next prev z q p l) (hx : x ≠ z) (hxl : x ∉ l)
    (hn : next' x = p) (hp : prev' x = q) (hpp : p ≠ z → prev' p = x)
    (hl : ∀ a ∈ l, next' a = next a ∧ (a ≠ p → prev' a = prev a)) :
    DList next' prev' z q x (x :: l) := by
  refine ⟨rfl, hx, hp, ?_⟩
  rw [hn]
  cases l with
  | nil => exact h
  | cons a l =>
    have hnd := h.nodup
    obtain ⟨rfl, h2, h3, h4⟩ := h
    refine ⟨rfl, h2, hpp h2, ?_⟩
    rw [(hl p List.mem_cons_self).1]
    refine h4.congr fun b hb => ?_
    have hb' := hl b (List.mem_cons_of_mem _ hb)
    exact ⟨hb'.1, hb'.2 fun he => (List.nodup_cons.mp hnd).1 (he ▸ hb)⟩

/-- The list without its first node. -/
theorem pop {q p : α} {l : List α} (h : DList next prev z q p (p :: l))
    (hpp : next p ≠ z → prev' (next p) = q)
    (hl : ∀ a ∈ l, next' a = next a ∧ (a ≠ next p → prev' a = prev a)) :
    DList next' prev' z q (next p) l := by
  have hnd := h.nodup
  obtain ⟨-, -, -, h⟩ := h
  cases l with
  | nil => exact h
  | cons a l =>
    obtain ⟨h1, h2, h3, h4⟩ := h
    refine ⟨h1, h2, ?_, ?_⟩
    · rw [← h1]; exact hpp (by rw [h1]; exact h2)
    · rw [(hl a List.mem_cons_self).1]
      have hnd' : a ∉ l := (List.nodup_cons.mp (List.nodup_cons.mp hnd).2).1
      refine h4.congr fun b hb => ?_
      have hb' := hl b (List.mem_cons_of_mem _ hb)
      exact ⟨hb'.1, hb'.2 fun he => hnd' (by rw [← h1, ← he]; exact hb)⟩

/-- The list without the node `x`, wherever it stands: its neighbours are
linked to each other. -/
theorem remove [DecidableEq α] {x : α} : ∀ {q p : α} {l : List α}, DList next prev z q p l →
    x ∈ l → q ∉ l →
    (∀ a ∈ l, a ≠ x → next' a = if a = prev x then next x else next a) →
    (∀ a ∈ l, a ≠ x → prev' a = if a = next x then prev x else prev a) →
    DList next' prev' z q (if p = x then next x else p) (l.erase x)
  | _, _, [], _, hx, _, _, _ => by cases hx
  | q, p, b :: l, h, hx, hq, hn, hp => by
    have hnd := List.nodup_cons.mp h.nodup
    by_cases hb : b = x
    · subst hb
      rw [if_pos h.1, List.erase_cons_head]
      have hne : ∀ a ∈ l, a ≠ b := fun a ha he => hnd.1 (he ▸ ha)
      have hn' : ∀ a ∈ l, next' a = next a := fun a ha => by
        have haq : a ≠ prev b := by
          rw [h.2.2.1]
          exact fun he => hq (he ▸ List.mem_cons_of_mem _ ha)
        rw [hn a (List.mem_cons_of_mem _ ha) (hne a ha), if_neg haq]
      cases l with
      | nil => exact h.2.2.2
      | cons c l =>
        obtain ⟨h1, h2, h3, h4⟩ := h.2.2.2
        refine ⟨h1, h2, ?_, ?_⟩
        · rw [hp c (by simp) (hne c (by simp)), if_pos h1.symm]
          exact h.2.2.1
        · rw [hn' c (by simp)]
          refine h4.congr fun a ha => ⟨hn' a (List.mem_cons_of_mem _ ha), ?_⟩
          have hac : a ≠ next b := by
            rw [h1]
            exact fun he => (List.nodup_cons.mp hnd.2).1 (he ▸ ha)
          rw [hp a (by simp [ha]) (hne a (by simp [ha])), if_neg hac]
    · have hxl : x ∈ l := (List.mem_cons.mp hx).resolve_left (Ne.symm hb)
      have hpx : p ≠ x := h.1 ▸ hb
      rw [if_neg hpx, List.erase_cons_tail (by simpa using hb)]
      have ih := remove h.2.2.2 hxl hnd.1 (fun a ha => hn a (List.mem_cons_of_mem _ ha))
        fun a ha => hp a (List.mem_cons_of_mem _ ha)
      refine ⟨h.1, h.2.1, ?_, ?_⟩
      · have hbn : b ≠ next x := fun he => by
          rcases h.2.2.2.toChain.next_mem x hxl with h1 | h1
          · exact hnd.1 (he ▸ h1)
          · exact h.2.1 (he.trans h1)
        rw [hp b List.mem_cons_self hb, if_neg hbn]
        exact h.2.2.1
      · rw [hn b List.mem_cons_self hb]
        by_cases hf : next b = x
        · have hpb : prev x = b := by
            cases l with
            | nil => cases hxl
            | cons c l =>
              obtain ⟨h1, -, h3, -⟩ := h.2.2.2
              rw [← hf, h1, h3]
          rw [if_pos hpb.symm]
          rwa [if_pos hf] at ih
        · have hpb : b ≠ prev x := fun he => by
            have := (h.2.2.2.prev_mem x hxl (Ne.symm hf)).1
            exact hnd.1 (he ▸ this)
          rw [if_neg hpb]
          rwa [if_neg hf] at ih

end DList

end Lib
