/-
# Rings in a heap

A heap is read through the link functions `next` and `prev` of its nodes.
`Arc next prev a l b`: from `a` the links `next` lead through `l` to `b`, and
`prev` leads back. `Ring next prev z l`: from the sentinel `z` through `l` to
`z` again, no node twice; the empty ring is the sentinel linked to itself.

As for lists, the edits are stated about the link functions after the edit:
`Ring.insert` (a new first node), `Ring.remove` (a node leaves, wherever it
stands). The first and the last node are the neighbours of the sentinel
(`Ring.first`, `Ring.last`).
-/
import Mathlib.Data.List.Nodup
import Mathlib.Data.Nat.Notation
import Mathlib.Tactic

namespace Lib

variable {α : Type} {next prev next' prev' : α → α} {z a b x : α} {l l₁ l₂ : List α}

/-- From `a` through `l` to `b`, and back. -/
def Arc (next prev : α → α) : α → List α → α → Prop
  | a, [], b => next a = b ∧ prev b = a
  | a, x :: l, b => next a = x ∧ prev x = a ∧ Arc next prev x l b

namespace Arc

theorem append : Arc next prev a (l₁ ++ x :: l₂) b ↔ Arc next prev a l₁ x ∧ Arc next prev x l₂ b := by
  induction l₁ generalizing a with
  | nil => exact and_assoc.symm
  | cons y l₁ ih =>
    constructor
    · intro ⟨h1, h2, h3⟩
      obtain ⟨h4, h5⟩ := ih.mp h3
      exact ⟨⟨h1, h2, h4⟩, h5⟩
    · intro ⟨⟨h1, h2, h4⟩, h5⟩
      exact ⟨h1, h2, ih.mpr ⟨h4, h5⟩⟩

/-- A heap with the same links along the way. -/
theorem congr (h : Arc next prev a l b) (hn : ∀ y ∈ a :: l, next' y = next y) (hp : ∀ y ∈ l ++ [b], prev' y = prev y) :
    Arc next' prev' a l b := by
  induction l generalizing a with
  | nil => exact ⟨(hn a (by simp)).trans h.1, (hp b (by simp)).trans h.2⟩
  | cons y l ih =>
    obtain ⟨h1, h2, h3⟩ := h
    refine ⟨(hn a (by simp)).trans h1, (hp y (by simp)).trans h2, ih h3 ?_ ?_⟩
    · exact fun c hc => hn c (List.mem_cons_of_mem a hc)
    · exact fun c hc => hp c (List.mem_cons_of_mem y hc)

theorem next_mem (h : Arc next prev a l b) : next a ∈ l ++ [b] := by
  cases l with
  | nil => rw [h.1]; simp
  | cons y l => rw [h.1]; simp

theorem prev_mem (h : Arc next prev a l b) : prev b ∈ a :: l := by
  induction l generalizing a with
  | nil => rw [h.2]; simp
  | cons y l ih => exact List.mem_cons_of_mem a (ih h.2.2)

end Arc

/-- The sentinel `z` with the nodes `l`. -/
structure Ring (next prev : α → α) (z : α) (l : List α) : Prop where
  arc : Arc next prev z l z
  nodup : (z :: l).Nodup

namespace Ring

theorem empty (hn : next z = z) (hp : prev z = z) : Ring next prev z [] := ⟨⟨hn, hp⟩, List.nodup_singleton z⟩

theorem first (h : Ring next prev z (x :: l)) : next z = x := h.arc.1

theorem last (h : Ring next prev z (l ++ [x])) : prev z = x := (Arc.append.mp h.arc).2.2

theorem congr (h : Ring next prev z l) (hn : ∀ y ∈ z :: l, next' y = next y) (hp : ∀ y ∈ z :: l, prev' y = prev y) :
    Ring next' prev' z l := by
  refine ⟨h.arc.congr hn fun y hy => hp y ?_, h.nodup⟩
  rcases List.mem_append.mp hy with hy | hy
  · exact List.mem_cons_of_mem z hy
  · rw [List.mem_singleton.mp hy]
    exact List.mem_cons_self

/-- A new first node. -/
theorem insert [DecidableEq α] (h : Ring next prev z l) (hx : x ∉ z :: l)
    (hn : ∀ y ∈ x :: z :: l, next' y = if y = z then x else if y = x then next z else next y)
    (hp : ∀ y ∈ x :: z :: l, prev' y = if y = next z then x else if y = x then z else prev y) :
    Ring next' prev' z (x :: l) := by
  obtain ⟨hxz, hxl⟩ := not_or.mp (mt List.mem_cons.mpr hx)
  obtain ⟨hzl, hnd⟩ := List.nodup_cons.mp h.nodup
  have hnz : x ≠ next z := fun he => by
    rcases List.mem_append.mp (he ▸ h.arc.next_mem) with hm | hm
    · exact hxl hm
    · exact hxz (List.mem_singleton.mp hm)
  have hnextz : next' z = x := by rw [hn z (by simp), if_pos rfl]
  have hnextx : next' x = next z := by rw [hn x (by simp), if_neg hxz, if_pos rfl]
  have hprevx : prev' x = z := by rw [hp x (by simp), if_neg hnz, if_pos rfl]
  refine ⟨⟨hnextz, hprevx, ?_⟩, ?_⟩
  · cases l with
    | nil =>
      refine ⟨hnextx.trans h.arc.1, ?_⟩
      rw [hp z (by simp), if_pos h.arc.1.symm]
    | cons y l =>
      obtain ⟨h1, h2, h3⟩ := h.arc
      obtain ⟨hyl, -⟩ := List.nodup_cons.mp hnd
      have hyz : z ≠ y := fun he => hzl (he ▸ List.mem_cons_self)
      refine ⟨hnextx.trans h1, ?_, h3.congr (fun c hc => ?_) fun c hc => ?_⟩
      · rw [hp y (by simp), if_pos h1.symm]
      · rw [hn c (by simp only [List.mem_cons] at hc ⊢; tauto), if_neg (ne_of_mem_of_not_mem hc hzl),
          if_neg (ne_of_mem_of_not_mem hc hxl)]
      · have hcy : c ≠ y := by
          rcases List.mem_append.mp hc with hc | hc
          · exact ne_of_mem_of_not_mem hc hyl
          · rwa [List.mem_singleton.mp hc]
        have hcx : c ≠ x := by
          rcases List.mem_append.mp hc with hc | hc
          · exact ne_of_mem_of_not_mem (List.mem_cons_of_mem y hc) hxl
          · rw [List.mem_singleton.mp hc]
            exact Ne.symm hxz
        have hmem : c ∈ x :: z :: y :: l := by
          rcases List.mem_append.mp hc with hc | hc
          · simp [hc]
          · simp [List.mem_singleton.mp hc]
        rw [hp c hmem, h1, if_neg hcy, if_neg hcx]
  · refine List.nodup_cons.mpr ⟨?_, List.nodup_cons.mpr ⟨hxl, hnd⟩⟩
    intro hz
    rcases List.mem_cons.mp hz with hz | hz
    · exact hxz hz.symm
    · exact hzl hz

end Ring

/-- The arc without the node `x`: its neighbours are linked to each other. -/
theorem Arc.remove [DecidableEq α] (h : Arc next prev a (l₁ ++ x :: l₂) b) (hnd : (l₁ ++ x :: l₂).Nodup)
    (ha : a ∉ l₁ ++ x :: l₂) (hb : b ∉ l₁ ++ x :: l₂)
    (hn : ∀ y ∈ a :: (l₁ ++ l₂), next' y = if y = prev x then next x else next y)
    (hp : ∀ y ∈ (l₁ ++ l₂) ++ [b], prev' y = if y = next x then prev x else prev y) :
    Arc next' prev' a (l₁ ++ l₂) b := by
  induction l₁ generalizing a with
  | nil =>
    obtain ⟨h1, h2, h3⟩ := h
    obtain ⟨hx, hnd⟩ := List.nodup_cons.mp hnd
    rw [List.nil_append] at hn hp ha hb ⊢
    have hna : next' a = next x := by rw [hn a (by simp), if_pos h2.symm]
    cases l₂ with
    | nil =>
      refine ⟨hna.trans h3.1, ?_⟩
      rw [hp b (by simp), if_pos h3.1.symm, h2]
    | cons y l₂ =>
      obtain ⟨h4, h5, h6⟩ := h3
      refine ⟨hna.trans h4, ?_, h6.congr (fun c hc => ?_) fun c hc => ?_⟩
      · rw [hp y (by simp), if_pos h4.symm, h2]
      · rw [hn c (List.mem_cons_of_mem a hc), if_neg]
        rw [h2]
        exact ne_of_mem_of_not_mem (List.mem_cons_of_mem x hc) ha
      · rw [hp c (List.mem_cons_of_mem y hc), if_neg]
        rw [h4]
        rcases List.mem_append.mp hc with hc | hc
        · exact ne_of_mem_of_not_mem hc (List.nodup_cons.mp hnd).1
        · rw [List.mem_singleton.mp hc]
          exact fun he => hb (by rw [he]; simp)
  | cons c l₁ ih =>
    obtain ⟨h1, h2, h3⟩ := h
    obtain ⟨hc, hnd⟩ := List.nodup_cons.mp hnd
    obtain ⟨h4, h5⟩ := Arc.append.mp h3
    refine ⟨?_, ?_, ih h3 hnd hc (fun hb' => hb (List.mem_cons_of_mem c hb')) ?_ ?_⟩
    · rw [hn a (by simp), if_neg, h1]
      rintro rfl
      apply ha
      rcases List.mem_cons.mp h4.prev_mem with hm | hm
      · rw [hm]
        exact List.mem_cons_self
      · exact List.mem_cons_of_mem c (List.mem_append_left _ hm)
    · rw [hp c (by simp), if_neg, h2]
      rintro rfl
      rcases List.mem_append.mp h5.next_mem with hm | hm
      · exact hc (List.mem_append_right l₁ (List.mem_cons_of_mem x hm))
      · rw [List.mem_singleton.mp hm] at hb
        exact hb List.mem_cons_self
    · exact fun y hy => hn y (List.mem_cons_of_mem a hy)
    · exact fun y hy => hp y (List.mem_cons_of_mem c hy)

/-- A node leaves the ring, wherever it stands. -/
theorem Ring.remove [DecidableEq α] (h : Ring next prev z (l₁ ++ x :: l₂))
    (hn : ∀ y ∈ z :: (l₁ ++ l₂), next' y = if y = prev x then next x else next y)
    (hp : ∀ y ∈ z :: (l₁ ++ l₂), prev' y = if y = next x then prev x else prev y) :
    Ring next' prev' z (l₁ ++ l₂) := by
  obtain ⟨hz, hnd⟩ := List.nodup_cons.mp h.nodup
  have hsub : (l₁ ++ l₂).Sublist (l₁ ++ x :: l₂) := (List.sublist_cons_self x l₂).append_left l₁
  refine ⟨h.arc.remove hnd hz hz hn fun y hy => hp y ?_, List.nodup_cons.mpr ⟨fun hm => hz (hsub.subset hm), hnd.sublist hsub⟩⟩
  rcases List.mem_append.mp hy with hy | hy
  · exact List.mem_cons_of_mem z hy
  · rw [List.mem_singleton.mp hy]
    exact List.mem_cons_self

/-- The links of a node lead to nodes. -/
theorem Ring.links_mem (h : Ring next prev z l) (hx : x ∈ z :: l) : next x ∈ z :: l ∧ prev x ∈ z :: l := by
  have hback : ∀ {y}, y ∈ l ++ [z] → y ∈ z :: l := fun hy => by
    rcases List.mem_append.mp hy with hy | hy
    · exact List.mem_cons_of_mem z hy
    · rw [List.mem_singleton.mp hy]
      exact List.mem_cons_self
  rcases List.mem_cons.mp hx with rfl | hx
  · exact ⟨hback h.arc.next_mem, h.arc.prev_mem⟩
  · obtain ⟨l₁, l₂, rfl⟩ := List.append_of_mem hx
    obtain ⟨h1, h2⟩ := Arc.append.mp h.arc
    refine ⟨?_, ?_⟩
    · rcases List.mem_append.mp h2.next_mem with hm | hm
      · simp [hm]
      · simp [List.mem_singleton.mp hm]
    · rcases List.mem_cons.mp h1.prev_mem with hm | hm
      · simp [hm]
      · simp [hm]

end Lib
