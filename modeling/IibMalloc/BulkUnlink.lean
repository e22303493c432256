/-
# BulkAllocator: deletion from a free list

`removeFromFreeList` is given an item and no list. Where the item is the first
of its list, the list is found through the page count of the item, which is why
every list has chunks of one class only: those of `i + 1` pages, and in the last
list all that are larger (`FreeFamily`). Then the item and no other leaves its
list, and nothing of the other lists changes (`removeFromFreeList_exact`).
-/
import IibMalloc.BulkRuns
import IibMalloc.BulkValid

namespace IibMalloc

open Lib AnyChunkHeader

namespace BulkAllocator

/-- Free lists of chunks that each have the page count of their list. -/
structure FreeFamily (cfg : BulkCfg) (s : St BulkAllocator) (ls : ℕ → List ℕ) : Prop
    extends LinkedLists cfg s ls where
  pages : ∀ i ≤ cfg.max_pages, ∀ a ∈ ls i,
    if i < cfg.max_pages then getPageCount s.w.mem a = i + 1 else cfg.max_pages < getPageCount s.w.mem a

variable {cfg : BulkCfg} {s : St BulkAllocator} {ls : ℕ → List ℕ} {i a b : ℕ}

namespace FreeFamily

/-- The page count of a chunk tells its list. -/
theorem listOf_eq (h : FreeFamily cfg s ls) (hi : i ≤ cfg.max_pages) (ha : a ∈ ls i) :
    listOf cfg (getPageCount s.w.mem a) = i := by
  have hp := h.pages i hi a ha
  split_ifs at hp with hlt
  · rw [BulkAllocator.listOf_eq (by omega) (getPageCount_lt s.w.mem a), hp, if_neg (by omega), Nat.add_sub_cancel]
  · rw [BulkAllocator.listOf_eq (by omega) (getPageCount_lt s.w.mem a), if_pos hp]
    omega

/-- The chunks of a list are of one class. -/
theorem sameClass (h : FreeFamily cfg s ls) (hi : i ≤ cfg.max_pages) (ha : a ∈ ls i) (hb : b ∈ ls i) :
    sameClass cfg s.w.mem a b = true := by
  have hpa := h.pages i hi a ha
  have hpb := h.pages i hi b hb
  apply decide_eq_true
  split_ifs at hpa hpb with hlt
  · exact Or.inl (hpa.trans hpb.symm)
  · exact Or.inr ⟨hpa, hpb⟩

end FreeFamily

/-- **`removeFromFreeList` is exact deletion.** The list of the item, wherever
the item stands in it, is the list there was without it, no other list has
changed, and no assertion failed. -/
theorem removeFromFreeList_exact (h : FreeFamily cfg s ls) (hi : i ≤ cfg.max_pages) (ha : a ∈ ls i) :
    Act.wp (removeFromFreeList cfg a)
      (fun _ t => FreeFamily cfg t (setList ls i ((ls i).erase a)) ∧
        (∀ j ≤ cfg.max_pages, j ≠ i → t.c.freeListBegin j = s.c.freeListBegin j ∧
          ∀ b ∈ ls j, ∀ k < 32, t.w.mem (b + k) = s.w.mem (b + k)) ∧
        t.w.assertsHold = s.w.assertsHold) (fun _ => False) s := by
  refine Act.wp_mono (h.toLinkedLists.remove hi ha (h.listOf_eq hi ha)) ?_ fun _ ht => ht
  intro _ t ht
  obtain ⟨hL, hE, hbegin, hassert⟩ := ht
  refine ⟨⟨hL, fun j hj b hb => ?_⟩, fun j hj hne => ⟨hbegin j hne, fun b hb k hk => ?_⟩,
    hassert fun b hb => h.sameClass hi ha hb⟩
  · have hbj : b ∈ ls j := by
      by_cases hji : j = i
      · subst hji
        rw [setList_self] at hb
        exact List.mem_of_mem_erase hb
      · rwa [setList_ne hji] at hb
    rw [h.toLinkedLists.pages hi hE hj hbj]
    exact h.pages j hj b hbj
  · apply hE.mem
    intro ⟨c, hc, hw⟩
    have hbc : b = c := by
      rcases hw with hw | hw
      · exact ((h.word_eq hj hi hb hc hk (by omega)).mp hw).1
      · exact ((h.word_eq hj hi hb hc hk (by omega)).mp hw).1
    exact hne (h.once j hj i hi b hb (hbc ▸ hc))

/-- Three chunks of 40 pages, larger than any request, on the last list. -/
def threeLarge : St BulkAllocator where
  w :=
    { calls := [.allocate 4096 12288]
      mem := fun x =>
        if x = 4096 ∨ x = 8192 ∨ x = 12288 then 40
        else if x = 8192 + 16 then 4096 else if x = 12288 + 16 then 8192
        else if x = 4096 + 24 then 8192 else if x = 8192 + 24 then 12288 else 0
      assertsHold := true }
  c := { raw with freeListBegin := fun i => if i = 32 then 4096 else 0 }

theorem threeLarge_family :
    FreeFamily bulkAllocatorT threeLarge fun i => if i = 32 then [4096, 8192, 12288] else [] := by
  have hmem : ∀ {i a : ℕ}, a ∈ (if i = 32 then [4096, 8192, 12288] else []) →
      i = 32 ∧ (a = 4096 ∨ a = 8192 ∨ a = 12288) := fun {i a} ha => by
    split_ifs at ha with hi
    · exact ⟨hi, by simpa using ha⟩
    · cases ha
  refine ⟨⟨fun i hi => ?_, fun i hi j hj a ha ha' => ?_, fun i hi a ha k hk => ?_, fun i hi j hj a ha b hb hne => ?_⟩,
    fun i hi a ha => ?_⟩
  · by_cases h32 : i = 32
    · subst h32
      exact ⟨rfl, by decide, rfl, rfl, by decide, rfl, rfl, by decide, rfl, rfl⟩
    · simp only [threeLarge, if_neg h32]
      rfl
  · exact (hmem ha).1.trans (hmem ha').1.symm
  · have := (hmem ha).2
    exact if_pos ⟨by omega, by omega⟩
  · have := (hmem ha).2
    have := (hmem hb).2
    omega
  · obtain ⟨hi32, hcases⟩ := hmem ha
    rw [hi32, if_neg (by decide)]
    rcases hcases with rfl | rfl | rfl
    · decide
    · decide
    · decide

/-- The chunk in the middle leaves. -/
theorem removeFromFreeList_middle :
    Act.wp (removeFromFreeList bulkAllocatorT 8192)
      (fun _ t => t.c.freeListBegin 32 = 4096 ∧ nextFree t.w.mem 4096 = 12288 ∧ prevFree t.w.mem 12288 = 4096 ∧
        t.w.assertsHold = true) (fun _ => False) threeLarge := by
  refine Act.wp_mono (removeFromFreeList_exact (i := 32) threeLarge_family (by decide) (by simp)) ?_ fun _ ht => ht
  intro _ t ht
  obtain ⟨hF, -, hassert⟩ := ht
  have hd := hF.dlist 32 (by decide)
  rw [setList_self, if_pos rfl, show [4096, 8192, 12288].erase 8192 = [4096, 12288] from rfl] at hd
  obtain ⟨hbegin, -, -, hnext, -, hprev, -⟩ := hd
  exact ⟨hbegin, hbegin ▸ hnext, hnext ▸ hprev, hassert⟩

end BulkAllocator

end IibMalloc
