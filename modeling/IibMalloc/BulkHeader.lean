/-
# AnyChunkHeader: a pointer and a number in one word

The page count of a chunk is added to the page-aligned address of the chunk
before it, the flag `isFree` to that of the chunk after it, and the accessors
take them apart again. This works while the count stays below the page size
(`set_reads_back`). The `static_assert`s of `BulkAllocator` bound `max_pages`
by it, but not the pages of a block, which `set` admits as a count:
`packs_iff` says for which blocks every header that `set` admits is read back.
-/
import IibMalloc.BulkBlock

namespace IibMalloc

open Lib

namespace AnyChunkHeader

/-- A pointer and a count below the page size, in one word. -/
theorem packed {p k : ℕ} (hp : 4096 ∣ p) (hlt : p < 2 ^ 64) (hk : k < 4096) :
    u64 (p + k) &&& not64 PAGE_SIZE_MASK = p ∧ u64 (p + k) &&& PAGE_SIZE_MASK = k := by
  have hsum : p + k < 2 ^ 64 := by omega
  rw [u64_of_lt hsum, and_page_mask, and_not_page_mask hsum]
  omega

variable {cfg : BulkCfg} {C : Type} {s : St C} {h p prev next pageCount : ℕ} {free : Bool}

/-- A header is read back while the count stays below the page size. -/
theorem set_reads_back (h0 : pageState s.w.calls h = .committed) (h8 : pageState s.w.calls (h + 8) = .committed)
    (hp : 4096 ∣ prev) (hplt : prev < 2 ^ 64) (hn : 4096 ∣ next) (hnlt : next < 2 ^ 64) (hk : pageCount < 4096) :
    Act.wp (set cfg h prev next pageCount free)
      (fun _ t => prevInBlock t.w.mem h = prev ∧ nextInBlock t.w.mem h = next ∧
        getPageCount t.w.mem h = pageCount ∧ isFree t.w.mem h = free) (fun _ => False) s := by
  obtain ⟨h1, h2⟩ := packed hp hplt hk
  obtain ⟨h3, h4⟩ := packed (k := free.toNat) hn hnlt (by have := Bool.toNat_le free; omega)
  unfold set
  simp only [Act.wp_bind, Act.wp_assert, Act.wp_storeWord]
  refine ⟨h0, h8, ?_⟩
  unfold prevInBlock nextInBlock getPageCount isFree
  rw [store_ne (by omega), store_self, store_self, h1, h2, h3, h4, u16_of_lt (by omega)]
  refine ⟨rfl, rfl, rfl, ?_⟩
  cases free
  · rfl
  · rfl

/-- `setPrevInBlock` writes one word of the header, and keeps the count in it. -/
theorem setPrevInBlock_spec (h0 : pageState s.w.calls h = .committed) (hp : 4096 ∣ p) (hlt : p < 2 ^ 64) :
    Act.wp (setPrevInBlock h p)
      (fun _ t => prevInBlock t.w.mem h = p ∧ getPageCount t.w.mem h = getPageCount s.w.mem h ∧
        ∀ x, x ≠ h → t.w.mem x = s.w.mem x) (fun _ => False) s := by
  have hk : s.w.mem h &&& PAGE_SIZE_MASK < 4096 := by
    rw [and_page_mask]
    omega
  have hself : p &&& not64 PAGE_SIZE_MASK = p := by
    rw [and_not_page_mask hlt]
    omega
  obtain ⟨h1, h2⟩ := packed hp hlt hk
  unfold setPrevInBlock
  simp only [Act.wp_bind, Act.wp_assert, Act.wp_loadWord, Act.wp_storeWord, hself]
  refine ⟨h0, h0, ?_, ?_, fun x hx => store_ne hx⟩
  · unfold prevInBlock
    rw [store_self, h1]
  · unfold getPageCount
    rw [store_self, h2]

/-- Every header that `set` admits is read back, and `setPrevInBlock` changes
`prevInBlock` only. -/
def Packs (cfg : BulkCfg) : Prop :=
  ∀ (C : Type) (s : St C) (h : ℕ), pageState s.w.calls h = .committed → pageState s.w.calls (h + 8) = .committed →
    (∀ prev next pageCount free, 4096 ∣ prev → prev < 2 ^ 64 → 4096 ∣ next → next < 2 ^ 64 → pageCount < 2 ^ 16 →
      pageCount ≤ cfg.commited_block_size >>> PAGE_SIZE_EXP →
      Act.wp (set cfg h prev next pageCount free)
        (fun _ t => prevInBlock t.w.mem h = prev ∧ nextInBlock t.w.mem h = next ∧
          getPageCount t.w.mem h = pageCount ∧ isFree t.w.mem h = free) (fun _ => False) s) ∧
    ∀ p, 4096 ∣ p → p < 2 ^ 64 →
      Act.wp (setPrevInBlock h p)
        (fun _ t => prevInBlock t.w.mem h = p ∧ nextInBlock t.w.mem h = nextInBlock s.w.mem h ∧
          getPageCount t.w.mem h = getPageCount s.w.mem h ∧ isFree t.w.mem h = isFree s.w.mem h) (fun _ => False) s

/-- Where blocks have 4096 pages or more, `set` admits the count 4096; it is
read back as 0, and the pointer as one page further. -/
theorem not_packs_of_le (hge : 4096 ≤ cfg.commited_block_size >>> PAGE_SIZE_EXP) : ¬ Packs cfg := by
  intro hall
  have hset := (hall Unit ⟨⟨[.allocate 4096 4096], fun _ => 0, true⟩, ()⟩ 4096 (by decide) (by decide)).1
    0 0 4096 true (by decide) (by decide) (by decide) (by decide) (by decide) hge
  unfold set at hset
  simp only [Act.wp_bind, Act.wp_assert, Act.wp_storeWord] at hset
  obtain ⟨-, -, hprev, -⟩ := hset
  unfold prevInBlock at hprev
  rw [store_ne (by decide), store_self] at hprev
  exact absurd hprev (by decide)

/-- The headers are right exactly where a block has fewer pages than a page has
bytes. -/
theorem packs_iff (cfg : BulkCfg) : Packs cfg ↔ cfg.commited_block_size >>> PAGE_SIZE_EXP < PAGE_SIZE := by
  rw [PAGE_SIZE_eq]
  constructor
  · intro hall
    by_contra hge
    exact not_packs_of_le (Nat.not_lt.mp hge) hall
  · intro hlt C s h h0 h8
    refine ⟨fun prev next pageCount free hp hplt hn hnlt _ hk => ?_, fun p hp hplt => ?_⟩
    · exact set_reads_back h0 h8 hp hplt hn hnlt (by omega)
    · refine Act.wp_mono (setPrevInBlock_spec h0 hp hplt) ?_ fun _ ht => ht
      intro _ t ⟨h1, h2, h3⟩
      have hnext : t.w.mem (h + 8) = s.w.mem (h + 8) := h3 _ (by omega)
      unfold nextInBlock isFree
      rw [hnext]
      exact ⟨h1, rfl, h2, rfl⟩

/-- The smallest block that is too large, with the `max_pages` of the allocator. -/
theorem not_packs_16M : ¬ Packs ⟨2 ^ 24, 32, by decide, by decide, by decide⟩ := not_packs_of_le (by decide)

end AnyChunkHeader

end IibMalloc
