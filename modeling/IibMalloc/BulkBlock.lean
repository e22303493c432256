/-
# BulkAllocator: the chunks of a block

A block is a list of chunks, each with its address, its page count and its
flag. `Tiled` says that the chunks cover the block, one after the other, and
`Linked` that the headers in memory say so: `BlockInv.read` reads the four
accessors of a chunk off the list, and `BlockInv.split_last`,
`BlockInv.merge_last` are the two edits of the headers that the allocator
makes at the end of a block.
-/
import IibMalloc.Bulk

namespace IibMalloc

open Lib AnyChunkHeader

namespace BulkAllocator

structure Chunk where
  addr : ℕ
  pages : ℕ
  flag : Bool
deriving DecidableEq

/-- Where a chunk ends. -/
def Chunk.stop (c : Chunk) : ℕ := c.addr + c.pages * 4096

/-- The address of the first chunk, or `n`. -/
def headAddr : List Chunk → ℕ → ℕ
  | [], n => n
  | c :: _, _ => c.addr

/-- The address of the last chunk, or `q`. -/
def lastAddr : ℕ → List Chunk → ℕ
  | q, [] => q
  | _, c :: l => lastAddr c.addr l

/-- The chunks cover the addresses from `p` to `e`, in order. -/
def Tiled : ℕ → List Chunk → ℕ → Prop
  | p, [], e => p = e
  | p, c :: l, e => c.addr = p ∧ 0 < c.pages ∧ Tiled c.stop l e

/-- The headers of the chunks, between the chunks at `q` and `n`. -/
def Linked (mem : ℕ → ℕ) : ℕ → List Chunk → ℕ → Prop
  | _, [], _ => True
  | q, c :: l, n => mem c.addr = q + c.pages ∧ mem (c.addr + 8) = headAddr l n + c.flag.toNat ∧
      Linked mem c.addr l n

variable {mem mem' : ℕ → ℕ} {l l' : List Chunk} {p q e n : ℕ} {c d : Chunk}

theorem headAddr_append : headAddr (l ++ l') n = headAddr l (headAddr l' n) := by
  cases l <;> rfl

theorem lastAddr_append (q : ℕ) (l l' : List Chunk) :
    lastAddr q (l ++ l') = lastAddr (lastAddr q l) l' := by
  induction l generalizing q with
  | nil => rfl
  | cons c l ih => exact ih c.addr

theorem linked_append (q : ℕ) (l l' : List Chunk) : Linked mem q (l ++ l') n ↔
    Linked mem q l (headAddr l' n) ∧ Linked mem (lastAddr q l) l' n := by
  induction l generalizing q with
  | nil => simp [Linked, lastAddr]
  | cons c l ih =>
    simp only [List.cons_append, Linked, lastAddr, headAddr_append, ih]
    tauto

theorem tiled_append (p : ℕ) (l l' : List Chunk) :
    Tiled p (l ++ l') e ↔ ∃ m, Tiled p l m ∧ Tiled m l' e := by
  induction l generalizing p with
  | nil => simp [Tiled]
  | cons c l ih =>
    simp only [List.cons_append, Tiled, ih]
    constructor
    · intro hx
      obtain ⟨h1, h2, m, h3, h4⟩ := hx
      exact ⟨m, ⟨h1, h2, h3⟩, h4⟩
    · intro hx
      obtain ⟨m, ⟨h1, h2, h3⟩, h4⟩ := hx
      exact ⟨h1, h2, m, h3, h4⟩

/-- Headers with the same words. -/
theorem Linked.congr (h : Linked mem q l n)
    (hm : ∀ c ∈ l, mem' c.addr = mem c.addr ∧ mem' (c.addr + 8) = mem (c.addr + 8)) :
    Linked mem' q l n := by
  induction l generalizing q with
  | nil => trivial
  | cons c l ih =>
    obtain ⟨h1, h2, h3⟩ := h
    have hc := hm c List.mem_cons_self
    exact ⟨hc.1.trans h1, hc.2.trans h2, ih h3 fun d hd => hm d (List.mem_cons_of_mem c hd)⟩

namespace Tiled

theorem le (h : Tiled p l e) : p ≤ e := by
  induction l generalizing p with
  | nil => exact h.le
  | cons c l ih =>
    obtain ⟨h1, -, h3⟩ := h
    have h4 := ih h3
    unfold Chunk.stop at h4
    omega

/-- Where a chunk lies. -/
theorem bounds (h : Tiled p l e) (hc : c ∈ l) :
    p ≤ c.addr ∧ c.stop ≤ e ∧ 0 < c.pages ∧ (4096 ∣ p → 4096 ∣ c.addr) := by
  induction l generalizing p with
  | nil => cases hc
  | cons d l ih =>
    obtain ⟨h1, h2, h3⟩ := h
    rcases List.mem_cons.mp hc with rfl | hc
    · exact ⟨h1.ge, h3.le, h2, fun hp => h1 ▸ hp⟩
    · obtain ⟨h4, h5, h6, h7⟩ := ih h3 hc
      unfold Chunk.stop at h4 h7
      exact ⟨by omega, h5, h6, fun hp => h7 (by omega)⟩

/-- Chunks do not overlap. -/
theorem apart (h : Tiled p l e) : l.Pairwise fun c d => c.stop ≤ d.addr := by
  induction l generalizing p with
  | nil => exact List.Pairwise.nil
  | cons c l ih =>
    obtain ⟨-, -, h3⟩ := h
    exact List.pairwise_cons.mpr ⟨fun d hd => (h3.bounds hd).1, ih h3⟩

/-- An address is in one chunk. -/
theorem unique (h : Tiled p l e) (hc : c ∈ l) (hd : d ∈ l) {x : ℕ} (hx : c.addr ≤ x ∧ x < c.stop)
    (hx' : d.addr ≤ x ∧ x < d.stop) : c = d := by
  induction l generalizing p with
  | nil => cases hc
  | cons b l ih =>
    obtain ⟨-, -, h3⟩ := h
    rcases List.mem_cons.mp hc with rfl | hc' <;> rcases List.mem_cons.mp hd with rfl | hd'
    · rfl
    · have := (h3.bounds hd').1
      omega
    · have := (h3.bounds hc').1
      omega
    · exact ih h3 hc' hd'

/-- A chunk after a prefix starts where the prefix ends. -/
theorem head (h : Tiled p (l ++ c :: l') e) : Tiled p l c.addr := by
  obtain ⟨m, h1, h2, -, -⟩ := (tiled_append p l (c :: l')).mp h
  rwa [h2]

/-- The page counts add up. -/
theorem sum (h : Tiled p l e) : p + (l.map Chunk.pages).sum * 4096 = e := by
  induction l generalizing p with
  | nil => exact h
  | cons c l ih =>
    obtain ⟨h1, -, h3⟩ := h
    have := ih h3
    unfold Chunk.stop at this
    rw [List.map_cons, List.sum_cons, Nat.add_mul]
    omega

end Tiled

theorem lastAddr_mem (hl : l ≠ []) : ∃ c ∈ l, lastAddr q l = c.addr := by
  induction l generalizing q with
  | nil => exact absurd rfl hl
  | cons c l ih =>
    by_cases h : l = []
    · rw [h]
      exact ⟨c, List.mem_cons_self, rfl⟩
    · obtain ⟨d, hd, hda⟩ := ih (q := c.addr) h
      exact ⟨d, List.mem_cons_of_mem c hd, hda⟩

/-! ### A block -/

/-- The chunks of the block at `b`. -/
structure BlockInv (cfg : BulkCfg) (w : World) (b : ℕ) (l : List Chunk) : Prop where
  aligned : 4096 ∣ b
  pos : 0 < b
  lt : b + cfg.commited_block_size < 2 ^ 64
  committed : ∀ x, Within b cfg.commited_block_size x → pageState w.calls x = .committed
  tiled : Tiled b l (b + cfg.commited_block_size)
  linked : Linked w.mem 0 l 0

theorem BulkCfg.size_eq (cfg : BulkCfg) : cfg.commited_block_size = cfg.pagesPerAllocatedBlock * 4096 := by
  have h := cfg.block_aligned
  rw [and_page_mask] at h
  unfold BulkCfg.pagesPerAllocatedBlock
  rw [PAGE_SIZE_EXP_eq, Nat.shiftRight_eq_div_pow]
  omega

/-- Template arguments for which a page count fits in a header, and a block has
pages for any chunk and more. -/
structure Fits (cfg : BulkCfg) : Prop where
  max_pos : 0 < cfg.max_pages
  max_lt : cfg.max_pages < cfg.pagesPerAllocatedBlock
  pages_lt : cfg.pagesPerAllocatedBlock < 4096

theorem bulkAllocatorT_fits : Fits bulkAllocatorT := ⟨by decide, by decide, by decide⟩

variable {cfg : BulkCfg} {w w' : World} {b k : ℕ}

namespace BlockInv

theorem congr (h : BlockInv cfg w b l)
    (hc : ∀ x, Within b cfg.commited_block_size x → pageState w'.calls x = pageState w.calls x)
    (hm : ∀ c ∈ l, w'.mem c.addr = w.mem c.addr ∧ w'.mem (c.addr + 8) = w.mem (c.addr + 8)) :
    BlockInv cfg w' b l :=
  ⟨h.aligned, h.pos, h.lt, fun x hx => (hc x hx).trans (h.committed x hx), h.tiled, h.linked.congr hm⟩

/-- Where a chunk of the block lies. -/
theorem chunk (h : BlockInv cfg w b l) (hc : c ∈ l) : b ≤ c.addr ∧ c.stop ≤ b + cfg.commited_block_size ∧
    0 < c.pages ∧ 4096 ∣ c.addr := by
  obtain ⟨h1, h2, h3, h4⟩ := h.tiled.bounds hc
  exact ⟨h1, h2, h3, h4 h.aligned⟩

theorem pages_le (h : BlockInv cfg w b l) (hc : c ∈ l) : c.pages ≤ cfg.pagesPerAllocatedBlock := by
  obtain ⟨h1, h2, -⟩ := h.chunk hc
  have := BulkCfg.size_eq cfg
  unfold Chunk.stop at h2
  omega

theorem chunk_mapped (h : BlockInv cfg w b l) (hc : c ∈ l) {x : ℕ} (hx : c.addr ≤ x) (hx' : x < c.stop) :
    pageState w.calls x = .committed := by
  obtain ⟨h1, h2, -⟩ := h.chunk hc
  exact h.committed x ⟨by omega, by omega⟩

theorem pageMapped (h : BlockInv cfg w b l) (hc : c ∈ l) : CollectionInPages.PageMapped w.calls c.addr := by
  obtain ⟨h1, h2, h3, h4⟩ := h.chunk hc
  have hb := h.pos
  refine ⟨h4, by omega, fun x hx => h.chunk_mapped hc hx.1 ?_⟩
  have := hx.2
  unfold Chunk.stop
  omega

/-- The first words of a header, as the accessors read them. -/
theorem accessors {h v v' k : ℕ} {f : Bool} (hv : 4096 ∣ v) (hv' : 4096 ∣ v') (hk : k < 4096)
    (hlt : v + k < 2 ^ 64) (hlt' : v' + 1 < 2 ^ 64) (h0 : mem h = v + k) (h8 : mem (h + 8) = v' + f.toNat) :
    prevInBlock mem h = v ∧ getPageCount mem h = k ∧ nextInBlock mem h = v' ∧ isFree mem h = f := by
  have hf : f.toNat ≤ 1 := Bool.toNat_le f
  unfold prevInBlock getPageCount nextInBlock isFree
  rw [h0, h8, and_not_page_mask hlt, and_not_page_mask (by omega), and_page_mask, and_page_mask]
  refine ⟨by omega, ?_, by omega, ?_⟩
  · rw [u16_of_lt (by omega)]
    omega
  · cases f
    · simp only [Bool.toNat_false] at *
      simp only [ne_eq, decide_not, Bool.not_eq_false', decide_eq_true_eq]
      omega
    · simp only [Bool.toNat_true] at *
      simp only [ne_eq, decide_eq_true_eq]
      omega

/-- The chunk before, or null. -/
theorem lastAddr_aligned (h : BlockInv cfg w b (l ++ l')) : 4096 ∣ lastAddr 0 l ∧ lastAddr 0 l + 4096 < 2 ^ 64 := by
  by_cases hl0 : l = []
  · rw [hl0]
    exact ⟨dvd_zero _, by norm_num [lastAddr]⟩
  · obtain ⟨d, hd, hda⟩ := lastAddr_mem (q := 0) hl0
    obtain ⟨-, h2, h3, h4⟩ := h.chunk (List.mem_append_left _ hd)
    have hlt := h.lt
    unfold Chunk.stop at h2
    rw [hda]
    exact ⟨h4, by omega⟩

/-- What the header of a chunk says. -/
theorem read (h : BlockInv cfg w b (l ++ c :: l')) (hcfg : Fits cfg) :
    prevInBlock w.mem c.addr = lastAddr 0 l ∧ getPageCount w.mem c.addr = c.pages ∧
      nextInBlock w.mem c.addr = headAddr l' 0 ∧ isFree w.mem c.addr = c.flag := by
  have hl := ((linked_append 0 l (c :: l')).mp h.linked).2
  have hcm : c ∈ l ++ c :: l' := by simp
  have hpages := h.pages_le hcm
  have hlt := h.lt
  have hmax := hcfg.pages_lt
  have hprev := h.lastAddr_aligned
  have hnext : 4096 ∣ headAddr l' 0 ∧ headAddr l' 0 + 1 < 2 ^ 64 := by
    cases l' with
    | nil => exact ⟨dvd_zero _, by norm_num [headAddr]⟩
    | cons d l' =>
      obtain ⟨-, h2, h3, h4⟩ := h.chunk (c := d) (by simp)
      unfold Chunk.stop at h2
      exact ⟨h4, show d.addr + 1 < _ by omega⟩
  exact accessors hprev.1 hnext.1 (by omega) (by omega) hnext.2 hl.1 hl.2.1

/-- The last chunk is cut in two. -/
theorem split_last (h : BlockInv cfg w b (l ++ [c])) (hk : 0 < k) (hkc : k < c.pages)
    (hcalls : w'.calls = w.calls)
    (hm : ∀ x, x % 4096 < 16 → x ≠ c.addr → x ≠ c.addr + 8 → x ≠ c.addr + k * 4096 →
      x ≠ c.addr + k * 4096 + 8 → w'.mem x = w.mem x)
    (h0 : w'.mem c.addr = lastAddr 0 l + k) (h8 : w'.mem (c.addr + 8) = c.addr + k * 4096)
    (h0' : w'.mem (c.addr + k * 4096) = c.addr + (c.pages - k))
    (h8' : w'.mem (c.addr + k * 4096 + 8) = 1) :
    BlockInv cfg w' b (l ++ [⟨c.addr, k, false⟩, ⟨c.addr + k * 4096, c.pages - k, true⟩]) := by
  obtain ⟨m, ht1, ht2, -, ht3⟩ := (tiled_append b l [c]).mp h.tiled
  obtain ⟨hl1, -⟩ := (linked_append 0 l [c]).mp h.linked
  refine ⟨h.aligned, h.pos, h.lt, fun x hx => hcalls ▸ h.committed x hx, ?_, ?_⟩
  · refine (tiled_append _ _ _).mpr ⟨m, ht1, ht2, hk, rfl, Nat.sub_pos_of_lt hkc, ?_⟩
    have : c.stop = b + cfg.commited_block_size := ht3
    show c.addr + k * 4096 + (c.pages - k) * 4096 = _
    unfold Chunk.stop at this
    omega
  · refine (linked_append _ _ _).mpr ⟨hl1.congr fun d hd => ?_, h0, h8, h0', h8', trivial⟩
    -- the chunks before it end where it starts
    obtain ⟨-, h2, h3, -⟩ := ht1.bounds hd
    obtain ⟨-, -, -, h4⟩ := h.chunk (List.mem_append_left [c] hd)
    unfold Chunk.stop at h2
    exact ⟨hm _ (by omega) (by omega) (by omega) (by omega) (by omega),
      hm _ (by omega) (by omega) (by omega) (by omega) (by omega)⟩

/-- The last two chunks become one. -/
theorem merge_last (h : BlockInv cfg w b (l ++ [c, d])) (hcalls : w'.calls = w.calls)
    (hm : ∀ x, x % 4096 < 16 → x ≠ c.addr → x ≠ c.addr + 8 → w'.mem x = w.mem x)
    (h0 : w'.mem c.addr = lastAddr 0 l + (c.pages + d.pages)) (h8 : w'.mem (c.addr + 8) = 1) :
    BlockInv cfg w' b (l ++ [⟨c.addr, c.pages + d.pages, true⟩]) := by
  obtain ⟨m, ht1, ht2, ht3, ht4, -, ht5⟩ := (tiled_append b l [c, d]).mp h.tiled
  obtain ⟨hl1, -⟩ := (linked_append 0 l [c, d]).mp h.linked
  refine ⟨h.aligned, h.pos, h.lt, fun x hx => hcalls ▸ h.committed x hx, ?_, ?_⟩
  · refine (tiled_append _ _ _).mpr ⟨m, ht1, ht2, Nat.add_pos_left ht3 _, ?_⟩
    have : d.stop = b + cfg.commited_block_size := ht5
    show c.addr + (c.pages + d.pages) * 4096 = _
    unfold Chunk.stop at this ht4
    omega
  · refine (linked_append _ _ _).mpr ⟨hl1.congr fun e he => ?_, h0, h8, trivial⟩
    obtain ⟨-, h2, h3, -⟩ := ht1.bounds he
    obtain ⟨-, -, -, h4⟩ := h.chunk (List.mem_append_left [c, d] he)
    unfold Chunk.stop at h2
    exact ⟨hm _ (by omega) (by omega) (by omega), hm _ (by omega) (by omega) (by omega)⟩

end BlockInv

/-! ### The accessors -/

/-- What a header says, from its words. -/
theorem header_congr {x : ℕ} (h0 : mem' x = mem x) (h8 : mem' (x + 8) = mem (x + 8)) :
    prevInBlock mem' x = prevInBlock mem x ∧ nextInBlock mem' x = nextInBlock mem x ∧
      getPageCount mem' x = getPageCount mem x ∧ isFree mem' x = isFree mem x := by
  unfold prevInBlock nextInBlock getPageCount isFree
  rw [h0, h8]
  exact ⟨rfl, rfl, rfl, rfl⟩

/-- A link is the address of a page. -/
theorem nextInBlock_lt (mem : ℕ → ℕ) (h : ℕ) : 4096 ∣ nextInBlock mem h ∧ nextInBlock mem h < 2 ^ 64 := by
  unfold nextInBlock
  constructor
  · apply Nat.dvd_of_mod_eq_zero
    rw [← and_page_mask, Nat.and_assoc, show not64 PAGE_SIZE_MASK &&& PAGE_SIZE_MASK = 0 by decide, Nat.and_zero]
  · exact lt_of_le_of_lt Nat.and_le_right (by decide)

theorem prevInBlock_lt (mem : ℕ → ℕ) (h : ℕ) : 4096 ∣ prevInBlock mem h ∧ prevInBlock mem h < 2 ^ 64 := by
  unfold prevInBlock
  constructor
  · apply Nat.dvd_of_mod_eq_zero
    rw [← and_page_mask, Nat.and_assoc, show not64 PAGE_SIZE_MASK &&& PAGE_SIZE_MASK = 0 by decide, Nat.and_zero]
  · exact lt_of_le_of_lt Nat.and_le_right (by decide)

theorem getPageCount_lt (mem : ℕ → ℕ) (h : ℕ) : getPageCount mem h < 4096 := by
  unfold getPageCount u16
  rw [and_page_mask]
  omega

/-- A header is written. -/
theorem set_spec {C : Type} {s : St C} {h v v' k : ℕ} {f : Bool}
    (hm : CollectionInPages.PageMapped s.w.calls h) (hlt : v + k < 2 ^ 64) (hlt' : v' + 1 < 2 ^ 64)
    {Q : Unit → St C → Prop} {E : St C → Prop}
    (hQ : ∀ a mem, (∀ x, x ≠ h → x ≠ h + 8 → mem x = s.w.mem x) → mem h = v + k →
      mem (h + 8) = v' + f.toNat → Q () ⟨⟨s.w.calls, mem, a⟩, s.c⟩) :
    Act.wp (AnyChunkHeader.set cfg h v v' k f) Q E s := by
  have hf : f.toNat ≤ 1 := Bool.toNat_le f
  have hword : ∀ k < 4096, pageState s.w.calls (h + k) = .committed := fun k hk =>
    hm.mapped _ ⟨by omega, by omega⟩
  unfold AnyChunkHeader.set
  simp only [Act.wp_bind, Act.wp_assert, Act.wp_storeWord]
  refine ⟨hword 0 (by omega), hword 8 (by omega), hQ _ _ (fun x h1 h2 => ?_) ?_ ?_⟩
  · rw [store_ne h2, store_ne h1]
  · rw [store_ne (by omega), store_self, u64_of_lt hlt]
  · rw [store_self, u64_of_lt (by omega)]

end BulkAllocator

end IibMalloc
