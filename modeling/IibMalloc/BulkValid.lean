/-
# BulkAllocator: the states its own checks accept

`dbgValidateBlock` and `dbgValidateFreeList` walk over the headers in memory
and assert what should hold of them. Here a walk returns the chunks it visits,
or nothing where an assertion fails or it comes to no end. `Validated` is the
state in which every block and every free list passes, and a chunk is flagged
exactly where it is on a free list; the others are live.

`Validated.chunkInv` says what the checks are worth: the visited chunks of a
block cover it, each header gives the chunk before and after (`Chained`), and
the lists are doubly linked from a first chunk without `prevFree`.
-/
import IibMalloc.BulkLists
import IibMalloc.BulkInv

namespace IibMalloc

open Lib AnyChunkHeader

namespace BulkAllocator

/-! ### The checks -/

/-- `dbgValidateBlock`, the loop over the chunks from `curr` on. -/
def dbgForward (mem : ℕ → ℕ) : ℕ → ℕ → Option (List ℕ)
  | 0, curr => if curr ≠ 0 then none else some []
  | fuel + 1, curr =>
    if curr ≠ 0 then
      let next := nextInBlock mem curr
      if next = 0 ∨ (curr < next ∧ ¬ (isFree mem curr = true ∧ isFree mem next = true) ∧
          prevInBlock mem next = curr ∧ u64 (curr + getPageCount mem curr <<< PAGE_SIZE_EXP) = next) then
        (dbgForward mem fuel next).map (curr :: ·)
      else none
    else some []

/-- And the loop back. -/
def dbgBackward (mem : ℕ → ℕ) : ℕ → ℕ → Option (List ℕ)
  | 0, curr => if curr ≠ 0 then none else some []
  | fuel + 1, curr =>
    if curr ≠ 0 then
      let prev := prevInBlock mem curr
      if prev = 0 ∨ (prev < curr ∧ ¬ (isFree mem prev = true ∧ isFree mem curr = true) ∧
          nextInBlock mem prev = curr ∧ u64 (prev + getPageCount mem prev <<< PAGE_SIZE_EXP) = curr) then
        (dbgBackward mem fuel prev).map (curr :: ·)
      else none
    else some []

/-- The chunks visited, where no assertion fails. -/
def dbgValidateBlock (cfg : BulkCfg) (mem : ℕ → ℕ) (fuel h : ℕ) : Option (List ℕ) := do
  guard (h ≠ 0)
  let forward ← dbgForward mem fuel h
  guard (prevInBlock mem h = 0 ∨ isFree mem (prevInBlock mem h) ≠ isFree mem h)
  let backward ← dbgBackward mem fuel (prevInBlock mem h)
  let szTotal := ((forward ++ backward).map (getPageCount mem)).sum
  guard (u64 (szTotal <<< PAGE_SIZE_EXP) = cfg.commited_block_size)
  return forward ++ backward

/-- `dbgValidateFreeList`, a loop along `next`: its second loop is the first
with the two links in each other's place. -/
def dbgFreeWalk (cfg : BulkCfg) (mem : ℕ → ℕ) (pageCnt : ℕ) (next prev : ℕ → ℕ) : ℕ → ℕ → Option (List ℕ)
  | 0, curr => if curr ≠ 0 then none else some []
  | fuel + 1, curr =>
    if curr ≠ 0 then
      if (getPageCount mem curr = pageCnt ∨ cfg.max_pages < pageCnt ∧ pageCnt ≤ getPageCount mem curr) ∧
          isFree mem curr = true ∧ (next curr = 0 ∨ prev (next curr) = curr) then
        (dbgFreeWalk cfg mem pageCnt next prev fuel (next curr)).map (curr :: ·)
      else none
    else some []

/-- The chunks visited by the first loop and by the second. -/
def dbgValidateFreeList (cfg : BulkCfg) (mem : ℕ → ℕ) (fuel h pageCnt : ℕ) : Option (List ℕ × List ℕ) := do
  guard (h ≠ 0)
  let forward ← dbgFreeWalk cfg mem pageCnt (nextFree mem) (prevFree mem) fuel h
  let backward ← dbgFreeWalk cfg mem pageCnt (prevFree mem) (nextFree mem) fuel h
  return (forward, backward)

/-- The block at `b`, in committed memory: its first chunk is its start, and
`dbgValidateBlock` visits the chunks `as`, all inside. -/
structure ValidatedBlock (cfg : BulkCfg) (w : World) (b : ℕ) (as : List ℕ) : Prop where
  aligned : 4096 ∣ b
  lt : b + cfg.commited_block_size < 2 ^ 64
  committed : ∀ x, Within b cfg.commited_block_size x → pageState w.calls x = .committed
  first : prevInBlock w.mem b = 0
  passes : ∃ fuel, dbgValidateBlock cfg w.mem fuel b = some as
  inside : ∀ a ∈ as, Within b cfg.commited_block_size a

/-- `dbgValidateAllFreeLists`, for the list `i`: it is empty, or
`dbgValidateFreeList` visits its chunks `as` and going back from the first `back`. -/
def ValidatedList (cfg : BulkCfg) (s : St BulkAllocator) (i : ℕ) (as back : List ℕ) : Prop :=
  s.c.freeListBegin i = 0 ∧ as = [] ∧ back = [] ∨
    ∃ fuel, dbgValidateFreeList cfg s.w.mem fuel (s.c.freeListBegin i) (i + 1) = some (as, back)

/-- Every block and every free list passes. A chunk is flagged exactly where it
is on a free list, and the chunks visited on the lists are chunks of the
blocks. -/
structure Validated (cfg : BulkCfg) (s : St BulkAllocator) (blocks : List ℕ) (chunks lists : ℕ → List ℕ) :
    Prop where
  apart : blocks.Pairwise fun b b' => Apart (b, cfg.commited_block_size) (b', cfg.commited_block_size)
  block : ∀ b ∈ blocks, ValidatedBlock cfg s.w b (chunks b)
  list : ∀ i ≤ cfg.max_pages, ∃ back, ValidatedList cfg s i (lists i) back ∧
    ∀ a, a ∈ lists i ∨ a ∈ back → ∃ b ∈ blocks, a ∈ chunks b
  free : ∀ b ∈ blocks, ∀ a ∈ chunks b, isFree s.w.mem a = true ↔ ∃ i ≤ cfg.max_pages, a ∈ lists i

/-! ### What the checks are worth -/

/-- The accessors give the page counts and the links of the chunks, between the
chunks at `q` and `n`. -/
def Chained (mem : ℕ → ℕ) : ℕ → List Chunk → ℕ → Prop
  | _, [], _ => True
  | q, c :: l, n => prevInBlock mem c.addr = q ∧ nextInBlock mem c.addr = headAddr l n ∧
      getPageCount mem c.addr = c.pages ∧ Chained mem c.addr l n

/-- The chunk at `a`, as its header has it. -/
def chunkAt (mem : ℕ → ℕ) (a : ℕ) : Chunk := ⟨a, getPageCount mem a, isFree mem a⟩

variable {mem mem' : ℕ → ℕ} {l l' : List Chunk} {p q e n a b i : ℕ} {c d : Chunk} {as : List ℕ}

theorem chained_append (q : ℕ) (l l' : List Chunk) : Chained mem q (l ++ l') n ↔
    Chained mem q l (headAddr l' n) ∧ Chained mem (lastAddr q l) l' n := by
  induction l generalizing q with
  | nil => simp [Chained, lastAddr]
  | cons c l ih =>
    simp only [List.cons_append, Chained, lastAddr, headAddr_append, ih]
    tauto

/-- Headers with the same words. -/
theorem Chained.congr (h : Chained mem q l n)
    (hm : ∀ c ∈ l, mem' c.addr = mem c.addr ∧ mem' (c.addr + 8) = mem (c.addr + 8)) :
    Chained mem' q l n := by
  induction l generalizing q with
  | nil => trivial
  | cons c l ih =>
    obtain ⟨h1, h2, h3, h4⟩ := h
    obtain ⟨h0, h8⟩ := hm c List.mem_cons_self
    obtain ⟨h5, h6, h7, -⟩ := header_congr h0 h8
    exact ⟨h5.trans h1, h6.trans h2, h7.trans h3, ih h4 fun d hd => hm d (List.mem_cons_of_mem c hd)⟩

/-! ### The walks -/

/-- A loop ends at the null pointer. -/
theorem dbgForward_null {fuel : ℕ} (h : dbgForward mem fuel 0 = some as) : as = [] := by
  cases fuel with
  | zero => rw [dbgForward, if_neg (not_not.mpr rfl)] at h; exact (Option.some.inj h).symm
  | succ k => rw [dbgForward, if_neg (not_not.mpr rfl)] at h; exact (Option.some.inj h).symm

theorem dbgBackward_null {fuel : ℕ} (h : dbgBackward mem fuel 0 = some as) : as = [] := by
  cases fuel with
  | zero => rw [dbgBackward, if_neg (not_not.mpr rfl)] at h; exact (Option.some.inj h).symm
  | succ k => rw [dbgBackward, if_neg (not_not.mpr rfl)] at h; exact (Option.some.inj h).symm

/-- One round of the first loop. -/
theorem dbgForward_round {fuel : ℕ} (h : dbgForward mem fuel a = some as) (ha : a ≠ 0) (hlt : a < 2 ^ 64) :
    ∃ fuel' as', as = a :: as' ∧ dbgForward mem fuel' (nextInBlock mem a) = some as' ∧
      (nextInBlock mem a ≠ 0 → prevInBlock mem (nextInBlock mem a) = a ∧ 0 < getPageCount mem a ∧
        a + getPageCount mem a * 4096 = nextInBlock mem a ∧
        ¬ (isFree mem a = true ∧ isFree mem (nextInBlock mem a) = true)) := by
  cases fuel with
  | zero => rw [dbgForward, if_pos ha] at h; cases h
  | succ fuel =>
    rw [dbgForward, if_pos ha] at h
    dsimp only at h
    split_ifs at h with hc
    obtain ⟨as', h1, rfl⟩ := Option.map_eq_some_iff.mp h
    refine ⟨fuel, as', rfl, h1, fun hn => ?_⟩
    obtain ⟨h2, hflags, h3, h4⟩ := hc.resolve_left hn
    have h5 := getPageCount_lt mem a
    rw [PAGE_SIZE_EXP_eq, Nat.shiftLeft_eq] at h4
    unfold u64 at h4
    -- the end of the chunk does not wrap around: the next one comes later
    exact ⟨h3, by omega, by omega, hflags⟩

/-- The chunks visited follow each other without a gap; the last one starts
less than `2 ^ 24` before their end. -/
theorem dbgForward_end {fuel : ℕ} (h : dbgForward mem fuel a = some as) (ha : a ≠ 0) (hlt : a < 2 ^ 64) :
    ∃ x ∈ as, a + (as.map (getPageCount mem)).sum * 4096 < x + 2 ^ 24 := by
  induction as generalizing fuel a with
  | nil =>
    obtain ⟨-, as', h1, -⟩ := dbgForward_round h ha hlt
    cases h1
  | cons b as ih =>
    obtain ⟨fuel', as', h1, h2, h3⟩ := dbgForward_round h ha hlt
    obtain ⟨rfl, rfl⟩ := List.cons_eq_cons.mp h1
    have h4 := getPageCount_lt mem b
    rw [List.map_cons, List.sum_cons]
    by_cases hn : nextInBlock mem b = 0
    · obtain rfl := dbgForward_null (hn ▸ h2)
      refine ⟨b, List.mem_cons_self, ?_⟩
      simp only [List.map_nil, List.sum_nil]
      omega
    · obtain ⟨x, hx, hlt'⟩ := ih h2 hn (nextInBlock_lt mem b).2
      obtain ⟨-, -, h5, -⟩ := h3 hn
      exact ⟨x, List.mem_cons_of_mem b hx, by omega⟩

/-- What the first loop says of the chunks it visits. -/
theorem dbgForward_spec {fuel : ℕ} (h : dbgForward mem fuel a = some as) (ha : a ≠ 0) (hlt : a < 2 ^ 64)
    (hin : ∀ x ∈ as, x < a + (as.map (getPageCount mem)).sum * 4096) :
    Chained mem (prevInBlock mem a) (as.map (chunkAt mem)) 0 ∧
      Tiled a (as.map (chunkAt mem)) (a + (as.map (getPageCount mem)).sum * 4096) ∧
      headAddr (as.map (chunkAt mem)) 0 = a := by
  induction as generalizing fuel a with
  | nil =>
    obtain ⟨-, as', h1, -⟩ := dbgForward_round h ha hlt
    cases h1
  | cons b as ih =>
    obtain ⟨fuel', as', h1, h2, h3⟩ := dbgForward_round h ha hlt
    obtain ⟨rfl, rfl⟩ := List.cons_eq_cons.mp h1
    simp only [List.map_cons, List.sum_cons] at hin ⊢
    by_cases hn : nextInBlock mem b = 0
    · obtain rfl := dbgForward_null (hn ▸ h2)
      have hb := hin b List.mem_cons_self
      simp only [List.map_nil, List.sum_nil, Nat.add_zero] at hb ⊢
      exact ⟨⟨rfl, hn, rfl, trivial⟩, ⟨rfl, show 0 < getPageCount mem b by omega, rfl⟩, rfl⟩
    · obtain ⟨h4, h5, h6, -⟩ := h3 hn
      have hend : b + (getPageCount mem b + (as.map (getPageCount mem)).sum) * 4096 =
          nextInBlock mem b + (as.map (getPageCount mem)).sum * 4096 := by
        rw [← h6]
        ring
      rw [hend] at hin ⊢
      obtain ⟨h7, h8, h9⟩ := ih h2 hn (nextInBlock_lt mem b).2 fun x hx => hin x (List.mem_cons_of_mem b hx)
      rw [h4] at h7
      refine ⟨⟨rfl, h9.symm, rfl, h7⟩, ⟨rfl, h5, ?_⟩, rfl⟩
      show Tiled (b + getPageCount mem b * 4096) _ _
      rwa [h6]

/-- No two chunks in a row are flagged. -/
theorem dbgForward_flags {fuel : ℕ} {xs ys : List ℕ} {x y : ℕ}
    (h : dbgForward mem fuel a = some (xs ++ x :: y :: ys)) (ha : a ≠ 0) (hlt : a < 2 ^ 64) :
    ¬ (isFree mem x = true ∧ isFree mem y = true) := by
  induction xs generalizing fuel a with
  | nil =>
    obtain ⟨fuel', as', h1, h2, h3⟩ := dbgForward_round h ha hlt
    obtain ⟨rfl, rfl⟩ := List.cons_eq_cons.mp h1
    have hn : nextInBlock mem x ≠ 0 := fun hn => by
      cases dbgForward_null (hn ▸ h2)
    obtain ⟨-, as'', h4, -⟩ := dbgForward_round h2 hn (nextInBlock_lt mem x).2
    obtain ⟨rfl, -⟩ := List.cons_eq_cons.mp h4
    exact (h3 hn).2.2.2
  | cons z xs ih =>
    obtain ⟨fuel', as', h1, h2, -⟩ := dbgForward_round h ha hlt
    obtain ⟨rfl, rfl⟩ := List.cons_eq_cons.mp h1
    refine ih h2 (fun hn => ?_) (nextInBlock_lt mem z).2
    have := dbgForward_null (hn ▸ h2)
    simp at this

/-- The chunks of a block: they cover it, and their headers link them. -/
structure ValidBlock (cfg : BulkCfg) (w : World) (b : ℕ) (l : List Chunk) : Prop where
  aligned : 4096 ∣ b
  pos : 0 < b
  lt : b + cfg.commited_block_size < 2 ^ 64
  committed : ∀ x, Within b cfg.commited_block_size x → pageState w.calls x = .committed
  tiled : Tiled b l (b + cfg.commited_block_size)
  chained : Chained w.mem 0 l 0

theorem ValidatedBlock.validBlock {cfg : BulkCfg} {w : World} (h : ValidatedBlock cfg w b as) :
    ValidBlock cfg w b (as.map (chunkAt w.mem)) ∧
      ∀ xs x y ys, as = xs ++ x :: y :: ys → ¬ (isFree w.mem x = true ∧ isFree w.mem y = true) := by
  obtain ⟨fuel, hpass⟩ := h.passes
  have hlt := h.lt
  simp only [dbgValidateBlock, Option.bind_eq_bind, Option.bind_eq_some_iff, Option.guard_eq_some',
    Option.pure_def, Option.some.injEq] at hpass
  obtain ⟨-, hb, forward, hf, -, -, backward, hback, -, hsize, has⟩ := hpass
  -- there is nothing before the first chunk
  have hnil : backward = [] := dbgBackward_null (h.first ▸ hback)
  rw [hnil, List.append_nil] at hsize has
  subst has
  obtain ⟨x, hx, hend⟩ := dbgForward_end hf hb (by omega)
  have hxin := h.inside x hx
  unfold Within at hxin
  have hsum : (forward.map (getPageCount w.mem)).sum * 4096 = cfg.commited_block_size := by
    rw [PAGE_SIZE_EXP_eq, Nat.shiftLeft_eq] at hsize
    unfold u64 at hsize
    omega
  obtain ⟨h1, h2, -⟩ := dbgForward_spec hf hb (by omega) fun y hy => by
    rw [hsum]
    exact (h.inside y hy).2
  rw [hsum] at h2
  rw [h.first] at h1
  refine ⟨⟨h.aligned, Nat.pos_of_ne_zero hb, hlt, h.committed, h2, h1⟩, fun xs x y ys has => ?_⟩
  exact dbgForward_flags (has ▸ hf) hb (by omega)

/-! ### The free lists -/

section FreeWalk

variable {cfg : BulkCfg} {next prev : ℕ → ℕ} {k : ℕ}

theorem dbgFreeWalk_null {fuel : ℕ} (h : dbgFreeWalk cfg mem k next prev fuel 0 = some as) : as = [] := by
  cases fuel with
  | zero => rw [dbgFreeWalk, if_neg (not_not.mpr rfl)] at h; exact (Option.some.inj h).symm
  | succ k => rw [dbgFreeWalk, if_neg (not_not.mpr rfl)] at h; exact (Option.some.inj h).symm

/-- A chunk of the list for `k` pages. -/
def OfClass (cfg : BulkCfg) (mem : ℕ → ℕ) (k a : ℕ) : Prop :=
  (getPageCount mem a = k ∨ cfg.max_pages < k ∧ k ≤ getPageCount mem a) ∧ isFree mem a = true

/-- One round of a loop over a free list. -/
theorem dbgFreeWalk_round {fuel : ℕ} (h : dbgFreeWalk cfg mem k next prev fuel a = some as) (ha : a ≠ 0) :
    ∃ fuel' as', as = a :: as' ∧ dbgFreeWalk cfg mem k next prev fuel' (next a) = some as' ∧
      OfClass cfg mem k a ∧ (next a ≠ 0 → prev (next a) = a) := by
  cases fuel with
  | zero => rw [dbgFreeWalk, if_pos ha] at h; cases h
  | succ fuel =>
    rw [dbgFreeWalk, if_pos ha] at h
    split_ifs at h with hc
    obtain ⟨as', h1, rfl⟩ := Option.map_eq_some_iff.mp h
    exact ⟨fuel, as', rfl, h1, ⟨hc.1, hc.2.1⟩, hc.2.2.resolve_left⟩

/-- A loop over a free list visits a linked list of chunks of its class. -/
theorem dbgFreeWalk_spec {fuel : ℕ} (h : dbgFreeWalk cfg mem k next prev fuel a = some as)
    (hq : a ≠ 0 → prev a = q) : DList next prev 0 q a as ∧ ∀ x ∈ as, OfClass cfg mem k x := by
  induction as generalizing fuel a q with
  | nil =>
    refine ⟨?_, by simp⟩
    by_contra ha
    obtain ⟨-, as', h1, -⟩ := dbgFreeWalk_round h ha
    cases h1
  | cons b as ih =>
    have ha : a ≠ 0 := by
      intro ha
      have := dbgFreeWalk_null (ha ▸ h)
      cases this
    obtain ⟨fuel', as', h1, h2, h3, h4⟩ := dbgFreeWalk_round h ha
    obtain ⟨rfl, rfl⟩ := List.cons_eq_cons.mp h1
    obtain ⟨h5, h6⟩ := ih h2 h4
    refine ⟨⟨rfl, ha, hq ha, h5⟩, fun x hx => ?_⟩
    rcases List.mem_cons.mp hx with rfl | hx
    · exact h3
    · exact h6 x hx

/-- The list of a chunk that passed. -/
theorem OfClass.listOf_eq (h : OfClass cfg mem (i + 1) a) (hi : i ≤ cfg.max_pages) :
    listOf cfg (getPageCount mem a) = i := by
  obtain ⟨h1, -⟩ := h
  rw [BulkAllocator.listOf_eq (by omega) (getPageCount_lt mem a)]
  split_ifs <;> omega

end FreeWalk

/-- Blocks with their chunks, and the free lists with theirs. -/
structure ChunkInv (cfg : BulkCfg) (s : St BulkAllocator) (blocks : List ℕ) (chunks : ℕ → List Chunk)
    (lists : ℕ → List ℕ) : Prop where
  apart : blocks.Pairwise fun b b' => Apart (b, cfg.commited_block_size) (b', cfg.commited_block_size)
  block : ∀ b ∈ blocks, ValidBlock cfg s.w b (chunks b)
  flags : ∀ b ∈ blocks, ∀ c ∈ chunks b, isFree s.w.mem c.addr = c.flag
  noTwo : ∀ b ∈ blocks, ∀ l c d r, chunks b = l ++ c :: d :: r → ¬ (c.flag = true ∧ d.flag = true)
  listed : ∀ i ≤ cfg.max_pages, ∀ a ∈ lists i, ∃ b ∈ blocks, ∃ c ∈ chunks b, c.addr = a ∧ listOf cfg c.pages = i ∧
    c.flag = true
  free : ∀ b ∈ blocks, ∀ c ∈ chunks b, c.flag = true → c.addr ∈ lists (listOf cfg c.pages)
  lists : FreeLists cfg s lists

namespace Validated

variable {cfg : BulkCfg} {s : St BulkAllocator} {blocks : List ℕ} {chunks lists : ℕ → List ℕ}

/-- What the loops say of a list: its chunks are of its class, and the chunk
before its first one, if any, is of its class and leads to it. -/
theorem list_spec (h : Validated cfg s blocks chunks lists) (hi : i ≤ cfg.max_pages) :
    DList (nextFree s.w.mem) (prevFree s.w.mem) 0 (prevFree s.w.mem (s.c.freeListBegin i))
        (s.c.freeListBegin i) (lists i) ∧
      (∀ a ∈ lists i, OfClass cfg s.w.mem (i + 1) a ∧ ∃ b ∈ blocks, a ∈ chunks b) ∧
      (s.c.freeListBegin i ≠ 0 → prevFree s.w.mem (s.c.freeListBegin i) ≠ 0 →
        OfClass cfg s.w.mem (i + 1) (prevFree s.w.mem (s.c.freeListBegin i)) ∧
        nextFree s.w.mem (prevFree s.w.mem (s.c.freeListBegin i)) = s.c.freeListBegin i ∧
        ∃ b ∈ blocks, prevFree s.w.mem (s.c.freeListBegin i) ∈ chunks b) := by
  obtain ⟨back, hlist, hin⟩ := h.list i hi
  rcases hlist with ⟨h0, has, -⟩ | ⟨fuel, hpass⟩
  · rw [has]
    exact ⟨h0, by simp, fun hne => absurd h0 hne⟩
  simp only [dbgValidateFreeList, Option.bind_eq_bind, Option.bind_eq_some_iff, Option.guard_eq_some',
    Option.pure_def, Option.some.injEq, Prod.mk.injEq] at hpass
  obtain ⟨-, hb, forward, hf, backward, hback, rfl, rfl⟩ := hpass
  obtain ⟨h1, h2⟩ := dbgFreeWalk_spec hf fun _ => rfl
  refine ⟨h1, fun a ha => ⟨h2 a ha, hin a (Or.inl ha)⟩, fun _ hp => ?_⟩
  obtain ⟨fuel', as', hcons, hrest, -, hlink⟩ := dbgFreeWalk_round hback hb
  obtain ⟨-, as'', hcons', -, hclass, -⟩ := dbgFreeWalk_round hrest hp
  exact ⟨hclass, hlink hp, hin _ (Or.inr (by rw [hcons, hcons']; simp))⟩

/-- The first chunk of a list has none before it: that one would be on the list
too, and again before its first chunk. -/
theorem prevFree_first (h : Validated cfg s blocks chunks lists) (hi : i ≤ cfg.max_pages)
    (hne : s.c.freeListBegin i ≠ 0) : prevFree s.w.mem (s.c.freeListBegin i) = 0 := by
  by_contra hp
  obtain ⟨hd, hall, hback⟩ := h.list_spec hi
  obtain ⟨hclass, hnext, b, hb, hmem⟩ := hback hne hp
  obtain ⟨j, hj, hpj⟩ := (h.free b hb _ hmem).mp hclass.2
  obtain ⟨-, hallj, -⟩ := h.list_spec hj
  have hji : j = i := (hallj _ hpj).1.listOf_eq hj ▸ hclass.listOf_eq hi
  rw [hji] at hpj
  obtain ⟨l₁, l₂, hl⟩ := List.append_of_mem hpj
  have hc := hd.toChain
  rw [hl] at hc
  have hsuf := (Chain.suffix hc).2.2
  rw [hnext] at hsuf
  have hlen := congrArg List.length (Chain.unique hsuf hc)
  simp only [List.length_append, List.length_cons] at hlen
  omega

/-- What the checks are worth. -/
theorem chunkInv (h : Validated cfg s blocks chunks lists) :
    ChunkInv cfg s blocks (fun b => (chunks b).map (chunkAt s.w.mem)) lists := by
  have hlisted : ∀ i ≤ cfg.max_pages, ∀ a ∈ lists i, ∃ b ∈ blocks, ∃ c ∈ (chunks b).map (chunkAt s.w.mem),
      c.addr = a ∧ listOf cfg c.pages = i ∧ c.flag = true := fun i hi a ha => by
    obtain ⟨hclass, b, hb, hab⟩ := (h.list_spec hi).2.1 a ha
    exact ⟨b, hb, chunkAt s.w.mem a, List.mem_map_of_mem hab, rfl, hclass.listOf_eq hi, hclass.2⟩
  refine
    { apart := h.apart, block := fun b hb => (h.block b hb).validBlock.1, flags := fun b hb c hc => ?_
      noTwo := fun b hb l c d r hl => ?_
      listed := hlisted, free := fun b hb c hc hflag => ?_
      lists := ⟨fun i hi => ?_, fun i hi a ha => ?_, fun i hi j hj a ha ha' => ?_⟩ }
  · obtain ⟨a, -, rfl⟩ := List.mem_map.mp hc
    rfl
  · obtain ⟨xs, ys, has, -, hys⟩ := List.map_eq_append_iff.mp hl
    obtain ⟨x, zs, rfl, rfl, hzs⟩ := List.map_eq_cons_iff.mp hys
    obtain ⟨y, ws, rfl, rfl, -⟩ := List.map_eq_cons_iff.mp hzs
    exact (h.block b hb).validBlock.2 xs x y ws has
  · obtain ⟨a, ha, rfl⟩ := List.mem_map.mp hc
    obtain ⟨i, hi, hai⟩ := (h.free b hb a ha).mp hflag
    have := ((h.list_spec hi).2.1 a hai).1.listOf_eq hi
    show a ∈ lists (listOf cfg (getPageCount s.w.mem a))
    rwa [this]
  · obtain ⟨hd, -⟩ := h.list_spec hi
    by_cases hne : s.c.freeListBegin i = 0
    · cases hl : lists i with
      | nil => exact hne
      | cons b l =>
        rw [hl] at hd
        exact absurd (hd.1 ▸ hne) hd.2.1
    · rwa [h.prevFree_first hi hne] at hd
  · obtain ⟨b, hb, c, hc, rfl, -⟩ := hlisted i hi a ha
    have hB := (h.block b hb).validBlock.1
    obtain ⟨h1, h2, h3, h4⟩ := hB.tiled.bounds hc
    have hb0 := hB.pos
    refine ⟨h4 hB.aligned, by omega, fun x hx => hB.committed x ⟨by have := hx.1; omega, ?_⟩⟩
    have := hx.2
    unfold Chunk.stop at h2
    omega
  · obtain ⟨h1, -⟩ := (h.list_spec hi).2.1 a ha
    obtain ⟨h2, -⟩ := (h.list_spec hj).2.1 a ha'
    exact h1.listOf_eq hi ▸ h2.listOf_eq hj

end Validated

/-- The collection of blocks and the base allocator, which caches nothing, are in
order. -/
structure InOrder (s : St BulkAllocator) : Prop where
  coll : ∃ pages used free, CollectionInPages.CollInv blockItemSize s.w.calls s.c.blocks pages used free
  idle : s.c.base.Idle

/-! ### A state of four chunks -/

/-- A block at 4096: 40 pages that are free, two live chunks of one page, and
2006 free pages. -/
def fourChunksMem (x : ℕ) : ℕ :=
  if x = 4096 then 40 else if x = 4104 then 167936 + 1 else if x = 4120 then 176128
  else if x = 167936 then 4096 + 1 else if x = 167944 then 172032
  else if x = 172032 then 167936 + 1 else if x = 172040 then 176128
  else if x = 176128 then 172032 + 2006 else if x = 176136 then 1 else if x = 176144 then 4096 else 0

def fourChunks : St BulkAllocator :=
  let base : PageAllocatorWithCaching := ⟨fun _ => 0, fun _ => ⟨.null, .null, 0, 0⟩, {}, PAGE_SIZE_EXP⟩
  ⟨⟨[.allocate 4096 bulkAllocatorT.commited_block_size], fourChunksMem, true⟩,
    ⟨base, ⟨base, 0, 0, 0, fun _ => ⟨0, 0⟩⟩, fun i => if i = bulkAllocatorT.max_pages then 4096 else 0⟩⟩

theorem fourChunks_inOrder : InOrder fourChunks :=
  ⟨⟨[], [], [], ⟨⟨rfl, fun _ _ => rfl⟩, rfl, rfl, List.Perm.refl _, rfl, by simp, List.nodup_nil⟩⟩, rfl, fun _ _ => rfl⟩

theorem fourChunks_validated : Validated bulkAllocatorT fourChunks [4096]
    (fun _ => [4096, 167936, 172032, 176128])
    (fun i => if i = bulkAllocatorT.max_pages then [4096, 176128] else []) := by
  have hpass : dbgValidateBlock bulkAllocatorT fourChunksMem 5 4096 = some [4096, 167936, 172032, 176128] := by
    decide +kernel
  have hlist : dbgValidateFreeList bulkAllocatorT fourChunksMem 5 4096 33 = some ([4096, 176128], [4096]) := by
    decide +kernel
  refine ⟨List.pairwise_singleton _ _, fun b hb => ?_, fun i hi => ?_, fun b hb a ha => ?_⟩
  · rw [List.mem_singleton.mp hb]
    exact ⟨by decide, by decide, fun x hx => if_pos hx, by decide +kernel, ⟨5, hpass⟩, by decide +kernel⟩
  · by_cases h : i = bulkAllocatorT.max_pages
    · subst h
      refine ⟨[4096], Or.inr ⟨5, hlist⟩, fun a ha => ⟨4096, by simp, ?_⟩⟩
      have ha' : a ∈ [4096, 176128] ∨ a ∈ [4096] := ha
      simp at ha' ⊢
      omega
    · refine ⟨[], Or.inl ⟨if_neg h, if_neg h, rfl⟩, fun a ha => ?_⟩
      simp [h] at ha
  · have hflag : isFree fourChunksMem a = true ↔ a ∈ [4096, 176128] := by
      fin_cases ha <;> decide +kernel
    refine hflag.trans ⟨fun h => ⟨bulkAllocatorT.max_pages, le_rfl, by simpa using h⟩, ?_⟩
    intro hx
    obtain ⟨i, -, hai⟩ := hx
    by_cases h : i = bulkAllocatorT.max_pages
    · simpa [h] using hai
    · simp [h] at hai

end BulkAllocator

end IibMalloc
