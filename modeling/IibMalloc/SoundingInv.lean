/-
# SoundingAddressPageAllocator: the invariant

`SoundInv` ties the cursors to two things: the list of blocks, and for each
bucket the number `n idx` of pages it was given. Page number `m` of a bucket
is page `m % pages_per_bucket` of block `m / pages_per_bucket` (`pageOf`);
block number `j` has given `n idx - j * pages_per_bucket` pages, up to all of
them (`usedAt`), and its commits are ahead of that by less than a batch
(`committedAt`).

`getPage_spec` says what one call does, whether it returns or throws, and
`getMultipage_spec` that a batch starts at a multiple of its size if every
call for the bucket was for a batch, and then asks the operating system only
for its first page.
-/
import IibMalloc.Sounding

namespace IibMalloc

open Lib

namespace SoundingAddressPageAllocator

variable {cfg : SoundingCfg} {os : Os}

/-! ### The ghost state -/

/-- The end of the batch of `c` pages that the first `u` pages reach into. -/
def committedAt (c u : ℕ) : ℕ := (u + c - 1) / c * c

/-- The pages a node of the block list has given a bucket that was given `n`:
all of them in the node before the first block, `min p (n - j * p)` in block
number `j`. -/
def usedAt (p n : ℕ) : ℕ → ℕ
  | 0 => p
  | j + 1 => min p (n - j * p)

section Cursors

variable {c u p n j : ℕ}

theorem committedAt_zero (hc : 0 < c) : committedAt c 0 = 0 := by
  rw [committedAt, Nat.div_eq_of_lt (by omega), Nat.zero_mul]

theorem committedAt_of_dvd (hc : 0 < c) (h : c ∣ u) : committedAt c u = u := by
  obtain ⟨q, rfl⟩ := h
  rw [committedAt, Nat.add_sub_assoc (by omega), Nat.mul_add_div hc, Nat.div_eq_of_lt (by omega),
    Nat.add_zero, Nat.mul_comm]

theorem committedAt_succ_of_dvd (hc : 0 < c) (h : c ∣ u) : committedAt c (u + 1) = u + c := by
  obtain ⟨q, rfl⟩ := h
  rw [committedAt, show c * q + 1 + c - 1 = c * q + c by omega, Nat.mul_add_div hc, Nat.div_self hc,
    Nat.add_mul, Nat.one_mul, Nat.mul_comm]

theorem le_committedAt (hc : 0 < c) : u ≤ committedAt c u := by
  have h1 := Nat.div_add_mod' (u + c - 1) c
  have h2 := Nat.mod_lt (u + c - 1) hc
  unfold committedAt
  omega

/-- Between two batches nothing is to be committed. -/
theorem committedAt_succ (hc : 0 < c) (h : ¬ c ∣ u) :
    committedAt c (u + 1) = committedAt c u ∧ u < committedAt c u := by
  have hlt := Nat.mod_lt u hc
  have hdm := Nat.div_add_mod u c
  have hq : ∀ v, u ≤ v → v < u + 2 → (v + c - 1) / c = u / c + 1 := fun v h1 h2 => by
    have hv : v + c - 1 = c * (u / c + 1) + (v - 1 - c * (u / c)) := by
      rw [Nat.mul_add]; omega
    have hlt' : v - 1 - c * (u / c) < c := by omega
    rw [hv, Nat.mul_add_div hc, Nat.div_eq_of_lt hlt', Nat.add_zero]
  have h1 := hq u le_rfl (by omega)
  have h2 := hq (u + 1) (by omega) (by omega)
  have h3 : (u / c + 1) * c = c * (u / c) + c := by ring
  unfold committedAt
  rw [h1, h2]
  exact ⟨rfl, by omega⟩

theorem eq_committedAt (hc : 0 < c) : u = committedAt c u ↔ c ∣ u := by
  refine ⟨fun h => ?_, fun h => (committedAt_of_dvd hc h).symm⟩
  by_contra hd
  have := (committedAt_succ hc hd).2
  omega

theorem committedAt_mono (hc : 0 < c) {u' : ℕ} (h : u ≤ u') : committedAt c u ≤ committedAt c u' :=
  Nat.mul_le_mul_right c (Nat.div_le_div_right (by omega))

theorem committedAt_le (hc : 0 < c) (hp : c ∣ p) (h : u ≤ p) : committedAt c u ≤ p :=
  (committedAt_mono hc h).trans (committedAt_of_dvd hc hp).le

/-- The block that the next page comes from. -/
theorem usedAt_of_mem (h1 : j * p ≤ n) (h2 : n ≤ (j + 1) * p) : usedAt p n (j + 1) = n - j * p := by
  rw [Nat.add_mul] at h2
  exact min_eq_right (by omega)

/-- The other blocks have given what they had given before. -/
theorem usedAt_succ_ne (h1 : j * p ≤ n) (h2 : n < (j + 1) * p) {k : ℕ} (hk : k ≠ j + 1) :
    usedAt p (n + 1) k = usedAt p n k := by
  cases k with
  | zero => rfl
  | succ i =>
    simp only [usedAt]
    rcases Nat.lt_or_ge i j with h | h
    · have := Nat.mul_le_mul_right p (Nat.succ_le_of_lt h)
      rw [Nat.succ_mul] at this
      omega
    · have := Nat.mul_le_mul_right p (show j + 1 ≤ i by omega)
      omega

end Cursors

/-- What a run has built: the collection's pages and its two lists, the
descriptors and addresses of the blocks in list order, and the number of pages
each bucket was given. -/
structure Ghost where
  pages : List ℕ
  used : List ℕ
  free : List ℕ
  blocks : List (ℕ × ℕ)
  n : ℕ → ℕ

namespace Ghost

/-- The node number `k` of the block list; node 0 is before the first block. -/
def node (g : Ghost) : ℕ → DescPtr
  | 0 => .start
  | k + 1 => match g.blocks[k]? with
    | some p => .item p.1
    | none => .null

/-- The address of block number `j`. -/
def block (g : Ghost) (j : ℕ) : ℕ := (g.blocks.getD j (0, 0)).2

/-- The page number `m` of a bucket. -/
def pageOf (cfg : SoundingCfg) (g : Ghost) (idx m : ℕ) : ℕ :=
  cfg.pageAddr (g.block (m / cfg.pages_per_bucket)) idx (m % cfg.pages_per_bucket)

/-- The address lies in a page handed out. -/
def Out (cfg : SoundingCfg) (g : Ghost) (x : ℕ) : Prop :=
  ∃ idx < cfg.bucket_cnt, ∃ m < g.n idx, Within (g.pageOf cfg idx m) 4096 x

/-- The address lies in a block. -/
def InBlock (cfg : SoundingCfg) (g : Ghost) (x : ℕ) : Prop :=
  ∃ p ∈ g.blocks, Within p.2 cfg.reservation_size x

/-- An address in a block or in a page for descriptors. -/
def Held (cfg : SoundingCfg) (g : Ghost) (x : ℕ) : Prop :=
  g.InBlock cfg x ∨ ∃ p ∈ g.pages, Within p 4096 x

/-- The next page of a bucket is handed out. -/
def give (g : Ghost) (idx : ℕ) : Ghost := { g with n := put g.n idx (g.n idx + 1) }

/-- A block joins the list. -/
def link (g : Ghost) (a b : ℕ) : Ghost := { g with blocks := g.blocks ++ [(a, b)] }

/-- The address is mapped, and lies in a page handed out or in no block: no
call for a page touches it. -/
def Keep (cfg : SoundingCfg) (g : Ghost) (calls : List OsCall) (x : ℕ) : Prop :=
  Mapped calls x ∧ (g.InBlock cfg x → g.Out cfg x)

/-- The regions obtained. -/
def regions (cfg : SoundingCfg) (g : Ghost) : List (ℕ × ℕ) :=
  (g.blocks.map fun p => (p.2, cfg.reservation_size)) ++ g.pages.map fun p => (p, 4096)

variable {g : Ghost} {j : ℕ}

theorem block_mem (hj : j < g.blocks.length) : ∃ p ∈ g.blocks, p.2 = g.block j ∧
    g.node (j + 1) = .item p.1 :=
  ⟨g.blocks[j], List.getElem_mem hj, by simp [block, hj], by simp [node, hj]⟩

theorem give_self {idx : ℕ} : (g.give idx).n idx = g.n idx + 1 := if_pos rfl

theorem give_ne {idx i : ℕ} (h : i ≠ idx) : (g.give idx).n i = g.n i := if_neg h

section Link

variable {a b k : ℕ}

@[simp] theorem link_length : (g.link a b).blocks.length = g.blocks.length + 1 := by simp [link]

theorem link_node (hk : k ≤ g.blocks.length) : (g.link a b).node k = g.node k := by
  cases k with
  | zero => rfl
  | succ k => simp [node, link, List.getElem?_append_left (show k < g.blocks.length by omega)]

theorem link_node_new : (g.link a b).node (g.blocks.length + 1) = .item a := by simp [node, link]

theorem link_block (hj : j < g.blocks.length) : (g.link a b).block j = g.block j := by
  simp [block, link, List.getD_eq_getElem?_getD, List.getElem?_append_left hj]

theorem link_block_new : (g.link a b).block g.blocks.length = b := by
  simp [block, link]

end Link

theorem node_eq_null {k : ℕ} : g.node k = .null ↔ g.blocks.length < k := by
  cases k with
  | zero => simp [node]
  | succ k =>
    by_cases hk : k < g.blocks.length
    · simp [node, hk]
    · simp [node, hk]
      omega

end Ghost

/-- The cursors of a node. -/
structure NodeInv (cfg : SoundingCfg) (c : SoundingAddressPageAllocator) (g : Ghost) (k : ℕ) :
    Prop where
  next : (c.desc (g.node k)).next = g.node (k + 1)
  use : ∀ idx < cfg.bucket_cnt,
    (c.desc (g.node k)).nextToUse idx = usedAt cfg.pages_per_bucket (g.n idx) k
  commit : ∀ idx < cfg.bucket_cnt, (c.desc (g.node k)).nextToCommit idx =
    committedAt cfg.commit_page_cnt (usedAt cfg.pages_per_bucket (g.n idx) k)
  block : ∀ j, k = j + 1 → (c.desc (g.node k)).blockAddress = g.block j

/-- The cursors of bucket `idx` at a node move to `u` and `v`. -/
structure CursorsMove (c c' : SoundingAddressPageAllocator) (p : DescPtr) (idx u v : ℕ) : Prop where
  other : ∀ q, q ≠ p → c'.desc q = c.desc q
  next : (c'.desc p).next = (c.desc p).next
  block : (c'.desc p).blockAddress = (c.desc p).blockAddress
  use : ∀ i, (c'.desc p).nextToUse i = if i = idx then u else (c.desc p).nextToUse i
  commit : ∀ i, (c'.desc p).nextToCommit i = if i = idx then v else (c.desc p).nextToCommit i

structure SoundInv (cfg : SoundingCfg) (calls : List OsCall) (c : SoundingAddressPageAllocator)
    (g : Ghost) : Prop where
  idle : c.base.Idle
  coll : CollectionInPages.CollInv cfg.descriptorSize calls c.pageBlockDescriptors g.pages g.used g.free
  used : ∀ p ∈ g.blocks, p.1 ∈ g.used
  nodup : (g.blocks.map Prod.fst).Nodup
  node : ∀ k ≤ g.blocks.length, NodeInv cfg c g k
  current : c.pageBlockListCurrent = g.node g.blocks.length
  /-- the head is at the node before the next page, or at its block -/
  head : ∀ idx < cfg.bucket_cnt, ∃ k ≤ g.blocks.length, c.indexHead idx = g.node k ∧
    g.n idx ≤ k * cfg.pages_per_bucket ∧ (k - 1) * cfg.pages_per_bucket ≤ g.n idx
  blockAt : ∀ p ∈ g.blocks, cfg.BlockAt p.2
  apart : g.blocks.Pairwise fun p q => Apart (p.2, cfg.reservation_size) (q.2, cfg.reservation_size)
  apartPages : ∀ p ∈ g.blocks, ∀ q ∈ g.pages, Apart (p.2, cfg.reservation_size) (q, 4096)
  mapped : ∀ x, g.InBlock cfg x → Mapped calls x
  committed : ∀ idx < cfg.bucket_cnt, ∀ j < g.blocks.length, ∀ x,
    InPages cfg (g.block j) idx 0
      (committedAt cfg.commit_page_cnt (usedAt cfg.pages_per_bucket (g.n idx) (j + 1))) x →
    pageState calls x = .committed

namespace SoundInv

variable {calls : List OsCall} {c c' : SoundingAddressPageAllocator} {g : Ghost} {idx j k x : ℕ}

theorem node_inj (h : SoundInv cfg calls c g) {k' : ℕ} (hk : k ≤ g.blocks.length)
    (hk' : k' ≤ g.blocks.length) (hn : g.node k = g.node k') : k = k' := by
  cases k with
  | zero =>
    cases k' with
    | zero => rfl
    | succ k' => rw [(g.block_mem (j := k') (by omega)).choose_spec.2.2] at hn; cases hn
  | succ k =>
    cases k' with
    | zero => rw [(g.block_mem (j := k) (by omega)).choose_spec.2.2] at hn; cases hn
    | succ k' =>
      have h1 : k < g.blocks.length := by omega
      have h2 : k' < g.blocks.length := by omega
      simp only [Ghost.node, List.getElem?_eq_getElem h1, List.getElem?_eq_getElem h2,
        DescPtr.item.injEq] at hn
      have h1' : k < (g.blocks.map Prod.fst).length := by simpa
      have h2' : k' < (g.blocks.map Prod.fst).length := by simpa
      have h3 : (g.blocks.map Prod.fst)[k] = (g.blocks.map Prod.fst)[k'] := by simpa using hn
      rw [h.nodup.getElem_inj_iff.mp h3]

theorem accessible (h : SoundInv cfg calls c g) (hk : k ≤ g.blocks.length) :
    Accessible cfg calls (g.node k) := by
  cases k with
  | zero => exact trivial
  | succ j =>
    obtain ⟨p, hp, -, hn⟩ := g.block_mem (j := j) (by omega)
    have hu := List.mem_append_left g.free (h.used p hp)
    have h8 : 8 ≤ cfg.descriptorSize := by unfold SoundingCfg.descriptorSize; omega
    rw [hn]
    exact ⟨h.coll.committed (by omega) hu ⟨le_rfl, by omega⟩,
      h.coll.committed (by omega) hu ⟨by omega, by omega⟩⟩

theorem block_at (h : SoundInv cfg calls c g) (hj : j < g.blocks.length) : cfg.BlockAt (g.block j) := by
  obtain ⟨p, hp, he, -⟩ := g.block_mem hj
  exact he ▸ h.blockAt p hp

/-- An address lies in one block only. -/
theorem block_unique (h : SoundInv cfg calls c g) {j' : ℕ} (hj : j < g.blocks.length)
    (hj' : j' < g.blocks.length) (hx : Within (g.block j) cfg.reservation_size x)
    (hx' : Within (g.block j') cfg.reservation_size x) : j = j' := by
  have hg := List.pairwise_iff_getElem.mp h.apart
  simp only [Ghost.block, List.getD_eq_getElem?_getD, List.getElem?_eq_getElem hj,
    List.getElem?_eq_getElem hj', Option.getD_some] at hx hx'
  rcases Nat.lt_trichotomy j j' with hlt | he | hlt
  · exact absurd hx' (hg j j' hj hj' hlt x hx)
  · exact he
  · exact absurd hx (hg j' j hj' hj hlt x hx')

/-- The pages a bucket was given are in the blocks there are. -/
theorem div_lt (h : SoundInv cfg calls c g) (hidx : idx < cfg.bucket_cnt) {m : ℕ} (hm : m < g.n idx) :
    m / cfg.pages_per_bucket < g.blocks.length := by
  obtain ⟨k, hk, -, hn, -⟩ := h.head idx hidx
  have := Nat.mul_le_mul_right cfg.pages_per_bucket hk
  exact (Nat.div_lt_iff_lt_mul cfg.pages_per_bucket_pos).mpr (by omega)

theorem inBlock (hj : j < g.blocks.length) (hx : Within (g.block j) cfg.reservation_size x) :
    g.InBlock cfg x := by
  obtain ⟨p, hp, he, -⟩ := g.block_mem hj
  exact ⟨p, hp, he.symm ▸ hx⟩

/-- A page for a bucket that was handed out is one of the first `n idx`. -/
theorem out_iff (h : SoundInv cfg calls c g) (hidx : idx < cfg.bucket_cnt) (hj : j < g.blocks.length)
    (hk : k < cfg.pages_per_bucket) (hx : Within (cfg.pageAddr (g.block j) idx k) 4096 x) :
    g.Out cfg x ↔ j * cfg.pages_per_bucket + k < g.n idx := by
  have hpos := cfg.pages_per_bucket_pos
  constructor
  · intro hx
    obtain ⟨idx', hidx', m, hm, hx'⟩ := hx
    have hj' := h.div_lt hidx' hm
    have hk' := Nat.mod_lt m hpos
    have hb := SoundingCfg.within_block (h.block_at hj) hidx hk hx
    have hb' := SoundingCfg.within_block (h.block_at hj') hidx' hk' hx'
    obtain rfl := h.block_unique hj hj' hb hb'
    obtain ⟨rfl, rfl⟩ := SoundingCfg.page_unique hidx hk hidx' hk' hx hx'
    rw [Nat.div_add_mod']
    exact hm
  · intro hn
    refine ⟨idx, hidx, _, hn, ?_⟩
    rwa [Ghost.pageOf, Nat.add_comm, Nat.add_mul_div_right _ _ hpos, Nat.div_eq_of_lt hk,
      Nat.zero_add, Nat.add_mul_mod_self_right, Nat.mod_eq_of_lt hk]

theorem grow {w w' : World} (h : SoundInv cfg w.calls c g) (hg : Grows w w') :
    SoundInv cfg w'.calls c g :=
  { h with
    coll := h.coll.calls_mono fun x => (hg x).1
    mapped := fun x hx => (hg x).2 (h.mapped x hx)
    committed := fun idx hidx j hj x hx => (hg x).1 (h.committed idx hidx j hj x hx) }

/-- Only the base class has changed. -/
theorem base (h : SoundInv cfg calls c g) (hc : SameButBase c c') : SoundInv cfg calls c' g := by
  have hd : ∀ p, c'.desc p = c.desc p := fun p => by rw [hc.1]; cases p <;> rfl
  have hcoll : c'.pageBlockDescriptors = c.pageBlockDescriptors := by rw [hc.1]
  have hcur : c'.pageBlockListCurrent = c.pageBlockListCurrent := by rw [hc.1]
  have hhead : c'.indexHead = c.indexHead := by rw [hc.1]
  refine ⟨hc.2, hcoll ▸ h.coll, h.used, h.nodup, fun k hk => ?_, hcur.trans h.current,
    fun idx hidx => hhead ▸ h.head idx hidx, h.blockAt, h.apart, h.apartPages, h.mapped, h.committed⟩
  obtain ⟨h1, h2, h3, h4⟩ := h.node k hk
  rw [← hd] at h1 h2 h3 h4
  exact ⟨h1, h2, h3, h4⟩

/-- What a block gives has changed for the block and the bucket of the new page. -/
theorem usedAt_give (h1 : j * cfg.pages_per_bucket ≤ g.n idx) (h2 : g.n idx < (j + 1) * cfg.pages_per_bucket)
    {i : ℕ} (h : i ≠ idx ∨ k ≠ j + 1) :
    usedAt cfg.pages_per_bucket ((g.give idx).n i) k = usedAt cfg.pages_per_bucket (g.n i) k := by
  by_cases hi : i = idx
  · subst hi
    rw [Ghost.give_self]
    exact usedAt_succ_ne h1 h2 (h.resolve_left (not_not.mpr rfl))
  · rw [Ghost.give_ne hi]

theorem usedAt_give_self (h1 : j * cfg.pages_per_bucket ≤ g.n idx)
    (h2 : g.n idx < (j + 1) * cfg.pages_per_bucket) :
    usedAt cfg.pages_per_bucket ((g.give idx).n idx) (j + 1) = g.n idx - j * cfg.pages_per_bucket + 1 := by
  rw [Ghost.give_self, usedAt_of_mem (by omega) h2]
  omega

/-- The cursors of the nodes when block `j` gives the next page of bucket `idx`. -/
theorem node_give (h : SoundInv cfg calls c g) (hj : j < g.blocks.length)
    (h1 : j * cfg.pages_per_bucket ≤ g.n idx) (h2 : g.n idx < (j + 1) * cfg.pages_per_bucket)
    (hdesc : CursorsMove c c' (g.node (j + 1)) idx (g.n idx - j * cfg.pages_per_bucket + 1)
      (committedAt cfg.commit_page_cnt (g.n idx - j * cfg.pages_per_bucket + 1)))
    (hk : k ≤ g.blocks.length) : NodeInv cfg c' (g.give idx) k := by
  obtain ⟨n1, n2, n3, n4⟩ := h.node k hk
  by_cases hkj : k = j + 1
  · subst hkj
    refine ⟨hdesc.next.trans n1, fun i hi => (hdesc.use i).trans ?_,
      fun i hi => (hdesc.commit i).trans ?_, fun j' hj' => hdesc.block.trans (n4 j' hj')⟩
    · by_cases hii : i = idx
      · subst hii
        rw [if_pos rfl, usedAt_give_self h1 h2]
      · rw [if_neg hii, usedAt_give h1 h2 (Or.inl hii), n2 i hi]
    · by_cases hii : i = idx
      · subst hii
        rw [if_pos rfl, usedAt_give_self h1 h2]
      · rw [if_neg hii, usedAt_give h1 h2 (Or.inl hii), n3 i hi]
  · have hd := hdesc.other (g.node k) fun he => hkj (h.node_inj hk (by omega) he)
    rw [← hd] at n1 n2 n3 n4
    refine ⟨n1, fun i hi => ?_, fun i hi => ?_, n4⟩
    · rw [usedAt_give h1 h2 (Or.inr hkj)]
      exact n2 i hi
    · rw [usedAt_give h1 h2 (Or.inr hkj)]
      exact n3 i hi

/-- The next page of bucket `idx`, from block `j`, is given out: the cursors of
that block move, and the head is there. -/
theorem give (h : SoundInv cfg calls c g) (hidx : idx < cfg.bucket_cnt) (hj : j < g.blocks.length)
    (h1 : j * cfg.pages_per_bucket ≤ g.n idx) (h2 : g.n idx < (j + 1) * cfg.pages_per_bucket)
    (hidle : c'.base.Idle)
    (hcoll : CollectionInPages.CollInv cfg.descriptorSize calls c'.pageBlockDescriptors
      g.pages g.used g.free)
    (hcur : c'.pageBlockListCurrent = c.pageBlockListCurrent)
    (hhead : ∀ i, c'.indexHead i = if i = idx then g.node (j + 1) else c.indexHead i)
    (hdesc : CursorsMove c c' (g.node (j + 1)) idx (g.n idx - j * cfg.pages_per_bucket + 1)
      (committedAt cfg.commit_page_cnt (g.n idx - j * cfg.pages_per_bucket + 1)))
    (hcom : ∀ x, InPages cfg (g.block j) idx 0
      (committedAt cfg.commit_page_cnt (g.n idx - j * cfg.pages_per_bucket + 1)) x →
      pageState calls x = .committed) :
    SoundInv cfg calls c' (g.give idx) := by
  refine ⟨hidle, hcoll, h.used, h.nodup, fun k hk => ?_, hcur.trans h.current, fun i hi => ?_,
    h.blockAt, h.apart, h.apartPages, h.mapped, fun i hi j' hj' x hx => ?_⟩
  · exact h.node_give hj h1 h2 hdesc hk
  · by_cases hii : i = idx
    · subst hii
      refine ⟨j + 1, hj, by rw [hhead, if_pos rfl]; rfl, by rw [Ghost.give_self]; exact h2, ?_⟩
      rw [Ghost.give_self, Nat.add_sub_cancel]
      omega
    · obtain ⟨k, hk, hk1, hk2⟩ := h.head i hi
      rw [Ghost.give_ne hii]
      exact ⟨k, hk, by rw [hhead, if_neg hii]; exact hk1, hk2⟩
  · by_cases hij : i ≠ idx ∨ j' + 1 ≠ j + 1
    · rw [usedAt_give h1 h2 hij] at hx
      exact h.committed i hi j' hj' x hx
    · obtain ⟨rfl, hjj⟩ : i = idx ∧ j' = j := by
        rw [not_or, not_not, not_not] at hij
        exact ⟨hij.1, by omega⟩
      subst hjj
      rw [usedAt_give_self h1 h2] at hx
      exact hcom x hx

/-- The head moves on to a block that exists. -/
theorem advance (h : SoundInv cfg calls c g) (idx : ℕ) (hk : k < g.blocks.length)
    (hn : g.n idx = k * cfg.pages_per_bucket) :
    SoundInv cfg calls
      { c with indexHead := fun i => if i = idx then g.node (k + 1) else c.indexHead i } g := by
  refine { h with node := fun k hk => ?_, head := fun i hi => ?_ }
  · have hd : ∀ (q : DescPtr) (f : ℕ → DescPtr), desc { c with indexHead := f } q = c.desc q :=
      fun q f => by cases q <;> rfl
    obtain ⟨h1, h2, h3, h4⟩ := h.node k hk
    constructor <;> simpa only [hd]
  · by_cases hi' : i = idx
    · subst hi'
      exact ⟨k + 1, hk, if_pos rfl, by rw [hn]; exact Nat.mul_le_mul_right _ (by omega), by
        rw [hn, Nat.add_sub_cancel]⟩
    · obtain ⟨k', hk', h1, h2⟩ := h.head i hi
      exact ⟨k', hk', by simpa only [if_neg hi'] using h1, h2⟩

/-- The collection may have a new item, and a new page. -/
theorem collection {w w' : World} (h : SoundInv cfg w.calls c g) {pages used free : List ℕ}
    {d : CollectionInPages PageBlockDescriptor}
    (hcoll : CollectionInPages.CollInv cfg.descriptorSize w'.calls d pages used free)
    (hused : ∀ x ∈ g.used, x ∈ used)
    (hheap : ∀ x ∈ g.used, d.heap x = c.pageBlockDescriptors.heap x) (hg : Grows w w')
    (hp : ∀ q ∈ pages, q ∈ g.pages ∨ FreshRegion w.calls q 4096) :
    SoundInv cfg w'.calls { c with pageBlockDescriptors := d }
      { g with pages, used, free } := by
  have hdesc : ∀ k ≤ g.blocks.length,
      desc { c with pageBlockDescriptors := d } (g.node k) = c.desc (g.node k) := fun k hk => by
    cases k with
    | zero => rfl
    | succ j =>
      obtain ⟨p, hpb, -, hn⟩ := g.block_mem (j := j) (by omega)
      rw [hn]
      simp only [desc, hheap p.1 (h.used p hpb)]
  refine ⟨h.idle, hcoll, fun p hp => hused _ (h.used p hp), h.nodup, fun k hk => ?_,
    h.current, h.head, h.blockAt, h.apart, fun p hpb q hq => ?_, fun x hx => (hg x).2 (h.mapped x hx),
    fun idx hidx j hj x hx => (hg x).1 (h.committed idx hidx j hj x hx)⟩
  · obtain ⟨h1, h2, h3, h4⟩ := h.node k hk
    rw [← hdesc k hk] at h1 h2 h3 h4
    exact ⟨h1, h2, h3, h4⟩
  · rcases hp q hq with hq | hf
    · exact h.apartPages p hpb q hq
    · intro x hx hxq
      exact h.mapped x ⟨p, hpb, hx⟩ (hf.unmapped x hxq)

/-- The cursors of the nodes when a new block, which has given nothing, is linked
behind the last one. -/
theorem node_link (h : SoundInv cfg calls c g) {a b : ℕ}
    (hu : ∀ idx < cfg.bucket_cnt, usedAt cfg.pages_per_bucket (g.n idx) (g.blocks.length + 1) = 0)
    (hnew : (c'.desc (.item a)).next = .null ∧ (c'.desc (.item a)).blockAddress = b ∧
      ∀ i < cfg.bucket_cnt, (c'.desc (.item a)).nextToUse i = 0 ∧ (c'.desc (.item a)).nextToCommit i = 0)
    (hlast : c'.desc (g.node g.blocks.length) = { c.desc (g.node g.blocks.length) with next := .item a })
    (hother : ∀ k < g.blocks.length, c'.desc (g.node k) = c.desc (g.node k))
    (hk : k ≤ g.blocks.length + 1) : NodeInv cfg c' (g.link a b) k := by
  rcases Nat.lt_trichotomy k g.blocks.length with hlt | rfl | hgt
  · -- a node before the last
    obtain ⟨n1, n2, n3, n4⟩ := h.node k (by omega)
    rw [← hother k hlt] at n1 n2 n3 n4
    refine ⟨?_, ?_, ?_, fun j hj => ?_⟩ <;> rw [Ghost.link_node (by omega)]
    · rw [Ghost.link_node (by omega)]; exact n1
    · exact n2
    · exact n3
    · rw [Ghost.link_block (by omega)]; exact n4 j hj
  · -- the last node, which is linked to the new one
    obtain ⟨n1, n2, n3, n4⟩ := h.node g.blocks.length le_rfl
    refine ⟨?_, ?_, ?_, fun j hj => ?_⟩ <;> rw [Ghost.link_node le_rfl, hlast]
    · exact Ghost.link_node_new.symm
    · exact n2
    · exact n3
    · rw [Ghost.link_block (by omega)]; exact n4 j hj
  · -- the new node
    obtain rfl : k = g.blocks.length + 1 := by omega
    obtain ⟨n1, n2, n3⟩ := hnew
    refine ⟨?_, fun idx hidx => ?_, fun idx hidx => ?_, fun j hj => ?_⟩ <;> rw [Ghost.link_node_new]
    · rw [n1]
      exact (Ghost.node_eq_null.mpr (by simp)).symm
    · exact (n3 idx hidx).1.trans (hu idx hidx).symm
    · rw [show (g.link a b).n idx = g.n idx from rfl, hu idx hidx,
        committedAt_zero cfg.commit_page_cnt_pos]
      exact (n3 idx hidx).2
    · obtain rfl : j = g.blocks.length := by omega
      rw [Ghost.link_block_new]
      exact n2

/-- A new block is linked behind the last one. -/
theorem link (h : SoundInv cfg calls c g) {a b : ℕ} (hau : a ∈ g.used)
    (hne : ∀ p ∈ g.blocks, p.1 ≠ a) (hb : cfg.BlockAt b)
    (hapart : ∀ p ∈ g.blocks, Apart (p.2, cfg.reservation_size) (b, cfg.reservation_size))
    (hpages : ∀ q ∈ g.pages, Apart (b, cfg.reservation_size) (q, 4096))
    (hmap : ∀ x, Within b cfg.reservation_size x → Mapped calls x) (hidle : c'.base.Idle)
    (hcoll : CollectionInPages.CollInv cfg.descriptorSize calls c'.pageBlockDescriptors
      g.pages g.used g.free)
    (hcur : c'.pageBlockListCurrent = .item a) (hhead : c'.indexHead = c.indexHead)
    (hnew : (c'.desc (.item a)).next = .null ∧ (c'.desc (.item a)).blockAddress = b ∧
      ∀ i < cfg.bucket_cnt, (c'.desc (.item a)).nextToUse i = 0 ∧ (c'.desc (.item a)).nextToCommit i = 0)
    (hlast : c'.desc (g.node g.blocks.length) = { c.desc (g.node g.blocks.length) with next := .item a })
    (hother : ∀ k < g.blocks.length, c'.desc (g.node k) = c.desc (g.node k)) :
    SoundInv cfg calls c' (g.link a b) := by
  have hmem : ∀ p, p ∈ (g.link a b).blocks ↔ p ∈ g.blocks ∨ p = (a, b) := by simp [Ghost.link]
  have hn : ∀ idx < cfg.bucket_cnt, g.n idx ≤ g.blocks.length * cfg.pages_per_bucket :=
    fun idx hidx => by
      obtain ⟨k, hk, -, h1, -⟩ := h.head idx hidx
      exact h1.trans (Nat.mul_le_mul_right _ hk)
  have hu0 : ∀ idx < cfg.bucket_cnt,
      usedAt cfg.pages_per_bucket (g.n idx) (g.blocks.length + 1) = 0 := fun idx hidx => by
    have := hn idx hidx
    simp only [usedAt]
    omega
  refine ⟨hidle, hcoll, fun p hp => ?_, ?_, fun k hk => ?_, ?_, fun idx hidx => ?_, fun p hp => ?_, ?_,
    fun p hp => ?_, fun x hx => ?_, fun idx hidx j hj x hx => ?_⟩
  · rcases (hmem p).mp hp with hp | rfl
    · exact h.used p hp
    · exact hau
  · simp only [Ghost.link, List.map_append, List.map_cons, List.map_nil]
    refine List.nodup_append.mpr ⟨h.nodup, List.nodup_singleton _, fun x hx y hy he => ?_⟩
    obtain ⟨p, hp, rfl⟩ := List.mem_map.mp hx
    rw [List.mem_singleton] at hy
    exact hne p hp (he.trans hy)
  · rw [Ghost.link_length] at hk
    exact h.node_link hu0 hnew hlast hother hk
  · rw [Ghost.link_length, Ghost.link_node_new]
    exact hcur
  · obtain ⟨k, hk, h1, h2⟩ := h.head idx hidx
    exact ⟨k, by rw [Ghost.link_length]; omega, by rw [hhead, Ghost.link_node hk]; exact h1, h2⟩
  · rcases (hmem p).mp hp with hp | rfl
    · exact h.blockAt p hp
    · exact hb
  · refine List.pairwise_append.mpr ⟨h.apart, List.pairwise_singleton _ _, fun p hp q hq => ?_⟩
    rw [List.mem_singleton] at hq
    subst hq
    exact hapart p hp
  · rcases (hmem p).mp hp with hp | rfl
    · exact h.apartPages p hp
    · exact hpages
  · obtain ⟨p, hp, hx⟩ := hx
    rcases (hmem p).mp hp with hp | rfl
    · exact h.mapped x ⟨p, hp, hx⟩
    · exact hmap x hx
  · rw [Ghost.link_length] at hj
    rcases Nat.lt_or_ge j g.blocks.length with hj' | hj'
    · rw [Ghost.link_block hj'] at hx
      exact h.committed idx hidx j hj' x hx
    · obtain rfl : j = g.blocks.length := by omega
      rw [show (g.link a b).n idx = g.n idx from rfl, hu0 idx hidx,
        committedAt_zero cfg.commit_page_cnt_pos] at hx
      obtain ⟨t, -, ht, -⟩ := hx
      omega

end SoundInv

/-! ### What a call for a page does to the world -/

/-- From `w` to `w'` a call for a page of bucket `idx`, or a part of it, took
the ghost state from `g` to `g'`. -/
structure PageStep (cfg : SoundingCfg) (idx : ℕ) (w w' : World) (g g' : Ghost) : Prop where
  blocks : g.blocks <+: g'.blocks
  suffix : w.calls <:+ w'.calls
  grows : Grows w w'
  asserts : w'.assertsHold = w.assertsHold
  frame : Unchanged (g.Keep cfg w.calls) w w'
  /-- a new block was not mapped before -/
  fresh : ∀ x, g'.InBlock cfg x → Mapped w.calls x → g.InBlock cfg x
  /-- nor was a new page for descriptors -/
  freshPages : ∀ p ∈ g'.pages, p ∈ g.pages ∨ ∀ x, Within p 4096 x → ¬ Mapped w.calls x
  /-- what is mapped is held, or was mapped before and not held -/
  cover : ∀ x, Mapped w'.calls x → g'.Held cfg x ∨ Mapped w.calls x ∧ ¬ g.Held cfg x
  regions : ∀ R, (obtained w.calls).Perm (g.regions cfg ++ R) →
    (obtained w'.calls).Perm (g'.regions cfg ++ R)
  releases : releases w'.calls = releases w.calls
  reserves : ∀ p ∈ g'.blocks, p ∈ g.blocks ∨ .reserve p.2 cfg.reservation_size ∈ w'.calls
  /-- what is reserved are the new blocks -/
  reservations : ∃ bs, g'.blocks = g.blocks ++ bs ∧
    reservations w'.calls = (bs.map fun p => (p.2, cfg.reservation_size)).reverse ++ reservations w.calls
  /-- what is committed are pages of the next batch of the bucket -/
  commits : ∃ rs, commitRanges w'.calls = rs ++ commitRanges w.calls ∧ rs.Pairwise Apart ∧
    ∀ r ∈ rs, g.n idx / cfg.pages_per_bucket < g'.blocks.length ∧ ∀ x, Within r.1 r.2 x →
      InPages cfg (g'.block (g.n idx / cfg.pages_per_bucket)) idx
        (committedAt cfg.commit_page_cnt (g.n idx % cfg.pages_per_bucket))
        (committedAt cfg.commit_page_cnt (g.n idx % cfg.pages_per_bucket + 1)) x

namespace PageStep

variable {idx : ℕ} {w w' : World} {g g' : Ghost}

theorem refl : PageStep cfg idx w w g g :=
  ⟨List.prefix_refl _, List.suffix_refl _, .refl, rfl, .refl, fun _ h _ => h, fun _ h => Or.inl h,
    fun x hx => (em (g.Held cfg x)).imp_right fun hn => ⟨hx, hn⟩, fun _ h => h, rfl, fun _ h => Or.inl h,
    ⟨[], by simp, rfl⟩, [], rfl, by simp, by simp⟩

theorem refused (h : PageStep cfg idx w w' g g') {m : ℕ} : PageStep cfg idx w (w'.refused m) g g' :=
  { h with
    suffix := h.suffix.trans (List.suffix_cons _ _)
    grows := h.grows.trans .refused
    frame := h.frame.trans .refused
    cover := fun x hx => h.cover x hx
    reserves := fun p hp => (h.reserves p hp).imp_right (List.mem_cons_of_mem _) }

/-- The ghost state changes in what no region depends on. -/
theorem ghost (h : PageStep cfg idx w w' g g') {g₂ : Ghost} (hb : g₂.blocks = g'.blocks)
    (hp : g₂.pages = g'.pages) : PageStep cfg idx w w' g g₂ := by
  have hr : g₂.regions cfg = g'.regions cfg := by simp only [Ghost.regions, hb, hp]
  have hbl : ∀ j, g₂.block j = g'.block j := fun j => by simp only [Ghost.block, hb]
  refine { h with blocks := hb ▸ h.blocks, fresh := ?_, freshPages := hp ▸ h.freshPages, cover := ?_
                  regions := hr ▸ h.regions, reserves := hb ▸ h.reserves, reservations := hb ▸ h.reservations
                  commits := ?_ }
  · unfold Ghost.InBlock
    rw [hb]
    exact h.fresh
  · unfold Ghost.Held Ghost.InBlock
    rw [hb, hp]
    exact h.cover
  · rw [hb, hbl]
    exact h.commits

theorem allocated (h : PageStep cfg idx w w' g g') {p : ℕ} (hf : FreshRegion w'.calls p 4096)
    (hc : commitRanges w'.calls = commitRanges w.calls) {g₂ : Ghost}
    (hb : g₂.blocks = g'.blocks) (hp : g₂.pages = p :: g'.pages) :
    PageStep cfg idx w (w'.allocated p 4096) g g₂ := by
  refine ⟨hb ▸ h.blocks, h.suffix.trans (List.suffix_cons _ _), h.grows.trans (.allocated hf),
    h.asserts, h.frame.trans (.allocated hf fun x hx => (h.grows x).2 hx.1), ?_, fun q hq => ?_, fun x hx => ?_,
    fun R hR => ?_, h.releases, fun q hq => (h.reserves q (hb ▸ hq)).imp_right (List.mem_cons_of_mem _), hb ▸ h.reservations, [], hc,
    by simp, by simp⟩
  · unfold Ghost.InBlock
    rw [hb]
    exact h.fresh
  · rw [hp] at hq
    rcases List.mem_cons.mp hq with rfl | hq
    · exact Or.inr fun x hx hm => (h.grows x).2 hm (hf.unmapped x hx)
    · exact h.freshPages q hq
  · have hheld : g₂.Held cfg x ↔ Within p 4096 x ∨ g'.Held cfg x := by
      simp only [Ghost.Held, Ghost.InBlock, hb, hp, List.mem_cons, exists_eq_or_imp]
      exact or_left_comm
    rw [hheld]
    by_cases hin : Within p 4096 x
    · exact Or.inl (Or.inl hin)
    · refine (h.cover x ?_).imp_left Or.inr
      unfold Mapped at hx
      rwa [show pageState (w'.allocated p 4096).calls x = pageState w'.calls x from if_neg hin] at hx
  have := h.regions R hR
  simp only [World.allocated, obtained, Ghost.regions, hb, hp, List.map_cons, List.append_assoc,
    List.cons_append] at this ⊢
  exact (this.cons _).trans List.perm_middle.symm

theorem reserved (h : PageStep cfg idx w w' g g') {a b : ℕ}
    (hf : FreshRegion w'.calls b cfg.reservation_size)
    (hc : commitRanges w'.calls = commitRanges w.calls) :
    PageStep cfg idx w (w'.reserved b cfg.reservation_size) g (g'.link a b) := by
  refine ⟨h.blocks.trans (List.prefix_append _ _), h.suffix.trans (List.suffix_cons _ _),
    h.grows.trans (.reserved hf), h.asserts,
    h.frame.trans (.reserved hf fun x hx => (h.grows x).2 hx.1), fun x hx hm => ?_, h.freshPages, fun x hx => ?_,
    fun R hR => ?_, h.releases, fun q hq => ?_, ?_, [], hc, by simp, by simp⟩
  · obtain ⟨p, hp, hx⟩ := hx
    rcases List.mem_append.mp hp with hp | hp
    · exact h.fresh x ⟨p, hp, hx⟩ hm
    · rw [List.mem_singleton] at hp
      subst hp
      exact absurd (hf.unmapped x hx) ((h.grows x).2 hm)
  · by_cases hin : Within b cfg.reservation_size x
    · exact Or.inl (Or.inl ⟨(a, b), List.mem_append_right _ (List.mem_singleton_self _), hin⟩)
    · refine (h.cover x ?_).imp_left (Or.imp_left fun hh => ?_)
      · unfold Mapped at hx
        rwa [show pageState (w'.reserved b cfg.reservation_size).calls x = pageState w'.calls x from if_neg hin] at hx
      · obtain ⟨p, hp, hw⟩ := hh
        exact ⟨p, List.mem_append_left _ hp, hw⟩
  · have := h.regions R hR
    simp only [World.reserved, obtained, Ghost.regions, Ghost.link, List.map_append, List.map_cons,
      List.map_nil, List.append_assoc, List.cons_append, List.nil_append] at this ⊢
    exact (this.cons _).trans List.perm_middle.symm
  · rcases List.mem_append.mp hq with hq | hq
    · exact (h.reserves q hq).imp_right (List.mem_cons_of_mem _)
    · rw [List.mem_singleton] at hq
      subst hq
      exact Or.inr List.mem_cons_self
  · obtain ⟨bs, h1, h2⟩ := h.reservations
    refine ⟨bs ++ [(a, b)], by rw [Ghost.link, h1, List.append_assoc], ?_⟩
    rw [List.map_append, List.reverse_append, List.append_assoc, ← h2]
    rfl

theorem committedAll (h : PageStep cfg idx w w' g g')
    (hc : commitRanges w'.calls = commitRanges w.calls) {rs : List (ℕ × ℕ)} (hrs : rs.Pairwise Apart)
    (hlen : g.n idx / cfg.pages_per_bucket < g'.blocks.length)
    (hin : ∀ r ∈ rs, ∀ x, Within r.1 r.2 x →
      InPages cfg (g'.block (g.n idx / cfg.pages_per_bucket)) idx
        (committedAt cfg.commit_page_cnt (g.n idx % cfg.pages_per_bucket))
        (committedAt cfg.commit_page_cnt (g.n idx % cfg.pages_per_bucket + 1)) x)
    (hkeep : ∀ r ∈ rs, ∀ x, Within r.1 r.2 x → ¬ g.Keep cfg w.calls x)
    (hblock : ∀ r ∈ rs, ∀ x, Within r.1 r.2 x → g'.InBlock cfg x) :
    PageStep cfg idx w (w'.committedAll rs) g g' := by
  obtain ⟨h1, h2, h3, h4⟩ := World.committedAll_other rs w'
  refine ⟨h.blocks, h.suffix.trans h4, h.grows.trans .committedAll, h3.trans h.asserts,
    h.frame.trans (.committedAll fun r hr x hx hw => hkeep r hr x hw hx), h.fresh, h.freshPages, fun x hx => ?_,
    fun R hR => h1 ▸ h.regions R hR, h2.trans h.releases,
    fun p hp => (h.reserves p hp).imp_right fun hm => h4.subset hm,
    (World.committedAll_reservations rs w').symm ▸ h.reservations, rs.reverse, ?_, ?_, fun r hr => ?_⟩
  · by_cases hin : ∃ r ∈ rs, Within r.1 r.2 x
    · obtain ⟨r, hr, hin⟩ := hin
      exact Or.inl (Or.inl (hblock r hr x hin))
    · have hsame : Unchanged (fun y => y = x) w' (w'.committedAll rs) :=
        .committedAll fun r hr y hy hw => hin ⟨r, hr, hy ▸ hw⟩
      refine h.cover x ?_
      unfold Mapped at hx
      rwa [(hsame x rfl).1] at hx
  · rw [World.committedAll_commitRanges, hc]
  · rw [List.pairwise_reverse]
    exact hrs.imp fun hrr x hx hx' => hrr x hx' hx
  · exact ⟨hlen, hin r (List.mem_reverse.mp hr)⟩

theorem write (h : PageStep cfg idx w w' g g') {a v : ℕ} (hkeep : ¬ g.Keep cfg w.calls a) :
    PageStep cfg idx w { w' with mem := store w'.mem a v } g g' :=
  { h with
    grows := h.grows
    frame := h.frame.trans fun _ hx => ⟨rfl, store_ne fun he => hkeep (he ▸ hx)⟩ }

end PageStep

section Keep

variable {calls : List OsCall} {c : SoundingAddressPageAllocator} {g : Ghost} {idx j x : ℕ}

/-- The pages of a block behind those handed out may be touched. -/
theorem SoundInv.not_keep (h : SoundInv cfg calls c g) (hidx : idx < cfg.bucket_cnt)
    (hj : j < g.blocks.length)
    (hx : InPages cfg (g.block j) idx (g.n idx - j * cfg.pages_per_bucket) cfg.pages_per_bucket x)
    (calls' : List OsCall) : ¬ g.Keep cfg calls' x := by
  intro hx
  obtain ⟨-, hk⟩ := hx
  obtain ⟨t, h1, h2, h3⟩ := hx
  have hb := SoundingCfg.within_block (h.block_at hj) hidx h2 h3
  have := (h.out_iff hidx hj h2 h3).mp (hk (SoundInv.inBlock hj hb))
  omega

/-- A block that is reserved during the call may be touched. -/
theorem not_keep_fresh {w w' : World} (hg : Grows w w') {b n : ℕ} (hf : FreshRegion w'.calls b n)
    (hx : Within b n x) : ¬ g.Keep cfg w.calls x :=
  fun hk => (hg x).2 hk.1 (hf.unmapped x hx)

end Keep

end SoundingAddressPageAllocator

end IibMalloc
