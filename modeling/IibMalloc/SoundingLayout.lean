/-
# SoundingAddressPageAllocator: where the pages of a bucket lie

A reserved block has `bucket_cnt * pages_per_bucket` pages, and the page for
bucket `idx` numbered `k` is the page of the block whose page number is
`idx * pages_per_bucket + k` modulo that count. So the index of the bucket is
read off any address in the page (`addressToIdx_of_within`), wherever the
block begins; a block that is not aligned to its size has its pages wrapped
around, once (`pageAddr_succ`, `pageAddr_wrap`).

`pageAddr` is the arithmetic of `idxToPageAddr`; `pageAddr_eq` says it is
`Lib.place`.
-/
import IibMalloc.VirtualMemory
import IibMalloc.Lib.Wrap

namespace IibMalloc

open Lib

/-- The template arguments that the `static_assert`s accept. -/
structure SoundingCfg where
  bucket_cnt_exp : ℕ
  reservation_size_exp : ℕ
  commit_page_cnt_exp : ℕ
  multipage_page_cnt_exp : ℕ
  reservation_ge : bucket_cnt_exp + PAGE_SIZE_EXP ≤ reservation_size_exp
  commit_ge : multipage_page_cnt_exp ≤ commit_page_cnt_exp
  commit_le : commit_page_cnt_exp ≤ reservation_size_exp - bucket_cnt_exp - PAGE_SIZE_EXP
  /-- `UINT16_MAX > pages_per_bucket` -/
  pages_lt : 1 <<< (reservation_size_exp - bucket_cnt_exp - PAGE_SIZE_EXP) < 2 ^ 16 - 1
  /-- the constants are shifts of an `int` -/
  reservation_le : reservation_size_exp ≤ 30

/-- The arguments `SerializableAllocatorBase` gives. -/
def pageAllocatorT : SoundingCfg where
  bucket_cnt_exp := 6
  reservation_size_exp := 23
  commit_page_cnt_exp := 4
  multipage_page_cnt_exp := 3
  reservation_ge := by decide
  commit_ge := by decide
  commit_le := by decide
  pages_lt := by decide
  reservation_le := by decide

namespace SoundingCfg

variable (cfg : SoundingCfg)

def reservation_size : ℕ := 1 <<< cfg.reservation_size_exp
def bucket_cnt : ℕ := 1 <<< cfg.bucket_cnt_exp
def multipage_page_cnt : ℕ := 1 <<< cfg.multipage_page_cnt_exp
def pages_per_bucket_exp : ℕ := cfg.reservation_size_exp - cfg.bucket_cnt_exp - PAGE_SIZE_EXP
def pages_per_bucket : ℕ := 1 <<< cfg.pages_per_bucket_exp
def commit_page_cnt : ℕ := 1 <<< cfg.commit_page_cnt_exp

def addressToIdx (ptr : ℕ) : ℕ :=
  let padr := ptr >>> PAGE_SIZE_EXP
  let meaningfulBitsMask := (1 <<< (cfg.bucket_cnt_exp + cfg.pages_per_bucket_exp)) - 1
  let meaningfulBits := padr &&& meaningfulBitsMask
  meaningfulBits >>> cfg.pages_per_bucket_exp

/-- The result of `idxToPageAddr`. -/
def pageAddr (blockptr idx pagesUsed : ℕ) : ℕ :=
  let startingPage := blockptr >>> PAGE_SIZE_EXP
  let basePage := (startingPage >>> (cfg.reservation_size_exp - PAGE_SIZE_EXP)) <<<
    (cfg.reservation_size_exp - PAGE_SIZE_EXP)
  let baseOffset := startingPage - basePage
  let below := decide ((idx <<< cfg.pages_per_bucket_exp) + pagesUsed < baseOffset)
  let ret := basePage + (idx <<< cfg.pages_per_bucket_exp) + pagesUsed +
    (below.toNat <<< (cfg.pages_per_bucket_exp + cfg.bucket_cnt_exp))
  u64 (ret <<< PAGE_SIZE_EXP)

def getOffsetInPage (ptr : ℕ) : ℕ := ptr &&& PAGE_SIZE_MASK

def ptrToPageStart (ptr : ℕ) : ℕ := (ptr >>> PAGE_SIZE_EXP) <<< PAGE_SIZE_EXP

/-! ### The constants -/

/-- The pages of a block. -/
def pageCnt : ℕ := cfg.bucket_cnt * cfg.pages_per_bucket

theorem bucket_cnt_pos : 0 < cfg.bucket_cnt := by
  simp [bucket_cnt, Nat.shiftLeft_eq]

theorem pages_per_bucket_pos : 0 < cfg.pages_per_bucket := by
  simp [pages_per_bucket, Nat.shiftLeft_eq]

theorem commit_page_cnt_pos : 0 < cfg.commit_page_cnt := by
  simp [commit_page_cnt, Nat.shiftLeft_eq]

theorem multipage_page_cnt_pos : 0 < cfg.multipage_page_cnt := by
  simp [multipage_page_cnt, Nat.shiftLeft_eq]

theorem pageCnt_pos : 0 < cfg.pageCnt := Nat.mul_pos cfg.bucket_cnt_pos cfg.pages_per_bucket_pos

theorem pages_per_bucket_lt : cfg.pages_per_bucket < 2 ^ 16 - 1 := cfg.pages_lt

/-- A batch of commits never crosses the pages of a bucket. -/
theorem commit_dvd : cfg.commit_page_cnt ∣ cfg.pages_per_bucket := by
  simp only [commit_page_cnt, pages_per_bucket, Nat.shiftLeft_eq, Nat.one_mul]
  exact Nat.pow_dvd_pow 2 cfg.commit_le

/-- A multipage never crosses a batch of commits. -/
theorem multipage_dvd : cfg.multipage_page_cnt ∣ cfg.commit_page_cnt := by
  simp only [commit_page_cnt, multipage_page_cnt, Nat.shiftLeft_eq, Nat.one_mul]
  exact Nat.pow_dvd_pow 2 cfg.commit_ge

theorem pageCnt_eq_two_pow : cfg.pageCnt = 2 ^ (cfg.reservation_size_exp - PAGE_SIZE_EXP) := by
  have := cfg.reservation_ge
  simp only [pageCnt, bucket_cnt, pages_per_bucket, Nat.shiftLeft_eq, Nat.one_mul, ← Nat.pow_add]
  congr 1
  unfold pages_per_bucket_exp
  omega

theorem reservation_size_eq : cfg.reservation_size = cfg.pageCnt * 4096 := by
  have := cfg.reservation_ge
  have h12 : (4096 : ℕ) = 2 ^ PAGE_SIZE_EXP := by decide
  rw [pageCnt_eq_two_pow, h12, ← Nat.pow_add, reservation_size, Nat.shiftLeft_eq, Nat.one_mul]
  congr 1
  omega

/-- A period divides the pages of the address space. -/
theorem pageCnt_dvd : cfg.pageCnt ∣ 2 ^ 52 := by
  have := cfg.reservation_le
  rw [pageCnt_eq_two_pow]
  exact Nat.pow_dvd_pow 2 (by omega)

theorem index_lt {idx k : ℕ} (hidx : idx < cfg.bucket_cnt) (hk : k < cfg.pages_per_bucket) :
    idx * cfg.pages_per_bucket + k < cfg.pageCnt := by
  have := Nat.mul_le_mul_right cfg.pages_per_bucket hidx
  rw [Nat.succ_mul] at this
  unfold pageCnt
  omega

/-! ### The pages of a block -/

/-- What `mmap` answers for a reservation. -/
structure BlockAt (b : ℕ) : Prop where
  aligned : 4096 ∣ b
  pos : 0 < b
  lt : b + cfg.reservation_size < 2 ^ 64

theorem BlockAt.of_fresh {cs : List OsCall} {b : ℕ} (h : FreshRegion cs b cfg.reservation_size) :
    cfg.BlockAt b := ⟨h.aligned, h.pos, h.lt⟩

theorem addressToIdx_eq (ptr : ℕ) :
    cfg.addressToIdx ptr = ptr / 4096 % cfg.pageCnt / cfg.pages_per_bucket := by
  have hres := cfg.reservation_ge
  have hN : cfg.pageCnt = 2 ^ (cfg.bucket_cnt_exp + cfg.pages_per_bucket_exp) := by
    rw [pageCnt_eq_two_pow]
    congr 1
    unfold pages_per_bucket_exp
    omega
  simp only [addressToIdx, pages_per_bucket, hN, Nat.shiftLeft_eq, Nat.one_mul,
    Nat.and_two_pow_sub_one_eq_mod, Nat.shiftRight_eq_div_pow, PAGE_SIZE_EXP_eq, Nat.reducePow]

variable {cfg} {b idx idx' k k' x : ℕ}

/-- The arithmetic is `place`, on 64 bits. -/
theorem pageAddr_mod (cfg : SoundingCfg) (b idx k : ℕ) : cfg.pageAddr b idx k =
    place cfg.pageCnt (b / 4096) (idx * cfg.pages_per_bucket + k) * 4096 % 2 ^ 64 := by
  have hres := cfg.reservation_ge
  have hN := cfg.pageCnt_eq_two_pow
  have hexp : cfg.pages_per_bucket_exp + cfg.bucket_cnt_exp =
      cfg.reservation_size_exp - PAGE_SIZE_EXP := by
    unfold pages_per_bucket_exp
    omega
  have hpow : idx <<< cfg.pages_per_bucket_exp = idx * cfg.pages_per_bucket := by
    simp [pages_per_bucket, Nat.shiftLeft_eq]
  have hdm := Nat.div_add_mod' (b / 4096) cfg.pageCnt
  have hret : b / 4096 / cfg.pageCnt * cfg.pageCnt + idx * cfg.pages_per_bucket + k +
        (decide (idx * cfg.pages_per_bucket + k <
          b / 4096 - b / 4096 / cfg.pageCnt * cfg.pageCnt)).toNat * cfg.pageCnt =
      place cfg.pageCnt (b / 4096) (idx * cfg.pages_per_bucket + k) := by
    rw [show b / 4096 - b / 4096 / cfg.pageCnt * cfg.pageCnt = b / 4096 % cfg.pageCnt by omega]
    unfold place
    by_cases hw : idx * cfg.pages_per_bucket + k < b / 4096 % cfg.pageCnt
    · simp only [hw, decide_true, Bool.toNat_true, if_true, Nat.one_mul]; omega
    · simp only [hw, decide_false, Bool.toNat_false, if_false, Nat.zero_mul]; omega
  have h12 : ∀ y, y >>> PAGE_SIZE_EXP = y / 4096 := fun y => by
    rw [PAGE_SIZE_EXP_eq, Nat.shiftRight_eq_div_pow]
  simp only [pageAddr, hpow, hexp, h12, Nat.shiftLeft_eq, Nat.shiftRight_eq_div_pow, ← hN, hret]
  rw [PAGE_SIZE_EXP_eq, u64]

/-- For a block in the address space nothing wraps around. -/
theorem pageAddr_place (hb : b + cfg.reservation_size ≤ 2 ^ 64) (hidx : idx < cfg.bucket_cnt)
    (hk : k < cfg.pages_per_bucket) : cfg.pageAddr b idx k =
      place cfg.pageCnt (b / 4096) (idx * cfg.pages_per_bucket + k) * 4096 := by
  have hlt := place_lt (s := b / 4096) (cfg.index_lt hidx hk)
  rw [reservation_size_eq] at hb
  rw [pageAddr_mod]
  exact Nat.mod_eq_of_lt (by omega)

theorem pageAddr_eq (hb : cfg.BlockAt b) (hidx : idx < cfg.bucket_cnt)
    (hk : k < cfg.pages_per_bucket) : cfg.pageAddr b idx k =
      place cfg.pageCnt (b / 4096) (idx * cfg.pages_per_bucket + k) * 4096 :=
  pageAddr_place hb.lt.le hidx hk

theorem pageAddr_aligned (hb : cfg.BlockAt b) (hidx : idx < cfg.bucket_cnt)
    (hk : k < cfg.pages_per_bucket) : 4096 ∣ cfg.pageAddr b idx k := by
  rw [pageAddr_eq hb hidx hk]
  exact Nat.dvd_mul_left _ _

/-- A page of a block lies in the block. -/
theorem pageAddr_mem (hb : cfg.BlockAt b) (hidx : idx < cfg.bucket_cnt)
    (hk : k < cfg.pages_per_bucket) :
    b ≤ cfg.pageAddr b idx k ∧ cfg.pageAddr b idx k + 4096 ≤ b + cfg.reservation_size := by
  have h1 := le_place (s := b / 4096) (cfg.index_lt hidx hk)
  have h2 := place_lt (s := b / 4096) (cfg.index_lt hidx hk)
  have h3 := hb.aligned
  rw [pageAddr_eq hb hidx hk, reservation_size_eq]
  omega

theorem within_block (hb : cfg.BlockAt b) (hidx : idx < cfg.bucket_cnt)
    (hk : k < cfg.pages_per_bucket) (hx : Within (cfg.pageAddr b idx k) 4096 x) :
    Within b cfg.reservation_size x := by
  have := pageAddr_mem hb hidx hk
  exact ⟨by have := hx.1; omega, by have := hx.2; omega⟩

/-- The number, in its block, of the page that holds an address. -/
theorem page_index (hidx : idx < cfg.bucket_cnt) (hk : k < cfg.pages_per_bucket)
    (hx : Within (cfg.pageAddr b idx k) 4096 x) :
    x / 4096 % cfg.pageCnt = idx * cfg.pages_per_bucket + k := by
  obtain ⟨h1, h2⟩ := hx
  rw [pageAddr_mod] at h1 h2
  have hpage : x / 4096 = place cfg.pageCnt (b / 4096) (idx * cfg.pages_per_bucket + k) % 2 ^ 52 := by omega
  rw [hpage, Nat.mod_mod_of_dvd _ cfg.pageCnt_dvd]
  exact place_mod (cfg.index_lt hidx hk)

/-- Every address in a page for `idx` tells `idx`. -/
theorem addressToIdx_of_within (hidx : idx < cfg.bucket_cnt) (hk : k < cfg.pages_per_bucket)
    (hx : Within (cfg.pageAddr b idx k) 4096 x) : cfg.addressToIdx x = idx := by
  rw [addressToIdx_eq, page_index hidx hk hx, Nat.add_comm, Nat.add_mul_div_right _ _ cfg.pages_per_bucket_pos,
    Nat.div_eq_of_lt hk, Nat.zero_add]

theorem addressToIdx_pageAddr (hidx : idx < cfg.bucket_cnt) (hk : k < cfg.pages_per_bucket) :
    cfg.addressToIdx (cfg.pageAddr b idx k) = idx :=
  addressToIdx_of_within hidx hk ⟨le_rfl, by omega⟩

/-- Distinct pages of a block are disjoint. -/
theorem page_unique (hidx : idx < cfg.bucket_cnt) (hk : k < cfg.pages_per_bucket) (hidx' : idx' < cfg.bucket_cnt)
    (hk' : k' < cfg.pages_per_bucket) (hx : Within (cfg.pageAddr b idx k) 4096 x)
    (hx' : Within (cfg.pageAddr b idx' k') 4096 x) : idx = idx' ∧ k = k' := by
  have h1 := addressToIdx_of_within hidx hk hx
  have h2 := addressToIdx_of_within hidx' hk' hx'
  have h3 := page_index hidx hk hx
  have h4 := page_index hidx' hk' hx'
  obtain rfl : idx = idx' := h1.symm.trans h2
  exact ⟨rfl, by omega⟩

/-- The page where the block's addresses start anew. -/
def wrapPage (cfg : SoundingCfg) (b : ℕ) : ℕ := b / 4096 % cfg.pageCnt

/-- The next page of a bucket is the adjacent one, -/
theorem pageAddr_succ (hidx : idx < cfg.bucket_cnt) (hk : k + 1 < cfg.pages_per_bucket)
    (hw : idx * cfg.pages_per_bucket + (k + 1) ≠ cfg.wrapPage b) :
    cfg.pageAddr b idx (k + 1) = cfg.pageAddr b idx k + 4096 := by
  have h1 := place_succ (s := b / 4096) (o := idx * cfg.pages_per_bucket + k) hw
  -- the first page of the address space is the first of its period
  have h2 := place_mod (s := b / 4096) (cfg.index_lt hidx hk)
  rw [← Nat.mod_mod_of_dvd _ cfg.pageCnt_dvd] at h2
  rw [Nat.add_assoc] at h1
  rw [pageAddr_mod, pageAddr_mod, h1] at *
  rcases Nat.eq_zero_or_pos ((place cfg.pageCnt (b / 4096) (idx * cfg.pages_per_bucket + k) + 1) % 2 ^ 52) with h0 | h0
  · rw [h0, Nat.zero_mod] at h2
    omega
  · omega

/-- except at the wrap point, where it lies below. -/
theorem pageAddr_wrap (hb : cfg.BlockAt b) (hidx : idx < cfg.bucket_cnt)
    (hk : k + 1 < cfg.pages_per_bucket)
    (hw : idx * cfg.pages_per_bucket + (k + 1) = cfg.wrapPage b) :
    cfg.pageAddr b idx (k + 1) < cfg.pageAddr b idx k := by
  have h1 := place_wrap (s := b / 4096) (o := idx * cfg.pages_per_bucket + k) hw
  rw [Nat.add_assoc] at h1
  have h2 := cfg.index_lt hidx hk
  rw [pageAddr_eq hb hidx hk, pageAddr_eq hb hidx (by omega)]
  omega

/-! ### All pages of a block -/

/-- **The layout is a bijection** from the pairs of an index and a page number
onto the pages of the block, wherever it begins, and each byte of a page tells
the index. -/
theorem pageAddr_bijOn (hb : 4096 ∣ b) (hle : b + cfg.reservation_size ≤ 2 ^ 64) :
    Set.BijOn (fun p : ℕ × ℕ => cfg.pageAddr b p.1 p.2)
        {p | p.1 < cfg.bucket_cnt ∧ p.2 < cfg.pages_per_bucket}
        {a | 4096 ∣ a ∧ b ≤ a ∧ a + 4096 ≤ b + cfg.reservation_size} ∧
      ∀ idx < cfg.bucket_cnt, ∀ k < cfg.pages_per_bucket, ∀ x, Within (cfg.pageAddr b idx k) 4096 x →
        cfg.addressToIdx x = idx := by
  have hP := cfg.pages_per_bucket_pos
  have hres := cfg.reservation_size_eq
  refine ⟨⟨?_, ?_, ?_⟩, fun idx hidx k hk x hx => ?_⟩
  · rintro ⟨idx, k⟩ ⟨hidx, hk⟩
    have h1 := le_place (s := b / 4096) (cfg.index_lt hidx hk)
    have h2 := place_lt (s := b / 4096) (cfg.index_lt hidx hk)
    change 4096 ∣ cfg.pageAddr b idx k ∧ b ≤ cfg.pageAddr b idx k ∧
      cfg.pageAddr b idx k + 4096 ≤ b + cfg.reservation_size
    rw [pageAddr_place hle hidx hk]
    omega
  · rintro ⟨idx, k⟩ ⟨hidx, hk⟩ ⟨idx', k'⟩ ⟨hidx', hk'⟩ he
    simp only [pageAddr_place hle hidx hk, pageAddr_place hle hidx' hk'] at he
    have ho := place_inj (cfg.index_lt hidx hk) (cfg.index_lt hidx' hk')
      (Nat.eq_of_mul_eq_mul_right (by omega) he)
    have hdiv := congrArg (· / cfg.pages_per_bucket) ho
    have hmod := congrArg (· % cfg.pages_per_bucket) ho
    simp only [Nat.mul_add_mod_self_right, Nat.mod_eq_of_lt hk, Nat.mod_eq_of_lt hk'] at hmod
    simp only [Nat.add_comm (_ * _), Nat.add_mul_div_right _ _ hP, Nat.div_eq_of_lt hk,
      Nat.div_eq_of_lt hk', Nat.zero_add] at hdiv
    rw [hdiv, hmod]
  · -- a page is at the place of its number
    intro a ha
    obtain ⟨h1, h2, h3⟩ := ha
    have hplace := place_of_mod (n := cfg.pageCnt) (s := b / 4096) (p := a / 4096) (by omega)
    have hlt : a / 4096 % cfg.pageCnt < cfg.pageCnt := Nat.mod_lt _ cfg.pageCnt_pos
    have hidx : a / 4096 % cfg.pageCnt / cfg.pages_per_bucket < cfg.bucket_cnt :=
      (Nat.div_lt_iff_lt_mul hP).mpr hlt
    have hk : a / 4096 % cfg.pageCnt % cfg.pages_per_bucket < cfg.pages_per_bucket := Nat.mod_lt _ hP
    refine ⟨(a / 4096 % cfg.pageCnt / cfg.pages_per_bucket, a / 4096 % cfg.pageCnt % cfg.pages_per_bucket),
      ⟨hidx, hk⟩, ?_⟩
    simp only [pageAddr_place hle hidx hk, Nat.div_add_mod', hplace]
    omega
  · exact addressToIdx_of_within hidx hk hx

/-- A block that begins in the last page of a period. -/
theorem pageAddr_bijOn_wrapped : pageAllocatorT.wrapPage (2047 * 4096) = 2047 ∧
    Set.BijOn (fun p : ℕ × ℕ => pageAllocatorT.pageAddr (2047 * 4096) p.1 p.2)
      {p | p.1 < pageAllocatorT.bucket_cnt ∧ p.2 < pageAllocatorT.pages_per_bucket}
      {a | 4096 ∣ a ∧ 2047 * 4096 ≤ a ∧ a + 4096 ≤ 2047 * 4096 + pageAllocatorT.reservation_size} :=
  ⟨by decide, (pageAddr_bijOn (Nat.dvd_mul_left _ _) (by decide)).1⟩

end SoundingCfg

end IibMalloc
