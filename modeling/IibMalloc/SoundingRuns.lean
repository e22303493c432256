/-
# SoundingAddressPageAllocator: whole runs

A run starts with `initialize`, from any state and any history of system
calls, and is any sequence of calls `getPage` and `getMultipage`, each of which
may throw. It records the pages it was given, each with the history of the
system calls at the time.

`getPage_run`: a page given is committed, for its bucket, in a reserved block,
and never given or committed again, and no assertion fails.
`getMultipage_run`: whatever the operating system refuses, each bucket gets its
pages in order, without a gap, and the next call starts from sound cursors.
`deinitialize_run`: after any run `deinitialize` gives back each region the
run obtained, once.
-/
import IibMalloc.SoundingLife
import IibMalloc.Lib.Run

namespace IibMalloc

open Lib

namespace SoundingAddressPageAllocator

/-- A page the allocator returned for bucket `idx`, after the calls `calls`. -/
structure Given where
  idx : ℕ
  page : ℕ
  calls : List OsCall

structure PageRun where
  s : St SoundingAddressPageAllocator
  given : List Given

inductive PageOp where
  | page (idx : ℕ)
  | multipage (idx : ℕ)

/-- The pages of the `sz` bytes from `ptr`. -/
def segmentPages (ptr sz : ℕ) : List ℕ := (List.range (sz / PAGE_SIZE)).map fun i => ptr + i * PAGE_SIZE

variable (cfg : SoundingCfg) (os : Os)

/-- The pages a call was given. -/
def PageOp.exec : PageOp → Act (St SoundingAddressPageAllocator) (List ℕ)
  | .page idx => do return [← getPage cfg os idx]
  | .multipage idx => do
    let mp ← getMultipage cfg os idx
    return segmentPages mp.ptr1 mp.sz1 ++ segmentPages mp.ptr2 mp.sz2

def PageOp.idx : PageOp → ℕ
  | .page idx => idx
  | .multipage idx => idx

/-- One call, for a bucket there is. -/
def PageRun.step (r : PageRun) (op : PageOp) : Option PageRun :=
  if op.idx < cfg.bucket_cnt then
    match Act.exec (op.exec cfg os) r.s with
    | .ret ps t => some ⟨t, r.given ++ ps.map fun p => ⟨op.idx, p, t.w.calls⟩⟩
    | .throw t => some ⟨t, r.given⟩
    | .stuck => none
  else none

/-- The state after `initialize`, from any state. -/
def PageRun.Starts (w : World) (r : PageRun) : Prop :=
  ∃ c, Act.exec (init cfg PAGE_SIZE_EXP) ⟨w, c⟩ = .ret () r.s ∧ r.given = []

/-- The pages given for a bucket, in order. -/
def PageRun.delivered (r : PageRun) (idx : ℕ) : List ℕ :=
  (r.given.filter fun e => e.idx = idx).map Given.page

/-- The run that starts at `c`. -/
def PageRun.init (w : World) (c : SoundingAddressPageAllocator) : PageRun :=
  match Act.exec (SoundingAddressPageAllocator.init cfg PAGE_SIZE_EXP) ⟨w, c⟩ with
  | .ret _ s => ⟨s, []⟩
  | _ => ⟨⟨w, c⟩, []⟩

theorem PageRun.init_starts (w : World) (c : SoundingAddressPageAllocator) :
    (PageRun.init cfg w c).Starts cfg w := ⟨c, rfl, rfl⟩

/-- Memory that was never initialised. -/
def raw : SoundingAddressPageAllocator :=
  let base : PageAllocatorWithCaching := ⟨fun _ => 7, fun _ => ⟨.null, .lst 7, 7, 7⟩, {}, 7⟩
  ⟨base, ⟨base, 7, 7, 7, fun _ => ⟨default, 7⟩⟩, default, .item 7, fun _ => .item 7⟩

variable {cfg os} {w₀ : World} {r₀ r r' : PageRun} {idx : ℕ} {g : Ghost}

/-- What a step does, from what its call does. -/
theorem step_cases {op : PageOp} (hs : r.step cfg os op = some r') :
    op.idx < cfg.bucket_cnt ∧
      ((∃ ps t, Act.exec (op.exec cfg os) r.s = .ret ps t ∧
        r' = ⟨t, r.given ++ ps.map fun p => ⟨op.idx, p, t.w.calls⟩⟩) ∨
      ∃ t, Act.exec (op.exec cfg os) r.s = .throw t ∧ r' = ⟨t, r.given⟩) := by
  unfold PageRun.step at hs
  split_ifs at hs with hidx
  refine ⟨hidx, ?_⟩
  split at hs
  · exact Or.inl ⟨_, _, ‹_›, (Option.some.inj hs).symm⟩
  · exact Or.inr ⟨_, ‹_›, (Option.some.inj hs).symm⟩
  · cases hs

theorem starts_inv (h : r₀.Starts cfg w₀) :
    r₀.s.w = w₀ ∧ SoundInv cfg r₀.s.w.calls r₀.s.c .empty ∧ r₀.given = [] := by
  obtain ⟨c, hc, hg⟩ := h
  have hspec : Act.wp (init cfg PAGE_SIZE_EXP) (fun _ t => t.w = w₀ ∧ SoundInv cfg t.w.calls t.c .empty)
      (fun _ => False) ⟨w₀, c⟩ := init_spec ⟨w₀, c⟩ fun c hc => ⟨rfl, hc⟩
  obtain ⟨hw, hI⟩ := Act.exec_ret hspec hc
  exact ⟨hw, hI, hg⟩

/-! ### Pages are told apart -/

section Unique

variable {calls : List OsCall} {c : SoundingAddressPageAllocator} {i m n x : ℕ}

/-- An address lies in one page of one bucket. -/
theorem SoundInv.pageOf_unique (h : SoundInv cfg calls c g) (hidx : idx < cfg.bucket_cnt)
    (hi : i < cfg.bucket_cnt) (hm : m / cfg.pages_per_bucket < g.blocks.length)
    (hn : n / cfg.pages_per_bucket < g.blocks.length) (hx : Within (g.pageOf cfg idx m) 4096 x)
    (hx' : Within (g.pageOf cfg i n) 4096 x) : idx = i ∧ m = n := by
  have hP := cfg.pages_per_bucket_pos
  have hb := SoundingCfg.within_block (h.block_at hm) hidx (Nat.mod_lt m hP) hx
  have hb' := SoundingCfg.within_block (h.block_at hn) hi (Nat.mod_lt n hP) hx'
  have hd := h.block_unique hm hn hb hb'
  unfold Ghost.pageOf at hx hx'
  rw [← hd] at hx'
  obtain ⟨he, hmod⟩ := SoundingCfg.page_unique hidx (Nat.mod_lt m hP) hi
    (Nat.mod_lt n hP) hx hx'
  refine ⟨he, ?_⟩
  rw [← Nat.div_add_mod' m cfg.pages_per_bucket, hd, hmod, Nat.div_add_mod']

theorem usedAt_div (p : ℕ) (hn : m < n) : m % p < usedAt p n (m / p + 1) ∨ p = 0 := by
  rcases Nat.eq_zero_or_pos p with hp | hp
  · exact Or.inr hp
  · left
    have h1 := Nat.div_add_mod' m p
    have h2 := Nat.mod_lt m hp
    simp only [usedAt]
    omega

/-- A page that was given is committed. -/
theorem SoundInv.given_committed (h : SoundInv cfg calls c g) (hidx : idx < cfg.bucket_cnt)
    (hm : m < g.n idx) (hx : Within (g.pageOf cfg idx m) 4096 x) : pageState calls x = .committed := by
  have hP := cfg.pages_per_bucket_pos
  refine h.committed idx hidx _ (h.div_lt hidx hm) x ⟨_, Nat.zero_le _, ?_, hx⟩
  exact ((usedAt_div _ hm).resolve_right hP.ne').trans_le (le_committedAt cfg.commit_page_cnt_pos)

/-- What a call commits is none of the pages given before. -/
theorem commits_apart {w w' : World} {g' : Ghost} (hst : PageStep cfg idx w w' g g')
    (h : SoundInv cfg w.calls c g) {c' : SoundingAddressPageAllocator} (h' : SoundInv cfg w'.calls c' g')
    (hidx : idx < cfg.bucket_cnt) : ∃ rs, commitRanges w'.calls = rs ++ commitRanges w.calls ∧
      ∀ i < cfg.bucket_cnt, ∀ m < g.n i, ∀ q ∈ rs, Apart q (g.pageOf cfg i m, 4096) := by
  have hP := cfg.pages_per_bucket_pos
  obtain ⟨rs, h1, -, h3⟩ := hst.commits
  refine ⟨rs, h1, fun i hi m hm q hq x hx hx' => ?_⟩
  obtain ⟨hlen, hin⟩ := h3 q hq
  obtain ⟨t, ht1, ht2, ht⟩ := hin x hx
  have hle := le_committedAt (u := g.n idx % cfg.pages_per_bucket) cfg.commit_page_cnt_pos
  have hmod := Nat.mod_lt (g.n idx) hP
  have htP : t < cfg.pages_per_bucket := ht2.trans_le
    (committedAt_le cfg.commit_page_cnt_pos cfg.commit_dvd hmod)
  have hdiv := Nat.div_add_mod' (g.n idx) cfg.pages_per_bucket
  have hm' := h.div_lt hi hm
  have hpage : Within (g'.pageOf cfg idx (g.n idx / cfg.pages_per_bucket * cfg.pages_per_bucket + t))
      4096 x := by
    rwa [Ghost.pageOf, Nat.add_comm, Nat.add_mul_div_right _ _ hP, Nat.div_eq_of_lt htP, Nat.zero_add,
      Nat.add_mul_mod_self_right, Nat.mod_eq_of_lt htP]
  rw [← pageOf_stable hst.blocks hm'] at hx'
  have hlen' : (g.n idx / cfg.pages_per_bucket * cfg.pages_per_bucket + t) / cfg.pages_per_bucket <
      g'.blocks.length := by
    rwa [Nat.add_comm, Nat.add_mul_div_right _ _ hP, Nat.div_eq_of_lt htP, Nat.zero_add]
  obtain ⟨rfl, he⟩ := h'.pageOf_unique hidx hi hlen' (hm'.trans_le hst.blocks.length_le) hpage hx'
  omega

end Unique

/-! ### Runs of getPage -/

/-- What holds of a page given, when the system calls are `calls`. -/
structure GivenInv (cfg : SoundingCfg) (g : Ghost) (calls : List OsCall) (e : Given) : Prop where
  bucket : e.idx < cfg.bucket_cnt
  page : ∃ m < g.n e.idx, e.page = g.pageOf cfg e.idx m
  committed : ∀ x, Within e.page 4096 x → pageState e.calls x = .committed
  block : ∃ b, .reserve b cfg.reservation_size ∈ e.calls ∧ b ≤ e.page ∧
    e.page + 4096 ≤ b + cfg.reservation_size
  once : ∃ rs, commitRanges calls = rs ++ commitRanges e.calls ∧ ∀ q ∈ rs, Apart q (e.page, 4096)

/-- The ranges committed since `w₀` are apart, and are pages behind the cursors. -/
def CommitsOnce (cfg : SoundingCfg) (w₀ : World) (g : Ghost) (calls : List OsCall) : Prop :=
  ∃ rs, commitRanges calls = rs ++ commitRanges w₀.calls ∧ rs.Pairwise Apart ∧
    ∀ q ∈ rs, ∀ x, Within q.1 q.2 x → ∃ idx < cfg.bucket_cnt, ∃ j < g.blocks.length,
      InPages cfg (g.block j) idx 0
        (committedAt cfg.commit_page_cnt (usedAt cfg.pages_per_bucket (g.n idx) (j + 1))) x

/-- What holds in every run; `C` is when a page is committed once. -/
structure PageRunInv (cfg : SoundingCfg) (C : Prop) (w₀ : World) (r : PageRun) (g : Ghost) : Prop where
  inv : SoundInv cfg r.s.w.calls r.s.c g
  fits : Fits cfg g
  asserts : r.s.w.assertsHold = w₀.assertsHold
  given : ∀ e ∈ r.given, GivenInv cfg g r.s.w.calls e
  apart : r.given.Pairwise fun e e' => Apart (e.page, 4096) (e'.page, 4096)
  reserves : ∀ p ∈ g.blocks, .reserve p.2 cfg.reservation_size ∈ r.s.w.calls
  commits : C → CommitsOnce cfg w₀ g r.s.w.calls

section Step

variable {c c' : SoundingAddressPageAllocator} {w w' : World} {g' : Ghost}

theorem GivenInv.step {e : Given} (he : GivenInv cfg g w.calls e) (hst : PageStep cfg idx w w' g g')
    (h : SoundInv cfg w.calls c g) (h' : SoundInv cfg w'.calls c' g') (hidx : idx < cfg.bucket_cnt)
    (hn : ∀ i, g.n i ≤ g'.n i) : GivenInv cfg g' w'.calls e := by
  obtain ⟨m, hm, hp⟩ := he.page
  obtain ⟨rs, h1, h2⟩ := he.once
  obtain ⟨rs', h1', h2'⟩ := commits_apart hst h h' hidx
  refine ⟨he.bucket, ⟨m, hm.trans_le (hn _), ?_⟩, he.committed, he.block, rs' ++ rs, ?_, fun q hq => ?_⟩
  · rw [hp, pageOf_stable hst.blocks (h.div_lt he.bucket hm)]
  · rw [h1', h1, List.append_assoc]
  · rcases List.mem_append.mp hq with hq | hq
    · rw [hp]
      exact h2' e.idx he.bucket m hm q hq
    · exact h2 q hq

theorem usedAt_mono {p m n j : ℕ} (h : m ≤ n) : usedAt p m j ≤ usedAt p n j := by
  cases j with
  | zero => exact le_rfl
  | succ j => simp only [usedAt]; omega

/-- Commits stay apart over a call that commits a batch of its bucket only if
it gives out its first page. -/
theorem CommitsOnce.step (hc : CommitsOnce cfg w₀ g w.calls) (hst : PageStep cfg idx w w' g g')
    (h' : SoundInv cfg w'.calls c' g') (hidx : idx < cfg.bucket_cnt) (hn : ∀ i, g.n i ≤ g'.n i)
    (hgave : commitRanges w'.calls = commitRanges w.calls ∨ g'.n idx = g.n idx + 1) :
    CommitsOnce cfg w₀ g' w'.calls := by
  have hP := cfg.pages_per_bucket_pos
  have hC := cfg.commit_page_cnt_pos
  obtain ⟨rs, h1, h2, h3⟩ := hc
  have hold : ∀ q ∈ rs, ∀ x, Within q.1 q.2 x → ∃ idx < cfg.bucket_cnt, ∃ j < g'.blocks.length,
      InPages cfg (g'.block j) idx 0
        (committedAt cfg.commit_page_cnt (usedAt cfg.pages_per_bucket (g'.n idx) (j + 1))) x := by
    intro q hq x hx
    obtain ⟨i, hi, j, hj, t, ht1, ht2, ht⟩ := h3 q hq x hx
    refine ⟨i, hi, j, hj.trans_le hst.blocks.length_le, t, ht1, ht2.trans_le ?_, ?_⟩
    · exact committedAt_mono hC (usedAt_mono (hn i))
    · rwa [block_stable hst.blocks hj]
  rcases hgave with hsame | hgave
  · exact ⟨rs, hsame.trans h1, h2, hold⟩
  obtain ⟨rs', h1', h2', h3'⟩ := hst.commits
  have hdm := Nat.div_add_mod' (g.n idx) cfg.pages_per_bucket
  have hmod := Nat.mod_lt (g.n idx) hP
  refine ⟨rs' ++ rs, by rw [h1', h1, List.append_assoc], List.pairwise_append.mpr ⟨h2', h2, ?_⟩,
    fun q hq x hx => ?_⟩
  · intro q' hq' q hq x hx' hx
    -- a page committed before is before the batch
    obtain ⟨hlen, hin⟩ := h3' q' hq'
    obtain ⟨t', ht1', ht2', ht'⟩ := hin x hx'
    obtain ⟨i, hi, j, hj, t, -, ht2, ht⟩ := h3 q hq x hx
    have htP' := ht2'.trans_le (committedAt_le hC cfg.commit_dvd hmod)
    have hused : usedAt cfg.pages_per_bucket (g.n i) (j + 1) ≤ cfg.pages_per_bucket := min_le_left _ _
    have htP := ht2.trans_le (committedAt_le hC cfg.commit_dvd hused)
    rw [← block_stable hst.blocks hj] at ht
    have hj' := hj.trans_le hst.blocks.length_le
    have hd := h'.block_unique hlen hj' (SoundingCfg.within_block (h'.block_at hlen) hidx htP' ht')
      (SoundingCfg.within_block (h'.block_at hj') hi htP ht)
    rw [← hd] at ht
    obtain ⟨rfl, rfl⟩ := SoundingCfg.page_unique hidx htP' hi htP ht' ht
    rw [← hd, show usedAt cfg.pages_per_bucket (g.n idx) (g.n idx / cfg.pages_per_bucket + 1) =
      g.n idx % cfg.pages_per_bucket by simp only [usedAt]; omega] at ht2
    omega
  · rcases List.mem_append.mp hq with hq | hq
    · obtain ⟨hlen, hin⟩ := h3' q hq
      obtain ⟨t, -, ht2, ht⟩ := hin x hx
      refine ⟨idx, hidx, _, hlen, t, Nat.zero_le t, ?_, ht⟩
      rwa [hgave, show usedAt cfg.pages_per_bucket (g.n idx + 1)
        (g.n idx / cfg.pages_per_bucket + 1) = g.n idx % cfg.pages_per_bucket + 1 by
          simp only [usedAt]; omega]
    · exact hold q hq x hx

end Step

/-- A call that throws committed nothing: no commit is refused after one that was
made in the same call. -/
def CommitsWhole (cfg : SoundingCfg) (os : Os) (r : PageRun) (op : PageOp) : Prop :=
  ∀ t, Act.exec (op.exec cfg os) r.s = .throw t → commitRanges t.w.calls = commitRanges r.s.w.calls

variable {C : Prop}

theorem PageRunInv.start (h : r₀.Starts cfg w₀) : PageRunInv cfg C w₀ r₀ .empty := by
  obtain ⟨hw, hI, hg⟩ := starts_inv h
  refine ⟨hI, Or.inr rfl, by rw [hw], by simp [hg], by simp [hg], by simp [Ghost.empty], fun _ => ?_⟩
  exact ⟨[], by rw [hw]; rfl, by simp, by simp⟩

/-- A call `getPage` that returns. -/
theorem PageRunInv.gave (h : PageRunInv cfg C w₀ r g) (hidx : idx < cfg.bucket_cnt) {p : ℕ}
    {t : St SoundingAddressPageAllocator} {g' : Ghost} (ht : Gave cfg os idx r.s g g' p t)
    (hf : Fits cfg g') : PageRunInv cfg C w₀ ⟨t, r.given ++ [⟨idx, p, t.w.calls⟩]⟩ g' := by
  obtain ⟨hI, hst, hn', hp, -, -⟩ := ht
  have hself : g'.n idx = g.n idx + 1 := by rw [hn', put, if_pos rfl]
  have hn : ∀ i, g.n i ≤ g'.n i := fun i => by
    by_cases hi : i = idx
    · rw [hi, hself]; omega
    · rw [hn', put, if_neg hi]
  have hlt : g.n idx < g'.n idx := by omega
  have hlen := hI.div_lt hidx hlt
  have hreserves : ∀ q ∈ g'.blocks, .reserve q.2 cfg.reservation_size ∈ t.w.calls := fun q hq =>
    (hst.reserves q hq).elim (fun hq => hst.suffix.subset (h.reserves q hq)) id
  refine ⟨hI, hf, hst.asserts.trans h.asserts, fun e he => ?_, ?_, hreserves,
    fun hc => (h.commits hc).step hst hI hidx hn (Or.inr hself)⟩
  · rcases List.mem_append.mp he with he | he
    · exact (h.given e he).step hst h.inv hI hidx hn
    · rw [List.mem_singleton] at he
      subst he
      obtain ⟨q, hq, hqb, -⟩ := g'.block_mem hlen
      have hmem := SoundingCfg.pageAddr_mem (hI.block_at hlen) hidx
        (Nat.mod_lt (g.n idx) cfg.pages_per_bucket_pos)
      refine ⟨hidx, ⟨g.n idx, hlt, hp⟩, fun x hx => ?_, ⟨q.2, hreserves q hq, ?_⟩, [], rfl, by simp⟩
      · rw [hp] at hx
        exact hI.given_committed hidx hlt hx
      · rw [hp, hqb]
        exact hmem
  · -- a page given before is another one
    refine List.pairwise_append.mpr ⟨h.apart, List.pairwise_singleton _ _, fun e he e' he' => ?_⟩
    rw [List.mem_singleton] at he'
    subst he'
    obtain ⟨m, hm, hep⟩ := (h.given e he).page
    have hb := (h.given e he).bucket
    have hm' := h.inv.div_lt hb hm
    intro x hx hx'
    rw [hep, ← pageOf_stable hst.blocks hm'] at hx
    rw [hp] at hx'
    obtain ⟨he', hmm⟩ := hI.pageOf_unique hb hidx (hm'.trans_le hst.blocks.length_le) hlen hx hx'
    rw [he'] at hm
    omega

/-- A call `getPage` that throws. -/
theorem PageRunInv.threw (h : PageRunInv cfg C w₀ r g) (hidx : idx < cfg.bucket_cnt)
    {t : St SoundingAddressPageAllocator} {g' : Ghost} (ht : Threw cfg os idx r.s g g' t)
    (hf : Fits cfg g') (hC : C → commitRanges t.w.calls = commitRanges r.s.w.calls) :
    PageRunInv cfg C w₀ ⟨t, r.given⟩ g' := by
  obtain ⟨hI, hst, hn', -, -, -⟩ := ht
  have hn : ∀ i, g.n i ≤ g'.n i := fun i => by rw [hn']
  exact ⟨hI, hf, hst.asserts.trans h.asserts, fun e he => (h.given e he).step hst h.inv hI hidx hn,
    h.apart, fun q hq => (hst.reserves q hq).elim (fun hq => hst.suffix.subset (h.reserves q hq)) id,
    fun hc => (h.commits hc).step hst hI hidx hn (Or.inl (hC hc))⟩

theorem PageRunInv.step (h : PageRunInv cfg C w₀ r g) (hs : r.step cfg os (.page idx) = some r')
    (hC : C → (∀ cs a n, os.commits cs a n = true) ∨ CommitsWhole cfg os r (.page idx)) :
    ∃ g', PageRunInv cfg C w₀ r' g' := by
  obtain ⟨hidx, hout⟩ := step_cases hs
  have hspec : Act.wlp (PageOp.exec cfg os (.page idx))
      (fun ps t => ∃ p g', ps = [p] ∧ Gave cfg os idx r.s g g' p t ∧ Fits cfg g')
      (fun t => ∃ g', Threw cfg os idx r.s g g' t ∧ Fits cfg g') r.s := by
    refine Act.wlp_bind (Act.wlp_mono (getPage_wlp os h.inv h.fits hidx) ?_ fun _ ht => ht)
    intro p t ht
    obtain ⟨g', ht⟩ := ht
    exact Act.wlp_pure ⟨p, g', rfl, ht⟩
  rcases hout with ⟨ps, t, hret, rfl⟩ | ⟨t, hthrow, rfl⟩
  · obtain ⟨p, g', rfl, ht, hf⟩ := Act.wlp_ret hspec hret
    exact ⟨g', h.gave hidx ht hf⟩
  · obtain ⟨g', ht, hf⟩ := Act.wlp_throw hspec hthrow
    refine ⟨g', h.threw hidx ht hf fun hc => ?_⟩
    rcases hC hc with hos | hwhole
    · apply ht.2.2.2.2.2.resolve_right
      intro hx
      obtain ⟨cs, a, n, hno⟩ := hx
      rw [hos cs a n] at hno
      cases hno
    · exact hwhole t hthrow

/-- The ranges committed since `w₀` have no address in common. -/
def CommittedOnce (w₀ : World) (calls : List OsCall) : Prop :=
  ∃ rs, commitRanges calls = rs ++ commitRanges w₀.calls ∧ rs.Pairwise Apart

theorem CommitsOnce.once {calls : List OsCall} (h : CommitsOnce cfg w₀ g calls) : CommittedOnce w₀ calls := by
  obtain ⟨rs, h1, h2, -⟩ := h
  exact ⟨rs, h1, h2⟩

theorem PageRunInv.reach (h₀ : r₀.Starts cfg w₀) {ok : PageRun → PageOp → Prop}
    (hok : ∀ r op, ok r op → ∃ idx, op = .page idx)
    (hC : ∀ r op, ok r op → C → (∀ cs a n, os.commits cs a n = true) ∨ CommitsWhole cfg os r op)
    (hr : Reach (PageRun.step cfg os) ok r₀ r) : ∃ g, PageRunInv cfg C w₀ r g := by
  refine hr.invariant (P := fun r => ∃ g, PageRunInv cfg C w₀ r g) ⟨.empty, .start h₀⟩ ?_
  intro s t op hs hop ht
  obtain ⟨g, hg⟩ := hs
  obtain ⟨idx, rfl⟩ := hok s op hop
  exact hg.step ht (hC s _ hop)

/-- **Pages are handed out once, committed.** For any template arguments, any
operating system and any history, after any sequence of calls `getPage`, of
which any may throw: no assertion has failed; a page that was returned for
bucket `idx` lies in a block reserved before, was committed when it was
returned, tells `idx` by its address, is apart from every other page returned,
and was not committed again since. As long as no commit is refused after another
in the same call, and so where none is ever refused, no two commits of the run
have an address in common. Where descriptors fit in a page, the next call returns
or throws. -/
theorem getPage_run (h₀ : r₀.Starts cfg w₀)
    (hr : Reach (PageRun.step cfg os) (fun _ op => ∃ idx, op = .page idx) r₀ r) :
    r.s.w.assertsHold = w₀.assertsHold ∧
    (∀ e ∈ r.given,
      (∃ b, .reserve b cfg.reservation_size ∈ e.calls ∧ b ≤ e.page ∧
        e.page + 4096 ≤ b + cfg.reservation_size) ∧
      (∀ x, Within e.page 4096 x → pageState e.calls x = .committed) ∧
      cfg.addressToIdx e.page = e.idx ∧
      ∃ rs, commitRanges r.s.w.calls = rs ++ commitRanges e.calls ∧
        ∀ q ∈ rs, Apart q (e.page, 4096)) ∧
    r.given.Pairwise (fun e e' => Apart (e.page, 4096) (e'.page, 4096)) ∧
    (Reach (PageRun.step cfg os) (fun r op => (∃ idx, op = .page idx) ∧ CommitsWhole cfg os r op) r₀ r →
      CommittedOnce w₀ r.s.w.calls) ∧
    ((∀ cs a n, os.commits cs a n = true) → CommittedOnce w₀ r.s.w.calls) ∧
    (cfg.descriptorSize ≤ PAGE_SIZE → ∀ idx < cfg.bucket_cnt,
      Act.exec (getPage cfg os idx) r.s ≠ .stuck) := by
  obtain ⟨g, h⟩ : ∃ g, PageRunInv cfg (∀ cs a n, os.commits cs a n = true) w₀ r g :=
    PageRunInv.reach h₀ (fun _ _ hop => hop) (fun _ _ _ hos => Or.inl hos) hr
  refine ⟨h.asserts, fun e he => ?_, h.apart, fun hwhole => ?_, fun hos => (h.commits hos).once,
    fun hsz idx hidx => Act.not_stuck (getPage_spec os h.inv hsz hidx)⟩
  · have hG := h.given e he
    obtain ⟨m, hm, hp⟩ := hG.page
    refine ⟨hG.block, hG.committed, ?_, hG.once⟩
    rw [hp]
    exact SoundingCfg.addressToIdx_pageAddr hG.bucket
      (Nat.mod_lt m cfg.pages_per_bucket_pos)
  · obtain ⟨g', h'⟩ : ∃ g, PageRunInv cfg True w₀ r g :=
      PageRunInv.reach h₀ (fun _ _ hop => hop.1) (fun _ _ hop _ => Or.inr hop.2) hwhole
    exact (h'.commits trivial).once

theorem getPage_run_three : ∃ r, run (PageRun.step pageAllocatorT (Os.linear 0))
      (fun _ op => op matches .page _) (PageRun.init pageAllocatorT ⟨[], fun _ => 7, true⟩ raw)
      [.page 3, .page 5, .page 3] = some r ∧
    r.s.w.assertsHold = true ∧ r.given.Pairwise (fun e e' => Apart (e.page, 4096) (e'.page, 4096)) := by
  obtain ⟨r, hr⟩ := Option.isSome_iff_exists.mp (show (run (PageRun.step pageAllocatorT (Os.linear 0))
      (fun _ op => op matches .page _) (PageRun.init pageAllocatorT ⟨[], fun _ => 7, true⟩ raw)
      [.page 3, .page 5, .page 3]).isSome = true by decide +kernel)
  have h := getPage_run (PageRun.init_starts pageAllocatorT ⟨[], fun _ => 7, true⟩ raw)
    ((Reach.of_run hr).mono fun _ op hop => by
      cases op with
      | page idx => exact ⟨idx, rfl⟩
      | multipage idx => cases hop)
  exact ⟨r, hr, h.1, h.2.2.1⟩

/-- A system that refuses the commit that is its fourth call. -/
def refusingOs : Os := { Os.linear (127 * 2 ^ 40 + 7 * 4096) with commits := fun cs _ _ => cs.length != 3 }

/-- A batch that wraps around is two commits: the second is refused, and the call
throws; the next call makes both. -/
theorem not_getPage_run : ∃ r, run (PageRun.step pageAllocatorT refusingOs) (fun _ op => op matches .page _)
      (PageRun.init pageAllocatorT ⟨[], fun _ => 7, true⟩ raw) [.page 0, .page 0] = some r ∧
    ¬ CommittedOnce ⟨[], fun _ => 7, true⟩ r.s.w.calls := by
  obtain ⟨r, hr, hranges⟩ := Option.map_eq_some_iff.mp (show (run (PageRun.step pageAllocatorT refusingOs)
      (fun _ op => op matches .page _) (PageRun.init pageAllocatorT ⟨[], fun _ => 7, true⟩ raw)
      [.page 0, .page 0]).map (fun r => commitRanges r.s.w.calls) =
        some [(127 * 2 ^ 40 + 40960, 24576), (127 * 2 ^ 40 + 8388608, 40960), (127 * 2 ^ 40 + 8388608, 40960)] by
    decide +kernel)
  refine ⟨r, hr, fun hx => ?_⟩
  obtain ⟨rs, h1, h2⟩ := hx
  rw [hranges] at h1
  obtain rfl : _ = rs := h1.trans (List.append_nil rs)
  have htwice : Apart (127 * 2 ^ 40 + 8388608, 40960) (127 * 2 ^ 40 + 8388608, 40960) := by
    simp only [List.pairwise_cons, List.mem_cons] at h2
    exact h2.2.1 _ (Or.inl rfl)
  exact htwice (127 * 2 ^ 40 + 8388608) ⟨le_rfl, by norm_num⟩ ⟨le_rfl, by norm_num⟩

/-! ### Runs of getMultipage -/

/-- The cursors as `getPage` asserts them, in each of its branches. -/
def CursorsSound (cfg : SoundingCfg) (c : SoundingAddressPageAllocator) : Prop :=
  ∀ idx < cfg.bucket_cnt, c.indexHead idx ≠ .null ∧
    let d := c.desc (c.indexHead idx)
    (d.nextToUse idx < cfg.pages_per_bucket → d.nextToUse idx ≤ d.nextToCommit idx) ∧
    (¬ d.nextToUse idx < cfg.pages_per_bucket → d.next = .null →
      c.indexHead idx = c.pageBlockListCurrent) ∧
    (¬ d.nextToUse idx < cfg.pages_per_bucket → d.next ≠ .null →
      (c.desc d.next).blockAddress ≠ 0 ∧ (c.desc d.next).nextToUse idx = 0 ∧
        (c.desc d.next).nextToCommit idx = 0)

section Reached

variable {calls : List OsCall} {c : SoundingAddressPageAllocator}

theorem SoundInv.cursorsSound (h : SoundInv cfg calls c g) : CursorsSound cfg c := by
  intro idx hidx
  have hC := cfg.commit_page_cnt_pos
  obtain ⟨k, hk, hhead, hn, -⟩ := h.head idx hidx
  have hnode := h.node k hk
  rw [hhead]
  refine ⟨(h.accessible hk).ne_null, fun _ => ?_, fun _ hnext => ?_, fun huse hnext => ?_⟩
  · rw [hnode.use idx hidx, hnode.commit idx hidx]
    exact le_committedAt hC
  · rw [hnode.next, Ghost.node_eq_null] at hnext
    rw [h.current, show k = g.blocks.length by omega]
  · rw [hnode.next] at hnext ⊢
    have hk' : k < g.blocks.length := by
      by_contra hlt
      exact hnext (Ghost.node_eq_null.mpr (by omega))
    have hnode' := h.node (k + 1) hk'
    have hused : usedAt cfg.pages_per_bucket (g.n idx) (k + 1) = 0 := by
      simp only [usedAt]
      omega
    rw [hnode'.block k rfl, hnode'.use idx hidx, hnode'.commit idx hidx, hused, committedAt_zero hC]
    exact ⟨(h.block_at hk').pos.ne', rfl, rfl⟩

/-- Following `next` from `pageBlockListStart` visits the blocks in order. -/
theorem SoundInv.chain (h : SoundInv cfg calls c g) :
    Chain (fun p => (c.desc p).next) .null c.pageBlockListStart.next
      (g.blocks.map fun p => .item p.1) := by
  have hdrop : ∀ (l : List (ℕ × ℕ)) (k : ℕ), g.blocks.drop k = l →
      Chain (fun p => (c.desc p).next) .null (g.node (k + 1)) (l.map fun p => .item p.1) := by
    intro l
    induction l with
    | nil =>
      intro k hl
      have := List.drop_eq_nil_iff.mp hl
      exact Ghost.node_eq_null.mpr (by omega)
    | cons p l ih =>
      intro k hl
      have hk : k < g.blocks.length := by
        by_contra hk
        rw [List.drop_eq_nil_of_le (by omega)] at hl
        cases hl
      rw [List.drop_eq_getElem_cons hk] at hl
      obtain ⟨hp, hl⟩ := List.cons.inj hl
      have hnode : g.node (k + 1) = .item p.1 := by simp [Ghost.node, hk, hp]
      refine ⟨hnode, by simp, ?_⟩
      have hnext := (h.node (k + 1) hk).next
      rw [hnode] at hnext
      show Chain _ _ (c.desc (.item p.1)).next _
      rw [hnext]
      exact ih (k + 1) hl
  have h0 := (h.node 0 (Nat.zero_le _)).next
  rw [show c.pageBlockListStart.next = g.node (0 + 1) from h0]
  exact hdrop g.blocks 0 rfl

/-- The pages of a bucket, block after block. -/
theorem range_pages (bs : List ℕ) (p : ℕ) (f : ℕ → ℕ → ℕ) :
    (bs.flatMap fun b => (List.range p).map (f b)) =
      (List.range (bs.length * p)).map fun m => f (bs.getD (m / p) 0) (m % p) := by
  induction bs with
  | nil => simp
  | cons b bs ih =>
    rw [List.flatMap_cons, ih, List.length_cons, Nat.add_mul, Nat.one_mul, Nat.add_comm, List.range_add,
      List.map_append, List.map_map]
    congr 1
    · refine List.map_congr_left fun k hk => ?_
      have hk := List.mem_range.mp hk
      rw [Nat.div_eq_of_lt hk, Nat.mod_eq_of_lt hk, List.getD_cons_zero]
    · refine List.map_congr_left fun m hm => ?_
      have hp : 0 < p := by
        rcases Nat.eq_zero_or_pos p with rfl | hp
        · simp at hm
        · exact hp
      rw [Function.comp_apply, Nat.add_div_left m hp, Nat.add_mod_left, List.getD_cons_succ]

/-- The pages a bucket was given are the first ones of the list of blocks. -/
theorem SoundInv.delivered_first (h : SoundInv cfg calls c g) (hidx : idx < cfg.bucket_cnt) :
    (List.range (g.n idx)).map (g.pageOf cfg idx) <+:
      (g.blocks.map fun p => DescPtr.item p.1).flatMap fun p =>
        (List.range cfg.pages_per_bucket).map (cfg.pageAddr (c.desc p).blockAddress idx) := by
  have hbs : (g.blocks.map fun p => DescPtr.item p.1).flatMap (fun p =>
      (List.range cfg.pages_per_bucket).map (cfg.pageAddr (c.desc p).blockAddress idx)) =
      (g.blocks.map Prod.snd).flatMap fun b =>
        (List.range cfg.pages_per_bucket).map (cfg.pageAddr b idx) := by
    rw [List.flatMap_map, List.flatMap_map]
    refine List.flatMap_congr fun p hp => ?_
    obtain ⟨k, hk, rfl⟩ := List.getElem_of_mem hp
    have hn := (h.node (k + 1) hk).block k rfl
    rw [show g.node (k + 1) = .item g.blocks[k].1 by simp [Ghost.node, hk]] at hn
    rw [hn]
    simp [Ghost.block, hk]
  rw [hbs, range_pages, List.length_map]
  obtain ⟨k, hk, -, hn, -⟩ := h.head idx hidx
  have hle : g.n idx ≤ g.blocks.length * cfg.pages_per_bucket :=
    hn.trans (Nat.mul_le_mul_right _ hk)
  have hf : (fun m => cfg.pageAddr ((g.blocks.map Prod.snd).getD (m / cfg.pages_per_bucket) 0) idx
      (m % cfg.pages_per_bucket)) = g.pageOf cfg idx := by
    funext m
    rw [Ghost.pageOf, Ghost.block]
    congr 1
    simp only [List.getD_eq_getElem?_getD, List.getElem?_map]
    cases g.blocks[m / cfg.pages_per_bucket]? <;> rfl
  rw [hf]
  apply List.IsPrefix.map _
  obtain ⟨d, hd⟩ := Nat.exists_eq_add_of_le hle
  rw [hd, List.range_add]
  exact List.prefix_append _ _

end Reached

theorem segmentPages_eq (ptr n : ℕ) :
    segmentPages ptr (n * 4096) = (List.range n).map fun i => ptr + i * 4096 := by
  rw [segmentPages, PAGE_SIZE_eq, Nat.mul_div_cancel n (by norm_num)]

/-- The segments of a multipage are the next pages of the bucket. -/
theorem Segments.pages_eq {m cut : ℕ} {mp : MultipageData} (h : Segments cfg g idx m mp cut) :
    segmentPages mp.ptr1 mp.sz1 ++ segmentPages mp.ptr2 mp.sz2 =
      (List.range cfg.multipage_page_cnt).map fun t => g.pageOf cfg idx (m + t) := by
  have hle := h.le
  obtain ⟨d, hd⟩ := Nat.exists_eq_add_of_le hle
  rw [h.sz1, h.sz2, segmentPages_eq, segmentPages_eq]
  conv_rhs => rw [hd, List.range_add, List.map_append, List.map_map]
  refine congrArg₂ (· ++ ·) ?_ ?_
  · exact List.map_congr_left fun t ht => (h.first t (List.mem_range.mp ht)).symm
  · rw [hd, Nat.add_sub_cancel_left]
    refine List.map_congr_left fun t ht => ?_
    have ht := List.mem_range.mp ht
    rw [Function.comp_apply, h.second (cut + t) (by omega) (by omega), Nat.add_sub_cancel_left]

/-- The state of a run of `getMultipage`: each bucket was given whole batches. -/
structure MultipageRunInv (cfg : SoundingCfg) (w₀ : World) (r : PageRun) (g : Ghost) : Prop where
  inv : SoundInv cfg r.s.w.calls r.s.c g
  fits : Fits cfg g
  asserts : r.s.w.assertsHold = w₀.assertsHold
  batches : ∀ idx < cfg.bucket_cnt, cfg.multipage_page_cnt ∣ g.n idx
  delivered : ∀ idx < cfg.bucket_cnt, r.delivered idx = (List.range (g.n idx)).map (g.pageOf cfg idx)

theorem MultipageRunInv.start (h : r₀.Starts cfg w₀) : MultipageRunInv cfg w₀ r₀ .empty := by
  obtain ⟨hw, hI, hg⟩ := starts_inv h
  exact ⟨hI, Or.inr rfl, by rw [hw], fun _ _ => dvd_zero _, fun idx _ => by
    simp [PageRun.delivered, hg, Ghost.empty]⟩

theorem delivered_append (ps : List ℕ) (t : St SoundingAddressPageAllocator) (calls : List OsCall)
    (i : ℕ) : PageRun.delivered ⟨t, r.given ++ ps.map fun p => ⟨idx, p, calls⟩⟩ i =
      r.delivered i ++ if i = idx then ps else [] := by
  unfold PageRun.delivered
  rw [List.filter_append, List.map_append]
  congr 1
  by_cases hi : i = idx
  · subst hi
    rw [if_pos rfl, List.filter_map, List.map_map]
    simp [Function.comp_def]
  · rw [if_neg hi, List.filter_map]
    simp [Function.comp_def, Ne.symm hi]

/-- The pages given so far stay the first ones, over a call that adds blocks. -/
theorem range_pageOf {calls : List OsCall} {g' : Ghost} {c : SoundingAddressPageAllocator}
    (h : SoundInv cfg calls c g) (hb : g.blocks <+: g'.blocks) {i : ℕ} (hi : i < cfg.bucket_cnt) :
    (List.range (g.n i)).map (g'.pageOf cfg i) = (List.range (g.n i)).map (g.pageOf cfg i) :=
  List.map_congr_left fun _ hm => pageOf_stable hb (h.div_lt hi (List.mem_range.mp hm))

theorem MultipageRunInv.step (h : MultipageRunInv cfg w₀ r g)
    (hs : r.step cfg os (.multipage idx) = some r') : ∃ g', MultipageRunInv cfg w₀ r' g' := by
  obtain ⟨hidx, hout⟩ := step_cases hs
  have hspec : Act.wlp (PageOp.exec cfg os (.multipage idx))
      (fun ps t => ∃ mp g' cut, ps = segmentPages mp.ptr1 mp.sz1 ++ segmentPages mp.ptr2 mp.sz2 ∧
        (SoundInv cfg t.w.calls t.c g' ∧ PageStep cfg idx r.s.w t.w g g' ∧
          g'.n = put g.n idx (g.n idx + cfg.multipage_page_cnt) ∧
          Segments cfg g' idx (g.n idx) mp cut) ∧ Fits cfg g')
      (fun t => ∃ g', Threw cfg os idx r.s g g' t ∧ Fits cfg g') r.s := by
    refine Act.wlp_bind (Act.wlp_mono (getMultipage_wlp os h.inv h.fits hidx (h.batches idx hidx)) ?_
      fun _ ht => ht)
    intro mp t ht
    obtain ⟨g', cut, ht⟩ := ht
    exact Act.wlp_pure ⟨mp, g', cut, rfl, ht⟩
  rcases hout with ⟨ps, t, hret, rfl⟩ | ⟨t, hthrow, rfl⟩
  · obtain ⟨mp, g', cut, rfl, ⟨hI, hst, hn, hseg⟩, hf⟩ := Act.wlp_ret hspec hret
    refine ⟨g', hI, hf, hst.asserts.trans h.asserts, fun i hi => ?_, fun i hi => ?_⟩
    · rw [hn, put]
      split_ifs with hii
      · exact (Nat.dvd_add_right (h.batches idx hidx)).mpr dvd_rfl
      · exact h.batches i hi
    · rw [PageOp.idx, delivered_append, h.delivered i hi, hseg.pages_eq, hn, put,
        ← range_pageOf h.inv hst.blocks hi]
      split_ifs with hii
      · rw [hii, List.range_add, List.map_append, List.map_map]
        rfl
      · rw [List.append_nil]
  · obtain ⟨g', ⟨hI, hst, hn, -⟩, hf⟩ := Act.wlp_throw hspec hthrow
    refine ⟨g', hI, hf, hst.asserts.trans h.asserts, fun i hi => hn ▸ h.batches i hi, fun i hi => ?_⟩
    rw [hn, range_pageOf h.inv hst.blocks hi]
    exact h.delivered i hi

/-- **A failed call drops no page.** After any sequence of calls
`getMultipage`, of which any may throw at any request to the operating system:
the cursors are as `getPage` asserts them, and no assertion has failed; the
pages each bucket was given are pages 0, 1, 2, … of the first block of the list,
then of the second, and so on; and where descriptors fit in a page, the next
call returns, unless the operating system refuses a request of that call. -/
theorem getMultipage_run (h₀ : r₀.Starts cfg w₀)
    (hr : Reach (PageRun.step cfg os) (fun _ op => ∃ idx, op = .multipage idx) r₀ r) :
    CursorsSound cfg r.s.c ∧ r.s.w.assertsHold = w₀.assertsHold ∧
    (∃ ptrs, Chain (fun p => (r.s.c.desc p).next) .null r.s.c.pageBlockListStart.next ptrs ∧
      ∀ idx < cfg.bucket_cnt, r.delivered idx <+: ptrs.flatMap fun p =>
        (List.range cfg.pages_per_bucket).map (cfg.pageAddr (r.s.c.desc p).blockAddress idx)) ∧
    (cfg.descriptorSize ≤ PAGE_SIZE → ∀ (os' : Os), ∀ idx < cfg.bucket_cnt,
      (∃ mp t, Act.exec (getMultipage cfg os' idx) r.s = .ret mp t) ∨
      ∃ t, Act.exec (getMultipage cfg os' idx) r.s = .throw t ∧ Refused r.s.w t.w) := by
  obtain ⟨g, h⟩ : ∃ g, MultipageRunInv cfg w₀ r g := by
    refine hr.invariant (P := fun r => ∃ g, MultipageRunInv cfg w₀ r g) ⟨.empty, .start h₀⟩ ?_
    rintro s t op ⟨g, hg⟩ ⟨idx, rfl⟩ hs
    exact hg.step hs
  refine ⟨h.inv.cursorsSound, h.asserts, ⟨_, h.inv.chain, fun idx hidx => ?_⟩,
    fun hsz os' idx hidx => ?_⟩
  · rw [h.delivered idx hidx]
    exact h.inv.delivered_first hidx
  · have hspec := getMultipage_spec os' h.inv hsz hidx (h.batches idx hidx)
    cases hx : Act.exec (getMultipage cfg os' idx) r.s with
    | ret mp t => exact Or.inl ⟨mp, t, rfl⟩
    | throw t =>
      obtain ⟨g', -, -, -, hrf, -⟩ := Act.exec_throw hspec hx
      exact Or.inr ⟨t, rfl, hrf⟩
    | stuck => exact absurd hx (Act.not_stuck hspec)

/-- The commit of the first call is refused; the second call gets its pages. -/
theorem getMultipage_run_refused : ∃ r, run (PageRun.step pageAllocatorT
        { Os.linear 0 with commits := fun cs _ _ => cs.length != 2 })
      (fun _ op => op matches .multipage _) (PageRun.init pageAllocatorT ⟨[], fun _ => 7, true⟩ raw)
      [.multipage 3, .multipage 3] = some r ∧
    (r.delivered 3).length = 8 ∧ CursorsSound pageAllocatorT r.s.c ∧ r.s.w.assertsHold = true := by
  obtain ⟨r, hr, hlen⟩ := Option.map_eq_some_iff.mp (show (run (PageRun.step pageAllocatorT
        { Os.linear 0 with commits := fun cs _ _ => cs.length != 2 })
      (fun _ op => op matches .multipage _) (PageRun.init pageAllocatorT ⟨[], fun _ => 7, true⟩ raw)
      [.multipage 3, .multipage 3]).map (fun r => (r.delivered 3).length) = some 8 by decide +kernel)
  have h := getMultipage_run (PageRun.init_starts pageAllocatorT ⟨[], fun _ => 7, true⟩ raw)
    ((Reach.of_run hr).mono fun _ op hop => by
      cases op with
      | page idx => cases hop
      | multipage idx => exact ⟨idx, rfl⟩)
  exact ⟨r, hr, hlen, h.1, h.2.1⟩

/-! ### The life cycle -/

/-- The regions obtained since `w₀` are those of the ghost state, and none was
given back. -/
def Logged (cfg : SoundingCfg) (w₀ : World) (s : St SoundingAddressPageAllocator) : Prop :=
  ∃ g, SoundInv cfg s.w.calls s.c g ∧ Fits cfg g ∧ w₀.calls <:+ s.w.calls ∧
    (obtained s.w.calls).Perm (g.regions cfg ++ obtained w₀.calls)

section Life

variable {P : St SoundingAddressPageAllocator → Prop}

/-- What a call for a page and an assertion keep, a call for a multipage keeps. -/
theorem getMultipage_keeps (ha : ∀ b, Act.Keeps P (Act.assert b)) (hp : Act.Keeps P (getPage cfg os idx)) :
    Act.Keeps P (getMultipage cfg os idx) := by
  have hextend : ∀ n ptr sz, Act.Keeps P (extend cfg os idx ptr n sz) := by
    intro n
    induction n with
    | zero => exact fun _ _ => .pure _
    | succ n ih => exact fun _ _ => .bind hp fun _ => .bind (ha _) fun _ => .ite (ih _ _) (.pure _)
  refine .bind hp fun ptr => .ite (.bind (ha _) fun _ => .bind (ha _) fun _ => .pure _) ?_
  refine .bind (hextend _ _ _) fun r => ?_
  obtain ⟨sz, _ | ⟨p, n⟩⟩ := r
  · exact .bind (ha _) fun _ => .pure _
  · exact .bind (hextend _ _ _) fun _ => .bind (ha _) fun _ => .bind (ha _) fun _ => .pure _

theorem PageOp.keeps (ha : ∀ b, Act.Keeps P (Act.assert b)) {op : PageOp}
    (hp : Act.Keeps P (getPage cfg os op.idx)) : Act.Keeps P (op.exec cfg os) := by
  cases op with
  | page idx => exact .bind hp fun _ => .pure _
  | multipage idx => exact .bind (getMultipage_keeps ha hp) fun _ => .pure _

/-- A call for a page keeps the log. -/
theorem getPage_logged (hidx : idx < cfg.bucket_cnt) : Act.Keeps (Logged cfg w₀) (getPage cfg os idx) := by
  intro s hs
  obtain ⟨g, hI, hf, hs, hp⟩ := hs
  have hnext : ∀ {t : St SoundingAddressPageAllocator} {g' : Ghost}, SoundInv cfg t.w.calls t.c g' →
      PageStep cfg idx s.w t.w g g' → Fits cfg g' → Logged cfg w₀ t := fun hI' hst hf' =>
    ⟨_, hI', hf', hs.trans hst.suffix, hst.regions _ hp⟩
  refine Act.wlp_mono (getPage_wlp os hI hf hidx) ?_ ?_
  · intro p t ht
    obtain ⟨g', ⟨hI', hst, -⟩, hf'⟩ := ht
    exact hnext hI' hst hf'
  · intro t ht
    obtain ⟨g', ⟨hI', hst, -⟩, hf'⟩ := ht
    exact hnext hI' hst hf'

theorem assert_logged (b : Bool) :
    Act.Keeps (Logged cfg w₀) (Act.assert b : Act (St SoundingAddressPageAllocator) Unit) := by
  intro s hs
  apply Act.wlp_of_wp
  rw [Act.wp_assert]
  exact hs

theorem logged_step {op : PageOp} (h : Logged cfg w₀ r.s) (hs : r.step cfg os op = some r') :
    Logged cfg w₀ r'.s := by
  obtain ⟨hidx, hout⟩ := step_cases hs
  have hkeeps : Act.Keeps (Logged cfg w₀) (op.exec cfg os) := PageOp.keeps assert_logged (getPage_logged hidx)
  rcases hout with ⟨ps, t, hret, rfl⟩ | ⟨t, hthrow, rfl⟩
  · exact hkeeps.ret h hret
  · exact Act.wlp_throw (hkeeps _ h) hthrow

end Life

/-- **Every region obtained is given back once.** After any sequence of calls,
`deinitialize` comes to its end (with enough rounds for its loops), no access
to a descriptor fails on the way, its assertions hold, and the calls it makes
are `munmap`s of the regions the run obtained, each with its size, once each and
nothing else; called again, it makes no call. -/
theorem deinitialize_run (h₀ : r₀.Starts cfg w₀)
    (hr : Reach (PageRun.step cfg os) (fun _ _ => True) r₀ r) :
    ∃ run, r.s.w.calls = run ++ w₀.calls ∧ ∃ fuel₀, ∀ fuel ≥ fuel₀,
      ∃ (t : St SoundingAddressPageAllocator) (rel : List (ℕ × ℕ)),
      Act.exec (deinit cfg fuel) ⟨{ r.s.w with assertsHold := true }, r.s.c⟩ = .ret () t ∧
      t.w.assertsHold = true ∧
      t.w.calls = (rel.map fun q => .release q.1 q.2) ++ r.s.w.calls ∧ rel.Perm (obtained run) ∧
      ∃ t', Act.exec (deinit cfg fuel) t = .ret () t' ∧ t'.w = t.w := by
  obtain ⟨g, hI, hf, ⟨run, hrun⟩, hp⟩ : Logged cfg w₀ r.s := by
    refine hr.invariant (P := fun r => Logged cfg w₀ r.s) ?_ fun op h _ hs => logged_step h hs
    obtain ⟨hw, hI, -⟩ := starts_inv h₀
    exact ⟨.empty, hI, Or.inr rfl, by rw [hw], by rw [hw]; exact List.Perm.refl _⟩
  have hreg : (g.regions cfg).Perm (obtained run) := by
    rw [← hrun, obtained_append] at hp
    exact ((List.perm_append_right_iff _).mp hp).symm
  refine ⟨run, hrun.symm, g.used.length + g.free.length, fun fuel hfuel => ?_⟩
  have hd := deinit_spec (s := ⟨{ r.s.w with assertsHold := true }, r.s.c⟩) hI hf hfuel
  obtain ⟨_, t, hx, ⟨ps, hps, hw⟩, hE, -⟩ := Act.returns hd
  obtain ⟨h1, h2⟩ := World.releasedAll_calls cfg.reservation_size (g.blocks.map Prod.snd)
    { r.s.w with assertsHold := true }
  obtain ⟨h3, h4⟩ := World.releasedAll_calls PAGE_SIZE ps
    ({ r.s.w with assertsHold := true }.releasedAll cfg.reservation_size (g.blocks.map Prod.snd))
  refine ⟨t, ps.reverse.map (fun p => (p, 4096)) ++
    (g.blocks.map Prod.snd).reverse.map (fun b => (b, cfg.reservation_size)), hx, ?_, ?_, ?_, ?_⟩
  · rw [hw, h4, h2]
  · rw [hw, h3, h1, List.map_append, List.map_map, List.map_map, List.append_assoc]
    rfl
  · refine List.Perm.trans ?_ hreg
    refine List.perm_append_comm.trans ((List.Perm.map _ (List.reverse_perm _)).append
      (List.Perm.map _ ((List.reverse_perm _).trans hps)) |>.trans ?_)
    rw [List.map_map]
    exact List.Perm.refl _
  · obtain ⟨_, t', hx', ⟨ps', hps', hw'⟩, -⟩ := Act.returns (deinit_spec hE (Or.inr rfl) (Nat.zero_le fuel))
    rw [show ps' = [] from List.perm_nil.mp hps'] at hw'
    exact ⟨t', hx', hw'⟩

theorem deinitialize_run_two : ∃ r, run (PageRun.step pageAllocatorT (Os.linear 0)) (fun _ _ => true)
      (PageRun.init pageAllocatorT ⟨[], fun _ => 7, true⟩ raw) [.page 3, .multipage 5] = some r ∧
    ∃ fuel t, ∃ rel : List (ℕ × ℕ),
      Act.exec (deinit pageAllocatorT fuel) ⟨{ r.s.w with assertsHold := true }, r.s.c⟩ = .ret () t ∧
      t.w.assertsHold = true ∧ t.w.calls = (rel.map fun q => .release q.1 q.2) ++ r.s.w.calls ∧
      rel.Perm (obtained r.s.w.calls) := by
  obtain ⟨r, hr⟩ := Option.isSome_iff_exists.mp (show (run (PageRun.step pageAllocatorT (Os.linear 0))
      (fun _ _ => true) (PageRun.init pageAllocatorT ⟨[], fun _ => 7, true⟩ raw)
      [.page 3, .multipage 5]).isSome = true by decide +kernel)
  obtain ⟨run, hrun, fuel, h⟩ := deinitialize_run
    (PageRun.init_starts pageAllocatorT ⟨[], fun _ => 7, true⟩ raw)
    ((Reach.of_run hr).mono fun _ _ _ => trivial)
  obtain ⟨t, rel, h1, h2, h3, h4, -⟩ := h fuel le_rfl
  rw [List.append_nil] at hrun
  exact ⟨r, hr, fuel, t, rel, h1, h2, h3, hrun ▸ h4⟩

end SoundingAddressPageAllocator

end IibMalloc
