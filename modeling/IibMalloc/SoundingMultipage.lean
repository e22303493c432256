/-
# SoundingAddressPageAllocator: getMultipage

A multipage is a batch of calls for one bucket. `getMultipage_spec`: if every
call for the bucket was for a batch, its pages are the next ones of the bucket,
in one segment, or in two where the block wraps around inside the batch
(`Segments`); the operating system is asked for something by the first of the
calls only, so a batch that throws has taken no page.
-/
import IibMalloc.SoundingGetPage

namespace IibMalloc

open Lib

namespace SoundingAddressPageAllocator

variable {cfg : SoundingCfg} {idx j : ℕ} {g : Ghost} {s : St SoundingAddressPageAllocator}

section Batch

variable {g' g₁ : Ghost} {w w₁ w₂ : World} {m t : ℕ}

theorem block_stable (hb : g.blocks <+: g'.blocks) (hj : j < g.blocks.length) :
    g'.block j = g.block j := by
  obtain ⟨l, hl⟩ := hb
  simp only [Ghost.block, ← hl, List.getD_eq_getElem?_getD, List.getElem?_append_left hj]

theorem pageOf_stable (hb : g.blocks <+: g'.blocks) (hm : m / cfg.pages_per_bucket < g.blocks.length) :
    g'.pageOf cfg idx m = g.pageOf cfg idx m := by
  rw [Ghost.pageOf, Ghost.pageOf, block_stable hb hm]

/-- A page that was handed out is a page of a block. -/
theorem SoundInv.pageOf_at {calls : List OsCall} {c : SoundingAddressPageAllocator} (h : SoundInv cfg calls c g)
    (hidx : idx < cfg.bucket_cnt) (hm : m < g.n idx) : 4096 ∣ g.pageOf cfg idx m ∧ g.pageOf cfg idx m ≠ 0 := by
  have hb := h.block_at (h.div_lt hidx hm)
  have hk := Nat.mod_lt m cfg.pages_per_bucket_pos
  have hmem := SoundingCfg.pageAddr_mem hb hidx hk
  have hpos := hb.pos
  exact ⟨SoundingCfg.pageAddr_aligned hb hidx hk, by unfold Ghost.pageOf; omega⟩

/-- The page that a call is going to hand out, read off the state before it. -/
theorem nextPage_eq (h : SoundInv cfg s.w.calls s.c g) (hidx : idx < cfg.bucket_cnt)
    (hb : g.blocks <+: g'.blocks)
    (hnew : g.blocks.length ≤ g.n idx / cfg.pages_per_bucket →
      nextBlock cfg os s = some (g'.block (g.n idx / cfg.pages_per_bucket))) :
    nextPage cfg os s idx =
      some (g'.block (g.n idx / cfg.pages_per_bucket), g.n idx % cfg.pages_per_bucket) := by
  obtain ⟨k, hk, hhead, h2, h1⟩ := h.head idx hidx
  have hnode := h.node k hk
  have huse := hnode.use idx hidx
  have hP := cfg.pages_per_bucket_pos
  unfold nextPage
  simp only [hhead, huse]
  by_cases hlt : usedAt cfg.pages_per_bucket (g.n idx) k < cfg.pages_per_bucket
  · rw [if_pos hlt]
    cases k with
    | zero => exact absurd hlt (lt_irrefl _)
    | succ j =>
      rw [Nat.add_sub_cancel] at h1
      rw [usedAt_of_mem h1 h2] at hlt ⊢
      obtain ⟨hdiv, hmod⟩ := div_mod_of_mem h1 (show g.n idx < (j + 1) * _ by rw [Nat.add_mul]; omega)
      rw [hdiv, hmod, block_stable hb hk, hnode.block j rfl]
  · rw [if_neg hlt]
    have hn : g.n idx = k * cfg.pages_per_bucket := by
      cases k with
      | zero => omega
      | succ j =>
        rw [Nat.add_sub_cancel] at h1
        rw [usedAt_of_mem h1 h2] at hlt
        rw [Nat.add_mul] at h2 ⊢
        omega
    have hdiv : g.n idx / cfg.pages_per_bucket = k := by rw [hn, Nat.mul_div_cancel _ hP]
    have hmod : g.n idx % cfg.pages_per_bucket = 0 := by rw [hn, Nat.mul_mod_left]
    rw [hdiv] at hnew
    rw [hnode.next, hdiv, hmod]
    by_cases hnull : g.node (k + 1) = .null
    · rw [if_pos hnull, hnew (by have := Ghost.node_eq_null.mp hnull; omega)]
      rfl
    · have hj : k < g.blocks.length := by
        by_contra hc
        exact hnull (Ghost.node_eq_null.mpr (by omega))
      rw [if_neg hnull, (h.node (k + 1) hj).block k rfl, block_stable hb hj]

/-- What a call keeps, the next one keeps too. -/
theorem keep_mono {calls : List OsCall} {c : SoundingAddressPageAllocator} (h : SoundInv cfg calls c g)
    (hst : PageStep cfg idx w w₁ g g₁) (hn : ∀ i, g.n i ≤ g₁.n i) {x : ℕ}
    (hx : g.Keep cfg w.calls x) : g₁.Keep cfg w₁.calls x := by
  refine ⟨(hst.grows x).2 hx.1, fun hb => ?_⟩
  obtain ⟨i, hi, m, hm, hw⟩ := hx.2 (hst.fresh x hb hx.1)
  refine ⟨i, hi, m, hm.trans_le (hn i), ?_⟩
  rwa [pageOf_stable hst.blocks (h.div_lt hi hm)]

/-- A second call that asks nothing of the operating system. -/
theorem PageStep.quiet {calls : List OsCall} {c : SoundingAddressPageAllocator}
    (h : SoundInv cfg calls c g) (hst : PageStep cfg idx w w₁ g g₁) (hn : ∀ i, g.n i ≤ g₁.n i)
    (hst' : PageStep cfg idx w₁ w₂ g₁ g') (hcalls : w₂.calls = w₁.calls) :
    PageStep cfg idx w w₂ g g' := by
  refine ⟨hst.blocks.trans hst'.blocks, hst.suffix.trans hst'.suffix, hst.grows.trans hst'.grows,
    hst'.asserts.trans hst.asserts, hst.frame.trans (hst'.frame.mono fun x hx => keep_mono h hst hn hx),
    fun x hx hm => hst.fresh x (hst'.fresh x hx ((hst.grows x).2 hm)) hm, fun p hp => ?_, fun x hx => ?_,
    fun R hR => hst'.regions R (hst.regions R hR), hst'.releases.trans hst.releases, fun p hp => ?_, ?_, ?_⟩
  · rcases hst'.freshPages p hp with hp | hp
    · exact hst.freshPages p hp
    · exact Or.inr fun x hx hm => hp x hx ((hst.grows x).2 hm)
  · rcases hst'.cover x hx with hh | ⟨hm, hn⟩
    · exact Or.inl hh
    · exact Or.inr ((hst.cover x hm).resolve_left hn)
  · rcases hst'.reserves p hp with hp | hp
    · exact (hst.reserves p hp).imp_right fun hm => hst'.suffix.subset hm
    · exact Or.inr hp
  · obtain ⟨bs, h1, h2⟩ := hst.reservations
    obtain ⟨bs', h3, h4⟩ := hst'.reservations
    refine ⟨bs ++ bs', by rw [h3, h1, List.append_assoc], ?_⟩
    rw [h4, h2, List.map_append, List.reverse_append, List.append_assoc]
  obtain ⟨rs, h1, h2, h3⟩ := hst.commits
  rw [hcalls]
  refine ⟨rs, h1, h2, fun r hr => ?_⟩
  obtain ⟨h4, h5⟩ := h3 r hr
  rw [block_stable hst'.blocks h4]
  exact ⟨h4.trans_le hst'.blocks.length_le, h5⟩

/-- A batch lies in one block. -/
theorem batch_div_mod (hm : cfg.multipage_page_cnt ∣ m) (ht : t < cfg.multipage_page_cnt) :
    (m + t) / cfg.pages_per_bucket = m / cfg.pages_per_bucket ∧
      (m + t) % cfg.pages_per_bucket = m % cfg.pages_per_bucket + t ∧
      m % cfg.pages_per_bucket + cfg.multipage_page_cnt ≤ cfg.pages_per_bucket := by
  have hP := cfg.pages_per_bucket_pos
  have hd := cfg.multipage_dvd.trans cfg.commit_dvd
  obtain ⟨q, hq⟩ := (Nat.dvd_mod_iff hd).mpr hm
  obtain ⟨r, hr⟩ := hd
  have hlt := Nat.mod_lt m hP
  have hqr : q < r := by
    rw [hq, hr] at hlt
    exact Nat.lt_of_mul_lt_mul_left hlt
  have hle : m % cfg.pages_per_bucket + cfg.multipage_page_cnt ≤ cfg.pages_per_bucket := by
    rw [hq, hr, ← Nat.mul_succ]
    exact Nat.mul_le_mul_left _ hqr
  have hdm := Nat.div_add_mod' m cfg.pages_per_bucket
  have hdiv : (m + t) / cfg.pages_per_bucket = m / cfg.pages_per_bucket :=
    Nat.div_eq_of_lt_le (by omega) (by rw [Nat.succ_mul]; omega)
  refine ⟨hdiv, ?_, hle⟩
  have hdm' := Nat.div_add_mod' (m + t) cfg.pages_per_bucket
  rw [hdiv] at hdm'
  omega

/-- Inside a batch no call asks anything of the operating system. -/
theorem not_dvd_batch (hm : cfg.multipage_page_cnt ∣ m) (h0 : 0 < t) (ht : t < cfg.multipage_page_cnt) :
    ¬ cfg.commit_page_cnt ∣ m + t := fun hd => by
  have h1 := (Nat.dvd_add_iff_right hm).mpr (cfg.multipage_dvd.trans hd)
  exact absurd (Nat.le_of_dvd h0 h1) (by omega)

/-- A page that is not adjacent to the one before is at the wrap point. -/
theorem wrap_of_not_adjacent {b k : ℕ} (hidx : idx < cfg.bucket_cnt)
    (hk : k + 1 < cfg.pages_per_bucket)
    (h : cfg.pageAddr b idx (k + 1) ≠ cfg.pageAddr b idx k + 4096) :
    idx * cfg.pages_per_bucket + (k + 1) = cfg.wrapPage b := by
  by_contra hw
  exact h (SoundingCfg.pageAddr_succ hidx hk hw)

end Batch

/-- What the loops of `getMultipage` found out about the batch from page `m`,
`i` pages of which were given out: the pages `lo, …, hi - 1` of it are adjacent
from `ptr` on. -/
structure Extended (cfg : SoundingCfg) (idx m lo ptr hi : ℕ) (g g' : Ghost) (sz : ℕ) : Prop where
  size : sz = (hi - lo) * 4096
  pages : ∀ t, lo ≤ t → t < hi → g'.pageOf cfg idx (m + t) = ptr + (t - lo) * 4096
  others : ∀ i, i ≠ idx → g'.n i = g.n i

/-- What `extend` returns when it was to find `n` pages of the batch and found
those up to `hi`: nothing if these are all, else the page that is not adjacent
and the number of those still to come. -/
def Remaining (cfg : SoundingCfg) (idx m ptr lo hi n : ℕ) (g : Ghost) : Option (ℕ × ℕ) → Prop
  | none => hi = n ∧ g.n idx = m + hi
  | some (p, k) => hi + 1 + k = n ∧ g.n idx = m + (hi + 1) ∧ p = g.pageOf cfg idx (m + hi) ∧
      p ≠ ptr + (hi - lo) * 4096 ∧ p ≠ 0

theorem extend_spec (os : Os) (hsz : cfg.descriptorSize ≤ 4096) (hidx : idx < cfg.bucket_cnt) {m : ℕ}
    (hm : cfg.multipage_page_cnt ∣ m) : ∀ (n i lo ptr : ℕ) (s : St SoundingAddressPageAllocator)
    (g : Ghost), SoundInv cfg s.w.calls s.c g → g.n idx = m + i → lo < i →
    i + n ≤ cfg.multipage_page_cnt →
    (∀ t, lo ≤ t → t < i → g.pageOf cfg idx (m + t) = ptr + (t - lo) * 4096) →
    Act.wp (extend cfg os idx ptr n ((i - lo) * 4096))
      (fun r t => ∃ g' hi, SoundInv cfg t.w.calls t.c g' ∧ PageStep cfg idx s.w t.w g g' ∧
        t.w.calls = s.w.calls ∧ i ≤ hi ∧ Extended cfg idx m lo ptr hi g g' r.1 ∧
        Remaining cfg idx m ptr lo hi (i + n) g' r.2)
      (fun _ => False) s
  | 0, i, lo, ptr, s, g, h, hn, _, _, hseg => by
    rw [extend, Act.wp_pure]
    exact ⟨g, i, h, .refl, rfl, le_rfl, ⟨rfl, hseg, fun _ _ => rfl⟩, rfl, hn⟩
  | n + 1, i, lo, ptr, s, g, h, hn, hlo, hin, hseg => by
    have hnd : ¬ cfg.commit_page_cnt ∣ g.n idx := by
      rw [hn]
      exact not_dvd_batch hm (by omega) (by omega)
    rw [extend, Act.wp_bind]
    refine Act.wp_mono (getPage_spec os h hsz hidx) ?_ fun t ⟨_, _, _, _, _, hd, _⟩ => absurd hd hnd
    intro p t ht
    obtain ⟨g₁, hI, hst, hn₁, hp, hcalls, -⟩ := ht
    replace hcalls := hcalls hnd
    have hself : g₁.n idx = m + (i + 1) := by rw [hn₁, put, if_pos rfl, hn]; omega
    have hother : ∀ k, k ≠ idx → g₁.n k = g.n k := fun k hk => by rw [hn₁, put, if_neg hk]
    have hle : ∀ k, g.n k ≤ g₁.n k := fun k => by
      by_cases hk : k = idx
      · rw [hk, hself, hn]; omega
      · rw [hother k hk]
    have hpos : p ≠ 0 := by
      rw [hp]
      exact (hI.pageOf_at hidx (by omega)).2
    have hseg₁ : ∀ t, lo ≤ t → t < i → g₁.pageOf cfg idx (m + t) = ptr + (t - lo) * 4096 :=
      fun t h1 h2 => by
        rw [pageOf_stable hst.blocks (h.div_lt hidx (by omega))]
        exact hseg t h1 h2
    rw [hn] at hp
    rw [Act.wp_bind, Act.wp_assert, decide_eq_true hpos, Bool.and_true]
    by_cases hadj : ptr + (i - lo) * 4096 = p
    · rw [if_pos hadj, PAGE_SIZE_eq, show (i - lo) * 4096 + 4096 = (i + 1 - lo) * 4096 by omega]
      refine Act.wp_mono (extend_spec os hsz hidx hm n (i + 1) lo ptr t g₁ hI hself (by omega) (by omega)
        fun t h1 h2 => ?_) ?_ fun _ hf => hf
      · rcases Nat.lt_or_ge t i with h3 | h3
        · exact hseg₁ t h1 h3
        · obtain rfl : t = i := by omega
          rw [← hp, hadj]
      · intro r t' ht'
        obtain ⟨g', hi, hI', hst', hcalls', hle', hext, hr⟩ := ht'
        refine ⟨g', hi, hI', hst.quiet h hle hst' hcalls', hcalls'.trans hcalls, by omega,
          ⟨hext.size, hext.pages, fun k hk => (hext.others k hk).trans (hother k hk)⟩, ?_⟩
        rcases r with ⟨sz, _ | ⟨p', k⟩⟩
        · exact ⟨by have := hr.1; omega, hr.2⟩
        · exact ⟨by have := hr.1; omega, hr.2⟩
    · rw [if_neg hadj, Act.wp_pure]
      exact ⟨g₁, i, hI, hst, hcalls, le_rfl, ⟨rfl, hseg₁, hother⟩, by omega, hself, hp, Ne.symm hadj,
        hpos⟩

/-- The segments of a multipage: the `multipage_page_cnt` pages from page `m`
of the bucket on, the first `cut` of them from `ptr1` and the others, if any,
from `ptr2`; they are cut where the block wraps around. -/
structure Segments (cfg : SoundingCfg) (g : Ghost) (idx m : ℕ) (mp : MultipageData) (cut : ℕ) :
    Prop where
  pos : 0 < cut
  le : cut ≤ cfg.multipage_page_cnt
  sz1 : mp.sz1 = cut * 4096
  sz2 : mp.sz2 = (cfg.multipage_page_cnt - cut) * 4096
  first : ∀ t < cut, g.pageOf cfg idx (m + t) = mp.ptr1 + t * 4096
  second : ∀ t, cut ≤ t → t < cfg.multipage_page_cnt →
    g.pageOf cfg idx (m + t) = mp.ptr2 + (t - cut) * 4096
  null : mp.ptr2 = 0 ↔ cut = cfg.multipage_page_cnt
  wrap : cut < cfg.multipage_page_cnt → idx * cfg.pages_per_bucket + (m % cfg.pages_per_bucket + cut) =
    cfg.wrapPage (g.block (m / cfg.pages_per_bucket))

/-- A loop of `getMultipage` stops at the wrap point. -/
theorem break_wrap {g' : Ghost} {m lo ptr hi sz : ℕ} (hidx : idx < cfg.bucket_cnt)
    (hm : cfg.multipage_page_cnt ∣ m) (hext : Extended cfg idx m lo ptr hi g g' sz)
    (hlo : lo < hi) (hM : hi < cfg.multipage_page_cnt)
    (hne : g'.pageOf cfg idx (m + hi) ≠ ptr + (hi - lo) * 4096) :
    idx * cfg.pages_per_bucket + (m % cfg.pages_per_bucket + hi) =
      cfg.wrapPage (g'.block (m / cfg.pages_per_bucket)) := by
  obtain ⟨h1, h2, h3⟩ := batch_div_mod hm hM
  obtain ⟨h4, h5, -⟩ := batch_div_mod (t := hi - 1) hm (by omega)
  have hlast := hext.pages (hi - 1) (by omega) (by omega)
  rw [Ghost.pageOf, h4, h5] at hlast
  rw [Ghost.pageOf, h1, h2] at hne
  have hk : m % cfg.pages_per_bucket + hi = m % cfg.pages_per_bucket + (hi - 1) + 1 := by omega
  rw [hk] at hne ⊢
  refine wrap_of_not_adjacent hidx (by omega) fun he => hne ?_
  rw [he, hlast]
  omega

/-- The pages that are not adjacent to the first ones are adjacent among
themselves: the block wraps around only once. -/
theorem secondSegment_spec (os : Os) (hsz : cfg.descriptorSize ≤ 4096) (hidx : idx < cfg.bucket_cnt)
    {m ptr hi sz : ℕ} {rest : Option (ℕ × ℕ)} {g₀ : Ghost} (hm : cfg.multipage_page_cnt ∣ m)
    (h : SoundInv cfg s.w.calls s.c g) (hhi : 0 < hi) (hext : Extended cfg idx m 0 ptr hi g₀ g sz)
    (hr : Remaining cfg idx m ptr 0 hi cfg.multipage_page_cnt g rest) :
    Act.wp (secondSegment cfg os idx ptr sz rest)
      (fun mp t => ∃ g' cut, SoundInv cfg t.w.calls t.c g' ∧ PageStep cfg idx s.w t.w g g' ∧
        t.w.calls = s.w.calls ∧ g'.n idx = m + cfg.multipage_page_cnt ∧ (∀ k, k ≠ idx → g'.n k = g.n k) ∧
        Segments cfg g' idx m mp cut)
      (fun _ => False) s := by
  have hM := cfg.multipage_page_cnt_pos
  have hshift : cfg.multipage_page_cnt <<< PAGE_SIZE_EXP = cfg.multipage_page_cnt * 4096 := by
    rw [PAGE_SIZE_EXP_eq, Nat.shiftLeft_eq]
  have hsz1 : sz = hi * 4096 := hext.size
  rcases rest with _ | ⟨p, k⟩
  · -- the pages are adjacent
    obtain ⟨rfl, hn⟩ := hr
    simp only [secondSegment, Act.wp_bind, Act.wp_assert, Act.wp_pure, hshift, Nat.add_zero,
      decide_eq_true hsz1, Bool.and_true]
    refine ⟨g, cfg.multipage_page_cnt, h, .refl, trivial, hn, fun _ _ => rfl, ⟨hM, le_rfl, hsz1, by simp,
      fun t ht => ?_, fun t h2 h3 => by omega, by simp, fun h2 => by omega⟩⟩
    simpa using hext.pages t (Nat.zero_le t) ht
  · -- the block wraps around inside the batch
    obtain ⟨hcount, hn, hp, hne, hp0⟩ := hr
    have hhiM : hi < cfg.multipage_page_cnt := by omega
    have hw := break_wrap hidx hm hext (by omega) hhiM (hp ▸ hne)
    simp only [secondSegment, Act.wp_bind]
    rw [show PAGE_SIZE = (hi + 1 - hi) * 4096 by rw [Nat.add_sub_cancel_left]; rfl]
    refine Act.wp_mono (extend_spec os hsz hidx hm k (hi + 1) hi p s g h hn (by omega)
      (by omega) fun t h2 h3 => ?_) ?_ fun _ hf => hf
    · obtain rfl : t = hi := by omega
      rw [Nat.sub_self, ← hp]
      omega
    rintro ⟨sz2, rest⟩ t ⟨g', hi', hI, hst, hcalls, hhi', hext', hr'⟩
    have hdiv := h.div_lt hidx (show m < g.n idx by omega)
    rcases rest with _ | ⟨p', k'⟩
    · obtain ⟨rfl, hn'⟩ := hr'
      have hsum : hi + 1 + k = cfg.multipage_page_cnt := by omega
      rw [hsum] at hext' hn'
      have hsz2 : sz2 = (cfg.multipage_page_cnt - hi) * 4096 := hext'.size
      have hassert : decide (sz + sz2 = cfg.multipage_page_cnt * 4096) = true :=
        decide_eq_true (by rw [hsz1, hsz2]; omega)
      simp only [Act.wp_assert, Act.wp_pure, hshift, hassert, Option.isNone_none, Bool.and_true]
      refine ⟨g', hi, hI, hst, hcalls, hn', hext'.others, ⟨by omega, hhiM.le, hsz1, hsz2, fun t ht => ?_,
        fun t h2 h3 => hext'.pages t h2 h3, ?_, fun _ => ?_⟩⟩
      · have hdt := h.div_lt hidx (show m + t < g.n idx by omega)
        rw [pageOf_stable hst.blocks hdt]
        simpa using hext.pages t (Nat.zero_le t) ht
      · exact ⟨fun h2 => absurd h2 hp0, fun h2 => by omega⟩
      · rw [block_stable hst.blocks hdiv]
        exact hw
    · -- it does so only once
      exfalso
      obtain ⟨hcount', hn', hp', hne', -⟩ := hr'
      have hw' := break_wrap hidx hm hext' (by omega) (by omega) (hp' ▸ hne')
      rw [block_stable hst.blocks hdiv] at hw'
      omega

theorem getMultipage_spec (os : Os) (h : SoundInv cfg s.w.calls s.c g)
    (hsz : cfg.descriptorSize ≤ 4096) (hidx : idx < cfg.bucket_cnt)
    (hm : cfg.multipage_page_cnt ∣ g.n idx) :
    Act.wp (getMultipage cfg os idx)
      (fun mp t => ∃ g' cut, SoundInv cfg t.w.calls t.c g' ∧ PageStep cfg idx s.w t.w g g' ∧
        g'.n = put g.n idx (g.n idx + cfg.multipage_page_cnt) ∧
        Segments cfg g' idx (g.n idx) mp cut ∧
        nextPage cfg os s idx =
          some (g'.block (g.n idx / cfg.pages_per_bucket), g.n idx % cfg.pages_per_bucket))
      (fun t => ∃ g', Threw cfg os idx s g g' t) s := by
  have hM := cfg.multipage_page_cnt_pos
  have hshift : cfg.multipage_page_cnt <<< PAGE_SIZE_EXP = cfg.multipage_page_cnt * 4096 := by
    rw [PAGE_SIZE_EXP_eq, Nat.shiftLeft_eq]
  rw [getMultipage, Act.wp_bind]
  refine Act.wp_mono (getPage_spec os h hsz hidx) ?_ fun t ht => ht
  intro p t ht
  obtain ⟨g₁, hI, hst, hn₁, hp, -, hnew⟩ := ht
  have hself : g₁.n idx = g.n idx + 1 := by rw [hn₁, put, if_pos rfl]
  have hother : ∀ k, k ≠ idx → g₁.n k = g.n k := fun k hk => by rw [hn₁, put, if_neg hk]
  have hle : ∀ k, g.n k ≤ g₁.n k := fun k => by
    by_cases hk : k = idx
    · rw [hk, hself]; omega
    · rw [hother k hk]
  have hput : ∀ g' : Ghost, g'.n idx = g.n idx + cfg.multipage_page_cnt →
      (∀ k, k ≠ idx → g'.n k = g₁.n k) → g'.n = put g.n idx (g.n idx + cfg.multipage_page_cnt) :=
    fun g' h1 h2 => by
      funext k
      unfold put
      split_ifs with hk
      · rw [hk, h1]
      · rw [h2 k hk, hother k hk]
  have hpos : p ≠ 0 := by
    rw [hp]
    exact (hI.pageOf_at hidx (by omega)).2
  have hnext := fun g' : Ghost => fun hb : g₁.blocks <+: g'.blocks =>
    nextPage_eq h hidx (hst.blocks.trans hb) fun hle => by
      rw [block_stable hb (hI.div_lt hidx (by omega))]
      exact hnew hle
  by_cases h1 : cfg.multipage_page_cnt = 1
  · rw [if_pos h1]
    have hassert : decide (PAGE_SIZE + 0 = cfg.multipage_page_cnt <<< PAGE_SIZE_EXP) = true :=
      decide_eq_true (by rw [hshift, h1]; rfl)
    simp only [Act.wp_bind, Act.wp_assert, Act.wp_pure, decide_eq_true hpos, hassert, Bool.and_true]
    rw [h1]
    refine ⟨g₁, 1, hI, hst, hn₁, ⟨Nat.one_pos, h1.ge, rfl, by simp [h1], fun t ht => ?_,
      fun t h2 h3 => ?_, by simp [h1], fun h2 => by omega⟩, hnext g₁ (List.prefix_refl _)⟩
    · obtain rfl : t = 0 := by omega
      rw [Nat.add_zero, ← hp]; rfl
    · omega
  · rw [if_neg h1, Act.wp_bind, show PAGE_SIZE = (1 - 0) * 4096 from rfl]
    refine Act.wp_mono (extend_spec os hsz hidx hm (cfg.multipage_page_cnt - 1) 1 0 p t g₁ hI hself
      (by omega) (by omega) fun t _ ht => ?_) ?_ fun _ hf => hf.elim
    · obtain rfl : t = 0 := by omega
      rw [Nat.add_zero, ← hp]; rfl
    rintro ⟨sz, rest⟩ t₂ ⟨g₂, hi, hI₂, hst₂, hcalls₂, hhi, hext, hr⟩
    rw [show 1 + (cfg.multipage_page_cnt - 1) = cfg.multipage_page_cnt by omega] at hr
    have hle₂ : ∀ k, g₁.n k ≤ g₂.n k := fun k => by
      by_cases hk : k = idx
      · rw [hk, hself]
        rcases rest with _ | ⟨p', k'⟩
        · have := hr.2; omega
        · have := hr.2.1; omega
      · rw [hext.others k hk]
    have hstep := hst.quiet h hle hst₂ hcalls₂
    refine Act.wp_mono (secondSegment_spec os hsz hidx hm hI₂ hhi hext hr) ?_ fun _ hf => hf.elim
    intro mp t₃ ht
    obtain ⟨g₃, cut, hI₃, hst₃, hcalls₃, hn₃, hother₃, hseg⟩ := ht
    exact ⟨g₃, cut, hI₃, hstep.quiet h (fun k => (hle k).trans (hle₂ k)) hst₃ hcalls₃,
      hput g₃ hn₃ fun k hk => (hother₃ k hk).trans (hext.others k hk), hseg,
      hnext g₃ (hst₂.blocks.trans hst₃.blocks)⟩

end SoundingAddressPageAllocator

end IibMalloc
