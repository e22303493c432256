/-
# SoundingAddressPageAllocator: what the two segments hold

`getMultipage` scans its pages twice: a loop extends the first segment until a
page is not adjacent, and a second loop extends the segment that begins there.
`extend_pages` says that a loop loses no page, and `segments_run` that, where
descriptors fit in a page, every call of every run returns the pages that as many
calls of `getPage` in a row deliver, in order, and leaves the allocator in the same
state, unless the operating system refuses it a request. Where a descriptor does
not fit in a page no call ever returns.
-/
import IibMalloc.SoundingRuns

namespace IibMalloc

open Lib

namespace SoundingAddressPageAllocator

variable (cfg : SoundingCfg) (os : Os)

/-- `n` calls for a page of bucket `idx` in a row. -/
def getPages (idx : ℕ) : ℕ → Act (St SoundingAddressPageAllocator) (List ℕ)
  | 0 => return []
  | n + 1 => do
    let p ← getPage cfg os idx
    let ps ← getPages idx n
    return p :: ps

variable {cfg os} {w₀ : World} {r₀ r : PageRun} {idx i k n ptr sz : ℕ} {g : Ghost} {ps qs : List ℕ}
  {s t u : St SoundingAddressPageAllocator}

theorem getPages_cons {p : ℕ} (h : Act.exec (getPage cfg os idx) s = .ret p t)
    (h' : Act.exec (getPages cfg os idx n) t = .ret ps u) :
    Act.exec (getPages cfg os idx (n + 1)) s = .ret (p :: ps) u := by
  rw [getPages, Act.exec_bind h, Act.exec_bind h']
  rfl

theorem getPages_append : ∀ (m : ℕ) (s t : St SoundingAddressPageAllocator) (ps : List ℕ),
    Act.exec (getPages cfg os idx m) s = .ret ps t → Act.exec (getPages cfg os idx n) t = .ret qs u →
    Act.exec (getPages cfg os idx (m + n)) s = .ret (ps ++ qs) u
  | 0, s, t, ps, h, h' => by
    obtain ⟨rfl, rfl⟩ : [] = ps ∧ s = t := by
      rw [getPages] at h
      exact (Outcome.ret.inj h)
    rwa [Nat.zero_add]
  | m + 1, s, t, ps, h, h' => by
    rw [getPages] at h
    obtain ⟨p, s₁, hp, h⟩ := Act.exec_bind_ret h
    obtain ⟨ps', s₂, hps, h⟩ := Act.exec_bind_ret h
    obtain ⟨rfl, rfl⟩ : p :: ps' = ps ∧ s₂ = t := Outcome.ret.inj h
    rw [Nat.add_right_comm]
    exact getPages_cons hp (getPages_append m s₁ s₂ ps' hps h')

theorem segmentPages_succ (h : 4096 ∣ sz) : segmentPages ptr (sz + 4096) = segmentPages ptr sz ++ [ptr + sz] := by
  obtain ⟨q, rfl⟩ := h
  unfold segmentPages
  rw [PAGE_SIZE_eq, show (4096 * q + 4096) / 4096 = q + 1 by omega, show 4096 * q / 4096 = q by omega,
    List.range_succ, List.map_append, Nat.mul_comm 4096 q]
  rfl

theorem segmentPages_one : segmentPages ptr PAGE_SIZE = [ptr] := rfl

theorem segmentPages_null : segmentPages ptr 0 = [] := rfl

/-- A loop of `getMultipage` puts each page it gets in the segment, but for the
one it stops at. -/
theorem extend_pages (os : Os) (hsz : cfg.descriptorSize ≤ 4096) (hidx : idx < cfg.bucket_cnt) {m : ℕ}
    (hm : cfg.multipage_page_cnt ∣ m) : ∀ (n i ptr sz : ℕ) (s t : St SoundingAddressPageAllocator)
    (g : Ghost) (res : ℕ × Option (ℕ × ℕ)), SoundInv cfg s.w.calls s.c g → g.n idx = m + i → 0 < i →
    i + n ≤ cfg.multipage_page_cnt → 4096 ∣ sz → Act.exec (extend cfg os idx ptr n sz) s = .ret res t →
    ∃ ps j g', Act.exec (getPages cfg os idx ps.length) s = .ret ps t ∧
      res.1 = sz + j * 4096 ∧ SoundInv cfg t.w.calls t.c g' ∧ g'.n idx = m + i + ps.length ∧
      match res.2 with
      | none => ps.length = n ∧ j = n ∧ segmentPages ptr res.1 = segmentPages ptr sz ++ ps
      | some (p, k) => ps.length = j + 1 ∧ j + 1 + k = n ∧
        segmentPages ptr res.1 ++ [p] = segmentPages ptr sz ++ ps
  | 0, i, ptr, sz, s, t, g, res, h, hn, _, _, _, hx => by
    obtain ⟨rfl, rfl⟩ : (sz, none) = res ∧ s = t := Outcome.ret.inj hx
    exact ⟨[], 0, g, rfl, by simp, h, hn, rfl, rfl, by simp⟩
  | n + 1, i, ptr, sz, s, t, g, res, h, hn, hi, hin, hdvd, hx => by
    rw [extend] at hx
    obtain ⟨p, s₁, hp, hx⟩ := Act.exec_bind_ret hx
    obtain ⟨g₁, hI, hst, hn₁, hret, hcalls, -⟩ := Act.exec_ret (getPage_spec os h hsz hidx) hp
    have hself : g₁.n idx = m + (i + 1) := by rw [hn₁, put, if_pos rfl, hn]; omega
    have hpos : p ≠ 0 := by
      rw [hret]
      exact (hI.pageOf_at hidx (by omega)).2
    rw [Act.exec_bind (Act.exec_assert (decide_eq_true hpos))] at hx
    by_cases hadj : ptr + sz = p
    · rw [if_pos hadj, PAGE_SIZE_eq] at hx
      obtain ⟨ps, j, g', hps, hsize, hI', hn', hres⟩ := extend_pages os hsz hidx hm n (i + 1) ptr (sz + 4096) s₁ t g₁
        res hI hself (by omega) (by omega) ((Nat.dvd_add_right hdvd).mpr dvd_rfl) hx
      rw [segmentPages_succ hdvd, hadj, List.append_assoc] at hres
      refine ⟨p :: ps, j + 1, g', getPages_cons hp hps, by omega, hI', by rw [List.length_cons]; omega, ?_⟩
      rcases res with ⟨sz', _ | ⟨q, k⟩⟩
      · obtain ⟨h1, h2, h3⟩ := hres
        exact ⟨by rw [List.length_cons, h1], by omega, h3⟩
      · obtain ⟨h1, h2, h3⟩ := hres
        exact ⟨by rw [List.length_cons, h1], by omega, h3⟩
    · rw [if_neg hadj] at hx
      obtain ⟨rfl, rfl⟩ : (sz, some (p, n)) = res ∧ s₁ = t := Outcome.ret.inj hx
      exact ⟨[p], 0, g₁, getPages_cons hp rfl, by simp, hI, by rw [hself]; rfl, rfl, by omega, rfl⟩

/-- The pages of a multipage, in order, are those that as many calls for a page
deliver. -/
theorem getMultipage_pages (os : Os) (h : SoundInv cfg s.w.calls s.c g) (hsz : cfg.descriptorSize ≤ 4096)
    (hidx : idx < cfg.bucket_cnt) (hm : cfg.multipage_page_cnt ∣ g.n idx) {mp : MultipageData}
    (hx : Act.exec (getMultipage cfg os idx) s = .ret mp t) :
    Act.exec (getPages cfg os idx cfg.multipage_page_cnt) s =
      .ret (segmentPages mp.ptr1 mp.sz1 ++ segmentPages mp.ptr2 mp.sz2) t := by
  have hM := cfg.multipage_page_cnt_pos
  have hshift : cfg.multipage_page_cnt <<< PAGE_SIZE_EXP = cfg.multipage_page_cnt * 4096 := by
    rw [PAGE_SIZE_EXP_eq, Nat.shiftLeft_eq]
  obtain ⟨g', cut, -, -, -, hseg, -⟩ := Act.exec_ret (getMultipage_spec os h hsz hidx hm) hx
  have hsum : mp.sz1 + mp.sz2 = cfg.multipage_page_cnt * 4096 := by
    rw [hseg.sz1, hseg.sz2, ← Nat.add_mul, Nat.add_sub_cancel' hseg.le]
  rw [getMultipage] at hx
  obtain ⟨p, s₁, hp, hx⟩ := Act.exec_bind_ret hx
  obtain ⟨g₁, hI, -, hn₁, hret, -⟩ := Act.exec_ret (getPage_spec os h hsz hidx) hp
  have hself : g₁.n idx = g.n idx + 1 := by rw [hn₁, put, if_pos rfl]
  have hpos : p ≠ 0 := by
    rw [hret]
    exact (hI.pageOf_at hidx (by omega)).2
  by_cases h1 : cfg.multipage_page_cnt = 1
  · rw [if_pos h1, Act.exec_bind (Act.exec_assert (decide_eq_true hpos)),
      Act.exec_bind (Act.exec_assert (decide_eq_true (by rw [hshift, h1]; rfl)))] at hx
    obtain ⟨rfl, rfl⟩ : MultipageData.mk p PAGE_SIZE 0 0 = mp ∧ s₁ = t := Outcome.ret.inj hx
    rw [h1, segmentPages_one, segmentPages_null]
    exact getPages_cons (n := 0) hp rfl
  rw [if_neg h1] at hx
  obtain ⟨⟨sz1, rest⟩, s₂, hext, hx⟩ := Act.exec_bind_ret hx
  obtain ⟨ps, j, g₂, hps, hsz1, hI₂, hn₂, hres⟩ := extend_pages os hsz hidx hm _ 1 p PAGE_SIZE s₁ s₂ g₁ (sz1, rest)
    hI hself (by omega) (by omega) dvd_rfl hext
  have hcalls := getPages_cons hp hps
  simp only [PAGE_SIZE_eq] at hsz1
  rcases rest with _ | ⟨q, k⟩
  · -- the pages are adjacent
    obtain ⟨hlen, hj, hpages⟩ := hres
    have hassert : sz1 + 0 = cfg.multipage_page_cnt <<< PAGE_SIZE_EXP := by rw [hshift]; omega
    change Act.exec (secondSegment cfg os idx p sz1 none) s₂ = _ at hx
    rw [secondSegment, Act.exec_bind (Act.exec_assert (decide_eq_true hassert))] at hx
    obtain ⟨rfl, rfl⟩ : MultipageData.mk p sz1 0 0 = mp ∧ s₂ = t := Outcome.ret.inj hx
    rw [hlen, Nat.sub_add_cancel hM] at hcalls
    rw [hcalls, segmentPages_null, List.append_nil, hpages]
    rfl
  · obtain ⟨hlen, hjk, hpages⟩ := hres
    change Act.exec (secondSegment cfg os idx p sz1 (some (q, k))) s₂ = _ at hx
    rw [secondSegment] at hx
    obtain ⟨⟨sz2, rest⟩, s₃, hext', hx⟩ := Act.exec_bind_ret hx
    obtain ⟨qs, j', g₃, hqs, hsz2, -, -, hres'⟩ := extend_pages os hsz hidx hm k (1 + ps.length) q PAGE_SIZE s₂ s₃ g₂
      (sz2, rest) hI₂ (by omega) (by omega) (by omega) dvd_rfl hext'
    have happ := getPages_append _ _ _ _ hcalls hqs
    simp only [PAGE_SIZE_eq] at hsz2
    obtain ⟨⟨⟩, s₄, ha, hx⟩ := Act.exec_bind_ret hx
    obtain ⟨⟨⟩, s₅, ha', hx⟩ := Act.exec_bind_ret hx
    obtain ⟨rfl, rfl⟩ : MultipageData.mk p sz1 q sz2 = mp ∧ s₅ = t := Outcome.ret.inj hx
    simp only at hsum
    rcases rest with _ | ⟨q', k'⟩
    · obtain ⟨hlen', -, hpages'⟩ := hres'
      rw [Act.exec_assert (by rfl)] at ha
      obtain ⟨-, rfl⟩ := Outcome.ret.inj ha
      rw [Act.exec_assert (decide_eq_true (by rw [hshift]; exact hsum))] at ha'
      obtain ⟨-, rfl⟩ := Outcome.ret.inj ha'
      rw [show ps.length + 1 + qs.length = cfg.multipage_page_cnt by omega] at happ
      rw [happ]
      rw [segmentPages_one] at hpages hpages'
      simp only at hpages hpages'
      rw [hpages', ← List.append_assoc, hpages]
      rfl
    · -- the loop does not stop twice
      obtain ⟨-, hjk', -⟩ := hres'
      omega

/-- What a multipage is to its caller: whole pages, in one segment or in two. -/
structure Delivered (cfg : SoundingCfg) (mp : MultipageData) : Prop where
  aligned : PAGE_SIZE ∣ mp.ptr1 ∧ PAGE_SIZE ∣ mp.sz1 ∧ PAGE_SIZE ∣ mp.ptr2 ∧ PAGE_SIZE ∣ mp.sz2
  first : mp.ptr1 ≠ 0 ∧ mp.sz1 ≠ 0
  null : mp.ptr2 = 0 ↔ mp.sz2 = 0
  sum : mp.sz1 + mp.sz2 = cfg.multipage_page_cnt * PAGE_SIZE

theorem Segments.delivered {calls : List OsCall} {c : SoundingAddressPageAllocator} (h : SoundInv cfg calls c g)
    (hidx : idx < cfg.bucket_cnt) {m cut : ℕ} {mp : MultipageData} (hs : Segments cfg g idx m mp cut)
    (hn : m + cfg.multipage_page_cnt ≤ g.n idx) : Delivered cfg mp := by
  have hpos := hs.pos
  have hle := hs.le
  have hsz1 := hs.sz1
  have hsz2 := hs.sz2
  have hfirst := h.pageOf_at hidx (m := m + 0) (by omega)
  rw [hs.first 0 hpos, Nat.zero_mul, Nat.add_zero] at hfirst
  have hsecond : 4096 ∣ mp.ptr2 := by
    rcases Nat.lt_or_ge cut cfg.multipage_page_cnt with hlt | hge
    · have := h.pageOf_at hidx (m := m + cut) (by omega)
      rw [hs.second cut le_rfl hlt, Nat.sub_self, Nat.zero_mul, Nat.add_zero] at this
      exact this.1
    · rw [hs.null.mpr (by omega)]
      exact dvd_zero _
  refine ⟨⟨hfirst.1, hsz1 ▸ Nat.dvd_mul_left _ _, hsecond, hsz2 ▸ Nat.dvd_mul_left _ _⟩, ⟨hfirst.2, by omega⟩, ?_, ?_⟩
  · rw [hs.null]
    omega
  · rw [PAGE_SIZE_eq, hsz1, hsz2, ← Nat.add_mul, Nat.add_sub_cancel' hle]

/-- In every run of calls `getMultipage` no assertion fails, and the next call
returns whole pages in one segment or two, which are, in order, the pages of its
calls of `getPage`, or it throws as it is refused a request; its own assertions
hold. -/
def DeliversSegments (cfg : SoundingCfg) : Prop :=
  ∀ (os : Os) (w₀ : World) (r₀ r : PageRun), r₀.Starts cfg w₀ →
    Reach (PageRun.step cfg os) (fun _ op => ∃ idx, op = .multipage idx) r₀ r →
    r.s.w.assertsHold = w₀.assertsHold ∧
    ∀ idx < cfg.bucket_cnt, Act.wp (getMultipage cfg os idx)
      (fun mp t => Delivered cfg mp ∧ t.w.assertsHold = r.s.w.assertsHold ∧
        Act.exec (getPages cfg os idx cfg.multipage_page_cnt) r.s =
          .ret (segmentPages mp.ptr1 mp.sz1 ++ segmentPages mp.ptr2 mp.sz2) t)
      (fun t => Refused r.s.w t.w ∧ t.w.assertsHold = r.s.w.assertsHold) r.s

theorem delivers (hsz : cfg.descriptorSize ≤ 4096) : DeliversSegments cfg := by
  intro os w₀ r₀ r h₀ hr
  obtain ⟨g, h⟩ : ∃ g, MultipageRunInv cfg w₀ r g := by
    refine hr.invariant (P := fun r => ∃ g, MultipageRunInv cfg w₀ r g) ⟨.empty, .start h₀⟩ ?_
    intro s t op hs hop ht
    obtain ⟨g, hg⟩ := hs
    obtain ⟨idx, rfl⟩ := hop
    exact hg.step ht
  refine ⟨h.asserts, fun idx hidx => ?_⟩
  have hm := h.batches idx hidx
  apply Act.wp_mono (Act.wp_exec (getMultipage_spec os h.inv hsz hidx hm))
  · intro mp t ht
    obtain ⟨⟨g', cut, hI, hst, hn, hseg, -⟩, hx⟩ := ht
    have hpages := getMultipage_pages os h.inv hsz hidx hm hx
    exact ⟨hseg.delivered hI hidx (by rw [hn, put, if_pos rfl]), hst.asserts, hpages⟩
  · intro t ht
    obtain ⟨⟨g', -, hst, -, hrefused, -⟩, -⟩ := ht
    exact ⟨hrefused, hst.asserts⟩

/-- Without room for a descriptor the first call gets its page, and does not
return. -/
theorem getMultipage_stuck {w : World} (h₀ : r₀.Starts cfg w) (hsz : 4096 < cfg.descriptorSize)
    (hidx : idx < cfg.bucket_cnt) (hm : (os.mmap w.calls PAGE_SIZE).isSome) :
    Act.exec (getMultipage cfg os idx) r₀.s = .stuck := by
  obtain ⟨hw, hI, -⟩ := starts_inv h₀
  have hspec : Act.wlp (getMultipage cfg os idx) (fun _ _ => False) (fun _ => os.mmap w.calls PAGE_SIZE = none) r₀.s :=
    Act.wlp_bind (Act.wlp_mono (getPage_large os hI hsz rfl hidx) (fun _ _ hf => hf.elim) fun t ht => hw ▸ ht.2)
  cases hx : Act.exec (getMultipage cfg os idx) r₀.s with
  | ret mp t => exact (Act.wlp_ret hspec hx).elim
  | throw t =>
    rw [Act.wlp_throw hspec hx] at hm
    cases hm
  | stuck => rfl

theorem not_delivers (hsz : 4096 < cfg.descriptorSize) : ¬ DeliversSegments cfg := by
  intro h
  have hidx : 0 < cfg.bucket_cnt := by
    unfold SoundingCfg.bucket_cnt
    rw [Nat.one_shiftLeft]
    positivity
  have hstart := PageRun.init_starts cfg ⟨[], fun _ => 7, true⟩ raw
  exact Act.not_stuck ((h (Os.linear 0) _ _ _ hstart .start).2 0 hidx)
    (getMultipage_stuck hstart hsz hidx (by decide))

/-- **A multipage has at most two segments**, in every call of every run, if and
only if a descriptor fits in a page. -/
theorem segments_run (cfg : SoundingCfg) : DeliversSegments cfg ↔ cfg.descriptorSize ≤ PAGE_SIZE := by
  constructor
  · intro h
    by_contra hlarge
    exact not_delivers (Nat.lt_of_not_le hlarge) h
  · exact delivers

/-- Template arguments of 1024 buckets, which the `static_assert`s let pass. -/
def wideCfg : SoundingCfg where
  bucket_cnt_exp := 10
  reservation_size_exp := 24
  commit_page_cnt_exp := 1
  multipage_page_cnt_exp := 1
  reservation_ge := by decide
  commit_ge := by decide
  commit_le := by decide
  pages_lt := by decide
  reservation_le := by decide

/-- A descriptor has 4120 bytes, and the first call does not return. -/
theorem not_segments_run : wideCfg.descriptorSize = 4120 ∧
    Act.exec (getMultipage wideCfg (Os.linear 0) 3) (PageRun.init wideCfg ⟨[], fun _ => 7, true⟩ raw).s = .stuck ∧
    ¬ DeliversSegments wideCfg :=
  ⟨by decide, getMultipage_stuck (PageRun.init_starts _ _ _) (by decide) (by decide) (by decide),
    not_delivers (by decide)⟩

/-- The second call, where the block wraps around inside its pages. -/
theorem segments_run_cut : ∃ r, run (PageRun.step pageAllocatorT (Os.linear (105 * 4096)))
      (fun _ op => op matches .multipage _) (PageRun.init pageAllocatorT ⟨[], fun _ => 7, true⟩ raw)
      [.multipage 3] = some r ∧ r.s.w.assertsHold = true ∧
    ∃ mp t, Act.exec (getMultipage pageAllocatorT (Os.linear (105 * 4096)) 3) r.s = .ret mp t ∧
      mp.ptr2 ≠ 0 ∧ Delivered pageAllocatorT mp := by
  obtain ⟨r, hr, hv⟩ := Option.map_eq_some_iff.mp (show (run (PageRun.step pageAllocatorT (Os.linear (105 * 4096)))
      (fun _ op => op matches .multipage _) (PageRun.init pageAllocatorT ⟨[], fun _ => 7, true⟩ raw)
      [.multipage 3]).map (fun r => (Act.exec (getMultipage pageAllocatorT (Os.linear (105 * 4096)) 3) r.s).returned.map
        fun q => decide (q.1.ptr2 ≠ 0)) = some (some true) by decide +kernel)
  obtain ⟨hasserts, hcalls⟩ := (segments_run pageAllocatorT).mpr (by decide) (Os.linear (105 * 4096)) _ _ r
    (PageRun.init_starts pageAllocatorT ⟨[], fun _ => 7, true⟩ raw) ((Reach.of_run hr).mono fun _ op hop => by
      cases op with
      | page idx => cases hop
      | multipage idx => exact ⟨idx, rfl⟩)
  obtain ⟨⟨mp, t⟩, hret, hcut⟩ := Option.map_eq_some_iff.mp hv
  have hx := Act.exec_of_returned hret
  exact ⟨r, hr, hasserts, mp, t, hx, of_decide_eq_true hcut, (Act.exec_ret (hcalls 3 (by decide)) hx).1⟩

end SoundingAddressPageAllocator

end IibMalloc
