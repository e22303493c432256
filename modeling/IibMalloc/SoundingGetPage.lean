/-
# SoundingAddressPageAllocator: getPage

`getPage_spec`: a call for a page of a bucket hands out its next page (`Gave`)
or throws (`Threw`). Whatever it throws at, the state left is one the next
call for the bucket starts from, and the number of pages handed out is
unchanged. The three branches end in the same way, `take_spec`, once the
cursors are `Ready`.
-/
import IibMalloc.SoundingInv

namespace IibMalloc

open Lib

namespace SoundingAddressPageAllocator

variable {cfg : SoundingCfg} {os : Os} {idx j : ℕ} {w₀ : World} {g₀ g : Ghost}
  {s : St SoundingAddressPageAllocator}

/-- The operating system refused a request made after `w`, and nothing came
after that. -/
def Refused (w w' : World) : Prop := ∃ m cs, w'.calls = .refused m :: cs ∧ w.calls <:+ cs

theorem div_mod_of_mem {n p : ℕ} (h1 : j * p ≤ n) (h2 : n < (j + 1) * p) :
    n / p = j ∧ n % p = n - j * p := by
  have hd := Nat.div_eq_of_lt_le h1 h2
  have := Nat.div_add_mod' n p
  rw [hd] at this
  exact ⟨hd, by omega⟩

/-- A batch of commits of the block that the next page comes from. -/
theorem commit_spec (os : Os) (h : SoundInv cfg s.w.calls s.c g) (hst : PageStep cfg idx w₀ s.w g₀ g)
    (hn : g₀.n = g.n) (hcr : commitRanges s.w.calls = commitRanges w₀.calls)
    (hidx : idx < cfg.bucket_cnt) (hj : j < g.blocks.length)
    (h1 : j * cfg.pages_per_bucket ≤ g.n idx) (h2 : g.n idx < (j + 1) * cfg.pages_per_bucket)
    (hd : cfg.commit_page_cnt ∣ g.n idx - j * cfg.pages_per_bucket)
    (hkeep : ∀ x, InPages cfg (g.block j) idx (g.n idx - j * cfg.pages_per_bucket)
      cfg.pages_per_bucket x → ¬ g₀.Keep cfg w₀.calls x) :
    Act.wp (commitRangeOfPageIndexes cfg os (g.block j) idx (g.n idx - j * cfg.pages_per_bucket)
        cfg.commit_page_cnt)
      (fun _ t => SameButBase s.c t.c ∧ SoundInv cfg t.w.calls t.c g ∧ PageStep cfg idx w₀ t.w g₀ g ∧
        ∀ x, InPages cfg (g.block j) idx 0
          (committedAt cfg.commit_page_cnt (g.n idx - j * cfg.pages_per_bucket + 1)) x →
          pageState t.w.calls x = .committed)
      (fun t => SoundInv cfg t.w.calls t.c g ∧ PageStep cfg idx w₀ t.w g₀ g ∧ Refused s.w t.w ∧
        ∃ cs a n, os.commits cs a n = false) s := by
  obtain ⟨hdiv, hmod⟩ := div_mod_of_mem h1 h2
  have hC := cfg.commit_page_cnt_pos
  have hb := h.block_at hj
  have huse := usedAt_of_mem h1 h2.le
  have hend := committedAt_succ_of_dvd hC hd
  generalize hu : g.n idx - j * cfg.pages_per_bucket = u at *
  have huP : u + cfg.commit_page_cnt ≤ cfg.pages_per_bucket := by
    rw [← hend]
    exact committedAt_le hC cfg.commit_dvd (by rw [Nat.add_mul] at h2; omega)
  have hout : ∀ rs, Commits cfg (g.block j) idx u (u + cfg.commit_page_cnt) rs →
      PageStep cfg idx w₀ (s.w.committedAll rs) g₀ g := fun rs hrs => by
    refine hst.committedAll hcr hrs.apart (by rw [hn, hdiv]; exact hj) (fun r hr x hx => ?_)
      (fun r hr x hx => ?_) fun r hr x hx => ?_
    · rw [hn, hdiv, hmod, committedAt_of_dvd hC hd, hend]
      exact hrs.inPages r hr x hx
    · obtain ⟨t, h1, h2, h3⟩ := hrs.inPages r hr x hx
      exact hkeep x ⟨t, h1, by omega, h3⟩
    · obtain ⟨t, -, h2, h3⟩ := hrs.inPages r hr x hx
      exact SoundInv.inBlock hj (SoundingCfg.within_block hb hidx (by omega) h3)
  refine Act.wp_mono (commitRange_spec hb hidx hC huP h.idle) ?_ ?_
  · rintro _ ⟨w, c⟩ ⟨hc, rs, hw, hrs, hcov⟩
    simp only at hc hw
    subst hw
    refine ⟨hc, (h.base hc).grow .committedAll, hout rs hrs, fun x hx => ?_⟩
    rw [hend] at hx
    obtain ⟨t, -, ht, hx⟩ := hx
    rcases Nat.lt_or_ge t u with htu | htu
    · have hcom := h.committed idx hidx j hj x
      rw [huse, committedAt_of_dvd hC hd] at hcom
      exact (Grows.committedAll x).1 (hcom ⟨t, Nat.zero_le t, htu, hx⟩)
    · exact World.committedAll_committed (Or.inr (hcov x ⟨t, htu, ht, hx⟩))
  · rintro ⟨w, c⟩ ⟨hc, rs, m, hw, hrs, hos⟩
    simp only at hc hw
    subst hw
    have hg : Grows s.w ((s.w.committedAll rs).refused m) := .trans .committedAll .refused
    exact ⟨(h.base hc).grow hg, (hout rs hrs).refused,
      ⟨m, _, rfl, (World.committedAll_other rs s.w).2.2.2⟩, hos⟩

/-- The cursors of the block that the next page comes from are ready for it:
the page is committed, and `nextToCommit` says so. -/
structure Ready (cfg : SoundingCfg) (idx j : ℕ) (w₀ : World) (g₀ : Ghost)
    (c : SoundingAddressPageAllocator) (g : Ghost) (t : St SoundingAddressPageAllocator) : Prop where
  step : PageStep cfg idx w₀ t.w g₀ g
  inv : SoundInv cfg t.w.calls c g
  idle : t.c.base.Idle
  coll : CollectionInPages.CollInv cfg.descriptorSize t.w.calls t.c.pageBlockDescriptors
    g.pages g.used g.free
  current : t.c.pageBlockListCurrent = c.pageBlockListCurrent
  head : ∀ i, t.c.indexHead i = if i = idx then g.node (j + 1) else c.indexHead i
  desc : CursorsMove c t.c (g.node (j + 1)) idx (g.n idx - j * cfg.pages_per_bucket)
    (committedAt cfg.commit_page_cnt (g.n idx - j * cfg.pages_per_bucket + 1))
  committed : ∀ x, InPages cfg (g.block j) idx 0
    (committedAt cfg.commit_page_cnt (g.n idx - j * cfg.pages_per_bucket + 1)) x →
    pageState t.w.calls x = .committed

section Cursors

variable {c c' c₁ : SoundingAddressPageAllocator} {p : DescPtr} {u v : ℕ}

theorem CursorsMove.refl (hu : (c.desc p).nextToUse idx = u) (hv : (c.desc p).nextToCommit idx = v) :
    CursorsMove c c p idx u v := by
  refine ⟨fun _ _ => rfl, rfl, rfl, fun i => ?_, fun i => ?_⟩
  · split_ifs with h
    · rw [h, hu]
    · rfl
  · split_ifs with h
    · rw [h, hv]
    · rfl

theorem CursorsMove.base (h : CursorsMove c c' p idx u v) (hc : SameButBase c' c₁) :
    CursorsMove c c₁ p idx u v := by
  have hd : ∀ q, c₁.desc q = c'.desc q := fun q => by rw [hc.1]; cases q <;> rfl
  obtain ⟨h1, h2, h3, h4, h5⟩ := h
  constructor <;> simpa only [hd]

/-- The cursors are written. -/
theorem CursorsMove.change (h : CursorsMove c c' p idx u v) (hp : p ≠ .null) (u' v' : ℕ)
    {f : PageBlockDescriptor → PageBlockDescriptor}
    (hf : f (c'.desc p) = { c'.desc p with
      nextToUse := put (c'.desc p).nextToUse idx u'
      nextToCommit := put (c'.desc p).nextToCommit idx v' }) :
    CursorsMove c (c'.setDesc f p) p idx u' v' := by
  have hd : (c'.setDesc f p).desc p = _ := (desc_setDesc hp p).trans ((if_pos rfl).trans hf)
  refine ⟨fun q hq => ?_, ?_, ?_, fun i => ?_, fun i => ?_⟩
  · rw [desc_setDesc hp, if_neg hq]
    exact h.other q hq
  · rw [hd]; exact h.next
  · rw [hd]; exact h.block
  · rw [hd]
    by_cases hi : i = idx
    · simp [put, hi]
    · simpa [put, hi] using h.use i
  · rw [hd]
    by_cases hi : i = idx
    · simp [put, hi]
    · simpa [put, hi] using h.commit i

theorem put_self (a : ℕ → ℕ) (i : ℕ) : put a i (a i) = a := by
  funext x
  unfold put
  split_ifs with h
  · rw [h]
  · rfl

end Cursors

/-- The end of each branch of `getPage`: the page is handed out. -/
theorem take_spec {c : SoundingAddressPageAllocator} (h : Ready cfg idx j w₀ g₀ c g s)
    (hidx : idx < cfg.bucket_cnt) (hj : j < g.blocks.length)
    (h1 : j * cfg.pages_per_bucket ≤ g.n idx) (h2 : g.n idx < (j + 1) * cfg.pages_per_bucket)
    (hkeep : ∀ x, InPages cfg (g.block j) idx (g.n idx - j * cfg.pages_per_bucket)
      cfg.pages_per_bucket x → ¬ g₀.Keep cfg w₀.calls x)
    {v : PageBlockDescriptor → ℕ}
    (hv : v (s.c.desc (g.node (j + 1))) = g.n idx - j * cfg.pages_per_bucket + 1) :
    Act.wp (do
        let d ← load cfg (g.node (j + 1))
        let ret ← idxToPageAddr cfg d.blockAddress idx (d.nextToUse idx)
        change cfg (g.node (j + 1)) fun d => { d with nextToUse := put d.nextToUse idx (v d) }
        let d ← load cfg (g.node (j + 1))
        Act.assert (decide (d.nextToUse idx ≤ d.nextToCommit idx))
        testWrite ret
        return ret)
      (fun ret t => SoundInv cfg t.w.calls t.c (g.give idx) ∧ PageStep cfg idx w₀ t.w g₀ (g.give idx) ∧
        ret = g.pageOf cfg idx (g.n idx) ∧ t.w.calls = s.w.calls)
      (fun _ => False) s := by
  have hC := cfg.commit_page_cnt_pos
  have hb := h.inv.block_at hj
  have hacc := h.inv.accessible (k := j + 1) hj
  have hne := hacc.ne_null
  obtain ⟨hdiv, hmod⟩ := div_mod_of_mem h1 h2
  have huP : g.n idx - j * cfg.pages_per_bucket < cfg.pages_per_bucket := by
    rw [Nat.add_mul] at h2; omega
  have hblock : (s.c.desc (g.node (j + 1))).blockAddress = g.block j :=
    h.desc.block.trans ((h.inv.node (j + 1) hj).block j rfl)
  have huse : (s.c.desc (g.node (j + 1))).nextToUse idx = g.n idx - j * cfg.pages_per_bucket :=
    (h.desc.use idx).trans (if_pos rfl)
  have hcommit : (s.c.desc (g.node (j + 1))).nextToCommit idx =
      committedAt cfg.commit_page_cnt (g.n idx - j * cfg.pages_per_bucket + 1) :=
    (h.desc.commit idx).trans (if_pos rfl)
  have hmove := h.desc.change hne (g.n idx - j * cfg.pages_per_bucket + 1)
    (committedAt cfg.commit_page_cnt (g.n idx - j * cfg.pages_per_bucket + 1))
    (f := fun d => { d with nextToUse := put d.nextToUse idx (v d) }) (by rw [hv, ← hcommit, put_self])
  have hle : g.n idx - j * cfg.pages_per_bucket + 1 ≤
      committedAt cfg.commit_page_cnt (g.n idx - j * cfg.pages_per_bucket + 1) := le_committedAt hC
  have hpage : Within (cfg.pageAddr (g.block j) idx (g.n idx - j * cfg.pages_per_bucket)) 4096
      (cfg.pageAddr (g.block j) idx (g.n idx - j * cfg.pages_per_bucket)) := ⟨le_rfl, by omega⟩
  have hderef := h.committed _ ⟨_, Nat.zero_le _, hle, hpage⟩
  have hnot := hkeep _ ⟨_, le_rfl, huP, hpage⟩
  rw [Act.wp_bind, wp_load]
  refine ⟨hacc, ?_⟩
  rw [hblock, huse, Act.wp_bind, wp_idxToPageAddr hb hidx huP]
  simp only [Act.wp_bind, wp_change, wp_load, Act.wp_assert, testWrite, Act.wp_deref,
    Act.wp_onWorld, Act.wp_update, Act.wp_pure]
  refine ⟨hacc, hacc, hderef, ?_, ?_, ?_, trivial⟩
  · refine h.inv.give hidx hj h1 h2 (by simpa using h.idle) (setDesc_coll _ _ h.coll)
      (by simpa using h.current) (fun i => by simpa using h.head i) hmove h.committed
  · have hassert : decide (((s.c.setDesc (fun d => { d with nextToUse := put d.nextToUse idx (v d) })
        (g.node (j + 1))).desc (g.node (j + 1))).nextToUse idx ≤
        ((s.c.setDesc (fun d => { d with nextToUse := put d.nextToUse idx (v d) })
        (g.node (j + 1))).desc (g.node (j + 1))).nextToCommit idx) = true := by
      rw [hmove.use idx, hmove.commit idx, if_pos rfl, if_pos rfl]
      exact decide_eq_true hle
    rw [hassert, Bool.and_true]
    exact (h.step.write hnot).ghost rfl rfl
  · rw [Ghost.pageOf, hdiv, hmod]

/-! ### The three branches -/

/-- Whether a batch starts is read off the pages given out. -/
theorem dvd_used_iff (h1 : j * cfg.pages_per_bucket ≤ g.n idx) :
    cfg.commit_page_cnt ∣ g.n idx - j * cfg.pages_per_bucket ↔ cfg.commit_page_cnt ∣ g.n idx := by
  have hd : cfg.commit_page_cnt ∣ j * cfg.pages_per_bucket := cfg.commit_dvd.mul_left j
  rw [Nat.dvd_add_iff_left hd, Nat.sub_add_cancel h1]

theorem commitBatch_spec (h : SoundInv cfg s.w.calls s.c g) (hidx : idx < cfg.bucket_cnt)
    (hj : j < g.blocks.length) (hhead : s.c.indexHead idx = g.node (j + 1))
    (h1 : j * cfg.pages_per_bucket ≤ g.n idx) (h2 : g.n idx < (j + 1) * cfg.pages_per_bucket) :
    Act.wp (commitBatch cfg os idx (g.node (j + 1)))
      (fun _ t => Ready cfg idx j s.w g s.c g t ∧
        (¬ cfg.commit_page_cnt ∣ g.n idx → t.w.calls = s.w.calls))
      (fun t => SoundInv cfg t.w.calls t.c g ∧ PageStep cfg idx s.w t.w g g ∧ Refused s.w t.w ∧
        (∃ cs a n, os.commits cs a n = false) ∧ cfg.commit_page_cnt ∣ g.n idx) s := by
  have hC := cfg.commit_page_cnt_pos
  have hacc := h.accessible (k := j + 1) hj
  have hnode := h.node (j + 1) hj
  have huse := usedAt_of_mem h1 h2.le
  have hd1 := (hnode.use idx hidx).trans huse
  have hd2 := hnode.commit idx hidx
  rw [huse] at hd2
  have hhead' : ∀ i, s.c.indexHead i = if i = idx then g.node (j + 1) else s.c.indexHead i := fun i => by
    split_ifs with hi
    · rw [hi, hhead]
    · rfl
  rw [commitBatch, Act.wp_bind, wp_load]
  refine ⟨hacc, ?_⟩
  rw [hnode.block j rfl, hd1, hd2]
  by_cases hdvd : cfg.commit_page_cnt ∣ g.n idx - j * cfg.pages_per_bucket
  · rw [if_pos ((eq_committedAt hC).mpr hdvd), committedAt_of_dvd hC hdvd, Act.wp_bind]
    refine Act.wp_mono (commit_spec os h .refl rfl rfl hidx hj h1 h2 hdvd fun x hx =>
      h.not_keep hidx hj hx _) ?_ fun t ht =>
        ⟨ht.1, ht.2.1, ht.2.2.1, ht.2.2.2, (dvd_used_iff h1).mp hdvd⟩
    intro _ t ht
    obtain ⟨hc, hI, hst, hcom⟩ := ht
    rw [wp_change]
    have hend := committedAt_succ_of_dvd hC hdvd
    have hmove := ((CursorsMove.refl hd1 hd2).base hc).change hacc.ne_null
      (g.n idx - j * cfg.pages_per_bucket)
      (committedAt cfg.commit_page_cnt (g.n idx - j * cfg.pages_per_bucket + 1))
      (f := fun d => { d with
        nextToCommit := put d.nextToCommit idx (u16 (d.nextToCommit idx + cfg.commit_page_cnt)) }) (by
        have hd1' : (t.c.desc (g.node (j + 1))).nextToUse idx =
            g.n idx - j * cfg.pages_per_bucket := by
          rw [hc.1]; exact hd1
        have hd2' : (t.c.desc (g.node (j + 1))).nextToCommit idx =
            g.n idx - j * cfg.pages_per_bucket := by
          rw [hc.1]; exact hd2.trans (committedAt_of_dvd hC hdvd)
        have hlt : g.n idx - j * cfg.pages_per_bucket + cfg.commit_page_cnt < 2 ^ 16 := by
          have := committedAt_le hC cfg.commit_dvd
            (show g.n idx - j * cfg.pages_per_bucket + 1 ≤ _ by rw [Nat.add_mul] at h2; omega)
          have := cfg.pages_per_bucket_lt
          omega
        rw [hd2', u16_of_lt hlt, hend, ← hd1', put_self])
    refine ⟨hI.accessible hj, ⟨hst, h.grow hst.grows, by simpa using hc.2, setDesc_coll _ _ hI.coll,
      ?_, fun i => ?_, hmove, hcom⟩, fun hnd => absurd ((dvd_used_iff h1).mp hdvd) hnd⟩
    · rw [setDesc_current, hc.1]
    · rw [setDesc_indexHead, hc.1]
      exact hhead' i
  · obtain ⟨hend, hlt⟩ := committedAt_succ hC hdvd
    rw [if_neg (by omega), Act.wp_pure]
    refine ⟨⟨.refl, h, h.idle, h.coll, rfl, hhead', .refl hd1 (hd2.trans hend.symm), fun x hx => ?_⟩,
      fun _ => rfl⟩
    rw [hend, ← huse] at hx
    exact h.committed idx hidx j hj x hx

/-- A call handed out the next page of bucket `idx`, of a new block where there
was no other. -/
def Gave (cfg : SoundingCfg) (os : Os) (idx : ℕ) (s : St SoundingAddressPageAllocator) (g g' : Ghost)
    (ret : ℕ) (t : St SoundingAddressPageAllocator) : Prop :=
  SoundInv cfg t.w.calls t.c g' ∧ PageStep cfg idx s.w t.w g g' ∧
    g'.n = put g.n idx (g.n idx + 1) ∧ ret = g'.pageOf cfg idx (g.n idx) ∧
    (¬ cfg.commit_page_cnt ∣ g.n idx → t.w.calls = s.w.calls) ∧
    (g.blocks.length ≤ g.n idx / cfg.pages_per_bucket →
      nextBlock cfg os s = some (g'.block (g.n idx / cfg.pages_per_bucket)))

/-- A call threw, before a batch of commits or at a commit. -/
def Threw (cfg : SoundingCfg) (os : Os) (idx : ℕ) (s : St SoundingAddressPageAllocator) (g g' : Ghost)
    (t : St SoundingAddressPageAllocator) : Prop :=
  SoundInv cfg t.w.calls t.c g' ∧ PageStep cfg idx s.w t.w g g' ∧ g'.n = g.n ∧
    Refused s.w t.w ∧ cfg.commit_page_cnt ∣ g.n idx ∧
    (commitRanges t.w.calls = commitRanges s.w.calls ∨ ∃ cs a n, os.commits cs a n = false)

theorem pageOfBlock_spec (h : SoundInv cfg s.w.calls s.c g) (hidx : idx < cfg.bucket_cnt)
    (hj : j < g.blocks.length) (hhead : s.c.indexHead idx = g.node (j + 1))
    (h1 : j * cfg.pages_per_bucket ≤ g.n idx) (h2 : g.n idx < (j + 1) * cfg.pages_per_bucket) :
    Act.wp (pageOfBlock cfg os idx (g.node (j + 1)))
      (fun ret t => ∃ g', Gave cfg os idx s g g' ret t) (fun t => ∃ g', Threw cfg os idx s g g' t) s := by
  have hnode := h.node (j + 1) hj
  have hle : decide ((s.c.desc (g.node (j + 1))).nextToUse idx ≤
      (s.c.desc (g.node (j + 1))).nextToCommit idx) = true := by
    rw [hnode.use idx hidx, hnode.commit idx hidx]
    exact decide_eq_true (le_committedAt cfg.commit_page_cnt_pos)
  have hlt : g.n idx - j * cfg.pages_per_bucket + 1 < 2 ^ 16 := by
    have := cfg.pages_per_bucket_lt
    rw [Nat.add_mul] at h2
    omega
  rw [pageOfBlock, Act.wp_bind, wp_load, Act.wp_bind, Act.wp_assert, hle, Bool.and_true, Act.wp_bind]
  refine ⟨h.accessible hj, Act.wp_mono (commitBatch_spec h hidx hj hhead h1 h2) ?_ ?_⟩
  · intro _ t ht
    obtain ⟨hr, hcalls⟩ := ht
    have huse' : u16 ((t.c.desc (g.node (j + 1))).nextToUse idx + 1) =
        g.n idx - j * cfg.pages_per_bucket + 1 := by
      rw [hr.desc.use idx, if_pos rfl, u16_of_lt hlt]
    refine Act.wp_mono (take_spec hr hidx hj h1 h2 (fun x hx => h.not_keep hidx hj hx _)
      (v := fun d => u16 (d.nextToUse idx + 1)) huse') ?_ fun _ hf => hf.elim
    intro ret t' ht'
    obtain ⟨hI, hst, hret, hc⟩ := ht'
    refine ⟨g.give idx, hI, hst, rfl, hret, fun hnd => hc.trans (hcalls hnd), fun hle => ?_⟩
    rw [(div_mod_of_mem h1 h2).1] at hle
    exact absurd hj (by omega)
  · intro t ht
    obtain ⟨hI, hst, hrf, hos, hd⟩ := ht
    exact ⟨g, hI, hst, rfl, hrf, hd, Or.inr hos⟩

theorem pageOfNextBlock_spec (h : SoundInv cfg s.w.calls s.c g) (hidx : idx < cfg.bucket_cnt)
    (hj : j < g.blocks.length) (hn : g.n idx = j * cfg.pages_per_bucket) :
    Act.wp (pageOfNextBlock cfg os idx (g.node (j + 1)))
      (fun ret t => ∃ g', Gave cfg os idx s g g' ret t) (fun t => ∃ g', Threw cfg os idx s g g' t) s := by
  have hC := cfg.commit_page_cnt_pos
  have hP := cfg.pages_per_bucket_pos
  have hA := h.advance idx hj hn
  have h1 : j * cfg.pages_per_bucket ≤ g.n idx := hn.ge
  have h2 : g.n idx < (j + 1) * cfg.pages_per_bucket := by rw [Nat.add_mul]; omega
  have hu : g.n idx - j * cfg.pages_per_bucket = 0 := by omega
  have hd : cfg.commit_page_cnt ∣ g.n idx := by rw [hn]; exact cfg.commit_dvd.mul_left j
  have hd0 := (dvd_used_iff h1).mpr hd
  have hacc := hA.accessible (k := j + 1) hj
  have hnode := hA.node (j + 1) hj
  have huse := usedAt_of_mem h1 h2.le
  have hd1 := (hnode.use idx hidx).trans huse
  have hd2 := hnode.commit idx hidx
  rw [huse, committedAt_of_dvd hC hd0] at hd2
  rw [pageOfNextBlock, Act.wp_bind, Act.wp_onSelf, Act.wp_bind, wp_load]
  refine ⟨hacc, ?_⟩
  rw [Act.wp_bind, Act.wp_assert, Act.wp_bind, Act.wp_assert, Act.wp_bind, Act.wp_assert, Act.wp_bind,
    commitFirst, Act.wp_bind, wp_load]
  simp only [hnode.block j rfl, hd1, hd2, hu, decide_true, Bool.and_true,
    decide_eq_true (hA.block_at hj).pos.ne', if_true]
  refine ⟨hacc, ?_⟩
  have hst₀ : PageStep cfg idx s.w s.w g g := .refl
  have hcs := commit_spec os (s := ⟨s.w, { s.c with
    indexHead := fun i => if i = idx then g.node (j + 1) else s.c.indexHead i }⟩) hA hst₀ rfl rfl
    hidx hj h1 h2 hd0 fun x hx => h.not_keep hidx hj hx _
  rw [hu] at hcs
  refine Act.wp_mono hcs ?_ fun t ht =>
    ⟨g, ht.1, ht.2.1, rfl, ht.2.2.1, hd, Or.inr ht.2.2.2⟩
  intro _ t ht
  obtain ⟨hc, hI, hst, hcom⟩ := ht
  rw [Act.wp_bind, wp_change]
  refine ⟨hI.accessible hj, ?_⟩
  have hend := committedAt_succ_of_dvd hC hd0
  have hlt : cfg.commit_page_cnt < 2 ^ 16 := by
    have := Nat.le_of_dvd hP cfg.commit_dvd
    have := cfg.pages_per_bucket_lt
    omega
  have hmove := ((CursorsMove.refl hd1 hd2).base hc).change hacc.ne_null
    (g.n idx - j * cfg.pages_per_bucket)
    (committedAt cfg.commit_page_cnt (g.n idx - j * cfg.pages_per_bucket + 1))
    (f := fun d => { d with nextToCommit := put d.nextToCommit idx (u16 cfg.commit_page_cnt) }) (by
      have hd1' : (t.c.desc (g.node (j + 1))).nextToUse idx =
          g.n idx - j * cfg.pages_per_bucket := by
        rw [hc.1]; exact hd1
      rw [u16_of_lt hlt, hend, ← hd1', put_self, hd1', hu, Nat.zero_add])
  have hr : Ready cfg idx j s.w g
      { s.c with indexHead := fun i => if i = idx then g.node (j + 1) else s.c.indexHead i } g
      ⟨t.w, t.c.setDesc
        (fun d => { d with nextToCommit := put d.nextToCommit idx (u16 cfg.commit_page_cnt) })
        (g.node (j + 1))⟩ := by
    refine ⟨hst, hA.grow hst.grows, by simpa using hc.2, setDesc_coll _ _ hI.coll, ?_, fun i => ?_,
      hmove, by rw [hu]; exact hcom⟩
    · rw [setDesc_current, hc.1]
    · rw [setDesc_indexHead, hc.1]
      simp only
      split_ifs <;> rfl
  refine Act.wp_mono (take_spec hr hidx hj h1 h2 (fun x hx => h.not_keep hidx hj hx _)
    (v := fun _ => 1) (by rw [hu])) ?_ fun _ hf => hf.elim
  intro ret t' ht'
  obtain ⟨hI', hst', hret, -⟩ := ht'
  refine ⟨g.give idx, hI', hst', rfl, hret, fun hnd => absurd hd hnd, fun hle => ?_⟩
  rw [(div_mod_of_mem h1 h2).1] at hle
  exact absurd hj (by omega)

/-- A block that has given bucket `idx` nothing is about to give its first page. -/
theorem SoundInv.firstPage_move {calls : List OsCall} {c : SoundingAddressPageAllocator}
    (h : SoundInv cfg calls c g) (hidx : idx < cfg.bucket_cnt) (hj : j < g.blocks.length)
    (hn : g.n idx = j * cfg.pages_per_bucket) :
    CursorsMove c (c.setDesc (fun d =>
      { d with
        nextToUse := put d.nextToUse idx 1
        nextToCommit := put d.nextToCommit idx (u16 cfg.commit_page_cnt) }) (g.node (j + 1)))
      (g.node (j + 1)) idx 1 (committedAt cfg.commit_page_cnt 1) := by
  have hC := cfg.commit_page_cnt_pos
  have hP := cfg.pages_per_bucket_pos
  have hused : usedAt cfg.pages_per_bucket (g.n idx) (j + 1) = 0 := by
    rw [usedAt_of_mem hn.ge (by rw [hn, Nat.add_mul]; omega), hn, Nat.sub_self]
  have hnodeI := h.node _ hj
  have huse := (hnodeI.use idx hidx).trans hused
  have hcommit := hnodeI.commit idx hidx
  rw [hused, committedAt_zero hC] at hcommit
  have hlt : cfg.commit_page_cnt < 2 ^ 16 := by
    have := Nat.le_of_dvd hP cfg.commit_dvd
    have := cfg.pages_per_bucket_lt
    omega
  have hend : committedAt cfg.commit_page_cnt 1 = cfg.commit_page_cnt := by
    simpa using committedAt_succ_of_dvd hC (dvd_zero _)
  exact (CursorsMove.refl huse hcommit).change (h.accessible hj).ne_null 1 (committedAt cfg.commit_page_cnt 1)
    (by rw [u16_of_lt hlt, hend])

/-- A block was created, its first batch for bucket `idx` is committed, and its
cursors say that one page was given out; the head is still to follow. -/
structure Created (cfg : SoundingCfg) (idx : ℕ) (s : St SoundingAddressPageAllocator) (g g' : Ghost)
    (c : SoundingAddressPageAllocator) (t : St SoundingAddressPageAllocator) : Prop where
  step : PageStep cfg idx s.w t.w g g'
  n : g'.n = g.n
  length : g'.blocks.length = g.blocks.length + 1
  inv : SoundInv cfg t.w.calls c g'
  heads : c.indexHead = s.c.indexHead
  idle : t.c.base.Idle
  coll : CollectionInPages.CollInv cfg.descriptorSize t.w.calls t.c.pageBlockDescriptors
    g'.pages g'.used g'.free
  current : t.c.pageBlockListCurrent = c.pageBlockListCurrent
  head : t.c.indexHead = c.indexHead
  desc : CursorsMove c t.c (g'.node (g.blocks.length + 1)) idx 1 (committedAt cfg.commit_page_cnt 1)
  committed : ∀ x, InPages cfg (g'.block g.blocks.length) idx 0 (committedAt cfg.commit_page_cnt 1) x →
    pageState t.w.calls x = .committed

/-- The descriptor of a new block, before it is linked. -/
theorem newDescriptor_spec (os : Os) (h : SoundInv cfg s.w.calls s.c g)
    (hsz : cfg.descriptorSize ≤ 4096) :
    Act.wp (descriptors (CollectionInPages.createNew os cfg.descriptorSize))
      (fun a t => ∃ pages free, t.c = { s.c with pageBlockDescriptors := t.c.pageBlockDescriptors } ∧
        SoundInv cfg t.w.calls t.c { g with pages, used := a :: g.used, free } ∧ a ∉ g.used ∧
        PageStep cfg idx s.w t.w g { g with pages, used := a :: g.used, free } ∧
        commitRanges t.w.calls = commitRanges s.w.calls ∧
        nextBlock cfg os s = os.mmap t.w.calls cfg.reservation_size)
      (fun t => SoundInv cfg t.w.calls t.c g ∧ PageStep cfg idx s.w t.w g g ∧ Refused s.w t.w ∧
        commitRanges t.w.calls = commitRanges s.w.calls) s := by
  have h8 : 8 ≤ cfg.descriptorSize := by unfold SoundingCfg.descriptorSize; omega
  rw [descriptors, Act.wp_onPart]
  refine Act.wp_mono (CollectionInPages.createNew_spec (s := ⟨s.w, s.c.pageBlockDescriptors⟩)
    (by omega) hsz h.coll) ?_ ?_
  · rintro a ⟨w, d⟩ ⟨pages, free, hcoll, ha, hheap, hw⟩
    simp only at hcoll hheap hw
    rcases hw with ⟨hfree, rfl, rfl⟩ | ⟨hfree, p, hm, rfl, rfl⟩
    · exact ⟨_, _, rfl, h.collection hcoll (fun x hx => List.mem_cons_of_mem a hx) hheap .refl
        fun q hq => Or.inl hq, ha, PageStep.refl.ghost rfl rfl, rfl, if_pos hfree⟩
    · have hf := os.fresh hm
      refine ⟨_, _, rfl, h.collection hcoll (fun x hx => List.mem_cons_of_mem a hx) hheap
        (.allocated hf) fun q hq => ?_, ha, PageStep.refl.allocated hf rfl rfl rfl, rfl, ?_⟩
      · rcases List.mem_cons.mp hq with rfl | hq
        · exact Or.inr hf
        · exact Or.inl hq
      · unfold nextBlock
        rw [if_neg (not_not_intro hfree), PAGE_SIZE_eq, hm]
        rfl
  · rintro ⟨w, d⟩ ⟨-, rfl, hcoll, hheap, -⟩
    exact ⟨h.collection hcoll (fun x hx => hx) (fun x _ => by rw [hheap]) .refused
      fun q hq => Or.inl hq, PageStep.refl.refused, ⟨_, _, rfl, List.suffix_refl _⟩, rfl⟩

/-- The changes by which `createNextBlockAndGetPage` links the descriptor `a`
of the block `b`. -/
def linked (cfg : SoundingCfg) (c : SoundingAddressPageAllocator) (a b : ℕ) :
    SoundingAddressPageAllocator :=
  { ((c.setDesc (fun d => { d with blockAddress := b }) (.item a)).setDesc
      (fun d =>
        { d with
          nextToUse := fun i => if i < cfg.bucket_cnt then 0 else d.nextToUse i
          nextToCommit := fun i => if i < cfg.bucket_cnt then 0 else d.nextToCommit i
          next := .null }) (.item a)).setDesc
      (fun d => { d with next := .item a }) c.pageBlockListCurrent with
    pageBlockListCurrent := .item a }

theorem linked_inv (h : SoundInv cfg s.w.calls s.c g) {a b : ℕ} (ha : a ∈ g.used)
    (hne : ∀ p ∈ g.blocks, p.1 ≠ a) (hf : FreshRegion s.w.calls b cfg.reservation_size) :
    SoundInv cfg (s.w.reserved b cfg.reservation_size).calls (linked cfg s.c a b) (g.link a b) := by
  have hG : SoundInv cfg (s.w.reserved b cfg.reservation_size).calls s.c g := h.grow (.reserved hf)
  have hcur := h.current
  have hcne : s.c.pageBlockListCurrent ≠ .null := by
    rw [hcur]
    exact (h.accessible le_rfl).ne_null
  have hnode : ∀ k ≤ g.blocks.length, g.node k ≠ .item a := fun k hk he => by
    cases k with
    | zero => cases he
    | succ j =>
      obtain ⟨p, hp, -, hn⟩ := g.block_mem (j := j) (by omega)
      rw [hn, DescPtr.item.injEq] at he
      exact hne p hp he
  have hd : ∀ q, (linked cfg s.c a b).desc q =
      ((((s.c.setDesc (fun d => { d with blockAddress := b }) (.item a)).setDesc
      (fun d =>
        { d with
          nextToUse := fun i => if i < cfg.bucket_cnt then 0 else d.nextToUse i
          nextToCommit := fun i => if i < cfg.bucket_cnt then 0 else d.nextToCommit i
          next := .null }) (.item a)).setDesc
      (fun d => { d with next := .item a }) s.c.pageBlockListCurrent)).desc q := fun q => by
    cases q <;> rfl
  have hitem : DescPtr.item a ≠ .null := by simp
  have hunmapped : ∀ x, Within b cfg.reservation_size x → ¬ Mapped s.w.calls x := fun x hx hm =>
    hm (hf.unmapped x hx)
  refine hG.link ha hne (.of_fresh cfg hf) (fun p hp x hx hxb => hunmapped x hxb (h.mapped x ⟨p, hp, hx⟩))
    (fun q hq x hx hxq => ?_) (fun x hx => ?_) ?_ ?_ rfl ?_ ?_ ?_ ?_
  · exact hunmapped x hx (mapped_of_committed ((h.coll.mapped q hq).mapped x hxq))
  · simp [Mapped, World.reserved, pageState, hx]
  · simpa [linked] using h.idle
  · exact setDesc_coll _ _ (setDesc_coll _ _ (setDesc_coll _ _ hG.coll))
  · simp [linked]
  · have : DescPtr.item a ≠ s.c.pageBlockListCurrent := by
      rw [hcur]
      exact (hnode _ le_rfl).symm
    rw [hd, desc_setDesc hcne, if_neg this, desc_setDesc hitem, if_pos rfl, desc_setDesc hitem, if_pos rfl]
    exact ⟨rfl, rfl, fun i hi => ⟨if_pos hi, if_pos hi⟩⟩
  · rw [hd, desc_setDesc hcne, if_pos hcur.symm, desc_setDesc hitem, if_neg (hnode _ le_rfl),
      desc_setDesc hitem, if_neg (hnode _ le_rfl)]
  · intro k hk
    have hkl : g.node k ≠ s.c.pageBlockListCurrent := by
      rw [hcur]
      exact fun he => by have := h.node_inj hk.le le_rfl he; omega
    rw [hd, desc_setDesc hcne, if_neg hkl, desc_setDesc hitem, if_neg (hnode _ hk.le),
      desc_setDesc hitem, if_neg (hnode _ hk.le)]

theorem createNextBlockAndGetPage_spec (os : Os) (h : SoundInv cfg s.w.calls s.c g)
    (hsz : cfg.descriptorSize ≤ 4096) (hidx : idx < cfg.bucket_cnt)
    (hn : g.n idx = g.blocks.length * cfg.pages_per_bucket) :
    Act.wp (createNextBlockAndGetPage cfg os idx)
      (fun ret t => ∃ g' c, Created cfg idx s g g' c t ∧
        ret = cfg.pageAddr (g'.block g.blocks.length) idx 0 ∧ ¬ g.Keep cfg s.w.calls ret ∧
        nextBlock cfg os s = some (g'.block g.blocks.length))
      (fun t => ∃ g', Threw cfg os idx s g g' t) s := by
  have hC := cfg.commit_page_cnt_pos
  have hP := cfg.pages_per_bucket_pos
  have hdvd : cfg.commit_page_cnt ∣ g.n idx := by rw [hn]; exact cfg.commit_dvd.mul_left _
  rw [createNextBlockAndGetPage, Act.wp_bind, Act.wp_assert, decide_eq_true hidx, Bool.and_true,
    Act.wp_bind]
  refine Act.wp_mono (newDescriptor_spec os h hsz) ?_ fun t ht =>
    ⟨g, ht.1, ht.2.1, rfl, ht.2.2.1, hdvd, Or.inl ht.2.2.2⟩
  intro a t₁ ht₁
  obtain ⟨pages, free, hc₁, hI₁, ha, hst₁, hcr₁, hnext⟩ := ht₁
  rw [Act.wp_bind, getNextBlock, super, Act.wp_onPart]
  refine Act.wp_mono (PageAllocatorWithCaching.AllocateAddressSpace_spec (s := ⟨t₁.w, t₁.c.base⟩)
    hI₁.idle) ?_ ?_
  swap
  · -- no address space: the descriptor stays unused
    rintro ⟨w, c⟩ ⟨-, rfl, hc⟩
    refine ⟨_, (hI₁.base ⟨rfl, hc⟩).grow .refused, hst₁.refused, rfl, ⟨_, _, rfl, hst₁.suffix⟩, hdvd,
      Or.inl hcr₁⟩
  rintro b ⟨w₂, c₂⟩ ⟨hm, rfl, hc₂⟩
  simp only at hm hc₂
  have hf := os.fresh hm
  have hne : ∀ p ∈ g.blocks, p.1 ≠ a := fun p hp he => ha (he ▸ h.used p hp)
  have hI₂ : SoundInv cfg t₁.w.calls { t₁.c with base := c₂ } _ := hI₁.base ⟨rfl, hc₂⟩
  have hL := linked_inv (s := ⟨t₁.w, { t₁.c with base := c₂ }⟩) hI₂ List.mem_cons_self hne hf
  have hst₂ := hst₁.reserved (a := a) hf hcr₁
  have hcur := hI₂.accessible (k := g.blocks.length) le_rfl
  rw [← hI₂.current] at hcur
  obtain ⟨g₂, hg₂⟩ : ∃ g₂, g₂ = Ghost.link { g with pages, used := a :: g.used, free } a b := ⟨_, rfl⟩
  have hlen : g₂.blocks.length = g.blocks.length + 1 := by rw [hg₂, Ghost.link_length]
  have hn₂ : g₂.n = g.n := by rw [hg₂]; rfl
  have hblock : g₂.block g.blocks.length = b := by rw [hg₂]; exact Ghost.link_block_new
  have hnode : g₂.node (g.blocks.length + 1) = .item a := by rw [hg₂]; exact Ghost.link_node_new
  rw [← hg₂] at hL hst₂
  have hj : g.blocks.length < g₂.blocks.length := by omega
  have hacc := hL.accessible hj
  rw [hnode] at hacc
  -- the descriptor is filled in and linked
  rw [Act.wp_bind, wp_change]
  refine ⟨hacc, ?_⟩
  rw [Act.wp_bind, wp_change]
  refine ⟨hacc, ?_⟩
  rw [Act.wp_bind, Act.wp_read, Act.wp_bind, wp_change]
  simp only [setDesc_current]
  refine ⟨(Accessible.mono hcur (.reserved hf)), ?_⟩
  rw [Act.wp_bind, Act.wp_onSelf]
  change Act.wp _ _ _ (St.mk (t₁.w.reserved b cfg.reservation_size)
    (linked cfg { t₁.c with base := c₂ } a b))
  have hheads : (linked cfg { t₁.c with base := c₂ } a b).indexHead = s.c.indexHead := by
    rw [hc₁]
    simp [linked]
  generalize linked cfg { t₁.c with base := c₂ } a b = c₃ at hL hheads ⊢
  -- its first batch is committed
  have h1 : g.blocks.length * cfg.pages_per_bucket ≤ g₂.n idx := by rw [hn₂, hn]
  have h2 : g₂.n idx < (g.blocks.length + 1) * cfg.pages_per_bucket := by
    rw [hn₂, hn, Nat.add_mul]; omega
  have hu : g₂.n idx - g.blocks.length * cfg.pages_per_bucket = 0 := by rw [hn₂, hn]; omega
  have hb := hL.block_at hj
  rw [hblock] at hb
  have hkeep : ∀ x, InPages cfg b idx 0 cfg.pages_per_bucket x →
      ¬ g.Keep cfg s.w.calls x := fun x hx => by
    obtain ⟨t, _, ht, hx⟩ := hx
    exact not_keep_fresh hst₁.grows hf (SoundingCfg.within_block hb hidx ht hx)
  have hcs := commit_spec os (s := ⟨t₁.w.reserved b cfg.reservation_size, c₃⟩) hL hst₂ hn₂.symm hcr₁ hidx
    hj h1 h2 (by rw [hu]; exact dvd_zero _) (by rw [hu, hblock]; exact hkeep)
  rw [hu, hblock] at hcs
  rw [Act.wp_bind, wp_idxToPageAddr hb hidx hP, Act.wp_bind]
  refine Act.wp_mono hcs ?_ ?_
  swap
  · intro t ht
    obtain ⟨hI, hst, ⟨m, cs, ht, hsuf⟩, hos⟩ := ht
    exact ⟨g₂, hI, hst, hn₂, ⟨m, cs, ht, hst₁.suffix.trans ((List.suffix_cons _ _).trans hsuf)⟩, hdvd,
      Or.inr hos⟩
  rintro _ ⟨w₃, c₄⟩ ⟨hc₄, hI₃, hst₃, hcom⟩
  have hpage : Within (cfg.pageAddr b idx 0) 4096 (cfg.pageAddr b idx 0) := ⟨le_rfl, by omega⟩
  have hnot := hkeep _ ⟨0, le_rfl, hP, hpage⟩
  simp only [Act.wp_bind, wp_change, testWrite, Act.wp_deref, Act.wp_onWorld, Act.wp_update, Act.wp_pure]
  refine ⟨hnode ▸ hI₃.accessible hj, hcom _ ⟨0, le_rfl, le_committedAt hC, hpage⟩, g₂, c₄, ?_,
    by rw [hblock], hnot, by rw [hblock]; exact hnext.trans hm⟩
  have hmove := hI₃.firstPage_move hidx hj (hn₂.symm ▸ hn)
  rw [hnode] at hmove
  refine ⟨hst₃.write hnot, hn₂, hlen, hI₃, ?_, by simpa using hc₄.2,
    setDesc_coll _ _ hI₃.coll, setDesc_current _ _ _, setDesc_indexHead _ _ _, hnode ▸ hmove,
    by rw [hblock]; exact hcom⟩
  exact (congrArg indexHead hc₄.1).trans hheads

theorem pageOfNewBlock_spec (os : Os) (h : SoundInv cfg s.w.calls s.c g)
    (hsz : cfg.descriptorSize ≤ 4096) (hidx : idx < cfg.bucket_cnt)
    (hn : g.n idx = g.blocks.length * cfg.pages_per_bucket) :
    Act.wp (pageOfNewBlock cfg os idx (g.node g.blocks.length))
      (fun ret t => ∃ g', Gave cfg os idx s g g' ret t) (fun t => ∃ g', Threw cfg os idx s g g' t) s := by
  have hC := cfg.commit_page_cnt_pos
  have hP := cfg.pages_per_bucket_pos
  rw [pageOfNewBlock, Act.wp_bind, Act.wp_read, Act.wp_bind, Act.wp_assert, h.current,
    decide_eq_true rfl, Bool.and_true, Act.wp_bind]
  refine Act.wp_mono (createNextBlockAndGetPage_spec os h hsz hidx hn) ?_ fun t ht => ht
  rintro ret ⟨w, c'⟩ ⟨g', c, hc, rfl, hnot, hnew⟩
  have hj : g.blocks.length < g'.blocks.length := by rw [hc.length]; exact Nat.lt_succ_self _
  have hlast : g.blocks.length + 1 = g'.blocks.length := hc.length.symm
  have hnull : g'.node (g.blocks.length + 1 + 1) = .null := Ghost.node_eq_null.mpr (by omega)
  have h1 : g.blocks.length * cfg.pages_per_bucket ≤ g'.n idx := by rw [hc.n, hn]
  have h2 : g'.n idx < (g.blocks.length + 1) * cfg.pages_per_bucket := by
    rw [hc.n, hn, Nat.add_mul]; omega
  have hu : g'.n idx - g.blocks.length * cfg.pages_per_bucket = 0 := by rw [hc.n, hn]; omega
  have hcur : c'.pageBlockListCurrent = g'.node (g.blocks.length + 1) := by
    rw [hlast]
    exact hc.current.trans hc.inv.current
  have hpage : Within (cfg.pageAddr (g'.block g.blocks.length) idx 0) 4096
      (cfg.pageAddr (g'.block g.blocks.length) idx 0) := ⟨le_rfl, by omega⟩
  have hderef := hc.committed _ ⟨0, le_rfl, le_committedAt hC, hpage⟩
  have hnext : (c'.desc c'.pageBlockListCurrent).next = .null := by
    rw [hcur]
    exact hc.desc.next.trans ((hc.inv.node _ hj).next.trans hnull)
  have hd : ∀ (q : DescPtr) (f : ℕ → DescPtr), desc { c' with indexHead := f } q = c'.desc q :=
    fun q f => by cases q <;> rfl
  rw [Act.wp_bind, Act.wp_read, Act.wp_bind, Act.wp_onSelf, Act.wp_bind, wp_load]
  refine ⟨by rw [hcur]; exact hc.inv.accessible hj, ?_⟩
  rw [Act.wp_bind, Act.wp_assert, hd, hnext, decide_eq_true rfl, Bool.and_true]
  simp only [testWrite, Act.wp_bind, Act.wp_deref, Act.wp_onWorld, Act.wp_update, Act.wp_pure]
  refine ⟨hderef, g'.give idx, ?_, ?_, ?_, ?_, fun hnd => ?_, fun _ => ?_⟩
  · refine hc.inv.give hidx hj h1 h2 hc.idle hc.coll hc.current (fun i => ?_) ?_ ?_
    · simp only [hcur]
      exact if_congr Iff.rfl rfl (congrFun hc.head i)
    · have hdesc := hc.desc
      rw [hu]
      exact ⟨fun q hq => (hd q _).trans (hdesc.other q hq), by rw [hd]; exact hdesc.next,
        by rw [hd]; exact hdesc.block, fun i => by rw [hd]; exact hdesc.use i,
        fun i => by rw [hd]; exact hdesc.commit i⟩
    · rw [hu]
      exact hc.committed
  · exact (hc.step.write hnot).ghost rfl rfl
  · simp only [Ghost.give, hc.n]
  · obtain ⟨hdiv, hmod⟩ := div_mod_of_mem h1 h2
    rw [Ghost.pageOf, ← hc.n, hdiv, hmod, hu]
    rfl
  · exact absurd (hn ▸ cfg.commit_dvd.mul_left _) hnd
  · rw [← hc.n, (div_mod_of_mem h1 h2).1]
    exact hnew

/-- A call for a page of a bucket hands out its next page, or throws. -/
theorem getPage_spec (os : Os) (h : SoundInv cfg s.w.calls s.c g) (hsz : cfg.descriptorSize ≤ 4096)
    (hidx : idx < cfg.bucket_cnt) :
    Act.wp (getPage cfg os idx)
      (fun ret t => ∃ g', Gave cfg os idx s g g' ret t) (fun t => ∃ g', Threw cfg os idx s g g' t) s := by
  obtain ⟨k, hk, hhead, h2, h1⟩ := h.head idx hidx
  have hacc := h.accessible hk
  have hnode := h.node k hk
  have huse := hnode.use idx hidx
  rw [getPage, Act.wp_bind, Act.wp_assert, decide_eq_true hidx, Bool.and_true, Act.wp_bind, Act.wp_read,
    hhead, Act.wp_bind, Act.wp_assert, decide_eq_true hacc.ne_null, Bool.and_true, Act.wp_bind, wp_load]
  refine ⟨hacc, ?_⟩
  by_cases hlt : (s.c.desc (g.node k)).nextToUse idx < cfg.pages_per_bucket
  · rw [if_pos hlt]
    rw [huse] at hlt
    cases k with
    | zero => exact absurd hlt (lt_irrefl _)
    | succ j =>
      rw [Nat.add_sub_cancel] at h1
      rw [usedAt_of_mem h1 h2] at hlt
      exact pageOfBlock_spec h hidx hk hhead h1 (by rw [Nat.add_mul]; omega)
  · rw [if_neg hlt]
    -- the block at the head is used up
    have hn : g.n idx = k * cfg.pages_per_bucket := by
      rw [huse] at hlt
      cases k with
      | zero => omega
      | succ j =>
        rw [Nat.add_sub_cancel] at h1
        rw [usedAt_of_mem h1 h2] at hlt
        rw [Nat.add_mul] at h2 ⊢
        omega
    rw [hnode.next]
    by_cases hnull : g.node (k + 1) = .null
    · obtain rfl : k = g.blocks.length := by have := Ghost.node_eq_null.mp hnull; omega
      rw [if_pos hnull]
      exact pageOfNewBlock_spec os h hsz hidx hn
    · rw [if_neg hnull]
      exact pageOfNextBlock_spec h hidx (by by_contra hc; exact hnull (Ghost.node_eq_null.mpr (by omega))) hn

end SoundingAddressPageAllocator

end IibMalloc
