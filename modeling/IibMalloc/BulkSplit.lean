/-
# BulkAllocator: a chunk is cut

`split` takes the first chunk of the last list, writes its header and that of
the rest, and puts the rest on the list of its size. `split_done` says so in
words, for any free lists and wherever the chunk stands in its block.
-/
import IibMalloc.BulkInv

namespace IibMalloc

open Lib AnyChunkHeader

namespace BulkAllocator

variable {cfg : BulkCfg} {s t : St BulkAllocator} {ls : ℕ → List ℕ} {a k x : ℕ}

/-- Link words are no words of a header. -/
theorem FreeLists.freeWord_mod (hF : FreeLists cfg s ls) (hx : FreeWord cfg ls x) : 16 ≤ x % 4096 := by
  obtain ⟨i, hi, a, ha, hw⟩ := hx
  have := (hF.mapped i hi a ha).aligned
  unfold LinkWord at hw
  omega

/-- An edit of link words leaves the headers alone. -/
theorem Edits.header (hE : Edits (FreeWord cfg ls) s t) (hF : FreeLists cfg s ls) (hx : x % 4096 < 16) :
    t.w.mem x = s.w.mem x :=
  hE.mem x fun hw => absurd (hF.freeWord_mod hw) (by omega)

/-- So does putting a chunk on a list. -/
theorem Edits.header_push {b : ℕ} (hE : Edits (fun y => FreeWord cfg ls y ∨ LinkWord b y) s t)
    (hF : FreeLists cfg s ls) (hb : 4096 ∣ b) (hx : x % 4096 < 16) : t.w.mem x = s.w.mem x := by
  refine hE.mem x fun hw => ?_
  rcases hw with hw | hw
  · have := hF.freeWord_mod hw
    omega
  · unfold LinkWord at hw
    omega

theorem Edits.accessors (hE : Edits (FreeWord cfg ls) s t) (hF : FreeLists cfg s ls) (hx : 4096 ∣ x) :
    prevInBlock t.w.mem x = prevInBlock s.w.mem x ∧ nextInBlock t.w.mem x = nextInBlock s.w.mem x ∧
      getPageCount t.w.mem x = getPageCount s.w.mem x := by
  obtain ⟨h1, h2, h3, -⟩ := header_congr (hE.header hF (x := x) (by omega)) (hE.header hF (x := x + 8) (by omega))
  exact ⟨h1, h2, h3⟩

/-- The words of a header that the accessors read. -/
def HeaderWord (a x : ℕ) : Prop := x = a ∨ x = a + 8

/-- From `s` to `t` the chunk at `a`, the first of the last list, is cut after `k`
pages. -/
structure SplitDone (cfg : BulkCfg) (ls : ℕ → List ℕ) (a k : ℕ) (s t : St BulkAllocator) : Prop where
  edits : Edits (fun x => FreeWord cfg ls x ∨ LinkWord (a + k * 4096) x ∨ HeaderWord a x ∨
    HeaderWord (a + k * 4096) x) s t
  prev : t.w.mem a = prevInBlock s.w.mem a + k
  next : t.w.mem (a + 8) = a + k * 4096
  prev' : t.w.mem (a + k * 4096) = a + (getPageCount s.w.mem a - k)
  next' : t.w.mem (a + k * 4096 + 8) = nextInBlock s.w.mem a + 1
  lists : FreeLists cfg t (setList (setList ls cfg.max_pages ((ls cfg.max_pages).erase a))
    (listOf cfg (getPageCount s.w.mem a - k))
    ((a + k * 4096) :: setList ls cfg.max_pages ((ls cfg.max_pages).erase a)
      (listOf cfg (getPageCount s.w.mem a - k))))

theorem split_done (hF : FreeLists cfg s ls) (hfirst : s.c.freeListBegin cfg.max_pages = a) (ha : a ≠ 0)
    (hm : CollectionInPages.PageMapped s.w.calls (a + k * 4096))
    (hout : ∀ i ≤ cfg.max_pages, a + k * 4096 ∉ ls i) (hlt : a + k * 4096 < 2 ^ 64) (hk : 0 < k)
    (hk' : k ≤ cfg.max_pages) (hp : cfg.max_pages < getPageCount s.w.mem a) :
    Act.wp (split cfg k) (fun y t => y = a ∧ SplitDone cfg ls a k s t) (fun _ => False) s := by
  have hal : a ∈ ls cfg.max_pages := hfirst ▸ hF.first_mem le_rfl (by rwa [hfirst])
  have hma := hF.mapped _ le_rfl a hal
  have h4 := hma.aligned
  have hp4 := getPageCount_lt s.w.mem a
  have hq := prevInBlock_lt s.w.mem a
  have hn := nextInBlock_lt s.w.mem a
  have hu : u64 (a + k <<< PAGE_SIZE_EXP) = a + k * 4096 := by
    rw [PAGE_SIZE_EXP_eq, Nat.shiftLeft_eq, show (2 : ℕ) ^ 12 = 4096 by norm_num]
    exact u64_of_lt hlt
  unfold split
  rw [Act.wp_bind, wp_freeListAt, hfirst, Act.wp_bind, Act.wp_assert, Act.wp_bind, Act.wp_assertThat, Act.wp_bind,
    Act.wp_assertThat, Act.wp_bind]
  refine ⟨le_rfl, ?_⟩
  refine Act.wp_mono (popFree_asserted (s := s) _ hF le_rfl hfirst ha) ?_ fun _ ht => ht
  intro r t ht
  obtain ⟨rfl, hL, hE⟩ := ht
  obtain ⟨hrp, hrn, hrc⟩ := hE.accessors hF h4
  rw [← hE.calls] at hm hma
  rw [hu, Act.wp_bind, loadNextInBlock, wp_field, hrn, Act.wp_bind, loadPageCount, wp_field, hrc, Act.wp_bind]
  refine ⟨hma.word (by omega), hma.word (k := 0) (by omega), ?_⟩
  rw [show u16 (getPageCount s.w.mem r + (2 ^ 16 - u16 k)) = getPageCount s.w.mem r - k by unfold u16; omega]
  -- the header of the rest
  refine set_spec hm (by omega) (by omega) fun A m₁ hm₁ h0 h8 => ?_
  rw [Act.wp_bind, storePrevFree, Act.wp_storeWord, Act.wp_bind, storeNextFree, Act.wp_storeWord, Act.wp_bind,
    loadPrevInBlock, wp_field]
  dsimp only
  refine ⟨hm.word (by omega), hm.word (by omega), hma.word (k := 0) (by omega), ?_⟩
  have hprev : prevInBlock (store (store m₁ (r + k * 4096 + 16) 0) (r + k * 4096 + 24) 0) r =
      prevInBlock s.w.mem r := by
    rw [← hrp]
    unfold prevInBlock
    rw [store_ne (by omega), store_ne (by omega), hm₁ _ (by omega) (by omega)]
  rw [hprev, Act.wp_bind, show u16 k = k by unfold u16; omega]
  -- the header of the chunk cut off
  refine set_spec (s := ⟨⟨t.w.calls, _, A⟩, t.c⟩) hma (by omega) (by omega) fun A' m₂ hm₂ h0' h8' => ?_
  simp only at hm₂
  rw [Act.wp_bind, Act.wp_assertThat, Act.wp_bind, wp_field]
  refine ⟨hm.word (k := 0) (by omega), ?_⟩
  have hmu : m₂ (r + k * 4096) = r + (getPageCount s.w.mem r - k) := by
    rw [hm₂ _ (by omega) (by omega), store_ne (by omega), store_ne (by omega), h0]
  have hcount : getPageCount m₂ (r + k * 4096) = getPageCount s.w.mem r - k := by
    rw [getPageCount, hmu, and_page_mask, u16_of_lt (by omega)]
    omega
  have hidx : (if getPageCount s.w.mem r - k > cfg.max_pages then cfg.max_pages
      else u64 (getPageCount s.w.mem r - k + (2 ^ 64 - 1))) = listOf cfg (getPageCount s.w.mem r - k) := by
    have : u64 (getPageCount s.w.mem r - k + (2 ^ 64 - 1)) = getPageCount s.w.mem r - k - 1 := by
      unfold u64
      omega
    rw [listOf_eq (by omega) (by omega), this]
  simp only [hcount]
  rw [hidx, Act.wp_bind]
  have hmem : ∀ x, ¬ HeaderWord r x → ¬ HeaderWord (r + k * 4096) x → ¬ LinkWord (r + k * 4096) x →
      m₂ x = t.w.mem x := fun x h1 h2 h3 => by
    unfold HeaderWord at h1 h2
    unfold LinkWord at h3
    rw [hm₂ x (by omega) (by omega), store_ne (by omega), store_ne (by omega), hm₁ x (by omega) (by omega)]
  have hnot : ∀ i ≤ cfg.max_pages, r + k * 4096 ∉
      setList ls cfg.max_pages ((ls cfg.max_pages).erase r) i := fun i hi hx =>
    hout i hi ((hF.mem_erase le_rfl hal hi).mp hx).1
  have hsub : ∀ x, FreeWord cfg (setList ls cfg.max_pages ((ls cfg.max_pages).erase r)) x → FreeWord cfg ls x := by
    intro x hx
    obtain ⟨i, hi, a, ha, hw⟩ := hx
    exact ⟨i, hi, a, ((hF.mem_erase le_rfl hal hi).mp ha).1, hw⟩
  -- no link of a listed chunk is among the words written so far
  have hfw : ∀ x, FreeWord cfg (setList ls cfg.max_pages ((ls cfg.max_pages).erase r)) x → m₂ x = t.w.mem x := by
    intro x hx
    have h16 := hL.freeWord_mod hx
    obtain ⟨i, hi, a, ha, hw⟩ := hx
    have ha4 := (hL.mapped i hi a ha).aligned
    have hne : a ≠ r + k * 4096 := fun he => hnot i hi (he ▸ ha)
    refine hmem x ?_ ?_ ?_
    · unfold HeaderWord
      omega
    · unfold HeaderWord
      omega
    · unfold LinkWord at hw ⊢
      omega
  have hnull : prevFree m₂ (r + k * 4096) = 0 := by
    unfold prevFree
    rw [hm₂ _ (by omega) (by omega), store_ne (by omega), store_self]
  have hLm : ∀ A, FreeLists cfg ⟨⟨t.w.calls, m₂, A⟩, t.c⟩ _ := fun _ =>
    hL.congr (fun _ _ _ _ _ _ => rfl) (fun _ _ => rfl) hfw
  refine Act.wp_mono (pushFree_spec (a := r + k * 4096) (hLm _) (listOf_le (by omega) (by omega)) hm hnot hnull) ?_
    fun _ ht => ht
  intro _ u hu
  obtain ⟨hLu, hEu⟩ := hu
  have hkeep : ∀ x, x % 4096 < 16 → u.w.mem x = m₂ x := fun x hx => hEu.header_push (hLm _) hm.aligned hx
  rw [Act.wp_pure]
  refine ⟨rfl, ⟨hEu.calls.trans hE.calls, hEu.base.trans hE.base, hEu.blocks.trans hE.blocks, fun x hx => ?_⟩,
    ?_, ?_, ?_, ?_, hLu⟩
  · obtain ⟨h1, h2, h3, h5⟩ : ¬ FreeWord cfg ls x ∧ ¬ LinkWord (r + k * 4096) x ∧ ¬ HeaderWord r x ∧
        ¬ HeaderWord (r + k * 4096) x := by
      simpa only [not_or] using hx
    rw [hEu.mem x fun hw => hw.elim (fun hw => h1 (hsub x hw)) h2]
    exact (hmem x h3 h5 h2).trans (hE.mem x h1)
  · rw [hkeep _ (by omega), h0']
  · rw [hkeep _ (by omega), h8']
    rfl
  · rw [hkeep _ (by omega), hmu]
  · rw [hkeep _ (by omega), hm₂ _ (by omega) (by omega), store_ne (by omega), store_ne (by omega), h8]
    rfl

end BulkAllocator

end IibMalloc
