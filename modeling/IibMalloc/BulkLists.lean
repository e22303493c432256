/-
# BulkAllocator: the free lists

`FreeLists` says that each `freeListBegin[i]` starts a list through `nextFree`
and `prevFree`, whose first chunk has no `prevFree`, and that no chunk is on
two lists. `popFree_spec`, `pushFree_spec` and `removeFromFreeList_spec` are
the edits: of a list's first chunk, of a new first chunk and of any chunk.
Each changes no word but words 2 and 3 of chunks on the lists.
-/
import IibMalloc.Bulk

namespace IibMalloc

open Lib AnyChunkHeader

namespace BulkAllocator

/-- The chunks of each list. -/
structure FreeLists (cfg : BulkCfg) (s : St BulkAllocator) (ls : ℕ → List ℕ) : Prop where
  dlist : ∀ i ≤ cfg.max_pages,
    DList (nextFree s.w.mem) (prevFree s.w.mem) 0 0 (s.c.freeListBegin i) (ls i)
  mapped : ∀ i ≤ cfg.max_pages, ∀ a ∈ ls i, CollectionInPages.PageMapped s.w.calls a
  once : ∀ i ≤ cfg.max_pages, ∀ j ≤ cfg.max_pages, ∀ a ∈ ls i, a ∈ ls j → i = j

/-- The lists where nothing is known of a chunk but its header: it is mapped, and
apart from the others. -/
structure LinkedLists (cfg : BulkCfg) (s : St BulkAllocator) (ls : ℕ → List ℕ) : Prop where
  dlist : ∀ i ≤ cfg.max_pages,
    DList (nextFree s.w.mem) (prevFree s.w.mem) 0 0 (s.c.freeListBegin i) (ls i)
  once : ∀ i ≤ cfg.max_pages, ∀ j ≤ cfg.max_pages, ∀ a ∈ ls i, a ∈ ls j → i = j
  mapped : ∀ i ≤ cfg.max_pages, ∀ a ∈ ls i, ∀ k < 32, pageState s.w.calls (a + k) = .committed
  apart : ∀ i ≤ cfg.max_pages, ∀ j ≤ cfg.max_pages, ∀ a ∈ ls i, ∀ b ∈ ls j, a ≠ b →
    a + 32 ≤ b ∨ b + 32 ≤ a

/-- A word of a chunk that links it in a list. -/
def LinkWord (a x : ℕ) : Prop := x = a + 16 ∨ x = a + 24

/-- A link word of a chunk of one list. -/
def LinkOf (l : List ℕ) (x : ℕ) : Prop := ∃ a ∈ l, LinkWord a x

/-- A link word of a chunk on a list. -/
def FreeWord (cfg : BulkCfg) (ls : ℕ → List ℕ) (x : ℕ) : Prop :=
  ∃ i ≤ cfg.max_pages, ∃ a ∈ ls i, LinkWord a x

/-- The list `i` is `l`. -/
def setList (ls : ℕ → List ℕ) (i : ℕ) (l : List ℕ) : ℕ → List ℕ := fun j => if j = i then l else ls j

@[simp] theorem setList_self (ls : ℕ → List ℕ) (i : ℕ) (l : List ℕ) : setList ls i l i = l := if_pos rfl

theorem setList_ne {ls : ℕ → List ℕ} {i j : ℕ} {l : List ℕ} (h : j ≠ i) : setList ls i l j = ls j :=
  if_neg h

theorem mem_setList_cons {ls : ℕ → List ℕ} {i j a x : ℕ} :
    x ∈ setList ls i (a :: ls i) j ↔ x ∈ ls j ∨ j = i ∧ x = a := by
  by_cases hji : j = i
  · subst hji
    rw [setList_self, List.mem_cons]
    tauto
  · rw [setList_ne hji]
    tauto

variable {cfg : BulkCfg} {s t : St BulkAllocator} {ls : ℕ → List ℕ} {i a x : ℕ} {l : List ℕ}

namespace FreeLists

/-- A header is in the page of its chunk. -/
theorem linked (h : FreeLists cfg s ls) : LinkedLists cfg s ls := by
  refine ⟨h.dlist, h.once, fun i hi a ha k hk => (h.mapped i hi a ha).mapped _ ⟨by omega, by omega⟩, ?_⟩
  intro i hi j hj a ha b hb hne
  have := (h.mapped i hi a ha).aligned
  have := (h.mapped j hj b hb).aligned
  omega

theorem mapped_word (h : FreeLists cfg s ls) (hi : i ≤ cfg.max_pages) (ha : a ∈ ls i) {k : ℕ}
    (hk : k < 4096) : pageState s.w.calls (a + k) = .committed :=
  (h.mapped i hi a ha).mapped _ ⟨by omega, by omega⟩

theorem pos (h : FreeLists cfg s ls) (hi : i ≤ cfg.max_pages) (ha : a ∈ ls i) : a ≠ 0 :=
  (h.dlist i hi).toChain.ne_null a ha

theorem first_mem (h : FreeLists cfg s ls) (hi : i ≤ cfg.max_pages) (hb : s.c.freeListBegin i ≠ 0) :
    s.c.freeListBegin i ∈ ls i := by
  have hd := h.dlist i hi
  cases hl : ls i with
  | nil => rw [hl] at hd; exact absurd hd hb
  | cons b l => rw [hl] at hd; exact hd.1 ▸ List.mem_cons_self

theorem first_eq_zero (h : FreeLists cfg s ls) (hi : i ≤ cfg.max_pages) :
    s.c.freeListBegin i = 0 ↔ ls i = [] := by
  have hd := h.dlist i hi
  cases hl : ls i with
  | nil => rw [hl] at hd; exact iff_of_true hd rfl
  | cons b l =>
    rw [hl] at hd
    exact iff_of_false (hd.1 ▸ hd.2.1) (List.cons_ne_nil b l)

/-- What is left where a chunk is taken off its list. -/
theorem mem_erase (h : FreeLists cfg s ls) (hi : i ≤ cfg.max_pages) (ha : a ∈ ls i) {j : ℕ}
    (hj : j ≤ cfg.max_pages) : x ∈ setList ls i ((ls i).erase a) j ↔ x ∈ ls j ∧ x ≠ a := by
  by_cases hji : j = i
  · subst hji
    rw [setList_self, (h.dlist j hj).nodup.mem_erase_iff, and_comm]
  · rw [setList_ne hji]
    refine ⟨fun hx => ⟨hx, fun hxa => hji (h.once j hj i hi x hx (hxa ▸ ha))⟩, fun hx => hx.1⟩

/-- The links of the chunks are words of their own. -/
theorem link_eq {b u v : ℕ} {calls : List OsCall} (ha : CollectionInPages.PageMapped calls a)
    (hb : CollectionInPages.PageMapped calls b) (hu : u < 4096) (hv : v < 4096) :
    a + u = b + v ↔ a = b ∧ u = v := by
  have := ha.aligned
  have := hb.aligned
  omega

/-- Lists whose words and first chunks are the same. -/
theorem congr (h : FreeLists cfg s ls)
    (hc : ∀ i ≤ cfg.max_pages, ∀ a ∈ ls i, ∀ x, Within a 4096 x →
      pageState t.w.calls x = pageState s.w.calls x)
    (hf : ∀ i ≤ cfg.max_pages, t.c.freeListBegin i = s.c.freeListBegin i)
    (hm : ∀ x, FreeWord cfg ls x → t.w.mem x = s.w.mem x) : FreeLists cfg t ls := by
  refine ⟨fun i hi => ?_, fun i hi a ha => ?_, h.once⟩
  swap
  · have hm := h.mapped i hi a ha
    exact ⟨hm.aligned, hm.pos, fun x hx => (hc i hi a ha x hx).trans (hm.mapped x hx)⟩
  rw [hf i hi]
  refine (h.dlist i hi).congr fun a ha => ⟨hm _ ⟨i, hi, a, ha, Or.inr rfl⟩, hm _ ⟨i, hi, a, ha, Or.inl rfl⟩⟩

/-- One list is edited. -/
theorem edit (h : FreeLists cfg s ls) (hi : i ≤ cfg.max_pages) (hc : t.w.calls = s.w.calls)
    (hf : ∀ j, j ≠ i → t.c.freeListBegin j = s.c.freeListBegin j)
    (hm : ∀ x, (∀ a, a ∈ ls i ∨ a ∈ l → ¬ LinkWord a x) → t.w.mem x = s.w.mem x)
    (hd : DList (nextFree t.w.mem) (prevFree t.w.mem) 0 0 (t.c.freeListBegin i) l)
    (hl : ∀ a ∈ l, a ∈ ls i ∨ CollectionInPages.PageMapped s.w.calls a ∧
      ∀ j ≤ cfg.max_pages, a ∉ ls j) : FreeLists cfg t (setList ls i l) := by
  have hmap : ∀ a ∈ l, CollectionInPages.PageMapped s.w.calls a := fun a ha =>
    (hl a ha).elim (h.mapped i hi a) And.left
  have hout : ∀ j ≤ cfg.max_pages, j ≠ i → ∀ a ∈ ls j, a ∉ l := fun j hj hne a ha hal => by
    rcases hl a hal with h' | h'
    · exact hne (h.once j hj i hi a ha h')
    · exact h'.2 j hj ha
  refine ⟨fun j hj => ?_, fun j hj a ha => ?_, fun j hj k hk a ha ha' => ?_⟩
  · by_cases hij : j = i
    · subst hij
      rwa [setList_self]
    · rw [setList_ne hij, hf j hij]
      -- the words of another list are none of those edited
      have hsame : ∀ a ∈ ls j, ∀ u, u = 16 ∨ u = 24 → t.w.mem (a + u) = s.w.mem (a + u) := by
        intro a ha u hu
        apply hm
        intro b hb hw
        have hbm : CollectionInPages.PageMapped s.w.calls b := hb.elim (h.mapped i hi b) (hmap b)
        have hab : a = b := by
          have h1 := (h.mapped j hj a ha).aligned
          have h2 := hbm.aligned
          unfold LinkWord at hw
          omega
        subst hab
        exact hb.elim (fun hb => hij (h.once j hj i hi a ha hb)) (hout j hj hij a ha)
      exact (h.dlist j hj).congr fun a ha => ⟨hsame a ha 24 (Or.inr rfl), hsame a ha 16 (Or.inl rfl)⟩
  · rw [hc]
    by_cases hij : j = i
    · subst hij
      rw [setList_self] at ha
      exact hmap a ha
    · rw [setList_ne hij] at ha
      exact h.mapped j hj a ha
  · by_cases hij : j = i <;> by_cases hik : k = i
    · rw [hij, hik]
    · subst hij
      rw [setList_self] at ha
      rw [setList_ne hik] at ha'
      exact absurd ha (hout k hk hik a ha')
    · subst hik
      rw [setList_self] at ha'
      rw [setList_ne hij] at ha
      exact absurd ha' (hout j hj hij a ha)
    · rw [setList_ne hij] at ha
      rw [setList_ne hik] at ha'
      exact h.once j hj k hk a ha ha'

end FreeLists

/-! ### The edits -/

theorem popFree_spec (h : FreeLists cfg s ls) (hi : i ≤ cfg.max_pages) (hbegin : s.c.freeListBegin i = a)
    (hne : a ≠ 0) :
    Act.wp (popFree cfg i)
      (fun r t => r = a ∧ FreeLists cfg t (setList ls i ((ls i).erase a)) ∧ Edits (FreeWord cfg ls) s t)
      (fun _ => False) s := by
  have hd := h.dlist i hi
  have ha := hbegin ▸ h.first_mem hi (by rwa [hbegin])
  obtain ⟨l, hl⟩ : ∃ l, ls i = a :: l := by
    cases hl : ls i with
    | nil => rw [hl] at ha; cases ha
    | cons b l => rw [hl] at hd; exact ⟨l, by rw [← hd.1, hbegin]⟩
  rw [show (ls i).erase a = l by rw [hl, List.erase_cons_head]]
  rw [hl] at hd
  have hrest := hd.2.2.2
  have hmem : ∀ b ∈ l, b ∈ ls i := fun b hb => by rw [hl]; exact List.mem_cons_of_mem a hb
  have hnext : nextFree s.w.mem a ≠ 0 → nextFree s.w.mem a ∈ l := fun hn => by
    cases l with
    | nil => exact absurd hrest hn
    | cons b l => exact hrest.1 ▸ List.mem_cons_self
  unfold popFree loadNextFree storePrevFree
  simp only [Act.wp_bind, wp_freeListAt, wp_field, wp_setFreeList, Act.wp_when, Act.wp_storeWord, Act.wp_pure]
  rw [hbegin]
  refine ⟨hi, h.mapped_word hi ha (by omega), hi, fun hn => ⟨h.mapped_word hi (hmem _ (hnext hn)) (by omega),
    rfl, ?_, ?_⟩, fun hn => ⟨rfl, ?_, ?_⟩⟩
  · refine h.edit hi rfl (fun j hj => if_neg hj) (fun x hx => store_ne fun he => ?_) ?_
      fun b hb => Or.inl (hmem b hb)
    · exact hx _ (Or.inr (hnext hn)) (Or.inl he)
    · have hpm : ∀ b ∈ l, ∀ u < 4096, b + u = nextFree s.w.mem a + 16 ↔ b = nextFree s.w.mem a ∧ u = 16 :=
        fun b hb u hu => FreeLists.link_eq (h.mapped i hi b (hmem b hb))
          (h.mapped i hi _ (hmem _ (hnext hn))) hu (by omega)
      simp only [if_true]
      rw [hbegin] at hd
      refine hd.pop (fun _ => store_self _ _ _) fun b hb => ⟨store_ne fun he => ?_, fun hbn => store_ne fun he => ?_⟩
      · have := ((hpm b hb 24 (by omega)).mp he).2
        omega
      · exact hbn ((hpm b hb 16 (by omega)).mp he).1
  · exact ⟨rfl, rfl, rfl, fun x hx => store_ne fun he => hx ⟨i, hi, _, hmem _ (hnext hn), Or.inl he⟩⟩
  · refine h.edit hi rfl (fun j hj => if_neg hj) (fun _ _ => rfl) ?_ fun b hb => Or.inl (hmem b hb)
    simp only [if_true]
    rw [hbegin] at hd
    exact hd.pop (fun hn' => absurd hn' hn) fun b _ => ⟨rfl, fun _ => rfl⟩
  · exact ⟨rfl, rfl, rfl, fun _ _ => rfl⟩

/-- A chunk that is on no list, with a null `prevFree`, becomes the first. -/
theorem pushFree_spec (h : FreeLists cfg s ls) (hi : i ≤ cfg.max_pages)
    (ha : CollectionInPages.PageMapped s.w.calls a) (hout : ∀ j ≤ cfg.max_pages, a ∉ ls j)
    (hprev : prevFree s.w.mem a = 0) :
    Act.wp (pushFree cfg i a)
      (fun _ t => FreeLists cfg t (setList ls i (a :: ls i)) ∧
        Edits (fun x => FreeWord cfg ls x ∨ LinkWord a x) s t) (fun _ => False) s := by
  have hd := h.dlist i hi
  have hpos : a ≠ 0 := ha.pos.ne'
  have hword : ∀ {k : ℕ}, k < 4096 → pageState s.w.calls (a + k) = .committed := fun hk =>
    ha.mapped _ ⟨by omega, by omega⟩
  unfold pushFree storeNextFree storePrevFree
  simp only [Act.wp_bind, wp_freeListAt, wp_setFreeList, Act.wp_when, Act.wp_storeWord]
  generalize hb : s.c.freeListBegin i = b at hd ⊢
  have hbm : b ≠ 0 → b ∈ ls i := fun hb0 => by
    cases hl : ls i with
    | nil => rw [hl] at hd; exact absurd hd hb0
    | cons c l => rw [hl] at hd; exact hd.1 ▸ List.mem_cons_self
  have hne : ∀ c ∈ ls i, c ≠ a := fun c hc he => hout i hi (he ▸ hc)
  have hcase : ∀ {c : ℕ}, c ∈ ls i → ∀ {u : ℕ}, u < 4096 → c + u ≠ a + 24 := fun hc u hu he =>
    hne _ hc ((FreeLists.link_eq (h.mapped i hi _ hc) ha hu (by omega)).mp he).1
  refine ⟨hi, hword (by omega), fun hb0 => ⟨h.mapped_word hi (hbm hb0) (by omega), hi, ?_, ?_⟩,
    fun hb0 => ⟨hi, ?_, ?_⟩⟩
  · have hba : b + 16 ≠ a + 16 := fun he => hne b (hbm hb0) (by omega)
    have hpm : ∀ c ∈ ls i, ∀ u < 4096, c + u = b + 16 ↔ c = b ∧ u = 16 := fun c hc u hu =>
      FreeLists.link_eq (h.mapped i hi c hc) (h.mapped i hi b (hbm hb0)) hu (by omega)
    refine h.edit hi rfl (fun j hj => if_neg hj) (fun x hx => ?_) ?_ fun c hc => ?_
    · show store (store _ _ _) _ _ x = _
      rw [store_ne fun he => hx b (Or.inl (hbm hb0)) (Or.inl he),
        store_ne fun he => hx a (Or.inr List.mem_cons_self) (Or.inr he)]
    · simp only [if_true]
      refine hd.push hpos (hout i hi) ?_ ?_ (fun _ => store_self _ _ _) fun c hc => ⟨?_, fun hcb => ?_⟩
      · have hab : a + 24 ≠ b + 16 := fun he => (hcase (hbm hb0) (by omega)) he.symm
        show store (store _ _ _) _ _ (a + 24) = b
        rw [store_ne hab, store_self]
      · show store (store _ _ _) _ _ (a + 16) = 0
        rw [store_ne hba.symm, store_ne (by omega)]
        exact hprev
      · have : c + 24 ≠ b + 16 := fun he => by
          have := ((hpm c hc 24 (by omega)).mp he).2
          omega
        show store (store _ _ _) _ _ (c + 24) = _
        rw [store_ne this, store_ne (hcase hc (by omega))]
        rfl
      · show store (store _ _ _) _ _ (c + 16) = _
        rw [store_ne fun he => hcb ((hpm c hc 16 (by omega)).mp he).1, store_ne (hcase hc (by omega))]
        rfl
    · rcases List.mem_cons.mp hc with rfl | hc
      · exact Or.inr ⟨ha, hout⟩
      · exact Or.inl hc
  · refine ⟨rfl, rfl, rfl, fun x hx => ?_⟩
    show store (store _ _ _) _ _ x = _
    rw [store_ne fun he => hx (Or.inl ⟨i, hi, b, hbm hb0, Or.inl he⟩),
      store_ne fun he => hx (Or.inr (Or.inr he))]
  · rw [not_not] at hb0
    refine h.edit hi rfl (fun j hj => if_neg hj) (fun x hx => store_ne fun he =>
      hx a (Or.inr List.mem_cons_self) (Or.inr he)) ?_ fun c hc => ?_
    · simp only [if_true]
      refine hd.push hpos (hout i hi) (store_self _ _ _) ?_ (fun h' => absurd hb0 h') fun c hc =>
        ⟨store_ne (hcase hc (by omega)), fun _ => store_ne (hcase hc (by omega))⟩
      show store _ _ _ (a + 16) = 0
      rw [store_ne (by omega)]
      exact hprev
    · rcases List.mem_cons.mp hc with rfl | hc
      · exact Or.inr ⟨ha, hout⟩
      · exact Or.inl hc
  · exact ⟨rfl, rfl, rfl, fun x hx => store_ne fun he => hx (Or.inr (Or.inr he))⟩

/-! ### Chunks that leave a list -/

namespace LinkedLists

theorem pos (h : LinkedLists cfg s ls) (hi : i ≤ cfg.max_pages) (ha : a ∈ ls i) : a ≠ 0 :=
  (h.dlist i hi).toChain.ne_null a ha

/-- The words of the headers are words of their own. -/
theorem word_eq (h : LinkedLists cfg s ls) (hi : i ≤ cfg.max_pages) {j b u v : ℕ} (hj : j ≤ cfg.max_pages)
    (ha : a ∈ ls i) (hb : b ∈ ls j) (hu : u < 32) (hv : v < 32) : a + u = b + v ↔ a = b ∧ u = v := by
  by_cases hab : a = b
  · omega
  · have := h.apart i hi j hj a ha b hb hab
    omega

/-- Where a chunk of a list stands: its neighbours. -/
theorem neighbours (h : LinkedLists cfg s ls) (hi : i ≤ cfg.max_pages) (ha : a ∈ ls i) :
    (prevFree s.w.mem a = 0 ↔ s.c.freeListBegin i = a) ∧
      (prevFree s.w.mem a ≠ 0 → prevFree s.w.mem a ∈ ls i) ∧
      (nextFree s.w.mem a ≠ 0 → nextFree s.w.mem a ∈ ls i) := by
  have hd := h.dlist i hi
  have hfirst : s.c.freeListBegin i = a → prevFree s.w.mem a = 0 := fun hb => by
    cases hl : ls i with
    | nil => rw [hl] at ha; cases ha
    | cons b l =>
      rw [hl] at hd
      rw [← hb, hd.1]
      exact hd.2.2.1
  have hinner : s.c.freeListBegin i ≠ a → prevFree s.w.mem a ∈ ls i := fun hb =>
    (hd.prev_mem a ha (Ne.symm hb)).1
  refine ⟨⟨fun hp => ?_, hfirst⟩, fun hp => hinner fun hb => hp (hfirst hb), fun hn => ?_⟩
  · by_contra hb
    exact h.pos hi (hinner hb) hp
  · exact ((hd.toChain.next_mem a ha)).resolve_right hn

/-- One list loses chunks. -/
theorem edit (h : LinkedLists cfg s ls) (hi : i ≤ cfg.max_pages) (hE : Edits (LinkOf (ls i)) s t)
    (hf : ∀ j, j ≠ i → t.c.freeListBegin j = s.c.freeListBegin j)
    (hd : DList (nextFree t.w.mem) (prevFree t.w.mem) 0 0 (t.c.freeListBegin i) l) (hl : ∀ a ∈ l, a ∈ ls i) :
    LinkedLists cfg t (setList ls i l) := by
  have hsub : ∀ j, ∀ a ∈ setList ls i l j, a ∈ ls j := fun j a ha => by
    by_cases hij : j = i
    · subst hij
      rw [setList_self] at ha
      exact hl a ha
    · rwa [setList_ne hij] at ha
  refine ⟨fun j hj => ?_, fun j hj k hk a ha ha' => h.once j hj k hk a (hsub j a ha) (hsub k a ha'),
    fun j hj a ha k hk => ?_, fun j hj k hk a ha b hb => h.apart j hj k hk a (hsub j a ha) b (hsub k b hb)⟩
  · by_cases hij : j = i
    · subst hij
      rwa [setList_self]
    · rw [setList_ne hij, hf j hij]
      -- the words of another list are none of those edited
      have hsame : ∀ a ∈ ls j, ∀ u < 32, t.w.mem (a + u) = s.w.mem (a + u) := fun a ha u hu => by
        apply hE.mem
        intro ⟨b, hb, hw⟩
        have hab : a = b := by
          rcases hw with hw | hw
          · exact ((h.word_eq hj hi ha hb hu (by omega)).mp hw).1
          · exact ((h.word_eq hj hi ha hb hu (by omega)).mp hw).1
        exact hij (h.once j hj i hi a ha (hab ▸ hb))
      exact (h.dlist j hj).congr fun a ha => ⟨hsame a ha 24 (by omega), hsame a ha 16 (by omega)⟩
  · rw [hE.calls]
    exact h.mapped j hj a (hsub j a ha) k hk

/-- The page counts stay. -/
theorem pages (h : LinkedLists cfg s ls) (hi : i ≤ cfg.max_pages) (hE : Edits (LinkOf (ls i)) s t)
    {j b : ℕ} (hj : j ≤ cfg.max_pages) (hb : b ∈ ls j) : getPageCount t.w.mem b = getPageCount s.w.mem b := by
  have hword : t.w.mem b = s.w.mem b := hE.mem b fun ⟨c, hc, hw⟩ => by
    rcases hw with hw | hw
    · exact absurd ((h.word_eq hj hi hb hc (u := 0) (by omega) (by omega)).mp hw).2 (by omega)
    · exact absurd ((h.word_eq hj hi hb hc (u := 0) (by omega) (by omega)).mp hw).2 (by omega)
  unfold getPageCount
  rw [hword]

end LinkedLists

/-- The first half of `removeFromFreeList`: the link to the item leads past it. -/
theorem unlink_spec (h : LinkedLists cfg s ls) (hi : i ≤ cfg.max_pages) (ha : a ∈ ls i)
    (hcls : listOf cfg (getPageCount s.w.mem a) = i) :
    Act.wp (if prevFree s.w.mem a ≠ 0 then unlinkInner cfg a (prevFree s.w.mem a) else unlinkFirst cfg a)
      (fun _ t => Edits (LinkOf (ls i)) s t ∧
        (∀ j, t.c.freeListBegin j =
          if j = i ∧ s.c.freeListBegin i = a then nextFree s.w.mem a else s.c.freeListBegin j) ∧
        prevFree t.w.mem a = prevFree s.w.mem a ∧ nextFree t.w.mem a = nextFree s.w.mem a ∧
        (∀ x, (nextFree s.w.mem a ≠ 0 → x ≠ nextFree s.w.mem a + 16) → t.w.mem x =
          if prevFree s.w.mem a ≠ 0 ∧ x = prevFree s.w.mem a + 24 then nextFree s.w.mem a else s.w.mem x) ∧
        ((∀ b ∈ ls i, sameClass cfg s.w.mem a b = true) → t.w.assertsHold = s.w.assertsHold))
      (fun _ => False) s := by
  obtain ⟨hfirst, hpm, hnm⟩ := h.neighbours hi ha
  have hm := h.mapped i hi a ha
  by_cases hp : prevFree s.w.mem a = 0
  · rw [if_neg (not_not.mpr hp)]
    unfold unlinkFirst loadPageCount loadNextFree storePrevFree
    simp only [Act.wp_bind, wp_field, Act.wp_assertThat, wp_setFreeList, Act.wp_when, Act.wp_storeWord, hcls,
      ne_eq, hp, not_true_eq_false, false_and, if_false, hfirst.mp hp, and_true, decide_true, Bool.and_true]
    refine ⟨hm 0 (by omega), hm 24 (by omega), hi, fun hn =>
      ⟨h.mapped i hi _ (hnm hn) 16 (by omega), ⟨rfl, rfl, rfl, fun x hx => store_ne fun he => ?_⟩,
        fun j => ?_, ?_, ?_, fun x hx => store_ne (hx hn), fun _ => trivial⟩,
      fun hn => ⟨⟨rfl, rfl, rfl, fun _ _ => rfl⟩, fun _ => trivial, trivial, trivial, fun _ _ => trivial,
        fun _ => trivial⟩⟩
    · exact hx ⟨_, hnm hn, Or.inl he⟩
    · trivial
    · show store _ _ _ (a + 16) = 0
      unfold store
      split_ifs
      · rfl
      · exact hp
    · have hne : a + 24 ≠ nextFree s.w.mem a + 16 := fun he => by
        have := ((h.word_eq hi hi ha (hnm hn) (by omega) (by omega)).mp he).2
        omega
      exact store_ne hne
  · rw [if_pos hp]
    have hb : s.c.freeListBegin i ≠ a := fun hb => hp (hfirst.mpr hb)
    have hne : a + 16 ≠ prevFree s.w.mem a + 24 := fun he => by
      have := ((h.word_eq hi hi ha (hpm hp) (by omega) (by omega)).mp he).2
      omega
    unfold unlinkInner loadNextFree storeNextFree
    simp only [Act.wp_bind, wp_field, Act.wp_assertThat, Act.wp_storeWord, ne_eq, hp, not_false_eq_true,
      true_and, hb, and_false, if_false]
    refine ⟨hm 24 (by omega), h.mapped i hi _ (hpm hp) 24 (by omega),
      ⟨rfl, rfl, rfl, fun x hx => store_ne fun he => hx ⟨_, hpm hp, Or.inr he⟩⟩, fun _ => trivial,
      store_ne hne, ?_, fun _ _ => rfl, fun hsame => ?_⟩
    · show store _ _ _ (a + 24) = _
      unfold store
      split_ifs <;> rfl
    · rw [hsame _ (hpm hp), Bool.and_true]

/-- The item `a` is off its list once its neighbours, or the head, are linked past
it, however that was done. -/
theorem LinkedLists.unlinked (h : LinkedLists cfg s ls) (hi : i ≤ cfg.max_pages) (ha : a ∈ ls i)
    (hpm : prevFree s.w.mem a ≠ 0 → prevFree s.w.mem a ∈ ls i)
    (hnm : nextFree s.w.mem a ≠ 0 → nextFree s.w.mem a ∈ ls i) (hE : Edits (LinkOf (ls i)) s t)
    (hf : ∀ j, t.c.freeListBegin j =
      if j = i ∧ s.c.freeListBegin i = a then nextFree s.w.mem a else s.c.freeListBegin j)
    (hx : ∀ x, t.w.mem x = if nextFree s.w.mem a ≠ 0 ∧ x = nextFree s.w.mem a + 16 then prevFree s.w.mem a
      else if prevFree s.w.mem a ≠ 0 ∧ x = prevFree s.w.mem a + 24 then nextFree s.w.mem a
      else s.w.mem x) :
    LinkedLists cfg t (setList ls i ((ls i).erase a)) ∧ Edits (LinkOf (ls i)) s t ∧
      ∀ j, j ≠ i → t.c.freeListBegin j = s.c.freeListBegin j := by
  have hother : ∀ j, j ≠ i → t.c.freeListBegin j = s.c.freeListBegin j := fun j hj => by
    rw [hf, if_neg fun hc => hj hc.1]
  refine ⟨h.edit hi hE hother ?_ fun b hb => List.mem_of_mem_erase hb, hE, hother⟩
  have hbegin : t.c.freeListBegin i =
      if s.c.freeListBegin i = a then nextFree s.w.mem a else s.c.freeListBegin i := by
    rw [hf]
    simp only [true_and]
  rw [hbegin]
  refine (h.dlist i hi).remove ha (fun h0 => h.pos hi h0 rfl) (fun b hb hba => ?_) fun b hb hba => ?_
  · have h1 : ¬ (nextFree s.w.mem a ≠ 0 ∧ b + 24 = nextFree s.w.mem a + 16) := fun hc => by
      have := ((h.word_eq hi hi hb (hnm hc.1) (by omega) (by omega)).mp hc.2).2
      omega
    show t.w.mem (b + 24) = _
    rw [hx, if_neg h1]
    by_cases hbp : b = prevFree s.w.mem a
    · rw [if_pos hbp, if_pos ⟨hbp ▸ h.pos hi hb, by rw [hbp]⟩]
    · rw [if_neg hbp, if_neg fun hc => hbp (by omega)]
      rfl
  · have h1 : ¬ (prevFree s.w.mem a ≠ 0 ∧ b + 16 = prevFree s.w.mem a + 24) := fun hc => by
      have := ((h.word_eq hi hi hb (hpm hc.1) (by omega) (by omega)).mp hc.2).2
      omega
    show t.w.mem (b + 16) = _
    rw [hx]
    by_cases hbn : b = nextFree s.w.mem a
    · rw [if_pos hbn, if_pos ⟨hbn ▸ h.pos hi hb, by rw [hbn]⟩]
    · rw [if_neg hbn, if_neg (fun hc => hbn (by omega)), if_neg h1]
      rfl

/-- `removeFromFreeList` takes its item off the list, wherever it stands. -/
theorem LinkedLists.remove (h : LinkedLists cfg s ls) (hi : i ≤ cfg.max_pages) (ha : a ∈ ls i)
    (hcls : listOf cfg (getPageCount s.w.mem a) = i) :
    Act.wp (removeFromFreeList cfg a)
      (fun _ t => LinkedLists cfg t (setList ls i ((ls i).erase a)) ∧ Edits (LinkOf (ls i)) s t ∧
        (∀ j, j ≠ i → t.c.freeListBegin j = s.c.freeListBegin j) ∧
        ((∀ b ∈ ls i, sameClass cfg s.w.mem a b = true) → t.w.assertsHold = s.w.assertsHold))
      (fun _ => False) s := by
  obtain ⟨hfirst, hpm, hnm⟩ := h.neighbours hi ha
  have hm := h.mapped i hi a ha
  unfold removeFromFreeList
  rw [Act.wp_bind, loadPrevFree, wp_field]
  refine ⟨hm 16 (by omega), ?_⟩
  rw [Act.wp_bind]
  refine Act.wp_mono (unlink_spec h hi ha hcls) ?_ fun _ ht => ht
  intro _ t ht
  obtain ⟨hE, hf, hpa, hna, hx, hassert⟩ := ht
  have hword : ∀ {b k : ℕ}, b ∈ ls i → k < 32 → pageState t.w.calls (b + k) = .committed := fun hb hk => by
    rw [hE.calls]
    exact h.mapped i hi _ hb _ hk
  rw [Act.wp_bind, loadNextFree, wp_field, hna, Act.wp_when]
  refine ⟨hword ha (by omega), fun hn => ?_, fun hn => ?_⟩
  · have hpages : sameClass cfg t.w.mem a (nextFree s.w.mem a) = sameClass cfg s.w.mem a (nextFree s.w.mem a) := by
      unfold sameClass
      rw [h.pages hi hE hi ha, h.pages hi hE hi (hnm hn)]
    unfold unlinkBack loadPrevFree storePrevFree
    simp only [Act.wp_bind, Act.wp_assertThat, wp_field, Act.wp_storeWord, hpa, hpages]
    refine ⟨hword ha (by omega), hword (hnm hn) (by omega), ?_⟩
    rw [← and_assoc, ← and_assoc, and_assoc (b := Edits _ _ _)]
    refine ⟨h.unlinked hi ha hpm hnm ?_ hf fun x => ?_, fun hsame => ?_⟩
    · exact ⟨hE.calls, hE.base, hE.blocks, fun x hx =>
        (store_ne fun he => hx ⟨_, hnm hn, Or.inl he⟩).trans (hE.mem x hx)⟩
    · by_cases hxn : x = nextFree s.w.mem a + 16
      · rw [if_pos ⟨hn, hxn⟩, hxn]
        exact store_self _ _ _
      · rw [if_neg fun hc => hxn hc.2]
        exact (store_ne hxn).trans (hx x fun _ => hxn)
    · rw [hsame _ (hnm hn), Bool.and_true]
      exact hassert hsame
  · rw [← and_assoc, ← and_assoc, and_assoc (b := Edits _ _ _)]
    refine ⟨h.unlinked hi ha hpm hnm hE hf fun x => ?_, hassert⟩
    rw [if_neg fun hc => hn hc.1]
    exact hx x fun hc => absurd hc hn

/-- The same for chunks on mapped pages. -/
theorem removeFromFreeList_spec (h : FreeLists cfg s ls) (hi : i ≤ cfg.max_pages) (ha : a ∈ ls i)
    (hcls : listOf cfg (getPageCount s.w.mem a) = i) :
    Act.wp (removeFromFreeList cfg a)
      (fun _ t => FreeLists cfg t (setList ls i ((ls i).erase a)) ∧ Edits (FreeWord cfg ls) s t)
      (fun _ => False) s := by
  refine Act.wp_mono (h.linked.remove hi ha hcls) ?_ fun _ ht => ht
  intro _ t ht
  obtain ⟨hL, hE, -, -⟩ := ht
  refine ⟨⟨hL.dlist, fun j hj b hb => ?_, hL.once⟩, hE.mono fun x ⟨b, hb, hw⟩ => ⟨i, hi, b, hb, hw⟩⟩
  have hm := h.mapped j hj b ((h.mem_erase hi ha hj).mp hb).1
  exact ⟨hm.aligned, hm.pos, fun x hx => by rw [hE.calls]; exact hm.mapped x hx⟩

/-! ### The edits after an assertion -/

theorem popFree_asserted (v : Bool) (h : FreeLists cfg s ls) (hi : i ≤ cfg.max_pages)
    (hbegin : s.c.freeListBegin i = a) (hne : a ≠ 0) :
    Act.wp (popFree cfg i)
      (fun r t => r = a ∧ FreeLists cfg t (setList ls i ((ls i).erase a)) ∧ Edits (FreeWord cfg ls) s t)
      (fun _ => False) ⟨⟨s.w.calls, s.w.mem, v⟩, s.c⟩ := by
  have hF : FreeLists cfg ⟨⟨s.w.calls, s.w.mem, v⟩, s.c⟩ ls :=
    h.congr (fun _ _ _ _ _ _ => rfl) (fun _ _ => rfl) fun _ _ => rfl
  refine Act.wp_mono (popFree_spec hF hi hbegin hne) ?_ fun _ ht => ht
  intro r t ht
  obtain ⟨hr, hL, hE⟩ := ht
  exact ⟨hr, hL, hE.calls, hE.base, hE.blocks, hE.mem⟩

theorem removeFromFreeList_asserted (v : Bool) (h : FreeLists cfg s ls) (hi : i ≤ cfg.max_pages) (ha : a ∈ ls i)
    (hcls : listOf cfg (getPageCount s.w.mem a) = i) :
    Act.wp (removeFromFreeList cfg a)
      (fun _ t => FreeLists cfg t (setList ls i ((ls i).erase a)) ∧ Edits (FreeWord cfg ls) s t)
      (fun _ => False) ⟨⟨s.w.calls, s.w.mem, v⟩, s.c⟩ := by
  have hF : FreeLists cfg ⟨⟨s.w.calls, s.w.mem, v⟩, s.c⟩ ls :=
    h.congr (fun _ _ _ _ _ _ => rfl) (fun _ _ => rfl) fun _ _ => rfl
  refine Act.wp_mono (removeFromFreeList_spec hF hi ha hcls) ?_ fun _ ht => ht
  intro _ t ht
  obtain ⟨hL, hE⟩ := ht
  exact ⟨hL, hE.calls, hE.base, hE.blocks, hE.mem⟩

end BulkAllocator

end IibMalloc
