/-
# SerializableAllocatorBase: what a call leaves alone

`SerialStep` says what a call, or a write of the client, may do to the world:
what is mapped and neither held by the allocator nor by its client stays as it
is, what is taken was not mapped, and what is not held any more was given back,
unless the block of a request was lost. `SerialInv.moved` is the step with the
invariant, and with what the client has written: a word that it holds before
and after is changed by nothing but its own write.

`SerialInv.unchanged`: the invariant needs of the world only what is held.
-/
import IibMalloc.SerializableRuns
import IibMalloc.BulkContent
import IibMalloc.BulkFailure
import IibMalloc.Lib.Bytes

namespace IibMalloc

open Lib

namespace SerializableAllocatorBase

open SoundingAddressPageAllocator
open BulkAllocator (BulkInv BulkStep BulkWord Writable Kept release mem_release MergesLive chunkBytes bulkAllocatorT_fits)

/-- An address that the allocator holds, or its client. -/
def SerialGhost.Holds (γ : SerialGhost) (live : List (ℕ × ℕ)) (x : ℕ) : Prop :=
  γ.pages.Held pageAllocatorT x ∨ γ.bulk.Owned bulkAllocatorT (chunksOf live) x

/-- A call leaves alone what is mapped and not held, and takes only what was not
mapped; what is mapped is held or was before, unless memory was `lost`. -/
structure SerialStep (γ : SerialGhost) (live : List (ℕ × ℕ)) (γ' : SerialGhost) (live' : List (ℕ × ℕ)) (w w' : World)
    (lost : Prop) : Prop where
  frame : Unchanged (fun x => Mapped w.calls x ∧ ¬ γ.Holds live x) w w'
  fresh : ∀ x, γ'.Holds live' x → γ.Holds live x ∨ ¬ Mapped w.calls x
  cover : ¬ lost → ∀ x, Mapped w'.calls x → γ'.Holds live' x ∨ Mapped w.calls x ∧ ¬ γ.Holds live x

/-- The request is for a chunk of a block that is lost. -/
def SerialOp.Loses (os : Os) (s : St SerializableAllocatorBase) : SerialOp → Prop
  | .allocate sz => MaxBucketSize < sz ∧ LosesChunk os s sz
  | _ => False

instance (os : Os) (s : St SerializableAllocatorBase) : (op : SerialOp) → Decidable (op.Loses os s)
  | .allocate sz => inferInstanceAs (Decidable (MaxBucketSize < sz ∧
      BulkAllocator.Loses bulkAllocatorT os ⟨s.w, s.c.bulkAllocator⟩ (u64 (sz + memForbidden))))
  | .deallocate _ | .write _ _ => inferInstanceAs (Decidable False)

variable {os : Os} {s t : St SerializableAllocatorBase} {γ γ' : SerialGhost} {segs : List Segment}
  {live live' : List (ℕ × ℕ)} {r r' : SerialRun} {op : SerialOp} {e : ℕ × ℕ} {a p sz x : ℕ} {w w' : World}
  {lost : Prop}

/-- An address of what the client got for the request `e`. -/
def InRegion (e : ℕ × ℕ) (x : ℕ) : Prop :=
  (e.2 ≤ MaxBucketSize ∧ Within e.1 (itemSize e.2) x) ∨
    (MaxBucketSize < e.2 ∧ Within (e.1 - memForbidden) (chunkBytes (u64 (e.2 + memForbidden))) x)

/-- The client's words are in its regions. -/
theorem Owns.inRegion (ha : Owns [e] a) : InRegion e a := by
  obtain ⟨-, ⟨e', he', hs, h1, h2⟩ | ⟨-, c, hc, h1, h2⟩⟩ := ha
  · obtain rfl := List.mem_singleton.mp he'
    exact Or.inl ⟨hs, h1, by omega⟩
  · obtain ⟨e', he', rfl⟩ := List.mem_map.mp hc
    obtain ⟨he', hb⟩ := List.mem_filter.mp he'
    obtain rfl := List.mem_singleton.mp he'
    simp only at h1 h2
    exact Or.inr ⟨of_decide_eq_true hb, by omega, by omega⟩

/-- The bytes requested, where the size does not wrap around. -/
theorem inRegion_of_within (hsz : e.2 + memForbidden ≤ 2 ^ 64 - PAGE_SIZE) (hoff : MaxBucketSize < e.2 → e.1 % 4096 = 16)
    (hx : Within e.1 e.2 x) : InRegion e x := by
  rcases Nat.lt_or_ge MaxBucketSize e.2 with hb | hs
  · have hle := BulkAllocator.le_chunkBytes (e.2 + memForbidden)
    rw [memForbidden_eq, PAGE_SIZE_eq] at hsz
    have hu : u64 (e.2 + memForbidden) = e.2 + memForbidden := u64_of_lt (by rw [memForbidden_eq]; omega)
    have := hoff hb
    unfold Within at hx
    refine Or.inr ⟨hb, ?_⟩
    rw [hu]
    rw [memForbidden_eq] at hle ⊢
    exact ⟨by omega, by omega⟩
  · have := le_itemSize hs
    exact Or.inl ⟨hs, hx.1, by have := hx.2; omega⟩

namespace SerialInv

theorem nodup_unique (h : SerialInv s γ segs live) {e' : ℕ × ℕ} (he : e ∈ live) (he' : e' ∈ live)
    (hfst : e.1 = e'.1) : e = e' := List.inj_on_of_nodup_map h.nodup he he' hfst

theorem holds_mapped (h : SerialInv s γ segs live) (hx : γ.Holds live x) : Mapped s.w.calls x :=
  hx.elim (fun hx => h.pages.held_mapped hx) fun hx => h.bulk.owned_mapped hx

/-- The invariant needs of the world only what is held. -/
theorem unchanged (h : SerialInv s γ segs live) (hw : Unchanged (γ.Holds live) s.w w') :
    SerialInv ⟨w', s.c⟩ γ segs live := by
  refine
    { h with
      bulk := h.bulk.unchanged rfl h.bulk.idle fun x hx => hw x (Or.inr hx)
      pages := h.pages.transport fun x hx => (hw x (Or.inl hx)).1
      chains := fun i hi => (h.chains i hi).congr fun b hb => (hw b (Or.inl ?_)).2 }
  have hitem := h.listed i hi b hb
  exact h.item_held hitem (h.item_self hitem)

/-! ### The words of the client -/

/-- A word of the client is one of an item, which the page allocator holds, or of
a chunk, which the bulk allocator holds. -/
theorem owns_cases (h : SerialInv s γ segs live) (ha : Owns live a) :
    (γ.pages.Held pageAllocatorT a ∧ ∃ e ∈ live, e.2 ≤ MaxBucketSize ∧ Within e.1 (itemSize e.2) a) ∨
      (¬ γ.pages.Held pageAllocatorT a ∧ Writable (chunksOf live) a ∧
        γ.bulk.Owned bulkAllocatorT (chunksOf live) a) := by
  obtain ⟨-, ⟨e, he, hs, h1, h2⟩ | hw⟩ := ha
  · have hin : Within e.1 (itemSize e.2) a := ⟨h1, by omega⟩
    exact Or.inl ⟨h.item_held (h.small e he hs).1 hin, e, he, hs, hin⟩
  · have hown := h.bulk.writable_owned bulkAllocatorT_fits hw
    exact Or.inr ⟨h.apart a hown, hw, hown⟩

theorem owns_holds (h : SerialInv s γ segs live) (ha : Owns live a) : γ.Holds live a :=
  (h.owns_cases ha).elim (fun hx => Or.inl hx.1) fun hx => Or.inr hx.2.2

/-- An address of a region of the client is held and committed. -/
theorem region_held (h : SerialInv s γ segs live) (he : e ∈ live) (hx : InRegion e x) :
    γ.Holds live x ∧ pageState s.w.calls x = .committed := by
  rcases hx with ⟨hs, hin⟩ | ⟨hb, hin⟩
  · have hitem := (h.small e he hs).1
    exact ⟨Or.inl (h.item_held hitem hin), h.item_committed hitem hin⟩
  · have hown := h.bulk.live_bytes_owned bulkAllocatorT_fits (mem_chunksOf he hb) hin
    exact ⟨Or.inr hown, h.bulk.mapped x hown⟩

/-- Regions of the client that meet are one. -/
theorem region_unique (h : SerialInv s γ segs live) {e' : ℕ × ℕ} (he : e ∈ live) (he' : e' ∈ live)
    (hx : InRegion e x) (hx' : InRegion e' x) : e = e' := by
  -- an item and a chunk are in different hands
  have hcross : ∀ {e e'}, e ∈ live → e' ∈ live → e.2 ≤ MaxBucketSize → Within e.1 (itemSize e.2) x →
      MaxBucketSize < e'.2 → ¬ Within (e'.1 - memForbidden) (chunkBytes (u64 (e'.2 + memForbidden))) x :=
    fun he he' hs hin hb hin' => h.apart x (h.bulk.live_bytes_owned bulkAllocatorT_fits (mem_chunksOf he' hb) hin')
      (h.item_held (h.small _ he hs).1 hin)
  have hfst : e.1 = e'.1 := by
    rcases hx with ⟨hs, hin⟩ | ⟨hb, hin⟩ <;> rcases hx' with ⟨hs', hin'⟩ | ⟨hb', hin'⟩
    · exact (h.segments.item_unique (h.small e he hs).1 (h.small e' he' hs').1 hin hin').2
    · exact (hcross he he' hs hin hb' hin').elim
    · exact (hcross he' he hs' hin' hb hin).elim
    · have huniq := h.bulk.live_unique bulkAllocatorT_fits (mem_chunksOf he hb) (mem_chunksOf he' hb') hin hin'
      have h1 := h.large e he hb
      have h2 := h.large e' he' hb'
      simp only [memForbidden_eq] at huniq
      omega
  exact h.nodup_unique he he' hfst

/-- The client's words after a call of the page allocator. -/
theorem owns_small (h : SerialInv s γ segs live) (hS : SmallStep γ γ' live s.w w') (ha : Owns live a) :
    w'.mem a = s.w.mem a := by
  rcases h.owns_cases ha with ⟨-, e, he, hs, hin⟩ | ⟨hnot, -, hown⟩
  · exact hS.items e he hs a hin
  · exact (hS.frame a ⟨h.bulk.owned_mapped hown, hnot⟩).2

/-- The client's words after a call of the bulk allocator. -/
theorem owns_bulk (h : SerialInv s γ segs live)
    (hframe : Unchanged (fun x => Mapped s.w.calls x ∧ ¬ γ.bulk.Owned bulkAllocatorT (chunksOf live) x) s.w w')
    (hkept : Writable (chunksOf live) a → w'.mem a = s.w.mem a) (ha : Owns live a) : w'.mem a = s.w.mem a := by
  rcases h.owns_cases ha with ⟨hheld, -⟩ | ⟨-, hw, -⟩
  · exact (hframe a ⟨h.pages.held_mapped hheld, fun ho => h.apart a ho hheld⟩).2
  · exact hkept hw

end SerialInv

/-! ### The kinds of step -/

theorem SmallStep.serial (hS : SmallStep γ γ' live w w') (hbulk : γ'.bulk = γ.bulk)
    (hchunks : chunksOf live' = chunksOf live) : SerialStep γ live γ' live' w w' lost := by
  refine ⟨hS.frame.mono fun x hx => ⟨hx.1, fun hh => hx.2 (Or.inl hh)⟩, fun x hx => ?_, fun _ x hx => ?_⟩
  · rcases hx with hx | hx
    · exact (hS.fresh x hx).imp Or.inl id
    · rw [hbulk, hchunks] at hx
      exact Or.inl (Or.inr hx)
  · unfold SerialGhost.Holds
    rw [hbulk, hchunks]
    rcases hS.cover x hx with hh | ⟨hm, hn⟩
    · exact Or.inl (Or.inl hh)
    · by_cases ho : γ.bulk.Owned bulkAllocatorT (chunksOf live) x
      · exact Or.inl (Or.inr ho)
      · exact Or.inr ⟨hm, not_or.mpr ⟨hn, ho⟩⟩

theorem SerialStep.of_bulk {g : BulkAllocator.BulkGhost}
    (hB : BulkStep bulkAllocatorT γ.bulk (chunksOf live) g (chunksOf live') w w') :
    SerialStep γ live { γ with bulk := g } live' w w' lost := by
  refine ⟨hB.frame.mono fun x hx => ⟨hx.1, fun ho => hx.2 (Or.inr ho)⟩, fun x hx => ?_, fun _ x hx => ?_⟩
  · rcases hx with hx | hx
    · exact Or.inl (Or.inl hx)
    · exact (hB.fresh x hx).imp Or.inr id
  · rcases hB.cover x hx with ho | ⟨hm, hn⟩
    · exact Or.inl (Or.inr ho)
    · by_cases hh : γ.pages.Held pageAllocatorT x
      · exact Or.inl (Or.inl hh)
      · exact Or.inr ⟨hm, not_or.mpr ⟨hh, hn⟩⟩

/-- What only touches regions that were not mapped. -/
theorem SerialStep.of_mapped (hw : Unchanged (Mapped w.calls) w w')
    (hl : ¬ lost → ∀ x, Mapped w'.calls x → Mapped w.calls x) : SerialStep γ live γ live w w' lost :=
  ⟨hw.mono fun _ hx => hx.1, fun _ hx => Or.inl hx, fun h x hx => (em (γ.Holds live x)).imp_right fun hn =>
    ⟨hl h x hx, hn⟩⟩

/-- One word that is held was written. -/
theorem SerialStep.of_word (hcalls : w'.calls = w.calls) (hmem : ∀ x, x ≠ a → w'.mem x = w.mem x)
    (ha : γ.Holds live a) (hpages : γ'.pages = γ.pages) (hbulk : γ'.bulk = γ.bulk)
    (hchunks : chunksOf live' = chunksOf live) : SerialStep γ live γ' live' w w' lost := by
  have hholds : ∀ x, γ'.Holds live' x ↔ γ.Holds live x := fun x => by
    unfold SerialGhost.Holds
    rw [hpages, hbulk, hchunks]
  refine ⟨fun x hx => ⟨by rw [hcalls], hmem x ?_⟩, fun x hx => Or.inl ((hholds x).mp hx), fun _ x hx => ?_⟩
  · rintro rfl
    exact hx.2 ha
  · rw [hholds]
    exact (em (γ.Holds live x)).imp_right fun hn => ⟨hcalls ▸ hx, hn⟩

theorem Served.bulk (hS : Served os s γ sz p γ') : γ'.bulk = γ.bulk := by
  cases hS <;> rfl

theorem bulk_allocate_keeps (os : Os) (h : SerialInv s γ segs live) (hc : Counted sz) {b : ℕ}
    (hx : Act.exec (bulk (BulkAllocator.allocate bulkAllocatorT os (u64 (sz + memForbidden)))) s = .ret b t) :
    Kept (chunksOf live) s.w t.w := by
  have hw : Act.wp (bulk (BulkAllocator.allocate bulkAllocatorT os (u64 (sz + memForbidden))))
      (fun _ t => Kept (chunksOf live) s.w t.w) (fun _ => True) s := by
    rw [bulk, Act.wp_onPart]
    exact BulkAllocator.allocate_keeps os (s := ⟨s.w, s.c.bulkAllocator⟩) h.bulk bulkAllocatorT_fits hc
  exact Act.exec_ret hw hx

theorem bulk_deallocate_keeps (h : SerialInv s γ segs live) (he : (p, sz) ∈ live) (hbig : MaxBucketSize < sz)
    (hm : ¬ MergesLive s.w.mem (chunksOf live) (p - memForbidden)) {u : Unit}
    (hx : Act.exec (bulk (BulkAllocator.deallocate bulkAllocatorT (p - memForbidden))) s = .ret u t) :
    Kept (chunksOf (release p live)) s.w t.w := by
  have hmem : (p - memForbidden, u64 (sz + memForbidden)) ∈ chunksOf live := mem_chunksOf (e := (p, sz)) he hbig
  have hw : Act.wp (bulk (BulkAllocator.deallocate bulkAllocatorT (p - memForbidden)))
      (fun _ t => Kept (chunksOf (release p live)) s.w t.w) (fun _ => False) s := by
    rw [bulk, Act.wp_onPart, chunksOf_release_large h.large h.nodup he hbig]
    exact BulkAllocator.deallocate_keeps (s := ⟨s.w, s.c.bulkAllocator⟩) h.bulk bulkAllocatorT_fits hmem hm
  exact Act.exec_ret hw hx

/-- An item given back: its first word is written. -/
theorem push_world (h : SerialInv s γ segs live) (he : (p, sz) ∈ live) (hsz : sz ≤ MaxBucketSize) {u : Unit}
    (hx : Act.exec (pushItem (sizeToIndexHalfExp sz) p) s = .ret u t) :
    t.w.calls = s.w.calls ∧ ∀ x, x ≠ p → t.w.mem x = s.w.mem x := by
  obtain ⟨hitem, -⟩ := h.small _ he hsz
  have hw : Act.wp (pushItem (sizeToIndexHalfExp sz) p)
      (fun _ t => t.w.calls = s.w.calls ∧ ∀ x, x ≠ p → t.w.mem x = s.w.mem x) (fun _ => False) s := by
    rw [wp_pushItem]
    exact ⟨index_lt hsz, h.item_committed hitem (h.item_self hitem), rfl, fun x hx => store_ne hx⟩
  exact Act.exec_ret hw hx

/-! ### One step -/

/-- What the client holds after a step. -/
theorem SerialRun.step_live (hs : r.step os op = some r') :
    match op with
    | .allocate sz => r'.live = r.live ∨ ∃ p, r'.live = (p, sz) :: r.live
    | .deallocate p => r'.live = release p r.live
    | .write a v => Owns r.live a ∧ r'.live = r.live ∧ r'.s.w.mem a = v := by
  unfold SerialRun.step at hs
  split_ifs at hs with hop
  cases op with
  | allocate sz =>
    simp only at hs ⊢
    split at hs
    · obtain rfl := Option.some.inj hs
      exact Or.inr ⟨_, rfl⟩
    · obtain rfl := Option.some.inj hs
      exact Or.inl rfl
    · cases hs
  | deallocate p =>
    simp only at hs ⊢
    split at hs
    · obtain rfl := Option.some.inj hs
      rfl
    · obtain rfl := Option.some.inj hs
      rfl
    · cases hs
  | write a v =>
    obtain rfl := Option.some.inj hs
    exact ⟨hop.1, rfl, store_self _ _ _⟩

/-- A call that returns, as a step. -/
theorem SerialRun.step_allocate (hsz : sz < 2 ^ 64) (hx : Act.exec (allocate os sz) r.s = .ret p t) :
    r.step os (.allocate sz) = some ⟨t, (p, sz) :: r.live, requested os r.s sz ++ r.segs⟩ := by
  unfold SerialRun.step
  rw [if_pos (show SerialOp.Allowed r.live (.allocate sz) from hsz)]
  simp only [hx]

theorem SerialRun.step_deallocate {u : Unit} (hp : p ∈ r.live.map Prod.fst)
    (hx : Act.exec (deallocate p) r.s = .ret u t) :
    r.step os (.deallocate p) = some ⟨t, release p r.live, r.segs⟩ := by
  unfold SerialRun.step
  rw [if_pos (show SerialOp.Allowed r.live (.deallocate p) from Or.inr hp)]
  simp only [hx]

namespace SerialInv

/-- What a step makes of the world: the invariant, the frame, and the words that
the client holds before and after, which only its own write changes. -/
theorem moved (h : SerialInv r.s γ r.segs r.live) (hok : KeepsChunks r op) (hs : r.step os op = some r') :
    ∃ γ', SerialInv r'.s γ' r'.segs r'.live ∧ SerialStep γ r.live γ' r'.live r.s.w r'.s.w (op.Loses os r.s ∧ r'.live = r.live) ∧
      ∀ a, Owns r.live a → Owns r'.live a → (∀ v, op ≠ .write a v) → r'.s.w.mem a = r.s.w.mem a := by
  unfold SerialRun.step at hs
  split_ifs at hs with hop
  cases op with
  | allocate sz =>
    simp only at hs
    rcases Nat.lt_or_ge MaxBucketSize sz with hbig | hsz
    · have hreq : requested os r.s sz = [] := if_neg fun hc => by omega
      rw [allocate_large os hbig, hreq, List.nil_append] at hs
      by_cases hc : Counted sz
      · have hspec := large_step os h hbig hc
        split at hs
        · obtain rfl := Option.some.inj hs
          obtain ⟨g, hI, -, hx, hB⟩ := Act.exec_ret hspec ‹_›
          exact ⟨_, hI, .of_bulk hB, fun a ha _ _ => h.owns_bulk hB.frame (bulk_allocate_keeps os h hc hx a) ha⟩
        · obtain rfl := Option.some.inj hs
          obtain ⟨hI, hw, hl⟩ := Act.exec_throw hspec ‹_›
          exact ⟨γ, hI, .of_mapped hw fun h => hl fun hc => h ⟨⟨hbig, hc⟩, rfl⟩,
            fun a ha _ _ => (hw a (h.holds_mapped (h.owns_holds ha))).2⟩
        · cases hs
      · rw [large_stuck os hc] at hs
        cases hs
    · have hspec := allocate_small_step os h hsz
      split at hs
      · obtain rfl := Option.some.inj hs
        obtain ⟨γ', hS, hI, hw⟩ := Act.exec_ret hspec ‹_›
        exact ⟨γ', hI, hw.serial hS.bulk (chunksOf_small hsz), fun a ha _ _ => h.owns_small hw ha⟩
      · obtain rfl := Option.some.inj hs
        obtain ⟨hreq, g, hI, hw⟩ := Act.exec_throw hspec ‹_›
        rw [hreq, List.nil_append]
        exact ⟨_, hI, hw.serial rfl rfl, fun a ha _ _ => h.owns_small hw ha⟩
      · cases hs
  | deallocate p =>
    simp only at hs
    rcases hop with rfl | hmem
    · rw [exec_deallocate_null, h.release_null] at hs
      obtain rfl := Option.some.inj hs
      exact ⟨γ, h, .of_mapped .refl fun _ _ hx => hx, fun _ _ _ _ => rfl⟩
    obtain ⟨⟨_, sz⟩, he, rfl⟩ := List.mem_map.mp hmem
    rcases Nat.lt_or_ge MaxBucketSize sz with hbig | hsz
    · have hm := h.keeps_chunk he hbig hok
      have hspec := release_step h he hbig hm
      rw [h.deallocate_large he hbig] at hs
      split at hs
      · obtain rfl := Option.some.inj hs
        have hx := ‹Act.exec _ r.s = _›
        obtain ⟨g, hI, hB⟩ := Act.exec_ret hspec hx
        refine ⟨_, hI, .of_bulk hB, fun a ha ha' _ => ?_⟩
        rcases hI.owns_cases ha' with ⟨hheld, -⟩ | ⟨-, hw, -⟩
        · exact (hB.frame a ⟨h.pages.held_mapped hheld, fun ho => h.apart a ho hheld⟩).2
        · exact bulk_deallocate_keeps h he hbig hm hx a hw
      · exact (Act.exec_throw hspec ‹_›).elim
      · cases hs
    · have hspec := push_spec h he hsz
      rw [h.deallocate_small he hsz] at hs
      split at hs
      · obtain rfl := Option.some.inj hs
        have hx := ‹Act.exec _ r.s = _›
        obtain ⟨hcalls, hword⟩ := push_world h he hsz hx
        obtain ⟨hitem, -⟩ := h.small _ he hsz
        have hheld := h.item_held hitem (h.item_self hitem)
        refine ⟨_, Act.exec_ret hspec hx, .of_word hcalls hword (Or.inl hheld) rfl rfl
          (chunksOf_release_small h.nodup he hsz), fun a _ ha' _ => hword a ?_⟩
        -- the item given back is not one of those held afterwards
        rintro rfl
        rcases (Act.exec_ret hspec hx).owns_cases ha' with ⟨-, e, her, hse, hin⟩ | ⟨hnot, -⟩
        · obtain ⟨he', hne⟩ := (mem_release h.nodup).mp her
          exact hne (h.segments.item_unique (h.small e he' hse).1 hitem hin (h.item_self hitem)).2
        · exact hnot hheld
      · exact (Act.exec_throw hspec ‹_›).elim
      · cases hs
  | write a v =>
    obtain rfl := Option.some.inj hs
    refine ⟨γ, h.write hop.1 v, .of_word rfl (fun x hx => store_ne hx) (h.owns_holds hop.1) rfl rfl rfl,
      fun b _ _ hne => store_ne ?_⟩
    rintro rfl
    exact hne v rfl

end SerialInv

/-! ### The words of the invariant -/

/-- A word that the invariant speaks of: one of the bulk allocator's, or the link
of an item on a list. -/
def SerialWord (γ : SerialGhost) (live : List (ℕ × ℕ)) (x : ℕ) : Prop :=
  BulkWord bulkAllocatorT γ.bulk (chunksOf live) x ∨ ∃ i < BucketCount, x ∈ γ.lists i

namespace SerialInv

/-- The invariant needs no other words. -/
theorem of_words (h : SerialInv s γ segs live) (hcalls : t.w.calls = s.w.calls) (hc : t.c = s.c)
    (hm : ∀ x, SerialWord γ live x → t.w.mem x = s.w.mem x) : SerialInv t γ segs live := by
  have hbulk : BulkInv bulkAllocatorT ⟨t.w, t.c.bulkAllocator⟩ γ.bulk (chunksOf live) := by
    refine h.bulk.transport (by rw [hc]) ?_ (by rw [hc]) (by rw [hc]; exact h.bulk.idle) (fun x _ => ?_)
      fun x hx => hm x (Or.inl hx)
    · rw [hc]
      exact hcalls ▸ h.bulk.coll
    · simp only [hcalls]
  refine { h with bulk := hbulk, pages := ?_, chains := fun i hi => ?_ }
  · rw [hcalls, hc]
    exact h.pages
  · rw [hc]
    exact (h.chains i hi).congr fun a ha => hm a (Or.inr ⟨i, hi, ha⟩)

/-- An address of an item is one of 64 bits. -/
theorem item_lt (h : SerialInv s γ segs live) {i : ℕ} (ha : IsItem segs i a)
    (hx : Within a (indexToBucketSizeHalfExp i) x) : x < 2 ^ 64 := by
  obtain ⟨σ, -, hσ, -, -, hw⟩ := h.segment ha
  obtain ⟨p, hp, hin⟩ := h.pages.out_inBlock (hσ.out (hw x hx))
  have hlt := (h.pages.blockAt p hp).lt
  exact hin.2.trans hlt

theorem item_dvd (h : SerialInv s γ segs live) {i : ℕ} (ha : IsItem segs i a) : 8 ∣ a := by
  obtain ⟨σ, -, hσ, -, hmem, -⟩ := h.segment ha
  exact hσ.item_dvd hmem

/-- Such a word is at a multiple of eight, and holds a number of 64 bits. -/
theorem word (h : SerialInv s γ segs live) (hx : SerialWord γ live x) : 8 ∣ x ∧ s.w.mem x < 2 ^ 64 := by
  rcases hx with hx | ⟨i, hi, hx⟩
  · exact h.bulk.word bulkAllocatorT_fits hx
  · refine ⟨h.item_dvd (h.listed i hi x hx), ?_⟩
    rcases (h.chains i hi).next_mem x hx with hn | hn
    · have hitem := h.listed i hi _ hn
      exact h.item_lt hitem (h.item_self hitem)
    · rw [hn]
      norm_num

/-- It is none of the client's. -/
theorem owns_not_word (h : SerialInv s γ segs live) (ha : Owns live a) : ¬ SerialWord γ live a := by
  rcases h.owns_cases ha with ⟨hheld, e, he, hs, hin⟩ | ⟨hnot, hw, -⟩
  · rintro (hx | ⟨i, hi, hx⟩)
    · exact h.apart a (h.bulk.word_owned hx) hheld
    · exact h.listed_apart he hs hi hx hin
  · rintro (hx | ⟨i, hi, hx⟩)
    · exact h.bulk.writable_not_word bulkAllocatorT_fits hw hx
    · have hitem := h.listed i hi a hx
      exact hnot (h.item_held hitem (h.item_self hitem))

/-- The word of a byte that the client asked for. -/
theorem owns_byte (h : SerialInv s γ segs live) (he : e ∈ live) (hc : e.2 + memForbidden ≤ 2 ^ 64 - PAGE_SIZE)
    (hx : Within e.1 e.2 x) : Owns live (x - x % 8) := by
  obtain ⟨h1, h2⟩ := hx
  rcases Nat.lt_or_ge MaxBucketSize e.2 with hb | hs
  · have hoff := h.large e he hb
    have hle := BulkAllocator.le_chunkBytes (e.2 + memForbidden)
    rw [memForbidden_eq, PAGE_SIZE_eq] at hc
    have hu : u64 (e.2 + memForbidden) = e.2 + memForbidden := u64_of_lt (by rw [memForbidden_eq]; omega)
    have hdvd : 4096 ∣ BulkAllocator.chunkBytes (e.2 + memForbidden) := ⟨_, Nat.mul_comm _ _⟩
    refine ⟨by omega, Or.inr ⟨by omega, _, mem_chunksOf he hb, ?_, ?_⟩⟩
    · simp only [memForbidden_eq]
      omega
    · simp only [hu]
      rw [memForbidden_eq] at hle hdvd ⊢
      omega
  · obtain ⟨hitem, -⟩ := h.small e he hs
    obtain ⟨σ, -, hσ, hidx, hmem, -⟩ := h.segment hitem
    have h8 := hσ.item_dvd hmem
    have hd := hσ.bucketSz.dvd
    have hle := le_itemSize hs
    unfold Segment.bucketSz at hd
    rw [hidx] at hd
    refine ⟨by omega, Or.inl ⟨e, he, hs, by omega, ?_⟩⟩
    unfold itemSize at hle ⊢
    omega

/-! ### A memory of bytes -/

/-- The allocator finds its words as it left them. -/
theorem put_back (h : SerialInv s γ segs live) (m : ℕ → ℕ) (hcalls : t.w.calls = s.w.calls) (hc : t.c = s.c)
    (hm : t.w.mem = Lib.word (putWords m s.w.mem)) : SerialInv t γ segs live := by
  refine h.of_words hcalls hc fun x hx => ?_
  obtain ⟨h8, hlt⟩ := h.word hx
  rw [hm]
  exact word_putWords h8 hlt

/-- The client finds the bytes of its regions as it left them. -/
theorem bytes_kept {segs' : List Segment} {m : ℕ → ℕ} (h : SerialInv s γ segs live) (h' : SerialInv t γ' segs' live')
    (hs : s.w.mem = Lib.word m) (hmem : ∀ b, Owns live b → Owns live' b → t.w.mem b = s.w.mem b) (he : e ∈ live)
    (he' : e ∈ live') (hc : e.2 + memForbidden ≤ 2 ^ 64 - PAGE_SIZE) (hx : Within e.1 e.2 x) :
    putWords m t.w.mem x = m x := by
  refine putWords_of_eq ?_
  rw [← hs]
  exact hmem _ (h.owns_byte he hc hx) (h'.owns_byte he' hc hx)

/-- The bytes of the client are no part of the allocator's words. -/
theorem bytes_written {m m' : ℕ → ℕ} (h : SerialInv s γ segs live) (hcalls : t.w.calls = s.w.calls) (hc : t.c = s.c)
    (hs : s.w.mem = Lib.word m) (ht : t.w.mem = Lib.word m') (hsz : ∀ e ∈ live, e.2 + memForbidden ≤ 2 ^ 64 - PAGE_SIZE)
    (hm : ∀ x, (∀ e ∈ live, ¬ Within e.1 e.2 x) → m' x = m x) : SerialInv t γ segs live := by
  refine h.of_words hcalls hc fun x hx => ?_
  obtain ⟨h8, -⟩ := h.word hx
  rw [hs, ht]
  refine word_congr fun y h1 h2 => hm y fun e he hy => ?_
  have hown := h.owns_byte he (hsz e he) hy
  rw [show y - y % 8 = x by omega] at hown
  exact h.owns_not_word hown hx

/-! ### What a call returns -/

/-- A request that is served gets bytes at addresses of 64 bits, and not null. -/
theorem allocate_bounds (h : SerialInv s γ segs live) (hc : sz + memForbidden ≤ 2 ^ 64 - PAGE_SIZE)
    (hx : Act.exec (allocate os sz) s = .ret p t) : p ≠ 0 ∧ p + sz ≤ 2 ^ 64 := by
  have hcount := hc
  rw [memForbidden_eq, PAGE_SIZE_eq] at hcount
  rcases Nat.lt_or_ge MaxBucketSize sz with hbig | hsz
  · have hu : u64 (sz + memForbidden) = sz + memForbidden := u64_of_lt (by rw [memForbidden_eq]; omega)
    have hC : Counted sz := by
      unfold Counted
      rw [hu, memForbidden_eq]
      omega
    have hlt : Act.wp (SerializableAllocatorBase.bulk (BulkAllocator.allocate bulkAllocatorT os (u64 (sz + memForbidden))))
        (fun b _ => b + chunkBytes (u64 (sz + memForbidden)) < 2 ^ 64) (fun _ => True) s := by
      rw [SerializableAllocatorBase.bulk, Act.wp_onPart]
      exact BulkAllocator.allocate_lt os (s := ⟨s.w, s.c.bulkAllocator⟩) h.bulk bulkAllocatorT_fits hC
    rw [allocate_large os hbig] at hx
    obtain ⟨g, -, hoff, hb, -⟩ := Act.exec_ret (large_step os h hbig hC) hx
    have hend := Act.exec_ret hlt hb
    have hle := BulkAllocator.le_chunkBytes (sz + memForbidden)
    rw [hu] at hend
    rw [memForbidden_eq] at hle hend
    omega
  · obtain ⟨γ', -, hI, -⟩ := Act.exec_ret (allocate_small_step os h hsz) hx
    obtain ⟨hitem, -⟩ := hI.small (p, sz) List.mem_cons_self hsz
    have hle := le_itemSize hsz
    have hself : Within p (itemSize sz) p := hI.item_self hitem
    have hlast : Within p (itemSize sz) (p + itemSize sz - 1) := by
      have := hself.2
      exact ⟨by omega, by omega⟩
    have hend := hI.item_lt hitem hlast
    exact ⟨hI.item_pos hitem, by omega⟩

/-- What is held can be given back. -/
theorem deallocate_ret (h : SerialInv s γ segs live) (he : (p, sz) ∈ live)
    (hok : KeepsChunks ⟨s, live, segs⟩ (.deallocate p)) : ∃ t, Act.exec (deallocate p) s = .ret () t := by
  rcases Nat.lt_or_ge MaxBucketSize sz with hbig | hsz
  · obtain ⟨_, t, hx, -⟩ := Act.returns (release_step h he hbig (h.keeps_chunk he hbig hok))
    exact ⟨t, (h.deallocate_large he hbig).trans hx⟩
  · obtain ⟨_, t, hx, -⟩ := Act.returns (push_spec h he hsz)
    exact ⟨t, (h.deallocate_small he hsz).trans hx⟩

end SerialInv

end SerializableAllocatorBase

end IibMalloc
