/-
# MemoryBlockList: a deque in the items' own headers

A list is a ring of headers through its sentinel, with a 32-bit count. Its four
operations are run next to a sequence of items, the reference: `pushFront` puts
an item in front, `popFront` and `popBack` take the first and the last, and
`remove` takes any one.

`deque_run`: the ring is the sequence, in every run in which an item that is
pushed is in no list, one that is removed is in this one, and nothing is popped
from an empty list. The count is the length as far as 32 bits go: a list of
`2 ^ 32` items counts as empty (`not_deque_run`).
-/
import IibMalloc.PageCache

namespace IibMalloc

open Lib

namespace PageAllocatorWithCaching

/-! ### The other operations -/

def listInitializeEmpty (p : ItemPtr) : Act (St PageAllocatorWithCaching) Unit := do
  Act.onSelf fun c => c.setItem p fun i => { i with next := p }
  Act.onSelf fun c => c.setItem p fun i => { i with prev := p }

/-- `MemoryBlockList::initialize` of `freeBlocks[ix]` -/
def initList (ix : ℕ) : Act (St PageAllocatorWithCaching) Unit := do
  Act.onSelf fun c => { c with count := fun i => if i = ix then 0 else c.count i }
  listInitializeEmpty (.lst ix)

/-- `MemoryBlockList::popBack` of `freeBlocks[ix]` -/
def popBack (ix : ℕ) : Act (St PageAllocatorWithCaching) ItemPtr := do
  let count ← Act.read fun s => s.c.count ix
  Act.assert (decide (count ≠ 0))
  let chk ← Act.read fun s => (s.c.items (.lst ix)).prev
  removeFromList chk
  Act.onSelf fun c => { c with count := fun i => if i = ix then (c.count i + (2 ^ 32 - 1)) % 2 ^ 32 else c.count i }
  return chk

/-- `MemoryBlockList::remove` of `freeBlocks[ix]` -/
def remove (ix : ℕ) (chk : ItemPtr) : Act (St PageAllocatorWithCaching) Unit := do
  removeFromList chk
  Act.onSelf fun c => { c with count := fun i => if i = ix then (c.count i + (2 ^ 32 - 1)) % 2 ^ 32 else c.count i }

end PageAllocatorWithCaching

namespace MemoryBlockList

open PageAllocatorWithCaching

/-! ### Runs -/

inductive ListOp where
  | pushFront (chk : ItemPtr)
  | popFront
  | popBack
  | remove (chk : ItemPtr)

namespace ListOp

/-- The operation on the list `freeBlocks[ix]`, with what it returns. -/
def call (ix : ℕ) : ListOp → Act (St PageAllocatorWithCaching) (Option ItemPtr)
  | pushFront chk => do
    PageAllocatorWithCaching.pushFront ix chk
    return none
  | popFront => do
    let chk ← PageAllocatorWithCaching.popFront ix
    return some chk
  | popBack => do
    let chk ← PageAllocatorWithCaching.popBack ix
    return some chk
  | remove chk => do
    PageAllocatorWithCaching.remove ix chk
    return none

/-- What becomes of the sequence. -/
def apply : ListOp → List ItemPtr → List ItemPtr
  | pushFront chk, l => chk :: l
  | popFront, l => l.tail
  | popBack, l => l.dropLast
  | remove chk, l => l.erase chk

/-- The item that leaves the sequence. -/
def taken : ListOp → List ItemPtr → Option ItemPtr
  | pushFront _, _ => none
  | popFront, l => l.head?
  | popBack, l => l.getLast?
  | remove chk, _ => some chk

/-- The item that is to be returned. -/
def returned : ListOp → List ItemPtr → Option ItemPtr
  | pushFront _, _ => none
  | popFront, l => l.head?
  | popBack, l => l.getLast?
  | remove _, _ => none

/-- What `popFront` and `popBack` assert themselves, of the count. -/
def asserted : ListOp → ℕ → Bool
  | popFront, count => decide (count ≠ 0)
  | popBack, count => decide (count ≠ 0)
  | pushFront _, _ => true
  | remove _, _ => true

end ListOp

structure ListRun where
  s : St PageAllocatorWithCaching
  /-- the sequence -/
  seq : List ItemPtr
  /-- what the last operation returned -/
  result : Option ItemPtr

/-- The item is in no list. -/
def Unlinked (c : PageAllocatorWithCaching) (p : ItemPtr) : Prop :=
  (c.items p).next = .null ∧ (c.items p).prev = .null

instance (c : PageAllocatorWithCaching) (p : ItemPtr) : Decidable (Unlinked c p) := by
  unfold Unlinked
  infer_instance

namespace ListRun

def step (ix : ℕ) (r : ListRun) (op : ListOp) : Option ListRun :=
  match Act.exec (op.call ix) r.s with
  | .ret a t => some ⟨t, op.apply r.seq, a⟩
  | .throw _ => none
  | .stuck => none

/-- The state after `initialize`, from any state. -/
def Starts (ix : ℕ) (r : ListRun) : Prop := ∃ s, Act.exec (initList ix) s = .ret () r.s ∧ r.seq = []

end ListRun

/-- An item that is pushed is in no list, one that is removed is in this one, and
nothing is popped from an empty list. -/
def Allowed (r : ListRun) : ListOp → Prop
  | .pushFront chk => chk ≠ .null ∧ Unlinked r.s.c chk
  | .popFront => r.seq ≠ []
  | .popBack => r.seq ≠ []
  | .remove chk => chk ∈ r.seq

instance (r : ListRun) : (op : ListOp) → Decidable (Allowed r op)
  | .pushFront _ => inferInstanceAs (Decidable (_ ∧ _))
  | .popFront => inferInstanceAs (Decidable (_ ≠ _))
  | .popBack => inferInstanceAs (Decidable (_ ≠ _))
  | .remove _ => inferInstanceAs (Decidable (_ ∈ _))

/-- What is asked of an operation: the ring is the sequence, an item that was
taken out is in no list, the items keep their sizes, and all assertions hold but,
perhaps, its own of the count. -/
structure Meets (ix : ℕ) (r : ListRun) (op : ListOp) (r' : ListRun) : Prop where
  seq : r'.seq = op.apply r.seq
  ring : Ring (fun p => (r'.s.c.items p).next) (fun p => (r'.s.c.items p).prev) (.lst ix) r'.seq
  count : r'.s.c.count ix = r'.seq.length % 2 ^ 32
  result : r'.result = op.returned r.seq
  out : ∀ p ∈ op.taken r.seq, Act.exec (isInList p) r'.s = .ret false r'.s
  sizes : ∀ p, (r'.s.c.items p).size = (r.s.c.items p).size ∧
    (r'.s.c.items p).sizeIndex = (r.s.c.items p).sizeIndex
  asserts : r'.s.w.assertsHold = (r.s.w.assertsHold && op.asserted (r.s.c.count ix))

/-- The ring is the sequence, and the count its length as far as 32 bits go. -/
structure ListInv (ix : ℕ) (s : St PageAllocatorWithCaching) (l : List ItemPtr) : Prop where
  ring : Ring (fun p => (s.c.items p).next) (fun p => (s.c.items p).prev) (.lst ix) l
  items : ∀ p ∈ l, p ≠ .null
  count : s.c.count ix = l.length % 2 ^ 32

variable {ix : ℕ} {s t : St PageAllocatorWithCaching} {l l₁ l₂ : List ItemPtr} {p : ItemPtr} {op : ListOp}
  {r r₀ : ListRun} {ops : List ListOp} {ps : List ItemPtr}

theorem exec_isInList (h : Unlinked s.c p) : Act.exec (isInList p) s = .ret false s := by
  have hwp : Act.wp (isInList p) (fun a t => a = false ∧ t = s) (fun _ => False) s := by
    simp only [isInList, Act.wp_bind, Act.wp_read]
    rw [if_pos ⟨h.2, h.1⟩, Act.wp_pure]
    exact ⟨rfl, rfl⟩
  obtain ⟨_, t, hx, rfl, rfl⟩ := Act.returns hwp
  exact hx

/-- A linked item has links. -/
theorem ListInv.not_mem (h : ListInv ix s l) (hp : Unlinked s.c p) : p ∉ .lst ix :: l := by
  intro hm
  rcases List.mem_cons.mp (hp.1 ▸ (h.ring.links_mem hm).1 : ItemPtr.null ∈ .lst ix :: l) with he | hl
  · cases he
  · exact h.items _ hl rfl

/-! ### The operations -/

/-- What an operation leaves that takes the item `p` out, where `b` is what it
asserts itself. -/
structure Removes (ix : ℕ) (s : St PageAllocatorWithCaching) (p : ItemPtr) (l : List ItemPtr) (b : Bool)
    (t : St PageAllocatorWithCaching) : Prop where
  inv : ListInv ix t l
  unlinked : Unlinked t.c p
  sizes : ∀ q, (t.c.items q).size = (s.c.items q).size ∧ (t.c.items q).sizeIndex = (s.c.items q).sizeIndex
  asserts : t.w.assertsHold = (s.w.assertsHold && b)

theorem remove_spec (h : ListInv ix s (l₁ ++ p :: l₂)) :
    Act.wp (PageAllocatorWithCaching.remove ix p) (fun _ t => Removes ix s p (l₁ ++ l₂) true t)
      (fun _ => False) s := by
  unfold PageAllocatorWithCaching.remove
  rw [Act.wp_bind]
  refine Act.wp_mono (takeOut_spec l₁ l₂ h.ring h.items) ?_ fun _ ht => ht
  intro _ t ⟨hw, ⟨hcount, _, _⟩, hsizes, hring, hunlinked, _⟩
  rw [Act.wp_onSelf]
  refine ⟨⟨hring, fun q hq => h.items q ?_, ?_⟩, hunlinked, hsizes, ?_⟩
  · exact ((List.sublist_cons_self p l₂).append_left l₁).subset hq
  · show (if ix = ix then (t.c.count ix + (2 ^ 32 - 1)) % 2 ^ 32 else t.c.count ix) = _
    have hlen := h.count
    rw [List.length_append, List.length_cons] at hlen
    rw [if_pos rfl, hcount, hlen, List.length_append]
    omega
  · show t.w.assertsHold = _
    rw [hw, Bool.and_true]

/-- What `popFront` and `popBack` do, once they know the item. -/
theorem pop_spec (l₁ l₂ : List ItemPtr) (h : ListInv ix s (l₁ ++ p :: l₂)) (b : Bool) :
    Act.wp (do
        Act.assert b
        removeFromList p
        Act.onSelf fun c =>
          { c with count := fun i => if i = ix then (c.count i + (2 ^ 32 - 1)) % 2 ^ 32 else c.count i }
        return p : Act (St PageAllocatorWithCaching) ItemPtr)
      (fun a t => a = p ∧ Removes ix s p (l₁ ++ l₂) b t) (fun _ => False) s := by
  have hspec := remove_spec (s := { s with w.assertsHold := s.w.assertsHold && b }) ⟨h.ring, h.items, h.count⟩
  rw [PageAllocatorWithCaching.remove, Act.wp_bind] at hspec
  simp only [Act.wp_bind, Act.wp_assert]
  refine Act.wp_mono hspec ?_ fun _ ht => ht
  intro _ t ht
  rw [Act.wp_onSelf] at ht ⊢
  rw [Act.wp_pure]
  exact ⟨rfl, ht.inv, ht.unlinked, ht.sizes, ht.asserts.trans (Bool.and_true _)⟩

theorem popFront_spec (h : ListInv ix s (p :: l)) :
    Act.wp (PageAllocatorWithCaching.popFront ix)
      (fun a t => a = p ∧ Removes ix s p l (decide (s.c.count ix ≠ 0)) t) (fun _ => False) s := by
  have hfirst : (s.c.items (.lst ix)).next = p := h.ring.first
  have hspec := pop_spec [] l h (decide (s.c.count ix ≠ 0))
  simp only [Act.wp_bind, Act.wp_assert] at hspec
  simp only [PageAllocatorWithCaching.popFront, Act.wp_bind, Act.wp_read, Act.wp_assert, hfirst]
  exact hspec

theorem popBack_spec (h : ListInv ix s (l ++ [p])) :
    Act.wp (PageAllocatorWithCaching.popBack ix)
      (fun a t => a = p ∧ Removes ix s p l (decide (s.c.count ix ≠ 0)) t) (fun _ => False) s := by
  have hlast : (s.c.items (.lst ix)).prev = p := h.ring.last
  have hspec := pop_spec l [] h (decide (s.c.count ix ≠ 0))
  rw [List.append_nil] at hspec
  simp only [Act.wp_bind, Act.wp_assert] at hspec
  simp only [popBack, Act.wp_bind, Act.wp_read, Act.wp_assert, hlast]
  exact hspec

/-- An item that is pushed leaves the other items that are in no list there. -/
theorem pushFront_spec (h : ListInv ix s l) (hnull : p ≠ .null) (hp : Unlinked s.c p) :
    Act.wp (PageAllocatorWithCaching.pushFront ix p)
      (fun _ t => ListInv ix t (p :: l) ∧ t.w = s.w ∧
        (∀ q, (t.c.items q).size = (s.c.items q).size ∧ (t.c.items q).sizeIndex = (s.c.items q).sizeIndex) ∧
        ∀ q ≠ p, Unlinked s.c q → Unlinked t.c q) (fun _ => False) s := by
  unfold PageAllocatorWithCaching.pushFront
  rw [Act.wp_bind]
  refine Act.wp_mono (putIn_spec h.ring h.items (h.not_mem hp) hp.1 hp.2) ?_ fun _ ht => ht
  intro _ t ⟨hw, ⟨hcount, _, _⟩, hsizes, hring, hlinks⟩
  rw [Act.wp_onSelf]
  refine ⟨⟨hring, fun q hq => ?_, ?_⟩, hw, hsizes, fun q hqp hq => ?_⟩
  · rcases List.mem_cons.mp hq with rfl | hq
    · exact hnull
    · exact h.items q hq
  · show (if ix = ix then (t.c.count ix + 1) % 2 ^ 32 else t.c.count ix) = _
    rw [if_pos rfl, hcount, h.count, List.length_cons]
    omega
  · obtain ⟨hn, hp⟩ := hlinks q (mt List.mem_cons.mp (not_or.mpr ⟨hqp, h.not_mem hq⟩))
    exact ⟨hn.trans hq.1, hp.trans hq.2⟩

/-! ### The runs -/

theorem Removes.meets (op : ListOp) {a : Option ItemPtr} (h : Removes ix r.s p l (op.asserted (r.s.c.count ix)) t)
    (hl : op.apply r.seq = l) (htaken : op.taken r.seq = some p) (ha : op.returned r.seq = a) :
    Meets ix r op ⟨t, op.apply r.seq, a⟩ ∧ ListInv ix t (op.apply r.seq) := by
  subst hl ha
  refine ⟨⟨rfl, h.inv.ring, h.inv.count, rfl, fun q hq => ?_, h.sizes, h.asserts⟩, h.inv⟩
  obtain rfl : p = q := Option.some.inj (htaken.symm.trans hq)
  exact exec_isInList h.unlinked

theorem call_spec (h : ListInv ix r.s r.seq) (hok : Allowed r op) :
    Act.wp (op.call ix) (fun a t => Meets ix r op ⟨t, op.apply r.seq, a⟩ ∧ ListInv ix t (op.apply r.seq))
      (fun _ => False) r.s := by
  obtain ⟨s, seq, result⟩ := r
  cases op with
  | pushFront chk =>
    obtain ⟨hnull, hchk⟩ := hok
    rw [ListOp.call, Act.wp_bind]
    refine Act.wp_mono (pushFront_spec h hnull hchk) ?_ fun _ ht => ht
    intro _ t ⟨hinv, hw, hsizes, _⟩
    rw [Act.wp_pure]
    refine ⟨⟨rfl, hinv.ring, hinv.count, rfl, fun q hq => ?_, hsizes, ?_⟩, hinv⟩
    · cases hq
    · show t.w.assertsHold = (s.w.assertsHold && true)
      rw [hw, Bool.and_true]
  | popFront =>
    obtain ⟨p, l, rfl⟩ := List.exists_cons_of_ne_nil hok
    rw [ListOp.call, Act.wp_bind]
    refine Act.wp_mono (popFront_spec h) ?_ fun _ ht => ht
    rintro _ t ⟨rfl, ht⟩
    rw [Act.wp_pure]
    exact Removes.meets .popFront ht rfl rfl rfl
  | popBack =>
    obtain ⟨l, p, rfl⟩ : ∃ l p, seq = l ++ [p] := ⟨_, _, (List.dropLast_concat_getLast hok).symm⟩
    rw [ListOp.call, Act.wp_bind]
    refine Act.wp_mono (popBack_spec h) ?_ fun _ ht => ht
    rintro _ t ⟨rfl, ht⟩
    rw [Act.wp_pure]
    exact Removes.meets .popBack ht List.dropLast_concat List.getLast?_concat List.getLast?_concat
  | remove chk =>
    obtain ⟨l₁, l₂, -, rfl, herase⟩ := List.exists_erase_eq (show chk ∈ seq from hok)
    rw [ListOp.call, Act.wp_bind]
    refine Act.wp_mono (remove_spec h) ?_ fun _ ht => ht
    intro _ t ht
    rw [Act.wp_pure]
    exact Removes.meets (.remove chk) ht herase rfl rfl

theorem step_spec (h : ListInv ix r.s r.seq) (hok : Allowed r op) :
    ∃ r', r.step ix op = some r' ∧ Meets ix r op r' ∧ ListInv ix r'.s r'.seq := by
  obtain ⟨a, t, hx, hmeets⟩ := Act.returns (call_spec h hok)
  exact ⟨⟨t, op.apply r.seq, a⟩, by rw [ListRun.step, hx], hmeets⟩

theorem ListRun.Starts.inv (h : r₀.Starts ix) : ListInv ix r₀.s r₀.seq := by
  obtain ⟨s, hs, hl⟩ := h
  have hspec : Act.wp (initList ix) (fun _ t => ListInv ix t []) (fun _ => False) s := by
    simp only [initList, listInitializeEmpty, Act.wp_bind, Act.wp_onSelf]
    refine ⟨Ring.empty ?_ ?_, fun p hp => ?_, ?_⟩
    · simp [setItem]
    · simp [setItem]
    · cases hp
    · simp [setItem]
  rw [hl]
  exact Act.exec_ret hspec hs

/-- Before `initialize`, with all items in no list. -/
def raw : St PageAllocatorWithCaching := ⟨⟨[], fun _ => 7, true⟩, ⟨fun _ => 0, fun _ => ⟨.null, .null, 0, 0⟩, {}, 0⟩⟩

def ListRun.fresh : ListRun :=
  match Act.exec (initList 0) raw with
  | .ret _ s => ⟨s, [], none⟩
  | .throw s => ⟨s, [], none⟩
  | .stuck => ⟨raw, [], none⟩

theorem ListRun.fresh_starts : ListRun.fresh.Starts 0 := ⟨raw, rfl, rfl⟩

/-- After `initialize`, the list is the sequence in every run, with the count as
far as 32 bits go. -/
theorem deque_run (h₀ : r₀.Starts ix) (hok : Admits (ListRun.step ix) Allowed r₀ ops) :
    Along (ListRun.step ix) (Meets ix) r₀ ops :=
  Along.of_admits (fun _ _ h hok => step_spec h hok) h₀.inv hok

theorem deque_run_five : Along (ListRun.step 0) (Meets 0) .fresh
    [.pushFront (.block 32), .pushFront (.block 64), .popBack, .pushFront (.block 96), .remove (.block 64)] :=
  deque_run ListRun.fresh_starts ((Admits.of_run (by decide +kernel)).mono fun _ _ h => of_decide_eq_true h)

/-! ### A list of `2 ^ 32` items -/

/-- The items can be pushed one after the other. -/
structure Pushable (s : St PageAllocatorWithCaching) (ps : List ItemPtr) : Prop where
  nodup : ps.Nodup
  unlinked : ∀ p ∈ ps, p ≠ .null ∧ Unlinked s.c p

theorem step_push (h : ListInv ix r.s r.seq) (hps : Pushable r.s (p :: ps)) :
    ∃ r', r.step ix (.pushFront p) = some r' ∧ ListInv ix r'.s r'.seq ∧ Pushable r'.s ps ∧
      r'.seq.length = r.seq.length + 1 := by
  obtain ⟨hnull, hp⟩ := hps.unlinked p List.mem_cons_self
  obtain ⟨hnot, hnodup⟩ := List.nodup_cons.mp hps.nodup
  have hspec : Act.wp ((ListOp.pushFront p).call ix)
      (fun _ t => ListInv ix t (p :: r.seq) ∧ ∀ q ≠ p, Unlinked r.s.c q → Unlinked t.c q) (fun _ => False) r.s := by
    rw [ListOp.call, Act.wp_bind]
    refine Act.wp_mono (pushFront_spec h hnull hp) ?_ fun _ ht => ht
    intro _ t ⟨hinv, _, _, hkeep⟩
    rw [Act.wp_pure]
    exact ⟨hinv, hkeep⟩
  obtain ⟨a, t, hx, hinv, hkeep⟩ := Act.returns hspec
  refine ⟨⟨t, p :: r.seq, a⟩, by rw [ListRun.step, hx]; rfl, hinv, ⟨hnodup, fun q hq => ?_⟩, rfl⟩
  obtain ⟨hqnull, hq'⟩ := hps.unlinked q (List.mem_cons_of_mem p hq)
  exact ⟨hqnull, hkeep q (ne_of_mem_of_not_mem hq hnot) hq'⟩

theorem admits_pushes : ∀ {ps : List ItemPtr} {r : ListRun}, ListInv ix r.s r.seq → Pushable r.s ps →
    Admits (ListRun.step ix) Allowed r (ps.map .pushFront)
  | [], _, _, _ => trivial
  | p :: ps, r, h, hps => by
    refine ⟨hps.unlinked p List.mem_cons_self, fun t ht => ?_⟩
    obtain ⟨r', hr', hinv, hpush, -⟩ := step_push h hps
    obtain rfl : r' = t := Option.some.inj (hr'.symm.trans ht)
    exact admits_pushes hinv hpush

/-- The count is not the length all along, where the items pushed bring the list
to `2 ^ 32` items. -/
theorem not_counted : ∀ {ps : List ItemPtr} {r : ListRun}, ListInv ix r.s r.seq → Pushable r.s ps →
    r.seq.length < 2 ^ 32 → 2 ^ 32 ≤ r.seq.length + ps.length →
    ¬ Along (ListRun.step ix) (fun _ _ r' => r'.s.c.count ix = r'.seq.length) r (ps.map .pushFront)
  | [], _, _, _, hlt, hge => fun _ => by
    rw [List.length_nil, Nat.add_zero] at hge
    exact absurd hlt (Nat.not_lt.mpr hge)
  | p :: ps, r, h, hps, _, hge => by
    rintro ⟨t, ht, hcount, hrest⟩
    obtain ⟨r', hr', hinv, hpush, hlen⟩ := step_push h hps
    obtain rfl : r' = t := Option.some.inj (hr'.symm.trans ht)
    have hlt : r'.seq.length < 2 ^ 32 := by
      rw [← hcount, hinv.count]
      exact Nat.mod_lt _ (by norm_num)
    refine not_counted hinv hpush hlt ?_ hrest
    rw [List.length_cons] at hge
    omega

/-- `n` items, in the first `32 * n` bytes after the first 32. -/
def manyItems (n : ℕ) : List ItemPtr := (List.range n).map fun i => .block (32 * (i + 1))

theorem fresh_pushable (n : ℕ) : Pushable ListRun.fresh.s (manyItems n) := by
  refine ⟨List.nodup_range.map fun i j hij => ?_, fun p hp => ?_⟩
  · have := ItemPtr.block.inj hij
    omega
  · obtain ⟨i, -, rfl⟩ := List.mem_map.mp hp
    exact ⟨ItemPtr.noConfusion, rfl, rfl⟩

/-- The count is not the length in every run: once `2 ^ 32` items were pushed it is
0 again. -/
theorem not_deque_run : ¬ ∀ ix r₀ ops, ListRun.Starts ix r₀ → Admits (ListRun.step ix) Allowed r₀ ops →
    Along (ListRun.step ix) (fun _ _ r => r.s.c.count ix = r.seq.length) r₀ ops := by
  intro h
  have hinv : ListInv 0 ListRun.fresh.s ListRun.fresh.seq := ListRun.fresh_starts.inv
  -- the number of items is kept a variable, so that the list is never evaluated
  obtain ⟨n, hn⟩ : ∃ n, n = 2 ^ 32 := ⟨_, rfl⟩
  have hlen : (manyItems n).length = n := by rw [manyItems, List.length_map, List.length_range]
  have hseq : ListRun.fresh.seq.length = 0 := rfl
  have hrun := h 0 .fresh _ ListRun.fresh_starts (admits_pushes hinv (fresh_pushable n))
  refine not_counted hinv (fresh_pushable n) ?_ ?_ hrun
  · omega
  · omega

end MemoryBlockList

end IibMalloc
