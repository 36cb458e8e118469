import AbcMalloc.Book
import AbcMalloc.Buddy.Operations

/-! Runs of `__buddy_list`: a fresh pool satisfies the invariant, every step of a client keeps
it, and the invariant is read back as conditions on tags, lists, mask and tail headers. -/
namespace AbcMalloc.Buddy
open Function Foundation

def buddyBook : Book Heap where
  header := 0
  allocate := allocate
  temporalAllocate := temporalAllocate
  tombstone := tombstone
  deallocate := deallocate
  isAllocated := isAllocated
  isTombstoned := isTombstoned
  isTemporal := isTemporal
  blockSize := blockSize
  used h := h.ctl.allocatedBytes
  tombstoned h := h.ctl.tombstonedBytes
  store h x c := { h with mem := h.mem.store x c }

/-! ## Initialisation -/

def freshBlocks (s : BuddyList) : Blocks :=
  update (fun _ => none) s.base (some (s.orderSize (s.maxOrder - 1), s.maxOrder - 1, .free))

structure Fresh (h : Heap) : Prop where
  geo : Geometry h.ctl
  tags : ∀ t, t < h.ctl.tagCount →
    h.ctl.blockTags t = if t = 0 then tagFree (h.ctl.maxOrder - 1) else 255
  lists : h.ctl.freeLists = update (fun _ => 0) (h.ctl.maxOrder - 1) h.ctl.base
  mask : h.ctl.freeMask = 1#64 <<< (h.ctl.maxOrder - 1)
  caches : ∀ o, h.ctl.tcache o = 0 ∧ h.ctl.tcacheCount o = 0
  next : h.mem.next h.ctl.base = 0

theorem freshBlocks_eq_some {s : BuddyList} {a : ℕ} {v : ℕ × ℕ × Kind}
    (h : freshBlocks s a = some v) :
    a = s.base ∧ v = (s.orderSize (s.maxOrder - 1), s.maxOrder - 1, .free) := by
  unfold freshBlocks at h
  by_cases hab : a = s.base
  · rw [hab, update_self] at h
    exact ⟨hab, (Option.some.inj h).symm⟩
  · rw [update_of_ne hab] at h
    exact absurd h (by simp)

theorem Fresh.lists_eq {h : Heap} (hF : Fresh h) :
    FreeLists h.ctl h.mem (freshBlocks h.ctl)
      (update (fun _ => []) (h.ctl.maxOrder - 1) [h.ctl.base]) := by
  have hord := hF.geo.order_pos
  have h64 := hF.geo.order_le
  have hlist : ∀ o, update (fun _ => []) (h.ctl.maxOrder - 1) [h.ctl.base] o =
      if o = h.ctl.maxOrder - 1 then [h.ctl.base] else [] := fun o => update_apply _ _ _ _
  refine ⟨fun o => ?_, fun o => ?_, fun o b => ?_, fun o => ?_, fun o => ?_, fun o ho => ?_⟩
  · rw [hlist]
    split_ifs
    · exact ⟨_, rfl, hF.next, trivial⟩
    · exact ⟨0, trivial⟩
  · rw [hlist, hF.lists, update_apply]
    split_ifs <;> rfl
  · rw [hlist]
    constructor
    · intro hb
      split_ifs at hb with ho
      · rw [List.mem_singleton.1 hb, ho]
        exact ⟨_, update_self _ _ _⟩
      · simp at hb
    · rintro ⟨n, hn⟩
      obtain ⟨hb, hv⟩ := freshBlocks_eq_some hn
      cases hv
      simp [hb]
  · rw [hlist]
    split_ifs <;> simp
  · rw [hlist]
    split_ifs
    · simpa using hF.geo.base_pos.ne
    · simp
  · have hset := getLsbD_setBit 0#64 (k := h.ctl.maxOrder - 1) (by omega) o
    rw [BitVec.zero_or, BitVec.getLsbD_zero, Bool.false_or] at hset
    rw [hlist, hF.mask, hset, decide_eq_true_eq]
    split_ifs with h0 <;> simp [h0]

theorem Fresh.inv {h : Heap} (hF : Fresh h) : Inv h (freshBlocks h.ctl) := by
  have hlimit : h.ctl.limit = h.ctl.base + h.ctl.orderSize (h.ctl.maxOrder - 1) := rfl
  have hpow := orderSize_pos h.ctl (h.ctl.maxOrder - 1)
  have hord := hF.geo.order_pos
  have hfree : ∀ {a n o k}, freshBlocks h.ctl a = some (n, o, k) → k = .free := by
    intro a n o k ha
    obtain ⟨-, hv⟩ := freshBlocks_eq_some ha
    cases hv
    rfl
  refine ⟨⟨hF.geo, ⟨fun _ => ⟨_, _, update_self _ _ _⟩, fun {a n k} ha => ?_, fun {a n k} ha => ?_,
    fun {a n k} ha => ?_, fun {a n k} ha => ?_, fun {a n k x} ha h₁ h₂ => ?_⟩,
    fun {a n o k} ha => ?_, fun {a n o k} ha => ?_, fun t ht => ?_, ⟨_, hF.lists_eq⟩,
    ⟨fun _ => [], ?_⟩, fun ha => by cases hfree ha⟩, fun a n o ha ho n' _ => ?_,
    fun ha => by cases hfree ha⟩
  · obtain ⟨-, hv⟩ := freshBlocks_eq_some ha
    cases hv
    exact hpow
  · exact (freshBlocks_eq_some ha).1.ge
  · obtain ⟨rfl, hv⟩ := freshBlocks_eq_some ha
    cases hv
    exact le_of_eq hlimit.symm
  · obtain ⟨rfl, hv⟩ := freshBlocks_eq_some ha
    cases hv
    exact Or.inl hlimit.symm
  · obtain ⟨rfl, -⟩ := freshBlocks_eq_some ha
    exact update_of_ne (by omega) _ _
  · obtain ⟨-, hv⟩ := freshBlocks_eq_some ha
    cases hv
    exact ⟨rfl, by omega⟩
  · obtain ⟨rfl, -⟩ := freshBlocks_eq_some ha
    rw [Nat.sub_self]
    exact Nat.dvd_zero _
  · rw [hF.tags t ht]
    by_cases h0 : t = 0
    · rw [h0, Nat.zero_mul, Nat.add_zero, freshBlocks, update_self]
      rfl
    · have : h.ctl.base + t * 2 ^ h.ctl.minLog ≠ h.ctl.base := by
        have := Nat.mul_pos (Nat.pos_of_ne_zero h0) (Nat.two_pow_pos h.ctl.minLog)
        omega
      rw [if_neg h0, freshBlocks, update_of_ne this]
      rfl
  · refine ⟨fun _ => trivial, fun o => (hF.caches o).1, fun o => (hF.caches o).2, fun o b => ?_,
      fun _ => List.nodup_nil, fun _ => by simp⟩
    simp only [List.not_mem_nil, false_iff, not_exists]
    intro n hn
    cases hfree hn
  · obtain ⟨-, hv⟩ := freshBlocks_eq_some ha
    cases hv
    omega

theorem formatPool_fresh {minLog base total : ℕ} {m : Mem} {ext : Bool} {tags : ℕ → ℕ}
    (hmin : 5 ≤ minLog) (hbase : 0 < base) (hdvd : 2 ^ minLog ∣ total) (hpos : 2 ^ minLog ≤ total)
    (htop : base + total < 2 ^ 64) : Fresh (formatPool minLog m base total ext tags) := by
  have hunits : 0 < total / 2 ^ minLog := Nat.div_pos hpos (Nat.two_pow_pos _)
  have hlog : 2 ^ (total / 2 ^ minLog).log2 ≤ total / 2 ^ minLog := Nat.log2_self_le hunits.ne'
  have hspan : 2 ^ (minLog + (total / 2 ^ minLog).log2) ≤ total := by
    rw [Nat.pow_add, Nat.mul_comm]
    exact (Nat.mul_le_mul_right _ hlog).trans (Nat.div_mul_le_self _ _)
  have hsmall : minLog + (total / 2 ^ minLog).log2 < 64 :=
    (Nat.pow_lt_pow_iff_right (by norm_num)).1 (show 2 ^ _ < 2 ^ 64 by omega)
  have hmax : min 64 ((total / 2 ^ minLog).log2 + 1) = (total / 2 ^ minLog).log2 + 1 := by omega
  refine ⟨⟨hmin, hbase, ?_, ?_, ?_, hdvd, htop, rfl⟩, fun t ht => ?_, rfl, rfl,
    fun _ => ⟨rfl, rfl⟩, ?_⟩
  · show 0 < min 64 _
    omega
  · exact Nat.min_le_left _ _
  · show 2 ^ (minLog + (min 64 _ - 1)) ≤ total
    rw [hmax, Nat.add_sub_cancel]
    exact hspan
  · show update _ ((base - base) / 2 ^ minLog) _ t = _
    rw [Nat.sub_self, Nat.zero_div, update_apply]
    split_ifs with h0
    · rfl
    · exact if_pos ht
  · show (m.setNext base 0).next base = 0
    rw [Mem.setNext_next, update_self]

structure Accepted (h : Heap) (ptr len : ℕ) : Prop where
  fresh : Fresh h
  lower : ptr ≤ h.ctl.base
  upper : h.ctl.base + h.ctl.total ≤ ptr + len

theorem initMemory_accepted {minLog ptr len : ℕ} {m : Mem} {ext : Bool} {tags : ℕ → ℕ}
    (hmin : 5 ≤ minLog) (hlen : ptr + len < 2 ^ 64)
    (hacc : (initMemory minLog m ptr len ext tags).ctl.base ≠ 0) :
    Accepted (initMemory minLog m ptr len ext tags) ptr len := by
  have hM := Nat.two_pow_pos minLog
  have hempty : (BuddyList.empty minLog).base = 0 := rfl
  set r := (ptr + 7) % 2 ^ 64 / 8 * 8 with hr
  set adjust := (r + (2 ^ 64 - ptr)) % 2 ^ 64 with hadj
  unfold initMemory at hacc ⊢
  dsimp only at hacc ⊢
  rw [← hr, ← hadj] at hacc ⊢
  by_cases h₁ : len ≤ adjust
  · rw [if_pos h₁] at hacc
    exact absurd hempty hacc
  rw [if_neg h₁] at hacc ⊢
  -- Rounding up does not wrap, or the pool would have been refused.
  have hround : r = ptr + adjust ∧ adjust < 8 := by omega
  have hpool : ∀ {base data}, r ≤ base → data = data / 2 ^ minLog * 2 ^ minLog →
      2 ^ minLog ≤ data → base + data ≤ ptr + len → base ≠ 0 →
      Accepted (formatPool minLog m base data ext tags) ptr len := by
    intro base data hb hd hge hup h0
    refine ⟨formatPool_fresh hmin (Nat.pos_of_ne_zero h0) ⟨data / 2 ^ minLog, ?_⟩ hge
      (by omega), ?_, hup⟩
    · rw [Nat.mul_comm]
      exact hd
    · show ptr ≤ base
      omega
  have hmul : ∀ x, x / 2 ^ minLog * 2 ^ minLog =
      x / 2 ^ minLog * 2 ^ minLog / 2 ^ minLog * 2 ^ minLog := by
    intro x
    rw [Nat.mul_div_cancel _ hM]
  have hle : ∀ x, x / 2 ^ minLog * 2 ^ minLog ≤ x := fun x => Nat.div_mul_le_self _ _
  cases ext with
  | true =>
    simp only [if_true] at hacc ⊢
    split_ifs at hacc ⊢ with h₂
    · exact absurd hempty hacc
    · have := hle (len - adjust)
      exact hpool le_rfl (hmul _) (not_lt.1 h₂) (by omega) hacc
  | false =>
    simp only [Bool.false_eq_true, if_false] at hacc ⊢
    split_ifs at hacc ⊢ with h₂ h₃
    · exact absurd hempty hacc
    · exact absurd hempty hacc
    · have := hle (len - adjust - ((len - adjust + 2 ^ minLog) % 2 ^ 64 / (2 ^ minLog + 1) +
        2 ^ minLog - 1) % 2 ^ 64 / 2 ^ minLog * 2 ^ minLog)
      exact hpool (Nat.le_add_right _ _) (hmul _) (not_lt.1 h₃) (by omega) hacc

/-! ## Steps of a client -/

/-- Client writes stay inside the payload of a block that is marked as allocated. Pointers
given to `tombstone` and `deallocate` are arbitrary. -/
def inPlace (w : Client Heap) : Op → Bool
  | .write p i _ => isAllocated w.book p && decide (32 * i + 32 ≤ blockSize w.book p - 32)
  | _ => true

theorem receive_book (B : Book Heap) (w : Client Heap) (c : Chunk) (s : Heap) :
    (w.receive B c s).book = s := by
  unfold Client.receive
  split_ifs <;> rfl

/-- Every step is defined and keeps the invariant. -/
theorem Inv.step {w : Client Heap} {A : Blocks} {op : Op} (hI : Inv w.book A)
    (hop : inPlace w op = true) : ∃ w' A', w.step buddyBook op = some w' ∧ Inv w'.book A' := by
  cases op with
  | allocate n =>
    rcases hI.allocate n with hal | ⟨b, o, h', A', hal, hI', -⟩
    · exact ⟨w.receive buddyBook .null w.book, A, by simp [Client.step, buddyBook, hal],
        by rw [receive_book]; exact hI⟩
    · exact ⟨w.receive buddyBook ⟨b, w.book.ctl.orderSize o - 32⟩ h', A',
        by simp [Client.step, buddyBook, hal], by rw [receive_book]; exact hI'⟩
  | temporalAllocate n =>
    rcases hI.temporalAllocate n with hal | ⟨o, r, -, -, hal⟩ | ⟨b, o, r, h', A', hal, hI', -⟩
    · exact ⟨w.receive buddyBook .null w.book, A, by simp [Client.step, buddyBook, hal],
        by rw [receive_book]; exact hI⟩
    · refine ⟨w.receive buddyBook ⟨w.book.ctl.active o r, w.book.ctl.orderSize o - 32⟩
        { w.book with ctl := { w.book.ctl with
          activeRotor := update w.book.ctl.activeRotor o (r ^^^ 1) } }, A,
        by simp [Client.step, buddyBook, hal], ?_⟩
      rw [receive_book]
      exact ⟨hI.toCore.congr ⟨rfl, rfl, rfl, rfl, rfl⟩ rfl rfl rfl rfl rfl,
        hI.coalesced.mono ⟨rfl, rfl, rfl, rfl, rfl⟩ fun ha => ha, hI.closed⟩
    · exact ⟨w.receive buddyBook ⟨b, w.book.ctl.orderSize o - 32⟩ h', A',
        by simp [Client.step, buddyBook, hal], by rw [receive_book]; exact hI'⟩
  | tombstone p =>
    cases hu : used A p with
    | none =>
      exact ⟨w, A, by simp [Client.step, buddyBook, hI.tombstone_unused hu], hI⟩
    | some v =>
      obtain ⟨n, f⟩ := v
      by_cases hf : f = blockTombstone
      · subst hf
        exact ⟨w, A, by simp [Client.step, buddyBook, hI.tombstone_again hu], hI⟩
      · obtain ⟨h', A', hts, hI', -⟩ := hI.tombstone hu hf
        exact ⟨_, A', by simp [Client.step, buddyBook, hts]; rfl, hI'⟩
  | deallocate p =>
    cases hu : used A p with
    | none =>
      exact ⟨w, A, by simp [Client.step, buddyBook, hI.deallocate_unused hu], hI⟩
    | some v =>
      obtain ⟨h', A', o, hde, hI', -⟩ := hI.deallocate (n := v.1) (f := v.2) hu
      exact ⟨_, A', by simp [Client.step, buddyBook, hde]; rfl, hI'⟩
  | write p i c =>
    simp only [inPlace, Bool.and_eq_true, decide_eq_true_eq] at hop
    obtain ⟨n, f, hu⟩ := (hI.isAllocated_iff p).1 hop.1
    rw [hI.blockSize hu] at hop
    exact ⟨_, A, rfl, hI.store hu (Nat.le_add_right _ _) (by omega) c⟩

/-! ## The representation invariant -/

def BuddyList.unit (s : BuddyList) (t : ℕ) : ℕ := s.base + t * 2 ^ s.minLog

/-- A block of order `o` starts at `a`: its tag says so, or it is in the cache of that order. -/
def Named (h : Heap) (tc : ℕ → List ℕ) (a o : ℕ) : Prop :=
  (∃ t, t < h.ctl.tagCount ∧ a = h.ctl.unit t ∧ h.ctl.blockTags t ≠ 255 ∧
    o = h.ctl.blockTags t % 128) ∨ a ∈ tc o

/-- The representation invariant of `__buddy_list`, as conditions on tags, lists, mask and
tail headers. `fl` and `tc` are the contents of the free lists and of the temporal caches,
`B` the blocks that tags and caches name. -/
structure Represents (h : Heap) (fl tc : ℕ → List ℕ) (B : BlockMap ℕ) : Prop where
  blocks : ∀ a n o, B a = some (n, o) ↔ n = h.ctl.orderSize o ∧ Named h tc a o
  tiles : Tiles h.ctl.base (h.ctl.base + 2 ^ h.ctl.minLog * 2 ^ (h.ctl.maxOrder - 1)) B
  aligned : ∀ {a n o}, B a = some (n, o) → h.ctl.orderSize o ∣ a - h.ctl.base
  orders : ∀ {a n o}, B a = some (n, o) → o < h.ctl.maxOrder
  /-- Tags of addresses that start no block, or a cached one, are empty. -/
  others : ∀ t, t < h.ctl.tagCount →
    (B (h.ctl.unit t) = none ∨ ∃ o, h.ctl.unit t ∈ tc o) → h.ctl.blockTags t = 255
  heads : ∀ o, h.ctl.freeLists o = (fl o).headD 0
  /-- Each list ends in a null link, and back links are right except at the head. -/
  links : ∀ o, ∃ p, Seg h.mem.next h.mem.w1 p (fl o) 0
  once : ∀ o, (fl o).Nodup
  free : ∀ t, t < h.ctl.tagCount → ∀ o, o < 64 →
    (h.ctl.blockTags t = tagFree o ↔ h.ctl.unit t ∈ fl o)
  members : ∀ o, ∀ b ∈ fl o, ∃ t, t < h.ctl.tagCount ∧ b = h.ctl.unit t
  mask : ∀ o, o < 64 → (h.ctl.freeMask.getLsbD o = true ↔ h.ctl.freeLists o ≠ 0)
  cacheHeads : ∀ o, h.ctl.tcache o = (tc o).headD 0 ∧ h.ctl.tcacheCount o = (tc o).length
  cacheLinks : ∀ o, Path h.mem.next (tc o) 0
  cacheOnce : ∀ o, (tc o).Nodup
  tails : ∀ t, t < h.ctl.tagCount → h.ctl.blockTags t < 128 →
    h.mem.lo (h.ctl.hdrOf (h.ctl.unit t) (h.ctl.blockTags t)) = h.ctl.blockTags t
  coalesced : ∀ o, o < h.ctl.maxOrder - 1 → ∀ b ∈ fl o,
    h.ctl.base + buddy (h.ctl.minLog + o) (b - h.ctl.base) ∉ fl o

def RepInv (h : Heap) : Prop := ∃ fl tc B, Represents h fl tc B

theorem Inv.unit_tag {h : Heap} {A : Blocks} (hI : Inv h A) {t : ℕ} (ht : t < h.ctl.tagCount) :
    h.ctl.tagIndex (h.ctl.unit t) = t ∧ TagOf (A (h.ctl.unit t)) (h.ctl.blockTags t) := by
  refine ⟨?_, hI.tags t ht⟩
  rw [BuddyList.tagIndex, BuddyList.unit, Nat.add_sub_cancel_left,
    Nat.mul_div_cancel _ (Nat.two_pow_pos _)]

/-- The blocks that tags and caches name are the blocks of the map. -/
theorem Inv.named_iff {h : Heap} {A : Blocks} (hI : Inv h A) {tc : ℕ → List ℕ}
    (hT : Caches h.ctl h.mem A tc) (a o : ℕ) :
    Named h tc a o ↔ ∃ n k, A a = some (n, o, k) := by
  constructor
  · rintro (⟨t, ht, rfl, h255, rfl⟩ | ha)
    · have htag := (hI.unit_tag ht).2
      match hA : A (h.ctl.unit t) with
      | none =>
        rw [hA] at htag
        exact absurd htag h255
      | some (n, o, k) =>
        rw [hA] at htag
        have h64 := hI.order_lt hA
        cases k with
        | free =>
          have h' : h.ctl.blockTags t = tagFree o := htag
          rw [tagFree_eq h64] at h'
          exact ⟨n, .free, by rw [show h.ctl.blockTags t % 128 = o by omega]⟩
        | cached => exact absurd htag h255
        | inUse f =>
          have h' : h.ctl.blockTags t = o := htag
          exact ⟨n, .inUse f, by rw [show h.ctl.blockTags t % 128 = o by omega]⟩
        | detached => exact absurd hA hI.closed
    · obtain ⟨n, hn⟩ := (hT.mem o a).1 ha
      exact ⟨n, _, hn⟩
  · rintro ⟨n, k, hA⟩
    obtain ⟨hu, hlt⟩ := hI.tagIndex_spec hA
    have htag := hI.tag_of hA
    have h64 := hI.order_lt hA
    cases k with
    | free =>
      have h' : h.ctl.blockTags (h.ctl.tagIndex a) = tagFree o := htag
      rw [tagFree_eq h64] at h'
      exact Or.inl ⟨_, hlt, hu.symm, by omega, by omega⟩
    | cached => exact Or.inr ((hT.mem o a).2 ⟨n, hA⟩)
    | inUse f =>
      have h' : h.ctl.blockTags (h.ctl.tagIndex a) = o := htag
      exact Or.inl ⟨_, hlt, hu.symm, by omega, by omega⟩
    | detached => exact absurd hA hI.closed

theorem Inv.repInv {h : Heap} {A : Blocks} (hI : Inv h A) : RepInv h := by
  obtain ⟨fl, hF⟩ := hI.lists
  obtain ⟨tc, hT⟩ := hI.caches
  set B : BlockMap ℕ := fun a => (A a).map fun v => (v.1, v.2.1) with hB
  have hBA : ∀ {a n o}, B a = some (n, o) ↔ ∃ k, A a = some (n, o, k) := by
    intro a n o
    simp only [hB, Option.map_eq_some_iff, Prod.exists, Prod.mk.injEq]
    constructor
    · rintro ⟨n', o', k, hA, rfl, rfl⟩
      exact ⟨k, hA⟩
    · rintro ⟨k, hA⟩
      exact ⟨n, o, k, hA, rfl, rfl⟩
  refine ⟨fl, tc, B, fun a n o => ?_, ?_, fun hb => ?_, fun hb => ?_, fun t ht hor => ?_, hF.head,
    hF.seg, hF.nodup, fun t ht o ho => ?_, fun o b hb => ?_, fun o ho => ?_,
    fun o => ⟨hT.head o, hT.count o⟩, hT.path, hT.nodup, fun t ht h128 => ?_,
    fun o ho b hb hb' => ?_⟩
  · rw [hBA, hI.named_iff hT]
    constructor
    · rintro ⟨k, hA⟩
      exact ⟨(hI.size hA).1, n, k, hA⟩
    · rintro ⟨rfl, n', k, hA⟩
      exact ⟨k, by rw [hA, (hI.size hA).1]⟩
  · rw [← Nat.pow_add]
    refine hI.tiles.map (fun {a n v} ha => ⟨v.1, hBA.2 ⟨v.2, ha⟩⟩) fun {a n o} hb => ?_
    obtain ⟨k, hk⟩ := hBA.1 hb
    exact ⟨_, hk⟩
  · obtain ⟨k, hk⟩ := hBA.1 hb
    rw [← (hI.size hk).1]
    exact hI.aligned hk
  · obtain ⟨k, hk⟩ := hBA.1 hb
    exact (hI.size hk).2
  · have htag := (hI.unit_tag ht).2
    rcases hor with hnone | ⟨o, hmem⟩
    · cases hA : A (h.ctl.unit t) with
      | none => rwa [hA] at htag
      | some v => simp [hB, hA] at hnone
    · obtain ⟨n, hn⟩ := (hT.mem o _).1 hmem
      rwa [hn] at htag
  · rw [hF.mem]
    constructor
    · intro htag
      exact (hI.unit_tag ht).2.eq_free htag ho fun {n o' k} hA => ⟨hI.order_lt hA, fun hk => by
        subst hk
        exact hI.closed hA⟩
    · rintro ⟨n, hA⟩
      have htag := (hI.unit_tag ht).2
      rwa [hA] at htag
  · obtain ⟨n, hA⟩ := (hF.mem o b).1 hb
    obtain ⟨hu, hlt⟩ := hI.tagIndex_spec hA
    exact ⟨_, hlt, hu.symm⟩
  · rw [hF.mask o ho, hF.head, ne_eq, ne_eq, headD_eq_zero (hF.pos o)]
  · have htag := (hI.unit_tag ht).2
    match hA : A (h.ctl.unit t) with
    | none =>
      rw [hA] at htag
      have : h.ctl.blockTags t = 255 := htag
      omega
    | some (n, o, k) =>
      rw [hA] at htag
      cases k with
      | free =>
        have h' : h.ctl.blockTags t = tagFree o := htag
        rw [tagFree_eq (hI.order_lt hA)] at h'
        omega
      | cached =>
        have : h.ctl.blockTags t = 255 := htag
        omega
      | inUse f =>
        have h' : h.ctl.blockTags t = o := htag
        rw [h', BuddyList.hdrOf, ← (hI.size hA).1]
        exact (hI.tails hA).1
      | detached => exact absurd hA hI.closed
  · obtain ⟨n, hA⟩ := (hF.mem o b).1 hb
    obtain ⟨n', hA'⟩ := (hF.mem o _).1 hb'
    exact hI.coalesced b n o hA ho n' hA'

theorem inv_of_buddy_run {minLog ptr len : ℕ} {m : Mem} {ext : Bool} {tags : ℕ → ℕ}
    {ops : List Op} {w : Client Heap} (hmin : 5 ≤ minLog) (hlen : ptr + len < 2 ^ 64)
    (hacc : (initMemory minLog m ptr len ext tags).ctl.base ≠ 0)
    (hrun : Run (fun w op => inPlace w op = true) (Client.step buddyBook)
      (.start (initMemory minLog m ptr len ext tags)) ops w) : ∃ A, Inv w.book A := by
  refine hrun.invariant (fun w => ∃ A, Inv w.book A) ?_
    ⟨_, (initMemory_accepted hmin hlen hacc).fresh.inv⟩
  rintro w op w' ⟨A, hI⟩ hop hstep
  obtain ⟨w'', A', hstep', hI'⟩ := hI.step hop
  obtain rfl : w'' = w' := Option.some.inj (hstep'.symm.trans hstep)
  exact ⟨A', hI'⟩

/-- Every state that a client can reach satisfies the representation invariant, and every
step from it is defined. -/
theorem repInv_of_buddy_run {minLog ptr len : ℕ} {m : Mem} {ext : Bool} {tags : ℕ → ℕ}
    {ops : List Op} {w : Client Heap} (hmin : 5 ≤ minLog) (hlen : ptr + len < 2 ^ 64)
    (hacc : (initMemory minLog m ptr len ext tags).ctl.base ≠ 0)
    (hrun : Run (fun w op => inPlace w op = true) (Client.step buddyBook)
      (.start (initMemory minLog m ptr len ext tags)) ops w) :
    RepInv w.book ∧ ∀ op, inPlace w op = true → (w.step buddyBook op).isSome = true := by
  obtain ⟨A, hI⟩ := inv_of_buddy_run hmin hlen hacc hrun
  refine ⟨hI.repInv, fun op hop => ?_⟩
  obtain ⟨w', A', hstep, -⟩ := hI.step hop
  rw [hstep, Option.isSome_some]

theorem repInv_of_buddy_run_churn : ∃ w, Run (fun w op => inPlace w op = true)
    (Client.step buddyBook) (.start (initMemory 5 .zero 4096 4096 false fun _ => 0))
    [.allocate 10, .temporalAllocate 40, .allocate 100, .write 4352 0 ⟨1, 2, 3, 4, 5⟩,
      .deallocate 4480, .deallocate 4352, .temporalAllocate 40, .tombstone 4224,
      .deallocate 4224] w ∧
    RepInv w.book := by
  obtain ⟨w, hrun, -⟩ := exists_run_of_exec (fun w op => inPlace w op = true)
    (Client.step buddyBook)
    (s := .start (initMemory 5 .zero 4096 4096 false fun _ => 0)) (P := fun _ => true)
    (l := [.allocate 10, .temporalAllocate 40, .allocate 100, .write 4352 0 ⟨1, 2, 3, 4, 5⟩,
      .deallocate 4480, .deallocate 4352, .temporalAllocate 40, .tombstone 4224, .deallocate 4224])
    (by decide +kernel)
  exact ⟨w, hrun, (repInv_of_buddy_run (by decide) (by decide) (by decide +kernel) hrun).1⟩

end AbcMalloc.Buddy
