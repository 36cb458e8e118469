import AbcMalloc.Ledger
import AbcMalloc.Tlsf.Steps

/-! Clients of a TLSF pool: what a step of a client does, and what holds along whole runs. -/
namespace AbcMalloc.Tlsf
open Function Foundation

def tlsfBook : Book Heap where
  header := 32
  allocate := allocate
  temporalAllocate := temporalAllocate
  tombstone := tombstone
  deallocate := deallocate
  isAllocated := isAllocated
  isTombstoned := isTombstoned
  isTemporal := isTemporal
  blockSize := blockSize
  used h := h.ctl.allocatedBytes
  tombstoned h := h.ctl.tombstonedBytes
  store h x c := { h with mem := h.mem.store x c }

/-- `mapping_search` rounds the request up without wrapping around. -/
def fitsRequest (n : ℕ) : Bool := adjustedBlockSize n ≤ 2 ^ 64 - 2 ^ 59

def ringHolds (s : TlsfList) (b : ℕ) : Bool :=
  (List.range (26 * 16)).any fun i => s.temporalActive i 0 == b || s.temporalActive i 1 == b

/-- No tombstoned block is deallocated while a temporal ring still points to it. -/
def sparesRing (w : Client Heap) : Op → Bool
  | .deallocate p => !(isTombstoned w.book p && ringHolds w.book.ctl (p - 32))
  | _ => true

def Held (w : Client Heap) (A : Blocks) : Prop :=
  ∀ {p len}, w.held p = some len → ∃ b n f, p = b + 32 ∧ len = n - 32 ∧ used A b = some (n, f)

inductive Effect (w : Client Heap) (A : Blocks) : Op → Client Heap → Blocks → Prop
  /-- The request was refused. -/
  | idle {op : Op} : Effect w A op w A
  | take {op : Op} {b sz f : ℕ} {h' : Heap} {A' : Blocks}
      (hT : Takes w.book h' A A' b sz f) (hG : Good h' A')
      (hf : f = blockAlloc ∨ f = blockAlloc + blockTemporal)
      (hc : Counts w.book.ctl h'.ctl b ((w.book.ctl.allocatedBytes + sz) % 2 ^ 64)
        w.book.ctl.tombstonedBytes) :
      Effect w A op (w.receive tlsfBook ⟨b + 32, sz - 32⟩ h') A'
  | reuse {n i r b sz f : ℕ} {h' : Heap} (hr : r < 2)
      (hring : w.book.ctl.temporalActive i r = b) (hb : used A b = some (sz, f)) (hG : Good h' A)
      (hm : h'.mem = w.book.mem)
      (hc : Counts w.book.ctl h'.ctl 0 w.book.ctl.allocatedBytes w.book.ctl.tombstonedBytes) :
      Effect w A (.temporalAllocate n) (w.receive tlsfBook ⟨b + 32, sz - 32⟩ h') A
  | tombstone {b n f : ℕ} {h' : Heap} (hb : used A b = some (n, f)) (hf : f ≠ blockTombstone)
      (hm : h'.mem = w.book.mem.setHi b blockTombstone)
      (hG : Good h' (update A b (some (n, some blockTombstone))))
      (hc : Counts w.book.ctl h'.ctl 0 ((w.book.ctl.allocatedBytes + (2 ^ 64 - n)) % 2 ^ 64)
        ((w.book.ctl.tombstonedBytes + n) % 2 ^ 64)) :
      Effect w A (.tombstone (b + 32))
        { w with book := h', dead := update w.dead (b + 32) true, graves := (b, n) :: w.graves }
        (update A b (some (n, some blockTombstone)))
  | deallocate {b n f r : ℕ} {h' : Heap} {A' : Blocks} (hb : used A b = some (n, f))
      (hR : Releases w.book h' A A' b r) (hG : Good h' A')
      (hc : Counts w.book.ctl h'.ctl 0 ((w.book.ctl.allocatedBytes + (2 ^ 64 - n)) % 2 ^ 64)
        (if f = blockTombstone then (w.book.ctl.tombstonedBytes + (2 ^ 64 - n)) % 2 ^ 64
          else w.book.ctl.tombstonedBytes)) :
      Effect w A (.deallocate (b + 32))
        { w with
          book := h'
          held := update w.held (b + 32) none
          dead := update w.dead (b + 32) false
          freed := update w.freed (b + 32) true } A'
  | write {p i x : ℕ} {c : Cell} (hx : Payload A x)
      (hG : Good ⟨w.book.ctl, w.book.mem.store x c⟩ A) :
      Effect w A (.write p i c) { w with book := ⟨w.book.ctl, w.book.mem.store x c⟩ } A

theorem ringHolds_of_slot {h : Heap} {A : Blocks} (hG : Good h A) {i r b : ℕ} (hr : r < 2)
    (hb0 : b ≠ 0) (he : h.ctl.temporalActive i r = b) : ringHolds h.ctl b = true := by
  obtain ⟨n, f, q, hn, -, hq, ⟨hin, hi⟩, hnq⟩ := hG.rings.entry (i := i) hr (he ▸ hb0)
  have hlt := hG.size_lt (used_eq_some.1 hn).1
  obtain ⟨h0, hs, -⟩ := le_classLower_search hq (by omega)
  simp only [inClasses, decide_eq_true_eq] at hin
  have hcl := hG.rings.classes
  have hi' : i < 26 * 16 := by
    rw [hi, idx]
    omega
  simp only [ringHolds, List.any_eq_true, List.mem_range, Bool.or_eq_true, beq_iff_eq]
  refine ⟨i, hi', ?_⟩
  interval_cases r
  · exact Or.inl he
  · exact Or.inr he

/-- Every permitted step succeeds, with one of the effects above. -/
theorem step_effect {w : Client Heap} {A : Blocks} {op : Op} (hG : Good w.book A) (hH : Held w A)
    (hlegal : w.wellHeld op = true) (hfit : fitsOp fitsRequest op = true)
    (hring : sparesRing w op = true) :
    ∃ w' A', w.step tlsfBook op = some w' ∧ Effect w A op w' A' := by
  cases op with
  | allocate n =>
    rcases hG.allocate (of_decide_eq_true hfit) with hnull | ⟨b, sz, h', A', hal, hG', hT, -, -, hc⟩
    · exact ⟨w, A, by simp [Client.step, tlsfBook, hnull, Client.receive, Chunk.null], .idle⟩
    · exact ⟨_, A', by simp [Client.step, tlsfBook, hal], .take hT hG' (Or.inl rfl) hc⟩
  | temporalAllocate n =>
    rcases hG.temporalAllocate (of_decide_eq_true hfit) with
      hnull | ⟨i, r, b, sz, f, h', hr, hring, hb, hal, hG', hm, hc⟩
        | ⟨b, sz, h', A', hal, hG', hT, hc⟩
    · exact ⟨w, A, by simp [Client.step, tlsfBook, hnull, Client.receive, Chunk.null], .idle⟩
    · exact ⟨_, A, by simp [Client.step, tlsfBook, hal], .reuse hr hring hb hG' hm hc⟩
    · exact ⟨_, A', by simp [Client.step, tlsfBook, hal], .take hT hG' (Or.inr rfl) hc⟩
  | tombstone p =>
    obtain ⟨len, hlen⟩ := Option.isSome_iff_exists.1 hlegal
    obtain ⟨b, n, f, rfl, -, hb⟩ := hH hlen
    by_cases hf : f = blockTombstone
    · subst hf
      exact ⟨w, A, by simp [Client.step, tlsfBook, hG.tombstone_again hb], .idle⟩
    · obtain ⟨h', hts, hm, hG', hc⟩ := hG.tombstone hb hf
      exact ⟨_, _, by simp [Client.step, tlsfBook, hts, hG.blockSize hb],
        .tombstone hb hf hm hG' hc⟩
  | deallocate p =>
    obtain ⟨len, hlen⟩ := Option.isSome_iff_exists.1 hlegal
    obtain ⟨b, n, f, rfl, -, hb⟩ := hH hlen
    have hslot : f = blockTombstone → ∀ i r, r < 2 → w.book.ctl.temporalActive i r ≠ b := by
      rintro rfl i r hr he
      have hts : isTombstoned w.book (b + 32) = true := by
        simp [isTombstoned, hG.phys.hi (used_eq_some.1 hb).1]
      simp [sparesRing, hts, ringHolds_of_slot hG hr (hG.used_pos hb) he] at hring
    obtain ⟨h', A', r, hde, hG', hR, hc⟩ := hG.deallocate hb hslot
    exact ⟨_, A', by simp [Client.step, tlsfBook, hde], .deallocate hb hR hG' hc⟩
  | write p i c =>
    obtain ⟨len, hlen, hi⟩ := Client.exists_len_of_writes (c := c) hlegal
    obtain ⟨b, n, f, rfl, rfl, hb⟩ := hH hlen
    have hx : Payload A (b + 32 + 32 * i) := ⟨b, n, f, hb, by omega, by omega⟩
    exact ⟨_, A, rfl, .write hx (hG.store hx c)⟩

theorem Held.receive {w : Client Heap} {A A' : Blocks} (hH : Held w A) {b sz f : ℕ} {h' : Heap}
    (hA : used A' = update (used A) b (some (sz, f))) :
    Held (w.receive tlsfBook ⟨b + 32, sz - 32⟩ h') A' := by
  intro p len hp
  simp only [Client.receive, Nat.add_eq_zero_iff, OfNat.ofNat_ne_zero, and_false, if_false] at hp
  by_cases hpb : p = b + 32
  · subst hpb
    simp only [update_self, Option.some.injEq] at hp
    exact ⟨b, sz, f, rfl, hp.symm, by rw [hA, update_self]⟩
  · rw [update_of_ne hpb] at hp
    obtain ⟨b', n, f', rfl, hlen, hb'⟩ := hH hp
    exact ⟨b', n, f', rfl, hlen, by rw [hA, update_of_ne (by omega), hb']⟩

/-- The pool and the client's pointers stay consistent. -/
theorem Effect.preserves {w w' : Client Heap} {A A' : Blocks} {op : Op} (hG : Good w.book A)
    (hH : Held w A) (h : Effect w A op w' A') : Good w'.book A' ∧ Held w' A' := by
  cases h with
  | idle => exact ⟨hG, hH⟩
  | take hT hG' hf hc => exact ⟨hG', hH.receive hT.used⟩
  | reuse hr hring hb hG' hm hc =>
    exact ⟨hG', hH.receive (update_eq_self_iff.2 hb.symm).symm⟩
  | @tombstone b n f h' hb hf hm hG' hc =>
    refine ⟨hG', fun {p len} hp => ?_⟩
    obtain ⟨b', n', f', rfl, hlen, hb'⟩ := hH hp
    by_cases hbb : b' = b
    · subst hbb
      rw [hb] at hb'
      simp only [Option.some.injEq, Prod.mk.injEq] at hb'
      refine ⟨b', n', blockTombstone, rfl, hlen, ?_⟩
      rw [used_update, update_self, usedEntry_flags (by decide), hb'.1]
    · exact ⟨b', n', f', rfl, hlen, by rw [used_update, update_of_ne hbb, hb']⟩
  | @deallocate b n f r h' A' hb hR hG' hc =>
    refine ⟨hG', fun {p len} hp => ?_⟩
    by_cases hpb : p = b + 32
    · simp [hpb] at hp
    · simp only [update_of_ne hpb] at hp
      obtain ⟨b', n', f', rfl, hlen, hb'⟩ := hH hp
      exact ⟨b', n', f', rfl, hlen, by rw [hR.used, update_of_ne (by omega), hb']⟩
  | write hx hG' => exact ⟨hG', hH⟩

/-- The steps of a client that avoids the tombstone defect: pointers are held, sizes do not
wrap and no tombstoned block is deallocated while a ring points to it. -/
def Permitted (w : Client Heap) (op : Op) : Prop :=
  w.wellHeld op = true ∧ fitsOp fitsRequest op = true ∧ sparesRing w op = true

instance (w : Client Heap) (op : Op) : Decidable (Permitted w op) := by
  unfold Permitted
  infer_instance

theorem run_good {m : Mem} {ptr len : ℕ} {ops : List Op} {w : Client Heap}
    (hlen : ptr + len ≤ 2 ^ 64) (hacc : (initMemory m ptr len).ctl.base ≠ 0)
    (hrun : Run Permitted (Client.step tlsfBook) (.start (initMemory m ptr len)) ops w) :
    ∃ A, Good w.book A ∧ Held w A := by
  refine hrun.invariant (fun w => ∃ A, Good w.book A ∧ Held w A) ?_
    ⟨_, initMemory_good hlen hacc, fun hp => by simp [Client.start] at hp⟩
  rintro w op w' ⟨A, hG, hH⟩ ⟨hlegal, hfit, hring⟩ hstep
  obtain ⟨w'', A', hstep', heff⟩ := step_effect hG hH hlegal hfit hring
  rw [hstep, Option.some.injEq] at hstep'
  subst hstep'
  exact ⟨A', heff.preserves hG hH⟩

/-! ## The representation invariant -/

/-- The headers met by following `next_phys` from the first block. -/
def blocks (h : Heap) : List ℕ := walk h.mem.lo h.ctl.endSentinel h.ctl.total (h.ctl.base + 32)

/-- The representation invariant of `__tlsf_list`, as conditions on headers, heads and bitmaps. -/
structure RepInv (h : Heap) : Prop where
  /-- The blocks follow each other from `base + 32` to the end sentinel, with back links. -/
  chain : Seg (nextPhys h.mem) h.mem.w1 h.ctl.base (blocks h) h.ctl.endSentinel
  first : (blocks h).head? = some (h.ctl.base + 32)
  last : h.mem.w1 h.ctl.endSentinel = (blocks h).getLastD h.ctl.base
  sizes : ∀ b ∈ blocks h, 64 ≤ h.mem.lo b ∧ h.mem.lo b % 32 = 0 ∧ h.mem.lo b < 2 ^ 32
  coalesced : (blocks h).IsChain fun a b => ¬(h.mem.hi a = blockFree ∧ h.mem.hi b = blockFree)
  /-- The free blocks are in the list of their class, once, and nothing else is in a list. -/
  lists : ∃ fl : ℕ → List ℕ, ∀ i,
    h.ctl.heads i = (fl i).headD 0 ∧ Seg h.mem.w2 h.mem.w3 0 (fl i) 0 ∧ (fl i).Nodup ∧
      ∀ b, b ∈ fl i ↔ b ∈ blocks h ∧ h.mem.hi b = blockFree ∧ classIndex (h.mem.lo b) = i
  slBits : ∀ fi si, si < 16 → ((h.ctl.slBitmap fi).getLsbD si = true ↔ h.ctl.heads (idx fi si) ≠ 0)
  flBits : ∀ fi, h.ctl.flBitmap.getLsbD fi = true ↔ h.ctl.slBitmap fi ≠ 0

theorem Core.first_block {h : Heap} {A : Blocks} (hC : Core h A 0) :
    h.ctl.base + 32 < h.ctl.endSentinel ∧ ∃ n k, A (h.ctl.base + 32) = some (n, k) := by
  have hpos := hC.geo.total_pos
  have hlt : h.ctl.base + 32 < h.ctl.endSentinel := by
    unfold TlsfList.endSentinel
    omega
  exact ⟨hlt, hC.phys.tiles.start hlt⟩

theorem Core.mem_blocks {h : Heap} {A : Blocks} (hC : Core h A 0) (b : ℕ) :
    b ∈ blocks h ↔ ∃ n k, A b = some (n, k) := by
  have hw := (walk_spec hC.phys.tiles (fun ha => hC.phys.lo ha) h.ctl.total _
    (Or.inr hC.first_block.2) le_rfl).1 b
  rw [blocks, hw]
  constructor
  · exact fun h => h.2.2
  · rintro ⟨n, k, hA⟩
    have := hC.phys.base_lt hA
    have := hC.phys.size_ge hA
    exact ⟨by omega, by omega, n, k, hA⟩

theorem Inv.repInv {h : Heap} {A : Blocks} (hI : Inv h A) : RepInv h := by
  obtain ⟨hlt, hstart⟩ := hI.first_block
  have hback : ∀ {a n k}, A a = some (n, k) → h.mem.w1 (a + n) = a := fun ha => by
    have := hI.phys.size_ge ha
    exact hI.phys.back ha (by omega)
  obtain ⟨hseg, hlast, hhead⟩ := walk_seg hI.phys.tiles
    (fun ha => hI.phys.lo ha) hback h.ctl.total _ _ (Or.inr hstart) le_rfl hI.phys.first
  obtain ⟨fl, hL⟩ := hI.lists
  have hflags : ∀ {b n k}, A b = some (n, k) → (h.mem.hi b = blockFree ↔ k = some blockFree) := by
    intro b n k hb
    cases k with
    | none => exact absurd hb hI.closed
    | some f => rw [hI.phys.hi hb, Option.some.injEq]
  refine ⟨hseg, ?_, hlast, fun b hb => ?_, ?_, ⟨fl, fun i => ⟨hL.head i, hL.seg i, hL.nodup i,
    fun b => ?_⟩⟩, fun fi si hsi => ?_, hL.bits.top⟩
  · have hne : blocks h ≠ [] := by
      intro he
      have := (hI.mem_blocks _).2 hstart
      simp [he] at this
    obtain ⟨b, l, hl⟩ := List.exists_cons_of_ne_nil hne
    have : (blocks h).headD h.ctl.endSentinel = h.ctl.base + 32 := hhead
    rw [hl] at this ⊢
    exact congrArg some this
  · obtain ⟨n, k, hA⟩ := (hI.mem_blocks b).1 hb
    rw [hI.phys.lo hA]
    exact ⟨hI.phys.size_ge hA, hI.phys.size_mod hA, hI.size_lt hA⟩
  · refine walk_isChain _ hI.phys.tiles (fun ha => hI.phys.lo ha) (fun {a n k n' k'} ha ha' => ?_)
      h.ctl.total _ (Or.inr hstart)
    rw [hflags ha, hflags ha']
    rintro ⟨rfl, rfl⟩
    exact hI.coalesced ha ha'
  · rw [hL.mem, hI.mem_blocks]
    constructor
    · rintro ⟨n, hA, hi⟩
      exact ⟨⟨n, _, hA⟩, hI.phys.hi hA, by rw [hI.phys.lo hA, hi]⟩
    · rintro ⟨⟨n, k, hA⟩, hfree, hi⟩
      rw [(hflags hA).1 hfree] at hA
      rw [hI.phys.lo hA] at hi
      exact ⟨n, hA, hi⟩
  · rw [hL.bits.sl, hL.head]
    have hpos := hL.pos (idx fi si)
    cases hl : fl (idx fi si) with
    | nil => simp
    | cons y ys =>
      rw [hl] at hpos
      have : y ≠ 0 := fun h0 => hpos (by simp [h0])
      simp [hsi, this]

/-- The representation invariant holds in every state of a run in which no tombstoned block
is deallocated while a ring points to it, and no permitted step has undefined behaviour. -/
theorem repInv_of_run {m : Mem} {ptr len : ℕ} {ops : List Op} {w : Client Heap}
    (hlen : ptr + len ≤ 2 ^ 64) (hacc : (initMemory m ptr len).ctl.base ≠ 0)
    (hrun : Run Permitted (Client.step tlsfBook) (.start (initMemory m ptr len)) ops w) :
    RepInv w.book ∧ ∀ op, Permitted w op → (w.step tlsfBook op).isSome = true := by
  obtain ⟨A, hG, hH⟩ := run_good hlen hacc hrun
  refine ⟨hG.toInv.repInv, fun op hop => ?_⟩
  obtain ⟨w', A', hstep, -⟩ := step_effect hG hH hop.1 hop.2.1 hop.2.2
  rw [hstep, Option.isSome_some]

theorem repInv_of_run_churn : ∃ w, Run Permitted (Client.step tlsfBook)
    (.start (initMemory .zero 4096 1024))
    [.allocate 10, .temporalAllocate 40, .allocate 100, .tombstone 4384, .deallocate 4256,
      .write 4160 0 ⟨1, 2, 3, 4, 5⟩, .deallocate 4160, .deallocate 4384] w ∧ RepInv w.book := by
  obtain ⟨w, hrun, -⟩ := exists_run_of_exec Permitted (Client.step tlsfBook)
    (s := .start (initMemory .zero 4096 1024)) (P := fun _ => true)
    (l := [.allocate 10, .temporalAllocate 40, .allocate 100, .tombstone 4384, .deallocate 4256,
      .write 4160 0 ⟨1, 2, 3, 4, 5⟩, .deallocate 4160, .deallocate 4384]) (by decide +kernel)
  exact ⟨w, hrun, (repInv_of_run (by decide) (by decide +kernel) hrun).1⟩

def belowPool (w : Client Heap) : Op → Bool
  | .allocate n => n < w.book.ctl.total
  | .temporalAllocate n => n < w.book.ctl.total
  | _ => true

theorem RepInv.first_le {h : Heap} (hR : RepInv h) :
    nextPhys h.mem (h.ctl.base + 32) ≤ h.ctl.endSentinel := by
  have hw : ∀ fuel a x, x ∈ walk h.mem.lo h.ctl.endSentinel fuel a → x < h.ctl.endSentinel := by
    intro fuel
    induction fuel with
    | zero => simp [walk]
    | succ fuel ih =>
      intro a x hx
      simp only [walk] at hx
      split_ifs at hx with hlt
      · rcases List.mem_cons.1 hx with rfl | hx
        · exact hlt
        · exact ih _ _ hx
      · simp at hx
  have hchain := hR.chain
  have hfirst := hR.first
  have hmem : ∀ x ∈ blocks h, x < h.ctl.endSentinel := fun x hx => hw _ _ x hx
  cases hb : blocks h with
  | nil => simp [hb] at hfirst
  | cons b bs =>
    rw [hb] at hchain hfirst hmem
    simp only [List.head?_cons, Option.some.injEq] at hfirst
    rw [← hfirst, hchain.2.1]
    cases bs with
    | nil => simp
    | cons y ys => exact (hmem y (by simp)).le

/-- Tombstoning a temporal block leaves it in its ring: it is handed out again, its
deallocation does not clear the slot, and the next use of the slot frees memory that was
merged into a neighbour. -/
theorem repInv_fails_after_tombstone : ∃ ops w, 
    Run (fun w op => w.wellLive op = true ∧ belowPool w op = true) (Client.step tlsfBook)
      (.start (initMemory .zero 4096 1024)) ops w ∧ ¬RepInv w.book := by
  obtain ⟨w, hrun, hw⟩ := exists_run_of_exec
    (fun w op => w.wellLive op = true ∧ belowPool w op = true)
    (Client.step tlsfBook) (s := .start (initMemory .zero 4096 1024))
    (l := [.allocate 10, .temporalAllocate 40, .tombstone 4256, .temporalAllocate 40,
      .deallocate 4160, .deallocate 4256, .temporalAllocate 40, .deallocate 4256])
    (P := fun w => decide (w.book.ctl.endSentinel < nextPhys w.book.mem (w.book.ctl.base + 32)))
    (by decide +kernel)
  refine ⟨_, w, hrun, fun hR => ?_⟩
  have := hR.first_le
  have := of_decide_eq_true hw
  omega

end AbcMalloc.Tlsf
