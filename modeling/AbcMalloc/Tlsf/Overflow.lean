import AbcMalloc.Tlsf.Reuse

/-! Requests of any size to `__tlsf_list`. `adjusted_block_size` guards its own addition;
`mapping_search` then adds a rounding term that wraps around for the largest requests, and the
class that is searched is the one of a small size or does not exist. -/
namespace AbcMalloc.Tlsf
open Function Foundation

/-- The size that `mapping_search` looks up. -/
def roundedSize (q : ℕ) : ℕ := (q + (1 <<< (fls64 q - 4) - 1)) % 2 ^ 64

/-- The classes whose bitmap or head `find_free` reads. -/
def searchedClasses (h : Heap) (q : ℕ) : List (ℤ × ℕ) :=
  let c := mappingSearch q
  if (h.ctl.flCount : ℤ) ≤ c.1 then []
  else
    let slMap := h.ctl.slBitmap c.1.toNat &&& (BitVec.allOnes 32 <<< c.2)
    let flMap := h.ctl.flBitmap &&& (BitVec.allOnes 32 <<< (c.1.toNat + 1))
    if slMap ≠ 0 then [c, (c.1, slMap.ctz.toNat)]
    else if flMap = 0 then [c]
    else [c, (flMap.ctz.toNat, (h.ctl.slBitmap flMap.ctz.toNat).ctz.toNat)]

/-- The size that `fl_insert` reads back from the remainder of the block found, if one is
split off. -/
def remainderSize (h : Heap) (q : ℕ) : Option ℕ := do
  let (block, h) ← findFree h q
  let remain := (h.mem.lo block + (2 ^ 64 - q)) % 2 ^ 64
  if block = 0 ∨ remain < 64 then none else some (remain % 2 ^ 32)

def searchedSize (h : Heap) (n : ℕ) : Option ℕ :=
  if h.ctl.base = 0 ∨ adjustedBlockSize n = 0 then none else some (adjustedBlockSize n)

/-- The classes that `allocate` indexes the bitmaps and heads with. -/
def indexedClasses (h : Heap) (n : ℕ) : List (ℤ × ℕ) :=
  (searchedSize h n).elim [] fun q =>
    searchedClasses h q ++ (remainderSize h q).toList.map mappingInsert

def flsArguments (h : Heap) (n : ℕ) : List ℕ :=
  (searchedSize h n).elim [] fun q => [q, roundedSize q] ++ (remainderSize h q).toList

/-- `allocate` stays inside its arrays, and returns null without changing anything or a chunk of
the pool that is long enough. -/
def AllocateSafe (h : Heap) (n : ℕ) : Prop :=
  (∀ c ∈ indexedClasses h n, 0 ≤ c.1 ∧ c.1 < 26 ∧ c.2 < 16) ∧ (∀ v ∈ flsArguments h n, v ≠ 0) ∧
    ∃ c h', allocate h n = some (c, h') ∧ (c = .null ∧ h' = h ∨
      n ≤ c.len ∧ h.ctl.base ≤ c.ptr ∧ c.ptr + c.len ≤ h.ctl.endSentinel)

/-- The rounding does not wrap around, or what it wraps to names a class from which on there is
no free block. -/
def Searchable (h : Heap) (n : ℕ) : Prop :=
  h.ctl.base = 0 ∨ adjustedBlockSize n ≤ 2 ^ 64 - 2 ^ 59 ∨
    64 ≤ roundedSize (adjustedBlockSize n) ∧
      ((h.ctl.flCount : ℤ) ≤ (mappingSearch (adjustedBlockSize n)).1 ∨
        ∀ i, searchClass (adjustedBlockSize n) ≤ i → h.ctl.heads i = 0)

theorem mappingInsert_nonneg_iff (s : ℕ) : 0 ≤ (mappingInsert s).1 ↔ 64 ≤ s := by
  constructor
  · intro h
    by_contra hlt
    by_cases h0 : s = 0
    · subst h0
      exact absurd h (by decide)
    · have hlog : Nat.log2 s < 6 := log2_lt_of_lt h0 (by omega)
      simp only [mappingInsert, fls64] at h
      omega
  · intro h
    rw [mappingInsert_fst h]
    omega

theorem roundedSize_ne_zero {q : ℕ} (hq : 64 ≤ q) (hqm : q % 32 = 0) (hlt : q < 2 ^ 64) :
    roundedSize q ≠ 0 := by
  by_cases hlim : q ≤ 2 ^ 64 - 2 ^ 59
  · have hlog : Nat.log2 q < 64 := log2_lt_of_lt (by omega) (by omega)
    have hw : 2 ^ (Nat.log2 q - 4) ≤ 2 ^ 59 := Nat.pow_le_pow_right (by norm_num) (by omega)
    have hpos := Nat.two_pow_pos (Nat.log2 q - 4)
    unfold roundedSize fls64
    rw [Nat.shiftLeft_eq, Nat.one_mul, Nat.mod_eq_of_lt (by omega)]
    omega
  · have hlog : Nat.log2 q = 63 := by
      have h₁ : 63 ≤ Nat.log2 q := (Nat.le_log2 (by omega)).2 (by omega)
      have h₂ : Nat.log2 q < 64 := log2_lt_of_lt (by omega) hlt
      omega
    have hpow : 1 <<< (63 - 4) = 2 ^ 59 := rfl
    unfold roundedSize fls64
    rw [hlog, hpow]
    omega

namespace Good
variable {h : Heap} {A : Blocks} {q : ℕ}

/-- A search that starts in a class stays in the classes. -/
theorem searchedClasses_lt (hG : Good h A) (hfi : 0 ≤ (mappingSearch q).1) :
    ∀ c ∈ searchedClasses h q, 0 ≤ c.1 ∧ c.1 < 26 ∧ c.2 < 16 := by
  obtain ⟨fl, hL⟩ := hG.lists
  have hcl := hG.rings.classes
  have hsi := mappingSearch_snd_lt q
  intro c hc
  simp only [searchedClasses] at hc
  split_ifs at hc with h₁ h₂ h₃
  · simp at hc
  · obtain ⟨hbit, -⟩ := getLsbD_ctz_mask h₂
    have hj := ((hL.bits.sl _ _).1 hbit).1
    rcases List.mem_pair.1 hc with rfl | rfl
    · exact ⟨hfi, by omega, hsi⟩
    · exact ⟨hfi, by omega, hj⟩
  · obtain rfl := List.mem_singleton.1 hc
    exact ⟨hfi, by omega, hsi⟩
  · obtain ⟨hbit, -⟩ := getLsbD_ctz_mask h₃
    have hsl := (hL.bits.top _).1 hbit
    obtain ⟨hj, hne⟩ := (hL.bits.sl _ _).1 (BitVec.getLsbD_true_ctz_of_ne_zero hsl)
    -- the list found holds a block, whose size bounds the class
    obtain ⟨b, l, hl⟩ := List.exists_cons_of_ne_nil hne
    obtain ⟨n, hA, hcls⟩ := (hL.mem _ b).1 (hl ▸ List.mem_cons_self)
    obtain ⟨-, hn, hlt⟩ := hL.size hA
    have hlog := log2_sub_lt_flMax hn hlt
    rw [classIndex_eq hn, idx_inj (mappingInsert_snd_lt hn) hj] at hcls
    rcases List.mem_pair.1 hc with rfl | rfl
    · exact ⟨hfi, by omega, hsi⟩
    · exact ⟨by omega, by have := hcls.1; omega, hj⟩

theorem remainderSize_spec (hG : Good h A) (hq : 64 ≤ q) (hlim : q ≤ 2 ^ 64 - 2 ^ 59) {r : ℕ}
    (hr : remainderSize h q = some r) : 64 ≤ r ∧ r < 2 ^ 32 := by
  obtain ⟨fl, hL⟩ := hG.lists
  unfold remainderSize at hr
  rcases hL.findFree hq hlim with hnull | ⟨b, n, hA, hqn, -, hfind⟩
  · have hnull : findFree h q = some (0, h) := hnull
    simp [hnull] at hr
  · have hfind : findFree h q = some (b, flRemove h b) := hfind
    obtain ⟨hlo, -, hlt⟩ := hL.size hA
    simp only [hfind, Option.bind_eq_bind, Option.bind_some, flRemove_lo, hlo] at hr
    split_ifs at hr with hsmall
    have : r = (n + (2 ^ 64 - q)) % 2 ^ 64 % 2 ^ 32 := (Option.some.inj hr).symm
    omega

end Good

/-! ## One request -/

namespace Good
variable {h : Heap} {A : Blocks} {n : ℕ}

theorem searchedSize_of (hG : Good h A) (hn : adjustedBlockSize n ≠ 0) :
    searchedSize h n = some (adjustedBlockSize n) := by
  rw [searchedSize, if_neg]
  exact fun hor => hor.elim hG.base_ne_zero hn

/-- Without a wrap around every request is safe. -/
theorem allocateSafe_of_fits (hG : Good h A) (hlim : adjustedBlockSize n ≤ 2 ^ 64 - 2 ^ 59) :
    AllocateSafe h n := by
  by_cases hzero : adjustedBlockSize n = 0
  · have hnone : searchedSize h n = none := if_pos (Or.inr hzero)
    refine ⟨by simp [indexedClasses, hnone], by simp [flsArguments, hnone], .null, h, ?_,
      Or.inl ⟨rfl, rfl⟩⟩
    simp [Tlsf.allocate, hG.base_ne_zero, hzero]
  obtain ⟨hq, hqm, -, hlt⟩ := adjustedBlockSize_spec hzero
  have hsize := hG.searchedSize_of hzero
  have hfi := (le_classLower_search hq hlim).1
  refine ⟨fun c hc => ?_, fun v hv => ?_, ?_⟩
  · simp only [indexedClasses, hsize, Option.elim_some, List.mem_append, List.mem_map,
      Option.mem_toList] at hc
    rcases hc with hc | ⟨r, hr, rfl⟩
    · exact hG.searchedClasses_lt hfi c hc
    · obtain ⟨hr64, hr32⟩ := hG.remainderSize_spec hq hlim hr
      have := log2_sub_lt_flMax hr64 hr32
      rw [mappingInsert_fst hr64]
      exact ⟨by omega, by omega, mappingInsert_snd_lt hr64⟩
  · simp only [flsArguments, hsize, Option.elim_some, List.mem_append, Option.mem_toList] at hv
    rcases hv with hv | hr
    · rcases List.mem_pair.1 hv with rfl | rfl
      · exact hzero
      · exact roundedSize_ne_zero hq hqm hlt
    · have := (hG.remainderSize_spec hq hlim hr).1
      omega
  · rcases hG.allocate hlim with hnull | ⟨b, sz, h', A', hal, hG', hT, -, hu, hc⟩
    · exact ⟨_, _, hnull, Or.inl ⟨rfl, rfl⟩⟩
    · have hb : used A' b = some (sz, blockAlloc) := by rw [hT.used, update_self]
      have hin := hG'.phys.base_lt (used_eq_some.1 hb).1
      have hend : h'.ctl.endSentinel = h.ctl.endSentinel := by
        rw [TlsfList.endSentinel, hc.base, hc.total]
        rfl
      rw [hend, hc.base] at hin
      exact ⟨_, _, hal, Or.inr ⟨by simp only; omega, by simp only; omega, by simp only; omega⟩⟩

/-- A request whose rounded size names a class from which on there is no block finds nothing. -/
theorem findFree_of_clear (hG : Good h A) {q : ℕ} (h64 : 64 ≤ roundedSize q)
    (hclear : (h.ctl.flCount : ℤ) ≤ (mappingSearch q).1 ∨
      ∀ i, searchClass q ≤ i → h.ctl.heads i = 0) : findFree h q = some (0, h) := by
  obtain ⟨fl, hL⟩ := hG.lists
  by_cases hout : (h.ctl.flCount : ℤ) ≤ (mappingSearch q).1
  · exact if_pos hout
  · exact (hL.findFree_null_heads ((mappingInsert_nonneg_iff _).2 h64) (not_le.1 hout)).2
      (hclear.resolve_left hout)

/-- After a wrap around a request is safe only if nothing is found. -/
theorem allocateSafe_iff_of_wraps (hG : Good h A) (hlim : 2 ^ 64 - 2 ^ 59 < adjustedBlockSize n) :
    AllocateSafe h n ↔ 64 ≤ roundedSize (adjustedBlockSize n) ∧
      ((h.ctl.flCount : ℤ) ≤ (mappingSearch (adjustedBlockSize n)).1 ∨
        ∀ i, searchClass (adjustedBlockSize n) ≤ i → h.ctl.heads i = 0) := by
  obtain ⟨fl, hL⟩ := hG.lists
  have hzero : adjustedBlockSize n ≠ 0 := by omega
  obtain ⟨hq, hqm, -, hlt⟩ := adjustedBlockSize_spec hzero
  have hsize := hG.searchedSize_of hzero
  have hcl := hG.rings.classes
  set q := adjustedBlockSize n with hqdef
  have hal : Tlsf.allocate h n = (findFree h q).bind fun r =>
      if r.1 = 0 then some (.null, r.2) else
        (trySplit r.2 r.1 q).bind fun h => some (Tlsf.handOut h r.1 blockAlloc) := by
    simp only [Tlsf.allocate, if_neg hG.base_ne_zero, ← hqdef, if_neg hzero]
    rfl
  constructor
  · rintro ⟨hidx, -, c, h', hrun, hpost⟩
    -- the first class that is read is the one of the rounded size
    have hfi : 0 ≤ (mappingSearch q).1 := by
      by_contra hneg
      have hmem : mappingSearch q ∈ indexedClasses h n := by
        simp only [indexedClasses, hsize, Option.elim_some, List.mem_append]
        left
        simp only [searchedClasses]
        rw [if_neg (by omega)]
        split_ifs <;> simp
      exact hneg (hidx _ hmem).1
    refine ⟨(mappingInsert_nonneg_iff _).1 hfi, ?_⟩
    by_cases hout : (h.ctl.flCount : ℤ) ≤ (mappingSearch q).1
    · exact Or.inl hout
    · right
      rw [← hL.findFree_null_heads hfi (not_le.1 hout)]
      rcases hL.findFree_from hfi with hnull | ⟨b, m, hA, -, -, hfind⟩
      · exact hnull
      · have hfind : findFree h q = some (b, flRemove h b) := hfind
        have hsplit := hG.trySplit_wraps hlim hlt hqm hA (by omega)
        rw [hal, hfind, Option.bind_some, if_neg (hG.pos hA), hsplit] at hrun
        cases hrun
  · rintro ⟨h64, hclear⟩
    have hfi : 0 ≤ (mappingSearch q).1 := (mappingInsert_nonneg_iff _).2 h64
    have hnull := hG.findFree_of_clear h64 hclear
    have hrem : remainderSize h q = none := by simp [remainderSize, hnull]
    refine ⟨fun c hc => ?_, fun v hv => ?_, .null, h, ?_, Or.inl ⟨rfl, rfl⟩⟩
    · simp only [indexedClasses, hsize, Option.elim_some, hrem, Option.toList_none, List.map_nil,
        List.append_nil] at hc
      exact hG.searchedClasses_lt hfi c hc
    · simp only [flsArguments, hsize, Option.elim_some, hrem, Option.toList_none,
        List.append_nil] at hv
      rcases List.mem_pair.1 hv with rfl | rfl
      · exact hzero
      · exact roundedSize_ne_zero hq hqm hlt
    · rw [hal, hnull]
      rfl

/-- A request to an accepted pool is safe exactly if it is searchable. -/
theorem allocateSafe_iff (hG : Good h A) : AllocateSafe h n ↔ Searchable h n := by
  unfold Searchable
  by_cases hlim : adjustedBlockSize n ≤ 2 ^ 64 - 2 ^ 59
  · exact iff_of_true (hG.allocateSafe_of_fits hlim) (Or.inr (Or.inl hlim))
  · rw [hG.allocateSafe_iff_of_wraps (not_le.1 hlim)]
    simp only [hG.base_ne_zero, hlim, false_or]

end Good

/-! ## Runs -/

/-- The steps of a client that passes pointers it holds, deallocates no tombstoned block that a
ring points to, and makes searchable requests of any size. -/
def Requested (w : Client Heap) (op : Op) : Prop :=
  w.wellHeld op = true ∧ sparesRing w op = true ∧
    match op with
    | .allocate n => Searchable w.book n
    | .temporalAllocate n => Searchable w.book n
    | _ => True

theorem step_requested {w : Client Heap} {A : Blocks} {op : Op} (hG : Good w.book A) (hH : Held w A)
    (hop : Requested w op) : ∃ w' A', w.step tlsfBook op = some w' ∧ Effect w A op w' A' := by
  obtain ⟨hlegal, hring, hsearch⟩ := hop
  by_cases hfit : fitsOp fitsRequest op = true
  · exact step_effect hG hH hlegal hfit hring
  -- what is left are requests that wrap around
  cases op with
  | tombstone p => exact absurd rfl hfit
  | deallocate p => exact absurd rfl hfit
  | write p i c => exact absurd rfl hfit
  | allocate n =>
    have hlim : 2 ^ 64 - 2 ^ 59 < adjustedBlockSize n := by
      simpa [fitsOp, fitsRequest] using hfit
    obtain ⟨h64, hclear⟩ := (hsearch.resolve_left hG.base_ne_zero).resolve_left (not_le.2 hlim)
    have hnull : allocate w.book n = some (.null, w.book) := by
      simp [Tlsf.allocate, hG.base_ne_zero, show adjustedBlockSize n ≠ 0 by omega,
        hG.findFree_of_clear h64 hclear]
    exact ⟨w, A, by simp [Client.step, tlsfBook, hnull, Client.receive, Chunk.null], .idle⟩
  | temporalAllocate n =>
    have hlim : 2 ^ 64 - 2 ^ 59 < adjustedBlockSize n := by
      simpa [fitsOp, fitsRequest] using hfit
    obtain ⟨h64, hclear⟩ := (hsearch.resolve_left hG.base_ne_zero).resolve_left (not_le.2 hlim)
    by_cases h0 : ringBlock w.book.ctl n = 0
    · have hnull : temporalAllocate w.book n = some (.null, w.book) := by
        rcases hG.temporalAllocate_carve h0 with hnull | ⟨-, hcarve⟩
        · exact hnull
        · simp [hcarve, Tlsf.temporalCarve, hG.findFree_of_clear h64 hclear]
      exact ⟨w, A, by simp [Client.step, tlsfBook, hnull, Client.receive, Chunk.null], .idle⟩
    · obtain ⟨i, r, sz, f, h', hr, hslot, hb, hal, hG', hm, hc⟩ := hG.temporalAllocate_ring h0
      exact ⟨_, A, by simp [Client.step, tlsfBook, hal], .reuse hr hslot hb hG' hm hc⟩

def Refused (w : Client Heap) : Prop := w.book.ctl.base = 0 ∧ ∀ p, w.held p = none

theorem Refused.step {w w' : Client Heap} {op : Op} (hR : Refused w) (hop : Requested w op)
    (hstep : w.step tlsfBook op = some w') : Refused w' := by
  obtain ⟨hbase, hheld⟩ := hR
  have hlegal := hop.1
  have hnull : ∀ n, allocate w.book n = some (.null, w.book) ∧
      temporalAllocate w.book n = some (.null, w.book) := fun n => by
    simp [allocate, temporalAllocate, hbase]
  cases op with
  | allocate n =>
    simp only [Client.step, tlsfBook, (hnull n).1] at hstep
    cases hstep
    exact ⟨hbase, hheld⟩
  | temporalAllocate n =>
    simp only [Client.step, tlsfBook, (hnull n).2] at hstep
    cases hstep
    exact ⟨hbase, hheld⟩
  | tombstone p => simp [Client.wellHeld, hheld] at hlegal
  | deallocate p => simp [Client.wellHeld, hheld] at hlegal
  | write p i c => simp [Client.wellHeld, Client.writes, Client.live, hheld] at hlegal

/-- In every state of a run of such steps a request of any size is safe exactly if it is
searchable. -/
theorem allocate_safe_iff {m : Mem} {ptr len : ℕ} {ops : List Op} {w : Client Heap}
    (hlen : ptr + len ≤ 2 ^ 64)
    (hrun : Run Requested (Client.step tlsfBook) (.start (initMemory m ptr len)) ops w) (n : ℕ) :
    AllocateSafe w.book n ↔ Searchable w.book n := by
  by_cases hacc : (initMemory m ptr len).ctl.base = 0
  · obtain ⟨hbase, -⟩ := hrun.invariant Refused (fun _ _ _ hR hop hstep => hR.step hop hstep)
      ⟨hacc, fun _ => rfl⟩
    have hnone : searchedSize w.book n = none := if_pos (Or.inl hbase)
    refine iff_of_true
      ⟨by simp [indexedClasses, hnone], by simp [flsArguments, hnone], .null, w.book,
      ?_, Or.inl ⟨rfl, rfl⟩⟩ (Or.inl hbase)
    simp [allocate, hbase]
  · have hinv : ∃ A, Good w.book A ∧ Held w A := by
      refine hrun.invariant (fun w => ∃ A, Good w.book A ∧ Held w A) ?_
        ⟨_, initMemory_good hlen hacc, fun hp => by simp [Client.start] at hp⟩
      rintro w op w' ⟨A, hG, hH⟩ hop hstep
      obtain ⟨w'', A', hstep', heff⟩ := step_requested hG hH hop
      rw [hstep, Option.some.injEq] at hstep'
      subst hstep'
      exact ⟨A', heff.preserves hG hH⟩
    obtain ⟨A, hG, -⟩ := hinv
    exact hG.allocateSafe_iff

/-- A request that is refused by the guard of `adjusted_block_size`, one that is served, and one
whose rounding wraps around to a class without blocks. -/
theorem allocate_safe_iff_large : ∃ w, Run Requested (Client.step tlsfBook)
    (.start (initMemory .zero 4096 1024)) [] w ∧ AllocateSafe w.book (2 ^ 64 - 1) ∧
      AllocateSafe w.book 100 ∧ AllocateSafe w.book (2 ^ 64 - 2 ^ 58) := by
  have hstart : Run Requested (Client.step tlsfBook) (.start (initMemory .zero 4096 1024)) []
    (.start (initMemory .zero 4096 1024)) := .nil _
  refine ⟨_, hstart, (allocate_safe_iff (by decide) hstart _).2 (Or.inr (Or.inl (by decide))),
    (allocate_safe_iff (by decide) hstart _).2 (Or.inr (Or.inl (by decide))),
    (allocate_safe_iff (by decide) hstart _).2 (Or.inr (Or.inr ⟨by decide +kernel, Or.inl ?_⟩))⟩
  decide +kernel

/-- The rounding wraps around to 31, and `find_free` reads in front of `sl_bitmap`. -/
theorem allocate_unsafe : ∃ ops w, Run (fun w op => w.wellLive op = true) (Client.step tlsfBook)
    (.start (initMemory .zero 4096 1024)) ops w ∧
    ¬AllocateSafe w.book (2 ^ 64 - 2 ^ 59 - 32) ∧
    (-2, 15) ∈ indexedClasses w.book (2 ^ 64 - 2 ^ 59 - 32) := by
  have hmem : (-2, 15) ∈ indexedClasses (initMemory .zero 4096 1024) (2 ^ 64 - 2 ^ 59 - 32) := by
    decide +kernel
  refine ⟨[], _, .nil _, fun hsafe => ?_, hmem⟩
  have := (hsafe.1 _ hmem).1
  omega

end AbcMalloc.Tlsf
