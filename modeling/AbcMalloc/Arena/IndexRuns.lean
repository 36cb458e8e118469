import AbcMalloc.Arena.SortedIndex
import AbcMalloc.Arena.Tier

/-! The index of a tier over whole runs: the sorted list, the last hit and the search. The closed
forms of the tier model are what the loops of the index compute. -/
namespace AbcMalloc.Arena
open Function Foundation

namespace RangeIndex
variable {ν : Type*} {maxSheets pos i : ℕ} {t t' : RangeIndex ν} {r : Range ν}

/-! ## The last hit -/

def SameHit (t t' : RangeIndex ν) : Prop :=
  t.lastHit < t.count ∧ t'.lastHit < t'.count ∧ t'.idx t'.lastHit = t.idx t.lastHit

theorem Ordered.hit_ne (hO : t.Ordered maxSheets) (hlt : t.lastHit < t.count) :
    t.lastHit ≠ noHit maxSheets := by
  have hle := hO.count_le
  unfold noHit
  omega

theorem Ordered.hit_lt (hO : t.Ordered maxSheets) (hne : t.lastHit ≠ noHit maxSheets) :
    t.lastHit < t.count := hO.hit.resolve_left hne

/-- A new sheet pushes the last hit up or leaves it where it is. -/
theorem registerSheet_lastHit (hO : t.Ordered maxSheets) (r : Range ν) :
    ((t.registerSheet maxSheets r).2.lastHit = noHit maxSheets ↔ t.lastHit = noHit maxSheets) ∧
    ((t.registerSheet maxSheets r).2.lastHit ≠ noHit maxSheets →
      SameHit t (t.registerSheet maxSheets r).2) := by
  have hle := hO.count_le
  by_cases hroom : t.count < maxSheets
  · have h := registerSheet_inserted hroom r
    generalize (t.registerSheet maxSheets r).1 = pos at h
    have hpos := h.pos_le
    rcases hO.hit with hno | hlt
    · have hstay : (t.registerSheet maxSheets r).2.lastHit = noHit maxSheets := by
        rw [h.hit, if_neg (by simp [hno]), hno]
      exact ⟨⟨fun _ => hno, fun _ => hstay⟩, fun hne => absurd hstay hne⟩
    · have hne := hO.hit_ne hlt
      have hsame : SameHit t (t.registerSheet maxSheets r).2 := by
        refine ⟨hlt, ?_⟩
        rw [h.count, h.hit]
        split_ifs with hmove
        · exact ⟨by omega, h.idx_succ _ hmove.2.1 hlt⟩
        · refine ⟨by omega, h.idx_lt _ ?_⟩
          by_contra hge
          exact hmove ⟨hne, by omega, by omega⟩
      have hstill : (t.registerSheet maxSheets r).2.lastHit ≠ noHit maxSheets := by
        have := hsame.2.1
        rw [h.count] at this
        rw [h.hit] at this ⊢
        unfold noHit
        split_ifs <;> omega
      exact ⟨⟨fun he => absurd he hstill, fun he => absurd he hne⟩, fun _ => hsame⟩
  · rw [register_full (by omega)]
    exact ⟨Iff.rfl, fun hne => ⟨hO.hit_lt hne, hO.hit_lt hne, rfl⟩⟩

/-- Removing a sheet forgets the last hit if it was that sheet, and else follows it. -/
theorem unregister_lastHit (hO : t.Ordered maxSheets) (pos : ℕ) :
    ((t.unregister maxSheets pos).lastHit = noHit maxSheets ↔
      t.lastHit = noHit maxSheets ∨ pos = t.lastHit) ∧
    ((t.unregister maxSheets pos).lastHit ≠ noHit maxSheets →
      SameHit t (t.unregister maxSheets pos)) := by
  have hle := hO.count_le
  by_cases hpos : pos < t.count
  · have h : Removed maxSheets pos t _ := unregister_removed hpos
    rcases hO.hit with hno | hlt
    · have hstay : (t.unregister maxSheets pos).lastHit = noHit maxSheets := by
        rw [h.hit, if_neg (by simp [hno]), hno]
      exact ⟨⟨fun _ => .inl hno, fun _ => hstay⟩, fun hne => absurd hstay hne⟩
    · have hne := hO.hit_ne hlt
      rw [h.hit, if_pos hne]
      by_cases hat : pos = t.lastHit
      · rw [if_pos hat]
        exact ⟨⟨fun _ => .inr hat, fun _ => rfl⟩, fun h => absurd rfl h⟩
      · rw [if_neg hat]
        have hsame : SameHit t (t.unregister maxSheets pos) := by
          refine ⟨hlt, ?_⟩
          rw [h.count, h.hit, if_pos hne, if_neg hat]
          split_ifs with hbelow
          · refine ⟨by omega, ?_⟩
            rw [h.idx_ge _ (by omega) (by omega), Nat.sub_add_cancel (by omega)]
          · exact ⟨by omega, h.idx_lt _ (by omega)⟩
        refine ⟨⟨fun he => ?_, fun he => ?_⟩, fun _ => hsame⟩
        · unfold noHit at he hne
          split_ifs at he with hbelow
          · omega
          · exact absurd he hne
        · exact absurd he (not_or.2 ⟨hne, hat⟩)
  · rw [unregister_beyond (by omega)]
    refine ⟨⟨.inl, ?_⟩, fun hne => ⟨hO.hit_lt hne, hO.hit_lt hne, rfl⟩⟩
    rintro (he | rfl)
    · exact he
    · exact hO.hit.resolve_right hpos

/-- Only the removal of the sheet forgets the last hit. -/
theorem apply_lastHit (hO : t.Ordered maxSheets) {op : Op ν} (hop : ∀ pos, op ≠ .hit pos) :
    ((t.apply maxSheets op).lastHit = noHit maxSheets ↔
      t.lastHit = noHit maxSheets ∨ op = .unregister t.lastHit) ∧
    ((t.apply maxSheets op).lastHit ≠ noHit maxSheets → SameHit t (t.apply maxSheets op)) := by
  cases op with
  | register r =>
    obtain ⟨hiff, hsame⟩ := registerSheet_lastHit hO r
    exact ⟨by simpa [apply] using hiff, hsame⟩
  | unregister pos =>
    obtain ⟨hiff, hsame⟩ := unregister_lastHit hO pos
    exact ⟨by simpa [apply] using hiff, hsame⟩
  | markExhausted pos =>
    exact ⟨by simp [apply, markExhausted], fun hne => ⟨hO.hit_lt hne, hO.hit_lt hne, rfl⟩⟩
  | markAvailable pos =>
    exact ⟨by simp [apply, markAvailable], fun hne => ⟨hO.hit_lt hne, hO.hit_lt hne, rfl⟩⟩
  | hit pos => exact absurd rfl (hop pos)

/-! ## The search -/

/-- The loop is the search for the interval of the address. -/
theorem findLoop_eq {idx : ℕ → Range ν} {addr : ℕ} : ∀ fuel a n : ℕ, n - a ≤ fuel →
    findLoop idx addr a (n - 1) = ((searchInterval (fun i => (idx i).lo) (fun i => (idx i).hi) addr
      fuel a n).map Int.ofNat).getD (-1) := by
  intro fuel
  induction fuel with
  | zero =>
    intro a n hfuel
    rw [findLoop, if_neg (by omega)]
    rfl
  | succ fuel ih =>
    intro a n hfuel
    rw [findLoop, searchInterval]
    by_cases h : n ≤ a
    · rw [if_neg (by omega), if_pos h]
      rfl
    · have hmid : (a : ℤ) + ((n : ℤ) - 1 - a) / 2 = ((a + (n - 1 - a) / 2 : ℕ) : ℤ) := by omega
      rw [if_pos (by omega), if_neg h, hmid]
      simp only [Int.toNat_natCast]
      have hbound : a ≤ a + (n - 1 - a) / 2 ∧ a + (n - 1 - a) / 2 < n := by omega
      generalize a + (n - 1 - a) / 2 = mid at hbound ⊢
      split_ifs with hlo hhi
      · exact ih a mid (by omega)
      · exact ih (mid + 1) n (by omega)
      · rfl

/-- The search on an index whose number of sheets is a signed 32-bit number. -/
theorem findRange_eq (hcount : t.count < 2 ^ 31) (addr : ℕ) : t.findRange addr =
    some (((searchInterval (fun i => (t.idx i).lo) (fun i => (t.idx i).hi) addr
      t.count 0 t.count).map Int.ofNat).getD (-1)) := by
  have hn : (t.count : ℤ).bmod (2 ^ 32) = t.count := by
    rw [Int.bmod_eq_of_le (by omega) (by omega)]
  unfold findRange
  simp only [hn]
  rw [if_neg (by omega)]
  exact congrArg some (findLoop_eq t.count 0 t.count (by omega))

/-- The search answers the position whose range holds the address. -/
theorem findRange_eq_some (hO : t.Ordered maxSheets) (hcount : t.count < 2 ^ 31) {addr : ℕ} :
    t.findRange addr = some (i : ℤ) ↔
      i < t.count ∧ (t.idx i).lo ≤ addr ∧ addr < (t.idx i).hi := by
  rw [← searchInterval_eq_some hO.nonempty hO.ordered, findRange_eq hcount]
  cases searchInterval (fun i => (t.idx i).lo) (fun i => (t.idx i).hi) addr t.count 0 t.count with
  | none => simp
  | some j => simp

theorem findRange_eq_neg (hO : t.Ordered maxSheets) (hcount : t.count < 2 ^ 31) {addr : ℕ} :
    t.findRange addr = some (-1) ↔
      ∀ i < t.count, ¬((t.idx i).lo ≤ addr ∧ addr < (t.idx i).hi) := by
  have hsome := fun i => searchInterval_eq_some (x := addr) (i := i) hO.nonempty hO.ordered
  rw [findRange_eq hcount]
  cases h : searchInterval (fun i => (t.idx i).lo) (fun i => (t.idx i).hi) addr t.count 0
    t.count with
  | none =>
    constructor
    · intro _ i hi hheld
      have hfound := (hsome i).2 ⟨hi, hheld⟩
      rw [h] at hfound
      cases hfound
    · intro _
      rfl
  | some j =>
    have hj := (hsome j).1 h
    constructor
    · intro hneg
      simp at hneg
    · intro hnone
      exact absurd hj.2 (hnone j hj.1)

/-- More than 2^31 sheets are a negative number of sheets. -/
theorem findRange_of_lt (hcount : 2 ^ 31 < t.count) (hle : t.count < 2 ^ 32) (addr : ℕ) :
    t.findRange addr = some (-1) := by
  have hn : (t.count : ℤ).bmod (2 ^ 32) = t.count - 2 ^ 32 := by
    rw [Int.bmod_neg _ _ (by omega)]
    omega
  unfold findRange
  simp only [hn]
  rw [if_neg (by omega), findLoop, if_neg (by omega)]

/-! ## Runs -/

/-- The runs of an index from `init`, over entries that held anything before. -/
abbrev Runs (maxSheets : ℕ) (junk : RangeIndex ν) : List (Op ν) → RangeIndex ν → Prop :=
  Run Permitted (fun t op => some (t.apply maxSheets op)) (init maxSheets junk)

theorem run_sheets (hmax : maxSheets ≤ 2 ^ 32 - 64) {s : RangeIndex ν} {ops : List (Op ν)}
    (hrun : Run Permitted (fun t op => some (t.apply maxSheets op)) s ops t)
    (hO : s.Ordered maxSheets) :
    t.sheets = ops.foldl (SheetList.apply maxSheets) s.sheets ∧ t.Ordered maxSheets := by
  induction hrun with
  | nil => exact ⟨rfl, hO⟩
  | cons hok hstep _ ih =>
    obtain rfl := Option.some.inj hstep
    obtain ⟨hsheets, hO'⟩ := apply_sheets hmax hO hok
    rw [List.foldl_cons, ← hsheets]
    exact ih hO'

/-- What the list can do, an index can. -/
theorem exists_run (hmax : maxSheets ≤ 2 ^ 32 - 64) {l l' : SheetList ν} {ops : List (Op ν)}
    (hrun : Run SheetList.Permitted (fun l op => some (SheetList.apply maxSheets l op)) l ops l')
    {s : RangeIndex ν} (hO : s.Ordered maxSheets) (hs : s.sheets = l) :
    ∃ t, Run Permitted (fun t op => some (t.apply maxSheets op)) s ops t ∧ t.sheets = l' := by
  induction hrun generalizing s with
  | nil => exact ⟨s, .nil s, hs⟩
  | cons hok hstep _ ih =>
    obtain rfl := Option.some.inj hstep
    subst hs
    have hperm := permitted_iff.1 hok
    obtain ⟨hsheets, hO'⟩ := apply_sheets hmax hO hperm
    obtain ⟨t, ht, hl⟩ := ih hO' hsheets
    exact ⟨t, .cons hperm rfl ht, hl⟩

theorem Ordered.nonempty_sheets (hO : t.Ordered maxSheets) : ∀ e ∈ t.sheets, e.1.lo < e.1.hi := by
  intro e he
  obtain ⟨i, hi, rfl⟩ := List.mem_map.1 he
  exact hO.nonempty i (List.mem_range.1 hi)

theorem Ordered.pairwise (hO : t.Ordered maxSheets) :
    t.sheets.Pairwise fun e e' => e.1.hi ≤ e'.1.lo := by
  rw [List.pairwise_iff_getElem]
  intro i j hi hj hij
  have hj' : j < t.count := by simpa using hj
  simp only [sheets, getElem_toList]
  exact hO.ordered i j hij hj'

/-- Along every run the index is a sorted list of sheets with their availability: the entries and
their bits are those of the list on which the same operations insert by address, delete and mark,
the bits behind them are 0, and a full index takes nothing. The search finds the sheet of an
address as long as the number of sheets fits a signed 32-bit number, and the last hit stays the
sheet it was until that sheet goes. -/
theorem index_refines_sorted_list (hmax : maxSheets ≤ 2 ^ 32 - 64) {junk : RangeIndex ν}
    {ops : List (Op ν)} (hrun : Runs maxSheets junk ops t) :
    t.sheets = ops.foldl (SheetList.apply maxSheets) [] ∧
    (∀ e ∈ t.sheets, e.1.lo < e.1.hi) ∧ (t.sheets.Pairwise fun e e' => e.1.hi ≤ e'.1.lo) ∧
    (∀ i, t.count ≤ i → i < 64 * detailWords maxSheets → t.maskGet i = false) ∧
    t.count ≤ maxSheets ∧
    (t.count = maxSheets → ∀ r, t.registerSheet maxSheets r = (maxSheets, t)) ∧
    (t.count < 2 ^ 31 → ∀ addr,
      (∀ i : ℕ, t.findRange addr = some (i : ℤ) ↔
        i < t.count ∧ (t.idx i).lo ≤ addr ∧ addr < (t.idx i).hi) ∧
      (t.findRange addr = some (-1) ↔
        ∀ i < t.count, ¬((t.idx i).lo ≤ addr ∧ addr < (t.idx i).hi))) ∧
    ∀ op, t.Permitted op → (∀ pos, op ≠ .hit pos) →
      ((t.apply maxSheets op).lastHit = noHit maxSheets ↔
        t.lastHit = noHit maxSheets ∨ op = .unregister t.lastHit) ∧
      ((t.apply maxSheets op).lastHit ≠ noHit maxSheets → SameHit t (t.apply maxSheets op)) := by
  obtain ⟨hsheets, hO⟩ := run_sheets hmax hrun (ordered_init junk)
  refine ⟨hsheets, hO.nonempty_sheets, hO.pairwise, ?_, hO.count_le, ?_, ?_, ?_⟩
  · intro i hi hw
    exact hO.clear i hi (by omega)
  · intro hfull r
    exact register_full hfull.ge
  · intro hcount addr
    exact ⟨fun i => findRange_eq_some hO hcount, findRange_eq_neg hO hcount⟩
  · intro op _ hop
    exact apply_lastHit hO hop

/-- Three sheets, one of them exhausted, and the one in the middle dropped. -/
theorem index_refines_sorted_list_three :
    ∃ t : RangeIndex ℕ, Runs 3 ⟨fun _ => ⟨0, 0, 0⟩, 0, fun _ => 0, 0⟩
        [.register ⟨8, 9, 1⟩, .register ⟨4, 6, 2⟩, .hit 1, .register ⟨6, 8, 3⟩, .markExhausted 0,
          .unregister 1] t ∧
      t.sheets = [(⟨4, 6, 2⟩, false), (⟨8, 9, 1⟩, true)] := by
  have hlist : Run SheetList.Permitted (fun l op => some (SheetList.apply 3 l op)) []
      [.register ⟨8, 9, 1⟩, .register ⟨4, 6, 2⟩, .hit 1, .register ⟨6, 8, 3⟩, .markExhausted 0,
        .unregister 1] ([(⟨4, 6, 2⟩, false), (⟨8, 9, 1⟩, true)] : SheetList ℕ) :=
    run_of_exec (by decide)
  obtain ⟨t, hrun, -⟩ := exists_run (by decide) hlist
    (ordered_init ⟨fun _ => ⟨0, 0, 0⟩, 0, fun _ => 0, 0⟩) rfl
  exact ⟨t, hrun, (index_refines_sorted_list (by decide) hrun).1⟩

theorem run_registers {n : ℕ} (hn : n ≤ maxSheets) :
    Run SheetList.Permitted (fun l op => some (SheetList.apply maxSheets l op)) []
      ((List.range n).map fun i => Op.register ⟨i, i + 1, ()⟩)
      ((List.range n).map fun i => (⟨i, i + 1, ()⟩, true)) := by
  induction n with
  | zero => exact .nil _
  | succ n ih =>
    rw [List.range_succ, List.map_append, List.map_append]
    apply (ih (by omega)).append
    refine .cons ⟨Nat.lt_succ_self n, ?_⟩ ?_ (.nil _)
    · intro e he
      obtain ⟨i, hi, rfl⟩ := List.mem_map.1 he
      right
      exact List.mem_range.1 hi
    · simp only [SheetList.apply, List.length_map, List.length_range]
      rw [if_neg (by omega), orderedInsert_eq_insertIdx le_rfl]
      · rw [List.insertIdx_length_self]
        rfl
      · intro i hi _
        have : i < n := by simpa using hi
        simp
        omega
      · intro hp
        exact absurd hp (lt_irrefl _)

/-- With more than 2^31 sheets the search finds none of them: their number is taken for a negative
one. And with a capacity above 2^32 - 64 the number of words wraps to 0, so that the bit of the
first sheet is written outside the bitmap. -/
theorem index_misses_many_sheets :
    (∃ (ops : List (Op Unit)) (t : RangeIndex Unit),
      Runs (2 ^ 32 - 64) ⟨fun _ => ⟨0, 0, ()⟩, 0, fun _ => 0, 0⟩ ops t ∧
        0 < t.count ∧ (t.idx 0).lo ≤ 0 ∧ 0 < (t.idx 0).hi ∧ t.findRange 0 = some (-1)) ∧
    detailWords (2 ^ 32 - 1) = 0 ∧
      ((init (2 ^ 32 - 1) ⟨fun _ => ⟨0, 0, ()⟩, 0, fun _ => 0, 0⟩).apply (2 ^ 32 - 1)
        (.register ⟨0, 1, ()⟩)).spaceMask 0 = 1 := by
  refine ⟨?_, rfl, ?_⟩
  · have hlist := run_registers (show 2 ^ 31 + 1 ≤ 2 ^ 32 - 64 by decide)
    obtain ⟨t, hrun, hsheets⟩ := exists_run le_rfl hlist
      (ordered_init ⟨fun _ => ⟨0, 0, ()⟩, 0, fun _ => 0, 0⟩) rfl
    have hcount : t.count = 2 ^ 31 + 1 := by
      rw [← t.length_sheets, hsheets, List.length_map, List.length_range]
    have hfirst : (t.idx 0, t.maskGet 0) = (⟨0, 1, ()⟩, true) := by
      have hget : t.sheets[0]? = some (⟨0, 1, ()⟩, true) := by
        rw [hsheets, List.getElem?_map, List.getElem?_range (by decide)]
        rfl
      rw [sheets, getElem?_toList (by omega)] at hget
      exact Option.some.inj hget
    have hidx := congrArg Prod.fst hfirst
    simp only at hidx
    refine ⟨_, t, hrun, by omega, by rw [hidx], by rw [hidx]; decide, ?_⟩
    exact findRange_of_lt (by omega) (by omega) 0
  · have hpos : ∀ junk : RangeIndex Unit, (init (2 ^ 32 - 1) junk).insertPos 0 0 = 0 := by
      intro junk
      rw [insertPos, if_neg (by simp [init])]
    simp only [apply, registerSheet]
    rw [if_neg (by simp [init]), hpos]
    simp only [maskInsert]
    rw [carryUp_apply, if_neg (by omega)]
    simp [init, clearMask, detailWords]

end RangeIndex

/-! ## The tier model -/

section Tier
variable {σ : Type*} {T : Params σ} {t t' : Tier σ} {x : RangeIndex (Bool × Sheet σ)}

def Range.toEntry (r : Range (Bool × Sheet σ)) : Entry σ := ⟨r.lo, r.hi, r.nd.1, r.nd.2⟩

def Entry.toRange (e : Entry σ) : Range (Bool × Sheet σ) := ⟨e.lo, e.hi, e.head, e.sheet⟩

structure Tier.Indexed (t : Tier σ) (x : RangeIndex (Bool × Sheet σ)) : Prop where
  idx : t.idx = toList (fun i => (x.idx i).toEntry) x.count
  mask : t.spaceMask = x.spaceMask
  lastHit : t.lastHit = x.lastHit

theorem Tier.detailWords_eq (hmax : T.maxSheets ≤ 2 ^ 32 - 64) :
    Tier.detailWords T = RangeIndex.detailWords T.maxSheets := by
  unfold Tier.detailWords RangeIndex.detailWords
  rw [Nat.mod_eq_of_lt (by omega)]

/-- The case for bit 0 of the source is the general one. -/
theorem loMask_eq (b : ℕ) :
    (if b = 0 then 0#64 else 1#64 <<< b - 1#64) = 1#64 <<< b - 1#64 := by
  split_ifs with h
  · subst h
    rfl
  · rfl

/-- The bitmap of the tier model with a bit inserted is what the loop computes. -/
theorem Tier.maskInsert_eq (hmax : T.maxSheets ≤ 2 ^ 32 - 64) (mask : ℕ → BitVec 64) (pos : ℕ) :
    Tier.maskInsert T mask pos =
      RangeIndex.maskInsert (RangeIndex.detailWords T.maxSheets) mask pos true := by
  have hlast : ∀ w : BitVec 64, (w >>> 63) &&& 1#64 = w >>> 63 := by
    intro w
    apply BitVec.eq_of_getLsbD_eq
    intro j _
    rw [BitVec.getLsbD_and, BitVec.getLsbD_ushiftRight]
    by_cases hj : j = 0
    · simp [hj]
    · rw [BitVec.getLsbD_of_ge w (63 + j) (by omega), Bool.false_and]
  funext i
  unfold Tier.maskInsert RangeIndex.maskInsert
  simp only [carryUp_apply, Tier.detailWords_eq hmax, hlast, loMask_eq, if_true]
  generalize RangeIndex.detailWords T.maxSheets = words
  rcases lt_trichotomy i (pos / 64) with hlt | rfl | hgt
  · rw [if_neg hlt.ne, if_neg (show ¬(pos / 64 < i ∧ i < words) by omega),
      if_neg (show ¬(pos / 64 + 1 ≤ i ∧ i < words) by omega), update_of_ne hlt.ne]
  · rw [if_pos rfl, if_neg (show ¬(pos / 64 + 1 ≤ pos / 64 ∧ pos / 64 < words) by omega),
      update_self]
    rfl
  · rw [if_neg hgt.ne', update_of_ne hgt.ne']
    by_cases hw : i < words
    · rw [if_pos ⟨hgt, hw⟩, if_pos (show pos / 64 + 1 ≤ i ∧ i < words from ⟨hgt, hw⟩)]
      congr 1
      by_cases hnext : i = pos / 64 + 1
      · rw [if_pos hnext, hnext, Nat.add_sub_cancel]
      · rw [if_neg hnext, update_of_ne (show i - 1 ≠ pos / 64 by omega)]
    · rw [if_neg (show ¬(pos / 64 < i ∧ i < words) by omega),
        if_neg (show ¬(pos / 64 + 1 ≤ i ∧ i < words) by omega)]

theorem Tier.maskRemove_eq (hmax : T.maxSheets ≤ 2 ^ 32 - 64) (mask : ℕ → BitVec 64) (pos : ℕ) :
    Tier.maskRemove T mask pos =
      RangeIndex.maskRemove (RangeIndex.detailWords T.maxSheets) mask pos := by
  have hkeep : ∀ b, (if b = 0 then 1#64 <<< 63 - 1#64
      else (1#64 <<< 63 - 1#64) &&& ~~~(1#64 <<< b - 1#64)) =
      (1#64 <<< 63 - 1#64) &&& ~~~(1#64 <<< b - 1#64) := by
    intro b
    split_ifs with h
    · subst h
      rfl
    · rfl
  funext i
  unfold Tier.maskRemove RangeIndex.maskRemove
  simp only [carryDown_apply, Tier.detailWords_eq hmax, loMask_eq, hkeep]
  generalize RangeIndex.detailWords T.maxSheets = words
  rcases lt_trichotomy i (pos / 64) with hlt | rfl | hgt
  · rw [if_neg hlt.ne, if_neg (show ¬(pos / 64 < i ∧ i < words) by omega),
      if_neg (show ¬(pos / 64 + 1 ≤ i ∧ i < words) by omega), update_of_ne hlt.ne]
  · rw [if_pos rfl, if_neg (show ¬(pos / 64 + 1 ≤ pos / 64 ∧ pos / 64 < words) by omega),
      update_self]
    rfl
  · rw [if_neg hgt.ne', update_of_ne hgt.ne', update_of_ne (show i + 1 ≠ pos / 64 by omega)]
    by_cases hw : i < words
    · rw [if_pos ⟨hgt, hw⟩, if_pos (show pos / 64 + 1 ≤ i ∧ i < words from ⟨hgt, hw⟩)]
    · rw [if_neg (show ¬(pos / 64 < i ∧ i < words) by omega),
        if_neg (show ¬(pos / 64 + 1 ≤ i ∧ i < words) by omega)]

theorem Tier.Indexed.insertPos_eq (h : t.Indexed x) (lo : ℕ) :
    (t.idx.takeWhile fun e => e.lo < lo).length = x.insertPos lo 0 := by
  obtain ⟨hpos, hbelow, habove⟩ := RangeIndex.insertPos_spec lo (Nat.zero_le x.count) (by simp)
  generalize x.insertPos lo 0 = pos at hpos hbelow habove
  rw [h.idx]
  apply length_takeWhile_eq
  · rwa [length_toList]
  · intro i _ hi
    rw [getElem_toList]
    exact decide_eq_true (hbelow i hi)
  · intro hc
    rw [length_toList] at hc
    rw [getElem_toList]
    exact decide_eq_false (not_lt.2 (habove hc))

/-- `register_sheet` of the tier model. -/
theorem Tier.Indexed.registerSheet (hmax : T.maxSheets ≤ 2 ^ 32 - 64) (h : t.Indexed x)
    (e : Entry σ) :
    if T.maxSheets ≤ x.count then t.registerSheet T e = none
    else ∃ t', t.registerSheet T e = some t' ∧
      t'.Indexed (x.registerSheet T.maxSheets e.toRange).2 := by
  have hlength : t.idx.length = x.count := by rw [h.idx, length_toList]
  split_ifs with hfull
  · unfold Tier.registerSheet
    rw [if_pos (by omega)]
  · unfold Tier.registerSheet
    rw [if_neg (by omega)]
    refine ⟨_, rfl, ?_⟩
    have hins := RangeIndex.registerSheet_inserted (not_le.1 hfull) e.toRange
    have hpos : (x.registerSheet T.maxSheets e.toRange).1 =
        (t.idx.takeWhile fun y => y.lo < e.lo).length := by
      rw [h.insertPos_eq, RangeIndex.registerSheet, if_neg hfull]
      rfl
    rw [hpos] at hins
    generalize (t.idx.takeWhile fun y => y.lo < e.lo).length = pos at hins
    constructor
    · simp only
      rw [hins.count, h.idx]
      symm
      apply toList_insert hins.pos_le
      · intro i hi
        rw [hins.idx_lt i hi]
      · rw [hins.idx_self]
        rfl
      · intro i hpi hi
        rw [hins.idx_succ i hpi hi]
    · rw [hins.mask, Tier.maskInsert_eq hmax, h.mask]
    · rw [hins.hit, h.lastHit]
      rfl

theorem Tier.Indexed.unregister (hmax : T.maxSheets ≤ 2 ^ 32 - 64) (h : t.Indexed x) {pos : ℕ}
    (hpos : pos < x.count) : (t.unregister T pos).Indexed (x.unregister T.maxSheets pos) := by
  have hrem : RangeIndex.Removed T.maxSheets pos x _ := RangeIndex.unregister_removed hpos
  unfold Tier.unregister
  constructor
  · simp only
    rw [hrem.count, h.idx]
    symm
    apply toList_erase hpos
    · intro i hi
      rw [hrem.idx_lt i hi]
    · intro i hpi hi
      rw [hrem.idx_ge i hpi hi]
  · rw [hrem.mask, Tier.maskRemove_eq hmax, h.mask]
  · rw [hrem.hit, h.lastHit]
    unfold RangeIndex.noHit
    by_cases hno : x.lastHit = T.maxSheets
    · rw [if_pos hno, if_neg (not_not.2 hno)]
    · rw [if_neg hno, if_pos hno]

theorem Tier.Indexed.findRange (h : t.Indexed x) (hcount : x.count < 2 ^ 31) (addr : ℕ) :
    x.findRange addr = some (((t.findRange addr).map Int.ofNat).getD (-1)) := by
  have hlength : t.idx.length = x.count := by rw [h.idx, length_toList]
  have hget : ∀ i < x.count, t.idx[i]? = some (x.idx i).toEntry := by
    intro i hi
    rw [h.idx, getElem?_toList hi]
  rw [RangeIndex.findRange_eq hcount]
  unfold Tier.findRange
  rw [hlength]
  congr 3
  apply searchInterval_congr (n := x.count)
  · intro i hi
    unfold Tier.loAt
    rw [hget i hi]
    rfl
  · intro i hi
    unfold Tier.hiAt
    rw [hget i hi]
    rfl
  · exact le_rfl

end Tier
end AbcMalloc.Arena
