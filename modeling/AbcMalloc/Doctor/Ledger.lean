import AbcMalloc.Doctor.Table

/-! The ledger is a map from keys to records, from which an eviction drops every record that is
not live. -/
namespace AbcMalloc.Doctor
open Function Foundation

abbrev Records := ℕ → Option Rec

def Records.evict (M : Records) : Records := fun k => (M k).filter Rec.isLive

/-- The ledger is the table `t`, and this holds the records `M`. -/
structure Loaded (d : State) (t : ℕ → Rec) (M : Records) : Prop where
  slots : d.slots = some t
  table : Table t d.cap
  mask : d.mask = d.cap - 1
  large : 4096 ≤ d.cap
  occupied : d.occupied = count Rec.isUsed t d.cap
  live : d.nLive = count Rec.isLive t d.cap
  records : ∀ r, M r.key = some r ↔ Holds t d.cap r
  keyed : ∀ {k r}, M k = some r → r.key = k

/-- After a call fewer than 70% of the slots and one more are in use. -/
def Roomy (d : State) : Prop := d.occupied * 10 < d.cap * 7 + 10

section Loaded
variable {d : State} {t : ℕ → Rec} {M : Records} {k : ℕ} {r : Rec}

theorem Loaded.holds (hL : Loaded d t M) (h : M k = some r) : Holds t d.cap r :=
  (hL.records r).1 (hL.keyed h ▸ h)

theorem Loaded.room (hL : Loaded d t M) (h : Roomy d) : count Rec.isUsed t d.cap + 1 < d.cap := by
  have hlarge := hL.large
  unfold Roomy at h
  rw [← hL.occupied]
  omega

theorem Loaded.slotFor (hL : Loaded d t M) (k : ℕ) :
    d.slotFor k = slotFrom t (d.cap - 1) k (d.cap + 1) (hash k &&& (d.cap - 1)) := by
  unfold State.slotFor
  rw [hL.slots, hL.mask]
  rfl

theorem Loaded.find (hL : Loaded d t M) (k : ℕ) :
    d.find k = (d.slotFor k).bind fun i => if (t i).isUsed then some i else none := by
  rw [hL.slotFor, ← findFrom_eq]
  unfold State.find
  rw [hL.slots, hL.mask]
  rfl

theorem Loaded.find_of_mem (hL : Loaded d t M) (h : M k = some r) :
    ∃ i < d.cap, d.find k = some i ∧ t i = r := by
  have hholds := hL.holds h
  obtain ⟨i, hi, ht, hslot⟩ := hL.table.slotFrom_of_holds hholds
  rw [hL.keyed h] at hslot
  refine ⟨i, hi, ?_, ht⟩
  rw [hL.find, hL.slotFor, hslot]
  simp [ht, hholds.1]

theorem Loaded.find_of_not_mem (hL : Loaded d t M) (hroom : Roomy d) (h : M k = none) :
    d.find k = none := by
  obtain ⟨j, hj, -⟩ := hL.table.exists_ends (by have := hL.room hroom; omega) k
  have hstart := Nat.mod_lt (hash k) hL.table.cap_pos
  have habs : ∀ i < d.cap, occupant t i ≠ some k := by
    intro i hi ho
    obtain ⟨hu, hk⟩ := occupant_eq_some.1 ho
    have hmem := (hL.records (t i)).2 ⟨hu, i, hi, rfl⟩
    rw [hk, h] at hmem
    exact absurd hmem (by simp)
  have hfree := occupant_eq_none.1 (Chained.free_of_absent habs hstart hj)
  rw [hL.find, hL.slotFor, hL.table.slotFrom_ends hj, Option.bind_some, hfree]
  rfl

theorem Loaded.record_eq (hL : Loaded d t M) (hroom : Roomy d) (k : ℕ) : d.record k = M k := by
  unfold State.record
  rw [hL.slots, Option.bind_some]
  cases h : M k with
  | none => rw [hL.find_of_not_mem hroom h, Option.map_none]
  | some r =>
    obtain ⟨i, -, hfind, ht⟩ := hL.find_of_mem h
    rw [hfind, Option.map_some, ht]

/-- Overwriting the record of a key that is in the table, with the counters that go with it. -/
theorem Loaded.write (hL : Loaded d t M) {i : ℕ} {r' : Rec} {d' : State} (hi : i < d.cap)
    (hold : (t i).isUsed = true) (hu : r'.isUsed = true) (hk : r'.key = (t i).key)
    (hs : d'.slots = some (update t i r')) (hcap : d'.cap = d.cap) (hmask : d'.mask = d.mask)
    (hocc : d'.occupied = d.occupied)
    (hlive : d'.nLive + (if (t i).isLive then 1 else 0) = d.nLive + if r'.isLive then 1 else 0) :
    Loaded d' (update t i r') (update M r'.key (some r')) := by
  obtain ⟨htable, hholds⟩ := hL.table.overwrite hi hold hu hk
  have hused := count_update (p := Rec.isUsed) (t := t) (r := r') hi
  have hlive' := count_update (p := Rec.isLive) (t := t) (r := r') hi
  rw [hold, hu] at hused
  rw [← hL.live] at hlive'
  refine ⟨hs, hcap ▸ htable, by rw [hmask, hcap, hL.mask], hcap ▸ hL.large, ?_, ?_, fun r => ?_,
    fun {x r} hx => ?_⟩
  · rw [hocc, hcap, hL.occupied]
    omega
  · rw [hcap]
    omega
  · rw [hcap, hholds, ← hL.records, update_apply]
    split_ifs with he
    · simp only [Option.some.injEq, he, ne_eq, not_true_eq_false, and_false, or_false]
      exact eq_comm
    · constructor
      · exact fun h => Or.inr ⟨h, he⟩
      · rintro (rfl | h)
        · exact absurd rfl he
        · exact h.1
  · rw [update_apply] at hx
    split_ifs at hx with he
    · rw [he, ← Option.some.inj hx]
    · exact hL.keyed hx

end Loaded

/-! ## Rebuilding a table -/

/-- A table while records are being copied to it: the records of the first `n` old slots that
satisfy `keep`. -/
structure Filled (keep : Rec → Bool) (old : ℕ → Rec) (n : ℕ) (d : State) (t : ℕ → Rec) : Prop where
  slots : d.slots = some t
  table : Table t d.cap
  mask : d.mask = d.cap - 1
  occupied : d.occupied = count keep old n
  counts : ∀ p : Rec → Bool, (∀ r, p r = true → r.isUsed = true) →
    count p t d.cap = count (fun r => keep r && p r) old n
  holds : ∀ r, Holds t d.cap r ↔ keep r = true ∧ ∃ i < n, old i = r

section Rebuild
variable {keep : Rec → Bool} {old : ℕ → Rec} {oldcap n : ℕ} {d : State} {t : ℕ → Rec}

theorem filled_zero {e : ℕ} (hcap : d.cap = 2 ^ e) (hs : d.slots = some fun _ => .zero)
    (hm : d.mask = d.cap - 1) (ho : d.occupied = 0) : Filled keep old 0 d fun _ => .zero where
  slots := hs
  table := table_zero hcap
  mask := hm
  occupied := ho
  counts p hp := by
    rw [count_zero]
    · rfl
    · by_contra hzero
      exact absurd (hp .zero (by simpa using hzero)) (by decide)
  holds r := by
    constructor
    · rintro ⟨hu, i, -, rfl⟩
      exact absurd hu (by simp [Rec.isUsed, Rec.zero])
    · rintro ⟨-, i, hi, -⟩
      omega

theorem Filled.succ (hF : Filled keep old n d t) (hold : Table old oldcap) (hn : n < oldcap)
    (hkeep : ∀ r, keep r = true → r.isUsed = true) (hroom : count keep old oldcap < d.cap) :
    ∃ t', Filled keep old (n + 1) (if keep (old n) then d.reinsert (old n) else d) t' ∧
      (if keep (old n) then d.reinsert (old n) else d).cap = d.cap := by
  by_cases hk : keep (old n) = true
  · have hu := hkeep _ hk
    -- the counts of the prefix and of all slots
    have hprefix : count keep old (n + 1) ≤ count keep old oldcap := by
      unfold count
      exact Finset.sum_le_sum_of_subset (Finset.range_subset_range.2 hn)
    rw [count_succ, if_pos hk] at hprefix
    have hused : count Rec.isUsed t d.cap = count keep old n := by
      rw [hF.counts Rec.isUsed fun _ h => h]
      refine count_congr fun i _ => ?_
      by_cases hki : keep (old i) = true
      · simp [hki, hkeep _ hki]
      · simp [hki]
    have habs : ∀ r', Holds t d.cap r' → r'.key ≠ (old n).key := by
      intro r' hr' heq
      obtain ⟨hk', i, hi, rfl⟩ := (hF.holds r').1 hr'
      have hin := hold.chained.unique (by omega) hn (occupant_eq_some.2 ⟨hkeep _ hk', rfl⟩)
        (occupant_eq_some.2 ⟨hu, heq.symm⟩)
      omega
    obtain ⟨i, hi, hslot, hfree, htable, hholds⟩ :=
      hF.table.put (by omega) hu (hold.keys n hn hu) habs
    have hfor : d.slotFor (old n).key = some i := by
      unfold State.slotFor
      rw [hF.slots, hF.mask]
      exact hslot
    rw [if_pos hk, State.reinsert, hfor]
    refine ⟨update t i (old n), ⟨?_, htable, hF.mask, ?_, fun p hp => ?_, fun r => ?_⟩, rfl⟩
    · show d.slots.map (fun slots => update slots i (old n)) = _
      rw [hF.slots]
      rfl
    · rw [count_succ, if_pos hk, ← hF.occupied]
    · have hupd := count_update (p := p) (t := t) (r := old n) hi
      have hpi : p (t i) = false := by
        by_contra hpi
        rw [hp _ (by simpa using hpi)] at hfree
        exact absurd hfree (by decide)
      rw [hpi, if_neg (by decide), Nat.add_zero, hF.counts p hp] at hupd
      rw [count_succ, hk, Bool.true_and, ← hupd]
      rfl
    · have hlast : Holds (update t i (old n)) d.cap r ↔ r = old n ∨ Holds t d.cap r := hholds r
      rw [hF.holds] at hlast
      rw [show (d.write i (old n)).cap = d.cap from rfl] at *
      rw [hlast]
      constructor
      · rintro (rfl | ⟨hkr, x, hx, rfl⟩)
        · exact ⟨hk, n, by omega, rfl⟩
        · exact ⟨hkr, x, by omega, rfl⟩
      · rintro ⟨hkr, x, hx, rfl⟩
        by_cases hxn : x = n
        · exact Or.inl (by rw [hxn])
        · exact Or.inr ⟨hkr, x, by omega, rfl⟩
  · rw [if_neg hk]
    refine ⟨t, ⟨hF.slots, hF.table, hF.mask, ?_, fun p hp => ?_, fun r => ?_⟩, rfl⟩
    · rw [count_succ, if_neg hk, Nat.add_zero, hF.occupied]
    · rw [count_succ, if_neg (by simp [hk]), Nat.add_zero, hF.counts p hp]
    · rw [hF.holds]
      constructor
      · rintro ⟨hkr, x, hx, rfl⟩
        exact ⟨hkr, x, by omega, rfl⟩
      · rintro ⟨hkr, x, hx, rfl⟩
        by_cases hxn : x = n
        · rw [hxn] at hkr
          exact absurd hkr hk
        · exact ⟨hkr, x, by omega, rfl⟩

theorem reinsertAll_succ : d.reinsertAll keep old (n + 1) =
    if keep (old n) then (d.reinsertAll keep old n).reinsert (old n)
    else d.reinsertAll keep old n := by
  unfold State.reinsertAll
  rw [List.range_succ, List.foldl_append]
  rfl

/-- Copying the first slots of a table. -/
theorem filled_reinsertAll (hF : Filled keep old 0 d t) (hold : Table old oldcap)
    (hkeep : ∀ r, keep r = true → r.isUsed = true) (hroom : count keep old oldcap < d.cap)
    (hn : n ≤ oldcap) :
    ∃ t', Filled keep old n (d.reinsertAll keep old n) t' ∧
      (d.reinsertAll keep old n).cap = d.cap := by
  induction n with
  | zero => exact ⟨t, hF, rfl⟩
  | succ n ih =>
    obtain ⟨t', hF', hcap⟩ := ih (by omega)
    obtain ⟨t'', hF'', hcap'⟩ := hF'.succ hold hn hkeep (hcap ▸ hroom)
    rw [reinsertAll_succ]
    exact ⟨t'', hF'', hcap'.trans hcap⟩

/-- Copying touches the table and `occupied` only. -/
theorem reinsertAll_counters : (d.reinsertAll keep old n).nLive = d.nLive ∧
    (d.reinsertAll keep old n).opCounter = d.opCounter := by
  induction n with
  | zero => exact ⟨rfl, rfl⟩
  | succ n ih =>
    rw [reinsertAll_succ]
    split_ifs
    · unfold State.reinsert
      split
      · exact ih
      · exact ih
    · exact ih

end Rebuild

/-! ## Probes -/

/-- The probe for a key stops at it or at an empty slot, before it has been at every slot, and
`__slot_for` and `__find` return what is there. -/
def State.Probed (d : State) (k : ℕ) : Prop :=
  ∃ t j, d.slots = some t ∧ Ends (occupant t) d.cap k (hash k % d.cap) j ∧ j + 1 < d.cap ∧
    d.slotFor k = some ((hash k % d.cap + j) % d.cap) ∧
    d.find k = if (t ((hash k % d.cap + j) % d.cap)).isUsed then some ((hash k % d.cap + j) % d.cap)
      else none

theorem Table.probed {d : State} {t : ℕ → Rec} (hT : Table t d.cap) (hs : d.slots = some t)
    (hm : d.mask = d.cap - 1) (hroom : count Rec.isUsed t d.cap + 1 < d.cap) (k : ℕ) :
    d.Probed k := by
  obtain ⟨j, hj, hle⟩ := hT.exists_ends (by omega) k
  have hslot : d.slotFor k = some ((hash k % d.cap + j) % d.cap) := by
    unfold State.slotFor
    rw [hs, hm]
    exact hT.slotFrom_ends hj
  refine ⟨t, j, hs, hj, by omega, hslot, ?_⟩
  have hfind : d.find k = (d.slotFor k).bind fun i => if (t i).isUsed then some i else none := by
    unfold State.find State.slotFor
    rw [hs, Option.bind_some, Option.bind_some]
    exact findFrom_eq d.mask
  rw [hfind, hslot, Option.bind_some]

theorem Loaded.probed {d : State} {t : ℕ → Rec} {M : Records} (hL : Loaded d t M)
    (hroom : Roomy d) (k : ℕ) : d.Probed k :=
  hL.table.probed hL.slots hL.mask (hL.room hroom) k

/-! ## Growth -/

def State.fresh (d : State) (cap : ℕ) : State :=
  { d with slots := some fun _ => .zero, cap := cap, mask := cap - 1, occupied := 0 }

section Growth
variable {d : State} {t : ℕ → Rec} {M : Records} {maxRecords : ℕ}

/-- A fresh table while the records of a loaded one are being copied to it. -/
theorem Loaded.copying (hL : Loaded d t M) {p : Rec → Bool} (hp : ∀ r, p r = true → r.isUsed = true)
    {e cap n : ℕ} (hcap : cap = 2 ^ e) (hroom : count p t d.cap < cap) (hn : n ≤ d.cap) :
    ∃ t', Filled p t n ((d.fresh cap).reinsertAll p t n) t' ∧
      ((d.fresh cap).reinsertAll p t n).cap = cap :=
  filled_reinsertAll (filled_zero hcap rfl rfl rfl) hL.table hp hroom hn

/-- The probes for the records that are copied. -/
theorem Loaded.copying_probed (hL : Loaded d t M) {p : Rec → Bool}
    (hp : ∀ r, p r = true → r.isUsed = true) {e cap n : ℕ} (hcap : cap = 2 ^ e)
    (hroom : count p t d.cap + 1 < cap) (hn : n ≤ d.cap) (k : ℕ) :
    ((d.fresh cap).reinsertAll p t n).Probed k := by
  obtain ⟨t', hF, hcap'⟩ := hL.copying hp hcap (by omega) hn
  refine hF.table.probed hF.slots hF.mask ?_ k
  have hused := hF.counts Rec.isUsed fun _ h => h
  have hle : count (fun r => p r && r.isUsed) t n ≤ count p t n :=
    count_le fun r h => (Bool.and_eq_true _ _ ▸ h).1
  have hprefix : count p t n ≤ count p t d.cap := by
    unfold count
    exact Finset.sum_le_sum_of_subset (Finset.range_subset_range.2 hn)
  rw [hcap'] at hused ⊢
  omega

theorem Loaded.rebuild (hL : Loaded d t M) {p : Rec → Bool} (hp : ∀ r, p r = true → r.isUsed = true)
    (hlive : ∀ i < d.cap, (t i).isLive = true → p (t i) = true) {e cap : ℕ} (hcap : cap = 2 ^ e)
    (hlarge : 4096 ≤ cap) (hroom : count p t d.cap < cap) :
    ∃ t', Loaded ((d.fresh cap).reinsertAll p t d.cap) t' (fun k => (M k).filter p) ∧
      ((d.fresh cap).reinsertAll p t d.cap).occupied = count p t d.cap ∧
      ((d.fresh cap).reinsertAll p t d.cap).cap = cap := by
  obtain ⟨t', hF, hcap'⟩ := hL.copying hp hcap hroom le_rfl
  have hkeepCount : count (fun r => p r && r.isUsed) t d.cap = count p t d.cap := by
    refine count_congr fun i _ => ?_
    by_cases hk : p (t i) = true
    · simp [hk, hp _ hk]
    · simp [hk]
  have hliveCount : count (fun r => p r && r.isLive) t d.cap = count Rec.isLive t d.cap := by
    refine count_congr fun i hi => ?_
    by_cases hl : (t i).isLive = true
    · simp [hl, hlive i hi hl]
    · simp [hl]
  refine ⟨t', ⟨hF.slots, hF.table, hF.mask, by omega, ?_, ?_, fun r => ?_,
    fun {k r} h => ?_⟩, hF.occupied, hcap'⟩
  · rw [hF.occupied, hF.counts Rec.isUsed fun _ h => h, hkeepCount]
  · rw [reinsertAll_counters.1, hF.counts Rec.isLive fun _ h => Rec.isUsed_of_isLive h, hliveCount]
    exact hL.live
  · rw [hF.holds, Option.filter_eq_some_iff, hL.records]
    constructor
    · rintro ⟨⟨-, i, hi, rfl⟩, hk⟩
      exact ⟨hk, i, hi, rfl⟩
    · rintro ⟨hk, i, hi, rfl⟩
      exact ⟨⟨hp _ hk, i, hi, rfl⟩, hk⟩
  · exact hL.keyed (Option.filter_eq_some_iff.1 h).1

/-- What `__rehash` copies. -/
def Rec.isKept (r : Rec) : Bool := r.state ≠ .empty && r.key ≠ 0

theorem Rec.isUsed_of_isKept {r : Rec} (h : r.isKept = true) : r.isUsed = true :=
  (Bool.and_eq_true _ _ ▸ h).1

theorem Loaded.isKept (hL : Loaded d t M) {i : ℕ} (hi : i < d.cap) :
    (t i).isKept = (t i).isUsed := by
  by_cases hu : (t i).isUsed = true
  · have hk := hL.table.keys i hi hu
    unfold Rec.isKept
    rw [hu]
    simp only [Rec.isUsed, decide_eq_true_eq] at hu
    simp [hu, hk]
  · cases hk : (t i).isKept with
    | true => exact absurd (Rec.isUsed_of_isKept hk) hu
    | false => exact (Bool.eq_false_iff.2 hu).symm

theorem Loaded.rehash_eq (hL : Loaded d t M) :
    d.rehash true (d.cap <<< 1) = (d.fresh (d.cap <<< 1)).reinsertAll Rec.isKept t d.cap := by
  have hlarge := hL.large
  unfold State.rehash
  rw [if_neg (by rw [Nat.shiftLeft_eq]; omega), if_neg (by simp), hL.slots]
  rfl

/-- `__rehash` to twice the capacity keeps every record. -/
theorem Loaded.rehash (hL : Loaded d t M) (hroom : Roomy d) :
    (∃ t', Loaded (d.rehash true (d.cap <<< 1)) t' M) ∧
      (d.rehash true (d.cap <<< 1)).occupied * 10 < (d.rehash true (d.cap <<< 1)).cap * 7 ∧
      ∀ n ≤ d.cap, ∀ k, ((d.fresh (d.cap <<< 1)).reinsertAll Rec.isKept t n).Probed k := by
  obtain ⟨e, he⟩ := hL.table.pow
  have hlarge := hL.large
  have hbig : d.cap <<< 1 = d.cap * 2 := Nat.shiftLeft_eq _ _
  have hdouble : d.cap <<< 1 = 2 ^ (e + 1) := by rw [hbig, he, pow_succ]
  have hcount : count Rec.isKept t d.cap = d.occupied := by
    rw [hL.occupied]
    exact count_congr fun i hi => hL.isKept hi
  unfold Roomy at hroom
  obtain ⟨t', hL', hocc, hcap⟩ := hL.rebuild (fun _ h => Rec.isUsed_of_isKept h)
    (fun i hi hl => (hL.isKept hi).trans (Rec.isUsed_of_isLive hl)) hdouble (by omega) (by omega)
  have hkeep : (fun k => (M k).filter Rec.isKept) = M := by
    funext k
    cases hk : M k with
    | none => rfl
    | some r =>
      obtain ⟨hu, i, hi, rfl⟩ := hL.holds hk
      rw [Option.filter_some, if_pos ((hL.isKept hi).trans hu)]
  rw [hkeep, ← hL.rehash_eq] at hL'
  rw [← hL.rehash_eq] at hocc hcap
  refine ⟨⟨t', hL'⟩, ?_, fun n hn => ?_⟩
  · rw [hocc, hcap, hcount]
    omega
  · exact hL.copying_probed (fun _ h => Rec.isUsed_of_isKept h) hdouble (by omega) hn

/-- The next `record_alloc` evicts the records that are not live. -/
def State.evicts (maxRecords : ℕ) (d : State) : Bool :=
  d.cap ≠ 0 && (d.cap * 7 ≤ d.occupied * 10 && (maxRecords < d.cap * 2 && d.nLive < d.occupied))

theorem Loaded.dropFreed_eq (hL : Loaded d t M) (hlt : d.nLive < d.occupied) :
    d.dropFreed true =
      (true, { (d.fresh d.cap).reinsertAll Rec.isLive t d.cap with nFreed := 0 }) := by
  unfold State.dropFreed
  rw [hL.slots]
  dsimp only
  rw [if_neg (by omega), if_neg (by simp)]
  rfl

theorem Loaded.dropFreed_of_le (hL : Loaded d t M) (hle : d.occupied ≤ d.nLive) :
    d.dropFreed true = (false, d) := by
  unfold State.dropFreed
  rw [hL.slots]
  dsimp only
  rw [if_pos hle]

/-- `__drop_freed` keeps the live records. -/
theorem Loaded.dropFreed (hL : Loaded d t M) (hroom : Roomy d) (hlt : d.nLive < d.occupied) :
    (∃ t', Loaded (d.dropFreed true).2 t' M.evict) ∧ Roomy (d.dropFreed true).2 ∧
      (d.dropFreed true).2.cap = d.cap ∧
      ∀ n ≤ d.cap, ∀ k, ((d.fresh d.cap).reinsertAll Rec.isLive t n).Probed k := by
  obtain ⟨e, he⟩ := hL.table.pow
  have hroom' := hL.room hroom
  have hle : count Rec.isLive t d.cap ≤ count Rec.isUsed t d.cap :=
    count_le fun _ h => Rec.isUsed_of_isLive h
  obtain ⟨t', hL', hocc, hcap⟩ := hL.rebuild (fun _ h => Rec.isUsed_of_isLive h)
    (fun _ _ h => h) he hL.large (by omega)
  rw [hL.dropFreed_eq hlt]
  refine ⟨⟨t', hL'.slots, hL'.table, hL'.mask, hL'.large, hL'.occupied, hL'.live, hL'.records,
    hL'.keyed⟩, ?_, hcap, fun n hn => ?_⟩
  · unfold Roomy at hroom ⊢
    dsimp only
    rw [hocc, hcap, ← hL.live]
    omega
  · exact hL.copying_probed (fun _ h => Rec.isUsed_of_isLive h) he (by omega) hn

/-- `__grow_if_needed` leaves room for a record, evicting exactly when `evicts` says so. -/
theorem Loaded.grow (hL : Loaded d t M) (hroom : Roomy d) :
    (∃ t', Loaded (d.growIfNeeded maxRecords true) t'
      (if d.evicts maxRecords then M.evict else M)) ∧
      (d.growIfNeeded maxRecords true).occupied * 10 <
        (d.growIfNeeded maxRecords true).cap * 7 := by
  have hlarge := hL.large
  have hbig : d.cap <<< 1 = d.cap * 2 := Nat.shiftLeft_eq _ _
  unfold State.growIfNeeded
  rw [if_neg (by omega)]
  by_cases hload : d.occupied * 10 < d.cap * 7
  · have hno : d.evicts maxRecords = false := by
      simp [State.evicts, not_le.2 hload]
    rw [if_pos hload, hno]
    exact ⟨⟨t, hL⟩, hload⟩
  · rw [if_neg hload]
    dsimp only
    by_cases hmax : maxRecords < d.cap <<< 1
    · rw [if_pos hmax]
      by_cases hlt : d.nLive < d.occupied
      · have hyes : d.evicts maxRecords = true := by
          simp only [State.evicts, Bool.and_eq_true, decide_eq_true_eq]
          omega
        obtain ⟨⟨t', hL'⟩, hroom', hcap, -⟩ := hL.dropFreed hroom hlt
        have h1 : (d.dropFreed true).1 = true := by rw [hL.dropFreed_eq hlt]
        rw [hyes, if_pos rfl]
        by_cases hfit : (d.dropFreed true).2.occupied * 10 < (d.dropFreed true).2.cap * 7
        · rw [if_pos ⟨h1, hfit⟩]
          exact ⟨⟨t', hL'⟩, hfit⟩
        · rw [if_neg fun h => hfit h.2, ← hcap]
          exact ⟨(hL'.rehash hroom').1, (hL'.rehash hroom').2.1⟩
      · have hno : d.evicts maxRecords = false := by
          simp [State.evicts, hlt]
        rw [hL.dropFreed_of_le (not_lt.1 hlt), hno, if_neg (by simp)]
        exact ⟨(hL.rehash hroom).1, (hL.rehash hroom).2.1⟩
    · have hno : d.evicts maxRecords = false := by
        rw [hbig] at hmax
        simp [State.evicts, hmax]
      rw [if_neg hmax, hno]
      exact ⟨(hL.rehash hroom).1, (hL.rehash hroom).2.1⟩

end Growth

/-! ## The probes of a call -/

/-- The probes of a copying loop: the ledger at that time and the key. -/
def copyProbes (p : Rec → Bool) (old : ℕ → Rec) (oldcap : ℕ) (d : State) : List (State × ℕ) :=
  ((List.range oldcap).filter fun n => p (old n)).map fun n =>
    (d.reinsertAll p old n, (old n).key)

def State.rehashProbes (d : State) : List (State × ℕ) :=
  match d.slots with
  | none => []
  | some old => copyProbes Rec.isKept old d.cap (d.fresh (d.cap <<< 1))

def State.dropProbes (d : State) : List (State × ℕ) :=
  match d.slots with
  | none => []
  | some old =>
    if d.occupied ≤ d.nLive then [] else copyProbes Rec.isLive old d.cap (d.fresh d.cap)

def State.growProbes (maxRecords : ℕ) (d : State) : List (State × ℕ) :=
  if d.cap = 0 then []
  else if d.occupied * 10 < d.cap * 7 then []
  else if maxRecords < d.cap <<< 1 then
    let r := d.dropFreed true
    d.dropProbes ++
      if r.1 ∧ r.2.occupied * 10 < r.2.cap * 7 then [] else r.2.rehashProbes
  else d.rehashProbes

section Probes
variable {d : State} {t : ℕ → Rec} {M : Records} {maxRecords : ℕ} {x : State × ℕ}

theorem Loaded.rehashProbes (hL : Loaded d t M) (hroom : Roomy d) (hx : x ∈ d.rehashProbes) :
    x.1.Probed x.2 := by
  unfold State.rehashProbes copyProbes at hx
  rw [hL.slots] at hx
  obtain ⟨n, hn, rfl⟩ := List.mem_map.1 hx
  have hlt := List.mem_range.1 (List.mem_of_mem_filter hn)
  exact (hL.rehash hroom).2.2 n hlt.le _

theorem Loaded.dropProbes (hL : Loaded d t M) (hroom : Roomy d) (hx : x ∈ d.dropProbes) :
    x.1.Probed x.2 := by
  unfold State.dropProbes copyProbes at hx
  rw [hL.slots] at hx
  dsimp only at hx
  split_ifs at hx with hle
  · exact absurd hx (by simp)
  · obtain ⟨n, hn, rfl⟩ := List.mem_map.1 hx
    have hlt := List.mem_range.1 (List.mem_of_mem_filter hn)
    exact (hL.dropFreed hroom (by omega)).2.2.2 n hlt.le _

theorem Loaded.growProbes (hL : Loaded d t M) (hroom : Roomy d)
    (hx : x ∈ d.growProbes maxRecords) : x.1.Probed x.2 := by
  unfold State.growProbes at hx
  dsimp only at hx
  split_ifs at hx with h1 h2 h3 h4
  · exact absurd hx (by simp)
  · exact absurd hx (by simp)
  · rw [List.append_nil] at hx
    exact hL.dropProbes hroom hx
  · rcases List.mem_append.1 hx with hx | hx
    · exact hL.dropProbes hroom hx
    · by_cases hlt : d.nLive < d.occupied
      · obtain ⟨⟨t', hL'⟩, hroom', -⟩ := hL.dropFreed hroom hlt
        exact hL'.rehashProbes hroom' hx
      · rw [hL.dropFreed_of_le (not_lt.1 hlt)] at hx
        exact hL.rehashProbes hroom hx
  · exact hL.rehashProbes hroom hx

end Probes
end AbcMalloc.Doctor
