import AbcMalloc.Va.Threads

/-! The owner table of the reservation (`sheet_header.hpp`): any number of threads that construct
and release sheets for arenas. Construction carves a run and stores the arena in the table
granule by granule; release clears the granules and then gives the run back. A step is one
atomic action of the source, and the kernel may refuse a commit. -/
namespace AbcMalloc.Owner.Table
open Function Foundation Va

/-- A sheet in the reservation: its arena, the offset of its memory and `__kernel_memory.len`. -/
structure Sheet (α : Type*) where
  arena : α
  off : ℕ
  len : ℕ
  deriving DecidableEq

inductive Pc (α : Type*)
  | idle
  /-- In `__va_carve`, up to the commit of a run. -/
  | called (a : α) (bytes : ℕ)
  | unreserved (a : α) (bytes : ℕ)
  | searching (a : α) (bytes : ℕ)
  | commitReused (a : α) (bytes off : ℕ)
  | bumping (a : α) (bytes : ℕ)
  | swapping (a : α) (bytes off : ℕ)
  | commitFresh (a : α) (bytes off : ℕ)
  /-- The loops of `__sheet_register` and `__sheet_unregister`, before their `i`-th store. -/
  | registering (s : Sheet α) (i : ℕ)
  | unregistering (s : Sheet α) (i : ℕ)
  /-- In `__va_release`, before the insertion. -/
  | releasing (r : FreeRun)
  deriving DecidableEq

structure Registry (T α : Type*) where
  va : VaState
  /-- `__block_owner_table`. -/
  table : ℕ → Option α
  pcs : T → Pc α
  /-- Sheets that are constructed and whose release has not begun. -/
  sheets : List (Sheet α)

inductive Action (T α : Type*)
  | construct (t : T) (a : α) (bytes : ℕ)
  | readBase (t : T)
  /-- `addr` is what `mmap` returns if this call is the one that reserves. -/
  | reserve (t : T) (addr : ℕ)
  | search (t : T)
  /-- `__va_commit`, which succeeds if `ok`. -/
  | commit (t : T) (ok : Bool)
  | load (t : T)
  | compareExchange (t : T) (spurious : Bool)
  | store (t : T)
  /-- The release of the `i`-th sheet. -/
  | release (t : T) (i : ℕ)
  | push (t : T)

/-- `(len + __sheet_align_mask) >> __sheet_align_log2`. -/
def blocks (c : VaConfig) (len : ℕ) : ℕ := (len + (c.sheetAlign - 1)) % 2 ^ c.width / c.sheetAlign

/-- `__block_index` of the address at an offset. -/
def blockIndex (c : VaConfig) (off : ℕ) : ℕ := off / c.sheetAlign

namespace Registry
variable {T α : Type*}

def init (T α : Type*) : Registry T α := ⟨.init, fun _ => none, fun _ => .idle, []⟩

def vaContains (c : VaConfig) (w : Registry T α) (p : ℕ) : Prop :=
  w.va.base ≠ 0 ∧ w.va.base ≤ p ∧ p < w.va.base + c.reservation

/-- `__owner_of` for an address in the reservation. -/
def ownerOf (c : VaConfig) (w : Registry T α) (p : ℕ) : Option α :=
  w.table (blockIndex c (p - w.va.base))

variable [DecidableEq T]

def goto (w : Registry T α) (t : T) (pc : Pc α) : Registry T α :=
  { w with pcs := update w.pcs t pc }

def step (c : VaConfig) (w : Registry T α) : Action T α → Option (Registry T α)
  | .construct t a bytes =>
    match w.pcs t with
    | .idle => some (w.goto t (.called a bytes))
    | _ => none
  | .readBase t =>
    match w.pcs t with
    | .called a bytes =>
      some (w.goto t (if w.va.base = 0 then .unreserved a bytes else .searching a bytes))
    | _ => none
  | .reserve t addr =>
    match w.pcs t with
    | .unreserved a bytes =>
      let va := reserveOnce ⟨addr, fun _ _ => true⟩ w.va
      some ({ w with va := va }.goto t (if va.base = 0 then .idle else .searching a bytes))
    | _ => none
  | .search t =>
    match w.pcs t with
    | .searching a bytes =>
      match reuse c w.va.runs (c.granules (c.roundUp bytes)) with
      | some (off, runs) =>
        some ({ w with va := { w.va with runs := runs } }.goto t (.commitReused a bytes off))
      | none => some (w.goto t (.bumping a bytes))
    | _ => none
  | .commit t ok =>
    match w.pcs t with
    | .commitReused a bytes off =>
      some (w.goto t (if ok then .registering ⟨a, off, c.roundUp bytes⟩ 0 else .bumping a bytes))
    | .commitFresh a bytes off =>
      -- without a run the sheet gets memory outside of the reservation
      some (w.goto t (if ok then .registering ⟨a, off, c.roundUp bytes⟩ 0 else .idle))
    | _ => none
  | .load t =>
    match w.pcs t with
    | .bumping a bytes => some (w.goto t (.swapping a bytes w.va.offset))
    | _ => none
  | .compareExchange t spurious =>
    match w.pcs t with
    | .swapping a bytes off =>
      if c.reservation < (off + c.roundUp bytes) % 2 ^ 64 then some (w.goto t .idle)
      else if w.va.offset = off ∧ spurious = false then
        some ({ w with va := { w.va with offset := (off + c.roundUp bytes) % 2 ^ 64 } }.goto t
          (.commitFresh a bytes off))
      else some (w.goto t (.swapping a bytes w.va.offset))
    | _ => none
  | .store t =>
    match w.pcs t with
    | .registering s i =>
      if i < blocks c s.len then
        some ({ w with table := update w.table (blockIndex c s.off + i) (some s.arena) }.goto t
          (.registering s (i + 1)))
      else some ({ w with sheets := s :: w.sheets }.goto t .idle)
    | .unregistering s i =>
      if i < blocks c s.len then
        some ({ w with table := update w.table (blockIndex c s.off + i) none }.goto t
          (.unregistering s (i + 1)))
      else some (w.goto t (.releasing ⟨s.off, c.granules (c.roundUp s.len)⟩))
    | _ => none
  | .release t i =>
    match w.pcs t, w.sheets[i]? with
    | .idle, some s => some ({ w with sheets := w.sheets.eraseIdx i }.goto t (.unregistering s 0))
    | _, _ => none
  | .push t =>
    match w.pcs t with
    | .releasing r =>
      some ({ w with va := { w.va with runs := pushRun c w.va.runs r } }.goto t .idle)
    | _ => none

end Registry

/-- No empty range is mapped. -/
def legal {T α : Type*} (c : VaConfig) (w : Registry T α) : Action T α → Prop
  | .commit t true =>
    match w.pcs t with
    | .commitReused _ bytes _ => 0 < c.roundUp bytes
    | .commitFresh _ bytes _ => 0 < c.roundUp bytes
    | _ => True
  | _ => True

instance {T α : Type*} (c : VaConfig) (w : Registry T α) (a : Action T α) :
    Decidable (legal c w a) := by
  unfold legal
  split
  · split <;> infer_instance
  · infer_instance

/-- A compare-exchange does not move the cursor past the end of `u64`, and no run is reused for a
request whose granule count does not fit `u32`. -/
def unwrapped {T α : Type*} (c : VaConfig) (w : Registry T α) : Action T α → Prop
  | .compareExchange t spurious =>
    match w.pcs t with
    | .swapping _ bytes off =>
      (off + c.roundUp bytes) % 2 ^ 64 ≤ c.reservation → w.va.offset = off → spurious = false →
        off + c.roundUp bytes < 2 ^ 64
    | _ => True
  | .commit t true =>
    match w.pcs t with
    | .commitReused _ bytes _ => c.roundUp bytes < 2 ^ 53
    | _ => True
  | _ => True

instance {T α : Type*} (c : VaConfig) (w : Registry T α) (a : Action T α) :
    Decidable (unwrapped c w a) := by
  unfold unwrapped
  split
  · split <;> infer_instance
  · split <;> infer_instance
  · infer_instance

/-! ## Space -/

section Space
variable {T α : Type*} (c : VaConfig)

def Sheet.hits (s : Sheet α) (x : ℕ) : ℕ := Foundation.hits s.off s.len x

def Sheet.Ok (s : Sheet α) : Prop :=
  0 < s.len ∧ s.len ≤ c.reservation ∧ c.sheetAlign ∣ s.len ∧ c.sheetAlign ∣ s.off

def Pc.hits (x : ℕ) : Pc α → ℕ
  | .commitReused _ bytes off => Foundation.hits off (c.granules (c.roundUp bytes) * c.sheetAlign) x
  | .commitFresh _ bytes off => Foundation.hits off (c.roundUp bytes) x
  | .registering s _ => s.hits x
  | .unregistering s _ => s.hits x
  | .releasing r => r.hits c x
  | _ => 0

def Pc.Ok : Pc α → Prop
  | .commitReused _ bytes off =>
    c.sheetAlign ∣ off ∧ c.granules (c.roundUp bytes) * c.sheetAlign ≤ c.reservation
  | .swapping _ _ off => c.sheetAlign ∣ off
  | .commitFresh _ bytes off => c.sheetAlign ∣ off ∧ c.roundUp bytes ≤ c.reservation
  | .registering s i => s.Ok c ∧ i ≤ s.len / c.sheetAlign
  | .unregistering s i => s.Ok c ∧ i ≤ s.len / c.sheetAlign
  | .releasing r => 1 ≤ r.granules ∧ c.sheetAlign ∣ r.off
  | _ => True

/-- Threads behind the read of the base have a base. -/
def Pc.Based : Pc α → Prop
  | .idle => False
  | .called _ _ => False
  | .unreserved _ _ => False
  | _ => True

def Registry.tally [Fintype T] (w : Registry T α) (x : ℕ) : ℕ :=
  (w.sheets.map fun s => s.hits x).sum + ∑ t, (w.pcs t).hits c x +
    (w.va.runs.map fun r => r.hits c x).sum

/-- Sheets, runs that threads hold and free runs are disjoint and lie below the cursor. -/
structure Space [Fintype T] (w : Registry T α) : Prop where
  tally : ∀ x, w.tally c x ≤ if x < w.va.offset then 1 else 0
  offset_le : w.va.offset ≤ c.reservation
  offset_dvd : c.sheetAlign ∣ w.va.offset
  sheets : ∀ s ∈ w.sheets, s.Ok c
  runs : ∀ r ∈ w.va.runs, 1 ≤ r.granules ∧ c.sheetAlign ∣ r.off
  pcs : ∀ t, (w.pcs t).Ok c
  based : (w.sheets ≠ [] ∨ ∃ t, (w.pcs t).Based) → w.va.base ≠ 0

end Space

theorem blocks_eq {c : VaConfig} {len : ℕ} (hlen : len ≤ c.reservation) (hd : c.sheetAlign ∣ len) :
    blocks c len = len / c.sheetAlign := by
  have hG := c.sheetAlign_pos
  have hw := c.reservation_add_le
  obtain ⟨k, rfl⟩ := hd
  rw [blocks, Nat.mod_eq_of_lt (by omega), Nat.mul_div_cancel_left k hG, Nat.mul_add_div hG,
    Nat.div_eq_of_lt (by omega), Nat.add_zero]

theorem roundUp_self {c : VaConfig} {len : ℕ} (hlen : len ≤ c.reservation)
    (hd : c.sheetAlign ∣ len) :
    c.roundUp len = len := by
  change blocks c len * c.sheetAlign = len
  rw [blocks_eq hlen hd, Nat.div_mul_cancel hd]

/-- The granule count of a run below `2 ^ 53` bytes is not truncated. -/
theorem granules_mul_of_lt {c : VaConfig} {len : ℕ} (hd : c.sheetAlign ∣ len) (hlen : len < 2 ^ 53)
    (hwidth : len < 2 ^ c.width) : c.granules len * c.sheetAlign = len := by
  have hlt : len / c.sheetAlign < 2 ^ 32 := by
    rw [Nat.div_lt_iff_lt_mul c.sheetAlign_pos]
    unfold VaConfig.width at hwidth
    unfold VaConfig.sheetAlign
    split_ifs at hwidth ⊢ <;> omega
  rw [VaConfig.granules, Nat.mod_eq_of_lt hlt, Nat.div_mul_cancel hd]

theorem roundUp_lt (c : VaConfig) (bytes : ℕ) : c.roundUp bytes < 2 ^ c.width :=
  (Nat.div_mul_le_self _ _).trans_lt (Nat.mod_lt _ (Nat.two_pow_pos _))

namespace Space
variable {T α : Type*} [Fintype T] {c : VaConfig} {w : Registry T α}

theorem init (c : VaConfig) : Space c (Registry.init T α) := by
  refine ⟨fun x => ?_, Nat.zero_le _, Nat.dvd_zero _, by simp [Registry.init],
    by simp [Registry.init, VaState.init], fun _ => trivial, ?_⟩
  · simp [Registry.tally, Registry.init, VaState.init, Pc.hits]
  · rintro (h | ⟨t, h⟩)
    · exact absurd rfl h
    · exact False.elim h

theorem le_offset (h : Space c w) {off len : ℕ} (hlen : 0 < len)
    (hhits : ∀ x, hits off len x ≤ w.tally c x) : off + len ≤ w.va.offset := by
  have hx := (hhits (off + len - 1)).trans (h.tally _)
  rw [hits_eq_one (by omega) (by omega)] at hx
  split_ifs at hx with hlt
  · omega
  · omega

theorem sheet_hits_le {s : Sheet α} (hs : s ∈ w.sheets) (x : ℕ) : s.hits x ≤ w.tally c x := by
  have := List.le_sum_of_mem (List.mem_map_of_mem (f := fun s => s.hits x) hs)
  unfold Registry.tally
  omega

theorem run_le (h : Space c w) {r : FreeRun} (hr : r ∈ w.va.runs) :
    r.off + r.granules * c.sheetAlign ≤ c.reservation := by
  refine (h.le_offset (Nat.mul_pos (h.runs r hr).1 c.sheetAlign_pos) fun x => ?_).trans h.offset_le
  have := List.le_sum_of_mem (List.mem_map_of_mem (f := fun r => r.hits c x) hr)
  unfold Registry.tally FreeRun.hits at *
  omega

variable [DecidableEq T] {t : T}

/-- A step of `t` that moves runs between the sheets, `t` and the list. -/
theorem goto (h : Space c w) {base : ℕ} {runs : List FreeRun} {sheets : List (Sheet α)} {pc : Pc α}
    {table : ℕ → Option α}
    (hbal : ∀ x, (sheets.map fun s => s.hits x).sum + pc.hits c x +
        (runs.map fun r => r.hits c x).sum ≤
      (w.sheets.map fun s => s.hits x).sum + (w.pcs t).hits c x +
        (w.va.runs.map fun r => r.hits c x).sum)
    (hsheets : ∀ s ∈ sheets, s.Ok c) (hruns : ∀ r ∈ runs, 1 ≤ r.granules ∧ c.sheetAlign ∣ r.off)
    (hpc : pc.Ok c) (hkeep : w.va.base ≠ 0 → base ≠ 0)
    (hbase : sheets ≠ [] ∨ pc.Based → base ≠ 0) :
    Space c (Registry.goto ⟨⟨base, w.va.offset, runs⟩, table, w.pcs, sheets⟩ t pc) := by
  refine ⟨fun x => ?_, h.offset_le, h.offset_dvd, hsheets, hruns, fun u => ?_, ?_⟩
  · have hsum := sum_update_add (fun pc : Pc α => pc.hits c x) w.pcs t pc
    have hold := h.tally x
    have hb := hbal x
    refine le_trans ?_ hold
    unfold Registry.tally Registry.goto
    dsimp only
    omega
  · by_cases hu : u = t
    · subst hu
      simpa [Registry.goto] using hpc
    · simpa [Registry.goto, update_of_ne hu] using h.pcs u
  · rintro (hs | ⟨u, hu⟩)
    · exact hbase (Or.inl hs)
    · by_cases hut : u = t
      · subst hut
        exact hbase (Or.inr (by simpa [Registry.goto] using hu))
      · exact hkeep (h.based (Or.inr ⟨u, by simpa [Registry.goto, update_of_ne hut] using hu⟩))

/-- A step of `t` that keeps the sheets and the list. -/
theorem move (h : Space c w) {pc : Pc α} (hbal : ∀ x, pc.hits c x ≤ (w.pcs t).hits c x)
    (hpc : pc.Ok c)
    (hbase : pc.Based → w.va.base ≠ 0) : Space c (w.goto t pc) := by
  refine h.goto (fun x => ?_) h.sheets h.runs hpc id fun hb => ?_
  · exact Nat.add_le_add_right (Nat.add_le_add_left (hbal x) _) _
  · rcases hb with hb | hb
    · exact h.based (Or.inl hb)
    · exact hbase hb

omit [DecidableEq T] in
theorem base_ne (h : Space c w) (hpc : (w.pcs t).Based) : w.va.base ≠ 0 := h.based (Or.inr ⟨t, hpc⟩)

/-- A successful compare-exchange of the cursor. -/
theorem advance (h : Space c w) {a : α} {bytes : ℕ} (ht : w.pcs t = .swapping a bytes w.va.offset)
    (hfits : ¬c.reservation < (w.va.offset + c.roundUp bytes) % 2 ^ 64)
    (hforward : w.va.offset + c.roundUp bytes < 2 ^ 64) :
    Space c ({ w with
      va := { w.va with offset := (w.va.offset + c.roundUp bytes) % 2 ^ 64 } }.goto t
      (.commitFresh a bytes w.va.offset)) := by
  have hdvd : c.sheetAlign ∣ w.va.offset := h.offset_dvd
  have hmod : (w.va.offset + c.roundUp bytes) % 2 ^ 64 = w.va.offset + c.roundUp bytes :=
    Nat.mod_eq_of_lt hforward
  rw [hmod] at hfits ⊢
  refine ⟨fun x => ?_, not_lt.1 hfits, (Nat.dvd_add_right hdvd).2 (c.dvd_roundUp _),
    h.sheets, h.runs,
    fun u => ?_, fun hb => ?_⟩
  · have hold := h.tally x
    have hsum : ∑ i, (update w.pcs t (.commitFresh a bytes w.va.offset) i).hits c x =
        ∑ i, (w.pcs i).hits c x + hits w.va.offset (c.roundUp bytes) x := by
      have := sum_update_add (fun pc : Pc α => pc.hits c x) w.pcs t
        (.commitFresh a bytes w.va.offset)
      rw [ht] at this
      exact this
    unfold Registry.tally Registry.goto at *
    dsimp only
    rw [hsum]
    unfold Foundation.hits
    split_ifs at hold ⊢ <;> omega
  · by_cases hu : u = t
    · subst hu
      simpa [Registry.goto, Pc.Ok] using ⟨hdvd, by omega⟩
    · simpa [Registry.goto, update_of_ne hu] using h.pcs u
  · have hbase : w.va.base ≠ 0 := h.base_ne (t := t) (by rw [ht]; trivial)
    exact hbase

end Space

/-! ## The table -/

section Marks
variable {T α : Type*} (c : VaConfig)

def Sheet.Marks (g : ℕ) (a : α) (s : Sheet α) : Prop :=
  s.arena = a ∧ s.off ≤ g * c.sheetAlign ∧ g * c.sheetAlign < s.off + s.len

/-- The granules of a run that its thread has stored an arena for and not cleared. -/
def Pc.Marks (g : ℕ) (a : α) : Pc α → Prop
  | .registering s i =>
    s.arena = a ∧ s.off ≤ g * c.sheetAlign ∧ g * c.sheetAlign < s.off + i * c.sheetAlign
  | .unregistering s i =>
    s.arena = a ∧ s.off + i * c.sheetAlign ≤ g * c.sheetAlign ∧ g * c.sheetAlign < s.off + s.len
  | _ => False

def Registry.Marked (w : Registry T α) (g : ℕ) (a : α) : Prop :=
  (∃ s ∈ w.sheets, s.Marks c g a) ∨ ∃ t, (w.pcs t).Marks c g a

end Marks

section Exact
variable {T α : Type*} {c : VaConfig} {w : Registry T α}

/-- Granule by granule, a sheet is passed over in as many steps as it has granules. -/
theorem Sheet.Ok.mul_div {s : Sheet α} (hs : s.Ok c) :
    s.len / c.sheetAlign * c.sheetAlign = s.len :=
  Nat.div_mul_cancel hs.2.2.1

theorem Sheet.Ok.blockIndex_add {s : Sheet α} (hs : s.Ok c) (i : ℕ) :
    (blockIndex c s.off + i) * c.sheetAlign = s.off + i * c.sheetAlign := by
  rw [blockIndex, Nat.add_mul, Nat.div_mul_cancel hs.2.2.2]

theorem Pc.Marks.hits_eq {pc : Pc α} {g : ℕ} {a : α} (hok : pc.Ok c) (h : pc.Marks c g a) :
    pc.hits c (g * c.sheetAlign) = 1 := by
  cases pc with
  | registering s i =>
    obtain ⟨hs, hi⟩ := hok
    obtain ⟨-, h₁, h₂⟩ := h
    have := Nat.mul_le_mul_right c.sheetAlign hi
    rw [hs.mul_div] at this
    exact hits_eq_one h₁ (by omega)
  | unregistering s i =>
    obtain ⟨-, h₁, h₂⟩ := h
    exact hits_eq_one (by omega) h₂
  | _ => exact h.elim

variable [Fintype T] [DecidableEq T] {t : T}

omit [Fintype T] in
/-- What is marked, with one thread set apart. -/
theorem Registry.marked_iff (w : Registry T α) (t : T) (g : ℕ) (a : α) :
    w.Marked c g a ↔ ((∃ s ∈ w.sheets, s.Marks c g a) ∨ (w.pcs t).Marks c g a) ∨
      ∃ u, u ≠ t ∧ (w.pcs u).Marks c g a := by
  constructor
  · rintro (h | ⟨u, hu⟩)
    · exact Or.inl (Or.inl h)
    · by_cases hut : u = t
      · exact Or.inl (Or.inr (hut ▸ hu))
      · exact Or.inr ⟨u, hut, hu⟩
  · rintro ((h | h) | ⟨u, -, hu⟩)
    · exact Or.inl h
    · exact Or.inr ⟨t, h⟩
    · exact Or.inr ⟨u, hu⟩

omit [Fintype T] in
theorem Registry.marked_goto (va : VaState) (table : ℕ → Option α) (sheets : List (Sheet α))
    (pc : Pc α)
    (g : ℕ) (a : α) :
    (Registry.goto ⟨va, table, w.pcs, sheets⟩ t pc).Marked c g a ↔
      ((∃ s ∈ sheets, s.Marks c g a) ∨ pc.Marks c g a) ∨ ∃ u, u ≠ t ∧ (w.pcs u).Marks c g a := by
  rw [Registry.marked_iff _ t]
  have hself : (Registry.goto ⟨va, table, w.pcs, sheets⟩ t pc).pcs t = pc := update_self ..
  have hother : ∀ u, u ≠ t → (Registry.goto ⟨va, table, w.pcs, sheets⟩ t pc).pcs u = w.pcs u :=
    fun u hu => update_of_ne hu _ _
  rw [hself]
  refine or_congr Iff.rfl (exists_congr fun u => and_congr_right fun hu => ?_)
  rw [hother u hu]

/-- A granule of the run that a thread holds is marked by no sheet and no other thread. -/
theorem Space.not_marked (h : Space c w) {g : ℕ} (ht : (w.pcs t).hits c (g * c.sheetAlign) = 1)
    (a : α) :
    ¬((∃ s ∈ w.sheets, s.Marks c g a) ∨ ∃ u, u ≠ t ∧ (w.pcs u).Marks c g a) := by
  have htally := h.tally (g * c.sheetAlign)
  have hone : w.tally c (g * c.sheetAlign) ≤ 1 := htally.trans (by split_ifs <;> omega)
  unfold Registry.tally at hone
  rintro (⟨s, hs, hmarks⟩ | ⟨u, hu, hmarks⟩)
  · have hsheet :=
      List.le_sum_of_mem (List.mem_map_of_mem (f := fun s => s.hits (g * c.sheetAlign)) hs)
    have hpc := Finset.single_le_sum (f := fun t => (w.pcs t).hits c (g * c.sheetAlign))
      (fun _ _ => Nat.zero_le _) (Finset.mem_univ t)
    rw [show s.hits (g * c.sheetAlign) = 1 from hits_eq_one hmarks.2.1 hmarks.2.2] at hsheet
    omega
  · have hpair := Finset.sum_le_sum_of_subset (f := fun t => (w.pcs t).hits c (g * c.sheetAlign))
      (Finset.subset_univ {t, u})
    rw [Finset.sum_pair hu.symm, ht, hmarks.hits_eq (h.pcs u)] at hpair
    omega

end Exact

/-- The table holds the arena of each granule that is marked, and nothing else. -/
structure Exact {T α : Type*} [Fintype T] (c : VaConfig) (w : Registry T α) : Prop where
  space : Space c w
  table : ∀ g a, w.table g = some a ↔ w.Marked c g a

namespace Exact
variable {T α : Type*} [Fintype T] {c : VaConfig} {w : Registry T α}

theorem init (c : VaConfig) : Exact c (Registry.init T α) := by
  refine ⟨.init c, fun g a => ?_⟩
  simp [Registry.init, Registry.Marked, Pc.Marks]

variable [DecidableEq T] {t : T}

theorem goto (h : Exact c w) {va : VaState} {sheets : List (Sheet α)} {pc : Pc α}
    (hspace : Space c (Registry.goto ⟨va, w.table, w.pcs, sheets⟩ t pc))
    (hmarks : ∀ g a, (∃ s ∈ sheets, s.Marks c g a) ∨ pc.Marks c g a ↔
      (∃ s ∈ w.sheets, s.Marks c g a) ∨ (w.pcs t).Marks c g a) :
    Exact c (Registry.goto ⟨va, w.table, w.pcs, sheets⟩ t pc) := by
  refine ⟨hspace, fun g a => ?_⟩
  rw [Registry.marked_goto, hmarks, ← Registry.marked_iff]
  exact h.table g a

/-- A step of a thread that marks nothing before and after. -/
theorem move (h : Exact c w) {va : VaState} {pc : Pc α}
    (hspace : Space c (Registry.goto ⟨va, w.table, w.pcs, w.sheets⟩ t pc))
    (hold : ∀ g a, ¬(w.pcs t).Marks c g a) (hnew : ∀ g a, ¬pc.Marks c g a) :
    Exact c (Registry.goto ⟨va, w.table, w.pcs, w.sheets⟩ t pc) :=
  h.goto hspace fun g a => or_congr Iff.rfl (iff_of_false (hnew g a) (hold g a))

/-- A store to a granule of the run that the thread holds. -/
theorem store (h : Exact c w) {pc : Pc α} {g : ℕ} {v : Option α}
    (hspace : Space c w → Space c (Registry.goto ⟨w.va, update w.table g v, w.pcs, w.sheets⟩ t pc))
    (hheld : (w.pcs t).hits c (g * c.sheetAlign) = 1)
    (hself : ∀ a, pc.Marks c g a ↔ v = some a)
    (hother : ∀ g' a, g' ≠ g → (pc.Marks c g' a ↔ (w.pcs t).Marks c g' a)) :
    Exact c (Registry.goto ⟨w.va, update w.table g v, w.pcs, w.sheets⟩ t pc) := by
  refine ⟨hspace h.space, fun g' a => ?_⟩
  rw [Registry.marked_goto]
  by_cases hg : g' = g
  · subst hg
    have hfree := h.space.not_marked hheld a
    rw [not_or] at hfree
    change update w.table g' v g' = some a ↔ _
    rw [update_self, ← hself]
    constructor
    · exact fun hm => Or.inl (Or.inr hm)
    · rintro ((hm | hm) | hm)
      · exact absurd hm hfree.1
      · exact hm
      · exact absurd hm hfree.2
  · change update w.table g v g' = some a ↔ _
    rw [update_of_ne hg, hother g' a hg, ← Registry.marked_iff]
    exact h.table g' a

theorem search (h : Exact c w) {a : α} {bytes off : ℕ} {runs : List FreeRun}
    (ht : w.pcs t = .searching a bytes)
    (hreuse : reuse c w.va.runs (c.granules (c.roundUp bytes)) = some (off, runs)) :
    Exact c ({ w with va := { w.va with runs := runs } }.goto t (.commitReused a bytes off)) := by
  have hbase := h.space.base_ne (t := t) (by rw [ht]; trivial)
  obtain ⟨hsum, hruns, hdvd, hle, -⟩ :=
    reuse_hits h.space.runs (fun r hr => h.space.run_le hr) hreuse
  refine h.move (h.space.goto (fun x => ?_) h.space.sheets hruns ⟨hdvd, by omega⟩ id fun _ => hbase)
    (by simp [ht, Pc.Marks]) (by simp [Pc.Marks])
  have := hsum x
  rw [ht]
  simp only [Pc.hits]
  omega

theorem commit (h : Exact c w) {a : α} {bytes off : ℕ} (hpos : 0 < c.roundUp bytes)
    (hle : c.roundUp bytes ≤ c.reservation) (hdvd : c.sheetAlign ∣ off)
    (hhits : ∀ x, hits off (c.roundUp bytes) x ≤ (w.pcs t).hits c x)
    (hmarks : ∀ g b, ¬(w.pcs t).Marks c g b) (hbased : (w.pcs t).Based) :
    Exact c (w.goto t (.registering ⟨a, off, c.roundUp bytes⟩ 0)) := by
  refine h.move (h.space.move hhits ⟨⟨hpos, hle, c.dvd_roundUp _, hdvd⟩, Nat.zero_le _⟩ fun _ =>
    h.space.base_ne hbased) hmarks fun g b hm => ?_
  obtain ⟨-, h₁, h₂⟩ := hm
  dsimp only at h₁ h₂
  omega

theorem register (h : Exact c w) {s : Sheet α} {i : ℕ} (ht : w.pcs t = .registering s i)
    (hi : i < s.len / c.sheetAlign) :
    Exact c ({ w with table := update w.table (blockIndex c s.off + i) (some s.arena) }.goto t
      (.registering s (i + 1))) := by
  have hok := h.space.pcs t
  rw [ht] at hok
  have hG := c.sheetAlign_pos
  have hg := hok.1.blockIndex_add i
  have hlen := hok.1.mul_div
  have hlt := Nat.mul_le_mul_right c.sheetAlign (Nat.succ_le_of_lt hi)
  rw [Nat.succ_mul] at hlt
  have hbase := h.space.base_ne (t := t) (by rw [ht]; trivial)
  refine h.store
    (fun hs => hs.goto (fun x => ?_) hs.sheets hs.runs ⟨hok.1, hi⟩ id fun _ => hbase) ?_
    (fun a => ?_) fun g a hne => ?_
  · rw [ht]
    exact le_rfl
  · rw [ht, hg]
    exact hits_eq_one (by omega) (by omega)
  · simp only [Pc.Marks, hg, Nat.add_mul, Option.some.injEq]
    constructor
    · exact fun hm => hm.1
    · exact fun ha => ⟨ha, by omega, by omega⟩
  · -- between the old and the new bound lies this granule alone
    rw [ht]
    simp only [Pc.Marks, Nat.add_mul, Nat.one_mul]
    refine and_congr_right fun _ => and_congr_right fun _ => ⟨fun hlt' => ?_, fun hlt' => by omega⟩
    by_contra hge
    refine hne (Nat.eq_of_le_of_lt_succ ?_ ?_)
    · exact Nat.le_of_mul_le_mul_right (hg.trans_le (not_lt.1 hge)) hG
    · refine Nat.lt_of_mul_lt_mul_right (a := c.sheetAlign) ?_
      rw [Nat.succ_mul, hg]
      omega

theorem unregister (h : Exact c w) {s : Sheet α} {i : ℕ} (ht : w.pcs t = .unregistering s i)
    (hi : i < s.len / c.sheetAlign) :
    Exact c ({ w with table := update w.table (blockIndex c s.off + i) none }.goto t
      (.unregistering s (i + 1))) := by
  have hok := h.space.pcs t
  rw [ht] at hok
  have hG := c.sheetAlign_pos
  have hg := hok.1.blockIndex_add i
  have hlen := hok.1.mul_div
  have hlt := Nat.mul_le_mul_right c.sheetAlign (Nat.succ_le_of_lt hi)
  rw [Nat.succ_mul] at hlt
  have hbase := h.space.base_ne (t := t) (by rw [ht]; trivial)
  refine h.store
    (fun hs => hs.goto (fun x => ?_) hs.sheets hs.runs ⟨hok.1, hi⟩ id fun _ => hbase) ?_
    (fun a => ?_) fun g a hne => ?_
  · rw [ht]
    exact le_rfl
  · rw [ht, hg]
    exact hits_eq_one (by omega) (by omega)
  · simp only [Pc.Marks, hg, Nat.add_mul, reduceCtorEq, iff_false]
    rintro ⟨-, h₁, -⟩
    omega
  · rw [ht]
    simp only [Pc.Marks, Nat.add_mul, Nat.one_mul]
    refine and_congr_right fun _ => and_congr_left fun _ => ⟨fun hle => by omega, fun hle => ?_⟩
    by_contra hlt'
    refine hne (Nat.eq_of_le_of_lt_succ ?_ ?_)
    · exact Nat.le_of_mul_le_mul_right (hg.trans_le hle) hG
    · refine Nat.lt_of_mul_lt_mul_right (a := c.sheetAlign) ?_
      rw [Nat.succ_mul, hg]
      omega

/-- The sheet is complete. -/
theorem registered (h : Exact c w) {s : Sheet α} {i : ℕ} (ht : w.pcs t = .registering s i)
    (hi : ¬i < s.len / c.sheetAlign) : Exact c
    ({ w with sheets := s :: w.sheets }.goto t .idle) := by
  have hok := h.space.pcs t
  rw [ht] at hok
  have hlen := hok.1.mul_div
  have hbase := h.space.base_ne (t := t) (by rw [ht]; trivial)
  obtain rfl : i = s.len / c.sheetAlign := le_antisymm hok.2 (not_lt.1 hi)
  refine h.goto
    (h.space.goto (fun x => ?_) (fun s' hs' => ?_) h.space.runs trivial id fun _ => hbase)
    fun g a => ?_
  · rw [ht]
    refine Nat.add_le_add_right ?_ _
    simp only [List.map_cons, List.sum_cons, Pc.hits]
    omega
  · rcases List.mem_cons.1 hs' with rfl | hs'
    · exact hok.1
    · exact h.space.sheets s' hs'
  · rw [ht]
    simp only [List.exists_mem_cons_iff, Sheet.Marks, Pc.Marks, hlen, or_false]
    exact or_comm

theorem release (h : Exact c w) {s : Sheet α} {i : ℕ} (ht : w.pcs t = .idle)
    (hs : w.sheets[i]? = some s) :
    Exact c ({ w with sheets := w.sheets.eraseIdx i }.goto t (.unregistering s 0)) := by
  obtain ⟨hlt, rfl⟩ := List.getElem?_eq_some_iff.1 hs
  have hmem : w.sheets[i] ∈ w.sheets := List.getElem_mem hlt
  have hperm := List.getElem_cons_eraseIdx_perm hlt
  have hbase := h.space.based (Or.inl (List.ne_nil_of_mem hmem))
  refine h.goto (h.space.goto (fun x => ?_)
    (fun s' hs' => h.space.sheets s' (List.mem_of_mem_eraseIdx hs')) h.space.runs
    ⟨h.space.sheets _ hmem, Nat.zero_le _⟩ id fun _ => hbase) fun g a => ?_
  · have hsum := (hperm.map fun s => s.hits x).sum_eq
    rw [List.map_cons, List.sum_cons] at hsum
    rw [ht, ← hsum]
    refine Nat.add_le_add_right ?_ _
    simp only [Pc.hits]
    omega
  · have hiff : (∃ s' ∈ w.sheets, s'.Marks c g a) ↔
        w.sheets[i].Marks c g a ∨ ∃ s' ∈ w.sheets.eraseIdx i, s'.Marks c g a := by
      rw [← List.exists_mem_cons_iff]
      exact exists_congr fun s' => and_congr_left fun _ => hperm.mem_iff.symm
    rw [hiff, ht]
    simp only [Pc.Marks, Sheet.Marks, Nat.zero_mul, Nat.add_zero, or_false]
    exact or_comm

/-- Once its granules are cleared, the run of a sheet is given back. -/
theorem unregistered (h : Exact c w) {s : Sheet α} {i : ℕ} (ht : w.pcs t = .unregistering s i)
    (hi : ¬i < s.len / c.sheetAlign) :
    Exact c (w.goto t (.releasing ⟨s.off, c.granules (c.roundUp s.len)⟩)) := by
  have hok := h.space.pcs t
  rw [ht] at hok
  have hlen := hok.1.mul_div
  have hbase := h.space.base_ne (t := t) (by rw [ht]; trivial)
  have hround := roundUp_self hok.1.2.1 hok.1.2.2.1
  have hmul := c.granules_mul hok.1.2.1 hok.1.2.2.1
  have hpos := hok.1.1
  obtain rfl : i = s.len / c.sheetAlign := le_antisymm hok.2 (not_lt.1 hi)
  refine h.move (h.space.move (fun x => ?_) ⟨?_, hok.1.2.2.2⟩ fun _ => hbase) (fun g a hm => ?_)
    (by simp [Pc.Marks])
  · rw [ht, hround]
    simp only [Pc.hits, FreeRun.hits, hmul]
    exact le_rfl
  · rw [hround]
    refine Nat.pos_of_ne_zero fun h0 => ?_
    change c.granules s.len = 0 at h0
    rw [h0, Nat.zero_mul] at hmul
    omega
  · rw [ht] at hm
    obtain ⟨-, h₁, h₂⟩ := hm
    omega

theorem push (h : Exact c w) {r : FreeRun} (ht : w.pcs t = .releasing r) :
    Exact c ({ w with va := { w.va with runs := pushRun c w.va.runs r } }.goto t .idle) := by
  have hok := h.space.pcs t
  rw [ht] at hok
  have hbase := h.space.base_ne (t := t) (by rw [ht]; trivial)
  refine h.move
    (h.space.goto (fun x => ?_) h.space.sheets (fun r' hr' => ?_) trivial id fun _ => hbase)
    (by simp [ht, Pc.Marks]) (by simp [Pc.Marks])
  · rw [ht, Nat.add_assoc, Nat.add_assoc]
    refine Nat.add_le_add_left ?_ _
    unfold pushRun
    split_ifs
    · simp only [List.map_append, List.map_cons, List.map_nil, List.sum_append, List.sum_cons,
        List.sum_nil, Pc.hits]
      omega
    · exact Nat.add_le_add_right (Nat.zero_le _) _
  · unfold pushRun at hr'
    split_ifs at hr'
    · rcases List.mem_append.1 hr' with hr' | hr'
      · exact h.space.runs r' hr'
      · rw [List.mem_singleton.1 hr']
        exact hok
    · exact h.space.runs r' hr'

/-! ## Steps -/

theorem stepConstruct (h : Exact c w) {a : α} {bytes : ℕ} {w' : Registry T α}
    (hstep : w.step c (.construct t a bytes) = some w') : Exact c w' := by
  simp only [Registry.step] at hstep
  split at hstep
  · rename_i ht
    cases hstep
    exact h.move (h.space.move (by simp [Pc.hits]) trivial False.elim) (by simp [ht, Pc.Marks])
      (by simp [Pc.Marks])
  · cases hstep

theorem stepReadBase (h : Exact c w) {w' : Registry T α}
    (hstep : w.step c (.readBase t) = some w') :
    Exact c w' := by
  simp only [Registry.step] at hstep
  split at hstep
  · rename_i a bytes ht
    cases hstep
    split_ifs with hbase
    · exact h.move (h.space.move (by simp [Pc.hits]) trivial False.elim) (by simp [ht, Pc.Marks])
        (by simp [Pc.Marks])
    · exact h.move (h.space.move (by simp [Pc.hits]) trivial fun _ => hbase)
        (by simp [ht, Pc.Marks])
        (by simp [Pc.Marks])
  · cases hstep

theorem stepReserve (h : Exact c w) {addr : ℕ} {w' : Registry T α}
    (hstep : w.step c (.reserve t addr) = some w') : Exact c w' := by
  have hkeep : w.va.base ≠ 0 → (reserveOnce ⟨addr, fun _ _ => true⟩ w.va).base ≠ 0 := by
    intro hb
    rw [reserveOnce, if_neg hb]
    exact hb
  have hva : reserveOnce ⟨addr, fun _ _ => true⟩ w.va =
      ⟨(reserveOnce ⟨addr, fun _ _ => true⟩ w.va).base, w.va.offset, w.va.runs⟩ := by
    unfold reserveOnce
    split_ifs <;> rfl
  simp only [Registry.step] at hstep
  split at hstep
  · rename_i a bytes ht
    cases hstep
    rw [hva]
    dsimp only
    split_ifs with hbase
    · refine h.move (h.space.goto (fun x => by simp [Pc.hits]) h.space.sheets h.space.runs trivial
        hkeep fun hb => ?_) (by simp [ht, Pc.Marks]) (by simp [Pc.Marks])
      rcases hb with hb | hb
      · exact hkeep (h.space.based (Or.inl hb))
      · exact hb.elim
    · exact h.move
        (h.space.goto (fun x => by simp [ht, Pc.hits]) h.space.sheets h.space.runs trivial
        hkeep fun _ => hbase) (by simp [ht, Pc.Marks]) (by simp [Pc.Marks])
  · cases hstep

theorem stepSearch (h : Exact c w) {w' : Registry T α} (hstep : w.step c (.search t) = some w') :
    Exact c w' := by
  simp only [Registry.step] at hstep
  split at hstep
  · rename_i a bytes ht
    split at hstep
    · rename_i off runs hreuse
      cases hstep
      exact h.search ht hreuse
    · cases hstep
      exact h.move (h.space.move (by simp [Pc.hits]) trivial fun _ =>
        h.space.base_ne (t := t) (by rw [ht]; trivial)) (by simp [ht, Pc.Marks])
          (by simp [Pc.Marks])
  · cases hstep

theorem stepCommitReused (h : Exact c w) {a : α} {bytes off : ℕ} {ok : Bool} {w' : Registry T α}
    (ht : w.pcs t = .commitReused a bytes off) (hlegal : legal c w (.commit t ok))
    (hunwrapped : unwrapped c w (.commit t ok))
    (hstep : w.step c (.commit t ok) = some w') : Exact c w' := by
  have hok := h.space.pcs t
  rw [ht] at hok
  obtain ⟨hdvd, hle⟩ := hok
  have hbased : (w.pcs t).Based := by rw [ht]; trivial
  simp only [Registry.step, ht] at hstep
  cases hstep
  cases ok with
  | true =>
    have hpos : 0 < c.roundUp bytes := by simpa [legal, ht] using hlegal
    have hlt : c.roundUp bytes < 2 ^ 53 := by simpa [unwrapped, ht] using hunwrapped
    have hmul := granules_mul_of_lt (c.dvd_roundUp bytes) hlt (roundUp_lt c bytes)
    rw [hmul] at hle
    refine h.commit hpos hle hdvd (fun x => ?_) (by simp [ht, Pc.Marks]) hbased
    rw [ht]
    simp only [Pc.hits, hmul]
    exact le_rfl
  | false =>
    exact h.move (h.space.move (by simp [Pc.hits]) trivial fun _ => h.space.base_ne hbased)
      (by simp [ht, Pc.Marks]) (by simp [Pc.Marks])

theorem stepCommitFresh (h : Exact c w) {a : α} {bytes off : ℕ} {ok : Bool} {w' : Registry T α}
    (ht : w.pcs t = .commitFresh a bytes off) (hlegal : legal c w (.commit t ok))
    (hstep : w.step c (.commit t ok) = some w') : Exact c w' := by
  have hok := h.space.pcs t
  rw [ht] at hok
  obtain ⟨hdvd, hle⟩ := hok
  have hbased : (w.pcs t).Based := by rw [ht]; trivial
  simp only [Registry.step, ht] at hstep
  cases hstep
  cases ok with
  | true =>
    have hpos : 0 < c.roundUp bytes := by simpa [legal, ht] using hlegal
    refine h.commit hpos hle hdvd (fun x => ?_) (by simp [ht, Pc.Marks]) hbased
    rw [ht]
    exact le_rfl
  | false =>
    exact h.move (h.space.move (by simp [Pc.hits]) trivial False.elim) (by simp [ht, Pc.Marks])
      (by simp [Pc.Marks])

theorem stepLoad (h : Exact c w) {w' : Registry T α} (hstep : w.step c (.load t) = some w') :
    Exact c w' := by
  simp only [Registry.step] at hstep
  split at hstep
  · rename_i a bytes ht
    cases hstep
    exact h.move (h.space.move (by simp [Pc.hits]) h.space.offset_dvd fun _ =>
      h.space.base_ne (t := t) (by rw [ht]; trivial)) (by simp [ht, Pc.Marks]) (by simp [Pc.Marks])
  · cases hstep

theorem stepCompareExchange (h : Exact c w) {spurious : Bool} {w' : Registry T α}
    (hunwrapped : unwrapped c w (.compareExchange t spurious))
    (hstep : w.step c (.compareExchange t spurious) = some w') : Exact c w' := by
  simp only [Registry.step] at hstep
  split at hstep
  · rename_i a bytes off ht
    split_ifs at hstep with hfull hcas
    · cases hstep
      exact h.move (h.space.move (by simp [Pc.hits]) trivial False.elim) (by simp [ht, Pc.Marks])
        (by simp [Pc.Marks])
    · cases hstep
      simp only [unwrapped, ht] at hunwrapped
      have hlt := hunwrapped (not_lt.1 hfull) hcas.1 hcas.2
      obtain ⟨rfl, -⟩ := hcas
      exact h.move (h.space.advance ht hfull hlt) (by simp [ht, Pc.Marks]) (by simp [Pc.Marks])
    · cases hstep
      exact h.move (h.space.move (by simp [Pc.hits]) h.space.offset_dvd fun _ =>
        h.space.base_ne (t := t) (by rw [ht]; trivial)) (by simp [ht, Pc.Marks])
          (by simp [Pc.Marks])
  · cases hstep

theorem stepStore (h : Exact c w) {w' : Registry T α} (hstep : w.step c (.store t) = some w') :
    Exact c w' := by
  simp only [Registry.step] at hstep
  split at hstep
  · rename_i s i ht
    have hok := h.space.pcs t
    rw [ht] at hok
    rw [blocks_eq hok.1.2.1 hok.1.2.2.1] at hstep
    split_ifs at hstep with hi
    · cases hstep
      exact h.register ht hi
    · cases hstep
      exact h.registered ht hi
  · rename_i s i ht
    have hok := h.space.pcs t
    rw [ht] at hok
    rw [blocks_eq hok.1.2.1 hok.1.2.2.1] at hstep
    split_ifs at hstep with hi
    · cases hstep
      exact h.unregister ht hi
    · cases hstep
      exact h.unregistered ht hi
  · cases hstep

theorem step (h : Exact c w) {act : Action T α} {w' : Registry T α} (hlegal : legal c w act)
    (hunwrapped : unwrapped c w act) (hstep : w.step c act = some w') : Exact c w' := by
  cases act with
  | construct t a bytes => exact h.stepConstruct hstep
  | readBase t => exact h.stepReadBase hstep
  | reserve t addr => exact h.stepReserve hstep
  | search t => exact h.stepSearch hstep
  | commit t ok =>
    cases ht : w.pcs t with
    | commitReused a bytes off => exact h.stepCommitReused ht hlegal hunwrapped hstep
    | commitFresh a bytes off => exact h.stepCommitFresh ht hlegal hstep
    | _ => simp [Registry.step, ht] at hstep
  | load t => exact h.stepLoad hstep
  | compareExchange t spurious => exact h.stepCompareExchange hunwrapped hstep
  | store t => exact h.stepStore hstep
  | release t i =>
    simp only [Registry.step] at hstep
    split at hstep
    · rename_i s ht hs
      cases hstep
      exact h.release ht hs
    · cases hstep
  | push t =>
    simp only [Registry.step] at hstep
    split at hstep
    · rename_i r ht
      cases hstep
      exact h.push ht
    · cases hstep

end Exact

/-! ## Addresses -/

section Owner
variable {T α : Type*} {c : VaConfig} {w : Registry T α}

theorem Sheet.Ok.marks_iff {s : Sheet α} (hs : s.Ok c) {base p : ℕ} {a : α} (hp : base ≤ p) :
    s.Marks c (blockIndex c (p - base)) a ↔
      s.arena = a ∧ base + s.off ≤ p ∧ p < base + s.off + s.len := by
  have hG := c.sheetAlign_pos
  obtain ⟨-, -, ⟨m, hm⟩, ⟨k, hk⟩⟩ := hs
  have h₁ : s.off ≤ (p - base) / c.sheetAlign * c.sheetAlign ↔ s.off ≤ p - base := by
    rw [hk, Nat.mul_comm c.sheetAlign k, Nat.mul_le_mul_right_iff hG, Nat.le_div_iff_mul_le hG]
  have h₂ : (p - base) / c.sheetAlign * c.sheetAlign < s.off + s.len ↔
    p - base < s.off + s.len := by
    rw [hk, hm, ← Nat.mul_add, Nat.mul_comm c.sheetAlign, Nat.mul_lt_mul_right hG,
      Nat.div_lt_iff_lt_mul hG]
  rw [Sheet.Marks, blockIndex, h₁, h₂]
  refine and_congr_right fun _ => ?_
  omega

/-- The addresses of a constructed sheet map to its arena. When no construction or release is in
progress, an address in the reservation maps to an arena exactly when a sheet of that arena
contains it. -/
def Registry.Answers (c : VaConfig) (w : Registry T α) : Prop :=
  (∀ s ∈ w.sheets, ∀ p, w.va.base + s.off ≤ p → p < w.va.base + s.off + s.len →
    w.vaContains c p ∧ w.ownerOf c p = some s.arena) ∧
  ((∀ t, w.pcs t = .idle) → ∀ p, w.vaContains c p → ∀ a, w.ownerOf c p = some a ↔
    ∃ s ∈ w.sheets, s.arena = a ∧ w.va.base + s.off ≤ p ∧ p < w.va.base + s.off + s.len)

/-- In every interleaving in which neither the cursor nor a granule count wraps, the owner table is
exact. -/
theorem owner_table_exact [Fintype T] [DecidableEq T] (c : VaConfig) {acts : List (Action T α)}
    {w : Registry T α} (hrun : Run (fun w a => legal c w a ∧ unwrapped c w a) (Registry.step c)
      (Registry.init T α) acts w) : w.Answers c := by
  have h : Exact c w :=
    hrun.invariant (Exact c) (fun _ _ _ h hok hstep => h.step hok.1 hok.2 hstep) (.init c)
  constructor
  · intro s hs p hlo hhi
    have hok := h.space.sheets s hs
    have hle := h.space.le_offset hok.1 (Space.sheet_hits_le hs)
    have hoff := h.space.offset_le
    constructor
    · exact ⟨h.space.based (Or.inl (List.ne_nil_of_mem hs)), by omega, by omega⟩
    · exact (h.table _ _).2 (Or.inl ⟨s, hs, (hok.marks_iff (by omega)).2 ⟨rfl, hlo, hhi⟩⟩)
  · intro hidle p hp a
    rw [Registry.ownerOf, h.table, Registry.Marked]
    constructor
    · rintro (⟨s, hs, hmarks⟩ | ⟨t, ht⟩)
      · exact ⟨s, hs, ((h.space.sheets s hs).marks_iff hp.2.1).1 hmarks⟩
      · rw [hidle t] at ht
        exact ht.elim
    · rintro ⟨s, hs, hin⟩
      exact Or.inl ⟨s, hs, ((h.space.sheets s hs).marks_iff hp.2.1).2 hin⟩

end Owner

/-- The first granule goes from arena 0 to arena 2, while arena 1 gets the second one. -/
def recycledGranule : List (Action Bool ℕ) :=
  [.construct false 0 1, .readBase false, .reserve false (2 ^ 40), .search false, .load false,
    .compareExchange false false, .commit false true, .store false, .store false, .release false 0,
    .store false, .construct true 1 1, .readBase true, .search true, .store false, .push false,
    .load true, .compareExchange true false, .construct false 2 1, .readBase false, .search false,
    .commit true true, .commit false true, .store true, .store false, .store true, .store false]

theorem owner_table_exact_recycled : ∃ w : Registry Bool ℕ,
    Run (fun w a => legal va64 w a ∧ unwrapped va64 w a) (Registry.step va64) (Registry.init Bool ℕ)
      recycledGranule w ∧
      w.ownerOf va64 (2 ^ 40 + 5) = some 2 ∧ w.ownerOf va64 (2 ^ 40 + 2 ^ 21) = some 1 ∧
      w.ownerOf va64 (2 ^ 40 + 2 ^ 22) = none := by
  obtain ⟨w, hrun, hw⟩ := exists_run_of_exec (fun w a => legal va64 w a ∧ unwrapped va64 w a)
    (Registry.step va64) (s := Registry.init Bool ℕ) (l := recycledGranule)
    (P := fun w => w.va.base = 2 ^ 40 ∧ w.sheets = [⟨2, 0, 2 ^ 21⟩, ⟨1, 2 ^ 21, 2 ^ 21⟩] ∧
      ∀ t, w.pcs t = .idle) (by decide +kernel)
  obtain ⟨hbase, hsheets, hidle⟩ := of_decide_eq_true hw
  obtain ⟨hlive, hquiet⟩ := owner_table_exact va64 hrun
  rw [hbase, hsheets] at hlive hquiet
  have hfirst := hlive ⟨2, 0, 2 ^ 21⟩ (by simp) (2 ^ 40 + 5) (by decide) (by decide)
  have hsecond := hlive ⟨1, 2 ^ 21, 2 ^ 21⟩ (by simp) (2 ^ 40 + 2 ^ 21) (by decide) (by decide)
  refine ⟨w, hrun, hfirst.2, hsecond.2, ?_⟩
  refine Option.eq_none_iff_forall_ne_some.2 fun a ha => ?_
  have hin : w.vaContains va64 (2 ^ 40 + 2 ^ 22) := by
    refine ⟨by rw [hbase]; decide, by rw [hbase]; decide, ?_⟩
    rw [hbase]
    decide
  obtain ⟨s, hs, -, -, hlt⟩ := (hquiet hidle _ hin a).1 ha
  fin_cases hs
  · exact absurd hlt (by decide)
  · exact absurd hlt (by decide)

/-- Arena 0 gets the first granule. Its second construction wraps the cursor from `2 ^ 21` to 0, and
before its commit arena 1 gets the first granule as well. -/
def cursorWraps : List (Action Bool ℕ) :=
  [.construct false 0 1, .readBase false, .reserve false (2 ^ 40), .search false, .load false,
    .compareExchange false false, .commit false true, .store false, .store false,
    .construct false 0 (2 ^ 64 - 2 ^ 21 - 4098), .readBase false, .search false, .load false,
    .compareExchange false false,
    .construct true 1 1, .readBase true, .search true, .load true, .compareExchange true false,
    .commit true true, .store true, .store true]

theorem owner_table_wraps : ¬∀ (acts : List (Action Bool ℕ)) (w : Registry Bool ℕ),
    Run (legal va64) (Registry.step va64) (Registry.init Bool ℕ) acts w → w.Answers va64 := by
  intro h
  obtain ⟨w, hrun, hw⟩ := exists_run_of_exec (legal va64) (Registry.step va64)
    (s := Registry.init Bool ℕ) (l := cursorWraps)
    (P := fun w => w.va.base = 2 ^ 40 ∧ w.sheets = [⟨1, 0, 2 ^ 21⟩, ⟨0, 0, 2 ^ 21⟩])
    (by decide +kernel)
  obtain ⟨hbase, hsheets⟩ := of_decide_eq_true hw
  obtain ⟨hlive, -⟩ := h _ w hrun
  rw [hbase, hsheets] at hlive
  have hnew := hlive ⟨1, 0, 2 ^ 21⟩ (by simp) (2 ^ 40) (by decide) (by decide)
  have hold := hlive ⟨0, 0, 2 ^ 21⟩ (by simp) (2 ^ 40) (by decide) (by decide)
  exact absurd (hnew.2.symm.trans hold.2) (by decide)

end AbcMalloc.Owner.Table
