import AbcMalloc.Arena.Tier
import AbcMalloc.Owner.Sheets
import AbcMalloc.Va.Threads

/-! The chunks behind the sheets of a process (`hooks.hpp`, `book.hpp`): `__get_kernel_chunk` carves
them from the reservation or maps them, the constructor of a sheet enters its chunk in the owner
table or in the list of the sheets outside, and `release` takes both back. The state is that of
one caller at a time. -/
namespace AbcMalloc.Arena
open Function Foundation Owner
open Va (VaConfig VaState FreeRun LiveRun Machine Conserved carve reserveOnce reuse)

/-- What the system answers while one chunk is taken and a sheet is built on it. -/
structure Answer where
  /-- to `__va_carve` -/
  va : Va.Kernel
  /-- to `sys_allocator::alloc`; none if that does not return -/
  alloc : Option ℕ
  /-- Whether `__oor_insert` gets memory for a node. -/
  node : Bool
  /-- What the chunk contains. -/
  mem : Mem
  tags : ℕ → ℕ

/-- The reservation, the owner table, the list of the sheets outside, and what
`sys_allocator::alloc` has mapped. -/
structure Store (α : Type) where
  va : VaState
  table : ℕ → Option α
  oor : Oor α
  mapped : List Chunk

/-- `__kernel_chunk_valid`: the last page of the address space is for error codes. -/
def kernelChunkValid (m : Chunk) : Bool := m.ptr ≠ 0 && m.ptr < 2 ^ 64 - 4095 && m.len ≠ 0

namespace Store
variable {α : Type} (c : VaConfig)

def owners (st : Store α) : Owners α := ⟨st.va.base, st.table, st.oor⟩

def vaContains (st : Store α) (p : ℕ) : Bool := st.owners.vaContains c p

def numBlocks : ℕ := c.reservation / c.sheetAlign

def getKernelChunk (g : Answer) (st : Store α) (sz : ℕ) : Except Halt (Chunk × Store α) :=
  let r := carve c g.va st.va sz
  if r.1 ≠ 0 then .ok (⟨r.1, c.roundUp sz⟩, { st with va := r.2 })
  else
    match g.alloc with
    | none => .error .abort
    | some p =>
      .ok (⟨p, sz⟩, { st with
        va := r.2
        mapped := if kernelChunkValid ⟨p, sz⟩ then ⟨p, sz⟩ :: st.mapped else st.mapped })

/-- `__sheet_register` in the constructor of a sheet. Pointers beyond the end of the address space
and stores beyond the end of the table are undefined; without memory for a node the sheet is not
tracked. -/
def sheetRegister (node : Bool) (st : Store α) (x : α) (m : Chunk) : Except Halt (Store α) :=
  if 2 ^ 64 < m.ptr + m.len then .error .undefined
  else if st.vaContains c m.ptr then
    if numBlocks c < st.owners.blockIndex c m.ptr + Table.blocks c m.len then .error .undefined
    else .ok { st with table := (st.owners.sheetRegister c x m).table }
  else if node || st.oor.nodes.any fun n => n.revivable m.ptr ((m.ptr + m.len) % 2 ^ 64) then
    .ok { st with oor := (st.owners.sheetRegister c x m).oor }
  else .ok st

def sheetUnregister (st : Store α) (m : Chunk) : Store α :=
  { st with
    table := (st.owners.sheetUnregister c m).table
    oor := (st.owners.sheetUnregister c m).oor }

def releaseKernelChunk (st : Store α) (m : Chunk) : Store α :=
  if st.vaContains c m.ptr then { st with va := Va.release c st.va m.ptr m.len }
  else { st with mapped := st.mapped.erase m }

/-- `release` and `reset` of a sheet that has a chunk. -/
def release (st : Store α) (m : Chunk) : Store α := (st.sheetUnregister c m).releaseKernelChunk c m

end Store

/-! ## The reservation -/

/-- The reservation between two operations, with `chunks` carved from it. The runs `lost` were
taken for chunks and not committed: they are in no list any more. -/
def quiet (va : VaState) (chunks : List Chunk) (lost : List LiveRun) : Machine Unit :=
  ⟨va, fun _ => .idle, (chunks.map fun m => ⟨m.ptr - va.base, m.len⟩) ++ lost, []⟩

/-- Chunks, lost runs and free runs share the bytes below the cursor. -/
def Carved (c : VaConfig) (va : VaState) (chunks : List Chunk) : Prop :=
  ∃ lost, Conserved c (quiet va chunks lost)

section Quiet
variable {c : VaConfig} {va : VaState} {k : Va.Kernel} {chunks chunks' : List Chunk} {m : Chunk}
  {off n sz : ℕ} {runs : List FreeRun} {live live' lost : List LiveRun}

theorem conserved_perm {pc : Va.Pc} (h : Conserved c (⟨va, fun _ => pc, live, []⟩ : Machine Unit))
    (hp : live.Perm live') : Conserved c (⟨va, fun _ => pc, live', []⟩ : Machine Unit) := by
  refine ⟨fun x => ?_, h.offset_le, h.offset_dvd, fun l hl => h.live l (hp.mem_iff.2 hl), h.runs,
    h.dropped, h.pcs, fun hb => h.based ?_, h.length_le, h.kept⟩
  · have hsum : (live'.map fun l => l.hits c x).sum = (live.map fun l => l.hits c x).sum :=
      (hp.symm.map _).sum_eq
    have hx := h.tally x
    unfold Machine.tally at hx ⊢
    rw [hsum]
    exact hx
  · refine hb.imp (fun hne he => hne ?_) id
    have he : live = [] := he
    rw [he] at hp
    exact hp.nil_eq.symm

theorem Carved.perm (h : Carved c va chunks) (hp : chunks.Perm chunks') : Carved c va chunks' := by
  obtain ⟨lost, h⟩ := h
  exact ⟨lost, conserved_perm h ((hp.map _).append_right lost)⟩

theorem Carved.offset_le (h : Carved c va chunks) : va.offset ≤ c.reservation := by
  obtain ⟨lost, h⟩ := h
  exact h.offset_le

/-- A chunk is made of whole granules below the cursor. -/
theorem Carved.chunk (h : Carved c va chunks) (hm : m ∈ chunks) :
    1 ≤ m.len ∧ m.len ≤ c.reservation ∧ c.sheetAlign ∣ m.ptr - va.base ∧
      m.ptr - va.base + c.roundUp m.len ≤ va.offset := by
  obtain ⟨lost, h⟩ := h
  have hlive : (⟨m.ptr - va.base, m.len⟩ : LiveRun) ∈ (quiet va chunks lost).live :=
    List.mem_append_left _ (List.mem_map.2 ⟨m, hm, rfl⟩)
  obtain ⟨h₁, h₂, hd⟩ := h.live _ hlive
  exact ⟨h₁, h₂, hd,
    h.le_offset_of_hits (Conserved.roundUp_pos h₁ h₂) (Conserved.live_hits_le hlive)⟩

theorem Carved.pairwise (h : Carved c va chunks) : chunks.Pairwise fun m d =>
    m.ptr - va.base + c.roundUp m.len ≤ d.ptr - va.base ∨
      d.ptr - va.base + c.roundUp d.len ≤ m.ptr - va.base := by
  apply pairwise_of_hits_le (fun m : Chunk => m.ptr - va.base) (fun m : Chunk => c.roundUp m.len)
  · intro m hm
    obtain ⟨h₁, h₂, -⟩ := h.chunk hm
    exact Conserved.roundUp_pos h₁ h₂
  · intro x
    obtain ⟨lost, h⟩ := h
    have hx := h.tally x
    unfold Machine.tally quiet at hx
    rw [List.map_append, List.sum_append, List.map_map] at hx
    have hsum : (chunks.map ((fun l : LiveRun => l.hits c x) ∘
        fun m : Chunk => (⟨m.ptr - va.base, m.len⟩ : LiveRun))).sum =
        (chunks.map fun m => hits (m.ptr - va.base) (c.roundUp m.len) x).sum := rfl
    rw [hsum] at hx
    split_ifs at hx <;> omega

theorem Carved.free (h : Carved c va chunks) (hm : m ∈ chunks) {r : FreeRun} (hr : r ∈ va.runs)
    (x : ℕ) : hits (m.ptr - va.base) (c.roundUp m.len) x + r.hits c x ≤ 1 := by
  obtain ⟨lost, h⟩ := h
  have hx := h.tally x
  have hlive : (⟨m.ptr - va.base, m.len⟩ : LiveRun) ∈ (quiet va chunks lost).live :=
    List.mem_append_left _ (List.mem_map.2 ⟨m, hm, rfl⟩)
  have hlives := List.le_sum_of_mem (List.mem_map_of_mem (f := fun l => LiveRun.hits c l x) hlive)
  have hruns := List.le_sum_of_mem (List.mem_map_of_mem (f := fun r => FreeRun.hits c r x)
    (show r ∈ (quiet va chunks lost).va.runs from hr))
  have hchunk : LiveRun.hits c ⟨m.ptr - va.base, m.len⟩ x =
      hits (m.ptr - va.base) (c.roundUp m.len) x := rfl
  unfold Machine.tally at hx
  split_ifs at hx <;> omega

theorem Carved.run_pos (h : Carved c va chunks) {r : FreeRun} (hr : r ∈ va.runs) :
    0 < r.granules * c.sheetAlign := by
  obtain ⟨lost, h⟩ := h
  exact Conserved.run_len_pos (h.runs r hr).1

/-- Nothing is carved before there is a reservation. -/
theorem quiet_base (h : Conserved c (quiet va chunks lost))
    (hne : (quiet va chunks lost).live ≠ []) :
    va.base ≠ 0 := h.based (.inl hne)

theorem reserveOnce_same (k : Va.Kernel) (va : VaState) :
    (reserveOnce k va).offset = va.offset ∧ (reserveOnce k va).runs = va.runs ∧
      (va.base ≠ 0 → reserveOnce k va = va) := by
  unfold reserveOnce
  split_ifs with h
  · exact ⟨rfl, rfl, fun h' => absurd h h'⟩
  · exact ⟨rfl, rfl, fun _ => rfl⟩

theorem quiet_reserve (h : Conserved c (quiet va chunks lost)) (k : Va.Kernel) :
    Conserved c (quiet (reserveOnce k va) chunks lost) := by
  obtain ⟨hoff, hruns, hsame⟩ := reserveOnce_same k va
  by_cases hb : va.base = 0
  · have hnone : (quiet va chunks lost).live = [] := by
      by_contra hne
      exact quiet_base h hne hb
    obtain ⟨hchunks, rfl⟩ := List.append_eq_nil_iff.1 hnone
    obtain rfl := List.map_eq_nil_iff.1 hchunks
    refine ⟨fun x => ?_, ?_, ?_, fun l hl => absurd hl (by simp [quiet]), ?_, h.dropped, h.pcs, ?_,
      ?_, h.kept⟩
    · have hx := h.tally x
      simp only [Machine.tally, quiet, hoff, hruns] at hx ⊢
      exact hx
    · exact hoff ▸ h.offset_le
    · exact hoff ▸ h.offset_dvd
    · exact hruns ▸ h.runs
    · rintro (hl | ⟨t, ht⟩)
      · exact absurd rfl hl
      · exact False.elim ht
    · exact hruns ▸ h.length_le
  · rw [hsame hb]
    exact h

theorem Carved.reserve (h : Carved c va chunks) (k : Va.Kernel) :
    Carved c (reserveOnce k va) chunks := by
  obtain ⟨lost, h⟩ := h
  exact ⟨lost, quiet_reserve h k⟩

/-- The machine in the middle of `__va_carve`. -/
theorem quiet_searching (h : Conserved c (quiet va chunks lost)) (hb : va.base ≠ 0) (h₁ : 1 ≤ n)
    (h₂ : n ≤ c.reservation) : Conserved c ((quiet va chunks lost).goto () (.searching n)) :=
  h.move (fun _ => rfl) (fun _ => rfl) ⟨h₁, h₂⟩ fun _ => hb

theorem taken_commit (h : Conserved c (⟨va, fun _ => .carved off n, live, []⟩ : Machine Unit)) :
    Conserved c (⟨va, fun _ => .idle, ⟨off, n⟩ :: live, []⟩ : Machine Unit) := by
  have hcommit := h.commit (t := ()) rfl
  rw [Va.goto_unit] at hcommit
  exact hcommit

theorem quiet_commit (va : VaState) {va' : VaState} (hb : va'.base = va.base)
    (h : Conserved c
    (⟨va', fun _ => .carved off n, (quiet va chunks lost).live, []⟩ : Machine Unit)) :
    Conserved c (quiet va' (⟨va.base + off, n⟩ :: chunks) lost) := by
  have hlive : quiet va' (⟨va.base + off, n⟩ :: chunks) lost =
      ⟨va', fun _ => .idle, ⟨off, n⟩ :: (quiet va chunks lost).live, []⟩ := by
    simp [quiet, hb]
  rw [hlive]
  exact taken_commit h

theorem quiet_lose (va : VaState) {va' : VaState} (hb : va'.base = va.base)
    (h : Conserved c
    (⟨va', fun _ => .carved off n, (quiet va chunks lost).live, []⟩ : Machine Unit)) :
    Conserved c (quiet va' chunks (⟨off, n⟩ :: lost)) := by
  have hlive : (quiet va chunks lost).live =
      (chunks.map fun m => (⟨m.ptr - va'.base, m.len⟩ : LiveRun)) ++ lost := by
    rw [hb]
    rfl
  have hcommit := taken_commit h
  rw [hlive] at hcommit
  exact conserved_perm hcommit List.perm_middle.symm

/-- A run of the list is taken, as many granules as were asked for. -/
theorem quiet_reuse (h : Conserved c (quiet va chunks lost)) (hb : va.base ≠ 0) {want : ℕ}
    (hpos : 0 < want) (hwant : want < 2 ^ 32) (hre : reuse c va.runs want = some (off, runs)) :
    off + want * c.sheetAlign ≤ c.reservation ∧
      Conserved c (⟨{ va with runs := runs }, fun _ => .carved off (want * c.sheetAlign),
        (quiet va chunks lost).live, []⟩ : Machine Unit) := by
  have hG := c.sheetAlign_pos
  obtain ⟨-, -, -, hle, -⟩ := Va.reuse_hits h.runs (fun r hr => (h.run_le hr).trans h.offset_le) hre
  have hself : c.roundUp (want * c.sheetAlign) = want * c.sheetAlign :=
    Table.roundUp_self (by omega) (Nat.dvd_mul_left _ _)
  have hgran : c.granules (c.roundUp (want * c.sheetAlign)) = want := by
    rw [hself, VaConfig.granules, Nat.mul_div_cancel _ hG, Nat.mod_eq_of_lt hwant]
  have hmul : 0 < want * c.sheetAlign := Nat.mul_pos hpos hG
  have hat : ((quiet va chunks lost).goto () (.searching (want * c.sheetAlign))).pcs () =
      .searching (want * c.sheetAlign) := by rw [Va.goto_unit]
  have hsearch := (quiet_searching h hb hmul (by omega)).search hat (by rw [hgran]; exact hre)
  rw [Va.goto_unit, Va.goto_unit] at hsearch
  exact ⟨hle, hsearch⟩

theorem quiet_bump (h : Conserved c (quiet va chunks lost)) (hb : va.base ≠ 0) (h₁ : 1 ≤ n)
    (h₂ : n ≤ c.reservation) (hd : c.sheetAlign ∣ n) (hle : va.offset + n ≤ c.reservation) :
    Conserved c (⟨{ va with offset := va.offset + n }, fun _ => .carved va.offset n,
      (quiet va chunks lost).live, []⟩ : Machine Unit) := by
  have hself := Table.roundUp_self h₂ hd
  have hres := c.reservation_lt
  have hmod : (va.offset + n) % 2 ^ 64 = va.offset + n := Nat.mod_eq_of_lt (by omega)
  have hswap : Conserved c ((quiet va chunks lost).goto () (.swapping n va.offset)) :=
    h.move (fun _ => rfl) (fun _ => rfl) ⟨h₁, h₂, h.offset_dvd, h.offset_le⟩ fun _ => hb
  have hnot : ¬c.reservation < (va.offset + c.roundUp n) % 2 ^ 64 := by
    rw [hself, hmod]
    omega
  have hat : ((quiet va chunks lost).goto () (.swapping n va.offset)).pcs () =
      .swapping n va.offset := by
    rw [Va.goto_unit]
  have hadv := hswap.advance hat hnot
  rw [Va.goto_unit, Va.goto_unit] at hadv
  simp only [hself] at hadv
  have hoff : ((quiet va chunks lost).va.offset + n) % 2 ^ 64 = va.offset + n := hmod
  rw [hoff] at hadv
  exact hadv

/-- On 64-bit targets a run that is released finds room in the list. -/
theorem push_kept (va : VaState) (live : List LiveRun) {r : FreeRun} (h64 : c.is64 = true)
    (h : Conserved c (⟨va, fun _ => .releasing r, live, []⟩ : Machine Unit)) :
    va.runs.length < c.freeCap ∧
      Conserved c
      (⟨{ va with runs := va.runs ++ [r] }, fun _ => .idle, live, []⟩ : Machine Unit) := by
  have hpush := h.push (t := ()) rfl
  rw [Va.goto_unit] at hpush
  have hroom : va.runs.length < c.freeCap := by
    by_contra hfull
    have hkept := hpush.kept h64
    simp only [if_neg hfull] at hkept
    exact absurd hkept (by simp)
  refine ⟨hroom, ?_⟩
  simp only [Va.pushRun, if_pos hroom] at hpush
  exact hpush

theorem Carved.release (h64 : c.is64 = true) (h : Carved c va (m :: chunks))
    (hle : va.base ≤ m.ptr) (hd : c.sheetAlign ∣ m.len) :
    Va.release c va m.ptr m.len =
        { va with runs := va.runs ++ [⟨m.ptr - va.base, c.granules m.len⟩] } ∧
      Carved c (Va.release c va m.ptr m.len) chunks := by
  obtain ⟨h₁, h₂, hdvd, htop⟩ := h.chunk List.mem_cons_self
  have hself := Table.roundUp_self h₂ hd
  have hoff := h.offset_le
  rw [hself] at htop
  obtain ⟨lost, h⟩ := h
  have hb := quiet_base h (by simp [quiet])
  have hrel := h.release (t := ()) (i := 0) (l := ⟨m.ptr - va.base, m.len⟩) rfl (by simp [quiet])
  rw [Va.goto_unit] at hrel
  simp only [hself] at hrel
  obtain ⟨hroom, hpush⟩ := push_kept va (quiet va chunks lost).live h64 hrel
  have heq : Va.release c va m.ptr m.len =
      { va with runs := va.runs ++ [⟨m.ptr - va.base, c.granules m.len⟩] } := by
    have hin : ¬(m.ptr = 0 ∨ va.base = 0 ∨ m.ptr < va.base ∨ va.base + c.reservation ≤ m.ptr) := by
      omega
    unfold Va.release Va.pushRun
    rw [if_neg hin, if_pos hroom, hself]
  refine ⟨heq, lost, ?_⟩
  rw [heq]
  exact hpush

theorem reuse_zero (h : Conserved c (quiet va chunks lost))
    (hre : reuse c va.runs 0 = some (off, runs)) : off < c.reservation ∧ runs = va.runs := by
  obtain ⟨j, hj, he⟩ := Option.map_eq_some_iff.1 hre
  obtain ⟨hlt, -⟩ := Va.findBest_some _ le_rfl (by simp) hj
  have hmem : va.runs.getD j ⟨0, 0⟩ ∈ va.runs := by
    rw [List.getD_eq_getElem _ _ hlt]
    exact List.getElem_mem _
  obtain ⟨hpos, -⟩ := h.runs _ hmem
  have hle := h.run_le hmem
  have hlen := Conserved.run_len_pos (c := c) hpos
  have hoff : va.offset ≤ c.reservation := h.offset_le
  have hres := c.reservation_lt
  have hle : (va.runs.getD j ⟨0, 0⟩).off + _ ≤ va.offset := hle
  simp only [Prod.mk.injEq] at he
  obtain ⟨rfl, hruns⟩ := he
  have hmod : (va.runs.getD j ⟨0, 0⟩).off % 2 ^ 64 = (va.runs.getD j ⟨0, 0⟩).off :=
    Nat.mod_eq_of_lt (by omega)
  rw [if_pos (by omega), Nat.zero_mul, Nat.add_zero, hmod, Nat.sub_zero] at hruns
  refine ⟨by omega, ?_⟩
  rw [← hruns, List.getD_eq_getElem _ _ hlt]
  exact List.set_getElem_self hlt

/-- What a carve of `n` bytes may come to: the address `r.1`, null if there is none, and the
reservation `r.2`. -/
def Carves (c : VaConfig) (va : VaState) (chunks : List Chunk) (n : ℕ) (r : ℕ × VaState) : Prop :=
  r.2.base = va.base ∧ ((r.1 = 0 ∧ Carved c r.2 chunks) ∨
    (n ≠ 0 ∧ va.base ≠ 0 ∧ va.base ≤ r.1 ∧ r.1 < va.base + c.reservation ∧
      (n ≤ c.reservation → Carved c r.2 (⟨r.1, n⟩ :: chunks))))

/-- The cursor moves past the run, also if the run is not committed then. -/
theorem carveFresh_carves (h : Carved c va chunks) (hb : va.base ≠ 0) (hd : c.sheetAlign ∣ n)
    (hempty : ∀ a, k.commit a 0 = false) (hfit : n + c.reservation < 2 ^ 64) :
    Carves c va chunks n (Va.carveFresh c k va n) := by
  have hoff := h.offset_le
  unfold Va.carveFresh Va.bump
  have hmod : (va.offset + n) % 2 ^ 64 = va.offset + n := Nat.mod_eq_of_lt (by omega)
  rw [hmod]
  by_cases hfull : c.reservation < va.offset + n
  · rw [if_pos hfull]
    exact ⟨rfl, .inl ⟨rfl, h⟩⟩
  · rw [if_neg hfull]
    by_cases hzero : n = 0
    · subst hzero
      simp only [hempty, Nat.add_zero]
      exact ⟨rfl, .inl ⟨rfl, h⟩⟩
    · obtain ⟨lost, h⟩ := h
      have htaken := quiet_bump h hb (by omega) (by omega) hd (by omega)
      refine ⟨rfl, ?_⟩
      dsimp only
      split_ifs with hcommit
      · refine .inr ⟨hzero, hb, Nat.le_add_right _ _, by omega, fun _ => ⟨lost, ?_⟩⟩
        exact quiet_commit va rfl htaken
      · exact .inl ⟨rfl, _, quiet_lose va rfl htaken⟩

/-- What `__va_carve` does, unless the cursor wraps: it takes nothing, loses runs that are not
committed, or takes a run of the reservation. -/
theorem carve_carves (sz : ℕ) (h : Carved c va chunks) (hempty : ∀ a, k.commit a 0 = false)
    (hfit : c.roundUp sz + c.reservation < 2 ^ 64) :
    Carves c (reserveOnce k va) chunks (c.roundUp sz) (carve c k va sz) := by
  obtain ⟨lost, h⟩ := h
  have h₁ := quiet_reserve h k
  generalize hva : reserveOnce k va = va₁ at h₁
  generalize hn : c.roundUp sz = n at hfit
  have hd : c.sheetAlign ∣ n := hn ▸ c.dvd_roundUp sz
  unfold carve
  simp only [hva, hn]
  by_cases hb : va₁.base = 0
  · rw [if_pos hb]
    exact ⟨rfl, .inl ⟨rfl, lost, h₁⟩⟩
  rw [if_neg hb]
  cases hre : reuse c va₁.runs (c.granules n) with
  | none =>
    simp only
    exact carveFresh_carves ⟨lost, h₁⟩ hb hd hempty hfit
  | some found =>
    obtain ⟨off, runs⟩ := found
    simp only
    rcases Nat.eq_zero_or_pos (c.granules n) with hgran | hgran
    · -- the run stays in the list
      rw [hgran] at hre
      obtain ⟨hlt, rfl⟩ := reuse_zero h₁ hre
      split_ifs with hcommit
      · refine ⟨rfl, .inr ⟨?_, hb, Nat.le_add_right _ _, Nat.add_lt_add_left hlt _, fun hle => ?_⟩⟩
        · rintro rfl
          rw [hempty] at hcommit
          cases hcommit
        · exfalso
          have hmul := c.granules_mul hle hd
          rw [hgran, Nat.zero_mul] at hmul
          rw [← hmul, hempty] at hcommit
          cases hcommit
      · exact carveFresh_carves ⟨lost, h₁⟩ hb hd hempty hfit
    · obtain ⟨hle, htaken⟩ := quiet_reuse h₁ hb hgran (Nat.mod_lt _ (by norm_num)) hre
      have hrun := Nat.mul_pos hgran c.sheetAlign_pos
      split_ifs with hcommit
      · refine ⟨rfl, .inr ⟨?_, hb, Nat.le_add_right _ _, by omega, fun hn => ⟨lost, ?_⟩⟩⟩
        · rintro rfl
          rw [hempty] at hcommit
          cases hcommit
        · rw [c.granules_mul hn hd] at htaken
          exact quiet_commit va₁ rfl htaken
      · have hlost : Carved c { va₁ with runs := runs } chunks := ⟨_, quiet_lose va₁ rfl htaken⟩
        exact carveFresh_carves hlost hb hd hempty hfit

end Quiet

/-! ## The list of sheets outside -/

def liveRanges {α : Type} (nodes : List (OorSheet α)) : List (ℕ × ℕ) :=
  nodes.filterMap fun n => n.owner.map fun _ => (n.lo, n.hi)

section Outside
variable {α : Type} {nodes : List (OorSheet α)} {s : Oor α} {x : α} {lo hi len : ℕ} {r : ℕ × ℕ}

theorem mem_liveRanges : r ∈ liveRanges nodes ↔
    ∃ n ∈ nodes, n.lo = r.1 ∧ n.hi = r.2 ∧ n.owner.isSome = true := by
  obtain ⟨lo, hi⟩ := r
  unfold liveRanges
  rw [List.mem_filterMap]
  refine exists_congr fun n => and_congr_right fun _ => ?_
  cases n.owner with
  | none => simp
  | some x => simp

theorem liveRanges_owned (front rest : List (OorSheet α)) {n : OorSheet α}
    (h : n.owner.isSome = true) :
    (liveRanges (front ++ n :: rest)).Perm ((n.lo, n.hi) :: liveRanges (front ++ rest)) := by
  obtain ⟨y, hy⟩ := Option.isSome_iff_exists.1 h
  unfold liveRanges
  rw [List.filterMap_append, List.filterMap_append, List.filterMap_cons_some (b := (n.lo, n.hi))]
  · exact List.perm_middle
  · rw [hy]
    rfl

theorem liveRanges_retired (front rest : List (OorSheet α)) {n : OorSheet α} (h : n.owner = none) :
    liveRanges (front ++ n :: rest) = liveRanges (front ++ rest) := by
  unfold liveRanges
  rw [List.filterMap_append, List.filterMap_append, List.filterMap_cons_none]
  rw [h]
  rfl

theorem liveRanges_insert (s : Oor α) (x : α) (lo len : ℕ) :
    (liveRanges (oorInsert s x lo len).nodes).Perm
      ((lo, (lo + len) % 2 ^ 64) :: liveRanges s.nodes) := by
  by_cases hany : s.nodes.any (fun n => n.revivable lo ((lo + len) % 2 ^ 64)) = true
  · obtain ⟨n, rest, hsplit, hdrop, rfl, hhi, hnone⟩ := exists_revivable hany
    have hnodes : (oorInsert s x n.lo len).nodes =
        (s.nodes.takeWhile fun m => !m.revivable n.lo ((n.lo + len) % 2 ^ 64)) ++
          { n with owner := some x } :: rest := by
      simp only [oorInsert, hdrop]
    have hold := liveRanges_retired (s.nodes.takeWhile fun m =>
      !m.revivable n.lo ((n.lo + len) % 2 ^ 64)) rest hnone
    rw [← hsplit] at hold
    rw [hnodes, hold, ← hhi]
    exact liveRanges_owned _ _ rfl
  · have hdrop : (s.nodes.dropWhile fun n => !n.revivable lo ((lo + len) % 2 ^ 64)) = [] := by
      rw [List.dropWhile_eq_nil_iff]
      intro n hn
      rw [List.any_eq_true] at hany
      rw [Bool.not_eq_true', ← Bool.not_eq_true]
      exact fun h => hany ⟨n, hn, h⟩
    have hnodes : (oorInsert s x lo len).nodes =
        ⟨lo, (lo + len) % 2 ^ 64, some x⟩ :: s.nodes := by
      simp only [oorInsert, hdrop]
    rw [hnodes]
    exact liveRanges_owned [] s.nodes rfl

theorem exists_of_retireFirst_some : ∀ {nodes nodes' : List (OorSheet α)},
    retireFirst lo hi nodes = some nodes' →
      ∃ n ∈ nodes, n.lo = lo ∧ n.hi = hi ∧ n.owner.isSome = true := by
  intro nodes
  induction nodes with
  | nil =>
    intro nodes' h
    cases h
  | cons n nodes ih =>
    intro nodes' h
    rw [retireFirst] at h
    split_ifs at h with hn
    · exact ⟨n, List.mem_cons_self, hn⟩
    · obtain ⟨rest, hrest, -⟩ := Option.map_eq_some_iff.1 h
      obtain ⟨m, hm, hmatch⟩ := ih hrest
      exact ⟨m, List.mem_cons_of_mem _ hm, hmatch⟩

theorem liveRanges_retire (lo len : ℕ) (hlive : s.live = (liveRanges s.nodes).length)
    (hlt : s.live < 2 ^ 32) :
    (liveRanges (oorRetire s lo len).nodes).Perm
        ((liveRanges s.nodes).erase (lo, (lo + len) % 2 ^ 64)) ∧
      (oorRetire s lo len).live = (liveRanges (oorRetire s lo len).nodes).length := by
  by_cases hmem : (lo, (lo + len) % 2 ^ 64) ∈ liveRanges s.nodes
  · have hne : s.live ≠ 0 := by
      rw [hlive]
      exact (List.length_pos_of_mem hmem).ne'
    obtain ⟨front, n, rest, hnodes, hlo, hhi, howner, -, hret⟩ :=
      exists_of_retireFirst (mem_liveRanges.1 hmem)
    have hafter : oorRetire s lo len =
        ⟨front ++ { n with owner := none } :: rest, (s.live + (2 ^ 32 - 1)) % 2 ^ 32⟩ := by
      unfold oorRetire
      rw [if_neg hne, hret]
    have hold := liveRanges_owned front rest howner
    rw [hlo, hhi, ← hnodes] at hold
    have hnew := liveRanges_retired front rest (n := { n with owner := none }) rfl
    rw [hafter]
    refine ⟨?_, ?_⟩
    · rw [hnew]
      have herase := hold.erase (lo, (lo + len) % 2 ^ 64)
      rw [List.erase_cons_head] at herase
      exact herase.symm
    · have hlen := hold.length_eq
      rw [List.length_cons] at hlen
      simp only [hnew]
      omega
  · have hsame : oorRetire s lo len = s := by
      unfold oorRetire
      split_ifs with hzero
      · rfl
      · cases hret : retireFirst lo ((lo + len) % 2 ^ 64) s.nodes with
        | none => rfl
        | some nodes =>
          exfalso
          exact hmem (mem_liveRanges.2 (exists_of_retireFirst_some hret))
    rw [hsame, List.erase_of_not_mem hmem]
    exact ⟨.refl _, hlive⟩

end Outside

end AbcMalloc.Arena
