import AbcMalloc.Arena.Clients
import AbcMalloc.Foundation.Intervals

/-! The statistics of `stats.hpp`, as `push`, `resize`, `pop` and `ts_pop` collect them. A release
is counted before the arena knows whether the free is accepted, so that the counters follow the
live blocks in runs that only free live pointers. -/
namespace AbcMalloc.Arena
open Function Foundation

/-- `__stats_storage`. The counters that are only ever added to are kept as totals: what the
atomics hold is the remainder by `2^64`. -/
structure Stats where
  allocRequests : ℕ
  deallocRequests : ℕ
  totalMemoryReq : ℕ
  totalMemoryThroughput : ℕ
  totalMemoryFreed : ℕ
  currentMemoryUsage : ℕ

namespace Stats

def zero : Stats := ⟨0, 0, 0, 0, 0, 0⟩

/-- `collect_stats<alloc>` and `collect_stats<total_memory_req>`. -/
def request (s : Stats) (n : ℕ) : Stats :=
  { s with allocRequests := s.allocRequests + 1, totalMemoryReq := s.totalMemoryReq + n }

/-- `collect_stats<total_memory_throughput>`. -/
def throughput (s : Stats) (n : ℕ) : Stats :=
  { s with
    totalMemoryThroughput := s.totalMemoryThroughput + n
    currentMemoryUsage := (s.currentMemoryUsage + n) % 2 ^ 64 }

def subtractCurrentMemory (s : Stats) (n : ℕ) : Stats :=
  { s with
    currentMemoryUsage := if s.currentMemoryUsage < n then 0 else s.currentMemoryUsage - n }

/-- `collect_stats<dealloc>` and `collect_stats<total_memory_freed>`. -/
def freed (s : Stats) (n : ℕ) : Stats :=
  { s with
    deallocRequests := s.deallocRequests + 1
    totalMemoryFreed := s.totalMemoryFreed + n }.subtractCurrentMemory n

end Stats

section Operations
variable (cfg : Config) (a : Tiers)

def statsReleaseSize (p fallback : ℕ) : ℕ :=
  if sizeOfAlloc cfg a p = 0 then fallback else sizeOfAlloc cfg a p

namespace Stats

def serve (sz : ℕ) (r : Option Chunk × Tiers) (s : Stats) : Stats :=
  match r.1 with
  | none => s.request sz
  | some c => (s.request sz).throughput (statsReleaseSize cfg r.2 c.ptr c.len)

/-- What every overload of `pop` and `ts_pop` collects once `__free_admit` has looked at `adm`:
the size of the block, or else the length that the caller gives. -/
def free (p : ℕ) (adm : Option ℕ) (len : ℕ) (s : Stats) : Stats :=
  if p = 0 then s
  else if !freeAdmit p adm then s
  else s.freed (statsReleaseSize cfg a p len)

def pop (p : ℕ) (len : Option ℕ) (s : Stats) : Stats := s.free cfg a p len (len.getD 0)

def popChunk (mem : Chunk) (s : Stats) : Stats := s.free cfg a mem.ptr none mem.len

def resize (p newSz : ℕ) (data : ℕ → Cell) (gs : List Grant) (s : Stats) : Except Halt Stats :=
  if isCached a p then .ok s
  else
    let oldSize := sizeOfAlloc cfg a p
    if oldSize = 0 then .ok s
    else if newSz ≤ oldSize ∧ oldSize / 2 < newSz then .ok s
    else do
      let r ← push cfg a newSz gs
      let s := s.serve cfg newSz r
      match r.1 with
      | none => .ok s
      | some c =>
        .ok (s.pop cfg (copyCells cfg c.ptr data (sizeOfAlloc cfg r.2 c.ptr / 32) r.2) p none)

def step (s : Stats) : Op → Except Halt Stats
  | .push sz gs => do
    let r ← push cfg a sz gs
    .ok (s.serve cfg sz r)
  | .launder sz gs => do
    let r ← launder cfg a sz gs
    .ok (s.serve cfg sz r)
  | .pop p len _ => .ok (s.pop cfg a p len)
  | .tsPop p len _ => .ok (s.pop cfg a p len)
  | .resize p newSz data gs => s.resize cfg a p newSz data gs
  | _ => .ok s

end Stats

/-- A client together with the statistics of its arena. -/
structure Metered where
  world : World
  stats : Stats

namespace Metered

/-- A step of a client, or a free that names its chunk. -/
inductive Act
  | op (op : Op)
  | popChunk (mem : Chunk) (intact : Bool)
  | tsPopChunk (mem : Chunk) (intact : Bool)

def init (a : Tiers) : Metered := ⟨.init a, .zero⟩

def step (m : Metered) : Act → Except Halt Metered
  | .op op => do
    let w ← m.world.step cfg op
    let s ← m.stats.step cfg m.world.arena op
    .ok ⟨w, s⟩
  | .popChunk mem intact => do
    let r ← popChunk cfg m.world.arena mem intact
    .ok ⟨m.world.release mem.ptr r, m.stats.popChunk cfg m.world.arena mem⟩
  | .tsPopChunk mem intact => do
    let r ← tsPopChunk cfg m.world.arena mem intact
    .ok ⟨m.world.release mem.ptr r, m.stats.popChunk cfg m.world.arena mem⟩

def next (m : Metered) (act : Act) : Option Metered := (m.step cfg act).toOption

end Metered
end Operations

/-! ## Tallies -/

/-- The counters follow the live pointers and what each of them is good for. -/
structure Tally (live : ℕ → Option Held) (size : ℕ → ℕ) (s : Stats) : Prop where
  usage : ∃ S : Finset ℕ, (∀ p, p ∈ S ↔ (live p).isSome = true) ∧
    s.currentMemoryUsage = ∑ p ∈ S, size p
  total : s.totalMemoryFreed + s.currentMemoryUsage = s.totalMemoryThroughput

namespace Tally
variable {live live' : ℕ → Option Held} {size size' : ℕ → ℕ} {s s' : Stats} {p n : ℕ} {h : Held}

theorem zero : Tally (fun _ => none) size .zero where
  usage := ⟨∅, fun p => by simp, rfl⟩
  total := rfl

theorem congr (hT : Tally live size s) (hlive : ∀ p, (live' p).isSome = (live p).isSome)
    (hsize : ∀ p, (live p).isSome = true → size' p = size p)
    (hs : s'.currentMemoryUsage = s.currentMemoryUsage ∧ s'.totalMemoryFreed = s.totalMemoryFreed ∧
      s'.totalMemoryThroughput = s.totalMemoryThroughput) : Tally live' size' s' where
  usage := by
    obtain ⟨S, hS, hsum⟩ := hT.usage
    refine ⟨S, fun p => by rw [hS, hlive], ?_⟩
    rw [hs.1, hsum]
    exact (Finset.sum_congr rfl fun p hp => hsize p ((hS p).1 hp)).symm
  total := by
    rw [hs.1, hs.2.1, hs.2.2]
    exact hT.total

/-- A chunk of `n` bytes arrives; there is an address for each live byte. -/
theorem grant (hT : Tally live size s) (hp : live p = none) (hn : size' p = n)
    (hsize : ∀ q, (live q).isSome = true → size' q = size q)
    (hfit : ∀ S : Finset ℕ, (∀ q ∈ S, (update live p (some h) q).isSome = true) →
      ∑ q ∈ S, size' q < 2 ^ 64) :
    Tally (update live p (some h)) size' (s.throughput n) := by
  obtain ⟨S, hS, hsum⟩ := hT.usage
  have hnew : p ∉ S := fun hmem => by simpa [hp] using (hS p).1 hmem
  have hmem : ∀ q, q ∈ insert p S ↔ (update live p (some h) q).isSome = true := by
    intro q
    rw [Finset.mem_insert, hS, update_apply]
    split_ifs with hq <;> simp [hq]
  have hkeep : ∑ q ∈ S, size' q = ∑ q ∈ S, size q :=
    Finset.sum_congr rfl fun q hq => hsize q ((hS q).1 hq)
  have hlt := hfit (insert p S) fun q hq => (hmem q).1 hq
  rw [Finset.sum_insert hnew, hn, hkeep, ← hsum] at hlt
  have hmod : (s.currentMemoryUsage + n) % 2 ^ 64 = s.currentMemoryUsage + n :=
    Nat.mod_eq_of_lt (by omega)
  constructor
  · refine ⟨insert p S, hmem, ?_⟩
    show (s.currentMemoryUsage + n) % 2 ^ 64 = _
    rw [hmod, Finset.sum_insert hnew, hn, hkeep, hsum, Nat.add_comm]
  · show s.totalMemoryFreed + (s.currentMemoryUsage + n) % 2 ^ 64 = s.totalMemoryThroughput + n
    rw [hmod, ← hT.total, Nat.add_assoc]

theorem release (hT : Tally live size s) (hp : (live p).isSome = true)
    (hsize : ∀ q, q ≠ p → (live q).isSome = true → size' q = size q) :
    Tally (update live p none) size' (s.freed (size p)) := by
  obtain ⟨S, hS, hsum⟩ := hT.usage
  have hmem := (hS p).2 hp
  have hsplit := Finset.sum_erase_add S size hmem
  rw [← hsum] at hsplit
  have hcurrent : (s.freed (size p)).currentMemoryUsage = s.currentMemoryUsage - size p := by
    show (if s.currentMemoryUsage < size p then 0 else s.currentMemoryUsage - size p) = _
    rw [if_neg (by omega)]
  constructor
  · refine ⟨S.erase p, fun q => ?_, ?_⟩
    · rw [Finset.mem_erase, hS, update_apply]
      split_ifs with hq <;> simp [hq]
    · have hrest : ∑ q ∈ S.erase p, size' q = ∑ q ∈ S.erase p, size q :=
        Finset.sum_congr rfl fun q hq =>
          hsize q (Finset.ne_of_mem_erase hq) ((hS q).1 (Finset.mem_of_mem_erase hq))
      rw [hcurrent, hrest]
      exact Nat.sub_eq_of_eq_add hsplit.symm
  · rw [hcurrent]
    have htotal := hT.total
    show s.totalMemoryFreed + size p + _ = s.totalMemoryThroughput
    omega

end Tally
end AbcMalloc.Arena
