import AbcMalloc.Book
import AbcMalloc.Foundation.Tiling
import Mathlib.Tactic.Tauto

/-! What a list of blocks is for. A ledger keeps the blocks in use with their flags, the
blocks that temporal requests may be handed again, and the two byte counters. `Refines`
says that the operations of a book act on a ledger as they should; what follows from that
holds for every book. -/
namespace AbcMalloc
open Function Foundation

structure Ledger where
  lo : ℕ
  hi : ℕ
  /-- Size and flags of the blocks in use. -/
  used : BlockMap ℕ
  /-- Blocks that a temporal request may return again. -/
  ring : ℕ → Prop
  allocated : ℕ
  tombstoned : ℕ

def IsKind (f : ℕ) : Prop :=
  f = blockAlloc ∨ f = blockTombstone ∨ f = blockAlloc + blockTemporal

namespace Ledger

structure Valid (L : Ledger) : Prop where
  pos : 0 < L.lo
  top : L.hi < 2 ^ 64
  within : ∀ {a n f}, L.used a = some (n, f) → L.lo ≤ a ∧ a + n ≤ L.hi
  size : ∀ {a n f}, L.used a = some (n, f) → 32 ≤ n
  disjoint : ∀ {a n f b n' f'}, L.used a = some (n, f) → L.used b = some (n', f') → a ≠ b →
    a + n ≤ b ∨ b + n' ≤ a
  kinds : ∀ {a n f}, L.used a = some (n, f) → IsKind f
  ring : ∀ {a}, L.ring a →
    ∃ n f, L.used a = some (n, f) ∧ (f = blockAlloc + blockTemporal ∨ f = blockTombstone)

structure Opens (L L' : Ledger) (b sz f : ℕ) : Prop where
  lo : L'.lo = L.lo
  hi : L'.hi = L.hi
  unused : L.used b = none
  used : L'.used = update L.used b (some (sz, f))
  ring : ∀ {x}, L'.ring x → x = b ∨ L.ring x
  allocated : L'.allocated = (L.allocated + sz) % 2 ^ 64
  tombstoned : L'.tombstoned = L.tombstoned

structure Buries (L L' : Ledger) (b n : ℕ) : Prop where
  lo : L'.lo = L.lo
  hi : L'.hi = L.hi
  used : L'.used = update L.used b (some (n, blockTombstone))
  ring : ∀ {x}, L'.ring x → L.ring x
  allocated : L'.allocated = (L.allocated + (2 ^ 64 - n)) % 2 ^ 64
  tombstoned : L'.tombstoned = (L.tombstoned + n) % 2 ^ 64

structure Closes (L L' : Ledger) (b n f : ℕ) : Prop where
  lo : L'.lo = L.lo
  hi : L'.hi = L.hi
  used : L'.used = update L.used b none
  ring : ∀ {x}, L'.ring x → L.ring x
  allocated : L'.allocated = (L.allocated + (2 ^ 64 - n)) % 2 ^ 64
  tombstoned : L'.tombstoned =
    if f = blockTombstone then (L.tombstoned + (2 ^ 64 - n)) % 2 ^ 64 else L.tombstoned

structure Keeps (L L' : Ledger) : Prop where
  lo : L'.lo = L.lo
  hi : L'.hi = L.hi
  used : L'.used = L.used
  ring : ∀ {x}, L'.ring x → L.ring x
  allocated : L'.allocated = L.allocated
  tombstoned : L'.tombstoned = L.tombstoned

/-- Cells of a block that its holder may write. -/
def Payload (header : ℕ) (L : Ledger) (x : ℕ) : Prop :=
  ∃ b n f i, L.used b = some (n, f) ∧ x = b + header + 32 * i ∧ 32 * i + 32 ≤ n - 32

end Ledger

/-- The operations of a book act on the ledger of its state. Requests are those that `fits`
accepts, and a tombstoned block is not deallocated while it may be returned again. -/
structure Refines {σ : Type*} (B : Book σ) (fits : ℕ → Bool) (Rep : σ → Ledger → Prop) : Prop where
  header_le : B.header ≤ 32
  valid : ∀ {s L}, Rep s L → L.Valid
  used : ∀ {s L}, Rep s L → B.used s = L.allocated
  tombstoned : ∀ {s L}, Rep s L → B.tombstoned s = L.tombstoned
  isAllocated : ∀ {s L b n f}, Rep s L → L.used b = some (n, f) →
    B.isAllocated s (b + B.header) = true
  isTombstoned : ∀ {s L b n f}, Rep s L → L.used b = some (n, f) →
    B.isTombstoned s (b + B.header) = decide (f = blockTombstone)
  isTemporal : ∀ {s L b n f}, Rep s L → L.used b = some (n, f) →
    B.isTemporal s (b + B.header) = decide (f = blockAlloc + blockTemporal)
  blockSize : ∀ {s L b n f}, Rep s L → L.used b = some (n, f) → B.blockSize s (b + B.header) = n
  allocate : ∀ {s L u}, Rep s L → fits u = true →
    B.allocate s u = some (.null, s) ∨
      ∃ b sz s' L', B.allocate s u = some (⟨b + B.header, sz - 32⟩, s') ∧ Rep s' L' ∧
        L.Opens L' b sz blockAlloc ∧ u + 32 ≤ sz
  temporalAllocate : ∀ {s L u}, Rep s L → fits u = true →
    B.temporalAllocate s u = some (.null, s) ∨
      (∃ b sz f s' L', B.temporalAllocate s u = some (⟨b + B.header, sz - 32⟩, s') ∧ Rep s' L' ∧
        L.Keeps L' ∧ L.ring b ∧ L.used b = some (sz, f)) ∨
      ∃ b sz s' L', B.temporalAllocate s u = some (⟨b + B.header, sz - 32⟩, s') ∧ Rep s' L' ∧
        L.Opens L' b sz (blockAlloc + blockTemporal)
  tombstone : ∀ {s L b n f}, Rep s L → L.used b = some (n, f) → f ≠ blockTombstone →
    ∃ s' L', B.tombstone s (b + B.header) = (.tombstoned, s') ∧ Rep s' L' ∧ L.Buries L' b n
  tombstone_again : ∀ {s L b n}, Rep s L → L.used b = some (n, blockTombstone) →
    B.tombstone s (b + B.header) = (.invalid, s)
  deallocate : ∀ {s L b n f}, Rep s L → L.used b = some (n, f) → (f = blockTombstone → ¬L.ring b) →
    ∃ s' L', B.deallocate s (b + B.header) = (.ok, s') ∧ Rep s' L' ∧ L.Closes L' b n f
  store : ∀ {s L x} (c : Cell), Rep s L → L.Payload B.header x → Rep (B.store s x c) L

/-! ## Clients of a refining book -/

section Clients
variable {σ : Type*} {B : Book σ} {fits : ℕ → Bool} {Rep : σ → Ledger → Prop}

/-- Requests that the book can serve without overflow. -/
def fitsOp (fits : ℕ → Bool) : Op → Bool
  | .allocate n => fits n
  | .temporalAllocate n => fits n
  | _ => true

/-- Every pointer the client holds is the payload of a block in use. -/
def Ledger.Holds (header : ℕ) (w : Client σ) (L : Ledger) : Prop :=
  ∀ p len, w.held p = some len → ∃ b n f, p = b + header ∧ len = n - 32 ∧ L.used b = some (n, f)

inductive LedgerStep (B : Book σ) (w : Client σ) (L : Ledger) : Op → Client σ → Ledger → Prop
  | idle {op : Op} : LedgerStep B w L op w L
  | open {op : Op} {b sz f : ℕ} {s' : σ} {L' : Ledger} (h : L.Opens L' b sz f)
      (hf : f = blockAlloc ∨ f = blockAlloc + blockTemporal) :
      LedgerStep B w L op (w.receive B ⟨b + B.header, sz - 32⟩ s') L'
  | again {n b sz f : ℕ} {s' : σ} {L' : Ledger} (h : L.Keeps L') (hr : L.ring b)
      (hb : L.used b = some (sz, f)) :
      LedgerStep B w L (.temporalAllocate n) (w.receive B ⟨b + B.header, sz - 32⟩ s') L'
  | bury {b n f : ℕ} {s' : σ} {L' : Ledger} (h : L.Buries L' b n) (hb : L.used b = some (n, f))
      (hf : f ≠ blockTombstone) :
      LedgerStep B w L (.tombstone (b + B.header))
        { w with
          book := s'
          dead := update w.dead (b + B.header) true
          graves := (b, n) :: w.graves } L'
  | close {b n f : ℕ} {s' : σ} {L' : Ledger} (h : L.Closes L' b n f) (hb : L.used b = some (n, f)) :
      LedgerStep B w L (.deallocate (b + B.header))
        { w with
          book := s'
          held := update w.held (b + B.header) none
          dead := update w.dead (b + B.header) false
          freed := update w.freed (b + B.header) true } L'
  | write {p i : ℕ} {c : Cell} {s' : σ} :
      LedgerStep B w L (.write p i c) { w with book := s' } L

/-- Every step of a client succeeds and acts on the ledger. -/
theorem Refines.step (hB : Refines B fits Rep) {w : Client σ} {L : Ledger} {op : Op}
    (hrep : Rep w.book L) (hH : L.Holds B.header w) (hlegal : w.wellHeld op = true)
    (hfit : fitsOp fits op = true)
    (hring : ∀ b n, op = .deallocate (b + B.header) → L.used b = some (n, blockTombstone) →
      ¬L.ring b) :
    ∃ w' L', w.step B op = some w' ∧ Rep w'.book L' ∧ LedgerStep B w L op w' L' := by
  have hV := hB.valid hrep
  have hrecv : ∀ (b sz : ℕ) (s' : σ) {f : ℕ} {L' : Ledger}, Rep s' L' →
      L'.used b = some (sz, f) →
      (w.receive B ⟨b + B.header, sz - 32⟩ s').book = s' := by
    intro b sz s' f L' hrep' hb
    have := ((hB.valid hrep').within hb).1
    have := (hB.valid hrep').pos
    simp only [Client.receive]
    rw [if_neg (show ¬b + B.header = 0 by omega)]
  cases op with
  | allocate n =>
    rcases hB.allocate hrep hfit with hnull | ⟨b, sz, s', L', hal, hrep', hO, -⟩
    · exact ⟨w, L, by simp [Client.step, hnull, Client.receive, Chunk.null], hrep, .idle⟩
    · refine ⟨_, L', by simp only [Client.step, hal]; rfl, ?_, .open hO (Or.inl rfl)⟩
      rw [hrecv b sz s' hrep' (by rw [hO.used, update_self])]
      exact hrep'
  | temporalAllocate n =>
    rcases hB.temporalAllocate hrep hfit with hnull |
      ⟨b, sz, f, s', L', hal, hrep', hK, hr, hb⟩ | ⟨b, sz, s', L', hal, hrep', hO⟩
    · exact ⟨w, L, by simp [Client.step, hnull, Client.receive, Chunk.null], hrep, .idle⟩
    · refine ⟨_, L', by simp only [Client.step, hal]; rfl, ?_, .again hK hr hb⟩
      rw [hrecv b sz s' hrep' (by rw [hK.used, hb])]
      exact hrep'
    · refine ⟨_, L', by simp only [Client.step, hal]; rfl, ?_, .open hO (Or.inr rfl)⟩
      rw [hrecv b sz s' hrep' (by rw [hO.used, update_self])]
      exact hrep'
  | tombstone p =>
    obtain ⟨len, hlen⟩ := Option.isSome_iff_exists.1 hlegal
    obtain ⟨b, n, f, rfl, -, hb⟩ := hH _ _ hlen
    by_cases hf : f = blockTombstone
    · subst hf
      exact ⟨w, L, by simp [Client.step, hB.tombstone_again hrep hb], hrep, .idle⟩
    · obtain ⟨s', L', hts, hrep', hbury⟩ := hB.tombstone hrep hb hf
      exact ⟨_, L', by simp [Client.step, hts, hB.blockSize hrep hb], hrep', .bury hbury hb hf⟩
  | deallocate p =>
    obtain ⟨len, hlen⟩ := Option.isSome_iff_exists.1 hlegal
    obtain ⟨b, n, f, rfl, -, hb⟩ := hH _ _ hlen
    obtain ⟨s', L', hde, hrep', hclose⟩ := hB.deallocate hrep hb fun hf =>
      hring b n rfl (hf ▸ hb)
    exact ⟨_, L', by simp [Client.step, hde], hrep', .close hclose hb⟩
  | write p i c =>
    obtain ⟨len, hlen, hi⟩ := Client.exists_len_of_writes (c := c) hlegal
    obtain ⟨b, n, f, rfl, rfl, hb⟩ := hH _ _ hlen
    exact ⟨_, L, rfl, hB.store c hrep ⟨b, n, f, i, hb, rfl, hi⟩, .write⟩

end Clients
end AbcMalloc
