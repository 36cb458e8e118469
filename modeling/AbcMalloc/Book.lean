import AbcMalloc.Foundation.Run
import AbcMalloc.Memory

/-! The interface that `__tlsf_list` and `__buddy_list` share, and clients of a list: runs
of operations together with the history that a caller knows. -/
namespace AbcMalloc
open Function Foundation

/-- The operations of a list with state `σ`. Allocation returns `none` where the source has
undefined behaviour. -/
structure Book (σ : Type*) where
  /-- Bytes of a block in front of the pointer handed out. -/
  header : ℕ
  allocate : σ → ℕ → Option (Chunk × σ)
  temporalAllocate : σ → ℕ → Option (Chunk × σ)
  tombstone : σ → ℕ → RetFlag × σ
  deallocate : σ → ℕ → RetFlag × σ
  isAllocated : σ → ℕ → Bool
  isTombstoned : σ → ℕ → Bool
  isTemporal : σ → ℕ → Bool
  blockSize : σ → ℕ → ℕ
  used : σ → ℕ
  tombstoned : σ → ℕ
  store : σ → ℕ → Cell → σ

inductive Op
  | allocate (n : ℕ)
  | temporalAllocate (n : ℕ)
  | tombstone (p : ℕ)
  | deallocate (p : ℕ)
  /-- Overwrite the `i`-th cell of the chunk at `p`. -/
  | write (p i : ℕ) (c : Cell)

/-- A list and what its client has seen of it. -/
structure Client (σ : Type*) where
  book : σ
  /-- Length of the chunk at a pointer that was returned and not deallocated since. -/
  held : ℕ → Option ℕ
  /-- Pointers tombstoned since they were last returned. -/
  dead : ℕ → Bool
  /-- Pointers deallocated whose header no chunk returned since contains. -/
  freed : ℕ → Bool
  /-- First address and size of the blocks tombstoned so far. -/
  graves : List (ℕ × ℕ)

namespace Client
variable {σ : Type*}

def start (s : σ) : Client σ := ⟨s, fun _ => none, fun _ => false, fun _ => false, []⟩

/-- A pointer is live from the operation that returns it to its tombstone or deallocation. -/
def live (w : Client σ) (p : ℕ) : Bool := (w.held p).isSome && !w.dead p

def receive (B : Book σ) (w : Client σ) (c : Chunk) (s : σ) : Client σ :=
  if c.ptr = 0 then { w with book := s }
  else
    { w with
      book := s
      held := update w.held c.ptr (some c.len)
      dead := update w.dead c.ptr false
      freed := fun p => w.freed p &&
        !(c.ptr - B.header ≤ p - B.header && p - B.header < c.ptr + c.len) }

/-- Receiving a chunk drops the freed pointers whose header it covers. -/
theorem freed_receive {B : Book σ} {w : Client σ} {c : Chunk} {s : σ} (hc : c.ptr ≠ 0) (p : ℕ) :
    (w.receive B c s).freed p = true ↔ w.freed p = true ∧
      ¬(c.ptr - B.header ≤ p - B.header ∧ p - B.header < c.ptr + c.len) := by
  rw [receive, if_neg hc]
  simp only [Bool.and_eq_true, Bool.not_eq_true', Bool.and_eq_false_iff, decide_eq_false_iff_not,
    not_and_or]

def step (B : Book σ) (w : Client σ) : Op → Option (Client σ)
  | .allocate n => do
    let (c, s) ← B.allocate w.book n
    some (w.receive B c s)
  | .temporalAllocate n => do
    let (c, s) ← B.temporalAllocate w.book n
    some (w.receive B c s)
  | .tombstone p =>
    let r := B.tombstone w.book p
    if r.1 = .tombstoned then
      some { w with
        book := r.2
        dead := update w.dead p true
        graves := (p - B.header, B.blockSize w.book p) :: w.graves }
    else some { w with book := r.2 }
  | .deallocate p =>
    let r := B.deallocate w.book p
    if r.1 = .ok then
      some { w with
        book := r.2
        held := update w.held p none
        dead := update w.dead p false
        freed := update w.freed p true }
    else some { w with book := r.2 }
  | .write p i c => some { w with book := B.store w.book (p + 32 * i) c }

def writes (w : Client σ) : Op → Bool
  | .write p i _ => w.live p && (w.held p).any fun len => 32 * i + 32 ≤ len
  | _ => true

/-- Tombstones and deallocations name pointers that are held, tombstoned or not. -/
def wellHeld (w : Client σ) : Op → Bool
  | .tombstone p => (w.held p).isSome
  | .deallocate p => (w.held p).isSome
  | op => w.writes op

def wellLive (w : Client σ) : Op → Bool
  | .tombstone p => w.live p
  | .deallocate p => w.live p
  | op => w.writes op

theorem exists_len_of_writes {w : Client σ} {p i : ℕ} {c : Cell}
    (h : w.writes (.write p i c) = true) : ∃ len, w.held p = some len ∧ 32 * i + 32 ≤ len := by
  simp only [writes, live, Bool.and_eq_true] at h
  cases hp : w.held p with
  | none => simp [hp] at h
  | some len => exact ⟨len, rfl, by simpa [hp] using h.2⟩

theorem wellHeld_of_wellLive {w : Client σ} {op : Op} (h : w.wellLive op = true) :
    w.wellHeld op = true := by
  cases op <;> simp_all [wellLive, wellHeld, live]

end Client
end AbcMalloc
