import Mathlib.Logic.Function.Basic
import Mathlib.Data.Nat.Notation
import Mathlib.Algebra.Order.Ring.Nat

/-! Memory as the two books see it. Every block start, block header and block tail of
`__tlsf_list` and `__buddy_list` lies a multiple of 32 bytes (`__hdr_offset`) from the
base of its pool, so memory is kept in 32-byte cells, keyed by their first address, and
a cell is split along the fields of its users:

* `lo` bytes 0..3: `tlsf_hdr::bsize`, `block_header::order`
* `hi` bytes 4..7: `tlsf_hdr::flags`, `block_header::flags`
* `w1` bytes 8..15: `tlsf_hdr::prev_phys`, `free_block::prev`
* `w2` bytes 16..23: `tlsf_hdr::next_free`
* `w3` bytes 24..31: `tlsf_hdr::prev_free`

`free_block::next` is the word made of `lo` and `hi`. Addresses are natural numbers and
`0` is `nullptr`. -/
namespace AbcMalloc
open Function

/-- One 32-byte cell, as a client may write it. -/
structure Cell where
  lo : ℕ
  hi : ℕ
  w1 : ℕ
  w2 : ℕ
  w3 : ℕ
  deriving DecidableEq, Repr

structure Mem where
  lo : ℕ → ℕ
  hi : ℕ → ℕ
  w1 : ℕ → ℕ
  w2 : ℕ → ℕ
  w3 : ℕ → ℕ

namespace Mem

/-- Memory as the kernel maps it. -/
def zero : Mem := ⟨fun _ => 0, fun _ => 0, fun _ => 0, fun _ => 0, fun _ => 0⟩

def setLo (m : Mem) (a v : ℕ) : Mem := { m with lo := update m.lo a v }
def setHi (m : Mem) (a v : ℕ) : Mem := { m with hi := update m.hi a v }
def setW1 (m : Mem) (a v : ℕ) : Mem := { m with w1 := update m.w1 a v }
def setW2 (m : Mem) (a v : ℕ) : Mem := { m with w2 := update m.w2 a v }
def setW3 (m : Mem) (a v : ℕ) : Mem := { m with w3 := update m.w3 a v }

/-- `free_block::next`, the first eight bytes of a cell. -/
def next (m : Mem) (a : ℕ) : ℕ := m.lo a + 2 ^ 32 * m.hi a

def setNext (m : Mem) (a v : ℕ) : Mem := (m.setLo a (v % 2 ^ 32)).setHi a (v / 2 ^ 32)

def store (m : Mem) (a : ℕ) (c : Cell) : Mem :=
  { lo := update m.lo a c.lo, hi := update m.hi a c.hi, w1 := update m.w1 a c.w1,
    w2 := update m.w2 a c.w2, w3 := update m.w3 a c.w3 }

section Projections
variable (m : Mem) (a v : ℕ)

@[simp] theorem setLo_lo : (m.setLo a v).lo = update m.lo a v := rfl
@[simp] theorem setLo_hi : (m.setLo a v).hi = m.hi := rfl
@[simp] theorem setLo_w1 : (m.setLo a v).w1 = m.w1 := rfl
@[simp] theorem setLo_w2 : (m.setLo a v).w2 = m.w2 := rfl
@[simp] theorem setLo_w3 : (m.setLo a v).w3 = m.w3 := rfl
@[simp] theorem setHi_lo : (m.setHi a v).lo = m.lo := rfl
@[simp] theorem setHi_hi : (m.setHi a v).hi = update m.hi a v := rfl
@[simp] theorem setHi_w1 : (m.setHi a v).w1 = m.w1 := rfl
@[simp] theorem setHi_w2 : (m.setHi a v).w2 = m.w2 := rfl
@[simp] theorem setHi_w3 : (m.setHi a v).w3 = m.w3 := rfl
@[simp] theorem setW1_lo : (m.setW1 a v).lo = m.lo := rfl
@[simp] theorem setW1_hi : (m.setW1 a v).hi = m.hi := rfl
@[simp] theorem setW1_w1 : (m.setW1 a v).w1 = update m.w1 a v := rfl
@[simp] theorem setW1_w2 : (m.setW1 a v).w2 = m.w2 := rfl
@[simp] theorem setW1_w3 : (m.setW1 a v).w3 = m.w3 := rfl
@[simp] theorem setW2_lo : (m.setW2 a v).lo = m.lo := rfl
@[simp] theorem setW2_hi : (m.setW2 a v).hi = m.hi := rfl
@[simp] theorem setW2_w1 : (m.setW2 a v).w1 = m.w1 := rfl
@[simp] theorem setW2_w2 : (m.setW2 a v).w2 = update m.w2 a v := rfl
@[simp] theorem setW2_w3 : (m.setW2 a v).w3 = m.w3 := rfl
@[simp] theorem setW3_lo : (m.setW3 a v).lo = m.lo := rfl
@[simp] theorem setW3_hi : (m.setW3 a v).hi = m.hi := rfl
@[simp] theorem setW3_w1 : (m.setW3 a v).w1 = m.w1 := rfl
@[simp] theorem setW3_w2 : (m.setW3 a v).w2 = m.w2 := rfl
@[simp] theorem setW3_w3 : (m.setW3 a v).w3 = update m.w3 a v := rfl

@[simp] theorem setNext_w1 : (m.setNext a v).w1 = m.w1 := rfl
@[simp] theorem setW1_next : (m.setW1 a v).next = m.next := rfl

@[simp] theorem setNext_next : (m.setNext a v).next = update m.next a v := by
  funext x
  by_cases hx : x = a
  · subst hx
    simp only [next, setNext, setHi_lo, setLo_lo, setHi_hi, update_self]
    exact Nat.mod_add_div v (2 ^ 32)
  · simp [next, setNext, update_of_ne hx]

theorem setNext_lo : (m.setNext a v).lo = update m.lo a (v % 2 ^ 32) := rfl
theorem setNext_hi : (m.setNext a v).hi = update m.hi a (v / 2 ^ 32) := rfl

end Projections
end Mem

/-- `micron::__chunk<byte>`: a pointer and a length. -/
structure Chunk where
  ptr : ℕ
  len : ℕ
  deriving DecidableEq, Repr

def Chunk.null : Chunk := ⟨0, 0⟩

/-- Results of the books (`ret_flag` in `metadata.hpp`). -/
inductive RetFlag
  | invalid
  | failure
  | outOfSpace
  | tombstoned
  | ok
  deriving DecidableEq, Repr

/-- `block_flags` of `metadata.hpp`. -/
abbrev blockFree : ℕ := 0
abbrev blockAlloc : ℕ := 1
abbrev blockTombstone : ℕ := 2
abbrev blockTemporal : ℕ := 4

end AbcMalloc
