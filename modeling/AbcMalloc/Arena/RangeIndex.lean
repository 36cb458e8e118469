import AbcMalloc.Foundation.Run
import AbcMalloc.Foundation.Search
import AbcMalloc.Foundation.Shifts

/-! The index of a tier as `arena.hpp` keeps it: an array of ranges in ascending order of their
addresses, a bitmap of several words beside it, and the position of the last hit. Registering and
dropping a sheet move entries and bits one by one. -/
namespace AbcMalloc.Arena
open Function Foundation

structure Range (ν : Type*) where
  lo : ℕ
  hi : ℕ
  nd : ν
  deriving DecidableEq, Repr

/-- `__tier::__idx`, `__count`, `__space_mask` and `__last_hit`. -/
structure RangeIndex (ν : Type*) where
  idx : ℕ → Range ν
  count : ℕ
  spaceMask : ℕ → BitVec 64
  lastHit : ℕ

namespace RangeIndex
variable {ν : Type*} (maxSheets : ℕ)

/-- `__detail_words`, computed in 32 bits. -/
def detailWords : ℕ := (maxSheets + 63) % 2 ^ 32 / 64

def noHit : ℕ := maxSheets

/-! ## The bitmap -/

def maskInsert (words : ℕ) (mask : ℕ → BitVec 64) (pos : ℕ) (value : Bool) : ℕ → BitVec 64 :=
  let word := pos / 64
  let bit := pos % 64
  let w := mask word
  let carry := (w >>> 63) &&& 1#64
  let loMask := if bit = 0 then 0#64 else 1#64 <<< bit - 1#64
  let lo := w &&& loMask
  let hiKeepMask := if bit = 63 then 0#64 else ~~~(1#64 <<< (bit + 1) - 1#64)
  let hi := (w <<< 1) &&& hiKeepMask
  let mask := update mask word (lo ||| hi ||| ((if value then 1#64 else 0#64) <<< bit))
  carryUp words mask carry (word + 1)

def maskRemove (words : ℕ) (mask : ℕ → BitVec 64) (pos : ℕ) : ℕ → BitVec 64 :=
  let word := pos / 64
  let bit := pos % 64
  let carryIn := if word + 1 < words then mask (word + 1) &&& 1#64 else 0#64
  let w := mask word
  let loMask := if bit = 0 then 0#64 else 1#64 <<< bit - 1#64
  let lo := w &&& loMask
  let hiKeepMask :=
    if bit = 0 then 1#64 <<< 63 - 1#64
    else (1#64 <<< 63 - 1#64) &&& ~~~(1#64 <<< bit - 1#64)
  let hi := (w >>> 1) &&& hiKeepMask
  let mask := update mask word (lo ||| hi ||| (carryIn <<< 63))
  carryDown words mask (word + 1)

def maskGet (t : RangeIndex ν) (pos : ℕ) : Bool := bit t.spaceMask pos

def markAvailable (t : RangeIndex ν) (pos : ℕ) : RangeIndex ν :=
  { t with spaceMask :=
      update t.spaceMask (pos / 64) (t.spaceMask (pos / 64) ||| 1#64 <<< (pos % 64)) }

def markExhausted (t : RangeIndex ν) (pos : ℕ) : RangeIndex ν :=
  { t with spaceMask :=
      update t.spaceMask (pos / 64) (t.spaceMask (pos / 64) &&& ~~~(1#64 <<< (pos % 64))) }

/-! ## The index -/

/-- `for (i = 0; i < words; ++i) __space_mask[i] = 0` -/
def clearMask (mask : ℕ → BitVec 64) : ℕ → ℕ → BitVec 64
  | 0 => mask
  | words + 1 => update (clearMask mask words) words 0

/-- `init`, which leaves the entries as they are. -/
def init (t : RangeIndex ν) : RangeIndex ν :=
  { t with
    count := 0
    spaceMask := clearMask t.spaceMask (detailWords maxSheets)
    lastHit := noHit maxSheets }

/-- `while (pos < __count and __idx[pos].lo < lo) ++pos` -/
def insertPos (t : RangeIndex ν) (lo pos : ℕ) : ℕ :=
  if pos < t.count ∧ (t.idx pos).lo < lo then insertPos t lo (pos + 1) else pos
termination_by t.count - pos

def registerSheet (t : RangeIndex ν) (r : Range ν) : ℕ × RangeIndex ν :=
  if maxSheets ≤ t.count then (maxSheets, t)
  else
    let pos := insertPos t r.lo 0
    (pos,
      { idx := update (shiftRight t.idx pos t.count) pos r
        spaceMask := maskInsert (detailWords maxSheets) t.spaceMask pos true
        lastHit :=
          if t.lastHit ≠ noHit maxSheets ∧ pos ≤ t.lastHit ∧ t.lastHit + 1 < maxSheets then
            t.lastHit + 1
          else t.lastHit
        count := t.count + 1 })

def unregister (t : RangeIndex ν) (pos : ℕ) : RangeIndex ν :=
  if t.count ≤ pos then t
  else
    { idx := shiftLeft t.idx t.count pos
      spaceMask := maskRemove (detailWords maxSheets) t.spaceMask pos
      lastHit :=
        if t.lastHit ≠ noHit maxSheets then
          if pos = t.lastHit then noHit maxSheets
          else if pos < t.lastHit then t.lastHit - 1
          else t.lastHit
        else t.lastHit
      count := t.count - 1 }

/-- The loop of `find_range` over the positions from `lo` to `hi`. -/
def findLoop (idx : ℕ → Range ν) (addr : ℕ) (lo hi : ℤ) : ℤ :=
  if lo ≤ hi then
    let mid := lo + (hi - lo) / 2
    if addr < (idx mid.toNat).lo then findLoop idx addr lo (mid - 1)
    else if (idx mid.toNat).hi ≤ addr then findLoop idx addr (mid + 1) hi
    else mid
  else -1
termination_by (hi + 1 - lo).toNat

/-- `find_range`. The number of sheets becomes a signed 32-bit number; `none` when the last
position overflows it, which is undefined. -/
def findRange (t : RangeIndex ν) (addr : ℕ) : Option ℤ :=
  let n := (t.count : ℤ).bmod (2 ^ 32)
  if n - 1 < -2 ^ 31 then none else some (findLoop t.idx addr 0 (n - 1))

end RangeIndex
end AbcMalloc.Arena
