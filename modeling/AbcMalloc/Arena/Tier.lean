import AbcMalloc.Book
import AbcMalloc.Foundation.Search

/-! The tiers of `arena.hpp`: the sorted index of the sheets of one size class, its bitmap of
sheets with space, and the free cache of `tcache.hpp`. A sheet (`book.hpp`) is a kernel chunk
with a list on it. Everything here is generic in the list. The sheet nodes of a tier are kept
inside its index: the linked list over them is read only when an arena is torn down. -/
namespace AbcMalloc.Arena
open Function Foundation

inductive Halt
  /-- `abort()` -/
  | abort
  /-- undefined behaviour -/
  | undefined
  deriving DecidableEq, Repr

/-- The compile-time switches that the arena functions read: `__default_redzone`,
`__default_double_free_action == 2`, and whether `fail_state` aborts. The free cache is on and
`__default_launder` is off. -/
structure Config where
  redzone : Bool
  doubleFreeAborts : Bool
  failAborts : Bool
  deriving DecidableEq, Repr

/-- `config_amd64.hpp`. -/
def Config.default : Config := ⟨false, true, true⟩

/-- What the template arguments of a tier fix. -/
structure Params (σ : Type*) where
  book : Book σ
  /-- The list on a fresh chunk, given the old content of its memory and of its tag bytes. -/
  format : Mem → (ℕ → ℕ) → Chunk → σ
  /-- `ftotal` -/
  total : σ → ℕ
  /-- Address ranges of a chunk in which the list keeps data of its own. -/
  metadata : Chunk → σ → List (ℕ × ℕ)
  maxSheets : ℕ
  cacheSlots : ℕ
  /-- `tomb_for`: frees tombstone. -/
  tomb : Bool
  /-- Guard page of the sheets that an expansion adds. -/
  guard : ℕ
  /-- Blocks carry canaries when redzones are on. -/
  redzoned : Bool

/-! ## Sheets -/

/-- `sheet` and `tlsf_sheet`: `__kernel_memory`, `__guard_offset` and `__book`. -/
structure Sheet (σ : Type*) where
  mem : Chunk
  guard : ℕ
  book : σ

namespace Sheet
variable {σ : Type*} (T : Params σ)

def empty (s : Sheet σ) : Bool := s.mem.ptr = 0

def addr (s : Sheet σ) : ℕ := s.mem.ptr

def addrEnd (s : Sheet σ) : ℕ := s.mem.ptr + s.mem.len - s.guard

def used (s : Sheet σ) : ℕ := T.book.used s.book

/-- `mark` and `temporal_mark`. -/
def mark (temporal : Bool) (s : Sheet σ) (sz : ℕ) : Except Halt (Chunk × Sheet σ) :=
  if s.empty then .ok (.null, s)
  else
    match if temporal then T.book.temporalAllocate s.book sz else T.book.allocate s.book sz with
    | none => .error .undefined
    | some (c, b) => .ok (c, { s with book := b })

/-- `try_unmark` and `try_tombstone`, sized and size-less: only the sized ones report a list
that refuses the block. -/
def tryRemove (tomb sized : Bool) (s : Sheet σ) (p : ℕ) : Except Halt (Bool × Sheet σ) :=
  if s.empty ∨ p = 0 then .error .abort
  else
    let r := if tomb then T.book.tombstone s.book p else T.book.deallocate s.book p
    .ok (!sized || (r.1 = .ok || r.1 = .tombstoned), { s with book := r.2 })

def find (s : Sheet σ) (p : ℕ) : Except Halt Bool :=
  if p = 0 then .ok false
  else if s.empty then .error .abort
  else .ok (T.book.isAllocated s.book p && !T.book.isTombstoned s.book p)

def isBlockAllocated (s : Sheet σ) (p : ℕ) : Bool :=
  T.book.isAllocated s.book p && !T.book.isTombstoned s.book p

/-- Drained and mostly tombstoned: what the accounting of tombstones gives back. -/
def reclaimable (s : Sheet σ) : Bool :=
  s.used T = 0 && T.total s.book / 2 < T.book.tombstoned s.book

end Sheet

/-! ## The free cache -/

/-- `__tier_tcache`: parked pointers with the size each is good for. -/
abbrev Cache := List (ℕ × ℕ)

namespace Cache

/-- `probe` and `probe_ge`: the newest entry whose size passes the test. -/
def probe (fits : ℕ → Bool) (slots : Cache) : Option ℕ :=
  (List.range slots.length).reverse.find? fun i => (slots[i]?).any fun e => fits e.2

/-- `pop_at`: the last entry takes the place of the one removed. -/
def popAt (c : Cache) (i : ℕ) : (ℕ × ℕ) × Cache :=
  (c.getD i (0, 0), (c.set i (c.getLastD (0, 0))).dropLast)

def push (slots : ℕ) (c : Cache) (p sz : ℕ) : Option Cache :=
  if slots ≤ c.length then none else some (c ++ [(p, sz % 2 ^ 32)])

def contains (c : Cache) (p : ℕ) : Bool := c.any fun e => e.1 = p

def invalidateRange (c : Cache) (lo hi : ℕ) : Cache := c.filter fun e => e.1 < lo || hi ≤ e.1

end Cache

/-! ## Tiers -/

/-- `__range` with its sheet; `head` marks the sheet of `tier.head`. -/
structure Entry (σ : Type*) where
  lo : ℕ
  hi : ℕ
  head : Bool
  sheet : Sheet σ

structure Tier (σ : Type*) where
  /-- `head.nd != nullptr` -/
  built : Bool
  idx : List (Entry σ)
  spaceMask : ℕ → BitVec 64
  lastHit : ℕ
  deallocCount : ℕ
  cache : Cache

namespace Tier
variable {σ : Type*} (T : Params σ)

/-- `init`. -/
def fresh : Tier σ := ⟨false, [], fun _ => 0, T.maxSheets, 0, []⟩

def detailWords : ℕ := (T.maxSheets + 63) / 64

def maskGet (t : Tier σ) (pos : ℕ) : Bool := (t.spaceMask (pos / 64)).getLsbD (pos % 64)

def markAvailable (t : Tier σ) (pos : ℕ) : Tier σ :=
  { t with spaceMask :=
      update t.spaceMask (pos / 64) (t.spaceMask (pos / 64) ||| 1#64 <<< (pos % 64)) }

def markExhausted (t : Tier σ) (pos : ℕ) : Tier σ :=
  { t with spaceMask :=
      update t.spaceMask (pos / 64) (t.spaceMask (pos / 64) &&& ~~~(1#64 <<< (pos % 64))) }

/-- `__mask_insert`: set bit `pos` after moving the bits from `pos` on up by one. -/
def maskInsert (mask : ℕ → BitVec 64) (pos i : ℕ) : BitVec 64 :=
  let word := pos / 64
  let bit := pos % 64
  if i = word then
    let lo := mask i &&& (1#64 <<< bit - 1#64)
    let hi := (mask i <<< 1) &&& (if bit = 63 then 0 else ~~~(1#64 <<< (bit + 1) - 1#64))
    lo ||| hi ||| 1#64 <<< bit
  else if word < i ∧ i < detailWords T then (mask i <<< 1) ||| (mask (i - 1) >>> 63)
  else mask i

/-- `__mask_remove`: drop bit `pos` and move the bits above it down by one. -/
def maskRemove (mask : ℕ → BitVec 64) (pos i : ℕ) : BitVec 64 :=
  let word := pos / 64
  let bit := pos % 64
  let carry := if i + 1 < detailWords T then mask (i + 1) &&& 1#64 else 0
  if i = word then
    let lo := mask i &&& (1#64 <<< bit - 1#64)
    let hi := (mask i >>> 1) &&& ((1#64 <<< 63 - 1#64) &&& ~~~(1#64 <<< bit - 1#64))
    lo ||| hi ||| carry <<< 63
  else if word < i ∧ i < detailWords T then (mask i >>> 1) ||| carry <<< 63
  else mask i

/-- `register_sheet`; `none` when the index is full. -/
def registerSheet (t : Tier σ) (e : Entry σ) : Option (Tier σ) :=
  if T.maxSheets ≤ t.idx.length then none
  else
    let pos := (t.idx.takeWhile fun x => x.lo < e.lo).length
    some { t with
      idx := t.idx.insertIdx pos e
      spaceMask := maskInsert T t.spaceMask pos
      lastHit :=
        if t.lastHit ≠ T.maxSheets ∧ pos ≤ t.lastHit ∧ t.lastHit + 1 < T.maxSheets then
          t.lastHit + 1
        else t.lastHit }

/-- `unregister`, together with the `reset` of the sheet that always comes before it. -/
def unregister (t : Tier σ) (pos : ℕ) : Tier σ :=
  { t with
    idx := t.idx.eraseIdx pos
    spaceMask := maskRemove T t.spaceMask pos
    lastHit :=
      if t.lastHit = T.maxSheets then t.lastHit
      else if pos = t.lastHit then T.maxSheets
      else if pos < t.lastHit then t.lastHit - 1 else t.lastHit }

def loAt (t : Tier σ) (i : ℕ) : ℕ := (t.idx[i]?.map Entry.lo).getD 0

def hiAt (t : Tier σ) (i : ℕ) : ℕ := (t.idx[i]?.map Entry.hi).getD 0

def findRange (t : Tier σ) (addr : ℕ) : Option ℕ :=
  searchInterval t.loAt t.hiAt addr t.idx.length 0 t.idx.length

def setSheet (t : Tier σ) (pos : ℕ) (s : Sheet σ) : Tier σ :=
  { t with idx := t.idx.modify pos fun e => { e with sheet := s } }

/-! ### Allocation -/

/-- One attempt of `__bucket_insert` on the sheet at `pos`; a sheet that cannot serve the
request loses its bit. -/
def insertAt (temporal : Bool) (sz : ℕ) (t : Tier σ) (pos : ℕ) (e : Entry σ) :
    Except Halt (Chunk × Tier σ) := do
  let (c, s) ← e.sheet.mark T temporal sz
  let t := t.setSheet pos s
  .ok (c, if c.ptr ≠ 0 then { t with lastHit := pos } else t.markExhausted pos)

/-- The scan of one word of the bitmap, from its lowest set bit up. A bit beyond the index
ends the scan of the word. -/
def scanWord (temporal : Bool) (sz w : ℕ) : List ℕ → Tier σ → Except Halt (Chunk × Tier σ)
  | [], t => .ok (.null, t)
  | bit :: bits, t =>
    match t.idx[64 * w + bit]? with
    | none => .ok (.null, t)
    | some e => do
      let (c, t) ← insertAt T temporal sz t (64 * w + bit) e
      if c.ptr ≠ 0 then .ok (c, t) else scanWord temporal sz w bits t

def scanWords (temporal : Bool) (sz : ℕ) : List ℕ → Tier σ → Except Halt (Chunk × Tier σ)
  | [], t => .ok (.null, t)
  | w :: ws, t => do
    let bits := (List.range 64).filter fun j => (t.spaceMask w).getLsbD j
    let (c, t) ← scanWord T temporal sz w bits t
    if c.ptr ≠ 0 then .ok (c, t) else scanWords temporal sz ws t

def insertLastHit (temporal : Bool) (t : Tier σ) (sz : ℕ) : Except Halt (Chunk × Tier σ) :=
  match t.idx[t.lastHit]? with
  | some e => if t.maskGet t.lastHit then insertAt T temporal sz t t.lastHit e else .ok (.null, t)
  | none => .ok (.null, t)

/-- `__bucket_insert` and `__bucket_insert_temporal`: the sheet that served the last request
first, then the sheets in the bitmap. -/
def bucketInsert (temporal : Bool) (t : Tier σ) (sz : ℕ) : Except Halt (Chunk × Tier σ) := do
  let (c, t) ← insertLastHit T temporal t sz
  if c.ptr ≠ 0 then .ok (c, t) else scanWords T temporal sz (List.range (detailWords T)) t

/-- With redzones a parked block is only good for its own size. -/
def cacheFit (cfg : Config) (sz n : ℕ) : Bool :=
  if cfg.redzone then n = sz % 2 ^ 32 else sz % 2 ^ 32 ≤ n

def cachePopOrInsert (cfg : Config) (t : Tier σ) (sz : ℕ) : Except Halt (Chunk × Tier σ) :=
  match t.cache.probe (cacheFit cfg sz) with
  | some i =>
    let r := t.cache.popAt i
    .ok (⟨r.1.1, r.1.2⟩, { t with cache := r.2 })
  | none => bucketInsert T false t sz

/-! ### Removal -/

def handleDoubleFree (cfg : Config) (t : Tier σ) : Except Halt (Bool × Tier σ) :=
  if cfg.doubleFreeAborts then .error .abort else .ok (false, t)

def tryReclaimEmpty (t : Tier σ) (pos : ℕ) : Tier σ :=
  if (t.idx[pos]?).any fun e => e.sheet.used T = 0 && !e.head then t.unregister T pos else t

def sweeps (t : Tier σ) (pos : ℕ) : Bool :=
  (t.idx[pos]?).any fun e => !e.head && e.sheet.reclaimable T

/-- The loop of `__sweep_tier_tombstones` over the positions below `n`, from the last down. -/
def sweepBelow : ℕ → Tier σ → Tier σ
  | 0, t => t
  | i + 1, t => sweepBelow i (if t.sweeps T i then t.unregister T i else t)

def sweepTombstones (t : Tier σ) : Tier σ :=
  sweepBelow T t.idx.length { t with deallocCount := 0 }

/-- `__tombstone_accounting`: the sheet at once when it is drained, or every sheet of the tier
at every 64th call. -/
def tombstoneAccounting (t : Tier σ) (pos : ℕ) : Tier σ :=
  if t.sweeps T pos then t.unregister T pos
  else
    let t := { t with deallocCount := t.deallocCount + 1 }
    if 64 ≤ t.deallocCount then t.sweepTombstones T else t

/-- `__tier_remove_impl`; `force` is `ForceTombstone` and `sized` is `HasSize`. -/
def removeImpl (cfg : Config) (force sized : Bool) (t : Tier σ) (pos p : ℕ) :
    Except Halt (Bool × Tier σ) :=
  match t.idx[pos]? with
  | none => .error .undefined
  | some e => do
    let tomb := force || T.tomb
    let (ok, s) ← e.sheet.tryRemove T tomb sized p
    let t := t.setSheet pos s
    if force || ok then
      let t := t.markAvailable pos
      .ok (true, if tomb then t.tombstoneAccounting T pos else t.tryReclaimEmpty T pos)
    else t.handleDoubleFree cfg

/-- `__tier_remove_at`, the size-less free. -/
def removeAt (cfg : Config) (t : Tier σ) (pos p : ℕ) : Except Halt (Bool × Tier σ) :=
  match t.idx[pos]? with
  | none => .error .undefined
  | some e =>
    if cfg.redzone then t.removeImpl T cfg false false pos p
    else if !e.sheet.isBlockAllocated T p then t.handleDoubleFree cfg
    else if T.cacheSlots = 0 then t.removeImpl T cfg false false pos p
    else if t.cache.contains p then t.handleDoubleFree cfg
    else
      let bsz := T.book.blockSize e.sheet.book p
      if T.book.isTemporal e.sheet.book p || bsz ≤ 32 then t.removeImpl T cfg false false pos p
      else
        match t.cache.push T.cacheSlots p (bsz - 32) with
        | some c => .ok (true, { t with cache := c })
        | none => t.removeImpl T cfg false false pos p

/-- `__cache_push_or_remove`, the sized free. -/
def cachePushOrRemove (cfg : Config) (t : Tier σ) (pos : ℕ) (c : Chunk) :
    Except Halt (Bool × Tier σ) :=
  match t.idx[pos]? with
  | none => .error .undefined
  | some e =>
    if T.cacheSlots = 0 then t.removeImpl T cfg false true pos c.ptr
    else if !e.sheet.isBlockAllocated T c.ptr || t.cache.contains c.ptr then t.handleDoubleFree cfg
    else
      let bsz := T.book.blockSize e.sheet.book c.ptr
      if bsz ≤ 32 then t.removeImpl T cfg false true pos c.ptr
      else
        match t.cache.push T.cacheSlots c.ptr (min c.len (bsz - 32)) with
        | some c => .ok (true, { t with cache := c })
        | none => t.removeImpl T cfg false true pos c.ptr

/-! ### Sheets -/

def newEntry (head : Bool) (guard : ℕ) (m : Mem) (tags : ℕ → ℕ) (c : Chunk) : Entry σ where
  lo := c.ptr
  hi := c.ptr + c.len - guard
  head := head
  sheet := ⟨c, guard, T.format m tags ⟨c.ptr, c.len - guard⟩⟩

/-- `__expand_tlsf`, `__expand_buddy` and the `__init` of a head: build a sheet on a chunk
and register it. `none` is the failed expansion. -/
def addSheet (t : Tier σ) (head : Bool) (guard : ℕ) (m : Mem) (tags : ℕ → ℕ) (c : Chunk) :
    Option (Tier σ) :=
  { t with built := true }.registerSheet T (newEntry T head guard m tags c)

/-- What `reset_page` does to one tier: the sheet gives its chunk back and keeps its entry. -/
def resetPage (t : Tier σ) (addr : ℕ) : Tier σ :=
  match t.findRange addr with
  | none => t
  | some pos =>
    { t with
      cache := t.cache.invalidateRange (t.loAt pos) (t.hiAt pos)
      idx := t.idx.modify pos fun e => { e with sheet := { e.sheet with mem := .null } } }

/-- What `__vmap_freeze` does to the tier that holds the sheet: its memory becomes read-only
and its parked blocks are dropped. -/
def freeze (t : Tier σ) (pos : ℕ) : Tier σ :=
  { t with cache := t.cache.invalidateRange (t.loAt pos) (t.hiAt pos) }

end Tier
end AbcMalloc.Arena
