import AbcMalloc.Arena.Tier
import AbcMalloc.Buddy.Runs
import AbcMalloc.Tlsf.Runs

/-! `__arena` of `arena.hpp`: five tiers, the routing of requests and frees to them, and
clients of an arena. Kernel mappings are arguments: a request comes with the chunks that the
kernel hands out while it is served, so that nothing depends on how large they are chosen.
The metadata buffers of the arena, its predictor and its statistics are left out. -/
namespace AbcMalloc.Arena
open Function Foundation

/-- The user tiers, in the order in which addresses are dispatched. -/
inductive TierId
  | precise
  | small
  | medium
  | large
  | huge
  deriving DecidableEq, Repr

namespace TierId

def all : List TierId := [precise, small, medium, large, huge]

theorem mem_all (t : TierId) : t ∈ all := by
  cases t <;> decide

abbrev Heap : TierId → Type
  | precise => Tlsf.Heap
  | small => Tlsf.Heap
  | medium => Buddy.Heap
  | large => Buddy.Heap
  | huge => Buddy.Heap

/-- A tier of `tlsf_sheet`s: headers and sentinels are the data of the list. -/
def tlsfTier (slots : ℕ) : Params Tlsf.Heap where
  book := Tlsf.tlsfBook
  format m _ c := Tlsf.initMemory m c.ptr c.len
  total h := h.ctl.total
  metadata _ h :=
    if h.ctl.base = 0 then []
    else (h.ctl.base, 32) :: (h.ctl.endSentinel, 32) :: (Tlsf.blocks h).map fun b => (b, 32)
  maxSheets := 512
  cacheSlots := slots
  tomb := false
  guard := 0
  redzoned := true

def tailHeaders (h : Buddy.Heap) : List (ℕ × ℕ) :=
  ((List.range h.ctl.tagCount).filter fun i => h.ctl.blockTags i < h.ctl.maxOrder).map fun i =>
    (h.ctl.hdrOf (h.ctl.base + i * 2 ^ h.ctl.minLog) (h.ctl.blockTags i), 32)

/-- A tier of `sheet`s: the tags lie between the start of the chunk and the first block. -/
def buddyTier (minLog maxSheets slots : ℕ) (tomb : Bool) : Params Buddy.Heap where
  book := Buddy.buddyBook
  format m tags c := Buddy.initMemory minLog m c.ptr c.len false tags
  total h := h.ctl.total
  metadata c h := if h.ctl.base = 0 then [] else (c.ptr, h.ctl.base - c.ptr) :: tailHeaders h
  maxSheets := maxSheets
  cacheSlots := slots
  tomb := tomb
  guard := 4096
  redzoned := false

/-- `__class_*`, `__max_sheets_*`, `__cache_slots_*` and `tomb_for` of `config_amd64.hpp`. -/
def params : (t : TierId) → Params t.Heap
  | precise => tlsfTier 32
  | small => tlsfTier 16
  | medium => buddyTier 12 512 8 false
  | large => buddyTier 15 128 4 true
  | huge => buddyTier 18 128 0 true

/-- Tier of a request in `__vmap_alloc`. -/
def ofSize (sz : ℕ) : TierId :=
  if sz ≤ 512 then precise
  else if sz < 2 ^ 12 then small
  else if sz ≤ 2 ^ 15 then medium
  else if sz ≤ 2 ^ 18 then large else huge

/-- Tier of a request in `__vmap_launder`, which has no precise tier. -/
def ofLaunder (sz : ℕ) : TierId :=
  if sz < 2 ^ 12 then small
  else if sz ≤ 2 ^ 15 then medium
  else if sz ≤ 2 ^ 18 then large else huge

/-- The tier that `__buf_expand_exact` expands or builds. -/
def ofExpand (classSz : ℕ) : TierId :=
  if classSz ≤ 512 then precise
  else if classSz < 2 ^ 12 then small
  else if classSz ≤ 2 ^ 15 then medium
  else if classSz ≤ 2 ^ 18 then large else huge

end TierId

abbrev Tiers := (t : TierId) → Tier t.Heap

/-- A chunk from the kernel, with what its memory and its tag bytes hold. -/
structure Grant where
  chunk : Chunk
  mem : Mem
  tags : ℕ → ℕ

section Operations
variable (cfg : Config) (a : Tiers)

/-- A tier with nothing but its head, as `__init_tlsf` and `__init_buddy` leave it. -/
def headTier (t : TierId) (g : Grant) : Option (Tier t.Heap) :=
  (Tier.fresh t.params).addSheet t.params true 0 g.mem g.tags g.chunk

/-- The constructor: the heads of the precise, small and medium tiers are built at once. -/
def start (g₁ g₂ g₃ : Grant) : Option Tiers := do
  let x ← headTier .precise g₁
  let y ← headTier .small g₂
  let z ← headTier .medium g₃
  some (update (update (update (fun t => Tier.fresh (TierId.params t)) .precise x) .small y)
    .medium z)

/-- `__dispatch_addr`: the first tier with a sheet for the address, and its position there. -/
def dispatch (p : ℕ) : Option (TierId × ℕ) :=
  TierId.all.findSome? fun t => ((a t).findRange p).map fun pos => (t, pos)

def canaries (t : TierId) : Bool := cfg.redzone && t.params.redzoned

def blockPtr (t : TierId) (p : ℕ) : ℕ := if canaries cfg t then p - 16 else p

def failState : Except Halt (Bool × Tiers) :=
  if cfg.failAborts then .error .abort else .ok (false, a)

def onTier {α : Type} (t : TierId) (f : Tier t.Heap → Except Halt (α × Tier t.Heap)) :
    Except Halt (α × Tiers) := do
  let (r, x) ← f (a t)
  .ok (r, update a t x)

/-! ### Requests -/

def rzInflate (sz : ℕ) : ℕ :=
  if cfg.redzone then
    if sz + 32 < 2 ^ 12 then sz + 32 else if sz < 2 ^ 12 then 2 ^ 12 else sz
  else sz

def rzActive (sz : ℕ) : Bool := cfg.redzone && sz + 32 < 2 ^ 12

/-- `__buf_expand_exact`. The large and huge tiers are built on their first expansion, without
a guard page; there a failed mapping aborts. -/
def bufExpand (sz : ℕ) (g : Option Grant) : Except Halt (Bool × Tiers) :=
  let t := TierId.ofExpand sz
  let lazy := !(a t).built
  match g with
  | none => if lazy then .error .abort else .ok (false, a)
  | some g =>
    match (a t).addSheet t.params lazy (if lazy then 0 else t.params.guard) g.mem g.tags
      g.chunk with
    | none => .ok (false, a)
    | some x => .ok (true, update a t x)

/-- The loop of `push` and `launder`: `retries` expansions, then the sentinel (`none`). -/
def attempt (alloc : Tiers → Except Halt (Chunk × Tiers)) (sz : ℕ) :
    ℕ → List Grant → Tiers → Except Halt (Option Chunk × Tiers)
  | retries, grants, a => do
    let (c, a) ← alloc a
    if c.ptr ≠ 0 then .ok (some c, a)
    else
      match retries with
      | 0 => .ok (none, a)
      | retries + 1 => do
        let (expanded, a) ← bufExpand a sz grants.head?
        if expanded then attempt alloc sz retries grants.tail a else .ok (none, a)

def vmapAlloc (sz : ℕ) : Except Halt (Chunk × Tiers) :=
  onTier a (.ofSize sz) fun t => t.cachePopOrInsert (TierId.params _) cfg sz

def vmapLaunder (sz : ℕ) : Except Halt (Chunk × Tiers) :=
  onTier a (.ofLaunder sz) fun t => t.bucketInsert (TierId.params _) true sz

/-- `__rz_apply`; the canaries themselves are not part of the state. -/
def rzApply (sz : ℕ) (c : Chunk) : Chunk := if rzActive cfg sz then ⟨c.ptr + 16, sz⟩ else c

def push (sz : ℕ) (grants : List Grant) : Except Halt (Option Chunk × Tiers) :=
  if 2 ^ 63 - 1 < sz then .error .abort
  else do
    let sz' := rzInflate cfg sz
    let (c, a) ← attempt (fun a => vmapAlloc cfg a sz') sz' 2 grants a
    .ok (c.map (rzApply cfg sz), a)

def launder (sz : ℕ) (grants : List Grant) : Except Halt (Option Chunk × Tiers) :=
  if 2 ^ 63 - 1 < sz then .error .abort
  else do
    let sz' := rzInflate cfg sz
    let (c, a) ← attempt (fun a => vmapLaunder a sz') sz' 2 grants a
    .ok (c.map (rzApply cfg sz), a)

/-! ### Frees -/

/-- `__free_admit`: the null and the sentinel pointer, empty and wrapping chunks are refused. -/
def freeAdmit (p : ℕ) (len : Option ℕ) : Bool :=
  p ≠ 0 && p ≠ 2 ^ 64 - 1 && len.all fun n => n ≠ 0 && p + n < 2 ^ 64

/-- `__vmap_remove` and, without a length, `__vmap_remove_at`. `intact` is the answer of the canary
check, which is only made where there are canaries. -/
def vmapRemove (p : ℕ) (len : Option ℕ) (intact : Bool) : Except Halt (Bool × Tiers) :=
  match dispatch a p with
  | none => .ok (false, a)
  | some (t, pos) =>
    if canaries cfg t && !intact then failState cfg a
    else
      onTier a t fun x =>
        match len with
        | none => x.removeAt (TierId.params t) cfg pos (blockPtr cfg t p)
        | some n => x.cachePushOrRemove (TierId.params t) cfg pos
            ⟨blockPtr cfg t p, if canaries cfg t then (n + 32) % 2 ^ 64 else n⟩

def vmapTombstone (p : ℕ) (sized intact : Bool) : Except Halt (Bool × Tiers) :=
  match dispatch a p with
  | none => .ok (false, a)
  | some (t, pos) =>
    if canaries cfg t && !intact then failState cfg a
    else
      onTier a t fun x =>
        x.removeImpl (TierId.params t) cfg true sized pos (blockPtr cfg t p)

/-- What the overloads of `pop` share: `null` is the answer for the null pointer, and `adm` is the
length that `__free_admit` looks at. -/
def popWith (null : Bool) (adm : Option ℕ) (p : ℕ) (len : Option ℕ) (intact : Bool) :
    Except Halt (Bool × Tiers) :=
  if p = 0 then .ok (null, a)
  else if !freeAdmit p adm then failState cfg a
  else vmapRemove cfg a p len intact

/-- `pop(byte *)` and `pop(byte *, usize)`. -/
def pop (p : ℕ) (len : Option ℕ) (intact : Bool) : Except Halt (Bool × Tiers) :=
  popWith cfg a len.isNone len p len intact

/-- `pop(const micron::__chunk<byte> &)`, which does not check the length. -/
def popChunk (mem : Chunk) (intact : Bool) : Except Halt (Bool × Tiers) :=
  popWith cfg a true none mem.ptr (some mem.len) intact

def tsPopWith (adm : Option ℕ) (p : ℕ) (sized intact : Bool) : Except Halt (Bool × Tiers) :=
  if p = 0 then .ok (false, a)
  else if !freeAdmit p adm then failState cfg a
  else vmapTombstone cfg a p sized intact

/-- `ts_pop(byte *)` and `ts_pop(byte *, usize)`. -/
def tsPop (p : ℕ) (len : Option ℕ) (intact : Bool) : Except Halt (Bool × Tiers) :=
  tsPopWith cfg a len p len.isSome intact

/-- `ts_pop(const micron::__chunk<byte> &)`. -/
def tsPopChunk (mem : Chunk) (intact : Bool) : Except Halt (Bool × Tiers) :=
  tsPopWith cfg a none mem.ptr true intact

/-! ### Queries and the rest -/

def sizeOfAlloc (p : ℕ) : ℕ :=
  match dispatch a p with
  | none => 0
  | some (t, pos) =>
    match (a t).idx[pos]? with
    | none => 0
    | some e =>
      t.params.book.blockSize e.sheet.book (blockPtr cfg t p) -
        (if canaries cfg t then 64 else 32)

def isCached (p : ℕ) : Bool := (dispatch a p).any fun r => (a r.1).cache.contains p

def locateAt (p : ℕ) : Except Halt Bool :=
  match dispatch a p with
  | none => .ok false
  | some (t, pos) =>
    match (a t).idx[pos]? with
    | none => .error .undefined
    | some e => e.sheet.find t.params (blockPtr cfg t p)

def present (p : ℕ) : Except Halt Bool :=
  if p = 0 then .ok false
  else do
    let found ← locateAt cfg a p
    .ok (found && !isCached a p)

/-- A client writes the `i`-th cell of the block at `p`. -/
def store (p i : ℕ) (c : Cell) : Tiers :=
  match dispatch a p with
  | none => a
  | some (t, pos) =>
    update a t
      { a t with idx := (a t).idx.modify pos fun e =>
          { e with sheet := { e.sheet with
              book := t.params.book.store e.sheet.book (blockPtr cfg t p + 32 * i) c } } }

/-- `memcpy` into the block at `p`: its first `n` cells change, to whatever was copied. -/
def copyCells (p : ℕ) (data : ℕ → Cell) : ℕ → Tiers → Tiers
  | 0, a => a
  | n + 1, a => store cfg (copyCells p data n a) p n (data n)

/-- `resize`. The result is the chunk that the caller holds afterwards, `none` for the null
pointer. `data` are the cells copied; `preserve_sz` only bounds how many bytes that are. -/
def resize (p newSz : ℕ) (data : ℕ → Cell) (grants : List Grant) :
    Except Halt (Option Chunk × Tiers) :=
  if isCached a p then .ok (none, a)
  else
    let oldSize := sizeOfAlloc cfg a p
    if oldSize = 0 then .ok (none, a)
    else if newSz ≤ oldSize ∧ oldSize / 2 < newSz then .ok (some ⟨p, newSz⟩, a)
    else do
      let (c, a) ← push cfg a newSz grants
      match c with
      | none => .ok (none, a)
      | some c => do
        let a := copyCells cfg c.ptr data (sizeOfAlloc cfg a c.ptr / 32) a
        let (_, a) ← pop cfg a p none true
        .ok (some c, a)

/-- `freeze`. The protection of the pages is not part of the state: a run goes on where the source
faults on a later write to the sheet. -/
def freeze (p : ℕ) : Tiers :=
  match dispatch a p with
  | none => a
  | some (t, pos) => update a t ((a t).freeze pos)

def resetPage (p : ℕ) : Tiers := fun t => (a t).resetPage p

end Operations
end AbcMalloc.Arena
