import AbcMalloc.Arena.IndexRuns
import AbcMalloc.Arena.Metadata
import AbcMalloc.Foundation.Links

/-! A tier with its nodes. The nodes of a tier form a linked list from `head` to `tail` beside the
index; the node and the sheet that an expansion adds share one block of metadata. A node or a
sheet whose block went back is read or written by nobody: an access to it is undefined. -/
namespace AbcMalloc.Arena
open Function Foundation

/-- `node`: `nd` points to the sheet, 0 is the null pointer. -/
structure Node where
  nd : ℕ
  prev : ℕ
  nxt : ℕ
  deriving DecidableEq, Repr

/-- `sizeof(node<T>)`: three pointers, aligned to 16 bytes. -/
def sizeofNode : ℕ := 32

/-- A tier, the nodes and sheets in memory, the metadata they live in, and the tables `κ` that
know the chunk of every sheet. -/
structure Listed (σ κ : Type) where
  /-- `&tier.head` -/
  head : ℕ
  tail : ℕ
  index : RangeIndex ℕ
  deallocCount : ℕ
  node : ℕ → Option Node
  sheet : ℕ → Option (Sheet σ)
  metadata : Metadata
  kernel : κ
  /-- The blocks given to `__unmark_from_arena` so far. -/
  unmarked : List ℕ

/-- What the source fixes for the sheets of a tier: its parameters, `sizeof(sheet_t)`, and what
`__sheet_unregister` and `__release_kernel_chunk` do to the tables. -/
structure SheetType (σ κ : Type) where
  params : Params σ
  sizeofSheet : ℕ
  sizeofSheet_pos : 0 < sizeofSheet
  release : κ → Chunk → κ

namespace Listed
variable {σ κ : Type} (S : SheetType σ κ)

def readNode (b : Listed σ κ) (p : ℕ) : Except Halt Node :=
  match b.node p with
  | none => .error .undefined
  | some n => .ok n

def writeNode (b : Listed σ κ) (p : ℕ) (f : Node → Node) : Except Halt (Listed σ κ) :=
  match b.node p with
  | none => .error .undefined
  | some n => .ok { b with node := update b.node p (some (f n)) }

def readSheet (b : Listed σ κ) (p : ℕ) : Except Halt (Sheet σ) :=
  match b.sheet p with
  | none => .error .undefined
  | some s => .ok s

/-! ## The list -/

/-- `if ( tail ) tail->nxt = nd` -/
def linkTail (b : Listed σ κ) (nd : ℕ) : Except Halt (Listed σ κ) :=
  if b.tail ≠ 0 then b.writeNode b.tail fun m => { m with nxt := nd } else .ok b

/-- `link_at_tail` -/
def linkAtTail (b : Listed σ κ) (nd : ℕ) : Except Halt (Listed σ κ) := do
  let b ← b.writeNode nd fun m => { m with prev := b.tail, nxt := 0 }
  let b ← b.linkTail nd
  .ok { b with tail := nd }

/-- `if ( nd->prev ) nd->prev->nxt = nd->nxt` -/
def unlinkPrev (b : Listed σ κ) (nd : ℕ) : Except Halt (Listed σ κ) := do
  let n ← b.readNode nd
  if n.prev ≠ 0 then b.writeNode n.prev fun m => { m with nxt := n.nxt } else .ok b

/-- `if ( nd->nxt ) nd->nxt->prev = nd->prev` -/
def unlinkNext (b : Listed σ κ) (nd : ℕ) : Except Halt (Listed σ κ) := do
  let n ← b.readNode nd
  if n.nxt ≠ 0 then b.writeNode n.nxt fun m => { m with prev := n.prev } else .ok b

/-- `if ( nd == tail ) tail = nd->prev` -/
def unlinkTail (b : Listed σ κ) (nd : ℕ) : Except Halt (Listed σ κ) :=
  if nd = b.tail then do
    let n ← b.readNode nd
    .ok { b with tail := n.prev }
  else .ok b

/-- `unlink_node` -/
def unlinkNode (b : Listed σ κ) (nd : ℕ) : Except Halt (Listed σ κ) := do
  let b ← b.unlinkPrev nd
  let b ← b.unlinkNext nd
  b.unlinkTail nd

/-! ## Sheets -/

/-- `reset` and `release`: the chunk goes back once. -/
def resetSheet (b : Listed σ κ) (p : ℕ) : Except Halt (Listed σ κ) := do
  let sh ← b.readSheet p
  if sh.empty then .ok b
  else
    .ok { b with
      kernel := S.release b.kernel sh.mem
      sheet := update b.sheet p (some { sh with mem := .null }) }

/-- `__unmark_from_arena` of a block of `sz` bytes; what lies in the block is gone. -/
def unmarkFromArena (b : Listed σ κ) (addr sz : ℕ) : Except Halt (Listed σ κ) := do
  let metadata ← b.metadata.unmarkFromArena addr
  .ok { b with
    metadata := metadata
    node := fun p => if addr ≤ p ∧ p < addr + sz then none else b.node p
    sheet := fun p => if addr ≤ p ∧ p < addr + sz then none else b.sheet p
    unmarked := b.unmarked ++ [addr] }

/-! ## The sweep -/

/-- One round of `__sweep_tier_tombstones`. -/
def sweepAt (b : Listed σ κ) (i : ℕ) : Except Halt (Listed σ κ) := do
  let nd := (b.index.idx i).nd
  if nd = 0 then .ok b
  else
    let n ← b.readNode nd
    if n.nd = 0 ∨ nd = b.head then .ok b
    else
      let sh ← b.readSheet n.nd
      if sh.used S.params ≠ 0 then .ok b
      else
        let ts := S.params.book.tombstoned sh.book
        let ft := S.params.total sh.book
        if ft / 2 < ts then do
          let b ← b.resetSheet S n.nd
          let b ← b.unlinkNode nd
          let b := { b with index := b.index.unregister S.params.maxSheets i }
          b.unmarkFromArena nd (sizeofNode + S.sizeofSheet)
        else .ok b

/-- The rounds from position `i - 1` down to 0. -/
def sweepBelow : ℕ → Listed σ κ → Except Halt (Listed σ κ)
  | 0, b => .ok b
  | i + 1, b => do
    let b ← b.sweepAt S i
    sweepBelow i b

/-- `__sweep_tier_tombstones`. The number of sheets is far below 2^31. -/
def sweepTierTombstones (b : Listed σ κ) : Except Halt (Listed σ κ) :=
  sweepBelow S b.index.count { b with deallocCount := 0 }

end Listed
end AbcMalloc.Arena
