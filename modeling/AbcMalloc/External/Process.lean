import AbcMalloc.Arena.Layout
import AbcMalloc.External.Refinement
import AbcMalloc.Owner.Sheets

/-! A process: its arenas, the owners of their sheets and the external ranges that its callers
mark (`malloc.hpp`). A sheet is registered with its owner when it is built and unregistered when
it is given back, and a call takes from the kernel the mappings that it is given. A sheet that
was built for an index without room is given back within the call. -/
namespace AbcMalloc.External
open Function Foundation Va Owner
open Arena (Tiers TierId Config Halt Grant World Apart)

variable {α : Type*} [DecidableEq α]

/-- The arenas with their clients, the sheets of their metadata tiers, the owners of all sheets
and the external ranges. -/
structure Process (α : Type*) where
  arenas : α → World
  metadata : α → List Chunk
  owners : Owners α
  external : Registry

def sheetsOf (a : Tiers) : List Chunk :=
    TierId.all.flatMap fun t => (a t).frames.map Arena.Frame.mem

def hasProvenance (a : Tiers) (p : ℕ) : Bool := p ≠ 0 && (Arena.dispatch a p).isSome

namespace Process

def init (α : Type*) : Process α where
  arenas _ := World.init fun t => Arena.Tier.fresh t.params
  metadata _ := []
  owners := .empty
  external := .empty

def sheets (w : Process α) (x : α) : List Chunk := sheetsOf (w.arenas x).arena ++ w.metadata x

section Calls
variable (c : VaConfig) (cfg : Config) (w : Process α)

/-- `__query_arena` of a thread with the arena `me`. -/
def queryArena (me : α) (p : ℕ) : α := (w.owners.ownerOf c p).getD me

def isPresent (me : α) (p : ℕ) : Except Halt Bool :=
  if externalIsPresent w.external p then .ok true
  else Arena.present cfg (w.arenas (w.queryArena c me p)).arena p

def within (me : α) (p : ℕ) : Bool :=
  if externalWithin w.external p then true
  else hasProvenance (w.arenas (w.queryArena c me p)).arena p

def querySize (me : α) (p : ℕ) : ℕ :=
  if p = 0 then 0
  else
    let external := externalQuerySize w.external p
    if external ≠ 0 then external
    else Arena.sizeOfAlloc cfg (w.arenas (w.queryArena c me p)).arena p

/-- `mark_at`; a refusal throws. -/
def markAt (pageSize : ℕ) (mapped : Bool) (me : α) (ptr size : ℕ) : Option ℕ × Process α :=
  if ptr = 0 ∨ size = 0 then (none, w)
  else if hasProvenance (w.arenas (w.queryArena c me ptr)).arena ptr then (none, w)
  else
    let (ok, external) := registerExternal pageSize mapped w.external ptr size .caller
    (if ok then some ptr else none, { w with external := external })

def unmarkAt (ptr size : ℕ) : Option ℕ × Process α :=
  if ptr = 0 ∨ size = 0 then (none, w)
  else if !externalIsPresent w.external ptr then (none, w)
  else
    let (ok, external) := unregisterExternal w.external ptr size
    (if ok then some ptr else none, { w with external := external })

/-- What a call of the arena `x` leaves, with the mappings `granted` made for sheets and `grown`
for metadata. -/
def settle (x : α) (a : World) (grown granted : List Chunk) : Process α :=
  let old := sheetsOf (w.arenas x).arena
  let new := sheetsOf a.arena
  let built := grown ++ granted
  let released := (granted ++ old).filter fun m => m ∉ new
  { w with
    arenas := update w.arenas x a
    metadata := update w.metadata x (w.metadata x ++ grown)
    owners := released.foldl (fun s m => s.sheetUnregister c m)
      (built.foldl (fun s m => s.sheetRegister c x m) w.owners) }

end Calls
end Process

inductive Event (α : Type*)
  /-- `__va_reserve_once` succeeds. -/
  | reserve (base : ℕ)
  /-- The constructor of an arena. -/
  | create (x : α) (g₁ g₂ g₃ : Grant) (grown : List Chunk)
  | call (x : α) (op : Arena.Op) (grown : List Chunk)
  | markAt (me : α) (ptr size : ℕ) (mapped : Bool)
  | unmarkAt (ptr size : ℕ)

namespace Process

def step (c : VaConfig) (cfg : Config) (pageSize : ℕ) (w : Process α) : Event α → Option (Process α)
  | .reserve base => some { w with owners := { w.owners with base := base } }
  | .create x g₁ g₂ g₃ grown =>
    (Arena.start g₁ g₂ g₃).map fun a =>
      w.settle c x (World.init a) grown [g₁.chunk, g₂.chunk, g₃.chunk]
  | .call x op grown =>
    ((w.arenas x).next cfg op).map fun a => w.settle c x a grown (op.grants.map Grant.chunk)
  | .markAt me ptr size mapped => some (w.markAt c pageSize mapped me ptr size).2
  | .unmarkAt ptr size => some (w.unmarkAt ptr size).2

/-! ## What the kernel and the callers promise -/

/-- A mapping of the kernel: carved from the reservation or outside of it, away from every sheet
and from every external range. -/
def Fresh (c : VaConfig) (w : Process α) (m : Chunk) : Prop :=
  (0 < m.ptr ∧ 4096 < m.len ∧ m.ptr + m.len < 2 ^ 64) ∧ Placed c w.owners m ∧
    (∀ x, ∀ d ∈ w.sheets x, Apart m d) ∧ ∀ r ∈ w.external.live, Apart m ⟨r.base, r.len⟩

def Mapped (c : VaConfig) (w : Process α) (l : List Chunk) : Prop :=
  (∀ m ∈ l, w.Fresh c m) ∧ l.Pairwise Apart

/-- The reservation is made once, an arena is built once, and mappings are fresh. Nothing is
asked of frees, of writes and of the ranges that callers mark. -/
def Legal (c : VaConfig) (w : Process α) : Event α → Prop
  | .reserve base => w.owners.base = 0 ∧ base ≠ 0 ∧
      ∀ x, ∀ m ∈ w.sheets x, m.ptr + m.len ≤ base ∨ base + c.reservation ≤ m.ptr
  | .create x g₁ g₂ g₃ grown =>
    w.sheets x = [] ∧ w.Mapped c (grown ++ [g₁.chunk, g₂.chunk, g₃.chunk])
  | .call _ op grown => op.ordinary = true ∧ w.Mapped c (grown ++ op.grants.map Grant.chunk)
  | .markAt .. => True
  | .unmarkAt .. => True

/-- A range that meets a sheet starts at an address in the index of a user tier of some arena,
and the list of the sheets outside of the reservation leads to that arena where the owner table
does not. -/
def Spotted (c : VaConfig) (w : Process α) : Event α → Prop
  | .markAt me ptr size _ => (∃ x, ∃ m ∈ w.sheets x, ¬Apart ⟨ptr, size⟩ m) →
      ∃ y t, ∃ f ∈ ((w.arenas y).arena t).frames, f.Covers ptr ∧
        (w.owners.vaContains c ptr = false → w.queryArena c me ptr = y)
  | _ => True

section Decidable
variable [Fintype α] (c : VaConfig) (w : Process α)

instance (m : Chunk) : Decidable (w.Fresh c m) := by
  unfold Fresh
  infer_instance

instance (l : List Chunk) : Decidable (w.Mapped c l) := by
  unfold Mapped
  infer_instance

instance (e : Event α) : Decidable (w.Legal c e) := by
  unfold Legal
  cases e <;> infer_instance

instance (e : Event α) : Decidable (w.Spotted c e) := by
  unfold Spotted Arena.Frame.Covers
  cases e <;> infer_instance

end Decidable
end Process
end AbcMalloc.External
