import AbcMalloc.Foundation.Run
import Mathlib.Algebra.BigOperators.Group.Finset.Basic
import Mathlib.Data.Fintype.Basic
import Mathlib.Data.Multiset.AddSub
import Mathlib.Tactic

/-! Frees from other threads (`mpsc_free.hpp`, `arena.hpp`): any number of threads in
`__remote_push` and the owner in `__remote_drain`, one load, store or compare-exchange at a time.
The counters are natural numbers, so they do not wrap. -/
namespace AbcMalloc.Remote
open Function Foundation

/-- `__mpsc_free_payload`. -/
structure Payload where
  ptr : ℕ
  size : ℕ
  deriving DecidableEq, Repr

/-- The next step of a thread in `__remote_push`, with the local variables that it still needs. -/
inductive PushPc
  | idle
  | loadTail (b : Payload)
  | loadSeq (b : Payload) (tail : ℕ)
  | reserve (b : Payload) (tail : ℕ)
  | writePtr (b : Payload) (tail : ℕ)
  | writeSize (b : Payload) (tail : ℕ)
  | publish (b : Payload) (tail : ℕ)
  /-- The ring is full: the block becomes a node of `__remote_ovf`. -/
  | writeNodeSize (b : Payload)
  | loadHead (b : Payload)
  | writeNext (b : Payload) (head : ℕ)
  | link (b : Payload) (head : ℕ)
  deriving DecidableEq

/-- The next step of the owner in `__maybe_drain` and `__remote_drain`. -/
inductive DrainPc
  | idle
  | checkRing
  | checkOvf
  | loadSeq
  | readPtr
  | readSize (ptr : ℕ)
  | recycle (b : Payload)
  | bump (b : Payload)
  | release (b : Payload)
  | loadOvf
  | takeAll
  | walk (node : ℕ)
  | readNodeSize (node next : ℕ)
  | releaseNode (b : Payload) (next : ℕ)
  deriving DecidableEq

structure Mailbox (θ : Type*) where
  /-- `__tail` and `__head` of the ring. -/
  tail : ℕ
  head : ℕ
  /-- The cells. -/
  seq : ℕ → ℕ
  ptr : ℕ → ℕ
  size : ℕ → ℕ
  /-- `__remote_ovf`; null is zero. -/
  ovf : ℕ
  /-- The first words of a block, read as a `__remote_ovf_node`. -/
  next : ℕ → ℕ
  nodeSize : ℕ → ℕ
  pushing : θ → PushPc
  drain : DrainPc
  /-- Pairs whose push was called, whose place was taken by a compare-exchange, and that were
  handed to `__remote_release`. -/
  pushed : Multiset Payload
  reserved : Multiset Payload
  released : Multiset Payload
  /-- Reservations of cells in their order, and releases of pairs from cells in theirs. -/
  slots : List Payload
  ringReleased : List Payload

/-- `tail & __mask`. -/
def slot (N tail : ℕ) : ℕ := tail &&& (N - 1)

namespace Mailbox
variable {θ : Type*}

def init (θ : Type*) : Mailbox θ where
  tail := 0
  head := 0
  seq := id
  ptr := fun _ => 0
  size := fun _ => 0
  ovf := 0
  next := fun _ => 0
  nodeSize := fun _ => 0
  pushing := fun _ => .idle
  drain := .idle
  pushed := 0
  reserved := 0
  released := 0
  slots := []
  ringReleased := []

/-- The blocks that were pushed and are not released yet. -/
def inFlight (w : Mailbox θ) : Multiset ℕ := (w.pushed - w.released).map Payload.ptr

def own (N : ℕ) (w : Mailbox θ) : Option (Mailbox θ) :=
  match w.drain with
  | .idle => none
  | .checkRing => some { w with drain := if w.tail ≠ w.head then .loadSeq else .checkOvf }
  | .checkOvf => some { w with drain := if w.ovf ≠ 0 then .loadSeq else .idle }
  | .loadSeq =>
    some { w with drain := if w.seq (slot N w.head) = w.head + 1 then .readPtr else .loadOvf }
  | .readPtr => some { w with drain := .readSize (w.ptr (slot N w.head)) }
  | .readSize ptr => some { w with drain := .recycle ⟨ptr, w.size (slot N w.head)⟩ }
  | .recycle b => some { w with
      seq := update w.seq (slot N w.head) (w.head + N)
      drain := .bump b }
  | .bump b => some { w with
      head := w.head + 1
      drain := .release b }
  | .release b => some { w with
      released := b ::ₘ w.released
      ringReleased := w.ringReleased ++ [b]
      drain := .loadSeq }
  | .loadOvf => some { w with drain := if w.ovf ≠ 0 then .takeAll else .idle }
  | .takeAll => some { w with
      ovf := 0
      drain := .walk w.ovf }
  | .walk node =>
    some { w with drain := if node ≠ 0 then .readNodeSize node (w.next node) else .idle }
  | .readNodeSize node next =>
    some { w with drain := .releaseNode ⟨node, w.nodeSize node⟩ next }
  | .releaseNode b next => some { w with
      released := b ::ₘ w.released
      drain := .walk next }

variable [DecidableEq θ]

def goto (w : Mailbox θ) (t : θ) (pc : PushPc) : Mailbox θ :=
  { w with pushing := update w.pushing t pc }

/-- The next step of the producer `t`; `spurious` makes a weak compare-exchange fail. -/
def produce (N : ℕ) (w : Mailbox θ) (t : θ) (spurious : Bool) : Option (Mailbox θ) :=
  match w.pushing t with
  | .idle => none
  | .loadTail b => some (w.goto t (.loadSeq b w.tail))
  | .loadSeq b tail =>
    let seq := w.seq (slot N tail)
    if seq = tail then some (w.goto t (.reserve b tail))
    else if seq < tail then some (w.goto t (.writeNodeSize b))
    else some (w.goto t (.loadTail b))
  | .reserve b tail =>
    if spurious = false ∧ w.tail = tail then
      some { w.goto t (.writePtr b tail) with
        tail := tail + 1
        slots := w.slots ++ [b]
        reserved := b ::ₘ w.reserved }
    else some (w.goto t (.loadTail b))
  | .writePtr b tail =>
    some { w.goto t (.writeSize b tail) with ptr := update w.ptr (slot N tail) b.ptr }
  | .writeSize b tail =>
    some { w.goto t (.publish b tail) with size := update w.size (slot N tail) b.size }
  | .publish _ tail =>
    some { w.goto t .idle with seq := update w.seq (slot N tail) (tail + 1) }
  | .writeNodeSize b =>
    some { w.goto t (.loadHead b) with nodeSize := update w.nodeSize b.ptr b.size }
  | .loadHead b => some (w.goto t (.writeNext b w.ovf))
  | .writeNext b head =>
    some { w.goto t (.link b head) with next := update w.next b.ptr head }
  | .link b head =>
    if spurious = false ∧ w.ovf = head then
      some { w.goto t .idle with
        ovf := b.ptr
        reserved := b ::ₘ w.reserved }
    else some (w.goto t (.writeNext b w.ovf))

end Mailbox

inductive Event (θ : Type*)
  | push (t : θ) (b : Payload)
  | produce (t : θ) (spurious : Bool)
  /-- Calls of `__maybe_drain` and `__remote_drain`. -/
  | maybeDrain
  | drain
  | own
  /-- Someone writes to a block that is not in flight. -/
  | reuse (ptr next size : ℕ)

namespace Mailbox
variable {θ : Type*} [DecidableEq θ]

def step (N : ℕ) (w : Mailbox θ) : Event θ → Option (Mailbox θ)
  | .push t b => some { w.goto t (.loadTail b) with pushed := b ::ₘ w.pushed }
  | .produce t spurious => w.produce N t spurious
  | .maybeDrain => some { w with drain := .checkRing }
  | .drain => some { w with drain := .loadSeq }
  | .own => w.own N
  | .reuse ptr next size => some { w with
      next := update w.next ptr next
      nodeSize := update w.nodeSize ptr size }

/-- A thread pushes a block that is not in flight already. -/
def legal (w : Mailbox θ) : Event θ → Prop
  | .push t b => w.pushing t = .idle ∧ b.ptr ≠ 0 ∧ b.ptr ∉ w.inFlight
  | .maybeDrain | .drain => w.drain = .idle
  | .reuse ptr _ _ => ptr ∉ w.inFlight
  | .produce _ _ | .own => True

instance (w : Mailbox θ) (e : Event θ) : Decidable (w.legal e) := by
  cases e <;> unfold legal <;> infer_instance

end Mailbox

end AbcMalloc.Remote
