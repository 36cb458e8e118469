import AbcMalloc.External.Process
import AbcMalloc.Threads.Blocks

/-! The threads of a process (`tapi.hpp`). An arena is entered by the thread that owns it and by no
other one, so that its calls are single steps. A free of a block of another arena is pushed into the
mailbox of that arena, one load, store or compare-exchange at a time, and the owner releases the
block while it drains the mailbox. -/
namespace AbcMalloc.Threads
open Function Foundation Va
open Arena (Tiers Config World)
open Remote (Mailbox Payload PushPc DrainPc)
open External (Process)

variable {θ α : Type*}

/-- The arenas of a process and their mailboxes. The nodes of a mailbox are in the memory of its
arena: its fields `next` and `nodeSize` are not used. -/
structure System (θ α : Type*) where
  process : Process α
  mail : α → Mailbox θ

/-- The mailbox of an arena, with its nodes as the arena holds them. -/
def withNodes (m : Mailbox θ) (a : Tiers) : Mailbox θ := { m with
  next := Arena.nodeNext a
  nodeSize := Arena.nodeSize a }

/-- The pair that the owner hands to `__remote_release` in its next step. -/
def releases : DrainPc → Option Payload
  | .release b => some b
  | .releaseNode b _ => some b
  | _ => none

inductive Event (θ α : Type*)
  /-- Everything but a free. -/
  | other (e : External.Event α)
  /-- `__route_dealloc` and `__route_retire` of a thread `t` with the arena `me`. -/
  | dealloc (t : θ) (me : α) (p sz : ℕ)
  | retire (t : θ) (me : α) (p : ℕ)
  /-- The next step of `t` in `__remote_push` to the mailbox of `x`; `spurious` makes a weak
  compare-exchange fail. -/
  | produce (x : α) (t : θ) (spurious : Bool)
  /-- The owner of `x` calls `__maybe_drain` or `__remote_drain`, and its next step there. -/
  | maybeDrain (x : α)
  | drain (x : α)
  | own (x : α)

namespace System
variable [DecidableEq α]

def init (θ α : Type*) [DecidableEq α] : System θ α := ⟨.init α, fun _ => .init θ⟩

def world (w : System θ α) (x : α) : World := w.process.arenas x

def box (w : System θ α) (x : α) : Mailbox θ := withNodes (w.mail x) (w.world x).arena

section Steps
variable [DecidableEq θ] (c : VaConfig) (cfg : Config) (pageSize N : ℕ) (w : System θ α)

/-- The owner frees, or another thread pushes the pair `⟨p, sz⟩`. -/
def route (t : θ) (me : α) (p sz : ℕ) (op : Arena.Op) : Option (System θ α) :=
  match w.process.owners.ownerOf c p with
  | none => (w.process.step c cfg pageSize (.call me op [])).map fun s => { w with process := s }
  | some x =>
    if x = me then
      (w.process.step c cfg pageSize (.call me op [])).map fun s => { w with process := s }
    else
      ((w.box x).step N (.push t ⟨p, sz⟩)).map fun m => { w with mail := update w.mail x m }

/-- A thread that stores to its node stores to the block. -/
def produce (x : α) (t : θ) (spurious : Bool) : Option (System θ α) :=
  ((w.box x).produce N t spurious).bind fun m =>
    match Arena.nodeStore ((w.mail x).pushing t) with
    | none => some { w with mail := update w.mail x m }
    | some (p, f) =>
      (Arena.storeNode cfg (w.world x).arena p f).map fun a =>
        { process := { w.process with
            arenas := update w.process.arenas x { w.world x with arena := a } }
          mail := update w.mail x m }

def own (x : α) : Option (System θ α) :=
  ((w.box x).own N).bind fun m =>
    match releases (w.mail x).drain with
    | none => some { w with mail := update w.mail x m }
    | some b =>
      (Arena.remoteRelease cfg (w.world x).arena b true).toOption.map fun r =>
        { process := w.process.settle c x ((w.world x).release b.ptr r) [] []
          mail := update w.mail x m }

def step : Event θ α → Option (System θ α)
  | .other e => (w.process.step c cfg pageSize e).map fun s => { w with process := s }
  | .dealloc t me p sz =>
    w.route c cfg pageSize N t me p sz (.pop p (if sz = 0 then none else some sz) true)
  | .retire t me p =>
    w.route c cfg pageSize N t me p Arena.remoteTombstoneSize (.tsPop p none true)
  | .produce x t spurious => w.produce cfg N x t spurious
  | .maybeDrain x => ((w.box x).step N .maybeDrain).map fun m =>
      { w with mail := update w.mail x m }
  | .drain x => ((w.box x).step N .drain).map fun m => { w with mail := update w.mail x m }
  | .own x => w.own c cfg N x

end Steps

/-! ## What the threads promise -/

/-- The chunk at `p` of the arena `x`, if a thread holds it. -/
def held (w : System θ α) (x : α) (p : ℕ) : Option Arena.Held :=
  if p ∈ (w.mail x).inFlight then none else (w.world x).live p

/-- A thread `t` that pushes nothing frees a chunk of which it has at least `n` bytes. Outside of
the reservation the list of sheets leads to the arena of the chunk. -/
def Frees (c : VaConfig) (w : System θ α) (t : θ) (p n : ℕ) : Prop :=
  (∀ y, (w.mail y).pushing t = .idle) ∧
    ∃ x, ∃ h ∈ w.held x p, n ≤ h.len ∧
      (w.process.owners.vaContains c p = false → w.process.owners.ownerOf c p = some x)

/-- Threads free and write chunks that they hold, mappings are fresh, and marked ranges are spotted.
Left out are `launder`, `reset_page`, requests of no bytes, and frees for which the lookup outside
of the reservation fails. -/
def Legal (c : VaConfig) (w : System θ α) : Event θ α → Prop
  | .other e => w.process.Legal c e ∧ w.process.Spotted c e ∧
      match e with
      | .call x op _ => (w.world x).Legal op ∧ op.Usual ∧ op.routed = false ∧
          ∀ p ∈ op.names, (w.held x p).isSome = true
      | _ => True
  | .dealloc t _ p sz => w.Frees c t p sz
  | .retire t _ p => w.Frees c t p 0
  | .maybeDrain x | .drain x => (w.mail x).drain = .idle
  | .produce .. | .own _ => True

section Decidable
variable [Fintype α] [DecidableEq θ] (c : VaConfig) (w : System θ α)

instance (t : θ) (p n : ℕ) : Decidable (w.Frees c t p n) := by
  unfold Frees
  infer_instance

instance (e : Event θ α) : Decidable (w.Legal c e) :=
  match e with
  | .other (.call x op grown) => inferInstanceAs (Decidable (
      w.process.Legal c (.call x op grown) ∧ w.process.Spotted c (.call x op grown) ∧
        (w.world x).Legal op ∧ op.Usual ∧ op.routed = false ∧
          ∀ p ∈ op.names, (w.held x p).isSome = true))
  | .other (.reserve base) => inferInstanceAs (Decidable (
      w.process.Legal c (.reserve base) ∧ w.process.Spotted c (.reserve base) ∧ True))
  | .other (.create x g₁ g₂ g₃ grown) => inferInstanceAs (Decidable (
      w.process.Legal c (.create x g₁ g₂ g₃ grown) ∧
        w.process.Spotted c (.create x g₁ g₂ g₃ grown) ∧ True))
  | .other (.markAt me ptr size mapped) => inferInstanceAs (Decidable (
      w.process.Legal c (.markAt me ptr size mapped) ∧
        w.process.Spotted c (.markAt me ptr size mapped) ∧ True))
  | .other (.unmarkAt ptr size) => inferInstanceAs (Decidable (
      w.process.Legal c (.unmarkAt ptr size) ∧ w.process.Spotted c (.unmarkAt ptr size) ∧ True))
  | .dealloc t _ p sz => inferInstanceAs (Decidable (w.Frees c t p sz))
  | .retire t _ p => inferInstanceAs (Decidable (w.Frees c t p 0))
  | .maybeDrain x => inferInstanceAs (Decidable ((w.mail x).drain = .idle))
  | .drain x => inferInstanceAs (Decidable ((w.mail x).drain = .idle))
  | .produce .. => inferInstanceAs (Decidable True)
  | .own _ => inferInstanceAs (Decidable True)

end Decidable

end System
end AbcMalloc.Threads
