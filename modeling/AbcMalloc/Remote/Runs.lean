import AbcMalloc.Remote.Delivery

/-! Every run of the producers and the owner, and the drain that ends it. -/
namespace AbcMalloc.Remote
open Function Foundation

variable {θ : Type*} [Fintype θ] {N : ℕ} {w w' : Mailbox θ} {S C : List Payload}

/-- `S` is the overflow stack and `C` what the owner took of it. -/
structure Inv (N : ℕ) (w : Mailbox θ) (S C : List Payload) : Prop where
  ring : Ring N w
  overflow : Overflow w S C
  account : Account w S C

theorem inv_init (hN : IsCapacity N) : Inv N (Mailbox.init θ) [] [] := by
  refine ⟨ring_init hN, ⟨chain_nil, ?_, ?_, rfl⟩, ⟨?_, rfl, rfl, ?_, ?_, ?_, List.nodup_nil⟩⟩
  all_goals simp [Mailbox.init, PushPc.sized, PushPc.waits, PushPc.waiting]

namespace Inv

/-! ## Producers -/

section Produce
variable [DecidableEq θ] {t : θ}

theorem goto (h : Inv N w S C) {pc : PushPc} (hold : (w.pushing t).fills = none)
    (hfills : pc.fills = none) (hwaits : pc.waits = (w.pushing t).waits)
    (hsees : ∀ {i}, pc.sees = some i → i ≤ w.tail)
    (hreserves : ∀ {b i}, pc = .reserve b i → i = w.tail → i < w.recycled + N)
    (hsized : ∀ {b}, pc.sized = some b → w.nodeSize b.ptr = b.size)
    (hlinked : ∀ {b head}, pc = .link b head → w.next b.ptr = head) : Inv N (w.goto t pc) S C :=
  ⟨h.ring.goto hold hfills hsees hreserves, h.overflow.goto hsized hlinked, h.account.goto hwaits⟩

/-- The words of a waiting block belong to its thread. -/
theorem writeNode (h : Inv N w S C) {b : Payload} {next nodeSize : ℕ → ℕ} {pc : PushPc}
    (hb : (w.pushing t).waits = some b) (hpc : pc.waits = some b)
    (hnext : ∀ {x}, x ≠ b.ptr → next x = w.next x)
    (hsize : ∀ {x}, x ≠ b.ptr → nodeSize x = w.nodeSize x)
    (hsized : ∀ {c}, pc.sized = some c → nodeSize c.ptr = c.size)
    (hlinked : ∀ {c head}, pc = .link c head → next c.ptr = head) (hsees : pc.sees = none) :
    Inv N { w.goto t pc with
      next := next
      nodeSize := nodeSize } S C := by
  have hfills : pc.fills = none := by cases pc <;> simp_all [PushPc.waits, PushPc.fills]
  have hold : (w.pushing t).fills = none := by
    cases hw : w.pushing t <;> simp_all [PushPc.waits, PushPc.fills]
  have hring : Ring N (w.goto t pc) := by
    refine h.ring.goto hold hfills (by simp [hsees]) fun {c i} he => ?_
    rw [he] at hsees
    cases hsees
  have hplaced := h.account.apart hb
  simp only [Mailbox.placed, List.map_append, List.mem_append, not_or] at hplaced
  -- first the thread leaves the stack's sight, then it writes, then it shows up again
  have hidle : Overflow (w.goto t .idle) S C :=
    h.overflow.goto (by simp [PushPc.sized]) (by simp)
  have hother : ∀ {x c}, ((w.goto t .idle).pushing x).sized = some c → c.ptr ≠ b.ptr := by
    intro x c hx he
    have hxt : x ≠ t := by
      rintro rfl
      rw [show (w.goto x .idle).pushing x = .idle from update_self ..] at hx
      cases hx
    rw [show (w.goto t .idle).pushing x = w.pushing x from update_of_ne hxt _ _] at hx
    exact hxt (h.account.once (PushPc.waits_of_sized hx) hb he)
  have hwrite := hidle.write hnext hsize hplaced.1.2 hplaced.2 hother
  have hover := hwrite.goto (t := t) hsized hlinked
  have hpush : update (update w.pushing t .idle) t pc = update w.pushing t pc := update_idem ..
  have hacc := h.account.goto (t := t) (hpc.trans hb.symm)
  refine ⟨⟨hring.length, hring.start, hring.room, hring.free, hring.filled, hring.fills,
    hring.unique,
    hring.wrotePtr, hring.wroteSize, hring.sees, hring.reserves, hring.owner⟩,
    ⟨hover.stack, fun {x c} hx => ?_, fun {x c head} hx => ?_, hover.owner⟩,
    ⟨hacc.total, hacc.balance, hacc.ordered, hacc.nonnull, hacc.once, hacc.apart, hacc.nodup⟩⟩
  · exact hover.sized (x := x) ((congrArg (fun f => (f x).sized) hpush).trans hx)
  · exact hover.linked (x := x) ((congrArg (fun f => f x) hpush).trans hx)

theorem writeCell (h : Inv N w S C) {pc : PushPc} {seq ptr size : ℕ → ℕ}
    (hold : (w.pushing t).waits = none) (hwaits : pc.waits = none)
    (hring : Ring N { w.goto t pc with
      seq := seq
      ptr := ptr
      size := size }) :
    Inv N { w.goto t pc with
      seq := seq
      ptr := ptr
      size := size } S C := by
  have hsized : pc.sized = none := by cases pc <;> simp_all [PushPc.waits, PushPc.sized]
  have hover : Overflow (w.goto t pc) S C := by
    refine h.overflow.goto (by simp [hsized]) fun {b head} he => ?_
    rw [he] at hwaits
    cases hwaits
  have hacc := h.account.goto (t := t) (hwaits.trans hold.symm)
  exact ⟨hring, ⟨hover.stack, hover.sized, hover.linked, hover.owner⟩,
    ⟨hacc.total, hacc.balance, hacc.ordered, hacc.nonnull, hacc.once, hacc.apart, hacc.nodup⟩⟩

omit [DecidableEq θ] in
theorem handed_le (h : Inv N w S C) : w.handed ≤ w.slots.length := by
  have hstart := h.ring.start
  have hlen := h.ring.length
  simp only [Mailbox.handed, Mailbox.recycled] at hstart ⊢
  split at hstart <;> split <;> omega

theorem reserve (h : Inv N w S C) {b : Payload} (hpc : w.pushing t = .reserve b w.tail) :
    Inv N { w.goto t (.writePtr b w.tail) with
      tail := w.tail + 1
      slots := w.slots ++ [b]
      reserved := b ::ₘ w.reserved } S C := by
  have hover : Overflow (w.goto t (.writePtr b w.tail)) S C :=
    h.overflow.goto (by simp [PushPc.sized]) (by simp)
  refine ⟨h.ring.reserve hpc, ⟨hover.stack, hover.sized, hover.linked, hover.owner⟩,
    h.account.place (t := t) (b := b) (by rw [hpc]; rfl)
    (show PushPc.waits (.writePtr b w.tail) = none from rfl)
      rfl rfl rfl rfl ?_ ?_⟩
  · change w.ringReleased = (w.slots ++ [b]).take w.handed
    rw [List.take_append_of_le_length h.handed_le]
    exact h.account.ordered
  · change ((w.slots ++ [b]).drop w.handed ++ S ++ C).Perm (b :: (w.slots.drop w.handed ++ S ++ C))
    rw [List.drop_append_of_le_length h.handed_le]
    simp only [List.append_assoc, List.singleton_append]
    exact List.perm_middle

theorem link (h : Inv N w S C) {b : Payload} (hpc : w.pushing t = .link b w.ovf) :
    Inv N { w.goto t .idle with
      ovf := b.ptr
      reserved := b ::ₘ w.reserved } (b :: S) C := by
  have hb : (w.pushing t).waits = some b := by rw [hpc]; rfl
  have hring : Ring N (w.goto t .idle) :=
    h.ring.goto (by rw [hpc]; rfl) rfl (by simp [PushPc.sees]) (by simp)
  have hover : Overflow (w.goto t .idle) S C := h.overflow.goto (by simp [PushPc.sized]) (by simp)
  have hchain := h.overflow.stack.cons (h.account.nonnull hb) (h.overflow.linked hpc)
    (h.overflow.sized (x := t) (by rw [hpc]; rfl))
  refine ⟨⟨hring.length, hring.start, hring.room, hring.free, hring.filled, hring.fills,
    hring.unique,
    hring.wrotePtr, hring.wroteSize, hring.sees, hring.reserves, hring.owner⟩,
    ⟨hchain, hover.sized, hover.linked, hover.owner⟩,
    h.account.place hb (show PushPc.waits .idle = none from rfl) rfl rfl rfl rfl
    h.account.ordered ?_⟩
  change (w.slots.drop w.handed ++ b :: S ++ C).Perm (b :: (w.slots.drop w.handed ++ S ++ C))
  simp only [List.append_assoc, List.cons_append]
  exact List.perm_middle

theorem produce (h : Inv N w S C) (hN : IsCapacity N) {spurious : Bool}
    (hstep : w.produce N t spurious = some w') : ∃ S', Inv N w' S' C := by
  simp only [Mailbox.produce] at hstep
  cases hpc : w.pushing t with
  | idle => simp [hpc] at hstep
  | loadTail b =>
    rw [hpc] at hstep
    obtain rfl := Option.some.inj hstep
    refine ⟨S, h.goto (by rw [hpc]; rfl) rfl (by rw [hpc]; rfl) (fun hi => ?_) (by simp)
      (by simp [PushPc.sized]) (by simp)⟩
    exact (Option.some.inj hi).ge
  | loadSeq b tail =>
    have hsees := h.ring.sees (x := t) (i := tail) (by rw [hpc]; rfl)
    rw [hpc] at hstep
    dsimp only at hstep
    split_ifs at hstep with hseq hlt <;> obtain rfl := Option.some.inj hstep
    · refine ⟨S, h.goto (by rw [hpc]; rfl) rfl (by rw [hpc]; rfl) (fun hi => ?_) (fun he hi => ?_)
        (by simp [PushPc.sized]) (by simp)⟩
      · exact (Option.some.inj hi) ▸ hsees
      · simp only [PushPc.reserve.injEq] at he
        rw [← he.2] at hi ⊢
        rw [hi] at hseq ⊢
        exact h.ring.lt_of_seq hN hseq
    · exact ⟨S, h.goto (by rw [hpc]; rfl) rfl (by rw [hpc]; rfl) (by simp [PushPc.sees]) (by simp)
        (by simp [PushPc.sized]) (by simp)⟩
    · exact ⟨S, h.goto (by rw [hpc]; rfl) rfl (by rw [hpc]; rfl) (by simp [PushPc.sees]) (by simp)
        (by simp [PushPc.sized]) (by simp)⟩
  | reserve b tail =>
    rw [hpc] at hstep
    dsimp only at hstep
    split_ifs at hstep with hcas <;> obtain rfl := Option.some.inj hstep
    · obtain ⟨-, rfl⟩ := hcas
      exact ⟨S, h.reserve hpc⟩
    · exact ⟨S, h.goto (by rw [hpc]; rfl) rfl (by rw [hpc]; rfl) (by simp [PushPc.sees]) (by simp)
        (by simp [PushPc.sized]) (by simp)⟩
  | writePtr b tail =>
    rw [hpc] at hstep
    obtain rfl := Option.some.inj hstep
    refine ⟨S, h.writeCell (by rw [hpc]; rfl) rfl ?_⟩
    exact h.ring.write hN (by rw [hpc]; rfl) rfl (fun hj => update_of_ne hj _ _) (fun _ => rfl)
      (fun _ => update_self ..) (by simp [PushPc.wroteSize])
  | writeSize b tail =>
    have hptr := h.ring.wrotePtr (x := t) (b := b) (i := tail) (by rw [hpc]; rfl)
    rw [hpc] at hstep
    obtain rfl := Option.some.inj hstep
    refine ⟨S, h.writeCell (by rw [hpc]; rfl) rfl ?_⟩
    exact h.ring.write hN (by rw [hpc]; rfl) rfl (fun _ => rfl) (fun hj => update_of_ne hj _ _)
      (fun _ => hptr) fun _ => update_self ..
  | publish b tail =>
    rw [hpc] at hstep
    obtain rfl := Option.some.inj hstep
    exact ⟨S, h.writeCell (by rw [hpc]; rfl) rfl (h.ring.publish hN hpc)⟩
  | writeNodeSize b =>
    rw [hpc] at hstep
    obtain rfl := Option.some.inj hstep
    refine ⟨S, h.writeNode (b := b) (by rw [hpc]; rfl) rfl (fun _ => rfl)
      (fun hx => update_of_ne hx _ _) (fun hc => ?_) (by simp) rfl⟩
    obtain rfl := Option.some.inj hc
    exact update_self ..
  | loadHead b =>
    have hsized := h.overflow.sized (x := t) (b := b) (by rw [hpc]; rfl)
    rw [hpc] at hstep
    obtain rfl := Option.some.inj hstep
    refine ⟨S, h.goto (by rw [hpc]; rfl) rfl (by rw [hpc]; rfl) (by simp [PushPc.sees]) (by simp)
      (fun hc => ?_) (by simp)⟩
    exact Option.some.inj hc ▸ hsized
  | writeNext b head =>
    have hsized := h.overflow.sized (x := t) (b := b) (by rw [hpc]; rfl)
    rw [hpc] at hstep
    obtain rfl := Option.some.inj hstep
    refine ⟨S, h.writeNode (b := b) (by rw [hpc]; rfl) rfl (fun hx => update_of_ne hx _ _)
      (fun _ => rfl) (fun hc => ?_) (fun he => ?_) rfl⟩
    · exact Option.some.inj hc ▸ hsized
    · simp only [PushPc.link.injEq] at he
      obtain ⟨rfl, rfl⟩ := he
      exact update_self ..
  | link b head =>
    have hsized := h.overflow.sized (x := t) (b := b) (by rw [hpc]; rfl)
    rw [hpc] at hstep
    dsimp only at hstep
    split_ifs at hstep with hcas <;> obtain rfl := Option.some.inj hstep
    · obtain ⟨-, rfl⟩ := hcas
      exact ⟨b :: S, h.link hpc⟩
    · refine ⟨S, h.goto (by rw [hpc]; rfl) rfl (by rw [hpc]; rfl) (by simp [PushPc.sees]) (by simp)
        (fun hc => ?_) (by simp)⟩
      exact Option.some.inj hc ▸ hsized

end Produce

/-! ## The owner -/

theorem ownerTo (h : Inv N w S C) {d : DrainPc}
    (hrec : ({ w with drain := d }).recycled = w.recycled)
    (hhanded : ({ w with drain := d }).handed = w.handed)
    (hring : ({ w with drain := d }).OwnerRing N) (hwalk : ({ w with drain := d }).OwnerWalk C) :
    Inv N { w with drain := d } S C := by
  refine ⟨h.ring.ownerTo hrec hring, h.overflow.ownerTo hwalk, h.account.move rfl rfl rfl rfl ?_ ?_⟩
  · rw [hhanded]
    exact h.account.ordered
  · rw [Mailbox.placed, Mailbox.placed, hhanded]

theorem release (h : Inv N w S C) {b : Payload} (hd : w.drain = .release b) :
    Inv N { w with
      released := b ::ₘ w.released
      ringReleased := w.ringReleased ++ [b]
      drain := .loadSeq } S C := by
  obtain ⟨hpos, hb⟩ : 0 < w.head ∧ w.slots[w.head - 1]? = some b := by
    simpa [Mailbox.OwnerRing, hd] using h.ring.owner
  have hC : C = [] := by simpa [Mailbox.OwnerWalk, hd] using h.overflow.owner
  have hhanded : w.handed = w.head - 1 := by simp [Mailbox.handed, hd]
  have hrec : w.recycled = w.head := by simp [Mailbox.recycled, hd]
  obtain ⟨hlt, hget⟩ := List.getElem?_eq_some_iff.1 hb
  have hring : Ring N { w with drain := .loadSeq } :=
    h.ring.ownerTo (by rw [hrec]; rfl) trivial
  refine ⟨⟨hring.length, hring.start, hring.room, hring.free, hring.filled, hring.fills,
    hring.unique,
    hring.wrotePtr, hring.wroteSize, hring.sees, hring.reserves, trivial⟩,
    ⟨h.overflow.stack, h.overflow.sized, h.overflow.linked, hC⟩,
    h.account.release rfl rfl rfl rfl ?_ ?_⟩
  · change w.ringReleased ++ [b] = w.slots.take w.head
    rw [h.account.ordered, hhanded, ← hget, List.take_concat_get' _ _ hlt, Nat.sub_add_cancel hpos]
  · change (w.placed S C).Perm (b :: (w.slots.drop w.head ++ S ++ C))
    rw [Mailbox.placed, hhanded, List.drop_eq_getElem_cons hlt, hget, Nat.sub_add_cancel hpos]
    rfl

/-- A pair from the stack is released. -/
theorem releaseNode (h : Inv N w S C) {b : Payload} {next : ℕ}
    (hd : w.drain = .releaseNode b next) :
    ∃ C', Inv N { w with
      released := b ::ₘ w.released
      drain := .walk next } S C' := by
  obtain ⟨C', rfl, hchain⟩ : ∃ C', C = b :: C' ∧ Chain w.next w.nodeSize next C' := by
    simpa [Mailbox.OwnerWalk, hd] using h.overflow.owner
  have hhanded : w.handed = w.head := by simp [Mailbox.handed, hd]
  have hrec : w.recycled = w.head := by simp [Mailbox.recycled, hd]
  have hring : Ring N { w with drain := .walk next } :=
    h.ring.ownerTo (by rw [hrec]; rfl) trivial
  refine ⟨C', ⟨hring.length, hring.start, hring.room, hring.free, hring.filled, hring.fills,
    hring.unique, hring.wrotePtr, hring.wroteSize, hring.sees, hring.reserves, trivial⟩,
    ⟨h.overflow.stack, h.overflow.sized, h.overflow.linked, hchain⟩,
    h.account.release rfl rfl rfl rfl ?_ ?_⟩
  · change w.ringReleased = w.slots.take w.head
    rw [h.account.ordered, hhanded]
  · change (w.placed S (b :: C')).Perm (b :: (w.slots.drop w.head ++ S ++ C'))
    rw [Mailbox.placed, hhanded]
    exact List.perm_middle

theorem takeAll (h : Inv N w S C) (hd : w.drain = .takeAll) :
    Inv N { w with
      ovf := 0
      drain := .walk w.ovf } [] S := by
  have hC : C = [] := by simpa [Mailbox.OwnerWalk, hd] using h.overflow.owner
  have hhanded : w.handed = w.head := by simp [Mailbox.handed, hd]
  have hrec : w.recycled = w.head := by simp [Mailbox.recycled, hd]
  have hring : Ring N { w with drain := .walk w.ovf } :=
    h.ring.ownerTo (by rw [hrec]; rfl) trivial
  refine ⟨⟨hring.length, hring.start, hring.room, hring.free, hring.filled, hring.fills,
    hring.unique,
    hring.wrotePtr, hring.wroteSize, hring.sees, hring.reserves, trivial⟩,
    ⟨chain_nil, h.overflow.sized, h.overflow.linked, h.overflow.stack⟩,
    h.account.move rfl rfl rfl rfl ?_ ?_⟩
  · change w.ringReleased = w.slots.take w.head
    rw [h.account.ordered, hhanded]
  · change (w.slots.drop w.head ++ [] ++ S).Perm (w.placed S C)
    rw [Mailbox.placed, hhanded, hC, List.append_nil, List.append_nil]

theorem own (h : Inv N w S C) (hN : IsCapacity N) (hstep : w.own N = some w') :
    ∃ S' C', Inv N w' S' C' := by
  have hring := h.ring.owner
  have hwalk := h.overflow.owner
  simp only [Mailbox.own] at hstep
  simp only [Mailbox.OwnerRing] at hring
  simp only [Mailbox.OwnerWalk] at hwalk
  cases hd : w.drain with
  | idle => simp [hd] at hstep
  | checkRing | checkOvf | loadOvf =>
    rw [hd] at hstep hwalk
    obtain rfl := Option.some.inj hstep
    refine ⟨S, C, h.ownerTo ?_ ?_ ?_ ?_⟩
    all_goals
      simp only [Mailbox.recycled, Mailbox.handed, Mailbox.OwnerRing, Mailbox.OwnerWalk, hd]
      split_ifs <;> trivial
  | loadSeq =>
    rw [hd] at hstep hwalk
    obtain rfl := Option.some.inj hstep
    refine ⟨S, C, h.ownerTo ?_ ?_ ?_ ?_⟩
    all_goals
      simp only [Mailbox.recycled, Mailbox.handed, Mailbox.OwnerRing, Mailbox.OwnerWalk, hd]
      split_ifs <;> trivial
  | readPtr =>
    rw [hd] at hstep hwalk hring
    obtain rfl := Option.some.inj hstep
    exact ⟨S, C, h.ownerTo (by simp [Mailbox.recycled, hd]) (by simp [Mailbox.handed, hd])
      ⟨hring, rfl⟩ hwalk⟩
  | readSize ptr =>
    rw [hd] at hstep hwalk hring
    obtain rfl := Option.some.inj hstep
    have hrec : w.recycled = w.head := by simp [Mailbox.recycled, hd]
    refine ⟨S, C, h.ownerTo (by simp [Mailbox.recycled, hd]) (by simp [Mailbox.handed, hd])
      ⟨hring.1, ?_⟩ hwalk⟩
    rw [hring.2]
    exact h.ring.published hN hrec hring.1
  | recycle b =>
    rw [hd] at hstep hwalk
    obtain rfl := Option.some.inj hstep
    have hhanded : w.handed = w.head := by simp [Mailbox.handed, hd]
    refine ⟨S, C, h.ring.recycle hN hd,
      ⟨h.overflow.stack, h.overflow.sized, h.overflow.linked, hwalk⟩,
      h.account.move rfl rfl rfl rfl (hhanded ▸ h.account.ordered) ?_⟩
    rw [Mailbox.placed, Mailbox.placed, hhanded]
    rfl
  | bump b =>
    rw [hd] at hstep hwalk
    obtain rfl := Option.some.inj hstep
    have hhanded : w.handed = w.head := by simp [Mailbox.handed, hd]
    refine ⟨S, C, h.ring.bump hd, ⟨h.overflow.stack, h.overflow.sized, h.overflow.linked, hwalk⟩,
      h.account.move rfl rfl rfl rfl (hhanded ▸ h.account.ordered) ?_⟩
    rw [Mailbox.placed, Mailbox.placed, hhanded]
    rfl
  | release b =>
    rw [hd] at hstep
    obtain rfl := Option.some.inj hstep
    exact ⟨S, C, h.release hd⟩
  | takeAll =>
    rw [hd] at hstep
    obtain rfl := Option.some.inj hstep
    exact ⟨[], S, h.takeAll hd⟩
  | walk node =>
    rw [hd] at hstep hwalk
    obtain rfl := Option.some.inj hstep
    by_cases hnode : node = 0
    · subst hnode
      refine ⟨S, C, h.ownerTo ?_ ?_ trivial hwalk.eq_nil⟩
      · simp [Mailbox.recycled, hd]
      · simp [Mailbox.handed, hd]
    · rw [if_pos hnode]
      exact ⟨S, C, h.ownerTo (by simp [Mailbox.recycled, hd]) (by simp [Mailbox.handed, hd]) trivial
        (hwalk.exists_cons hnode)⟩
  | readNodeSize node next =>
    rw [hd] at hstep hwalk
    obtain rfl := Option.some.inj hstep
    obtain ⟨b, C', rfl, rfl, hsize, hchain⟩ := hwalk
    rw [hsize]
    exact ⟨S, b :: C',
      h.ownerTo (by simp [Mailbox.recycled, hd]) (by simp [Mailbox.handed, hd]) trivial
      ⟨C', rfl, hchain⟩⟩
  | releaseNode b next =>
    rw [hd] at hstep
    obtain rfl := Option.some.inj hstep
    obtain ⟨C', hinv⟩ := h.releaseNode hd
    exact ⟨S, C', hinv⟩

/-! ## Runs -/

theorem step [DecidableEq θ] (h : Inv N w S C) (hN : IsCapacity N) {e : Event θ}
    (hlegal : w.legal e) (hstep : w.step N e = some w') : ∃ S' C', Inv N w' S' C' := by
  cases e with
  | push t b =>
    obtain ⟨hidle, hb, hfresh⟩ := hlegal
    obtain rfl := Option.some.inj hstep
    have hring : Ring N (w.goto t (.loadTail b)) :=
      h.ring.goto (by rw [hidle]; rfl) rfl (by simp [PushPc.sees]) (by simp)
    have hover : Overflow (w.goto t (.loadTail b)) S C :=
      h.overflow.goto (by simp [PushPc.sized]) (by simp)
    exact ⟨S, C, ⟨hring.length, hring.start, hring.room, hring.free, hring.filled, hring.fills,
      hring.unique, hring.wrotePtr, hring.wroteSize, hring.sees, hring.reserves, hring.owner⟩,
      ⟨hover.stack, hover.sized, hover.linked, hover.owner⟩, h.account.push hidle hb hfresh⟩
  | produce t spurious =>
    obtain ⟨S', hinv⟩ := h.produce hN hstep
    exact ⟨S', C, hinv⟩
  | maybeDrain | drain =>
    have hidle : w.drain = .idle := hlegal
    have hwalk : C = [] := by simpa [Mailbox.OwnerWalk, hidle] using h.overflow.owner
    obtain rfl := Option.some.inj hstep
    exact ⟨S, C,
      h.ownerTo (by simp [Mailbox.recycled, hidle]) (by simp [Mailbox.handed, hidle]) trivial
      hwalk⟩
  | own => exact h.own hN hstep
  | reuse ptr next size =>
    obtain ⟨hother, hplaced⟩ := h.account.not_mem (show ptr ∉ w.inFlight from hlegal)
    simp only [Mailbox.placed, List.map_append, List.mem_append, not_or] at hplaced
    obtain rfl := Option.some.inj hstep
    have hring := h.ring
    have hacc := h.account
    have hover : Overflow { w with
        next := update w.next ptr next
        nodeSize := update w.nodeSize ptr size } S C :=
      h.overflow.write (fun hx => update_of_ne hx _ _) (fun hx => update_of_ne hx _ _) hplaced.1.2
        hplaced.2 fun hx => hother (PushPc.waits_of_sized hx)
    exact ⟨S, C, ⟨hring.length, hring.start, hring.room, hring.free, hring.filled, hring.fills,
      hring.unique, hring.wrotePtr, hring.wroteSize, hring.sees, hring.reserves,
      hring.owner⟩, hover,
      ⟨hacc.total, hacc.balance, hacc.ordered, hacc.nonnull, hacc.once, hacc.apart, hacc.nodup⟩⟩

theorem released_le (h : Inv N w S C) : w.released ≤ w.reserved := by
  rw [h.account.balance]
  exact Multiset.le_add_right ..

theorem reserved_le (h : Inv N w S C) : w.reserved ≤ w.pushed := by
  rw [h.account.total]
  exact Multiset.le_add_left ..

theorem ringReleased_prefix (h : Inv N w S C) : w.ringReleased <+: w.slots := by
  rw [h.account.ordered]
  exact List.take_prefix ..

/-! ## The last drain -/

/-- With all pushes complete, a cell that is not published is the one at the tail. -/
theorem tail_eq_head (h : Inv N w S C) (hquiet : ∀ x, w.pushing x = .idle)
    (hrec : w.recycled = w.head) (hseq : w.seq (slot N w.head) ≠ w.head + 1) : w.tail = w.head := by
  by_contra hne
  have hstart := h.ring.start
  obtain ⟨b, hb⟩ := h.ring.exists_slot (show w.head < w.tail by omega)
  exact hseq (h.ring.filled hrec.le hb fun x c hx => by simp [hquiet, PushPc.fills] at hx).1

end Inv

def Mailbox.Emptied (w : Mailbox θ) : Prop :=
  match w.drain with
  | .checkRing | .checkOvf => False
  | .loadOvf | .takeAll => w.tail = w.head
  | .walk _ | .readNodeSize _ _ | .releaseNode _ _ | .idle => w.tail = w.head ∧ w.ovf = 0
  | _ => True

def DrainPc.rank : DrainPc → ℕ
  | .checkRing => 10
  | .checkOvf => 9
  | .loadSeq => 8
  | .readPtr => 7
  | .readSize _ => 6
  | .recycle _ => 5
  | .bump _ => 4
  | .release _ => 3
  | .loadOvf => 7
  | .takeAll => 6
  | .walk _ => 5
  | .readNodeSize _ _ => 4
  | .releaseNode _ _ => 3
  | .idle => 0

def Mailbox.work (w : Mailbox θ) : ℕ := 8 * (w.pushed.card - w.released.card) + w.drain.rank

namespace Inv

/-- Each step of a drain leaves less to do. -/
theorem own_work (h : Inv N w S C) (hN : IsCapacity N) (hquiet : ∀ x, w.pushing x = .idle)
    (hemptied : w.Emptied) (hd : w.drain ≠ .idle) :
    ∃ w', w.own N = some w' ∧ w'.pushing = w.pushing ∧ w'.pushed = w.pushed ∧ w'.Emptied ∧
      w'.work < w.work := by
  have hafter : ∀ {w'}, w.own N = some w' → w'.released.card ≤ w'.pushed.card := by
    intro w' hstep
    obtain ⟨S', C', hinv⟩ := h.own hN hstep
    exact Multiset.card_le_card (hinv.released_le.trans hinv.reserved_le)
  simp only [Mailbox.Emptied] at hemptied
  simp only [Mailbox.own] at hafter ⊢
  cases hpc : w.drain with
  | idle => exact absurd hpc hd
  | checkRing | checkOvf =>
    rw [hpc] at hemptied
    exact hemptied.elim
  | loadSeq =>
    refine ⟨_, rfl, rfl, rfl, ?_, ?_⟩
    · simp only [Mailbox.Emptied]
      split_ifs with hseq
      · trivial
      · exact h.tail_eq_head hquiet (by simp [Mailbox.recycled, hpc]) hseq
    · simp only [Mailbox.work, hpc]
      split_ifs <;> simp [DrainPc.rank]
  | readPtr | readSize p | recycle b | bump b =>
    exact ⟨_, rfl, rfl, rfl, trivial, by simp [Mailbox.work, hpc, DrainPc.rank]⟩
  | release b =>
    rw [hpc] at hafter
    refine ⟨_, rfl, rfl, rfl, trivial, ?_⟩
    have := hafter rfl
    simp only [Mailbox.work, hpc, DrainPc.rank, Multiset.card_cons] at this ⊢
    omega
  | loadOvf =>
    rw [hpc] at hemptied
    refine ⟨_, rfl, rfl, rfl, ?_, ?_⟩
    · simp only [Mailbox.Emptied]
      split_ifs with hovf
      · exact hemptied
      · exact ⟨hemptied, not_not.1 hovf⟩
    · simp only [Mailbox.work, hpc]
      split_ifs <;> simp [DrainPc.rank]
  | takeAll =>
    rw [hpc] at hemptied
    exact ⟨_, rfl, rfl, rfl, ⟨hemptied, rfl⟩, by simp [Mailbox.work, hpc, DrainPc.rank]⟩
  | walk node =>
    rw [hpc] at hemptied
    refine ⟨_, rfl, rfl, rfl, ?_, ?_⟩
    · simp only [Mailbox.Emptied]
      split_ifs
      · exact hemptied
      · exact hemptied
    · simp only [Mailbox.work, hpc]
      split_ifs <;> simp [DrainPc.rank]
  | readNodeSize node next =>
    rw [hpc] at hemptied
    exact ⟨_, rfl, rfl, rfl, hemptied, by simp [Mailbox.work, hpc, DrainPc.rank]⟩
  | releaseNode b next =>
    rw [hpc] at hemptied hafter
    refine ⟨_, rfl, rfl, rfl, hemptied, ?_⟩
    have := hafter rfl
    simp only [Mailbox.work, hpc, DrainPc.rank, Multiset.card_cons] at this ⊢
    omega

/-- When the drain ends nothing is left. -/
theorem released_eq (h : Inv N w S C) (hquiet : ∀ x, w.pushing x = .idle) (hemptied : w.Emptied)
    (hd : w.drain = .idle) : w.released = w.pushed := by
  obtain ⟨htail, hovf⟩ : w.tail = w.head ∧ w.ovf = 0 := by
    simpa [Mailbox.Emptied, hd] using hemptied
  have hS : S = [] := (hovf ▸ h.overflow.stack : Chain w.next w.nodeSize 0 S).eq_nil
  have hC : C = [] := by simpa [Mailbox.OwnerWalk, hd] using h.overflow.owner
  have hplaced : w.placed S C = [] := by
    simp [Mailbox.placed, Mailbox.handed, hd, hS, hC, ← htail, ← h.ring.length]
  have hwaiting : ∑ x, (w.pushing x).waiting = 0 :=
    Finset.sum_eq_zero fun x _ => by rw [hquiet x]; rfl
  rw [h.account.total, h.account.balance, hplaced, hwaiting]
  simp

variable [DecidableEq θ]

theorem exists_rest (hN : IsCapacity N) (n : ℕ) : ∀ {w : Mailbox θ} {S C : List Payload},
    Inv N w S C → (∀ x, w.pushing x = .idle) → w.Emptied → w.work ≤ n →
      ∃ m w', Run Mailbox.legal (Mailbox.step N) w (List.replicate m .own) w' ∧ w'.drain = .idle ∧
        w'.released = w.pushed := by
  induction n with
  | zero =>
    intro w S C h hquiet hemptied hwork
    by_cases hd : w.drain = .idle
    · exact ⟨0, w, .nil w, hd, h.released_eq hquiet hemptied hd⟩
    · obtain ⟨w', -, -, -, -, hlt⟩ := h.own_work hN hquiet hemptied hd
      omega
  | succ n ih =>
    intro w S C h hquiet hemptied hwork
    by_cases hd : w.drain = .idle
    · exact ⟨0, w, .nil w, hd, h.released_eq hquiet hemptied hd⟩
    · obtain ⟨w', hown, hpushing, hpushed, hemptied', hlt⟩ := h.own_work hN hquiet hemptied hd
      obtain ⟨S', C', hinv⟩ := h.own hN hown
      obtain ⟨m, w'', hrun, hidle, hreleased⟩ :=
        ih hinv (hpushing ▸ hquiet) hemptied' (by omega)
      exact ⟨m + 1, w'', .cons trivial hown hrun, hidle, hpushed ▸ hreleased⟩

theorem exists_drain (h : Inv N w S C) (hN : IsCapacity N) (hquiet : ∀ x, w.pushing x = .idle)
    (hd : w.drain = .idle) :
    ∃ m w', Run Mailbox.legal (Mailbox.step N) w (.drain :: List.replicate m .own) w' ∧
      w'.drain = .idle ∧ w'.released = w.pushed := by
  have hstep : w.step N .drain = some { w with drain := .loadSeq } := rfl
  obtain ⟨S', C', hinv⟩ := h.step hN (show w.legal .drain from hd) hstep
  obtain ⟨m, w', hrun, hidle, hreleased⟩ := exists_rest hN _ hinv hquiet trivial le_rfl
  exact ⟨m, w', .cons hd hstep hrun, hidle, hreleased⟩

end Inv

/-- In every interleaving of any number of producers with the owner, what was released had a
place and what has a place was pushed, each pair as often; pairs leave the ring in the order of
their reservations; and once all pushes are complete, a drain releases all that is left. -/
theorem remote_frees_once [DecidableEq θ] (k : ℕ) {events : List (Event θ)} {w : Mailbox θ}
    (hrun : Run Mailbox.legal (Mailbox.step (2 ^ (k + 1))) (.init θ) events w) :
    w.released ≤ w.reserved ∧ w.reserved ≤ w.pushed ∧ w.ringReleased <+: w.slots ∧
    ((∀ x, w.pushing x = .idle) → w.drain = .idle → ∃ m w',
      Run Mailbox.legal (Mailbox.step (2 ^ (k + 1))) w (.drain :: List.replicate m .own) w' ∧
        w'.drain = .idle ∧ w'.released = w.pushed) := by
  have hN : IsCapacity (2 ^ (k + 1)) := ⟨k, rfl⟩
  obtain ⟨S, C, h⟩ : ∃ S C, Inv (2 ^ (k + 1)) w S C :=
    hrun.invariant (fun w => ∃ S C, Inv (2 ^ (k + 1)) w S C)
      (fun w e w' ⟨_, _, h⟩ hlegal hstep => h.step hN hlegal hstep) ⟨[], [], inv_init hN⟩
  exact ⟨h.released_le, h.reserved_le, h.ringReleased_prefix, h.exists_drain hN⟩

/-- Three blocks and a ring of two cells: the third goes to the stack. -/
theorem remote_frees_once_overflow : ∃ w : Mailbox (Fin 2),
    Run Mailbox.legal (Mailbox.step 2) (.init (Fin 2))
      ([.push 0 ⟨16, 1⟩, .push 1 ⟨32, 2⟩] ++ List.replicate 6 (.produce 1 false) ++
        List.replicate 3 (.produce 0 true) ++ List.replicate 6 (.produce 0 false) ++
        [.push 1 ⟨48, 3⟩] ++ List.replicate 6 (.produce 1 false)) w ∧
    w.ovf = 48 ∧ w.slots = [⟨32, 2⟩, ⟨16, 1⟩] ∧
    ∃ m w', Run Mailbox.legal (Mailbox.step 2) w (.drain :: List.replicate m .own) w' ∧
      w'.drain = .idle ∧ w'.released = w.pushed := by
  have hexec := exists_run_of_exec Mailbox.legal (Mailbox.step 2) (s := .init (Fin 2))
    (l := [.push 0 ⟨16, 1⟩, .push 1 ⟨32, 2⟩] ++ List.replicate 6 (.produce 1 false) ++
        List.replicate 3 (.produce 0 true) ++ List.replicate 6 (.produce 0 false) ++
        [.push 1 ⟨48, 3⟩] ++ List.replicate 6 (.produce 1 false))
    (P := fun w => w.ovf = 48 && w.slots = [⟨32, 2⟩, ⟨16, 1⟩] &&
      (w.pushing 0 = .idle ∧ w.pushing 1 = .idle) && w.drain = .idle) (by decide +kernel)
  obtain ⟨w, hrun, hw⟩ := hexec
  simp only [Bool.and_eq_true, decide_eq_true_eq] at hw
  obtain ⟨⟨⟨hovf, hslots⟩, h₀, h₁⟩, hd⟩ := hw
  refine ⟨w, hrun, hovf, hslots, (remote_frees_once 0 hrun).2.2.2 (fun x => ?_) hd⟩
  fin_cases x
  · exact h₀
  · exact h₁

end AbcMalloc.Remote
