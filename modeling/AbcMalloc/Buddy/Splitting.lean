import AbcMalloc.Buddy.Lists

/-! Halving and joining blocks: `__take_and_split` and `__merge_and_free`. A detached block
is cut or joined without touching memory; the loops of the source interleave this with moves
of the other half into or out of a free list. -/
namespace AbcMalloc.Buddy
open Function Foundation

/-! ## Blocks in use -/

def usedEntry : Option (ℕ × ℕ × Kind) → Option (ℕ × ℕ)
  | some (n, _, .inUse f) => some (n, f)
  | _ => none

def used (A : Blocks) : BlockMap ℕ := fun a => usedEntry (A a)

theorem used_eq_some {A : Blocks} {a n f : ℕ} :
    used A a = some (n, f) ↔ ∃ o, A a = some (n, o, .inUse f) := by
  unfold used usedEntry
  split
  · rename_i n' o' f' heq
    rw [heq]
    simp
  · rename_i hne
    simp only [reduceCtorEq, false_iff, not_exists]
    exact fun o ha => hne n o f ha

theorem used_update (A : Blocks) (a : ℕ) (v : Option (ℕ × ℕ × Kind)) :
    used (update A a v) = update (used A) a (usedEntry v) := by
  funext x
  by_cases hx : x = a
  · subst hx
    simp [used]
  · simp [used, update_of_ne hx]

theorem used_update_idle {A : Blocks} {a : ℕ} {v : Option (ℕ × ℕ × Kind)}
    (h : usedEntry (A a) = none) (hv : usedEntry v = none) : used (update A a v) = used A := by
  rw [used_update, hv, update_eq_self_iff]
  exact h.symm

/-! ## Halving and joining -/

/-- A new division of the detached blocks; all other blocks stay as they are. -/
theorem Core.regroup {h : Heap} {A A' : Blocks} {s : BuddyList} (hC : Core h A)
    (hs : s = { h.ctl with blockTags := s.blockTags })
    (htiles : Tiles h.ctl.base h.ctl.limit A')
    (hsize : ∀ {a n o k}, A' a = some (n, o, k) → n = h.ctl.orderSize o ∧ o < h.ctl.maxOrder)
    (haligned : ∀ {a n o k}, A' a = some (n, o, k) → n ∣ a - h.ctl.base)
    (htags : ∀ t, t < h.ctl.tagCount →
    TagOf (A' (h.ctl.base + t * 2 ^ h.ctl.minLog)) (s.blockTags t))
    (hsame : ∀ {a n o k}, k ≠ .detached → (A' a = some (n, o, k) ↔ A a = some (n, o, k))) :
    Core ⟨s, h.mem⟩ A' := by
  obtain ⟨fl, hF⟩ := hC.lists
  obtain ⟨tc, hT⟩ := hC.caches
  rw [hs]
  refine ⟨⟨hC.geo.minLog_ge, hC.geo.base_pos, hC.geo.order_pos, hC.geo.order_le, hC.geo.span,
    hC.geo.dvd, hC.geo.top, hC.geo.tagCount⟩, htiles, hsize, haligned, htags, ⟨fl, ?_⟩, ⟨tc, ?_⟩,
    fun ha => hC.tails ((hsame (by simp)).1 ha)⟩
  · exact hF.congr rfl rfl (fun b o => exists_congr fun n => hsame (by simp))
      fun _ _ _ _ => ⟨rfl, rfl⟩
  · exact hT.congr rfl rfl (fun b o => exists_congr fun n => hsame (by simp)) fun _ _ _ _ => rfl

def halves (s : BuddyList) (A : Blocks) (b o : ℕ) : Blocks :=
  update (update A b (some (s.orderSize o, o, .detached))) (b + s.orderSize o)
    (some (s.orderSize o, o, .detached))

theorem Core.halve {h : Heap} {A : Blocks} {b n o : ℕ} (hC : Core h A)
    (hA : A b = some (n, o + 1, .detached)) : Core h (halves h.ctl A b o) := by
  have hn : n = 2 * h.ctl.orderSize o := by rw [(hC.size hA).1, orderSize_succ]
  have hpos := orderSize_pos h.ctl o
  have hgap : A (b + h.ctl.orderSize o) = none := hC.tiles.gap hA (by omega) (by omega)
  have hlow := hC.tiles.lower hA
  have hdvd := hC.aligned hA
  rw [hn] at hdvd
  have hhalf : h.ctl.orderSize o ∣ b - h.ctl.base := dvd_trans (Nat.dvd_mul_left _ _) hdvd
  have hentry : ∀ {x j l}, halves h.ctl A b o x = some (j, l) →
      (x = b + h.ctl.orderSize o ∧ j = h.ctl.orderSize o ∧ l = (o, .detached)) ∨
        (x = b ∧ j = h.ctl.orderSize o ∧ l = (o, .detached)) ∨
        (x ≠ b ∧ x ≠ b + h.ctl.orderSize o ∧ A x = some (j, l)) := by
    intro x j l hx
    unfold halves at hx
    grind [update_apply]
  refine hC.regroup rfl ?_ (fun hx => ?_) (fun hx => ?_) (fun t ht => ?_) (fun {a j o' k} hk => ?_)
  · have hsplit := hC.tiles.split hA hpos (show h.ctl.orderSize o < n by omega) (o, .detached)
      (o, .detached)
    rwa [show n - h.ctl.orderSize o = h.ctl.orderSize o by omega] at hsplit
  · have hlt := (hC.size hA).2
    rcases hentry hx with ⟨-, rfl, he⟩ | ⟨-, rfl, he⟩ | ⟨-, -, hx⟩
    · cases he
      exact ⟨rfl, by omega⟩
    · cases he
      exact ⟨rfl, by omega⟩
    · exact hC.size hx
  · rcases hentry hx with ⟨rfl, rfl, -⟩ | ⟨rfl, rfl, -⟩ | ⟨-, -, hx⟩
    · rw [Nat.sub_add_comm hlow]
      exact (Nat.dvd_add_right hhalf).2 (dvd_refl _)
    · exact hhalf
    · exact hC.aligned hx
  · unfold halves
    rw [update_apply, update_apply]
    split_ifs
    · trivial
    · trivial
    · exact hC.tags t ht
  · constructor
    · intro hx
      rcases hentry hx with ⟨-, -, he⟩ | ⟨-, -, he⟩ | ⟨-, -, hx⟩
      · cases he
        exact absurd rfl hk
      · cases he
        exact absurd rfl hk
      · exact hx
    · intro hx
      have h₁ : a ≠ b := by
        rintro rfl
        rw [hA] at hx
        simp only [Option.some.injEq, Prod.mk.injEq] at hx
        exact hk hx.2.2.symm
      have h₂ : a ≠ b + h.ctl.orderSize o := by
        rintro rfl
        simp [hgap] at hx
      rw [halves, update_of_ne h₂, update_of_ne h₁]
      exact hx

/-- Join a detached block with the detached block behind it, its buddy. -/
theorem Core.join {h : Heap} {A : Blocks} {b n o : ℕ} (hC : Core h A)
    (hA : A b = some (n, o, .detached)) (hB : A (b + n) = some (n, o, .detached))
    (hdvd : h.ctl.orderSize (o + 1) ∣ b - h.ctl.base) (ho : o + 1 < h.ctl.maxOrder) :
    Core { h with ctl := h.ctl.setTag (h.ctl.tagIndex (b + n)) 255 }
      (update (update A (b + n) none) b (some (n + n, o + 1, .detached))) := by
  have hn := (hC.size hA).1
  have hsum : n + n = h.ctl.orderSize (o + 1) := by rw [orderSize_succ, hn]; omega
  obtain ⟨hbt, hlt⟩ := hC.tagIndex_spec hB
  refine hC.regroup rfl (hC.tiles.merge hA hB _) (fun hx => ?_) (fun hx => ?_) (fun t ht => ?_)
    (fun {a j o' k} hk => ?_)
  · rcases Tiles.merge_entry hx with ⟨-, rfl, he⟩ | ⟨-, -, hx⟩
    · cases he
      exact ⟨hsum, ho⟩
    · exact hC.size hx
  · rcases Tiles.merge_entry hx with ⟨rfl, rfl, -⟩ | ⟨-, -, hx⟩
    · rw [hsum]
      exact hdvd
    · exact hC.aligned hx
  · by_cases hb : h.ctl.base + t * 2 ^ h.ctl.minLog = b
    · rw [hb, update_self]
      trivial
    rw [update_of_ne hb]
    by_cases ht' : t = h.ctl.tagIndex (b + n)
    · subst ht'
      rw [hbt, update_self]
      exact update_self _ _ _
    · have hne : h.ctl.base + t * 2 ^ h.ctl.minLog ≠ b + n := by
        intro he
        exact ht' (Nat.eq_of_mul_eq_mul_right (Nat.two_pow_pos h.ctl.minLog) (by omega))
      rw [update_of_ne hne]
      show TagOf _ (update h.ctl.blockTags _ 255 t)
      rw [update_of_ne ht']
      exact hC.tags t ht
  · constructor
    · intro hx
      rcases Tiles.merge_entry hx with ⟨-, -, he⟩ | ⟨-, -, hx⟩
      · cases he
        exact absurd rfl hk
      · exact hx
    · intro hx
      have h₁ : a ≠ b := by
        rintro rfl
        rw [hA] at hx
        simp only [Option.some.injEq, Prod.mk.injEq] at hx
        exact hk hx.2.2.symm
      have h₂ : a ≠ b + n := by
        rintro rfl
        rw [hB] at hx
        simp only [Option.some.injEq, Prod.mk.injEq] at hx
        exact hk hx.2.2.symm
      rw [update_of_ne h₁, update_of_ne h₂]
      exact hx

/-! ## Splitting down -/

/-- The block `b` of order `o` was halved down to order `t`; the right halves are free. -/
structure Splits (s : BuddyList) (A A' : Blocks) (b o t : ℕ) : Prop where
  block : A' b = some (s.orderSize t, t, .detached)
  kept : ∀ {x v}, x ≠ b → A x = some v → A' x = some v
  entry : ∀ {x v}, x ≠ b → A' x = some v → A x = some v ∨
    ∃ i, t ≤ i ∧ i < o ∧ x = b + s.orderSize i ∧ v = (s.orderSize i, i, .free)
  used : used A' = used A

theorem splitDown_spec {b t : ℕ} (o : ℕ) : ∀ {h : Heap} {A : Blocks} {n : ℕ}, Core h A →
    A b = some (n, o, .detached) → t ≤ o →
    ∃ A', Core (splitDown b t o h) A' ∧ Splits h.ctl A A' b o t ∧ Frame h (splitDown b t o h) := by
  -- Induction on the order of the block that is still to be halved.
  induction o with
  | zero =>
    intro h A n hC hA ht
    obtain rfl : t = 0 := by omega
    refine ⟨A, hC, ⟨?_, fun _ hx => hx, fun _ hx => Or.inl hx, rfl⟩, .refl h⟩
    rw [hA, (hC.size hA).1]
  | succ o ih =>
    intro h A n hC hA ht
    by_cases hlt : t < o + 1
    · have hn : n = 2 * h.ctl.orderSize o := by rw [(hC.size hA).1, orderSize_succ]
      have hpos := orderSize_pos h.ctl o
      have hgap : A (b + h.ctl.orderSize o) = none := hC.tiles.gap hA (by omega) (by omega)
      have hmid : h.ctl.orderSize (o + 1) / 2 = h.ctl.orderSize o := by
        rw [orderSize_succ]
        omega
      have hright : halves h.ctl A b o (b + h.ctl.orderSize o) =
          some (h.ctl.orderSize o, o, .detached) := update_self _ _ _
      have hC₁ := (hC.halve hA).push hright
      set h₁ :=
        pushFree h (b + h.ctl.orderSize o) o (h.ctl.tagIndex (b + h.ctl.orderSize o)) with hh₁
      have hf₁ : Frame h h₁ := pushFree_frame _ _ _ _
      have hne : b ≠ b + h.ctl.orderSize o := by omega
      obtain ⟨A', hC', hS, hf⟩ := ih hC₁ (n := h.ctl.orderSize o)
        (by rw [update_of_ne hne, halves, update_of_ne hne, update_self]) (by omega)
      have hstep : splitDown b t (o + 1) h = splitDown b t o h₁ := by
        simp only [splitDown, if_pos hlt, hmid, hh₁]
      rw [hstep]
      refine ⟨A', hC', ⟨?_, fun {x v} hx hA' => ?_, fun {x v} hx hA' => ?_, ?_⟩, hf₁.trans hf⟩
      · rw [← hf₁.shape.orderSize]
        exact hS.block
      · refine hS.kept hx ?_
        have hx' : x ≠ b + h.ctl.orderSize o := by
          rintro rfl
          simp [hgap] at hA'
        rw [update_of_ne hx', halves, update_of_ne hx', update_of_ne hx]
        exact hA'
      · rcases hS.entry hx hA' with hx' | ⟨i, h₁', h₂', hxi, hv⟩
        · by_cases hxr : x = b + h.ctl.orderSize o
          · subst hxr
            rw [update_self] at hx'
            exact Or.inr ⟨o, by omega, by omega, rfl, (Option.some.inj hx').symm⟩
          · rw [update_of_ne hxr, halves, update_of_ne hxr, update_of_ne hx] at hx'
            exact Or.inl hx'
        · rw [hf₁.shape.orderSize] at hxi hv
          exact Or.inr ⟨i, h₁', by omega, hxi, hv⟩
      · rw [hS.used, used_update_idle (by rw [hright]; rfl) rfl, halves, used_update_idle
          (by rw [update_of_ne (Ne.symm hne), hgap]; rfl) rfl,
          used_update_idle (by rw [hA]; rfl) rfl]
    · obtain rfl : t = o + 1 := by omega
      refine ⟨A, ?_, ⟨?_, fun _ hx => hx, fun _ hx => Or.inl hx, rfl⟩, ?_⟩
      · simpa [splitDown] using hC
      · rw [hA, (hC.size hA).1]
      · simpa [splitDown] using Frame.refl h

/-- Taking the head of a list removes it, then halves it. -/
theorem Core.takeAndSplit {h : Heap} {A : Blocks} {o t : ℕ} (hC : Core h A)
    (h0 : h.ctl.freeLists o ≠ 0) (ht : t ≤ o) :
    ∃ b n h' A₁ A', takeAndSplit h o t = some (b, h') ∧ A b = some (n, o, .free) ∧
      A₁ = update A b (some (n, o, .detached)) ∧ Core h' A' ∧ Splits h.ctl A₁ A' b o t ∧
      Frame h h' := by
  obtain ⟨fl, hF⟩ := hC.lists
  obtain ⟨n, hA⟩ := (hF.mem o _).1 (hF.head_mem h0)
  set b := h.ctl.freeLists o with hb
  obtain ⟨l, hl⟩ : ∃ l, fl o = b :: l := by
    have hhead := hF.head o
    cases hfl : fl o with
    | nil =>
      rw [← hb, hfl] at hhead
      exact absurd hhead h0
    | cons x xs =>
      rw [← hb, hfl] at hhead
      exact ⟨xs, by rw [hhead]; rfl⟩
  have hv : h.ctl.linkValid (h.mem.next b) = true := by
    obtain ⟨p, hseg⟩ := hF.seg o
    rw [hl] at hseg
    rw [hseg.2.1]
    refine hC.linkValid_of_mem hF (o := o) (headD_mem_or.imp id fun hm => ?_)
    rw [hl]
    exact List.mem_cons_of_mem _ hm
  obtain ⟨-, hR⟩ := hC.remove hA
  have hC₁ := hR.core hC hA
  obtain ⟨A', hC', hS, hf⟩ := splitDown_spec (t := t) o hC₁ (update_self _ _ _) ht
  refine ⟨b, n, _, _, A', ?_, hA, rfl, hC', ?_, hR.frame.trans hf⟩
  · rw [freelistRemove_head hb.symm hv]
    simp only [Buddy.takeAndSplit, ← hb, if_neg h0, hv, if_true]
  · refine ⟨?_, hS.kept, fun hx hA' => ?_, hS.used⟩
    · rw [← hR.frame.shape.orderSize]
      exact hS.block
    · refine (hS.entry hx hA').imp id fun ⟨i, h₁, h₂, h₃, h₄⟩ => ?_
      rw [hR.frame.shape.orderSize] at h₃ h₄
      exact ⟨i, h₁, h₂, h₃, h₄⟩

/-! ## Merging up -/

theorem TagOf.eq_free {v : Option (ℕ × ℕ × Kind)} {t o : ℕ} (h : TagOf v t) (ht : t = tagFree o)
    (ho : o < 64) (hord : ∀ {n o' k}, v = some (n, o', k) → o' < 64 ∧ k ≠ .detached) :
    ∃ n, v = some (n, o, .free) := by
  rw [tagFree_eq ho] at ht
  match v with
  | none =>
    have : t = 255 := h
    omega
  | some (n, o', k) =>
    obtain ⟨ho', hk⟩ := hord rfl
    cases k with
    | free =>
      have h' : t = tagFree o' := h
      rw [tagFree_eq ho'] at h'
      obtain rfl : o = o' := by omega
      exact ⟨n, rfl⟩
    | cached =>
      have : t = 255 := h
      omega
    | inUse f =>
      have : t = o' := h
      omega
    | detached => exact absurd rfl hk

/-- The state inside the loop of `__merge_and_free`: the block at offset `off` is detached. -/
structure Pending (h : Heap) (A : Blocks) (off o : ℕ) : Prop extends Core h A where
  block : A (h.ctl.base + off) = some (h.ctl.orderSize o, o, .detached)
  sole : ∀ {x n o'}, A x = some (n, o', .detached) → x = h.ctl.base + off
  coalesced : Coalesced h.ctl A

namespace Pending
variable {h : Heap} {A : Blocks} {off o : ℕ}

theorem off_lt (hP : Pending h A off o) : off < h.ctl.orderSize (h.ctl.maxOrder - 1) := by
  have hup := hP.tiles.upper hP.block
  have hpos := orderSize_pos h.ctl o
  unfold BuddyList.limit at hup
  omega

theorem dvd_off (hP : Pending h A off o) : 2 ^ (h.ctl.minLog + o) ∣ off := by
  have := hP.aligned hP.block
  rwa [Nat.add_sub_cancel_left] at this

/-- The tag of the buddy tells whether it is free and of the same order. -/
theorem buddy_free (hP : Pending h A off o) (ho : o < h.ctl.maxOrder - 1)
    (ht : h.ctl.blockTags (buddy (h.ctl.minLog + o) off / 2 ^ h.ctl.minLog) = tagFree o) :
    A (h.ctl.base + buddy (h.ctl.minLog + o) off) = some (h.ctl.orderSize o, o, .free) := by
  set bo := buddy (h.ctl.minLog + o) off with hbo
  have hle : bo + h.ctl.orderSize o ≤ h.ctl.orderSize (h.ctl.maxOrder - 1) :=
    buddy_lt (by omega) hP.dvd_off hP.off_lt
  have hmin : 2 ^ h.ctl.minLog ≤ h.ctl.orderSize o := Nat.pow_le_pow_right (by norm_num) (by omega)
  have hspan := hP.geo.span
  have htag := hP.tag_at (a := h.ctl.base + bo) (by omega)
    (by rw [Nat.add_sub_cancel_left]
        exact dvd_trans (min_dvd_orderSize _ o) (dvd_buddy hP.dvd_off))
    (by unfold BuddyList.orderSize at hle hmin; omega)
  rw [BuddyList.tagIndex, Nat.add_sub_cancel_left] at htag
  obtain ⟨n, hn⟩ := htag.eq_free ht (hP.order_lt hP.block) fun {n o' k} hv =>
    ⟨hP.order_lt hv, fun hk => by
      subst hk
      have := hP.sole hv
      exact buddy_ne (h.ctl.minLog + o) off (by omega)⟩
  rw [hn, (hP.size hn).1]

/-- One iteration: the free buddy is taken out of its list and joined. -/
theorem merge (hP : Pending h A off o) (ho : o < h.ctl.maxOrder - 1) {bo : ℕ}
    (hbo : bo = buddy (h.ctl.minLog + o) off)
    (hB : A (h.ctl.base + bo) = some (h.ctl.orderSize o, o, .free)) :
    ∃ h₁, freelistRemove h (h.ctl.base + bo) o = (true, h₁) ∧ Frame h h₁ ∧
      ∃ A', used A' = used A ∧
        Pending { h₁ with
          ctl := h₁.ctl.setTag ((if off < bo then bo else off) / 2 ^ h.ctl.minLog) 255 }
          A' (if bo < off then bo else off) (o + 1) := by
  obtain ⟨htrue, hR⟩ := hP.remove hB
  set h₁ := (freelistRemove h (h.ctl.base + bo) o).2 with hh₁
  have hf := hR.frame
  have hC₁ := hR.core hP.toCore hB
  set A₁ := update A (h.ctl.base + bo) (some (h.ctl.orderSize o, o, .detached)) with hA₁
  have hne : h.ctl.base + off ≠ h.ctl.base + bo := by
    intro he
    exact buddy_ne (h.ctl.minLog + o) off (by omega)
  have hpos := orderSize_pos h.ctl o
  have hblk : A₁ (h.ctl.base + off) = some (h.ctl.orderSize o, o, .detached) := by
    rw [hA₁, update_of_ne hne]
    exact hP.block
  have hbud : A₁ (h.ctl.base + bo) = some (h.ctl.orderSize o, o, .detached) := update_self _ _ _
  have hused : used A₁ = used A := used_update_idle (by rw [hB]; rfl) rfl
  refine ⟨h₁, Prod.ext htrue rfl, hf, ?_⟩
  -- The left one of the two blocks absorbs the right one.
  have hjoin : ∀ l, (l = off ∧ bo = off + h.ctl.orderSize o) ∨
      (l = bo ∧ off = bo + h.ctl.orderSize o) → 2 ^ (h.ctl.minLog + o + 1) ∣ l →
      ∃ A', used A' = used A ∧ Pending
        { h₁ with ctl := h₁.ctl.setTag ((l + h.ctl.orderSize o) / 2 ^ h.ctl.minLog) 255 } A' l
          (o + 1) := by
    intro l hl hdvd
    have hL : A₁ (h.ctl.base + l) = some (h.ctl.orderSize o, o, .detached) := by
      rcases hl with ⟨rfl, -⟩ | ⟨rfl, -⟩
      · exact hblk
      · exact hbud
    have hr : A₁ (h.ctl.base + l + h.ctl.orderSize o) = some (h.ctl.orderSize o, o, .detached) := by
      rcases hl with ⟨rfl, he⟩ | ⟨rfl, he⟩
      · rw [Nat.add_assoc, ← he]
        exact hbud
      · rw [Nat.add_assoc, ← he]
        exact hblk
    have hC₂ := hC₁.join hL hr (by
      rw [hf.shape.base, Nat.add_sub_cancel_left, hf.shape.orderSize]
      exact hdvd) (by rw [hf.shape.maxOrder]; omega)
    have hidx : h₁.ctl.tagIndex (h.ctl.base + l + h.ctl.orderSize o) =
        (l + h.ctl.orderSize o) / 2 ^ h.ctl.minLog := by
      rw [hf.shape.tagIndex, BuddyList.tagIndex, Nat.add_assoc, Nat.add_sub_cancel_left]
    rw [hidx] at hC₂
    have hbase : h₁.ctl.base = h.ctl.base := hf.shape.base
    refine ⟨_, ?_, hC₂, ?_, fun {x n o'} hx => ?_, ?_⟩
    · rw [used_update_idle (by rw [update_of_ne (by omega), hL]; rfl) rfl,
        used_update_idle (by rw [hr]; rfl) rfl, hused]
    · show update (update A₁ _ none) (h.ctl.base + l) _ (h₁.ctl.base + l) =
        some (h₁.ctl.orderSize (o + 1), o + 1, Kind.detached)
      rw [hbase, update_self, hf.shape.orderSize, orderSize_succ, Nat.two_mul]
    · show x = h₁.ctl.base + l
      rw [hbase]
      rcases Tiles.merge_entry hx with ⟨rfl, -, -⟩ | ⟨h₁', h₂', hx⟩
      · rfl
      · exfalso
        by_cases hxb : x = h.ctl.base + bo
        · rcases hl with ⟨rfl, he⟩ | ⟨rfl, he⟩ <;> omega
        · rw [hA₁, update_of_ne hxb] at hx
          have := hP.sole hx
          rcases hl with ⟨rfl, he⟩ | ⟨rfl, he⟩ <;> omega
    · refine hP.coalesced.mono (hf.shape.trans ⟨rfl, rfl, rfl, rfl, rfl⟩) fun {x n o'} hx => ?_
      rcases Tiles.merge_entry hx with ⟨-, -, he⟩ | ⟨-, -, hx⟩
      · cases he
      · by_cases hxb : x = h.ctl.base + bo
        · subst hxb
          rw [hbud] at hx
          simp at hx
        · rwa [hA₁, update_of_ne hxb] at hx
  rcases buddy_cases hP.dvd_off with ⟨hdvd, he⟩ | ⟨hdvd, he⟩
  · rw [← hbo] at he
    rw [if_pos (show off < bo by unfold BuddyList.orderSize at hpos; omega),
      if_neg (show ¬bo < off by omega), he]
    exact hjoin off (Or.inl ⟨rfl, he⟩) hdvd
  · rw [← hbo] at he hdvd
    rw [if_neg (show ¬off < bo by omega),
      if_pos (show bo < off by unfold BuddyList.orderSize at hpos; omega), he]
    exact hjoin bo (Or.inr ⟨rfl, he⟩) hdvd

end Pending

/-- The loop joins buddies until the next one is not free. -/
theorem mergeUp_spec (fuel : ℕ) : ∀ {h : Heap} {A : Blocks} {off o : ℕ}, Pending h A off o →
    o + fuel = h.ctl.maxOrder - 1 →
    ∃ h' off' o' A', mergeUp fuel h off o = (h', off', o') ∧ Frame h h' ∧ used A' = used A ∧
      Pending h' A' off' o' ∧ (o' < h'.ctl.maxOrder - 1 → ∀ n,
        A' (h'.ctl.base + buddy (h'.ctl.minLog + o') off') ≠ some (n, o', .free)) := by
  -- Induction on the number of orders above.
  induction fuel with
  | zero =>
    intro h A off o hP ho
    exact ⟨h, off, o, A, rfl, .refl h, rfl, hP, fun hlt => by omega⟩
  | succ fuel ih =>
    intro h A off o hP ho
    simp only [mergeUp]
    by_cases ht : h.ctl.blockTags (buddy (h.ctl.minLog + o) off / 2 ^ h.ctl.minLog) = tagFree o
    · have hB := hP.buddy_free (by omega) ht
      obtain ⟨h₁, hrem, hf, A₁, hu, hP₁⟩ := hP.merge (by omega) rfl hB
      rw [if_neg (not_not.2 ht), hrem]
      simp only [Bool.true_eq_false, if_false]
      have hmax : h₁.ctl.maxOrder = h.ctl.maxOrder := hf.shape.maxOrder
      obtain ⟨h', off', o', A', hm, hf', hu', hP', hlast⟩ := ih hP₁ (by
        show o + 1 + fuel = h₁.ctl.maxOrder - 1
        omega)
      have hf₁ : Frame h₁ { h₁ with ctl := h₁.ctl.setTag ((if off < buddy (h.ctl.minLog + o) off
          then buddy (h.ctl.minLog + o) off else off) / 2 ^ h.ctl.minLog) 255 } :=
        ⟨⟨rfl, rfl, rfl, rfl, rfl⟩, rfl, rfl, rfl, rfl, rfl⟩
      exact ⟨h', off', o', A', hm, (hf.trans hf₁).trans hf', hu'.trans hu, hP', hlast⟩
    · rw [if_pos ht]
      refine ⟨h, off, o, A, rfl, .refl h, rfl, hP, fun hlt n hn => ht ?_⟩
      have htag := hP.tag_of hn
      rwa [BuddyList.tagIndex, Nat.add_sub_cancel_left] at htag

end AbcMalloc.Buddy
