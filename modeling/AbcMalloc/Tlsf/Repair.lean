import AbcMalloc.Tlsf.Walk

/-! A walk with repair. As long as it stores nothing into links that it has followed, except to cut
them, what it truncates stays truncated; on the grid of the pool that is always so. The bitmaps are
taken from the heads before the heads are checked. -/
namespace AbcMalloc.Tlsf
open Function Foundation

def TlsfList.InData (s : TlsfList) (n : ℕ) : Prop := s.base + 32 ≤ n ∧ n < s.endSentinel

instance (s : TlsfList) (n : ℕ) : Decidable (s.InData n) := inferInstanceAs (Decidable (_ ∧ _))

def Bounded (s : TlsfList) (m : Bytes) : ℕ → ℕ → Prop
  | 0, _ => True
  | k + 1, n => n = 0 ∨ s.InData n ∧ Bounded s m k (nextFreeAt m n)

def TlsfList.OnGrid (s : TlsfList) (n : ℕ) : Prop := s.InData n ∧ 32 ∣ n - s.base

instance (s : TlsfList) (n : ℕ) : Decidable (s.OnGrid n) := inferInstanceAs (Decidable (_ ∧ _))

/-- As far as the first `k` nodes from `n` on lie in the data region, they are among `P`. -/
def Along (P : ℕ → Prop) (s : TlsfList) (m : Bytes) : ℕ → ℕ → Prop
  | 0, _ => True
  | k + 1, n => n = 0 ∨ ¬s.InData n ∨ P n ∧ Along P s m k (nextFreeAt m n)

/-- The bitmaps tell the truth, the free lists stay in the pool, and `find_free` never takes the
head of an empty list. -/
structure Sane (s : TlsfList) (m : Bytes) : Prop where
  sl : ∀ fi < 26, ∀ si < 16, (s.slBitmap fi).getLsbD si = true ↔ s.heads (idx fi si) ≠ 0
  fl : ∀ fi < 26, s.flBitmap.getLsbD fi = true ↔ s.slBitmap fi ≠ 0
  bounded : ∀ i < 416, Bounded s m (Walk.maxGuard s) (s.heads i)
  served : s.flCount ≤ 26 → ∀ (mem : Mem) (needed : ℕ), 0 ≤ (mappingSearch needed).1 →
    findFree ⟨s, mem⟩ needed ≠ none

def HeadsIn (s : TlsfList) : Prop := ∀ i < 416, s.heads i = 0 ∨ s.InData (s.heads i)

/-! ## Bitmaps -/

section Bitmaps
variable {s : TlsfList} {heads : ℕ → ℕ} {sl : ℕ → BitVec 32} {fi si : ℕ}

theorem getLsbD_fold (p : ℕ → Prop) [DecidablePred p] {n : ℕ} (hn : n ≤ 32) (j : ℕ) :
    ((List.range n).foldl (fun acc k => if p k then acc ||| (1#32 <<< k) else acc) 0#32).getLsbD j =
      true ↔ j < n ∧ p j := by
  induction n with
  | zero => simp
  | succ n ih =>
    rw [List.range_succ, List.foldl_append, List.foldl_cons, List.foldl_nil]
    have hprev := ih (by omega)
    by_cases hp : p n
    · rw [if_pos hp, getLsbD_setBit _ (by omega), Bool.or_eq_true, hprev, decide_eq_true_eq]
      constructor
      · rintro (⟨hlt, hj⟩ | rfl)
        · exact ⟨by omega, hj⟩
        · exact ⟨by omega, hp⟩
      · rintro ⟨hlt, hj⟩
        by_cases hjn : j = n
        · exact Or.inr hjn
        · exact Or.inl ⟨by omega, hj⟩
    · rw [if_neg hp, hprev]
      constructor
      · rintro ⟨hlt, hj⟩
        exact ⟨by omega, hj⟩
      · rintro ⟨hlt, hj⟩
        have hjn : j ≠ n := by
          rintro rfl
          exact hp hj
        exact ⟨by omega, hj⟩

theorem getLsbD_wantSl : (Walk.wantSl heads fi).getLsbD si = true ↔
    si < 16 ∧ heads (idx fi si) ≠ 0 :=
  getLsbD_fold (fun si => heads (idx fi si) ≠ 0) (by norm_num) si

theorem getLsbD_wantFl : (Walk.wantFl sl).getLsbD fi = true ↔ fi < 26 ∧ sl fi ≠ 0 :=
  getLsbD_fold (fun fi => sl fi ≠ 0) (by norm_num) fi

/-- With truthful bitmaps `find_free` takes the head of a list that has one. -/
theorem findFree_ne_none (hsl : ∀ fi < 26, s.slBitmap fi = Walk.wantSl s.heads fi)
    (hfl : s.flBitmap = Walk.wantFl s.slBitmap) (hcount : s.flCount ≤ 26) (mem : Mem) {needed : ℕ}
    (hcls : 0 ≤ (mappingSearch needed).1) : findFree ⟨s, mem⟩ needed ≠ none := by
  have htake : ∀ {fi si : ℕ}, fi < 26 → (s.slBitmap fi).getLsbD si = true →
      takeHead ⟨s, mem⟩ fi si ≠ none := by
    intro fi si hfi hbit
    rw [hsl fi hfi, getLsbD_wantSl] at hbit
    unfold takeHead
    simp only [if_neg hbit.2]
    simp
  have htop : ∀ j, s.flBitmap.getLsbD j = true → j < 26 ∧ s.slBitmap j ≠ 0 := by
    intro j hj
    rw [hfl] at hj
    exact getLsbD_wantFl.1 hj
  simp only [findFree]
  split_ifs with h₁ h₂ h₃ h₄ h₅
  · simp
  · omega
  · exact htake (by omega) (getLsbD_ctz_mask h₃).1
  · simp
  · exact absurd h₅ (htop _ (getLsbD_ctz_mask h₄).1).2
  · exact htake (htop _ (getLsbD_ctz_mask h₄).1).1 (BitVec.getLsbD_true_ctz_of_ne_zero h₅)

end Bitmaps

/-! ## Links -/

/-- The links of the nodes `P` change only to null. -/
def Tamed (P : ℕ → Prop) (m m' : Bytes) : Prop :=
  ∀ y, P y → nextFreeAt m' y = nextFreeAt m y ∨ nextFreeAt m' y = 0

section Links
variable {P Q : ℕ → Prop} {s s' : TlsfList} {m m' m'' : Bytes} {n k x v : ℕ}

theorem Tamed.refl (P : ℕ → Prop) (m : Bytes) : Tamed P m m := fun _ _ => Or.inl rfl

theorem Tamed.trans (h : Tamed P m m') (h' : Tamed P m' m'') : Tamed P m m'' := by
  intro y hy
  rcases h' y hy with heq | hnull
  · rw [heq]
    exact h y hy
  · exact Or.inr hnull

theorem Tamed.mono (h : Tamed Q m m') (hsub : ∀ y, P y → Q y) : Tamed P m m' :=
  fun y hy => h y (hsub y hy)

theorem tamed_store (hx : s.base ≤ x) (hgrid : 32 ∣ x - s.base) {off : ℕ}
    (hoff : off + 8 ≤ 16 ∨ off = 24) : Tamed s.OnGrid m (m.store (x + off) 8 v) := by
  rintro y ⟨hy, hy32⟩
  left
  unfold TlsfList.InData at hy
  exact Bytes.load_store_of_apart (by omega)

theorem nextFreeAt_cut (m : Bytes) (x : ℕ) : nextFreeAt (m.store (x + 16) 8 0) x = 0 := by
  unfold nextFreeAt
  rw [Bytes.load_store, Nat.zero_mod]

theorem tamed_cut (hx : s.OnGrid x) : Tamed s.OnGrid m (m.store (x + 16) 8 0) := by
  rintro y ⟨hy, hy32⟩
  obtain ⟨hin, hgrid⟩ := hx
  by_cases hxy : y = x
  · subst hxy
    exact Or.inr (nextFreeAt_cut m y)
  · left
    unfold TlsfList.InData at hy hin
    exact Bytes.load_store_of_apart (by omega)

theorem bounded_null (s : TlsfList) (m : Bytes) (k : ℕ) : Bounded s m k 0 := by
  cases k with
  | zero => trivial
  | succ k => exact Or.inl rfl

theorem along_null (P : ℕ → Prop) (s : TlsfList) (m : Bytes) (k : ℕ) : Along P s m k 0 := by
  cases k with
  | zero => trivial
  | succ k => exact Or.inl rfl

theorem TlsfList.InData.ne_zero (h : s.InData n) : n ≠ 0 := by
  unfold TlsfList.InData at h
  omega

theorem Along.step (h : Along P s m (k + 1) n) (hin : s.InData n) :
    P n ∧ Along P s m k (nextFreeAt m n) := by
  rcases h with hnull | hout | hrest
  · exact absurd hnull hin.ne_zero
  · exact absurd hin hout
  · exact hrest

theorem Along.mono (h : Along P s m k n) (hsub : ∀ y, P y → Q y) : Along Q s m k n := by
  induction k generalizing n with
  | zero => trivial
  | succ k ih =>
    rcases h with hnull | hout | ⟨hP, hrest⟩
    · exact Or.inl hnull
    · exact Or.inr (Or.inl hout)
    · exact Or.inr (Or.inr ⟨hsub n hP, ih hrest⟩)

theorem Along.tamed (h : Along P s m k n) (ht : Tamed P m m') : Along P s m' k n := by
  induction k generalizing n with
  | zero => trivial
  | succ k ih =>
    rcases h with hnull | hout | ⟨hP, hrest⟩
    · exact Or.inl hnull
    · exact Or.inr (Or.inl hout)
    · right; right
      refine ⟨hP, ?_⟩
      rcases ht n hP with heq | hcut
      · rw [heq]
        exact ih hrest
      · rw [hcut]
        exact along_null P s m' k

theorem Bounded.tamed (h : Bounded s m k n) (hP : Along P s m k n) (ht : Tamed P m m') :
    Bounded s m' k n := by
  induction k generalizing n with
  | zero => trivial
  | succ k ih =>
    rcases h with hnull | ⟨hin, hrest⟩
    · exact Or.inl hnull
    · right
      refine ⟨hin, ?_⟩
      obtain ⟨hn, hP⟩ := hP.step hin
      rcases ht n hn with heq | hcut
      · rw [heq]
        exact ih hrest hP
      · rw [hcut]
        exact bounded_null s m' k

structure SamePool (s s' : TlsfList) : Prop where
  base : s'.base = s.base
  total : s'.total = s.total

theorem SamePool.inData (h : SamePool s s') : s'.InData n ↔ s.InData n := by
  unfold TlsfList.InData TlsfList.endSentinel
  rw [h.base, h.total]

theorem SamePool.maxGuard (h : SamePool s s') : Walk.maxGuard s' = Walk.maxGuard s := by
  unfold Walk.maxGuard
  rw [h.total]

theorem SamePool.bounded (h : SamePool s s') : Bounded s' m k n ↔ Bounded s m k n := by
  induction k generalizing n with
  | zero => rfl
  | succ k ih => simp only [Bounded, h.inData, ih]

theorem SamePool.onGrid (h : SamePool s s') : s'.OnGrid = s.OnGrid := by
  funext n
  unfold TlsfList.OnGrid
  rw [h.inData, h.base]

theorem SamePool.along (h : SamePool s s') : Along P s' m k n ↔ Along P s m k n := by
  induction k generalizing n with
  | zero => rfl
  | succ k ih => simp only [Along, h.inData, ih]

end Links

/-! ## Stores into followed links -/

/-- The memory behind a visit of `n`: its back-link is `pr`. -/
def relinked (m : Bytes) (n pr : ℕ) : Bytes :=
  if prevFreeAt m n ≠ pr then m.store (n + 24) 8 pr else m

/-- The pass over a list from `n` on, behind `pr`, stores nothing into the links of the nodes `F`,
nor into those of its own that it has followed by then, except that a link may be cut. -/
def Calm (s : TlsfList) : ℕ → List ℕ → Bytes → ℕ → ℕ → Prop
  | 0, _, _, _, _ => True
  | k + 1, F, m, n, pr =>
    if n = 0 then True
    else if s.InData n then
      Tamed (· ∈ F) m (relinked m n pr) ∧
        Calm s k (n :: F) (relinked m n pr) (nextFreeAt (relinked m n pr) n) n
    else pr ≠ 0 → Tamed (· ∈ F) m (m.store (pr + 16) 8 0)

/-- The nodes whose links that pass follows. -/
def followed (s : TlsfList) : ℕ → Bytes → ℕ → ℕ → List ℕ
  | 0, _, _, _ => []
  | k + 1, m, n, pr =>
    if s.InData n then
      n :: followed s k (relinked m n pr) (nextFreeAt (relinked m n pr) n) n
    else []

/-- The passes over these lists disturb neither each other's links nor those of the nodes `F`. -/
def Walk.CalmFrom : List ℕ → List ℕ → Walk → Prop
  | [], _, _ => True
  | i :: is, F, w =>
    Calm w.ctl (Walk.maxGuard w.ctl) F w.mem (w.ctl.heads i) 0 ∧
      Walk.CalmFrom is (F ++ followed w.ctl (Walk.maxGuard w.ctl) w.mem (w.ctl.heads i) 0)
        (w.freeList i)

/-- No link that the walk has followed is changed by a later store, except that it may be cut. -/
def Walk.Undisturbed (w : Walk) : Prop :=
  w.ctl.base = 0 ∨ Walk.CalmFrom (List.range 416) [] w.sentinels.physicalChain.bitmaps

section Grid
variable {s : TlsfList} {m : Bytes} {F : List ℕ} {n pr k : ℕ}

theorem tamed_relinked (hn : s.OnGrid n) (pr : ℕ) : Tamed s.OnGrid m (relinked m n pr) := by
  obtain ⟨hin, hgrid⟩ := hn
  unfold TlsfList.InData at hin
  unfold relinked
  split_ifs
  · exact tamed_store (by omega) hgrid (Or.inr rfl)
  · exact .refl _ m

theorem along_relinked (h : Along s.OnGrid s m k (nextFreeAt m n)) (hn : s.OnGrid n) (pr : ℕ) :
    Along s.OnGrid s (relinked m n pr) k (nextFreeAt (relinked m n pr) n) := by
  rcases tamed_relinked (m := m) hn pr n hn with heq | hcut
  · rw [heq]
    exact h.tamed (tamed_relinked hn pr)
  · rw [hcut]
    exact along_null _ _ _ _

/-- On the grid back-links and links do not overlap. -/
theorem calm_of_along (h : Along s.OnGrid s m k n) (hF : ∀ y ∈ F, s.OnGrid y)
    (hpr : pr = 0 ∨ s.OnGrid pr) : Calm s k F m n pr := by
  induction k generalizing F m n pr with
  | zero => trivial
  | succ k ih =>
    unfold Calm
    split_ifs with hn hin
    · obtain ⟨hgrid, hrest⟩ := h.step hin
      refine ⟨(tamed_relinked hgrid pr).mono hF, ?_⟩
      apply ih (along_relinked hrest hgrid pr) _ (Or.inr hgrid)
      intro y hy
      rcases List.mem_cons.1 hy with rfl | hy
      · exact hgrid
      · exact hF y hy
    · intro hne
      exact (tamed_cut (hpr.resolve_left hne)).mono hF

theorem onGrid_of_followed (h : Along s.OnGrid s m k n) :
    ∀ y ∈ followed s k m n pr, s.OnGrid y := by
  induction k generalizing m n pr with
  | zero => simp [followed]
  | succ k ih =>
    intro y hy
    unfold followed at hy
    split_ifs at hy with hin
    · obtain ⟨hgrid, hrest⟩ := h.step hin
      rcases List.mem_cons.1 hy with rfl | hy
      · exact hgrid
      · exact ih (along_relinked hrest hgrid pr) y hy
    · exact absurd hy (List.not_mem_nil)

end Grid

/-! ## Passes -/

namespace Walk
variable {w w' w'' : Walk} {s : TlsfList} {what : String} {p n pr i k cur prev : ℕ} {c : Bool}

structure Keeps (w w' : Walk) : Prop where
  ctl : w'.ctl = w.ctl
  repair : w'.visitor.repair = w.visitor.repair
  tamed : Tamed w.ctl.OnGrid w.mem w'.mem

theorem Keeps.refl (w : Walk) : Keeps w w := ⟨rfl, rfl, .refl _ _⟩

theorem Keeps.trans (h : Keeps w w') (h' : Keeps w' w'') : Keeps w w'' where
  ctl := h'.ctl.trans h.ctl
  repair := h'.repair.trans h.repair
  tamed := h.tamed.trans (h.ctl ▸ h'.tamed)

theorem keeps_countBlock (w : Walk) : Keeps w w.countBlock := ⟨rfl, rfl, .refl _ _⟩

theorem keeps_countNode (w : Walk) : Keeps w w.countNode := ⟨rfl, rfl, .refl _ _⟩

theorem keeps_note (w : Walk) (what : String) (p : ℕ) : Keeps w (w.note what p) :=
  ⟨rfl, rfl, .refl _ _⟩

theorem keeps_noteIf (w : Walk) (c : Bool) (what : String) (p : ℕ) :
    Keeps w (w.noteIf c what p) := by
  unfold noteIf
  split_ifs
  · exact keeps_note w what p
  · exact .refl w

theorem keeps_backLink {off found want : ℕ} {bad fixed : String} (hp : w.ctl.base ≤ p)
    (hgrid : 32 ∣ p - w.ctl.base) (hoff : off + 8 ≤ 16 ∨ off = 24) :
    Keeps w (w.backLink p off found want bad fixed) := by
  unfold backLink
  simp only
  split_ifs
  · exact ⟨rfl, rfl, tamed_store hp hgrid hoff⟩
  · exact keeps_note w bad p
  · exact .refl w

/-- The size of the block is in front of its back-links. -/
theorem bsizeAt_backLink {off found want : ℕ} {bad fixed : String} (hoff : 4 ≤ off) :
    bsizeAt (w.backLink p off found want bad fixed).mem p = bsizeAt w.mem p := by
  unfold backLink
  simp only
  split_ifs
  · exact Bytes.load_store_of_apart (by omega)
  · rfl
  · rfl

theorem noteIf_mem (w : Walk) (c : Bool) (what : String) (p : ℕ) :
    (w.noteIf c what p).mem = w.mem := by
  unfold noteIf
  split_ifs <;> rfl

theorem keeps_physical (k : ℕ) : ∀ (w : Walk) (cur prev : ℕ), w.ctl.base ≤ cur →
    32 ∣ cur - w.ctl.base → Keeps w (w.physical cur prev k).1 := by
  induction k with
  | zero => exact fun w _ _ _ _ => .refl w
  | succ k ih =>
    intro w cur prev hle hgrid
    unfold physical
    simp only
    split_ifs with hend hbad hpast
    · exact .refl w
    · exact (keeps_countBlock w).trans (keeps_note _ _ _)
    · exact (keeps_countBlock w).trans (keeps_note _ _ _)
    · set w₁ := w.countBlock.noteIf (!flagsKnown (flagsAt w.countBlock.mem cur))
        "tlsf: block flags not a valid block_flags" cur
      have h₁ : Keeps w w₁ := (keeps_countBlock w).trans (keeps_noteIf _ _ _ _)
      have hsize₁ : bsizeAt w₁.mem cur = bsizeAt w.mem cur := by rw [noteIf_mem]; rfl
      set w₂ := w₁.backLink cur 8 (prevPhysAt w₁.mem cur) prev
        "tlsf: prev_phys back-link mismatch" "tlsf: fixed prev_phys back-link"
      have h₂ : Keeps w w₂ := h₁.trans (keeps_backLink (by rwa [h₁.ctl]) (by rwa [h₁.ctl])
        (Or.inl le_rfl))
      have hsize₂ : bsizeAt w₂.mem cur = bsizeAt w.mem cur := by
        rw [bsizeAt_backLink (by norm_num), hsize₁]
      rw [hsize₂]
      set w₃ := w₂.noteIf _ _ _
      have h₃ : Keeps w w₃ := h₂.trans (keeps_noteIf _ _ _ _)
      push Not at hbad
      obtain ⟨-, hmod⟩ := hbad
      have hmod : bsizeAt w.mem cur % 32 = 0 := hmod
      refine h₃.trans (ih _ _ _ ?_ ?_)
      · rw [h₃.ctl]
        omega
      · rw [h₃.ctl]
        omega

theorem keeps_physicalChain (w : Walk) : Keeps w w.physicalChain := by
  have h := keeps_physical (maxGuard w.ctl) w (w.ctl.base + 32) w.ctl.base (by omega) (by omega)
  unfold physicalChain
  split
  · next w' p heq =>
    rw [heq] at h
    exact h.trans (keeps_note _ _ _)
  · next w' p heq =>
    rw [heq] at h
    exact h.trans (keeps_noteIf _ _ _ _)

theorem keeps_sentinels (w : Walk) : Keeps w w.sentinels :=
  (keeps_noteIf _ _ _ _).trans (keeps_noteIf _ _ _ _)

/-! ### Bitmaps -/

theorem secondLevel_eq (hr : w.visitor.repair = true) (fi : ℕ) :
    (w.secondLevel fi).ctl = { w.ctl with
        slBitmap := update w.ctl.slBitmap fi (wantSl w.ctl.heads fi) } ∧
      (w.secondLevel fi).mem = w.mem ∧ (w.secondLevel fi).visitor.repair = true := by
  unfold secondLevel
  split_ifs with hne
  · exact ⟨rfl, rfl, hr⟩
  · push Not at hne
    rw [← hne, update_eq_self]
    exact ⟨rfl, rfl, hr⟩

theorem secondLevels_eq (hr : w.visitor.repair = true) (n : ℕ) :
    ((List.range n).foldl secondLevel w).ctl = { w.ctl with
        slBitmap := fun fi => if fi < n then wantSl w.ctl.heads fi else w.ctl.slBitmap fi } ∧
      ((List.range n).foldl secondLevel w).mem = w.mem ∧
      ((List.range n).foldl secondLevel w).visitor.repair = true := by
  induction n with
  | zero => exact ⟨rfl, rfl, hr⟩
  | succ n ih =>
    obtain ⟨hctl, hmem, hrep⟩ := ih
    rw [List.range_succ, List.foldl_append, List.foldl_cons, List.foldl_nil]
    obtain ⟨hctl', hmem', hrep'⟩ := secondLevel_eq hrep n
    have hfun : update (fun fi => if fi < n then wantSl w.ctl.heads fi else w.ctl.slBitmap fi) n
        (wantSl w.ctl.heads n) =
        fun fi => if fi < n + 1 then wantSl w.ctl.heads fi else w.ctl.slBitmap fi := by
      funext fi
      by_cases hfi : fi = n
      · subst hfi
        rw [update_self, if_pos (by omega)]
      · rw [update_of_ne hfi]
        simp only [show fi < n + 1 ↔ fi < n by omega]
    refine ⟨?_, hmem'.trans hmem, hrep'⟩
    rw [hctl', hctl, ← hfun]

/-- Both levels are taken from the heads. -/
theorem bitmaps_eq (hr : w.visitor.repair = true) :
    (∀ fi < 26, w.bitmaps.ctl.slBitmap fi = wantSl w.ctl.heads fi) ∧
      w.bitmaps.ctl.flBitmap = wantFl w.bitmaps.ctl.slBitmap ∧
      w.bitmaps.ctl.heads = w.ctl.heads ∧ w.bitmaps.ctl.base = w.ctl.base ∧
      w.bitmaps.ctl.total = w.ctl.total ∧ w.bitmaps.ctl.flCount = w.ctl.flCount ∧
      w.bitmaps.mem = w.mem ∧ w.bitmaps.visitor.repair = true := by
  obtain ⟨hctl, hmem, hrep⟩ := secondLevels_eq hr 26
  unfold bitmaps firstLevel
  generalize (List.range 26).foldl secondLevel w = v at hctl hmem hrep ⊢
  have hsl : ∀ fi < 26, v.ctl.slBitmap fi = wantSl w.ctl.heads fi := by
    intro fi hfi
    rw [hctl]
    exact if_pos hfi
  have hrest : v.ctl.heads = w.ctl.heads ∧ v.ctl.base = w.ctl.base ∧ v.ctl.total = w.ctl.total ∧
      v.ctl.flCount = w.ctl.flCount := by
    rw [hctl]
    exact ⟨rfl, rfl, rfl, rfl⟩
  obtain ⟨hheads, hbase, htotal, hcount⟩ := hrest
  split_ifs with hne
  · exact ⟨hsl, rfl, hheads, hbase, htotal, hcount, hmem, hrep⟩
  · push Not at hne
    exact ⟨hsl, hne, hheads, hbase, htotal, hcount, hmem, hrep⟩

/-! ### Free lists -/

theorem backLink_ctl (w : Walk) (p off found want : ℕ) (bad fixed : String) :
    (w.backLink p off found want bad fixed).ctl = w.ctl ∧
      (w.backLink p off found want bad fixed).visitor.repair = w.visitor.repair := by
  unfold backLink
  simp only
  split_ifs <;> exact ⟨rfl, rfl⟩

theorem noteIf_ctl (w : Walk) (c : Bool) (what : String) (p : ℕ) :
    (w.noteIf c what p).ctl = w.ctl ∧
      (w.noteIf c what p).visitor.repair = w.visitor.repair := by
  unfold noteIf
  split_ifs <;> exact ⟨rfl, rfl⟩

def keptHead (s : TlsfList) (n : ℕ) : ℕ := if s.InData n then n else 0

/-- Behind a node of the pool the walk leaves the members of the list alone. -/
theorem freeNodes_ctl (i k : ℕ) : ∀ (w : Walk) (n pr : ℕ), pr ≠ 0 ∨ n = 0 ∨ w.ctl.InData n →
    (w.freeNodes i n pr k).1.ctl = w.ctl ∧
      (w.freeNodes i n pr k).1.visitor.repair = w.visitor.repair := by
  induction k with
  | zero => exact fun _ _ _ _ => ⟨rfl, rfl⟩
  | succ k ih =>
    intro w n pr hstart
    unfold freeNodes
    simp only
    split_ifs with hn hout hrep
    · exact ⟨rfl, rfl⟩
    · have hp : pr ≠ 0 := by
        rcases hstart with hp | h0 | hin
        · exact hp
        · exact absurd h0 hn
        · unfold TlsfList.InData at hin
          rw [(keeps_countNode w).ctl] at hout
          omega
      unfold truncate
      rw [if_pos hp]
      exact ⟨rfl, rfl⟩
    · exact ⟨rfl, rfl⟩
    · obtain ⟨h₁, h₁'⟩ := noteIf_ctl w.countNode (flagsAt w.countNode.mem n ≠ blockFree)
        "tlsf: free-list node not flagged free" n
      generalize w.countNode.noteIf (flagsAt w.countNode.mem n ≠ blockFree)
        "tlsf: free-list node not flagged free" n = w₁ at h₁ h₁' ⊢
      obtain ⟨h₂, h₂'⟩ := backLink_ctl w₁ n 24 (prevFreeAt w₁.mem n) pr
        "tlsf: free-list prev_free back-link mismatch" "tlsf: fixed prev_free back-link"
      obtain ⟨h₃, h₃'⟩ := ih _ (nextFreeAt (w₁.backLink n 24 (prevFreeAt w₁.mem n) pr
        "tlsf: free-list prev_free back-link mismatch" "tlsf: fixed prev_free back-link").mem n) n
        (Or.inl hn)
      exact ⟨h₃.trans (h₂.trans h₁), h₃'.trans (h₂'.trans h₁')⟩

theorem freeList_ctl (hr : w.visitor.repair = true) (i : ℕ) :
    (w.freeList i).ctl = { w.ctl with
        heads := update w.ctl.heads i (keptHead w.ctl (w.ctl.heads i)) } ∧
      (w.freeList i).visitor.repair = true := by
  obtain ⟨h₁, h₁'⟩ := noteIf_ctl (w.freeNodes i (w.ctl.heads i) 0 (maxGuard w.ctl)).1
    (w.freeNodes i (w.ctl.heads i) 0 (maxGuard w.ctl)).2 "tlsf: free-list cycle / overrun"
    (w.freeNodes i (w.ctl.heads i) 0 (maxGuard w.ctl)).1.ctl.base
  rw [show (w.freeList i).ctl = _ from h₁, show (w.freeList i).visitor.repair = _ from h₁']
  unfold keptHead
  by_cases hin : w.ctl.heads i = 0 ∨ w.ctl.InData (w.ctl.heads i)
  · obtain ⟨h₂, h₂'⟩ := freeNodes_ctl i (maxGuard w.ctl) w (w.ctl.heads i) 0 (Or.inr hin)
    have hsame : (if w.ctl.InData (w.ctl.heads i) then w.ctl.heads i else 0) = w.ctl.heads i := by
      rcases hin with h0 | hin
      · rw [h0, ite_self]
      · exact if_pos hin
    rw [h₂, h₂', hsame, update_eq_self]
    exact ⟨rfl, hr⟩
  · push Not at hin
    rw [if_neg hin.2]
    obtain ⟨k, hk⟩ : ∃ k, maxGuard w.ctl = k + 1 := ⟨w.ctl.total / 64 + 7, rfl⟩
    have hout : w.ctl.heads i < w.countNode.ctl.base + 32 ∨
        w.countNode.ctl.endSentinel ≤ w.ctl.heads i := by
      have hnot := hin.2
      unfold TlsfList.InData at hnot
      rw [(keeps_countNode w).ctl]
      omega
    have heq : (w.freeNodes i (w.ctl.heads i) 0 (maxGuard w.ctl)).1 =
        ((w.countNode.note "tlsf: free-list node out of bounds" (w.ctl.heads i)).truncate i
          0).didRepair
          "tlsf: truncated free-list at bad node" (w.ctl.heads i) := by
      rw [hk]
      unfold freeNodes
      rw [if_neg hin.1]
      simp only
      rw [if_pos hout]
      exact if_pos hr
    rw [heq]
    exact ⟨rfl, hr⟩

theorem backLink_mem (hr : w.visitor.repair = true) (n pr : ℕ) (bad fixed : String) :
    (w.backLink n 24 (prevFreeAt w.mem n) pr bad fixed).mem = relinked w.mem n pr := by
  unfold backLink relinked
  split_ifs with hne
  · dsimp only
    rw [if_pos (show (w.note bad n).visitor.repair = true from hr)]
    rfl
  · rfl

theorem freeNodes_visit (hr : w.visitor.repair = true) (hin : w.ctl.InData n) :
    ∃ v : Walk, w.freeNodes i n pr (k + 1) = v.freeNodes i (nextFreeAt v.mem n) n k ∧
      v.ctl = w.ctl ∧ v.visitor.repair = true ∧ v.mem = relinked w.mem n pr := by
  obtain ⟨h₁, h₁'⟩ := noteIf_ctl w.countNode (flagsAt w.countNode.mem n ≠ blockFree)
    "tlsf: free-list node not flagged free" n
  have hmem₁ : (w.countNode.noteIf (flagsAt w.countNode.mem n ≠ blockFree)
    "tlsf: free-list node not flagged free" n).mem = w.mem := noteIf_mem _ _ _ _
  obtain ⟨h₂, h₂'⟩ := backLink_ctl (w.countNode.noteIf (flagsAt w.countNode.mem n ≠ blockFree)
    "tlsf: free-list node not flagged free" n) n 24 (prevFreeAt (w.countNode.noteIf
      (flagsAt w.countNode.mem n ≠ blockFree) "tlsf: free-list node not flagged free" n).mem n) pr
    "tlsf: free-list prev_free back-link mismatch" "tlsf: fixed prev_free back-link"
  refine ⟨_, ?_, h₂.trans h₁, (h₂'.trans h₁').trans hr, ?_⟩
  · have hne := hin.ne_zero
    unfold TlsfList.InData at hin
    conv_lhs => unfold freeNodes
    rw [if_neg hne]
    simp only
    rw [if_neg (show ¬(n < w.countNode.ctl.base + 32 ∨ w.countNode.ctl.endSentinel ≤ n) by
      rw [(keeps_countNode w).ctl]; omega)]
  · rw [backLink_mem (h₁'.trans hr), hmem₁]

theorem freeNodes_stray (hr : w.visitor.repair = true) (hn : n ≠ 0) (hout : ¬w.ctl.InData n) :
    (w.freeNodes i n pr (k + 1)).1 =
      ((w.countNode.note "tlsf: free-list node out of bounds" n).truncate i pr).didRepair
        "tlsf: truncated free-list at bad node" n := by
  unfold freeNodes
  rw [if_neg hn]
  simp only
  rw [if_pos (show n < w.countNode.ctl.base + 32 ∨ w.countNode.ctl.endSentinel ≤ n by
    rw [(keeps_countNode w).ctl]; unfold TlsfList.InData at hout; omega)]
  exact if_pos hr

/-- The pass over a list that is cut where it leaves the pool. -/
theorem freeNodes_spec (i k : ℕ) : ∀ (w : Walk) (F : List ℕ) (n pr : ℕ),
    w.visitor.repair = true → Calm w.ctl k F w.mem n pr →
    Tamed (· ∈ F) w.mem (w.freeNodes i n pr k).1.mem ∧
      (n = 0 ∨ w.ctl.InData n → Bounded w.ctl (w.freeNodes i n pr k).1.mem k n ∧
        Along (fun y => y ∈ F ∨ y ∈ followed w.ctl k w.mem n pr) w.ctl
          (w.freeNodes i n pr k).1.mem k n) ∧
      (¬(n = 0 ∨ w.ctl.InData n) → 0 < k → pr ≠ 0 →
        nextFreeAt (w.freeNodes i n pr k).1.mem pr = 0) := by
  induction k with
  | zero =>
    exact fun w F n pr _ _ => ⟨.refl _ _, fun _ => ⟨trivial, trivial⟩,
      fun _ hk => absurd hk (by omega)⟩
  | succ k ih =>
    intro w F n pr hr hcalm
    unfold Calm at hcalm
    by_cases hn : n = 0
    · have heq : w.freeNodes i n pr (k + 1) = (w, false) := by
        unfold freeNodes
        rw [if_pos hn]
      rw [heq]
      exact ⟨.refl _ _, fun _ => ⟨Or.inl hn, Or.inl hn⟩, fun hbad => absurd (Or.inl hn) hbad⟩
    rw [if_neg hn] at hcalm
    by_cases hin : w.ctl.InData n
    · -- the node is kept, and its successor is cut from it if need be
      rw [if_pos hin] at hcalm
      obtain ⟨htame, hrest⟩ := hcalm
      obtain ⟨v, heq, hctl, hrep, hmem⟩ : ∃ v : Walk,
          w.freeNodes i n pr (k + 1) = v.freeNodes i (nextFreeAt v.mem n) n k ∧
          v.ctl = w.ctl ∧ v.visitor.repair = true ∧ v.mem = relinked w.mem n pr :=
        freeNodes_visit hr hin
      rw [← hctl, ← hmem] at hrest
      obtain ⟨ht, hgood, hbad⟩ := ih v (n :: F) (nextFreeAt v.mem n) n hrep hrest
      have hlink := ht n (List.mem_cons_self ..)
      rw [hctl] at hgood hbad
      rw [heq]
      rw [← hmem] at htame
      refine ⟨htame.trans (ht.mono fun y hy => List.mem_cons_of_mem n hy), fun _ => ?_,
        fun hout => absurd (Or.inr hin) hout⟩
      have hfollowed : followed w.ctl (k + 1) w.mem n pr =
          n :: followed w.ctl k v.mem (nextFreeAt v.mem n) n := by
        rw [followed, if_pos hin, hmem]
      rw [hfollowed]
      have hnext : Bounded w.ctl (v.freeNodes i (nextFreeAt v.mem n) n k).1.mem k
            (nextFreeAt (v.freeNodes i (nextFreeAt v.mem n) n k).1.mem n) ∧
          Along (fun y => y ∈ n :: F ∨ y ∈ followed w.ctl k v.mem (nextFreeAt v.mem n) n) w.ctl
            (v.freeNodes i (nextFreeAt v.mem n) n k).1.mem k
            (nextFreeAt (v.freeNodes i (nextFreeAt v.mem n) n k).1.mem n) := by
        by_cases hstop : nextFreeAt v.mem n = 0 ∨ w.ctl.InData (nextFreeAt v.mem n)
        · rcases hlink with hsame | hnull
          · rw [hsame]
            exact hgood hstop
          · rw [hnull]
            exact ⟨bounded_null _ _ _, along_null _ _ _ _⟩
        · rcases Nat.eq_zero_or_pos k with rfl | hk
          · exact ⟨trivial, trivial⟩
          · rw [hbad hstop hk hn]
            exact ⟨bounded_null _ _ _, along_null _ _ _ _⟩
      refine ⟨Or.inr ⟨hin, hnext.1⟩, Or.inr (Or.inr ⟨Or.inr (List.mem_cons_self ..), ?_⟩)⟩
      refine hnext.2.mono fun y hy => ?_
      rcases hy with hy | hy
      · rcases List.mem_cons.1 hy with rfl | hy
        · exact Or.inr (List.mem_cons_self ..)
        · exact Or.inl hy
      · exact Or.inr (List.mem_cons_of_mem n hy)
    · rw [if_neg hin] at hcalm
      rw [freeNodes_stray hr hn hin]
      unfold truncate
      by_cases hp : pr = 0
      · subst hp
        exact ⟨.refl _ _, fun h => absurd h (not_or.2 ⟨hn, hin⟩), fun _ _ hp => absurd rfl hp⟩
      · simp only [if_pos hp]
        exact ⟨hcalm hp, fun h => absurd h (not_or.2 ⟨hn, hin⟩), fun _ _ _ => nextFreeAt_cut _ _⟩

theorem freeList_spec (hr : w.visitor.repair = true) {i : ℕ} {F : List ℕ}
    (hcalm : Calm w.ctl (maxGuard w.ctl) F w.mem (w.ctl.heads i) 0) :
    Tamed (· ∈ F) w.mem (w.freeList i).mem ∧
      Bounded w.ctl (w.freeList i).mem (maxGuard w.ctl) (keptHead w.ctl (w.ctl.heads i)) ∧
      Along (· ∈ F ++ followed w.ctl (maxGuard w.ctl) w.mem (w.ctl.heads i) 0) w.ctl
        (w.freeList i).mem (maxGuard w.ctl) (keptHead w.ctl (w.ctl.heads i)) := by
  obtain ⟨ht, hgood, -⟩ := freeNodes_spec i _ w F (w.ctl.heads i) 0 hr hcalm
  have hmem : (w.freeList i).mem = (w.freeNodes i (w.ctl.heads i) 0 (maxGuard w.ctl)).1.mem :=
    noteIf_mem _ _ _ _
  rw [hmem]
  refine ⟨ht, ?_⟩
  unfold keptHead
  split_ifs with hin
  · obtain ⟨hb, hal⟩ := hgood (Or.inr hin)
    exact ⟨hb, hal.mono fun y hy => List.mem_append.2 hy⟩
  · exact ⟨bounded_null _ _ _, along_null _ _ _ _⟩

/-- The heads behind the first `n` lists. -/
theorem freeLists_ctl (hr : w.visitor.repair = true) (n : ℕ) :
    ((List.range n).foldl freeList w).ctl = { w.ctl with
        heads := fun i => if i < n then keptHead w.ctl (w.ctl.heads i) else w.ctl.heads i } ∧
      ((List.range n).foldl freeList w).visitor.repair = true := by
  induction n with
  | zero => exact ⟨rfl, hr⟩
  | succ n ih =>
    obtain ⟨hctl, hrep⟩ := ih
    rw [List.range_succ, List.foldl_append, List.foldl_cons, List.foldl_nil]
    generalize (List.range n).foldl freeList w = v at hctl hrep ⊢
    obtain ⟨hctl', hrep'⟩ := freeList_ctl hrep n
    have hpool : SamePool w.ctl v.ctl := by
      rw [hctl]
      exact ⟨rfl, rfl⟩
    have hhead : v.ctl.heads n = w.ctl.heads n := by
      rw [hctl]
      exact if_neg (lt_irrefl n)
    have hkept : keptHead v.ctl (v.ctl.heads n) = keptHead w.ctl (w.ctl.heads n) := by
      unfold keptHead
      simp only [hhead, hpool.inData]
    have hfun : update (fun i => if i < n then keptHead w.ctl (w.ctl.heads i)
        else w.ctl.heads i) n (keptHead w.ctl (w.ctl.heads n)) =
        fun i => if i < n + 1 then keptHead w.ctl (w.ctl.heads i) else w.ctl.heads i := by
      funext i
      by_cases hi : i = n
      · subst hi
        rw [update_self, if_pos (by omega)]
      · rw [update_of_ne hi]
        simp only [show i < n + 1 ↔ i < n by omega]
    rw [hctl', hkept, hctl, ← hfun]
    exact ⟨rfl, hrep'⟩

theorem freeList_frame (hr : w.visitor.repair = true) (i : ℕ) :
    SamePool w.ctl (w.freeList i).ctl ∧ ∀ j ≠ i, (w.freeList i).ctl.heads j = w.ctl.heads j := by
  obtain ⟨hctl, -⟩ := freeList_ctl hr i
  rw [hctl]
  exact ⟨⟨rfl, rfl⟩, fun j hj => update_of_ne hj _ _⟩

/-- The lists that were passed stay bounded: later passes only cut their links. -/
theorem freeLists_spec : ∀ (is F : List ℕ) (w : Walk), w.visitor.repair = true → is.Nodup →
    CalmFrom is F w → Tamed (· ∈ F) w.mem (is.foldl freeList w).mem ∧
      ∀ i ∈ is, Bounded w.ctl (is.foldl freeList w).mem (maxGuard w.ctl)
        (keptHead w.ctl (w.ctl.heads i)) := by
  intro is
  induction is with
  | nil => exact fun _ _ _ _ _ => ⟨.refl _ _, fun i hi => absurd hi List.not_mem_nil⟩
  | cons i is ih =>
    intro F w hr hnd hcalm
    obtain ⟨hi, hnd⟩ := List.nodup_cons.1 hnd
    obtain ⟨hfirst, hrest⟩ := hcalm
    obtain ⟨ht, hb, hal⟩ := freeList_spec hr hfirst
    obtain ⟨hpool, hheads⟩ := freeList_frame hr i
    obtain ⟨ht', hb'⟩ := ih _ _ (freeList_ctl hr i).2 hnd hrest
    rw [List.foldl_cons]
    refine ⟨ht.trans (ht'.mono fun y hy => List.mem_append_left _ hy), ?_⟩
    intro j hj
    rcases List.mem_cons.1 hj with rfl | hjs
    · exact hb.tamed hal ht'
    · have hji : j ≠ i := by
        rintro rfl
        exact hi hjs
      have hkept : keptHead (w.freeList i).ctl ((w.freeList i).ctl.heads j) =
          keptHead w.ctl (w.ctl.heads j) := by
        unfold keptHead
        simp only [hheads j hji, hpool.inData]
      have := hb' j hjs
      rwa [hpool.maxGuard, hpool.bounded, hkept] at this

theorem calmFrom_of_along : ∀ (is F : List ℕ) (w : Walk), w.visitor.repair = true → is.Nodup →
    (∀ y ∈ F, w.ctl.OnGrid y) →
    (∀ i ∈ is, Along w.ctl.OnGrid w.ctl w.mem (maxGuard w.ctl) (w.ctl.heads i)) →
    CalmFrom is F w := by
  intro is
  induction is with
  | nil => exact fun _ _ _ _ _ _ => trivial
  | cons i is ih =>
    intro F w hr hnd hF hgrid
    obtain ⟨hi, hnd⟩ := List.nodup_cons.1 hnd
    obtain ⟨hpool, hheads⟩ := freeList_frame hr i
    have hal := hgrid i (List.mem_cons_self ..)
    refine ⟨calm_of_along hal hF (Or.inl rfl), ?_⟩
    -- the links of all headers on the grid, followed or not, are left alone
    have hall : Tamed w.ctl.OnGrid w.mem (w.freeList i).mem := by
      obtain ⟨ht, -⟩ := freeList_spec (F := (List.range w.ctl.endSentinel).filter (w.ctl.OnGrid ·))
        hr (calm_of_along hal (fun y hy => by simpa using (List.mem_filter.1 hy).2) (Or.inl rfl))
      refine ht.mono fun y hy => List.mem_filter.2 ⟨List.mem_range.2 ?_, by simpa using hy⟩
      exact hy.1.2
    apply ih _ _ (freeList_ctl hr i).2 hnd
    · rw [hpool.onGrid]
      intro y hy
      rcases List.mem_append.1 hy with hy | hy
      · exact hF y hy
      · exact onGrid_of_followed hal y hy
    · intro j hj
      have hji : j ≠ i := by
        rintro rfl
        exact hi hj
      rw [hpool.onGrid, hpool.along, hpool.maxGuard, hheads j hji]
      exact (hgrid j (List.mem_cons_of_mem i hj)).tamed hall

end Walk

/-! ## The walk -/

section Repairs
variable {w : Walk}

/-- The links that the walk follows lie on the grid of the pool. -/
def Walk.Gridded (w : Walk) : Prop :=
  ∀ i < 416, Along w.ctl.OnGrid w.ctl w.mem (Walk.maxGuard w.ctl) (w.ctl.heads i)

/-- The passes before the free lists leave the heads and, on the grid, the links alone. -/
theorem Walk.bitmaps_spec (hr : w.visitor.repair = true) :
    (∀ fi < 26, w.sentinels.physicalChain.bitmaps.ctl.slBitmap fi = Walk.wantSl w.ctl.heads fi) ∧
      w.sentinels.physicalChain.bitmaps.ctl.flBitmap =
        Walk.wantFl w.sentinels.physicalChain.bitmaps.ctl.slBitmap ∧
      w.sentinels.physicalChain.bitmaps.ctl.heads = w.ctl.heads ∧
      SamePool w.ctl w.sentinels.physicalChain.bitmaps.ctl ∧
      w.sentinels.physicalChain.bitmaps.visitor.repair = true ∧
      Tamed w.ctl.OnGrid w.mem w.sentinels.physicalChain.bitmaps.mem := by
  have hk := (Walk.keeps_sentinels w).trans (Walk.keeps_physicalChain _)
  generalize w.sentinels.physicalChain = v at hk ⊢
  obtain ⟨hsl, hfl, hheads, hb, ht, -, hmem, hrep⟩ := Walk.bitmaps_eq (hk.repair.trans hr)
  generalize v.bitmaps = u at hsl hfl hheads hb ht hmem hrep ⊢
  rw [hk.ctl] at hsl hheads hb ht
  rw [hmem]
  exact ⟨hsl, hfl, hheads, ⟨hb, ht⟩, hrep, hk.tamed⟩

/-- What a walk with repair leaves behind. -/
theorem Walk.doctorWalk_spec (hr : w.visitor.repair = true) (hbase : w.ctl.base ≠ 0) :
    SamePool w.ctl w.doctorWalk.ctl ∧
      (∀ fi < 26, w.doctorWalk.ctl.slBitmap fi = Walk.wantSl w.ctl.heads fi) ∧
      w.doctorWalk.ctl.flBitmap = Walk.wantFl w.doctorWalk.ctl.slBitmap ∧
      (∀ i < 416, w.doctorWalk.ctl.heads i = Walk.keptHead w.ctl (w.ctl.heads i)) ∧
      (w.Undisturbed → ∀ i < 416, Bounded w.ctl w.doctorWalk.mem (Walk.maxGuard w.ctl)
        (Walk.keptHead w.ctl (w.ctl.heads i))) := by
  unfold Walk.doctorWalk Walk.freeLists Walk.Undisturbed
  rw [if_neg hbase]
  obtain ⟨hsl, hfl, hheads, hpool, hrep, -⟩ := Walk.bitmaps_spec hr
  generalize w.sentinels.physicalChain.bitmaps = u at hsl hfl hheads hpool hrep ⊢
  have hkept : ∀ i, Walk.keptHead u.ctl (u.ctl.heads i) = Walk.keptHead w.ctl (w.ctl.heads i) := by
    intro i
    unfold Walk.keptHead
    simp only [hheads, hpool.inData]
  obtain ⟨hctl, -⟩ := Walk.freeLists_ctl hrep 416
  rw [hctl]
  refine ⟨⟨hpool.base, hpool.total⟩, hsl, hfl, ?_, ?_⟩
  · intro i hi
    rw [← hkept]
    exact if_pos hi
  · intro hcalm i hi
    obtain ⟨-, hbound⟩ := Walk.freeLists_spec _ _ u hrep List.nodup_range (hcalm.resolve_left hbase)
    have := hbound i (List.mem_range.2 hi)
    rwa [hpool.maxGuard, hpool.bounded, hkept] at this

/-- Only nodes off the grid can have their links stored into. -/
theorem Walk.undisturbed_of_gridded (hr : w.visitor.repair = true) (hgrid : w.Gridded) :
    w.Undisturbed := by
  obtain ⟨-, -, hheads, hpool, hrep, ht⟩ := Walk.bitmaps_spec hr
  right
  apply Walk.calmFrom_of_along _ _ _ hrep List.nodup_range (by simp)
  intro i hi
  rw [hpool.onGrid, hpool.along, hpool.maxGuard, hheads]
  exact (hgrid i (List.mem_range.1 hi)).tamed ht

/-- A list that starts at every head that the bitmaps were taken from. -/
theorem keptHead_eq (hheads : HeadsIn w.ctl) {i : ℕ} (hi : i < 416) :
    Walk.keptHead w.ctl (w.ctl.heads i) = w.ctl.heads i := by
  unfold Walk.keptHead
  rcases hheads i hi with h0 | hin
  · rw [h0, ite_self]
  · exact if_pos hin

/-- A list without a pool is left as it is; else every head has to be null or in the pool. -/
def Walk.Mendable (w : Walk) : Prop := if w.ctl.base = 0 then Sane w.ctl w.mem else HeadsIn w.ctl

/-- After a walk with repair the list is sane only if every head was null or in the pool, and if
so, as long as no link is stored into after it was followed. -/
theorem doctor_walk_sane (hr : w.visitor.repair = true) :
    (Sane w.doctorWalk.ctl w.doctorWalk.mem → w.Mendable) ∧
      (w.Undisturbed → w.Mendable → Sane w.doctorWalk.ctl w.doctorWalk.mem) := by
  unfold Walk.Mendable
  by_cases hbase : w.ctl.base = 0
  · rw [if_pos hbase, Walk.doctorWalk, if_pos hbase]
    exact ⟨id, fun _ => id⟩
  rw [if_neg hbase]
  obtain ⟨hpool, hsl, hfl, hheads, hbound⟩ := Walk.doctorWalk_spec hr hbase
  constructor
  · intro hsane i hi
    by_contra hbad
    push Not at hbad
    obtain ⟨hne, hout⟩ := hbad
    -- the bit was set from the head that the walk then dropped
    have hidx : idx (i / 16) (i % 16) = i := by
      unfold idx
      omega
    have hbit := (hsane.sl (i / 16) (by omega) (i % 16) (by omega)).1 (by
      rw [hsl _ (by omega), getLsbD_wantSl, hidx]
      exact ⟨by omega, hne⟩)
    rw [hidx, hheads i hi, Walk.keptHead, if_neg hout] at hbit
    exact hbit rfl
  · intro hcalm hin
    have hheads' : ∀ i < 416, w.doctorWalk.ctl.heads i = w.ctl.heads i := by
      intro i hi
      rw [hheads i hi, keptHead_eq hin hi]
    have hsl' : ∀ fi < 26, w.doctorWalk.ctl.slBitmap fi =
      Walk.wantSl w.doctorWalk.ctl.heads fi := by
      intro fi hfi
      rw [hsl fi hfi]
      apply BitVec.eq_of_getLsbD_eq
      intro si hsi
      rw [Bool.eq_iff_iff, getLsbD_wantSl, getLsbD_wantSl]
      constructor
      · rintro ⟨h16, hne⟩
        refine ⟨h16, ?_⟩
        rwa [hheads' _ (by unfold idx; omega)]
      · rintro ⟨h16, hne⟩
        refine ⟨h16, ?_⟩
        rwa [hheads' _ (by unfold idx; omega)] at hne
    refine ⟨?_, ?_, ?_, fun hcount mem needed hcls => findFree_ne_none hsl' hfl hcount mem hcls⟩
    · intro fi hfi si hsi
      rw [hsl' fi hfi, getLsbD_wantSl]
      exact ⟨fun h => h.2, fun h => ⟨hsi, h⟩⟩
    · intro fi hfi
      rw [hfl, getLsbD_wantFl]
      exact ⟨fun h => h.2, fun h => ⟨hfi, h⟩⟩
    · intro i hi
      rw [hpool.maxGuard, hpool.bounded, hheads i hi]
      exact hbound hcalm i hi

end Repairs

theorem Sane.second {s : TlsfList} {m : Bytes} (h : Sane s m) {i : ℕ} (hi : i < 416)
    (hhead : s.heads i ≠ 0) : nextFreeAt m (s.heads i) = 0 ∨
    s.InData (nextFreeAt m (s.heads i)) := by
  have hb := h.bounded i hi
  rw [show Walk.maxGuard s = s.total / 64 + 6 + 1 + 1 from rfl] at hb
  rcases hb with h0 | ⟨-, h0 | ⟨hin, -⟩⟩
  · exact absurd h0 hhead
  · exact Or.inl h0
  · exact Or.inr hin

/-! ## Concrete walks -/

instance instDecidableCalm (s : TlsfList) : ∀ k F m n pr, Decidable (Calm s k F m n pr)
  | 0, _, _, _, _ => isTrue trivial
  | k + 1, F, m, n, pr =>
    have := instDecidableCalm s k (n :: F) (relinked m n pr) (nextFreeAt (relinked m n pr) n) n
    inferInstanceAs (Decidable (if n = 0 then True else if s.InData n then
      (∀ y ∈ F, _ ∨ _) ∧ Calm s k (n :: F) (relinked m n pr) (nextFreeAt (relinked m n pr) n) n
      else pr ≠ 0 → ∀ y ∈ F, _ ∨ _))

instance Walk.instDecidableCalmFrom : ∀ is F w, Decidable (Walk.CalmFrom is F w)
  | [], _, _ => isTrue trivial
  | i :: is, F, w =>
    have := Walk.instDecidableCalmFrom is
      (F ++ followed w.ctl (Walk.maxGuard w.ctl) w.mem (w.ctl.heads i) 0) (w.freeList i)
    inferInstanceAs (Decidable (_ ∧ _))

instance (w : Walk) : Decidable w.Undisturbed :=
  inferInstanceAs (Decidable (_ = 0 ∨ Walk.CalmFrom _ _ _))

instance (s : TlsfList) : Decidable (HeadsIn s) :=
  Nat.decidableBallLT 416 fun i _ => s.heads i = 0 ∨ s.InData (s.heads i)

def Walk.start (heads : ℕ → ℕ) (bits : BitVec 32) (m : Bytes) : Walk where
  ctl := { TlsfList.empty with
    base := 4096
    total := 1024
    flCount := 5
    heads := heads
    flBitmap := bits
    slBitmap := fun _ => bits }
  mem := m
  visitor := ⟨true, 0, 0, [], []⟩

/-- A list with a link out of the pool and with wrong bitmaps. -/
theorem doctor_walk_sane_cut :
    let w := Walk.start (update (fun _ => 0) 0 4160) (BitVec.allOnes 32)
      (Bytes.store (fun _ => 0) 4176 8 7)
    Sane w.doctorWalk.ctl w.doctorWalk.mem :=
  (doctor_walk_sane rfl).2 (by decide +kernel) (by
    unfold Walk.Mendable
    rw [if_neg (by decide)]
    decide +kernel)

/-- Off the grid, with a back-link that is repaired. -/
example : (Walk.start (update (fun _ => 0) 0 4161) 0 (Bytes.store (fun _ => 0) 4185 8
    7)).Undisturbed := by
  decide +kernel

/-- A head out of the pool is dropped after its bit was set. And a link off the grid has its
back-link in the middle of a link that was checked before. -/
theorem doctor_walk_stale :
    (¬∀ w : Walk, w.visitor.repair = true → w.Undisturbed →
        Sane w.doctorWalk.ctl w.doctorWalk.mem) ∧
      ¬∀ w : Walk, w.visitor.repair = true → w.Mendable →
        Sane w.doctorWalk.ctl w.doctorWalk.mem := by
  constructor
  · intro hall
    have hsane := hall (Walk.start (update (fun _ => 0) 0 1) 0 fun _ => 0) rfl (by decide +kernel)
    have hbit : ((Walk.start (update (fun _ => 0) 0 1) 0 fun _ => 0).doctorWalk.ctl.slBitmap
        0).getLsbD 0 = true := by decide +kernel
    exact absurd ((hsane.sl 0 (by norm_num) 0 (by norm_num)).1 hbit) (by decide +kernel)
  · intro hall
    have hsane := hall (Walk.start (update (update (fun _ => 0) 0 4160) 1 4224) 3
      (Bytes.store (fun _ => 0) 4240 8 4156)) rfl (by
        unfold Walk.Mendable
        rw [if_neg (by decide)]
        decide +kernel)
    rcases hsane.second (show 0 < 416 by norm_num) (by decide +kernel) with h0 | hin
    · exact absurd h0 (by decide +kernel)
    · exact absurd hin (by decide +kernel)

end AbcMalloc.Tlsf
