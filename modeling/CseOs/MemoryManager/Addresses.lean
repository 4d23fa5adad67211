import CseOs.MemoryManager.Transparency
import Mathlib.Data.Nat.Bitwise

/-!
# Addresses

The page number of a virtual address is a truncated quotient and its offset is a bit mask. What the
three entry points do outside the page table is settled by the first, and whether translation is
one to one by the second.
-/

namespace CseOs.MemoryManager

open Framework Framework.Prog

variable {m t : MemoryManager} {v f pageSize numPages numFrames : Nat} {a b : Int}
  {E : Exn → MemoryManager → Prop}

theorem wp_index_iff {i : Int} {n : Nat} {Q : Nat → MemoryManager → Prop} :
    wp (index i n : Method Nat) Q E m ↔ (0 ≤ i ∧ i < n) ∧ Q i.toNat m := by
  unfold index
  split
  case isTrue h => exact ⟨fun hq => ⟨h, hq⟩, And.right⟩
  case isFalse h => exact ⟨False.elim, fun hc => h hc.1⟩

theorem tick_absent {Q : Int × Nat × Bool → MemoryManager → Prop} {fuel : Nat}
    (h : ∀ v, (m.pageTable v).presentBit = false) : ¬ wp (tick fuel) Q E m := by
  induction fuel generalizing m with
  | zero => exact id
  | succ fuel ih =>
    have hwrap : ∀ v, (m.wrapClock.pageTable v).presentBit = false := by
      rw [wrapClock_pageTable]
      exact h
    simp only [tick, wp_bind, wp_update, wp_state, wp_index_iff, hwrap]
    intro hrun
    exact ih (m := m.wrapClock.advanceClock) hwrap hrun.2

private theorem wp_replacePage_absent {Q : Int → MemoryManager → Prop}
    (h : ∀ v, (m.pageTable v).presentBit = false) : ¬ wp replacePage Q E m := by
  simp only [replacePage, wp_bind, wp_state]
  exact tick_absent h

theorem wp_access_refused {writeOperation : Bool}
    (h : ∀ v, m.PageOf a v → (m.pageTable v).validBit = false) :
    wp (virtualToPhysicalAddress a writeOperation) (fun _ _ => False) (fun _ t => t = m) m := by
  simp only [virtualToPhysicalAddress, wp_bind, wp_state, wp_raiseIf]
  cases pageOf_cases m a with
  | inl hout =>
    rw [if_pos hout]
    trivial
  | inr hex =>
    obtain ⟨v, hv⟩ := hex
    rw [hv.1, if_neg hv.not_out, wp_index_natCast hv.2, if_pos (by simp [h v hv])]

private theorem wp_delete_refused (h : ∀ v, m.PageOf a v → (m.pageTable v).validBit = false) :
    wp (deletePageTableEntry a) (fun _ _ => False) (fun _ t => t = m) m := by
  simp only [deletePageTableEntry, wp_bind, wp_state, wp_raiseIf]
  cases pageOf_cases m a with
  | inl hout =>
    rw [if_pos hout]
    trivial
  | inr hex =>
    obtain ⟨v, hv⟩ := hex
    rw [hv.1, if_neg hv.not_out, wp_index_natCast hv.2, if_pos (by simp [h v hv])]

/-- The calls that go to a virtual address. -/
inductive Call.Accesses (a : Int) : Call → Prop where
  | write (data : UInt8) : Call.Accesses a (.writeVirtualMemory a data)
  | read : Call.Accesses a (.readVirtualMemory a)
  | delete : Call.Accesses a (.deletePageTableEntry a)

private theorem Call.Accesses.wp_refused {c : Call} (hc : c.Accesses a)
    (h : ∀ v, m.PageOf a v → (m.pageTable v).validBit = false) :
    wp c.perform (fun _ _ => False) (fun _ t => t = m) m := by
  cases hc with
  | write data =>
    simp only [Call.perform, MemoryManager.writeVirtualMemory, wp_bind]
    exact wp_mono_post (wp_access_refused h) fun _ _ hf => hf.elim
  | read =>
    simp only [Call.perform, MemoryManager.readVirtualMemory, wp_bind]
    exact wp_mono_post (wp_access_refused h) fun _ _ hf => hf.elim
  | delete =>
    simp only [Call.perform, wp_bind]
    exact wp_mono_post (wp_delete_refused h) fun _ _ hf => hf.elim

theorem eq_of_run {α : Type} {x : Method α} {r : Except Exn α}
    (h : wp x (fun _ t => t = m) (fun _ t => t = m) m) (hrun : x m = some (r, t)) : t = m := by
  obtain ⟨r', t', hrun', ht⟩ := wp_elim h
  rw [hrun] at hrun'
  cases hrun'
  cases r <;> exact ht

theorem allocate_noFrames {r : Except Exn Value} (hframes : m.frameCount = 0)
    (habsent : ∀ v, (m.pageTable v).presentBit = false)
    (hrun : Call.allocateAnyPage.perform m = some (r, t)) : t = m := by
  cases firstIndex_cases m.pageCount fun i => !(m.pageTable i).validBit with
  | inl hnone =>
    apply eq_of_run _ hrun
    simp only [Call.perform, allocateAnyPage, wp_bind, wp_state, wp_raiseIf, if_pos hnone.1]
  | inr hsome =>
    obtain ⟨v, hv, hfirst, _⟩ := hsome
    have hwp : wp Call.allocateAnyPage.perform (fun _ _ => True) (fun _ _ => True) m := by
      unfold wp
      rw [hrun]
      cases r <;> trivial
    have hfree : firstIndex 0 m.freeFrames = -1 := rfl
    have hvpn : ¬ (firstIndex m.pageCount fun i => !(m.pageTable i).validBit) = -1 := by omega
    simp only [Call.perform, allocateAnyPage, takeFrame, wp_bind, wp_state, wp_raiseIf,
      if_neg hvpn, hframes, hfree, if_true] at hwp
    exact absurd hwp (wp_replacePage_absent habsent)

theorem step_noFrames (h : Step (new pageSize numPages 0) t) : t = new pageSize numPages 0 := by
  obtain ⟨c, r, hrun⟩ := h
  have haccess (a : Int) (hc : c.Accesses a) : t = new pageSize numPages 0 :=
    eq_of_run (wp_mono_post (hc.wp_refused fun _ _ => rfl) fun _ _ hf => hf.elim) hrun
  cases c with
  | allocateAnyPage =>
    have hframes : (new pageSize numPages 0).frameCount = 0 := by
      show 0 * pageSize / pageSize = 0
      rw [Nat.zero_mul, Nat.zero_div]
    exact allocate_noFrames hframes (fun _ => rfl) hrun
  | writeVirtualMemory a data => exact haccess a (.write data)
  | readVirtualMemory a => exact haccess a .read
  | deletePageTableEntry a => exact haccess a .delete
  | printPageTableEntry a =>
    apply eq_of_run _ hrun
    simp only [Call.perform, wp_bind, wp_pure]
    exact wp_mono (wp_printPageTableEntry a) (fun _ _ ht => ht) fun _ _ ht => ht.1

theorem ReachableFrom.cases (hp : 0 < pageSize) (h : ReachableFrom pageSize numPages numFrames m) :
    0 < numFrames ∧ m.FrameTable ∨ numFrames = 0 ∧ m = new pageSize numPages 0 := by
  by_cases hf : 0 < numFrames
  · exact .inl ⟨hf, h.frameTable hp hf⟩
  · have h0 : numFrames = 0 := by omega
    subst h0
    refine .inr ⟨rfl, ?_⟩
    apply Reachable.invariant (P := (· = new pageSize numPages 0)) (fun _ hs => hs) _ h.reached
    intro s t _ hs hstep
    exact step_noFrames (hs ▸ hstep)

/-- The call throws and changes nothing. -/
def Rejects (m : MemoryManager) (c : Call) : Prop := ∃ e, c.perform m = some (.error e, m)

private theorem tdiv_neg_natCast (k p : Nat) : (-(k : Int)).tdiv p = -((k / p : Nat) : Int) := by
  rw [Int.neg_tdiv, ← Int.ofNat_tdiv]

theorem PageOf.of_outOfRange (hp : 0 < m.pageSize) (h : m.PageOf a v)
    (hout : a < 0 ∨ (m.pageCount * m.pageSize : Nat) ≤ a) :
    -(m.pageSize : Int) < a ∧ a < 0 ∧ v = 0 := by
  obtain ⟨hdiv, hv⟩ := h
  cases hout with
  | inl hneg =>
    obtain ⟨k, hk⟩ := Int.exists_eq_neg_ofNat (Int.le_of_lt hneg)
    rw [hk, tdiv_neg_natCast] at hdiv
    generalize hq : k / m.pageSize = q at hdiv
    have hzero : k / m.pageSize = 0 := by omega
    have hlt := (Nat.div_eq_zero_iff_lt hp).mp hzero
    omega
  | inr hge =>
    obtain ⟨k, rfl⟩ := Int.eq_ofNat_of_zero_le (Int.le_trans (Int.natCast_nonneg _) hge)
    rw [← Int.ofNat_tdiv] at hdiv
    have hle := (Nat.le_div_iff_mul_le hp).mpr (Int.ofNat_le.mp hge)
    omega

theorem pageOf_negative (hlow : -(m.pageSize : Int) < a) (hneg : a < 0) (h0 : 0 < m.pageCount) :
    m.PageOf a 0 := by
  obtain ⟨k, rfl⟩ := Int.exists_eq_neg_ofNat (Int.le_of_lt hneg)
  refine ⟨?_, h0⟩
  rw [tdiv_neg_natCast, Nat.div_eq_of_lt (by omega)]
  rfl

private theorem rejects_of_wp {c : Call} (h : wp c.perform (fun _ _ => False) (fun _ t => t = m) m) :
    m.Rejects c := by
  obtain ⟨r, t, hrun, ht⟩ := wp_elim h
  cases r with
  | ok b => exact ht.elim
  | error e =>
    rw [show t = m from ht] at hrun
    exact ⟨e, hrun⟩

theorem PageOf.unique {w : Nat} (h : m.PageOf a v) (h' : m.PageOf a w) : v = w :=
  Int.ofNat.inj (h.1.symm.trans h'.1)

theorem not_rejects_read (h : m.FrameTable) (hv : m.PageOf a v)
    (hvalid : (m.pageTable v).validBit = true) : ¬ m.Rejects (.readVirtualMemory a) := by
  intro hrej
  obtain ⟨e, hrun⟩ := hrej
  have hread : wp (Call.readVirtualMemory a).perform (fun _ _ => True) (fun _ _ => False) m := by
    simp only [Call.perform, wp_bind, wp_pure]
    apply wp_mono (wp_readVirtualMemory h a)
    · exact fun _ _ _ => trivial
    · intro e t he
      cases he.2 with
      | outOfBound hout => exact hv.not_out (hv.1 ▸ hout)
      | invalid hw hinvalid =>
        rw [← hv.unique hw, hvalid] at hinvalid
        cases hinvalid
  rw [wp_of_error hrun] at hread
  exact hread

/-- Page 0 in use -/
def UsesFirstPage (m : MemoryManager) : Prop :=
  0 < m.pageCount ∧ (m.pageTable 0).validBit = true

private theorem ReachableFrom.rejects_iff (hp : 0 < pageSize)
    (h : ReachableFrom pageSize numPages numFrames m)
    (hout : a < 0 ∨ (m.pageCount * m.pageSize : Nat) ≤ a) :
    (∀ c : Call, c.Accesses a → m.Rejects c) ↔
      ¬ (-(m.pageSize : Int) < a ∧ a < 0 ∧ m.UsesFirstPage) := by
  have hpos : 0 < m.pageSize := by
    cases h.cases hp with
    | inl hframes => exact hframes.2.pageSize_pos
    | inr hnew => exact hnew.2 ▸ hp
  constructor
  · intro hrej hbad
    obtain ⟨hlow, hneg, h0, hvalid⟩ := hbad
    cases h.cases hp with
    | inl hframes =>
      have hpage := pageOf_negative hlow hneg h0
      exact not_rejects_read hframes.2 hpage hvalid (hrej _ .read)
    | inr hnew =>
      rw [hnew.2] at hvalid
      cases hvalid
  · intro hgood c hc
    apply rejects_of_wp (hc.wp_refused fun v hv => ?_)
    obtain ⟨hlow, hneg, rfl⟩ := hv.of_outOfRange hpos hout
    by_contra hvalid
    exact hgood ⟨hlow, hneg, hv.2, by simpa using hvalid⟩

/-- Outside the page table every entry point throws without effect, but for the addresses just below
0 while page 0 is in use. -/
theorem outOfRange_rejected_iff (hp : 0 < pageSize)
    (h : ReachableFrom pageSize numPages numFrames m)
    (hout : a < 0 ∨ (m.pageCount * m.pageSize : Nat) ≤ a) :
    (∀ c : Call, c.Accesses a → m.Rejects c) ↔
      ¬ (-(m.pageSize : Int) < a ∧ a < 0 ∧ m.UsesFirstPage) :=
  h.rejects_iff hp hout

theorem outOfRange_rejected_end : (new 4 2 1).Rejects (.readVirtualMemory 8) :=
  (@outOfRange_rejected_iff (new 4 2 1) 4 2 1 8 (by decide) (.start ⟨by decide, by decide, by decide⟩)
    (.inr (by decide))).mpr (fun hbad => absurd hbad.2.1 (by decide)) _ (.read (a := 8))

private theorem reachable_allocated : ReachableFrom 4 2 1 ((new 4 2 1).assign 0 0) := by
  have hstart : ReachableFrom 4 2 1 (new 4 2 1) := .start ⟨by decide, by decide, by decide⟩
  exact hstart.next ⟨.allocateAnyPage, .ok (.address 0), rfl⟩

/-- Address -1 is taken for the last byte of page 0. -/
theorem minus_one_accepted : ¬ ∀ pageSize numPages numFrames m, 0 < pageSize →
    ReachableFrom pageSize numPages numFrames m → ∀ a : Int,
    (a < 0 ∨ (m.pageCount * m.pageSize : Nat) ≤ a) → ∀ c : Call, c.Accesses a → m.Rejects c := by
  intro hall
  have hrej := hall 4 2 1 _ (by decide) reachable_allocated (-1) (.inl (by decide))
  have hcond := (reachable_allocated.rejects_iff (by decide) (.inl (by decide))).mp hrej
  exact hcond ⟨by decide, by decide, by decide, rfl⟩

private theorem Translates.sizes {w : Bool} {x : Nat} (h : Translates m t a w x) : SameSizes m t := by
  obtain ⟨_, _, _, _, _, ht₁, _, _, rfl, _⟩ := h
  exact ht₁.sizes.trans ⟨rfl, rfl, rfl⟩

private theorem Deletes.sizes (h : Deletes m v t) : SameSizes m t := by
  cases h <;> exact ⟨rfl, rfl, rfl⟩

private theorem SameSizes.refl (m : MemoryManager) : SameSizes m m := ⟨rfl, rfl, rfl⟩

theorem wp_perform_sizes (h : m.FrameTable) (c : Call) :
    wp c.perform (fun _ t => SameSizes m t) (fun _ t => SameSizes m t) m := by
  have hthrown {P : Exn → Prop} (e : Exn) (t : MemoryManager) (ht : t = m ∧ P e) :
      SameSizes m t := ht.1 ▸ .refl m
  cases c with
  | allocateAnyPage =>
    simp only [Call.perform, wp_bind, wp_pure]
    apply wp_mono (wp_allocateAnyPage h) _ hthrown
    intro _ t ht
    obtain ⟨v, _, hv⟩ := ht
    obtain ⟨f, m₁, hm₁, rfl⟩ := hv.how
    exact hm₁.sizes.trans ⟨rfl, rfl, rfl⟩
  | writeVirtualMemory a data =>
    simp only [Call.perform, wp_bind, wp_pure]
    apply wp_mono (wp_writeVirtualMemory h a data) _ hthrown
    intro _ t ht
    obtain ⟨_, t₁, ht₁, rfl⟩ := ht
    exact ht₁.sizes.trans ⟨rfl, rfl, rfl⟩
  | readVirtualMemory a =>
    simp only [Call.perform, wp_bind, wp_pure]
    apply wp_mono (wp_readVirtualMemory h a) _ hthrown
    intro _ t ht
    obtain ⟨_, ht₁, _⟩ := ht
    exact ht₁.sizes
  | deletePageTableEntry a =>
    simp only [Call.perform, wp_bind, wp_pure]
    apply wp_mono (wp_deletePageTableEntry h a) _ hthrown
    intro _ t ht
    obtain ⟨_, _, _, hdel⟩ := ht
    exact hdel.sizes
  | printPageTableEntry a =>
    simp only [Call.perform, wp_bind, wp_pure]
    apply wp_mono (wp_printPageTableEntry a) _ hthrown
    intro _ t ht
    exact ht ▸ .refl m

private theorem ReachableFrom.sizes (hp : 0 < pageSize) (h : ReachableFrom pageSize numPages numFrames m) :
    SameSizes (new pageSize numPages numFrames) m := by
  apply Reachable.invariant (P := SameSizes (new pageSize numPages numFrames)) _ _ h.reached
  · rintro s rfl
    exact .refl _
  · intro s t hs hsizes hstep
    have hs' : ReachableFrom pageSize numPages numFrames s := ⟨h.fits, hs⟩
    cases hs'.cases hp with
    | inl hframes =>
      obtain ⟨c, r, hrun⟩ := hstep
      obtain ⟨r', t', hrun', ht'⟩ := wp_elim (wp_perform_sizes hframes.2 c)
      rw [hrun] at hrun'
      cases hrun'
      apply hsizes.trans
      cases r <;> exact ht'
    | inr hnew =>
      obtain ⟨rfl, rfl⟩ := hnew
      rw [step_noFrames hstep]
      exact .refl _

/-- An address in the page table, as an `int`, whose page is in memory. -/
structure InMemory (m : MemoryManager) (a : Int) : Prop where
  nonneg : 0 ≤ a
  lt : a < (m.pageCount * m.pageSize : Nat)
  int : a < 2 ^ 31
  present : (m.pageTable (a.toNat / m.pageSize)).presentBit = true

/-- The physical address `x` is in the frame of page `v`. -/
def InFrame (m : MemoryManager) (v : Nat) (x : Int) : Prop :=
  (m.pageTable v).pageFrameNum * m.pageSize ≤ x ∧
    x < (m.pageTable v).pageFrameNum * m.pageSize + m.pageSize

/-- Distinct addresses in memory have distinct physical addresses, each in the frame of its page. -/
def TranslatesInjectively (m : MemoryManager) : Prop :=
  ∀ a b, m.InMemory a → m.InMemory b → a ≠ b → ∀ writeA writeB, ∃ x y t u,
    virtualToPhysicalAddress a writeA m = some (.ok x, t) ∧
    virtualToPhysicalAddress b writeB m = some (.ok y, u) ∧ x ≠ y ∧
    m.InFrame (a.toNat / m.pageSize) x ∧ m.InFrame (b.toNat / m.pageSize) y

theorem FrameTable.translate (h : m.FrameTable) (ha : m.InMemory a) (w : Bool) :
    ∃ f t, m.Owns (a.toNat / m.pageSize) f ∧ virtualToPhysicalAddress a w m =
      some (.ok (f * m.pageSize + pageOffset a m.pageSize : Nat), t) := by
  obtain ⟨r, t, hrun, ht⟩ := wp_elim (wp_virtualToPhysicalAddress h a w)
  have hpage := pageOf_of_inRange ha.nonneg ha.lt
  have hvalid := (h.present _ hpage.2 ha.present).1
  cases r with
  | error e =>
    cases ht.2 with
    | outOfBound hout => exact absurd (hpage.1 ▸ hout) hpage.not_out
    | invalid hv hinvalid =>
      rw [← hpage.unique hv, hvalid] at hinvalid
      cases hinvalid
  | ok x =>
    obtain ⟨n, rfl, v, f, t₁, hv, _, hready, hown, _, _, rfl⟩ := ht
    have hve := hpage.unique hv
    subst hve
    cases hready.how with
    | inl hsame =>
      rw [hsame.2] at hown
      exact ⟨f, t, hown, hrun⟩
    | inr hload =>
      rw [ha.present] at hload
      cases hload.1

private theorem Owns.inFrame {w : Nat} {o : Nat} (h : m.Owns w f) (ho : o < m.pageSize) :
    m.InFrame w (f * m.pageSize + o : Nat) := by
  rw [InFrame, h.2.2]
  push_cast
  omega

theorem frame_address_inj {p g o o' : Nat} (ho : o < p) (ho' : o' < p)
    (h : f * p + o = g * p + o') : f = g ∧ o = o' := by
  have hdiv := congrArg (· / p) h
  have hmod := congrArg (· % p) h
  have hp : 0 < p := Nat.zero_lt_of_lt ho
  simp only [Nat.mul_comm _ p, Nat.mul_add_div hp, Nat.mul_add_mod, Nat.div_eq_of_lt ho,
    Nat.div_eq_of_lt ho', Nat.mod_eq_of_lt ho, Nat.mod_eq_of_lt ho', Nat.add_zero] at hdiv hmod
  exact ⟨hdiv, hmod⟩

theorem FrameTable.translatesInjectively {k : Nat} (h : m.FrameTable) (hk : k ≤ 32)
    (hsize : m.pageSize = 2 ^ k) : m.TranslatesInjectively := by
  intro a b ha hb hab writeA writeB
  obtain ⟨f, t, hown, hrun⟩ := h.translate ha writeA
  obtain ⟨g, u, hown', hrun'⟩ := h.translate hb writeB
  have hoff := pageOffset_lt a h.pageSize_pos
  have hoff' := pageOffset_lt b h.pageSize_pos
  refine ⟨_, _, t, u, hrun, hrun', fun heq => hab ?_, hown.inFrame hoff, hown'.inFrame hoff'⟩
  obtain ⟨hframe, hoffset⟩ := frame_address_inj hoff hoff' (Int.ofNat.inj heq)
  have hpage : a.toNat / m.pageSize = b.toNat / m.pageSize :=
    h.unique _ _ f hown (hframe ▸ hown')
  have ha31 := ha.int
  have hb31 := hb.int
  rw [hsize, pageOffset_eq_mod ha.nonneg (by omega) hk,
    pageOffset_eq_mod hb.nonneg (by omega) hk, ← hsize] at hoffset
  have hnat : a.toNat = b.toNat := by
    rw [← Nat.div_add_mod a.toNat m.pageSize, ← Nat.div_add_mod b.toNat m.pageSize, hpage, hoffset]
  have ha0 := ha.nonneg
  have hb0 := hb.nonneg
  omega

theorem exists_missing_bit {n : Nat} (hn : 0 < n) (hpow : ∀ k, n ≠ 2 ^ k) :
    ∃ i, 2 ^ i < n ∧ 2 ^ i &&& (n - 1) = 0 := by
  have hlow : 2 ^ n.log2 ≤ n := Nat.log2_self_le (by omega)
  have hhigh : n < 2 ^ (n.log2 + 1) := Nat.lt_log2_self
  have hne := hpow n.log2
  have hne' := hpow (n.log2 + 1)
  by_contra hall
  have hbit : ∀ i < n.log2 + 1, (n - 1).testBit i = true := by
    intro i hi
    have hle : 2 ^ i ≤ 2 ^ n.log2 := Nat.pow_le_pow_right (by decide) (by omega)
    by_contra hno
    apply hall
    refine ⟨i, by omega, ?_⟩
    rw [Nat.two_pow_and, show (n - 1).testBit i = false by simpa using hno]
    exact Nat.mul_zero _
  have hones : n - 1 = 2 ^ (n.log2 + 1) - 1 := by
    apply Nat.eq_of_testBit_eq
    intro i
    rw [Nat.testBit_two_pow_sub_one]
    by_cases hi : i < n.log2 + 1
    · rw [hbit i hi, decide_eq_true hi]
    · have hle : 2 ^ (n.log2 + 1) ≤ 2 ^ i := Nat.pow_le_pow_right (by decide) (by omega)
      rw [Nat.testBit_lt_two_pow (by omega), decide_eq_false hi]
  omega

private theorem pageOffset_missing {n i : Nat} (hn : n < 2 ^ 31) (hi : 2 ^ i < n)
    (h : 2 ^ i &&& (n - 1) = 0) : pageOffset (2 ^ i : Nat) n = 0 := by
  rw [pageOffset, BitVec.toNat_and, BitVec.ofInt_natCast, BitVec.toNat_ofNat, BitVec.toNat_ofNat,
    Nat.mod_eq_of_lt (by omega), Nat.mod_eq_of_lt (by omega), h]

private theorem pageOffset_zero (n : Nat) : pageOffset (0 : Nat) n = 0 := by
  simp [pageOffset]

theorem FrameTable.not_translatesInjectively (h : m.FrameTable) (h31 : m.pageSize < 2 ^ 31)
    (hpow : ∀ k, m.pageSize ≠ 2 ^ k) (h0 : 0 < m.pageCount)
    (hpresent : (m.pageTable 0).presentBit = true) : ¬ m.TranslatesInjectively := by
  obtain ⟨i, hi, hbit⟩ := exists_missing_bit h.pageSize_pos hpow
  have hle : m.pageSize ≤ m.pageCount * m.pageSize := Nat.le_mul_of_pos_left _ h0
  have hmem {x : Nat} (hx : x < m.pageSize) : m.InMemory x := by
    refine ⟨Int.natCast_nonneg x, by omega, by omega, ?_⟩
    rw [Int.toNat_natCast, Nat.div_eq_of_lt hx]
    exact hpresent
  have hone : 0 < 2 ^ i := Nat.two_pow_pos i
  intro hinj
  have hzero : m.InMemory ((0 : Nat) : Int) := hmem h.pageSize_pos
  obtain ⟨x, y, t, u, hrun, hrun', hxy, _⟩ :=
    hinj _ _ hzero (hmem hi) (by omega) false false
  obtain ⟨f, t', hown, hrunf⟩ := h.translate hzero false
  obtain ⟨g, u', hown', hrung⟩ := h.translate (hmem hi) false
  rw [Int.toNat_natCast, Nat.div_eq_of_lt hi] at hown'
  rw [Int.toNat_natCast, Nat.zero_div] at hown
  have hfg : (f : Int) = g := hown.2.2.symm.trans hown'.2.2
  rw [hrun, pageOffset_zero] at hrunf
  rw [hrun', pageOffset_missing h31 hi hbit] at hrung
  cases hrunf
  cases hrung
  apply hxy
  push_cast
  rw [hfg]

private theorem reachable_first_page (hp : 0 < pageSize) (hfit : SizesFit pageSize numPages numFrames) (hn : 0 < numPages)
    (hf : 0 < numFrames) : ∃ m, ReachableFrom pageSize numPages numFrames m ∧ (m.pageTable 0).presentBit = true := by
  have hstart : ReachableFrom pageSize numPages numFrames (new pageSize numPages numFrames) := .start hfit
  have halloc : wp Call.allocateAnyPage.perform
      (fun _ t => (t.pageTable 0).presentBit = true) (fun _ _ => False)
      (new pageSize numPages numFrames) := by
    simp only [Call.perform, wp_bind, wp_pure]
    apply wp_mono (wp_allocateAnyPage (frameTable_new hp hf))
    · intro _ t ht
      obtain ⟨v, _, hv⟩ := ht
      have hv0 : v = 0 := by
        by_contra hne
        cases hv.lowest 0 (Nat.pos_of_ne_zero hne)
      obtain ⟨f, m₁, _, rfl⟩ := hv.how
      have hentry := setEntry_same (m := m₁) (v := 0) fun e =>
        { e with validBit := true, pageFrameNum := f, presentBit := true }
      rw [hv0]
      exact congrArg PageTableEntry.presentBit hentry
    · intro e t ht
      cases ht.2.1 0 hn
  obtain ⟨r, t, hrun, ht⟩ := wp_elim halloc
  cases r with
  | error e => exact ht.elim
  | ok a => exact ⟨t, hstart.next ⟨_, _, hrun⟩, ht⟩

private theorem translation_iff (hp : 0 < pageSize) (hfit : SizesFit pageSize numPages numFrames) :
    (∀ m, ReachableFrom pageSize numPages numFrames m → m.TranslatesInjectively) ↔
      (∃ k, pageSize = 2 ^ k) ∨ numPages = 0 ∨ numFrames = 0 := by
  constructor
  · intro hall
    by_contra hno
    obtain ⟨m, hm, hpresent⟩ :=
      @reachable_first_page pageSize numPages numFrames hp hfit (by omega) (by omega)
    have hsizes := hm.sizes hp
    have hcount : m.pageCount = numPages := hsizes.pageCount
    have hsize : m.pageSize = pageSize := hsizes.pageSize
    have hframes := hm.frameTable hp (by omega)
    apply hframes.not_translatesInjectively (hsize ▸ hfit.page) _ (by omega) hpresent (hall m hm)
    intro k hk
    exact hno (.inl ⟨k, hsize.symm.trans hk⟩)
  · intro hcond m hm a b ha
    have hsizes := hm.sizes hp
    cases hm.cases hp with
    | inr hnew =>
      have hpresent := ha.present
      rw [hnew.2] at hpresent
      cases hpresent
    | inl hframes =>
      obtain ⟨hf, hframes⟩ := hframes
      by_cases hn : numPages = 0
      · have hcount : m.pageCount = 0 := hsizes.pageCount.trans hn
        have hlt := ha.lt
        have hnonneg := ha.nonneg
        rw [hcount, Nat.zero_mul] at hlt
        omega
      · obtain ⟨k, hk⟩ : ∃ k, pageSize = 2 ^ k := by
          cases hcond with
          | inl hk => exact hk
          | inr hempty => omega
        have hk32 : k ≤ 32 := by
          have h31 := hfit.page
          rw [hk] at h31
          have hlt := (Nat.pow_lt_pow_iff_right (by decide : 1 < 2)).mp h31
          omega
        exact hframes.translatesInjectively hk32 (hsizes.pageSize.trans hk) a b ha

/-- Address translation is one to one, in every reachable state, if and only if the page size is a
power of two or nothing can be in memory. -/
theorem translation_injective_iff (hp : 0 < pageSize) (hfit : SizesFit pageSize numPages numFrames) :
    (∀ m, ReachableFrom pageSize numPages numFrames m → m.TranslatesInjectively) ↔
      (∃ k, pageSize = 2 ^ k) ∨ numPages = 0 ∨ numFrames = 0 :=
  translation_iff hp hfit

theorem translation_injective_four :
    ((new 4 2 1).assign 0 0).TranslatesInjectively :=
  (translation_injective_iff (by decide) ⟨by decide, by decide, by decide⟩).mpr (.inl ⟨2, rfl⟩) _
    reachable_allocated

/-- With pages of 6 bytes, addresses 0 and 2 fall together. -/
theorem translation_not_injective : ¬ ∀ pageSize numPages numFrames, 0 < pageSize →
    SizesFit pageSize numPages numFrames → 2 ∣ pageSize →
    ∀ m, ReachableFrom pageSize numPages numFrames m → m.TranslatesInjectively := by
  intro hall
  have hfit : SizesFit 6 1 1 := ⟨by decide, by decide, by decide⟩
  have hcond := (translation_iff (by decide) hfit).mp (hall 6 1 1 (by decide) hfit (by decide))
  obtain ⟨k, hk⟩ : ∃ k, 6 = 2 ^ k := by
    cases hcond with
    | inl hk => exact hk
    | inr hempty => omega
  match k with
  | 0 => omega
  | 1 => omega
  | 2 => omega
  | k + 3 =>
    rw [Nat.pow_add] at hk
    omega

end CseOs.MemoryManager
