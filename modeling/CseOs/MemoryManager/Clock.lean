import CseOs.MemoryManager.Manager
import Mathlib.Tactic.Ring

/-!
# Page copies and the clock

What the loops of the manager do: the four that go over the bytes of a page, and the clock of
`_replacePage`, which stops within two turns whenever some page is present.
-/

namespace CseOs.MemoryManager

open Framework Framework.Prog

variable {m t : MemoryManager} {v w f : Nat}

@[simp] theorem setEntry_same (g : PageTableEntry → PageTableEntry) :
    (m.setEntry v g).pageTable v = g (m.pageTable v) := Function.update_self _ _ _

theorem setEntry_other (g : PageTableEntry → PageTableEntry) (h : w ≠ v) :
    (m.setEntry v g).pageTable w = m.pageTable w := Function.update_of_ne h _ _

@[simp] theorem setFree_same (b : Bool) : (m.setFree f b).freeFrames f = b :=
  Function.update_self _ _ _

theorem setFree_other {k : Nat} (b : Bool) (h : k ≠ f) :
    (m.setFree f b).freeFrames k = m.freeFrames k := Function.update_of_ne h _ _

theorem frame_end_le (hf : f < m.frameCount) : f * m.pageSize + m.pageSize ≤ m.physicalSize := by
  have h : (f + 1) * m.pageSize ≤ m.frameCount * m.pageSize := Nat.mul_le_mul_right _ hf
  have := Nat.div_mul_le_self m.physicalSize m.pageSize
  rw [Nat.add_mul, Nat.one_mul] at h
  exact h.trans this

private theorem page_end_le (hv : v < m.pageCount) : v * m.pageSize + m.pageSize ≤ m.diskSize := by
  have h : (v + 1) * m.pageSize ≤ m.diskSize := Nat.mul_le_mul_right _ hv
  rwa [Nat.add_mul, Nat.one_mul] at h

/-- Frame `f` set to zero. -/
def wipe (f : Nat) (m : MemoryManager) : MemoryManager :=
  { m with physicalMemory := m.physicalMemory.fill (f * m.pageSize) m.pageSize 0 }

/-- Frame `f` copied to the disk room of page `v`. -/
def saveToDisk (v f : Nat) (m : MemoryManager) : MemoryManager :=
  { m with
    diskStorage :=
      m.diskStorage.blit (v * m.pageSize) m.pageSize m.physicalMemory (f * m.pageSize) }

/-- The disk room of page `v` copied to frame `f`. -/
def loadFromDisk (v f : Nat) (m : MemoryManager) : MemoryManager :=
  { m with
    physicalMemory :=
      m.physicalMemory.blit (f * m.pageSize) m.pageSize m.diskStorage (v * m.pageSize) }

/-- The disk room of page `v` set to zero. -/
def clearDisk (v : Nat) (m : MemoryManager) : MemoryManager :=
  { m with diskStorage := m.diskStorage.fill (v * m.pageSize) m.pageSize 0 }

section Loops

variable {Q : Unit → MemoryManager → Prop} {E : Exn → MemoryManager → Prop}

theorem wp_wipeMemoryFrame (hf : f < m.frameCount) (h : Q () (m.wipe f)) :
    wp (wipeMemoryFrame f) Q E m := by
  have hend := frame_end_le hf
  simp only [wipeMemoryFrame, wp_bind, wp_state, wp_raiseIf]
  rw [if_neg (by omega)]
  apply wp_loop fun i t =>
    t = { m with physicalMemory := m.physicalMemory.fill (f * m.pageSize) i 0 }
  · simp
  · rintro i t hi rfl
    have hindex : ((f : Int) * m.pageSize + i) = (f * m.pageSize + i : Nat) := by push_cast; rfl
    rw [wp_bind, hindex, wp_index_natCast (by omega), wp_update]
    simp only [storeByte, ByteStore.fill_succ]
  · rintro t rfl
    exact h

theorem wp_deletePageFromDisk (hv : v < m.pageCount) (h : Q () (m.clearDisk v)) :
    wp (deletePageFromDisk v) Q E m := by
  have hend := page_end_le hv
  simp only [deletePageFromDisk, wp_bind, wp_state]
  apply wp_loop fun i t =>
    t = { m with diskStorage := m.diskStorage.fill (v * m.pageSize) i 0 }
  · simp
  · rintro i t hi rfl
    rw [wp_bind, wp_index_natCast (by omega), wp_update]
    simp only [storeDisk, ByteStore.fill_succ]
  · rintro t rfl
    exact h

theorem wp_writePageToDisk (hv : v < m.pageCount) (hf : f < m.frameCount)
    (hpfn : (m.pageTable v).pageFrameNum = f) (h : Q () (m.saveToDisk v f)) :
    wp (writePageToDisk v) Q E m := by
  have hend := page_end_le hv
  have hfend := frame_end_le hf
  simp only [writePageToDisk, wp_bind, wp_state]
  rw [wp_index_natCast hv, hpfn]
  apply wp_loop fun i t => t = { m with
    diskStorage := m.diskStorage.blit (v * m.pageSize) i m.physicalMemory (f * m.pageSize) }
  · simp
  · rintro i t hi rfl
    have hindex : ((f : Int) * m.pageSize + i) = (f * m.pageSize + i : Nat) := by push_cast; rfl
    simp only [wp_bind, wp_state, hindex]
    have hdisk : v * m.pageSize + i < m.diskSize := by omega
    apply (wp_index_natCast hdisk).mpr
    rw [wp_index_natCast (by omega), wp_update]
    simp only [storeDisk, ByteStore.blit_succ]
  · rintro t rfl
    exact h

theorem wp_readPageFromDisk (hv : v < m.pageCount) (hf : f < m.frameCount)
    (h : Q () (m.loadFromDisk v f)) : wp (readPageFromDisk v f) Q E m := by
  have hend := page_end_le hv
  have hfend := frame_end_le hf
  simp only [readPageFromDisk, wp_bind, wp_state]
  apply wp_loop fun i t => t = { m with
    physicalMemory := m.physicalMemory.blit (f * m.pageSize) i m.diskStorage (v * m.pageSize) }
  · simp
  · rintro i t hi rfl
    have hindex : ((f : Int) * m.pageSize + i) = (f * m.pageSize + i : Nat) := by push_cast; rfl
    simp only [wp_bind, wp_state, hindex]
    have hdisk : v * m.pageSize + i < m.diskSize := by omega
    rw [wp_index_natCast (by omega)]
    apply (wp_index_natCast hdisk).mpr
    rw [wp_update]
    simp only [storeByte, ByteStore.blit_succ]
  · rintro t rfl
    exact h

end Loops

/-- The states differ in reference bits and in the place of the clock hand only. -/
structure SameButReference (m t : MemoryManager) : Prop where
  entry : ∀ v, ∃ b, t.pageTable v = { m.pageTable v with referenceBit := b }
  rest : t = { m with pageTable := t.pageTable, clockPointer := t.clockPointer }
  clock_le : t.clockPointer ≤ m.pageCount

namespace SameButReference

private theorem advance (h : m.clockPointer < m.pageCount) : SameButReference m m.advanceClock where
  entry := fun v => ⟨(m.pageTable v).referenceBit, rfl⟩
  rest := rfl
  clock_le := h

private theorem wrap (h : m.clockPointer ≤ m.pageCount) : SameButReference m m.wrapClock where
  entry := fun v => ⟨(m.pageTable v).referenceBit, by simp only [wrapClock]; split <;> rfl⟩
  rest := by
    simp only [wrapClock]
    split <;> rfl
  clock_le := by
    simp only [wrapClock]
    split
    · exact Nat.zero_le _
    · exact h

private theorem setReference (b : Bool) (h : m.clockPointer ≤ m.pageCount) :
    SameButReference m (m.setEntry v fun e => { e with referenceBit := b }) where
  entry := fun w => by
    by_cases hw : w = v
    · exact ⟨b, by rw [hw, setEntry_same]⟩
    · exact ⟨(m.pageTable w).referenceBit, by rw [setEntry_other _ hw]⟩
  rest := rfl
  clock_le := h

theorem pageCount_eq (h : SameButReference m t) : t.pageCount = m.pageCount := by
  rw [h.rest]

private theorem trans {u : MemoryManager} (h : SameButReference m t) (h' : SameButReference t u) :
    SameButReference m u where
  entry := fun v => by
    obtain ⟨b, hb⟩ := h.entry v
    obtain ⟨c, hc⟩ := h'.entry v
    exact ⟨c, by rw [hc, hb]⟩
  rest := by
    rw [h'.rest, h.rest]
  clock_le := h.pageCount_eq ▸ h'.clock_le

end SameButReference

/-- How far the hand has to move from `c` to the next pass over page `v` of `n`. -/
def clockDistance (c v n : Nat) : Nat :=
  if c = n then v else if c ≤ v then v - c else v + n - c

section Distance

variable {c n : Nat}

private theorem clockDistance_end (hv : v < n) : clockDistance n v n = clockDistance 0 v n := by
  have : ¬ 0 = n := by omega
  simp [clockDistance, this]

private theorem clockDistance_succ (hv : v < n) (hc : c < n) (hne : c ≠ v) :
    clockDistance (c + 1) v n + 1 = clockDistance c v n := by
  simp only [clockDistance]
  split_ifs <;> omega

private theorem clockDistance_self (hv : v < n) : clockDistance v v n = 0 := by
  simp only [clockDistance]
  split_ifs <;> omega

private theorem clockDistance_past (hv : v < n) : clockDistance (v + 1) v n + 1 = n := by
  simp only [clockDistance]
  split_ifs <;> omega

private theorem clockDistance_lt (hc : c ≤ n) (hv : v < n) : clockDistance c v n < n := by
  simp only [clockDistance]
  split_ifs <;> omega

end Distance

/-- A bound on the ticks before page `v` is taken out. -/
def ticksTo (m : MemoryManager) (v : Nat) : Nat :=
  clockDistance m.clockPointer v m.pageCount +
    if (m.pageTable v).referenceBit then m.pageCount else 0

@[simp] theorem wrapClock_pageTable : m.wrapClock.pageTable = m.pageTable := by
  simp only [wrapClock]
  split <;> rfl

@[simp] theorem wrapClock_pageCount : m.wrapClock.pageCount = m.pageCount := by
  simp only [wrapClock]
  split <;> rfl

private theorem wrapClock_lt (hc : m.clockPointer ≤ m.pageCount) (hv : v < m.pageCount) :
    m.wrapClock.clockPointer < m.pageCount := by
  simp only [wrapClock]
  split
  · exact Nat.zero_lt_of_lt hv
  · omega

private theorem ticksTo_wrapClock (hv : v < m.pageCount) : ticksTo m.wrapClock v = ticksTo m v := by
  simp only [ticksTo, wrapClock]
  split
  · next hend => rw [hend, clockDistance_end hv]
  · rfl

theorem ticksTo_pass (hv : v < m.pageCount) (hc : m.clockPointer < m.pageCount)
    (hne : m.clockPointer ≠ v) : ticksTo m.advanceClock v + 1 = ticksTo m v := by
  have h := clockDistance_succ hv hc hne
  show clockDistance (m.clockPointer + 1) v m.pageCount + _ + 1 = clockDistance _ v _ + _
  rw [← h]
  exact Nat.add_right_comm _ _ _

theorem ticksTo_clear (hv : v < m.pageCount) (hc : m.clockPointer = v)
    (href : (m.pageTable v).referenceBit = true) :
    ticksTo (m.setEntry v fun e => { e with referenceBit := false }).advanceClock v + 1
      = ticksTo m v := by
  have h := clockDistance_past hv
  have h' := clockDistance_self hv
  subst hc
  simp only [ticksTo, advanceClock, setEntry, Function.update_self, href, if_true]
  simp only [Bool.false_eq_true, if_false]
  omega

private theorem ticksTo_setEntry (g : PageTableEntry → PageTableEntry) (h : v ≠ w) :
    ticksTo (m.setEntry w g) v = ticksTo m v := by
  simp only [ticksTo, setEntry_other g h]
  rfl

theorem ticksTo_lt (hc : m.clockPointer ≤ m.pageCount) (hv : v < m.pageCount) :
    ticksTo m v < 2 * m.pageCount := by
  have := clockDistance_lt hc hv
  simp only [ticksTo]
  split <;> omega

/-- What the clock leaves: page `v`, not referenced when the hand came to it, is no longer
present, and nothing else changed but reference bits and the hand. -/
def TookOut (m t : MemoryManager) (v : Nat) : Prop :=
  v < m.pageCount ∧ (m.pageTable v).presentBit = true ∧
    ∃ m₁, SameButReference m m₁ ∧ t = m₁.setEntry v fun e => { e with presentBit := false }

private theorem SameButReference.tookOut {u : MemoryManager} (h : SameButReference m t)
    (ht : TookOut t u v) : TookOut m u v := by
  obtain ⟨hv, hp, m₁, hm₁, rfl⟩ := ht
  obtain ⟨b, hb⟩ := h.entry v
  rw [hb] at hp
  exact ⟨h.pageCount_eq ▸ hv, hp, m₁, h.trans hm₁, rfl⟩

theorem SameButReference.fields (h : SameButReference m t) (v : Nat) :
    (t.pageTable v).presentBit = (m.pageTable v).presentBit ∧
      (t.pageTable v).validBit = (m.pageTable v).validBit ∧
      (t.pageTable v).modifyBit = (m.pageTable v).modifyBit ∧
      (t.pageTable v).pageFrameNum = (m.pageTable v).pageFrameNum := by
  obtain ⟨b, hb⟩ := h.entry v
  rw [hb]
  exact ⟨rfl, rfl, rfl, rfl⟩

/-- The clock stops, as long as some page is present. -/
theorem wp_tick {p fuel : Nat} {E : Exn → MemoryManager → Prop} (hp : p < m.pageCount)
    (hpresent : (m.pageTable p).presentBit = true) (hc : m.clockPointer ≤ m.pageCount)
    (hfuel : ticksTo m p < fuel) :
    wp (tick fuel) (fun r t => ∃ v, TookOut m t v ∧
      r = ((m.pageTable v).pageFrameNum, v, (m.pageTable v).modifyBit)) E m := by
  induction fuel generalizing m with
  | zero => exact absurd hfuel (Nat.not_lt_zero _)
  | succ fuel ih =>
    have again : ∀ m', SameButReference m m' → ticksTo m' p < fuel →
        wp (tick fuel) (fun r t => ∃ v, TookOut m t v ∧
          r = ((m.pageTable v).pageFrameNum, v, (m.pageTable v).modifyBit)) E m' := by
      intro m' hm' hnear
      have hcount := hm'.pageCount_eq
      have hih := ih (hcount ▸ hp) ((hm'.fields p).1.trans hpresent) (hcount ▸ hm'.clock_le) hnear
      apply wp_mono_post hih
      rintro r t ⟨v, hv, rfl⟩
      refine ⟨v, hm'.tookOut hv, ?_⟩
      rw [(hm'.fields v).2.2.1, (hm'.fields v).2.2.2]
    have hw := SameButReference.wrap hc
    have hlt := wrapClock_lt hc hp
    have hticks := ticksTo_wrapClock (m := m) hp
    simp only [tick, wp_bind, wp_update, wp_state, wrapClock_pageCount, wrapClock_pageTable]
    rw [wp_index_natCast hlt]
    have htable : m.wrapClock.pageTable = m.pageTable := wrapClock_pageTable
    generalize m.wrapClock = u at hw hlt hticks htable ⊢
    have hcount := hw.pageCount_eq
    have hu : SameButReference m u.advanceClock := hw.trans (.advance (hcount ▸ hlt))
    simp only [wp_ite, wp_bind, wp_update, wp_pure]
    split
    · next hpres =>
      split
      · next href =>
        have hset : SameButReference m
            ((u.setEntry u.clockPointer fun e => { e with referenceBit := false }).advanceClock) :=
          (hw.trans (.setReference false (by omega))).trans
            (.advance (by show u.clockPointer < u.pageCount; omega))
        apply again _ hset
        by_cases hcp : u.clockPointer = p
        · have href' : (u.pageTable p).referenceBit = true := by
            rwa [htable, ← hcp]
          have := ticksTo_clear (by omega) hcp href'
          rw [hcp]
          omega
        · have h1 := ticksTo_pass (m := u.setEntry u.clockPointer fun e => { e with referenceBit := false })
            (v := p) (by show p < u.pageCount; omega) (by show u.clockPointer < u.pageCount; omega) hcp
          rw [ticksTo_setEntry _ (Ne.symm hcp)] at h1
          omega
      · next href =>
        refine ⟨u.clockPointer, ⟨hlt, hpres, u.advanceClock, hu, rfl⟩, rfl⟩
    · next hpres =>
      apply again _ hu
      have hcp : u.clockPointer ≠ p := fun h => hpres (h ▸ hpresent)
      have := ticksTo_pass (m := u) (v := p) (by omega) (by omega) hcp
      omega

end CseOs.MemoryManager
