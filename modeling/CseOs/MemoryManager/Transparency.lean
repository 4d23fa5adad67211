import CseOs.MemoryManager.Methods

/-!
# Memory transparency

A flat memory, with a valid bit for each page and a byte for each virtual address, is what the
users of the manager see: it knows nothing of frames, of the disk or of replacement. A run of
the manager gives what the same calls give on the flat memory, for any number of frames, as
long as no page is deleted in memory while its disk copy still holds data.
-/

namespace CseOs.MemoryManager

open Framework Framework.Prog

/-- The memory without paging. -/
structure FlatMemory where
  valid : Nat → Bool
  byte : ByteStore

namespace FlatMemory

def empty : FlatMemory where
  valid := fun _ => false
  byte := fun _ => 0

/-- What a call returns and does on a flat memory of `numPages` pages: a page that is
allocated holds zeros, and a byte keeps what was last written there. -/
def perform (pageSize numPages : Nat) : Call → FlatMemory → Except Exn Value × FlatMemory
  | .allocateAnyPage, s =>
    match (List.range numPages).find? fun v => !s.valid v with
    | none => (.error (.runtimeError "No free pages available for allocation"), s)
    | some v => (.ok (.address (v * pageSize)),
        { valid := Function.update s.valid v true, byte := s.byte.fill (v * pageSize) pageSize 0 })
  | .writeVirtualMemory a b, s =>
    if s.valid (a.toNat / pageSize) then
      (.ok .void, { s with byte := Function.update s.byte a.toNat b })
    else (.error segmentationFault, s)
  | .readVirtualMemory a, s =>
    if s.valid (a.toNat / pageSize) then (.ok (.byte (s.byte a.toNat)), s)
    else (.error segmentationFault, s)
  | .deletePageTableEntry a, s =>
    if s.valid (a.toNat / pageSize) then
      (.ok .void, { s with valid := Function.update s.valid (a.toNat / pageSize) false })
    else (.error (.logicError "Attempted to delete an invalid page"), s)
  | .printPageTableEntry _, s => (.ok .void, s)

def results (pageSize numPages : Nat) : List Call → FlatMemory → List (Except Exn Value)
  | [], _ => []
  | c :: cs, s =>
    (perform pageSize numPages c s).1 :: results pageSize numPages cs (perform pageSize numPages c s).2

end FlatMemory

/-- The results of a sequence of calls, each of which returned or threw. -/
def results : List Call → MemoryManager → Option (List (Except Exn Value))
  | [], _ => some []
  | c :: cs, m =>
    match c.perform m with
    | none => none
    | some (r, t) => (results cs t).map (r :: ·)

/-- The address a call is given lies in the page table. -/
def Call.InRange (size : Nat) : Call → Prop
  | .allocateAnyPage => True
  | .writeVirtualMemory a _ => 0 ≤ a ∧ a < size
  | .readVirtualMemory a => 0 ≤ a ∧ a < size
  | .deletePageTableEntry a => 0 ≤ a ∧ a < size
  | .printPageTableEntry a => 0 ≤ a ∧ a < size

/-- The call does not delete a present page whose disk copy holds a nonzero byte. -/
def DeletesClean (m : MemoryManager) : Call → Prop
  | .deletePageTableEntry a => ∀ v, m.PageOf a v → (m.pageTable v).presentBit = true →
      ∀ o < m.pageSize, m.diskStorage (v * m.pageSize + o) = 0
  | _ => True

/-- Every call of the sequence deletes clean in the state it is made in. -/
def RunsClean : List Call → MemoryManager → Prop
  | [], _ => True
  | c :: cs, m => DeletesClean m c ∧ ∀ r t, c.perform m = some (r, t) → RunsClean cs t

/-- The paged memory holds what the flat memory does. -/
structure Stored (m : MemoryManager) (s : FlatMemory) : Prop where
  valid : ∀ v < m.pageCount, (m.pageTable v).validBit = s.valid v
  present : ∀ v f, m.Owns v f → ∀ o < m.pageSize,
    m.physicalMemory (f * m.pageSize + o) = s.byte (v * m.pageSize + o)
  absent : ∀ v < m.pageCount, s.valid v = true → (m.pageTable v).presentBit = false →
    ∀ o < m.pageSize, m.diskStorage (v * m.pageSize + o) = s.byte (v * m.pageSize + o)
  unmodified : ∀ v f, m.Owns v f → (m.pageTable v).modifyBit = false → ∀ o < m.pageSize,
    m.diskStorage (v * m.pageSize + o) = m.physicalMemory (f * m.pageSize + o)
  free : ∀ f < m.frameCount, m.freeFrames f = true → ∀ o < m.pageSize,
    m.physicalMemory (f * m.pageSize + o) = 0
  invalid : ∀ v < m.pageCount, s.valid v = false → (m.pageTable v).modifyBit = false ∧
    ∀ o < m.pageSize, m.diskStorage (v * m.pageSize + o) = 0

variable {m t : MemoryManager} {s : FlatMemory} {v w f g : Nat}

private theorem stored_new (pageSize numPages numFrames : Nat) :
    (new pageSize numPages numFrames).Stored .empty where
  valid := fun _ _ => rfl
  present := fun v f h => by simp [new, Owns] at h
  absent := fun v _ h => by simp [FlatMemory.empty] at h
  unmodified := fun v f h => by simp [new, Owns] at h
  free := fun _ _ _ _ _ => rfl
  invalid := fun _ _ _ => ⟨rfl, fun _ _ => rfl⟩

section Pages

variable {p i j o : Nat} {b : ByteStore}

private theorem page_outside (h : i ≠ j) (ho : o < p) : i * p + o < j * p ∨ j * p + p ≤ i * p + o := by
  cases Nat.lt_or_gt_of_ne h with
  | inl hlt =>
    left
    have := Nat.mul_le_mul_right p hlt
    rw [Nat.succ_mul] at this
    omega
  | inr hgt =>
    right
    have := Nat.mul_le_mul_right p hgt
    rw [Nat.succ_mul] at this
    omega

private theorem fill_page_self (ho : o < p) : b.fill (i * p) p 0 (i * p + o) = 0 :=
  ByteStore.fill_of_inside (by omega) (by omega)

theorem fill_page_other (h : i ≠ j) (ho : o < p) : b.fill (j * p) p 0 (i * p + o) = b (i * p + o) :=
  ByteStore.fill_of_outside (page_outside h ho)

private theorem blit_page_other {src : ByteStore} {c : Nat} (h : i ≠ j) (ho : o < p) :
    b.blit (j * p) p src c (i * p + o) = b (i * p + o) :=
  ByteStore.blit_of_outside (page_outside h ho)

end Pages

namespace Stored

private theorem sameButReference (h : m.Stored s) (ht : SameButReference m t) : t.Stored s := by
  have hfields := ht.fields
  have hown : ∀ v f, t.Owns v f ↔ m.Owns v f := fun v f => by
    rw [Owns, Owns, ht.pageCount_eq, (hfields v).1, (hfields v).2.2.2]
  rw [ht.rest] at hown ⊢
  constructor
  · intro v hv
    exact (hfields v).2.1.trans (h.valid v hv)
  · intro v f hvf
    exact h.present v f ((hown v f).mp hvf)
  · intro v hv hvalid hp
    exact h.absent v hv hvalid ((hfields v).1 ▸ hp)
  · intro v f hvf hmod
    exact h.unmodified v f ((hown v f).mp hvf) ((hfields v).2.2.1 ▸ hmod)
  · exact h.free
  · intro v hv hvalid
    exact ⟨(hfields v).2.2.1.trans (h.invalid v hv hvalid).1, (h.invalid v hv hvalid).2⟩

private theorem owns_other {e : PageTableEntry} (htable : t.pageTable = Function.update m.pageTable v e)
    (hcount : t.pageCount = m.pageCount) (hw : w ≠ v) : t.Owns w g ↔ m.Owns w g := by
  rw [Owns, Owns, htable, Function.update_of_ne hw, hcount]

private theorem not_owns_self {e : PageTableEntry}
    (htable : t.pageTable = Function.update m.pageTable v e) (he : e.presentBit = false) :
    ¬ t.Owns v g := fun h => by
  have := h.2.1
  rw [htable, Function.update_self, he] at this
  cases this

private theorem owns_frame_ne (h : m.FrameTable) (hv : m.Owns v f) (hw : m.Owns w g) (hne : w ≠ v) :
    g ≠ f := fun hgf => hne (h.unique w v f (hgf ▸ hw) hv)

theorem evict_disk_self (h : m.Stored s) (hown : m.Owns v f) {o : Nat} (ho : o < m.pageSize) :
    ((m.markAbsent v).evict v f).diskStorage (v * m.pageSize + o) =
      m.physicalMemory (f * m.pageSize + o) := by
  have hmod : ((m.markAbsent v).pageTable v).modifyBit = (m.pageTable v).modifyBit := by
    rw [markAbsent, setEntry_same]
  simp only [evict, hmod]
  cases hb : (m.pageTable v).modifyBit with
  | true =>
    show (m.diskStorage.blit (v * m.pageSize) m.pageSize m.physicalMemory (f * m.pageSize)) _ = _
    exact ByteStore.blit_of_inside ho
  | false => exact h.unmodified v f hown hb o ho

theorem evict_disk_other (hw : w ≠ v) {o : Nat} (ho : o < m.pageSize) :
    ((m.markAbsent v).evict v f).diskStorage (w * m.pageSize + o) =
      m.diskStorage (w * m.pageSize + o) := by
  simp only [evict]
  split
  · exact blit_page_other hw ho
  · rfl

theorem evict_physicalMemory : ((m.markAbsent v).evict v f).physicalMemory =
    m.physicalMemory.fill (f * m.pageSize) m.pageSize 0 := by
  simp only [evict]
  split <;> rfl

private theorem evict (h : m.Stored s) (hm : m.FrameTable) (hown : m.Owns v f) :
    ((m.markAbsent v).evict v f).Stored s := by
  have hsizes := evict_sizes (m := m) (v := v) (f := f)
  have hself : ∀ g, ¬ ((m.markAbsent v).evict v f).Owns v g := fun g =>
    not_owns_self evict_pageTable rfl
  have hback : ∀ w g, ((m.markAbsent v).evict v f).Owns w g → w ≠ v ∧ m.Owns w g := fun w g hw => by
    have hwv : w ≠ v := fun hwv => hself g (hwv ▸ hw)
    exact ⟨hwv, (owns_other evict_pageTable hsizes.pageCount hwv).mp hw⟩
  have hdisk : ∀ w ≠ v, ∀ o < m.pageSize, ((m.markAbsent v).evict v f).diskStorage
      (w * m.pageSize + o) = m.diskStorage (w * m.pageSize + o) :=
    fun w hw o ho => evict_disk_other hw ho
  have hdiskv : ∀ o < m.pageSize, ((m.markAbsent v).evict v f).diskStorage (v * m.pageSize + o) =
      m.physicalMemory (f * m.pageSize + o) := fun o ho => h.evict_disk_self hown ho
  have hvalidv : s.valid v = true := by
    rw [← h.valid v hown.1]
    exact (hm.present v hown.1 hown.2.1).1
  generalize hu : (m.markAbsent v).evict v f = u at *
  have htable : u.pageTable = _ := hu ▸ evict_pageTable
  have hphys : u.physicalMemory = _ := hu ▸ evict_physicalMemory
  have hfrees : u.freeFrames = _ := hu ▸ evict_freeFrames
  constructor
  · intro w hw
    rw [hsizes.pageCount] at hw
    rw [htable]
    by_cases hwv : w = v
    · rw [hwv, Function.update_self]
      exact h.valid v hown.1
    · rw [Function.update_of_ne hwv]
      exact h.valid w hw
  · intro w g hw o ho
    rw [hsizes.pageSize] at ho ⊢
    obtain ⟨hwv, hw⟩ := hback w g hw
    rw [hphys, fill_page_other (owns_frame_ne hm hown hw hwv) ho]
    exact h.present w g hw o ho
  · intro w hw hvalid hp o ho
    rw [hsizes.pageSize] at ho ⊢
    by_cases hwv : w = v
    · rw [hwv, hdiskv o ho]
      exact h.present v f hown o ho
    · rw [hdisk w hwv o ho]
      rw [htable, Function.update_of_ne hwv] at hp
      exact h.absent w (hsizes.pageCount ▸ hw) hvalid hp o ho
  · intro w g hw hmod o ho
    rw [hsizes.pageSize] at ho ⊢
    obtain ⟨hwv, hw⟩ := hback w g hw
    rw [htable, Function.update_of_ne hwv] at hmod
    rw [hdisk w hwv o ho, hphys, fill_page_other (owns_frame_ne hm hown hw hwv) ho]
    exact h.unmodified w g hw hmod o ho
  · intro g hg hfree o ho
    rw [hsizes.pageSize] at ho ⊢
    rw [hphys]
    by_cases hgf : g = f
    · rw [hgf, fill_page_self ho]
    · rw [fill_page_other hgf ho]
      rw [hfrees, Function.update_of_ne hgf] at hfree
      exact h.free g (hsizes.frameCount ▸ hg) hfree o ho
  · intro w hw hvalid
    rw [hsizes.pageCount] at hw
    have hwv : w ≠ v := fun hwv => by
      rw [hwv, hvalidv] at hvalid
      cases hvalid
    have hinv := h.invalid w hw hvalid
    rw [htable, Function.update_of_ne hwv]
    refine ⟨hinv.1, fun o ho => ?_⟩
    rw [hsizes.pageSize] at ho ⊢
    rw [hdisk w hwv o ho]
    exact hinv.2 o ho

private theorem provides (h : m.Stored s) (hm : m.FrameTable) (ht : Provides m t f) : t.Stored s := by
  cases ht.how with
  | inl heq => exact heq ▸ h
  | inr hex =>
    obtain ⟨v, m₁, hm₁, hown, rfl⟩ := hex
    exact (h.sameButReference hm₁).evict (hm.sameButReference hm₁) hown

theorem load (h : m.Stored s) (hm : m.FrameTable) (hv : v < m.pageCount)
    (hvalid : s.valid v = true) (habsent : (m.pageTable v).presentBit = false)
    (hf : f < m.frameCount) (hfree : m.freeFrames f = true) : (m.load v f).Stored s := by
  have htable := load_pageTable (m := m) (v := v) (f := f)
  have hnone : ∀ w, ¬ m.Owns w f := fun w hw => by
    have := (hm.owned f hf).mpr ⟨w, hw⟩
    rw [hfree] at this
    cases this
  have hself : ∀ g, (m.load v f).Owns v g → g = f := fun g hg => by
    have := hg.2.2
    rw [htable, Function.update_self] at this
    simp only at this
    omega
  have hother : ∀ w g, w ≠ v → (m.load v f).Owns w g → m.Owns w g := fun w g hw =>
    (owns_other htable rfl hw).mp
  have hphys : (m.load v f).physicalMemory =
    m.physicalMemory.blit (f * m.pageSize) m.pageSize m.diskStorage (v * m.pageSize) := rfl
  constructor
  · intro w hw
    rw [htable]
    by_cases hwv : w = v
    · rw [hwv, Function.update_self]
      exact h.valid v hv
    · rw [Function.update_of_ne hwv]
      exact h.valid w hw
  · intro w g hw o (ho : o < m.pageSize)
    show (m.load v f).physicalMemory (g * m.pageSize + o) = s.byte (w * m.pageSize + o)
    rw [hphys]
    by_cases hwv : w = v
    · subst hwv
      rw [hself g hw, ByteStore.blit_of_inside ho]
      exact h.absent w hv hvalid habsent o ho
    · have hw' := hother w g hwv hw
      have hgf : g ≠ f := fun hgf => hnone w (hgf ▸ hw')
      rw [blit_page_other hgf ho]
      exact h.present w g hw' o ho
  · intro w hw hwvalid hp o (ho : o < m.pageSize)
    have hwv : w ≠ v := fun hwv => by
      rw [htable, hwv, Function.update_self] at hp
      cases hp
    rw [htable, Function.update_of_ne hwv] at hp
    exact h.absent w hw hwvalid hp o ho
  · intro w g hw hmod o (ho : o < m.pageSize)
    show m.diskStorage (w * m.pageSize + o) = (m.load v f).physicalMemory (g * m.pageSize + o)
    rw [hphys]
    by_cases hwv : w = v
    · subst hwv
      rw [hself g hw, ByteStore.blit_of_inside ho]
    · have hw' := hother w g hwv hw
      have hgf : g ≠ f := fun hgf => hnone w (hgf ▸ hw')
      rw [blit_page_other hgf ho]
      rw [htable, Function.update_of_ne hwv] at hmod
      exact h.unmodified w g hw' hmod o ho
  · intro g hg hgfree o (ho : o < m.pageSize)
    show (m.load v f).physicalMemory (g * m.pageSize + o) = 0
    have hgf : g ≠ f := fun hgf => by
      have : (m.load v f).freeFrames f = false := setFree_same false
      rw [hgf, this] at hgfree
      cases hgfree
    rw [hphys, blit_page_other hgf ho]
    exact h.free g hg ((setFree_other false hgf).symm.trans hgfree) o ho
  · intro w hw hwvalid
    have hwv : w ≠ v := fun hwv => by
      rw [hwv, hvalid] at hwvalid
      cases hwvalid
    rw [htable, Function.update_of_ne hwv]
    exact h.invalid w hw hwvalid

private theorem touch (h : m.Stored s) (hvalid : s.valid v = true) (writeOperation : Bool) :
    (m.touch v writeOperation).Stored s := by
  have hfield := touch_field (m := m) (v := v) writeOperation
  have hown : ∀ w g, (m.touch v writeOperation).Owns w g ↔ m.Owns w g := fun w g => by
    rw [Owns, Owns, (hfield w).1, (hfield w).2.2]
    rfl
  have hother : ∀ w ≠ v, (m.touch v writeOperation).pageTable w = m.pageTable w := fun w hw =>
    setEntry_other _ hw
  constructor
  · intro w hw
    exact (hfield w).2.1.trans (h.valid w hw)
  · intro w g hw
    exact h.present w g ((hown w g).mp hw)
  · intro w hw hwvalid hp
    exact h.absent w hw hwvalid ((hfield w).1.symm.trans hp)
  · intro w g hw hmod
    have hw' := (hown w g).mp hw
    apply h.unmodified w g hw'
    by_cases hwv : w = v
    · subst hwv
      rw [MemoryManager.touch, setEntry_same] at hmod
      exact (Bool.or_eq_false_iff.mp hmod).1
    · exact (hother w hwv) ▸ hmod
  · exact h.free
  · intro w hw hwvalid
    have hwv : w ≠ v := fun hwv => by
      rw [hwv, hvalid] at hwvalid
      cases hwvalid
    rw [hother w hwv]
    exact h.invalid w hw hwvalid

private theorem byte_ne {p i j o o' : Nat} (h : i ≠ j) (ho : o < p) (ho' : o' < p) :
    i * p + o ≠ j * p + o' := by
  have := page_outside h ho
  omega

theorem storeByte (h : m.Stored s) (hm : m.FrameTable) (hown : m.Owns v f) (hf : f < m.frameCount)
    (hmod : (m.pageTable v).modifyBit = true) {o : Nat} (ho : o < m.pageSize) (b : UInt8) :
    (m.storeByte (f * m.pageSize + o) b).Stored
      { s with byte := Function.update s.byte (v * m.pageSize + o) b } := by
  have hused : m.freeFrames f = false := (hm.owned f hf).mpr ⟨v, hown⟩
  constructor
  · exact h.valid
  · intro w g hw i (hi : i < m.pageSize)
    show Function.update m.physicalMemory _ b (g * m.pageSize + i)
      = Function.update s.byte _ b (w * m.pageSize + i)
    by_cases hwv : w = v
    · subst hwv
      have hgf : g = f := by
        have := hw.2.2.symm.trans hown.2.2
        omega
      subst hgf
      by_cases hio : i = o
      · rw [hio, Function.update_self, Function.update_self]
      · rw [Function.update_of_ne (by omega), Function.update_of_ne (by omega)]
        exact h.present w g hw i hi
    · have hgf := owns_frame_ne hm hown hw hwv
      rw [Function.update_of_ne (byte_ne hgf hi ho), Function.update_of_ne (byte_ne hwv hi ho)]
      exact h.present w g hw i hi
  · intro w hw hwvalid hp i (hi : i < m.pageSize)
    have hwv : w ≠ v := fun hwv => by
      have := hown.2.1
      rw [← hwv, show (m.pageTable w).presentBit = false from hp] at this
      cases this
    show m.diskStorage _ = Function.update s.byte _ b (w * m.pageSize + i)
    rw [Function.update_of_ne (byte_ne hwv hi ho)]
    exact h.absent w hw hwvalid hp i hi
  · intro w g hw hwmod i (hi : i < m.pageSize)
    have hwv : w ≠ v := fun hwv => by
      rw [hwv, show ((m.storeByte _ b).pageTable v).modifyBit = true from hmod] at hwmod
      cases hwmod
    have hgf := owns_frame_ne hm hown hw hwv
    show m.diskStorage _ = Function.update m.physicalMemory _ b (g * m.pageSize + i)
    rw [Function.update_of_ne (byte_ne hgf hi ho)]
    exact h.unmodified w g hw hwmod i hi
  · intro g hg hfree i (hi : i < m.pageSize)
    have hgf : g ≠ f := fun hgf => by
      rw [hgf, show (m.storeByte _ b).freeFrames f = false from hused] at hfree
      cases hfree
    show Function.update m.physicalMemory _ b (g * m.pageSize + i) = 0
    rw [Function.update_of_ne (byte_ne hgf hi ho)]
    exact h.free g hg hfree i hi
  · exact h.invalid

theorem assign (h : m.Stored s) (hm : m.FrameTable) (hv : v < m.pageCount)
    (hinvalid : s.valid v = false) (hf : f < m.frameCount) (hfree : m.freeFrames f = true) :
    (m.assign v f).Stored { valid := Function.update s.valid v true,
                            byte := s.byte.fill (v * m.pageSize) m.pageSize 0 } := by
  have htable : (m.assign v f).pageTable = Function.update m.pageTable v
    { m.pageTable v with validBit := true, pageFrameNum := f, presentBit := true } := rfl
  have hnone : ∀ w, ¬ m.Owns w f := fun w hw => by
    have := (hm.owned f hf).mpr ⟨w, hw⟩
    rw [hfree] at this
    cases this
  have hself : ∀ g, (m.assign v f).Owns v g → g = f := fun g hg => by
    have := hg.2.2
    rw [htable, Function.update_self] at this
    simp only at this
    omega
  have hother : ∀ w g, w ≠ v → (m.assign v f).Owns w g → m.Owns w g := fun w g hw =>
    (owns_other htable rfl hw).mp
  have hzero := h.invalid v hv hinvalid
  constructor
  · intro w hw
    show _ = Function.update s.valid v true w
    rw [htable]
    by_cases hwv : w = v
    · rw [hwv, Function.update_self, Function.update_self]
    · rw [Function.update_of_ne hwv, Function.update_of_ne hwv]
      exact h.valid w hw
  · intro w g hw o (ho : o < m.pageSize)
    show m.physicalMemory (g * m.pageSize + o) = s.byte.fill _ _ 0 (w * m.pageSize + o)
    by_cases hwv : w = v
    · subst hwv
      rw [hself g hw, fill_page_self ho]
      exact h.free f hf hfree o ho
    · rw [fill_page_other hwv ho]
      exact h.present w g (hother w g hwv hw) o ho
  · intro w hw hwvalid hp o (ho : o < m.pageSize)
    have hwv : w ≠ v := fun hwv => by
      rw [htable, hwv, Function.update_self] at hp
      cases hp
    simp only [Function.update_of_ne hwv] at hwvalid
    rw [htable, Function.update_of_ne hwv] at hp
    show m.diskStorage _ = s.byte.fill _ _ 0 (w * m.pageSize + o)
    rw [fill_page_other hwv ho]
    exact h.absent w hw hwvalid hp o ho
  · intro w g hw hmod o (ho : o < m.pageSize)
    show m.diskStorage (w * m.pageSize + o) = m.physicalMemory (g * m.pageSize + o)
    by_cases hwv : w = v
    · subst hwv
      rw [hself g hw, hzero.2 o ho, h.free f hf hfree o ho]
    · rw [htable, Function.update_of_ne hwv] at hmod
      exact h.unmodified w g (hother w g hwv hw) hmod o ho
  · intro g hg hgfree
    have hgf : g ≠ f := fun hgf => by
      have : (m.assign v f).freeFrames f = false := setFree_same false
      rw [hgf, this] at hgfree
      cases hgfree
    exact h.free g hg ((setFree_other false hgf).symm.trans hgfree)
  · intro w hw hwvalid
    have hwv : w ≠ v := fun hwv => by
      simp only [hwv, Function.update_self] at hwvalid
      cases hwvalid
    simp only [Function.update_of_ne hwv] at hwvalid
    rw [htable, Function.update_of_ne hwv]
    exact h.invalid w hw hwvalid

theorem delete (h : m.Stored s) (hm : m.FrameTable) (hv : v < m.pageCount) (ht : Deletes m v t)
    (hclean : (m.pageTable v).presentBit = true → ∀ o < m.pageSize,
      m.diskStorage (v * m.pageSize + o) = 0) :
    t.Stored { s with valid := Function.update s.valid v false } := by
  cases ht with
  | @present f hown hf =>
    have htable := release_pageTable (m := m) (v := v) (f := f)
    have hback : ∀ w g, (m.release v f).Owns w g → w ≠ v ∧ m.Owns w g := fun w g hw => by
      have hwv : w ≠ v := fun hwv => not_owns_self htable rfl (hwv ▸ hw)
      exact ⟨hwv, (owns_other htable rfl hwv).mp hw⟩
    have hphys : (m.release v f).physicalMemory =
      m.physicalMemory.fill (f * m.pageSize) m.pageSize 0 := rfl
    constructor
    · intro w hw
      rw [htable]
      by_cases hwv : w = v
      · rw [hwv, Function.update_self]
        exact (Function.update_self v false s.valid).symm
      · rw [Function.update_of_ne hwv]
        exact (h.valid w hw).trans (Function.update_of_ne hwv false s.valid).symm
    · intro w g hw o (ho : o < m.pageSize)
      obtain ⟨hwv, hw⟩ := hback w g hw
      show (m.release v f).physicalMemory (g * m.pageSize + o) = s.byte (w * m.pageSize + o)
      rw [hphys, fill_page_other (owns_frame_ne hm hown hw hwv) ho]
      exact h.present w g hw o ho
    · intro w hw hwvalid hp
      have hwv : w ≠ v := fun hwv => by
        simp only [hwv, Function.update_self] at hwvalid
        cases hwvalid
      simp only [Function.update_of_ne hwv] at hwvalid
      rw [htable, Function.update_of_ne hwv] at hp
      exact h.absent w hw hwvalid hp
    · intro w g hw hmod o (ho : o < m.pageSize)
      obtain ⟨hwv, hw⟩ := hback w g hw
      rw [htable, Function.update_of_ne hwv] at hmod
      show m.diskStorage (w * m.pageSize + o) = (m.release v f).physicalMemory (g * m.pageSize + o)
      rw [hphys, fill_page_other (owns_frame_ne hm hown hw hwv) ho]
      exact h.unmodified w g hw hmod o ho
    · intro g hg hfree o (ho : o < m.pageSize)
      show (m.release v f).physicalMemory (g * m.pageSize + o) = 0
      rw [hphys]
      by_cases hgf : g = f
      · rw [hgf, fill_page_self ho]
      · rw [fill_page_other hgf ho]
        exact h.free g hg ((setFree_other true hgf).symm.trans hfree) o ho
    · intro w hw hwvalid
      rw [htable]
      by_cases hwv : w = v
      · rw [hwv, Function.update_self]
        exact ⟨rfl, hclean hown.2.1⟩
      · simp only [Function.update_of_ne hwv] at hwvalid
        rw [Function.update_of_ne hwv]
        exact h.invalid w hw hwvalid
  | absent hp =>
    have hentry := discard_entry (m := m) (v := v)
    have hown : ∀ w g, (m.discard v).Owns w g → w ≠ v ∧ m.Owns w g := fun w g hw => by
      have hw' : m.Owns w g := by
        rw [Owns, ← (hentry w).1, ← (hentry w).2.1]
        exact hw
      refine ⟨fun hwv => ?_, hw'⟩
      have := hw'.2.1
      rw [hwv, hp] at this
      cases this
    have hdisk : (m.discard v).diskStorage = m.diskStorage.fill (v * m.pageSize) m.pageSize 0 := rfl
    have hbits : ((m.discard v).pageTable v).validBit = false ∧
        ((m.discard v).pageTable v).modifyBit = false := by
      simp only [discard, setEntry_same]
      simp [setEntry, clearDisk]
    constructor
    · intro w hw
      by_cases hwv : w = v
      · rw [hwv, hbits.1]
        exact (Function.update_self v false s.valid).symm
      · rw [(hentry w).2.2 hwv]
        exact (h.valid w hw).trans (Function.update_of_ne hwv false s.valid).symm
    · intro w g hw
      exact h.present w g (hown w g hw).2
    · intro w hw hwvalid hwp o (ho : o < m.pageSize)
      have hwv : w ≠ v := fun hwv => by
        simp only [hwv, Function.update_self] at hwvalid
        cases hwvalid
      simp only [Function.update_of_ne hwv] at hwvalid
      show (m.discard v).diskStorage (w * m.pageSize + o) = s.byte (w * m.pageSize + o)
      rw [hdisk, fill_page_other hwv ho]
      exact h.absent w hw hwvalid ((hentry w).1.symm.trans hwp) o ho
    · intro w g hw hmod o (ho : o < m.pageSize)
      obtain ⟨hwv, hw⟩ := hown w g hw
      rw [(hentry w).2.2 hwv] at hmod
      show (m.discard v).diskStorage (w * m.pageSize + o) = m.physicalMemory (g * m.pageSize + o)
      rw [hdisk, fill_page_other hwv ho]
      exact h.unmodified w g hw hmod o ho
    · exact h.free
    · intro w hw hwvalid
      by_cases hwv : w = v
      · subst hwv
        refine ⟨hbits.2, fun o (ho : o < m.pageSize) => ?_⟩
        show (m.discard w).diskStorage (w * m.pageSize + o) = 0
        rw [hdisk, fill_page_self ho]
      · simp only [Function.update_of_ne hwv] at hwvalid
        rw [(hentry w).2.2 hwv]
        have hinv := h.invalid w hw hwvalid
        refine ⟨hinv.1, fun o (ho : o < m.pageSize) => ?_⟩
        show (m.discard v).diskStorage (w * m.pageSize + o) = 0
        rw [hdisk, fill_page_other hwv ho]
        exact hinv.2 o ho

end Stored

section Addresses

variable {a : Int} {k : Nat}

private theorem PageOf.eq_div (h : m.PageOf a v) (ha : 0 ≤ a) : v = a.toNat / m.pageSize := by
  obtain ⟨n, rfl⟩ := Int.eq_ofNat_of_zero_le ha
  have hdiv := h.1
  rw [← Int.ofNat_tdiv] at hdiv
  simp only [Int.toNat_natCast]
  omega

theorem pageOf_of_inRange (ha : 0 ≤ a) (hlt : a < (m.pageCount * m.pageSize : Nat)) :
    m.PageOf a (a.toNat / m.pageSize) := by
  obtain ⟨n, rfl⟩ := Int.eq_ofNat_of_zero_le ha
  constructor
  · rw [← Int.ofNat_tdiv, Int.toNat_natCast]
  · rw [Int.toNat_natCast]
    exact Nat.div_lt_of_lt_mul (by rw [Nat.mul_comm]; omega)

theorem pageOffset_eq_mod (ha : 0 ≤ a) (hlt : a < 2 ^ 32) (hk : k ≤ 32) :
    pageOffset a (2 ^ k) = a.toNat % 2 ^ k := by
  obtain ⟨n, rfl⟩ := Int.eq_ofNat_of_zero_le ha
  have hmask : 2 ^ k - 1 < 2 ^ 32 := by
    have := Nat.pow_le_pow_right (n := 2) (by decide) hk
    omega
  have hn : n < 2 ^ 32 := by omega
  rw [pageOffset, BitVec.toNat_and, BitVec.ofInt_natCast, BitVec.toNat_ofNat, BitVec.toNat_ofNat,
    Nat.mod_eq_of_lt hn, Nat.mod_eq_of_lt hmask, Nat.and_two_pow_sub_one_eq_mod, Int.toNat_natCast]

private theorem Refuses.of_inRange {invalidPage e : Exn} (ha : 0 ≤ a)
    (hlt : a < (m.pageCount * m.pageSize : Nat)) (h : Refuses m a invalidPage e) :
    e = invalidPage ∧ (m.pageTable (a.toNat / m.pageSize)).validBit = false := by
  have hpage := pageOf_of_inRange ha hlt
  cases h with
  | outOfBound hout => exact absurd (hpage.1 ▸ hout) hpage.not_out
  | invalid hv hinvalid => exact ⟨rfl, hv.eq_div ha ▸ hinvalid⟩

end Addresses

/-- What an access finds: the page in a frame, and the rest as the flat memory has it. -/
structure Accesses (m t : MemoryManager) (s : FlatMemory) (n x : Nat) (writeOperation : Bool) (f : Nat) :
    Prop where
  frames : t.FrameTable
  stored : t.Stored s
  sizes : SameSizes m t
  owns : t.Owns (n / m.pageSize) f
  lt : f < t.frameCount
  addr : x = f * t.pageSize + n % t.pageSize
  dirty : writeOperation = true → (t.pageTable (n / m.pageSize)).modifyBit = true
  valid : s.valid (n / m.pageSize) = true

private theorem Stored.translates {a : Int} {writeOperation : Bool} {x k : Nat} (h : m.Stored s)
    (hm : m.FrameTable) (hsize : m.pageSize = 2 ^ k) (hk : k ≤ 32) (ha : 0 ≤ a) (hlt : a < 2 ^ 32)
    (ht : Translates m t a writeOperation x) : ∃ f, Accesses m t s a.toNat x writeOperation f := by
  obtain ⟨v, f, t₁, hpage, hvalid, ht₁, hown, hf, rfl, rfl⟩ := ht
  have hv := hpage.eq_div ha
  subst hv
  have hoff : pageOffset a m.pageSize = a.toNat % m.pageSize := by
    rw [hsize]
    exact pageOffset_eq_mod ha hlt hk
  have hsv : s.valid (a.toNat / m.pageSize) = true := (h.valid _ hpage.2).symm.trans hvalid
  have hs₁ : t₁.Stored s := by
    cases ht₁.how with
    | inl heq => exact heq.2 ▸ h
    | inr hload =>
      obtain ⟨habsent, g, m₁, hm₁, rfl⟩ := hload
      obtain ⟨b, hb⟩ := hm₁.entry habsent
      have hv₁ : a.toNat / m.pageSize < m₁.pageCount := hm₁.sizes.pageCount ▸ hpage.2
      exact (h.provides hm hm₁).load hm₁.frames hv₁ hsv (by rw [hb]; exact habsent) hm₁.lt hm₁.free
  have hfield := touch_field (m := t₁) (v := a.toNat / m.pageSize) writeOperation
    (a.toNat / m.pageSize)
  refine ⟨f, ht₁.frames.touch _, hs₁.touch hsv _, ht₁.sizes.trans ⟨rfl, rfl, rfl⟩,
    ⟨hown.1, hfield.1.trans hown.2.1, hfield.2.2.trans hown.2.2⟩, hf, ?_, ?_, hsv⟩
  · show _ = f * t₁.pageSize + a.toNat % t₁.pageSize
    rw [hoff, ht₁.sizes.pageSize]
  · intro hw
    rw [MemoryManager.touch, setEntry_same, hw]
    exact Bool.or_true _

/-- A call returns what it returns on the flat memory, and the two memories agree afterwards. -/
def Simulates (m : MemoryManager) (s : FlatMemory) (c : Call) (r : Except Exn Value)
    (t : MemoryManager) : Prop :=
  (s.perform m.pageSize m.pageCount c).1 = r ∧ t.Stored (s.perform m.pageSize m.pageCount c).2 ∧
    t.FrameTable ∧ SameSizes m t

private theorem simulates_refused {a : Int} {invalidPage e : Exn} {c : Call} (h : m.Stored s)
    (hm : m.FrameTable) (ha : 0 ≤ a) (hlt : a < (m.pageCount * m.pageSize : Nat))
    (he : t = m ∧ Refuses m a invalidPage e)
    (hc : s.valid (a.toNat / m.pageSize) = false →
      s.perform m.pageSize m.pageCount c = (.error invalidPage, s)) :
    Simulates m s c (.error e) t := by
  obtain ⟨rfl, he⟩ := he
  obtain ⟨rfl, hinvalid⟩ := he.of_inRange ha hlt
  have hpage := pageOf_of_inRange ha hlt
  have heq := hc ((h.valid _ hpage.2).symm.trans hinvalid)
  rw [Simulates, heq]
  exact ⟨rfl, h, hm, rfl, rfl, rfl⟩

private theorem exponent_le {k : Nat} {a : Int} (hsize : m.pageSize = 2 ^ k)
    (hfit : m.pageCount * m.pageSize < 2 ^ 31) (ha : 0 ≤ a)
    (hlt : a < (m.pageCount * m.pageSize : Nat)) : k ≤ 32 := by
  have hpos : 0 < m.pageCount := Nat.pos_of_ne_zero fun hzero => by
    rw [hzero, Nat.zero_mul] at hlt
    omega
  have hle : m.pageSize ≤ m.pageCount * m.pageSize := Nat.le_mul_of_pos_left _ hpos
  have hlt' : 2 ^ k < 2 ^ 31 := hsize ▸ hle.trans_lt hfit
  have := (Nat.pow_lt_pow_iff_right (by decide : 1 < 2)).mp hlt'
  omega

private theorem wp_perform_simulates {k : Nat} (h : m.Stored s) (hm : m.FrameTable)
    (hsize : m.pageSize = 2 ^ k) (hfit : m.pageCount * m.pageSize < 2 ^ 31) {c : Call}
    (hrange : c.InRange (m.pageCount * m.pageSize)) (hclean : DeletesClean m c) :
    wp c.perform (fun r t => Simulates m s c (.ok r) t) (fun e t => Simulates m s c (.error e) t)
      m := by
  cases c with
  | allocateAnyPage =>
    have hvalid : ∀ v < m.pageCount, (m.pageTable v).validBit = s.valid v := h.valid
    simp only [Call.perform, wp_bind, wp_pure]
    apply wp_mono (wp_allocateAnyPage hm)
    · rintro _ t ⟨v, rfl, ht⟩
      have hfind : (List.range m.pageCount).find? (fun v => !s.valid v) = some v := by
        rw [List.find?_range_eq_some]
        refine ⟨?_, List.mem_range.mpr ht.lt, fun w hw => ?_⟩
        · rw [← hvalid v ht.lt, ht.invalid]
          rfl
        · rw [← hvalid w (hw.trans ht.lt), ht.lowest w hw]
          rfl
      obtain ⟨f, m₁, hm₁, rfl⟩ := ht.how
      have hinvalid := (hvalid v ht.lt).symm.trans ht.invalid
      have hv₁ : v < m₁.pageCount := hm₁.sizes.pageCount ▸ ht.lt
      have hs := (h.provides hm hm₁).assign hm₁.frames hv₁ hinvalid hm₁.lt hm₁.free
      rw [hm₁.sizes.pageSize] at hs
      simp only [Simulates, FlatMemory.perform, hfind]
      exact ⟨trivial, hs, ht.frames hm, hm₁.sizes.trans ⟨rfl, rfl, rfl⟩⟩
    · rintro e t ⟨rfl, hall, rfl⟩
      have hfind : (List.range t.pageCount).find? (fun v => !s.valid v) = none := by
        rw [List.find?_eq_none]
        intro v hv
        rw [← hvalid v (List.mem_range.mp hv), hall v (List.mem_range.mp hv)]
        simp
      simp only [Simulates, FlatMemory.perform, hfind]
      exact ⟨trivial, h, hm, rfl, rfl, rfl⟩
  | writeVirtualMemory a b =>
    obtain ⟨ha, hlt⟩ := hrange
    simp only [Call.perform, wp_bind, wp_pure]
    apply wp_mono (wp_writeVirtualMemory hm a b)
    · rintro _ t ⟨x, t₁, ht, rfl⟩
      have hk := exponent_le hsize hfit ha hlt
      obtain ⟨f, hacc⟩ := h.translates hm hsize hk ha (by omega) ht
      have hs := hacc.stored.storeByte hacc.frames hacc.owns hacc.lt (hacc.dirty rfl)
        (Nat.mod_lt a.toNat hacc.frames.pageSize_pos) b
      rw [← hacc.addr, hacc.sizes.pageSize, Nat.div_add_mod'] at hs
      simp only [Simulates, FlatMemory.perform, hacc.valid, if_true]
      exact ⟨trivial, hs, hacc.frames.congr ⟨rfl, rfl, rfl⟩ hacc.frames.clock_le rfl (fun _ => rfl)
        (fun _ => rfl) fun _ _ => rfl, hacc.sizes.trans ⟨rfl, rfl, rfl⟩⟩
    · intro e t he
      apply simulates_refused h hm ha hlt he
      intro hinvalid
      simp [FlatMemory.perform, hinvalid]
  | readVirtualMemory a =>
    obtain ⟨ha, hlt⟩ := hrange
    simp only [Call.perform, wp_bind, wp_pure]
    apply wp_mono (wp_readVirtualMemory hm a)
    · rintro _ t ⟨x, ht, rfl⟩
      have hk := exponent_le hsize hfit ha hlt
      obtain ⟨f, hacc⟩ := h.translates hm hsize hk ha (by omega) ht
      have hbyte := hacc.stored.present _ f hacc.owns (a.toNat % t.pageSize)
        (Nat.mod_lt a.toNat hacc.frames.pageSize_pos)
      rw [← hacc.addr, hacc.sizes.pageSize, Nat.div_add_mod'] at hbyte
      simp only [Simulates, FlatMemory.perform, hacc.valid, if_true, hbyte]
      exact ⟨trivial, hacc.stored, hacc.frames, hacc.sizes⟩
    · intro e t he
      apply simulates_refused h hm ha hlt he
      intro hinvalid
      simp [FlatMemory.perform, hinvalid]
  | deletePageTableEntry a =>
    obtain ⟨ha, hlt⟩ := hrange
    simp only [Call.perform, wp_bind, wp_pure]
    apply wp_mono (wp_deletePageTableEntry hm a)
    · rintro _ t ⟨v, hv, hvalid, ht⟩
      have hs := h.delete hm hv.2 ht (hclean v hv)
      have hframes := ht.frames hm
      have hsizes : SameSizes m t := by
        cases ht <;> exact ⟨rfl, rfl, rfl⟩
      have hsv : s.valid v = true := (h.valid v hv.2).symm.trans hvalid
      have hve := hv.eq_div ha
      subst hve
      simp only [Simulates, FlatMemory.perform, hsv, if_true]
      exact ⟨trivial, hs, hframes, hsizes⟩
    · intro e t he
      apply simulates_refused h hm ha hlt he
      intro hinvalid
      simp [FlatMemory.perform, hinvalid]
  | printPageTableEntry a =>
    simp only [Call.perform, wp_bind, wp_pure]
    apply wp_mono (wp_printPageTableEntry a)
    · rintro _ t rfl
      exact ⟨rfl, h, hm, rfl, rfl, rfl⟩
    · rintro e t ⟨-, hnone⟩
      exact absurd (pageOf_of_inRange hrange.1 hrange.2) (hnone _)

theorem results_simulate {k : Nat} {cs : List Call} (h : m.Stored s) (hm : m.FrameTable)
    (hsize : m.pageSize = 2 ^ k) (hfit : m.pageCount * m.pageSize < 2 ^ 31)
    (hrange : ∀ c ∈ cs, c.InRange (m.pageCount * m.pageSize)) (hclean : RunsClean cs m) :
    results cs m = some (s.results m.pageSize m.pageCount cs) := by
  induction cs generalizing m s with
  | nil => rfl
  | cons c cs ih =>
    have hstep := wp_perform_simulates h hm hsize hfit (hrange c List.mem_cons_self) hclean.1
    obtain ⟨r, t, hrt, hpost⟩ := wp_elim hstep
    have hsim : Simulates m s c r t := by
      cases r <;> exact hpost
    obtain ⟨hres, hstored, hframes, hsizes⟩ := hsim
    have hrest := ih hstored hframes (hsizes.pageSize.trans hsize)
      (by rw [hsizes.pageCount, hsizes.pageSize]; exact hfit)
      (by rw [hsizes.pageCount, hsizes.pageSize]; exact fun c hc => hrange c (List.mem_cons_of_mem _ hc))
      (hclean.2 r t hrt)
    rw [hsizes.pageSize, hsizes.pageCount] at hrest
    simp only [results, hrt, hrest, FlatMemory.results, hres, Option.map_some]

/-- The results of a sequence of calls are those of the flat memory, which knows nothing of the
number of frames, when no call deletes a present page whose disk copy holds data. -/
theorem memory_transparent (k numPages numFrames : Nat) (hframes : 0 < numFrames)
    (hfit : numPages * 2 ^ k < 2 ^ 31) (cs : List Call)
    (hrange : ∀ c ∈ cs, c.InRange (numPages * 2 ^ k))
    (hclean : RunsClean cs (new (2 ^ k) numPages numFrames)) :
    results cs (new (2 ^ k) numPages numFrames) =
      some (FlatMemory.empty.results (2 ^ k) numPages cs) :=
  results_simulate (stored_new _ _ _) (frameTable_new (Nat.two_pow_pos k) hframes) rfl hfit hrange
    hclean

theorem memory_transparent_shared_frame :
    results [.allocateAnyPage, .writeVirtualMemory 1 7, .allocateAnyPage, .readVirtualMemory 1]
        (new (2 ^ 2) 2 1) =
      some [.ok (.address 0), .ok .void, .ok (.address 4), .ok (.byte 7)] := by
  have h := memory_transparent 2 2 1 (by decide) (by decide)
    [.allocateAnyPage, .writeVirtualMemory 1 7, .allocateAnyPage, .readVirtualMemory 1]
    (by simp [Call.InRange])
    ⟨trivial, fun _ _ _ => ⟨trivial, fun _ _ _ => ⟨trivial, fun _ _ _ => ⟨trivial, fun _ _ _ => trivial⟩⟩⟩⟩
  rw [h]
  rfl

/-- A page is evicted with data, read back, deleted in memory and allocated again. -/
def staleRead : List Call :=
  [.allocateAnyPage, .writeVirtualMemory 0 7, .allocateAnyPage, .readVirtualMemory 0,
    .deletePageTableEntry 0, .allocateAnyPage, .readVirtualMemory 1, .readVirtualMemory 0]

/-- The last read finds the byte of the deleted page, unless there is a second frame. -/
theorem stale_disk_copy_is_read :
    (∀ c ∈ staleRead, c.InRange (2 * 2 ^ 0)) ∧
    results staleRead (new (2 ^ 0) 2 1) ≠ some (FlatMemory.empty.results (2 ^ 0) 2 staleRead) ∧
    results staleRead (new (2 ^ 0) 2 1) ≠ results staleRead (new (2 ^ 0) 2 2) := by
  refine ⟨by simp [staleRead, Call.InRange], ?_, ?_⟩
  · decide +kernel
  · decide +kernel

end CseOs.MemoryManager
