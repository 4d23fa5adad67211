import CseOs.MemoryManager.FrameTable

/-!
# The methods of the memory manager

What each method does from a state whose frame table is consistent: it returns, an exception
leaves the state as it was, and the frame table is consistent again.
-/

namespace CseOs.MemoryManager

open Framework Framework.Prog

variable {m t : MemoryManager} {v w f : Nat} {E : Exn → MemoryManager → Prop}

theorem firstIndex_cases (n : Nat) (p : Nat → Bool) :
    (firstIndex n p = -1 ∧ ∀ i < n, p i = false) ∨
      ∃ i < n, firstIndex n p = i ∧ p i = true ∧ ∀ j < i, p j = false := by
  cases h : (List.range n).find? p with
  | none =>
    left
    rw [List.find?_eq_none] at h
    exact ⟨by rw [firstIndex, List.find?_eq_none.mpr h],
      fun i hi => by simpa using h i (List.mem_range.mpr hi)⟩
  | some i =>
    right
    have hf : firstIndex n p = i := by rw [firstIndex, h]
    obtain ⟨hp, hi, hj⟩ := List.find?_range_eq_some.mp h
    exact ⟨i, List.mem_range.mp hi, hf, hp, fun j hjlt => by simpa using hj j hjlt⟩

/-- The rest of `_replacePage`, once the clock stopped at page `v` in frame `f`. -/
def evict (v f : Nat) (m : MemoryManager) : MemoryManager :=
  let saved := if (m.pageTable v).modifyBit then m.saveToDisk v f else m
  ((saved.setFree f true).setEntry v fun e => { e with pageFrameNum := -1 }).wipe f

/-- The clock stops at page `v`. -/
def markAbsent (v : Nat) (m : MemoryManager) : MemoryManager :=
  m.setEntry v fun e => { e with presentBit := false }

/-- Frame `f` is free in `t`, possibly after the page in it was taken out. -/
structure Provides (m t : MemoryManager) (f : Nat) : Prop where
  frames : t.FrameTable
  lt : f < t.frameCount
  free : t.freeFrames f = true
  how : t = m ∨ ∃ v m₁, SameButReference m m₁ ∧ m₁.Owns v f ∧ t = (m₁.markAbsent v).evict v f

theorem evict_sizes : SameSizes m ((m.markAbsent v).evict v f) := by
  simp only [evict]
  split <;> exact ⟨rfl, rfl, rfl⟩

theorem evict_freeFrames :
    ((m.markAbsent v).evict v f).freeFrames = Function.update m.freeFrames f true := by
  simp only [evict]
  split <;> rfl

private theorem evict_clockPointer : ((m.markAbsent v).evict v f).clockPointer = m.clockPointer := by
  simp only [evict]
  split <;> rfl

theorem evict_pageTable : ((m.markAbsent v).evict v f).pageTable = Function.update m.pageTable v
    { m.pageTable v with presentBit := false, pageFrameNum := -1 } := by
  have h : ((m.markAbsent v).evict v f).pageTable =
      ((m.markAbsent v).setEntry v fun e => { e with pageFrameNum := -1 }).pageTable := by
    simp only [evict]
    split <;> rfl
  rw [h]
  simp only [markAbsent, setEntry, Function.update_idem, Function.update_self]

private theorem FrameTable.evict (h : m.FrameTable) (hown : m.Owns v f) :
    ((m.markAbsent v).evict v f).FrameTable := by
  apply h.take evict_sizes _ evict_pageTable evict_freeFrames hown rfl
  rw [evict_clockPointer, evict_sizes.pageCount]
  exact h.clock_le

/-- A page is present when no frame is free. -/
theorem FrameTable.exists_present (h : m.FrameTable)
    (hfull : ∀ f < m.frameCount, m.freeFrames f = false) :
    ∃ v < m.pageCount, (m.pageTable v).presentBit = true := by
  obtain ⟨v, hv, hp, -⟩ := (h.owned 0 h.frameCount_pos).mp (hfull 0 h.frameCount_pos)
  exact ⟨v, hv, hp⟩

/-- `_replacePage` after the clock has stopped at page `v`, which was in frame `f`. -/
theorem wp_evict {Q : Int → MemoryManager → Prop} (hv : v < m.pageCount) (hf : f < m.frameCount)
    (hpfn : (m.pageTable v).pageFrameNum = f) (h : Q f (m.evict v f)) :
    wp (doIf ((m.pageTable v).modifyBit = true) (writePageToDisk v))
      (fun _ t => wp (index f m.frameCount)
        (fun g t => wp (wipeMemoryFrame f) (fun _ t => Q f t) E
          ((t.setFree g true).setEntry v fun e => { e with pageFrameNum := -1 })) E t) E m := by
  rw [wp_doIf]
  split
  · next hdirty =>
    apply wp_writePageToDisk hv hf hpfn
    rw [wp_index_natCast hf]
    have hf' : f < ((m.saveToDisk v f).setFree f true).frameCount := hf
    apply wp_wipeMemoryFrame (m := ((m.saveToDisk v f).setFree f true).setEntry v _) hf'
    simpa only [evict, hdirty, if_true] using h
  · next hclean =>
    rw [wp_index_natCast hf]
    apply wp_wipeMemoryFrame (m := (m.setFree f true).setEntry v _) hf
    simpa only [evict, hclean, Bool.false_eq_true, if_false] using h

private theorem wp_replacePage (h : m.FrameTable) (hfull : ∀ f < m.frameCount, m.freeFrames f = false) :
    wp replacePage (fun r t => ∃ f : Nat, r = f ∧ Provides m t f) E m := by
  obtain ⟨p, hp, hpresent⟩ := h.exists_present hfull
  simp only [replacePage, wp_bind, wp_state, wp_update, wp_pure]
  apply wp_mono_post (wp_tick hp hpresent h.clock_le (ticksTo_lt h.clock_le hp))
  rintro r t ⟨v, ⟨hv, hvp, m₁, hm₁, rfl⟩, rfl⟩
  obtain ⟨-, f, hf, hpfn⟩ := h.present v hv hvp
  have h₁ := h.sameButReference hm₁
  have hfields := hm₁.fields v
  have hf₁ : f < m₁.frameCount := hm₁.sizes.frameCount ▸ hf
  have hown : m₁.Owns v f :=
    ⟨hm₁.pageCount_eq ▸ hv, hfields.1.trans hvp, hfields.2.2.2.trans hpfn⟩
  have hprov : Provides m ((m₁.markAbsent v).evict v f) f :=
    ⟨h₁.evict hown, evict_sizes.frameCount.symm ▸ hf₁,
      by rw [evict_freeFrames, Function.update_self], Or.inr ⟨v, m₁, hm₁, hown, rfl⟩⟩
  have hmod : ((m₁.markAbsent v).pageTable v).modifyBit = (m.pageTable v).modifyBit := by
    rw [markAbsent, setEntry_same]
    exact hfields.2.2.1
  have hpfn' : ((m₁.markAbsent v).pageTable v).pageFrameNum = f := by
    rw [markAbsent, setEntry_same]
    exact hown.2.2
  have hcount : m.frameCount = (m₁.markAbsent v).frameCount := hm₁.sizes.frameCount.symm
  rw [← markAbsent, hpfn, ← hmod, hcount]
  exact wp_evict (m := m₁.markAbsent v) (Q := fun r t => ∃ f : Nat, r = f ∧ Provides m t f)
    hown.1 hf₁ hpfn' ⟨f, rfl, hprov⟩

theorem wp_takeFrame (h : m.FrameTable) :
    wp takeFrame (fun r t => ∃ f : Nat, r = f ∧ Provides m t f) E m := by
  simp only [takeFrame, wp_bind, wp_state, wp_ite]
  cases firstIndex_cases m.frameCount m.freeFrames with
  | inl hnone =>
    rw [if_pos hnone.1]
    exact wp_replacePage h hnone.2
  | inr hsome =>
    obtain ⟨f, hf, hfirst, hfree, -⟩ := hsome
    rw [if_neg (by omega), hfirst]
    exact ⟨f, rfl, h, hf, hfree, Or.inl rfl⟩

namespace Provides

theorem sizes (h : Provides m t f) : SameSizes m t := by
  cases h.how with
  | inl heq => exact heq ▸ ⟨rfl, rfl, rfl⟩
  | inr hex =>
    obtain ⟨v, m₁, hm₁, -, rfl⟩ := hex
    exact hm₁.sizes.trans evict_sizes

/-- A page that was not present before is left alone. -/
theorem entry (h : Provides m t f) (habsent : (m.pageTable w).presentBit = false) :
    ∃ b, t.pageTable w = { m.pageTable w with referenceBit := b } := by
  cases h.how with
  | inl heq => exact ⟨(m.pageTable w).referenceBit, by rw [heq]⟩
  | inr hex =>
    obtain ⟨v, m₁, hm₁, hown, rfl⟩ := hex
    obtain ⟨b, hb⟩ := hm₁.entry w
    have hwv : w ≠ v := fun hwv => by
      have := hown.2.1
      rw [← hwv, hb, habsent] at this
      cases this
    exact ⟨b, by rw [evict_pageTable, Function.update_of_ne hwv, hb]⟩

end Provides

/-- The rest of `_handlePageFault`, once frame `f` is free. -/
def load (v f : Nat) (m : MemoryManager) : MemoryManager :=
  let filled := (m.setEntry v fun e => { e with pageFrameNum := f }).loadFromDisk v f
  (filled.setFree f false).setEntry v fun e => { e with presentBit := true }

theorem load_pageTable : (m.load v f).pageTable = Function.update m.pageTable v
    { m.pageTable v with presentBit := true, pageFrameNum := f } := by
  simp only [load, setEntry, setFree, loadFromDisk, Function.update_idem, Function.update_self]

private theorem FrameTable.load (h : m.FrameTable) (hv : v < m.pageCount)
    (hvalid : (m.pageTable v).validBit = true) (habsent : (m.pageTable v).presentBit = false)
    (hf : f < m.frameCount) (hfree : m.freeFrames f = true) : (m.load v f).FrameTable :=
  h.give ⟨rfl, rfl, rfl⟩ h.clock_le load_pageTable rfl hv hf hfree habsent ⟨hvalid, rfl, rfl⟩

/-- The page is loaded into a frame that was free or was made so. -/
def Loads (m t : MemoryManager) (v : Nat) : Prop :=
  ∃ f m₁, Provides m m₁ f ∧ t = m₁.load v f

private theorem wp_handlePageFault (h : m.FrameTable) (hv : v < m.pageCount) :
    wp (handlePageFault v) (fun _ t => Loads m t v) E m := by
  simp only [handlePageFault, wp_bind]
  apply wp_mono_post (wp_takeFrame h)
  rintro r t ⟨f, rfl, ht⟩
  simp only [wp_update]
  have hv' : v < t.pageCount := ht.sizes.pageCount ▸ hv
  apply wp_readPageFromDisk (m := t.setEntry v _) hv' ht.lt
  rw [wp_state]
  have hf : f < ((t.setEntry v fun e => { e with pageFrameNum := f }).loadFromDisk v f).frameCount :=
    ht.lt
  apply (wp_index_natCast hf).mpr
  exact ⟨f, t, ht, rfl⟩

/-- The state in which `_virtualToPhysicalAddress` computes its result: page `v` is present. -/
structure Ready (m t : MemoryManager) (v : Nat) : Prop where
  how : (m.pageTable v).presentBit = true ∧ t = m ∨ (m.pageTable v).presentBit = false ∧ Loads m t v
  frames : t.FrameTable
  sizes : SameSizes m t
  present : (t.pageTable v).presentBit = true

private theorem Loads.ready (h : Loads m t v) (hv : v < m.pageCount)
    (hvalid : (m.pageTable v).validBit = true) (habsent : (m.pageTable v).presentBit = false) :
    Ready m t v := by
  obtain ⟨f, m₁, hm₁, rfl⟩ := h
  have hv₁ : v < m₁.pageCount := hm₁.sizes.pageCount ▸ hv
  obtain ⟨b, hb⟩ := hm₁.entry habsent
  constructor
  · exact Or.inr ⟨habsent, f, m₁, hm₁, rfl⟩
  · exact hm₁.frames.load hv₁ (by rw [hb]; exact hvalid) (by rw [hb]; exact habsent) hm₁.lt hm₁.free
  · exact hm₁.sizes.trans ⟨rfl, rfl, rfl⟩
  · rw [load_pageTable, Function.update_self]

/-- The bits `_virtualToPhysicalAddress` sets. -/
def touch (v : Nat) (writeOperation : Bool) (m : MemoryManager) : MemoryManager :=
  m.setEntry v fun e =>
    { e with referenceBit := true, modifyBit := e.modifyBit || writeOperation }

theorem touch_field (writeOperation : Bool) (w : Nat) :
    ((m.touch v writeOperation).pageTable w).presentBit = (m.pageTable w).presentBit ∧
      ((m.touch v writeOperation).pageTable w).validBit = (m.pageTable w).validBit ∧
      ((m.touch v writeOperation).pageTable w).pageFrameNum = (m.pageTable w).pageFrameNum := by
  by_cases hw : w = v
  · rw [hw, touch, setEntry_same]
    exact ⟨rfl, rfl, rfl⟩
  · rw [touch, setEntry_other _ hw]
    exact ⟨rfl, rfl, rfl⟩

theorem FrameTable.touch (h : m.FrameTable) (writeOperation : Bool) :
    (m.touch v writeOperation).FrameTable :=
  h.congr ⟨rfl, rfl, rfl⟩ h.clock_le rfl (fun w => (touch_field writeOperation w).1)
    (fun w => (touch_field writeOperation w).2.2) fun w _ => (touch_field writeOperation w).2.1

theorem pageOffset_lt (virtualAddress : Int) {pageSize : Nat} (h : 0 < pageSize) :
    pageOffset virtualAddress pageSize < pageSize := by
  have hle : pageOffset virtualAddress pageSize ≤ (BitVec.ofNat 32 (pageSize - 1)).toNat := by
    rw [pageOffset, BitVec.toNat_and]
    exact Nat.and_le_right
  have := Nat.mod_le (pageSize - 1) (2 ^ 32)
  rw [BitVec.toNat_ofNat] at hle
  omega

/-- The page of a virtual address, when there is one. -/
def PageOf (m : MemoryManager) (virtualAddress : Int) (v : Nat) : Prop :=
  virtualAddress.tdiv m.pageSize = v ∧ v < m.pageCount

theorem pageOf_cases (m : MemoryManager) (virtualAddress : Int) :
    (virtualAddress.tdiv m.pageSize ≥ m.pageCount ∨ virtualAddress.tdiv m.pageSize < 0) ∨
      ∃ v, m.PageOf virtualAddress v := by
  by_cases h : virtualAddress.tdiv m.pageSize ≥ m.pageCount ∨ virtualAddress.tdiv m.pageSize < 0
  · exact Or.inl h
  · right
    refine ⟨(virtualAddress.tdiv m.pageSize).toNat, ?_, ?_⟩ <;> omega

theorem PageOf.not_out {virtualAddress : Int} (h : m.PageOf virtualAddress v) :
    ¬ ((v : Int) ≥ m.pageCount ∨ (v : Int) < 0) := by
  have := h.2
  omega

/-- The access of `_virtualToPhysicalAddress` to page `v`, with the physical address it
returns. -/
def Translates (m t : MemoryManager) (virtualAddress : Int) (writeOperation : Bool) (a : Nat) :
    Prop :=
  ∃ v f t₁, m.PageOf virtualAddress v ∧ (m.pageTable v).validBit = true ∧ Ready m t₁ v ∧
    t₁.Owns v f ∧ f < t₁.frameCount ∧ t = t₁.touch v writeOperation ∧
    a = f * m.pageSize + pageOffset virtualAddress m.pageSize

theorem Translates.lt {virtualAddress : Int} {writeOperation : Bool} {a : Nat}
    (hp : 0 < m.pageSize) (h : Translates m t virtualAddress writeOperation a) :
    a < t.physicalSize := by
  obtain ⟨v, f, t₁, -, -, ht₁, -, hf, rfl, rfl⟩ := h
  have hoff := pageOffset_lt virtualAddress hp
  have hend := frame_end_le hf
  rw [ht₁.sizes.pageSize] at hend
  show _ < t₁.physicalSize
  omega

private theorem Translates.frames {virtualAddress : Int} {writeOperation : Bool} {a : Nat}
    (h : Translates m t virtualAddress writeOperation a) : t.FrameTable := by
  obtain ⟨v, f, t₁, -, -, ht₁, -, -, rfl, -⟩ := h
  exact ht₁.frames.touch writeOperation

/-- What a method throws for an address outside the page table or in an invalid page. -/
inductive Refuses (m : MemoryManager) (virtualAddress : Int) (invalidPage : Exn) : Exn → Prop where
  | outOfBound :
      (virtualAddress.tdiv m.pageSize ≥ m.pageCount ∨ virtualAddress.tdiv m.pageSize < 0) →
      Refuses m virtualAddress invalidPage
        (.outOfRange "Attempted to access out-of-bound virtual address")
  | invalid {v : Nat} : m.PageOf virtualAddress v → (m.pageTable v).validBit = false →
      Refuses m virtualAddress invalidPage invalidPage

def segmentationFault : Exn := .runtimeError "Segmentation fault occurred: Invalid page accessed"

theorem wp_present (h : m.FrameTable) (hv : v < m.pageCount)
    (hvalid : (m.pageTable v).validBit = true) :
    wp (doIf (¬ (m.pageTable v).presentBit) (handlePageFault v)) (fun _ t => Ready m t v) E m := by
  rw [wp_doIf]
  cases hp : (m.pageTable v).presentBit with
  | true =>
    rw [if_neg (by simp)]
    exact ⟨Or.inl ⟨hp, rfl⟩, h, ⟨rfl, rfl, rfl⟩, hp⟩
  | false =>
    rw [if_pos (by simp)]
    exact wp_mono_post (wp_handlePageFault h hv) fun _ t ht => ht.ready hv hvalid hp

theorem wp_virtualToPhysicalAddress (h : m.FrameTable) (virtualAddress : Int)
    (writeOperation : Bool) :
    wp (virtualToPhysicalAddress virtualAddress writeOperation)
      (fun r t => ∃ a : Nat, r = a ∧ Translates m t virtualAddress writeOperation a)
      (fun e t => t = m ∧ Refuses m virtualAddress segmentationFault e) m := by
  simp only [virtualToPhysicalAddress, wp_bind, wp_state, wp_raiseIf]
  cases pageOf_cases m virtualAddress with
  | inl hout =>
    rw [if_pos hout]
    exact ⟨trivial, .outOfBound hout⟩
  | inr hex =>
    obtain ⟨v, hv⟩ := hex
    have hdiv := hv.1
    rw [hdiv, if_neg hv.not_out, wp_index_natCast hv.2]
    cases hvalid : (m.pageTable v).validBit with
    | false =>
      rw [if_pos (by simp)]
      exact ⟨rfl, .invalid hv hvalid⟩
    | true =>
      rw [if_neg (by simp)]
      apply wp_mono_post (wp_present h hv.2 hvalid)
      intro _ t₁ ht₁
      have hv₁ : v < t₁.pageCount := ht₁.sizes.pageCount ▸ hv.2
      obtain ⟨-, f, hf, hpfn⟩ := ht₁.frames.present v hv₁ ht₁.present
      have hoff := pageOffset_lt virtualAddress h.pageSize_pos
      have hend := frame_end_le hf
      rw [ht₁.sizes.pageSize] at hend
      have haddr : (t₁.pageTable v).pageFrameNum * t₁.pageSize + pageOffset virtualAddress m.pageSize
          = (f * m.pageSize + pageOffset virtualAddress m.pageSize : Nat) := by
        rw [hpfn, ht₁.sizes.pageSize]
        push_cast
        rfl
      have hresult : Translates m (t₁.touch v writeOperation) virtualAddress writeOperation
          (f * m.pageSize + pageOffset virtualAddress m.pageSize) :=
        ⟨v, f, t₁, hv, hvalid, ht₁, ⟨hv₁, ht₁.present, hpfn⟩, hf, rfl, rfl⟩
      rw [haddr, if_neg (by omega)]
      cases writeOperation with
      | true => exact ⟨_, rfl, by simpa [touch, setEntry] using hresult⟩
      | false => exact ⟨_, rfl, by simpa [touch, setEntry] using hresult⟩

theorem wp_writeVirtualMemory (h : m.FrameTable) (virtualAddress : Int) (data : UInt8) :
    wp (writeVirtualMemory virtualAddress data)
      (fun _ t => ∃ a t₁, Translates m t₁ virtualAddress true a ∧ t = t₁.storeByte a data)
      (fun e t => t = m ∧ Refuses m virtualAddress segmentationFault e) m := by
  simp only [writeVirtualMemory, wp_bind]
  apply wp_mono_post (wp_virtualToPhysicalAddress h virtualAddress true)
  rintro r t ⟨a, rfl, ht⟩
  have hlt := ht.lt h.pageSize_pos
  simp only [writeMemory, wp_bind, wp_state, wp_raiseIf]
  rw [if_neg (by omega), wp_index_natCast hlt]
  exact ⟨a, t, ht, rfl⟩

theorem wp_readVirtualMemory (h : m.FrameTable) (virtualAddress : Int) :
    wp (readVirtualMemory virtualAddress)
      (fun b t => ∃ a, Translates m t virtualAddress false a ∧ b = t.physicalMemory a)
      (fun e t => t = m ∧ Refuses m virtualAddress segmentationFault e) m := by
  simp only [readVirtualMemory, wp_bind]
  apply wp_mono_post (wp_virtualToPhysicalAddress h virtualAddress false)
  rintro r t ⟨a, rfl, ht⟩
  have hlt := ht.lt h.pageSize_pos
  simp only [readMemory, wp_bind, wp_state, wp_raiseIf]
  rw [if_neg (by omega), wp_index_natCast hlt]
  exact ⟨a, ht, rfl⟩

/-- `_allocatePage` on its own. -/
def assign (v f : Nat) (m : MemoryManager) : MemoryManager :=
  (m.setEntry v fun e =>
    { e with validBit := true, pageFrameNum := f, presentBit := true }).setFree f false

private theorem FrameTable.assign (h : m.FrameTable) (hv : v < m.pageCount)
    (habsent : (m.pageTable v).presentBit = false) (hf : f < m.frameCount)
    (hfree : m.freeFrames f = true) : (m.assign v f).FrameTable :=
  h.give ⟨rfl, rfl, rfl⟩ h.clock_le rfl rfl hv hf hfree habsent ⟨rfl, rfl, rfl⟩

/-- The lowest page that is not valid becomes valid, in a frame that was free or was made so. -/
structure Allocates (m t : MemoryManager) (v : Nat) : Prop where
  lt : v < m.pageCount
  invalid : (m.pageTable v).validBit = false
  lowest : ∀ w < v, (m.pageTable w).validBit = true
  how : ∃ f m₁, Provides m m₁ f ∧ t = m₁.assign v f

private theorem FrameTable.absent_of_invalid (h : m.FrameTable) (hv : v < m.pageCount)
    (hinvalid : (m.pageTable v).validBit = false) : (m.pageTable v).presentBit = false := by
  cases hp : (m.pageTable v).presentBit with
  | false => rfl
  | true =>
    have := (h.present v hv hp).1
    rw [hinvalid] at this
    cases this

theorem wp_allocateAnyPage (h : m.FrameTable) :
    wp allocateAnyPage (fun r t => ∃ v : Nat, r = v * m.pageSize ∧ Allocates m t v)
      (fun e t => t = m ∧ (∀ v < m.pageCount, (m.pageTable v).validBit = true) ∧
        e = .runtimeError "No free pages available for allocation") m := by
  simp only [allocateAnyPage, wp_bind, wp_state, wp_raiseIf]
  cases firstIndex_cases m.pageCount fun i => !(m.pageTable i).validBit with
  | inl hnone =>
    rw [if_pos hnone.1]
    exact ⟨trivial, fun v hv => by simpa using hnone.2 v hv, trivial⟩
  | inr hsome =>
    obtain ⟨v, hv, hfirst, hinvalid, hlow⟩ := hsome
    rw [if_neg (by omega), hfirst]
    apply wp_mono_post (wp_takeFrame h)
    rintro r t ⟨f, rfl, ht⟩
    have hv' : v < t.pageCount := ht.sizes.pageCount ▸ hv
    have hf := ht.lt
    simp only [allocatePage, wp_bind, wp_state, wp_raiseIf]
    rw [if_neg (by omega), if_neg (by omega), wp_index_natCast hv', wp_update, wp_index_natCast hf]
    exact ⟨v, rfl, hv, by simpa using hinvalid, fun w hw => by simpa using hlow w hw, f, t, ht, rfl⟩

theorem Allocates.frames (h : m.FrameTable) (ht : Allocates m t v) : t.FrameTable := by
  obtain ⟨f, m₁, hm₁, rfl⟩ := ht.how
  have habsent := h.absent_of_invalid ht.lt ht.invalid
  obtain ⟨b, hb⟩ := hm₁.entry habsent
  have hv₁ : v < m₁.pageCount := hm₁.sizes.pageCount ▸ ht.lt
  exact hm₁.frames.assign hv₁ (by rw [hb]; exact habsent) hm₁.lt hm₁.free

/-- `deletePageTableEntry` on a page in frame `f`. -/
def release (v f : Nat) (m : MemoryManager) : MemoryManager :=
  let wiped := (m.setEntry v fun e => { e with validBit := false }).wipe f
  let absent := wiped.setEntry v fun e => { e with presentBit := false }
  ((absent.setFree f true).setEntry v fun e => { e with pageFrameNum := -1 }).setEntry v fun e =>
    { e with modifyBit := false, referenceBit := false }

/-- `deletePageTableEntry` on a page that is on the disk. -/
def discard (v : Nat) (m : MemoryManager) : MemoryManager :=
  ((m.setEntry v fun e => { e with validBit := false }).clearDisk v).setEntry v fun e =>
    { e with modifyBit := false, referenceBit := false }

inductive Deletes (m : MemoryManager) (v : Nat) : MemoryManager → Prop where
  | present {f : Nat} : m.Owns v f → f < m.frameCount → Deletes m v (m.release v f)
  | absent : (m.pageTable v).presentBit = false → Deletes m v (m.discard v)

theorem wp_deletePageTableEntry (h : m.FrameTable) (virtualAddress : Int) :
    wp (deletePageTableEntry virtualAddress)
      (fun _ t => ∃ v, m.PageOf virtualAddress v ∧ (m.pageTable v).validBit = true ∧ Deletes m v t)
      (fun e t => t = m ∧
        Refuses m virtualAddress (.logicError "Attempted to delete an invalid page") e) m := by
  simp only [deletePageTableEntry, wp_bind, wp_state, wp_raiseIf]
  cases pageOf_cases m virtualAddress with
  | inl hout =>
    rw [if_pos hout]
    exact ⟨trivial, .outOfBound hout⟩
  | inr hex =>
    obtain ⟨v, hv⟩ := hex
    have hdiv := hv.1
    rw [hdiv, if_neg hv.not_out, wp_index_natCast hv.2]
    cases hvalid : (m.pageTable v).validBit with
    | false =>
      rw [if_pos (by simp)]
      exact ⟨rfl, .invalid hv hvalid⟩
    | true =>
      rw [if_neg (by simp)]
      simp only [wp_update, wp_ite, wp_bind]
      cases hp : (m.pageTable v).presentBit with
      | true =>
        rw [if_pos rfl]
        obtain ⟨-, f, hf, hpfn⟩ := h.present v hv.2 hp
        rw [hpfn]
        apply wp_wipeMemoryFrame (m := m.setEntry v _) hf
        rw [wp_index_natCast hf]
        exact ⟨v, hv, hvalid, .present ⟨hv.2, hp, hpfn⟩ hf⟩
      | false =>
        rw [if_neg (by simp)]
        apply wp_deletePageFromDisk (m := m.setEntry v _) hv.2
        exact ⟨v, hv, hvalid, .absent hp⟩

theorem release_pageTable : (m.release v f).pageTable = Function.update m.pageTable v {} := by
  simp only [release, setEntry, setFree, wipe, Function.update_idem, Function.update_self]

theorem discard_entry (w : Nat) :
    ((m.discard v).pageTable w).presentBit = (m.pageTable w).presentBit ∧
      ((m.discard v).pageTable w).pageFrameNum = (m.pageTable w).pageFrameNum ∧
      (w ≠ v → (m.discard v).pageTable w = m.pageTable w) := by
  have h : (m.discard v).pageTable = Function.update m.pageTable v
      { m.pageTable v with validBit := false, modifyBit := false, referenceBit := false } := by
    simp only [discard, setEntry, clearDisk, Function.update_idem, Function.update_self]
  rw [h]
  by_cases hw : w = v
  · rw [hw, Function.update_self]
    exact ⟨rfl, rfl, fun hne => absurd rfl hne⟩
  · rw [Function.update_of_ne hw]
    exact ⟨rfl, rfl, fun _ => rfl⟩

theorem Deletes.frames (h : m.FrameTable) (ht : Deletes m v t) : t.FrameTable := by
  cases ht with
  | present hown hf =>
    exact h.take ⟨rfl, rfl, rfl⟩ h.clock_le release_pageTable rfl hown rfl
  | absent hp =>
    apply h.congr (t := m.discard v) ⟨rfl, rfl, rfl⟩ h.clock_le rfl
    · exact fun w => (discard_entry w).1
    · exact fun w => (discard_entry w).2.1
    · intro w hw
      have hwv : w ≠ v := fun hwv => by
        rw [hwv, hp] at hw
        cases hw
      rw [(discard_entry w).2.2 hwv]

theorem wp_printPageTableEntry (virtualAddress : Int) :
    wp (printPageTableEntry virtualAddress) (fun _ t => t = m)
      (fun _ t => t = m ∧ ∀ v, ¬ m.PageOf virtualAddress v) m := by
  simp only [printPageTableEntry, wp_bind, wp_state, wp_raiseIf]
  cases pageOf_cases m virtualAddress with
  | inl hout =>
    rw [if_pos hout]
    exact ⟨trivial, fun v hv => hv.not_out (hv.1 ▸ hout)⟩
  | inr hex =>
    obtain ⟨v, hv⟩ := hex
    rw [hv.1, if_neg hv.not_out, wp_index_natCast hv.2]
    rfl

/-- A call of a public method. -/
inductive Call where
  | allocateAnyPage
  | writeVirtualMemory (virtualAddress : Int) (data : UInt8)
  | readVirtualMemory (virtualAddress : Int)
  | deletePageTableEntry (virtualAddress : Int)
  | printPageTableEntry (virtualAddress : Int)

/-- What a public method returns. -/
inductive Value where
  | address (a : Int)
  | byte (b : UInt8)
  | void
deriving DecidableEq

def Call.perform : Call → Method Value
  | .allocateAnyPage => do
    let a ← MemoryManager.allocateAnyPage
    return .address a
  | .writeVirtualMemory a b => do
    MemoryManager.writeVirtualMemory a b
    return .void
  | .readVirtualMemory a => do
    let b ← MemoryManager.readVirtualMemory a
    return .byte b
  | .deletePageTableEntry a => do
    MemoryManager.deletePageTableEntry a
    return .void
  | .printPageTableEntry a => do
    MemoryManager.printPageTableEntry a
    return .void

/-- A call that returned or threw. -/
def Step (m t : MemoryManager) : Prop := ∃ (c : Call) (r : Except Exn Value), c.perform m = some (r, t)

/-- A state of a manager built with sizes that an int can hold, after any calls. -/
structure ReachableFrom (pageSize numPages numFrames : Nat) (m : MemoryManager) : Prop where
  fits : SizesFit pageSize numPages numFrames
  reached : Reachable (· = new pageSize numPages numFrames) Step m

theorem ReachableFrom.start {pageSize numPages numFrames : Nat} (hfit : SizesFit pageSize numPages numFrames) :
    ReachableFrom pageSize numPages numFrames (new pageSize numPages numFrames) :=
  ⟨hfit, Reachable.start rfl⟩

theorem ReachableFrom.next {pageSize numPages numFrames : Nat} (h : ReachableFrom pageSize numPages numFrames m)
    (hstep : Step m t) : ReachableFrom pageSize numPages numFrames t :=
  ⟨h.fits, h.reached.next hstep⟩

theorem wp_perform (h : m.FrameTable) (c : Call) :
    wp c.perform (fun _ t => t.FrameTable) (fun _ t => t.FrameTable) m := by
  cases c with
  | allocateAnyPage =>
    simp only [Call.perform, wp_bind, wp_pure]
    apply wp_mono (wp_allocateAnyPage h)
    · rintro r t ⟨v, -, ht⟩
      exact ht.frames h
    · rintro e t ⟨rfl, -⟩
      exact h
  | writeVirtualMemory a b =>
    simp only [Call.perform, wp_bind, wp_pure]
    apply wp_mono (wp_writeVirtualMemory h a b)
    · rintro r t ⟨x, t₁, ht, rfl⟩
      exact ht.frames.congr ⟨rfl, rfl, rfl⟩ ht.frames.clock_le rfl (fun _ => rfl) (fun _ => rfl)
        fun _ _ => rfl
    · rintro e t ⟨rfl, -⟩
      exact h
  | readVirtualMemory a =>
    simp only [Call.perform, wp_bind, wp_pure]
    apply wp_mono (wp_readVirtualMemory h a)
    · rintro r t ⟨x, ht, -⟩
      exact ht.frames
    · rintro e t ⟨rfl, -⟩
      exact h
  | deletePageTableEntry a =>
    simp only [Call.perform, wp_bind, wp_pure]
    apply wp_mono (wp_deletePageTableEntry h a)
    · rintro r t ⟨v, -, -, ht⟩
      exact ht.frames h
    · rintro e t ⟨rfl, -⟩
      exact h
  | printPageTableEntry a =>
    simp only [Call.perform, wp_bind, wp_pure]
    apply wp_mono (wp_printPageTableEntry a)
    · rintro r t rfl
      exact h
    · rintro e t ⟨rfl, -⟩
      exact h

private theorem FrameTable.step (h : m.FrameTable) (hs : Step m t) : t.FrameTable := by
  obtain ⟨c, r, hr⟩ := hs
  have hwp := wp_perform h c
  unfold wp at hwp
  rw [hr] at hwp
  cases r <;> exact hwp

theorem ReachableFrom.frameTable {pageSize numPages numFrames : Nat} (hp : 0 < pageSize)
    (hf : 0 < numFrames) (h : ReachableFrom pageSize numPages numFrames m) : m.FrameTable := by
  apply h.reached.invariant
  · rintro s rfl
    exact frameTable_new hp hf
  · exact fun s t _ hs hst => hs.step hst

/-- In every reachable state the two records of the frames agree. -/
theorem frames_consistent {pageSize numPages numFrames : Nat} (hp : 0 < pageSize)
    (hf : 0 < numFrames) (h : ReachableFrom pageSize numPages numFrames m) :
    (∀ f < m.frameCount, (m.freeFrames f = false ↔
      ∃! v, v < m.pageCount ∧ (m.pageTable v).presentBit = true ∧
        (m.pageTable v).pageFrameNum = f)) ∧
    (∀ v < m.pageCount, (m.pageTable v).presentBit = true → (m.pageTable v).validBit = true ∧
      0 ≤ (m.pageTable v).pageFrameNum ∧ (m.pageTable v).pageFrameNum < m.frameCount) ∧
    (∀ v < m.pageCount, ∀ w < m.pageCount, (m.pageTable v).presentBit = true →
      (m.pageTable w).presentBit = true →
      (m.pageTable v).pageFrameNum = (m.pageTable w).pageFrameNum → v = w) ∧
    ∀ c : Call, ∃ r t, c.perform m = some (r, t) := by
  have ht := h.frameTable hp hf
  refine ⟨?_, ?_, ?_, ?_⟩
  · intro f hlt
    rw [ht.owned f hlt]
    constructor
    · rintro ⟨v, hv⟩
      exact ⟨v, hv, fun w hw => ht.unique w v f hw hv⟩
    · rintro ⟨v, hv, -⟩
      exact ⟨v, hv⟩
  · intro v hv hpres
    obtain ⟨hvalid, f, hlt, hpfn⟩ := ht.present v hv hpres
    exact ⟨hvalid, by omega, by omega⟩
  · intro v hv w hw hpv hpw heq
    obtain ⟨-, f, -, hpfn⟩ := ht.present v hv hpv
    exact ht.unique v w f ⟨hv, hpv, hpfn⟩ ⟨hw, hpw, heq ▸ hpfn⟩
  · intro c
    obtain ⟨r, t, hrt, -⟩ := wp_elim (wp_perform ht c)
    exact ⟨r, t, hrt⟩

theorem frames_consistent_allocated :
    ((new 4 2 1).assign 0 0).freeFrames 0 = false ∧
    ∃! v, v < 2 ∧ (((new 4 2 1).assign 0 0).pageTable v).presentBit = true ∧
      (((new 4 2 1).assign 0 0).pageTable v).pageFrameNum = (0 : Nat) := by
  have hstep : Step (new 4 2 1) ((new 4 2 1).assign 0 0) :=
    ⟨.allocateAnyPage, .ok (.address 0), rfl⟩
  have hreach : ReachableFrom 4 2 1 ((new 4 2 1).assign 0 0) :=
    (ReachableFrom.start ⟨by decide, by decide, by decide⟩).next hstep
  have h := frames_consistent (by decide) (by decide) hreach
  exact ⟨rfl, (h.1 0 (by decide)).mp rfl⟩

end CseOs.MemoryManager
