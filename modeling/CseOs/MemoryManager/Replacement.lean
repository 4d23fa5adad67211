import CseOs.MemoryManager.Addresses

/-!
# The victim of the clock

Which page `_replacePage` takes out, in terms of what the hand passes on its way and of what the
pages were used for since it last passed them.
-/

namespace CseOs.MemoryManager

open Framework Framework.Prog

variable {m t u : MemoryManager} {v w f fuel : Nat} {a : Int} {E : Exn → MemoryManager → Prop}

/-- The page at the hand is present and not referenced. -/
def takes (m : MemoryManager) : Bool :=
  (m.pageTable m.wrapClock.clockPointer).presentBit &&
    !(m.pageTable m.wrapClock.clockPointer).referenceBit

/-- The hand passes the page at it. -/
def pass (m : MemoryManager) : MemoryManager :=
  (if (m.pageTable m.wrapClock.clockPointer).presentBit then
    m.wrapClock.setEntry m.wrapClock.clockPointer fun e => { e with referenceBit := false }
  else m.wrapClock).advanceClock

/-- The page at the hand is taken out. -/
def takeOut (m : MemoryManager) : MemoryManager :=
  (m.wrapClock.setEntry m.wrapClock.clockPointer fun e =>
    { e with presentBit := false }).advanceClock

/-- The pages that the hand passes in at most `fuel` ticks before it takes one out. -/
def sweep : Nat → MemoryManager → List Nat
  | 0, _ => []
  | fuel + 1, m => if m.takes then [] else m.wrapClock.clockPointer :: sweep fuel m.pass

section Tick

variable {Q : Int × Nat × Bool → MemoryManager → Prop}

theorem wp_tick_succ : wp (tick (fuel + 1)) Q E m ↔
    m.wrapClock.clockPointer < m.pageCount ∧
      if m.takes then
        Q ((m.pageTable m.wrapClock.clockPointer).pageFrameNum, m.wrapClock.clockPointer,
          (m.pageTable m.wrapClock.clockPointer).modifyBit) m.takeOut
      else wp (tick fuel) Q E m.pass := by
  simp only [tick, wp_bind, wp_update, wp_state, wp_index_iff, wrapClock_pageCount,
    wrapClock_pageTable, Int.toNat_natCast, wp_ite, wp_pure]
  have hindex : (0 ≤ (m.wrapClock.clockPointer : Int) ∧
      (m.wrapClock.clockPointer : Int) < m.pageCount) ↔ m.wrapClock.clockPointer < m.pageCount := by
    omega
  rw [hindex, takes, pass, takeOut]
  apply and_congr_right
  intro _
  cases (m.pageTable m.wrapClock.clockPointer).presentBit with
  | false => simp
  | true => cases (m.pageTable m.wrapClock.clockPointer).referenceBit <;> simp

end Tick

/-- What a step of the manager keeps: the reference bits outside `P`, and the modify bits. -/
structure Kept (m t : MemoryManager) (P : Nat → Prop) : Prop where
  reference : ∀ w, (m.pageTable w).referenceBit = true → ¬ P w →
    (t.pageTable w).referenceBit = true
  modify : ∀ w, (m.pageTable w).modifyBit = true → (t.pageTable w).modifyBit = true

private theorem Kept.trans {P P' : Nat → Prop} (h : Kept m t P) (h' : Kept t u P') :
    Kept m u fun w => P w ∨ P' w :=
  ⟨fun w hw hP => h'.reference w (h.reference w hw fun hp => hP (.inl hp)) fun hp => hP (.inr hp),
    fun w hw => h'.modify w (h.modify w hw)⟩

private theorem Kept.mono {P P' : Nat → Prop} (h : Kept m t P) (hP : ∀ w, P w → P' w) : Kept m t P' :=
  ⟨fun w hw hno => h.reference w hw fun hp => hno (hP w hp), h.modify⟩

private theorem setEntry_kept {P : Nat → Prop} {g : PageTableEntry → PageTableEntry}
    (href : (m.pageTable v).referenceBit = true → ¬ P v → (g (m.pageTable v)).referenceBit = true)
    (hmod : (m.pageTable v).modifyBit = true → (g (m.pageTable v)).modifyBit = true) :
    Kept m (m.setEntry v g) P := by
  constructor
  · intro w hw hP
    by_cases hwv : w = v
    · subst hwv
      rw [setEntry_same]
      exact href hw hP
    · rw [setEntry_other _ hwv, hw]
  · intro w hw
    by_cases hwv : w = v
    · subst hwv
      rw [setEntry_same]
      exact hmod hw
    · rw [setEntry_other _ hwv, hw]

theorem Kept.congr {m' t' : MemoryManager} {P : Nat → Prop} (h : Kept m t P)
    (hm : m'.pageTable = m.pageTable) (ht : t'.pageTable = t.pageTable) : Kept m' t' P := by
  constructor
  · rw [hm, ht]
    exact h.reference
  · rw [hm, ht]
    exact h.modify

private theorem Kept.refl {P : Nat → Prop} : Kept m m P := ⟨fun _ hw _ => hw, fun _ hw => hw⟩

private theorem pass_kept : Kept m m.pass (· = m.wrapClock.clockPointer) := by
  have hset : Kept m.wrapClock (m.wrapClock.setEntry m.wrapClock.clockPointer fun e =>
      { e with referenceBit := false }) (· = m.wrapClock.clockPointer) := by
    apply setEntry_kept
    · exact fun _ hne => absurd rfl hne
    · exact fun hmod => hmod
  unfold pass
  split
  · exact hset.congr wrapClock_pageTable.symm rfl
  · exact Kept.refl.congr wrapClock_pageTable.symm rfl

private theorem takeOut_kept : Kept m m.takeOut fun _ => False := by
  have hset : Kept m.wrapClock (m.wrapClock.setEntry m.wrapClock.clockPointer fun e =>
      { e with presentBit := false }) fun _ => False := by
    apply setEntry_kept
    · exact fun href _ => href
    · exact fun hmod => hmod
  exact hset.congr wrapClock_pageTable.symm rfl

/-- The loop ends within its ticks, changes reference bits only where the hand passes, and takes out
a page that was not referenced or that it has passed before. -/
structure Swept (m : MemoryManager) (fuel : Nat) (r : Int × Nat × Bool) (t : MemoryManager) :
    Prop where
  length : (sweep fuel m).length < fuel
  kept : Kept m t (· ∈ sweep fuel m)
  victim : (m.pageTable r.2.1).referenceBit = true → r.2.1 ∈ sweep fuel m

theorem wp_tick_swept {Q : Int × Nat × Bool → MemoryManager → Prop} (h : wp (tick fuel) Q E m) :
    wp (tick fuel) (fun r t => Q r t ∧ Swept m fuel r t) E m := by
  induction fuel generalizing m with
  | zero => exact h
  | succ fuel ih =>
    rw [wp_tick_succ] at h ⊢
    refine ⟨h.1, ?_⟩
    have hrun := h.2
    by_cases htakes : m.takes = true
    · rw [if_pos htakes] at hrun ⊢
      have hnil : sweep (fuel + 1) m = [] := if_pos htakes
      refine ⟨hrun, by rw [hnil]; exact Nat.succ_pos fuel, ?_, fun href => ?_⟩
      · exact takeOut_kept.mono fun _ hf => hf.elim
      · rw [takes, href, Bool.not_true, Bool.and_false] at htakes
        cases htakes
    · rw [if_neg htakes] at hrun ⊢
      have hcons : sweep (fuel + 1) m = m.wrapClock.clockPointer :: sweep fuel m.pass :=
        if_neg htakes
      apply wp_mono_post (ih hrun)
      intro r t ht
      obtain ⟨hQ, hswept⟩ := ht
      refine ⟨hQ, ?_, ?_, fun href => ?_⟩
      · rw [hcons]
        exact Nat.succ_lt_succ hswept.length
      · apply (pass_kept.trans hswept.kept).mono
        rw [hcons]
        exact fun w hw => List.mem_cons.mpr hw
      · rw [hcons, List.mem_cons]
        by_cases hat : r.2.1 = m.wrapClock.clockPointer
        · exact .inl hat
        · exact .inr (hswept.victim (pass_kept.reference _ href hat))

private theorem evict_kept {P : Nat → Prop} : Kept m (m.evict v f) P := by
  have hsaved : (if (m.pageTable v).modifyBit then m.saveToDisk v f else m).pageTable =
      m.pageTable := by
    split <;> rfl
  have hset : Kept (if (m.pageTable v).modifyBit then m.saveToDisk v f else m)
      ((if (m.pageTable v).modifyBit then m.saveToDisk v f else m).setEntry v fun e =>
        { e with pageFrameNum := -1 }) P := by
    apply setEntry_kept
    · exact fun href _ => href
    · exact fun hmod => hmod
  exact hset.congr hsaved.symm rfl

/-- Page `v` in frame `f` was taken out by the clock. -/
structure Victim (m t : MemoryManager) (v f : Nat) : Prop where
  owns : m.Owns v f
  evicted : ∃ m₁, SameButReference m m₁ ∧ t = (m₁.markAbsent v).evict v f
  length : (sweep (2 * m.pageCount) m).length < 2 * m.pageCount
  kept : Kept m t (· ∈ sweep (2 * m.pageCount) m)
  referenced : (m.pageTable v).referenceBit = true → v ∈ sweep (2 * m.pageCount) m

private theorem wp_replacePage_victim (h : m.FrameTable)
    (hfull : ∀ f < m.frameCount, m.freeFrames f = false) :
    wp replacePage (fun r t => ∃ v f : Nat, r = f ∧ Victim m t v f) E m := by
  obtain ⟨p, hp, hpresent⟩ := h.exists_present hfull
  simp only [replacePage, wp_bind, wp_state, wp_update, wp_pure]
  apply wp_mono_post (wp_tick_swept
    (wp_tick hp hpresent h.clock_le (ticksTo_lt h.clock_le hp)))
  intro r t ht
  obtain ⟨⟨v, ⟨hv, hvp, m₁, hm₁, rfl⟩, rfl⟩, hswept⟩ := ht
  obtain ⟨-, f, hf, hpfn⟩ := h.present v hv hvp
  have hfields := hm₁.fields v
  have hv₁ : v < (m₁.markAbsent v).pageCount := hm₁.sizes.pageCount ▸ hv
  have hf₁ : f < (m₁.markAbsent v).frameCount := hm₁.sizes.frameCount ▸ hf
  have hmod : ((m₁.markAbsent v).pageTable v).modifyBit = (m.pageTable v).modifyBit := by
    rw [markAbsent, setEntry_same]
    exact hfields.2.2.1
  have hpfn₁ : ((m₁.markAbsent v).pageTable v).pageFrameNum = f := by
    rw [markAbsent, setEntry_same]
    exact hfields.2.2.2.trans hpfn
  have hvictim : Victim m ((m₁.markAbsent v).evict v f) v f :=
    ⟨⟨hv, hvp, hpfn⟩, ⟨m₁, hm₁, rfl⟩, hswept.length,
      (hswept.kept.trans evict_kept).mono fun w hw => hw.elim id False.elim, hswept.victim⟩
  have hcount : m.frameCount = (m₁.markAbsent v).frameCount := hm₁.sizes.frameCount.symm
  rw [← markAbsent, hpfn, ← hmod, hcount]
  exact wp_evict (m := m₁.markAbsent v)
    (Q := fun r t => ∃ v f : Nat, r = f ∧ Victim m t v f) hv₁ hf₁ hpfn₁ ⟨v, f, rfl, hvictim⟩

/-- The pages that the hand passes when a frame is taken -/
def hand (m : MemoryManager) : List Nat :=
  if firstIndex m.frameCount m.freeFrames = -1 then sweep (2 * m.pageCount) m else []

private theorem wp_takeFrame_kept (h : m.FrameTable) :
    wp takeFrame (fun r t => (∃ f : Nat, r = f ∧ Provides m t f) ∧ Kept m t (· ∈ m.hand)) E m := by
  have hkept : wp takeFrame (fun _ t => Kept m t (· ∈ m.hand)) E m := by
    simp only [takeFrame, wp_bind, wp_state, wp_ite, hand]
    cases firstIndex_cases m.frameCount m.freeFrames with
    | inl hnone =>
      rw [if_pos hnone.1, if_pos hnone.1]
      apply wp_mono_post (wp_replacePage_victim h hnone.2)
      intro r t ht
      obtain ⟨v, f, _, hv⟩ := ht
      exact hv.kept
    | inr hsome =>
      obtain ⟨f, _, hfirst, _⟩ := hsome
      rw [if_neg (by omega)]
      exact Kept.refl
  exact wp_mono (wp_and (wp_takeFrame h) hkept) (fun _ _ hr => hr) fun _ _ he => he.1

private theorem load_kept {P : Nat → Prop} : Kept m (m.load v f) P := by
  apply Kept.congr (t := m.setEntry v fun e => { e with presentBit := true, pageFrameNum := f }) _ rfl
  · exact load_pageTable
  · apply setEntry_kept
    · exact fun href _ => href
    · exact fun hmod => hmod

/-- The page of the address is valid but not present. -/
def Faults (m : MemoryManager) (a : Int) : Prop :=
  ∃ v, m.PageOf a v ∧ (m.pageTable v).validBit = true ∧ (m.pageTable v).presentBit = false

private theorem wp_present_kept (h : m.FrameTable) (hv : m.PageOf a v)
    (hvalid : (m.pageTable v).validBit = true) :
    wp (doIf (¬ (m.pageTable v).presentBit) (handlePageFault v))
      (fun _ t => Ready m t v ∧ Kept m t fun w => m.Faults a ∧ w ∈ m.hand) E m := by
  have hkept : wp (doIf (¬ (m.pageTable v).presentBit) (handlePageFault v))
      (fun _ t => Kept m t fun w => m.Faults a ∧ w ∈ m.hand) E m := by
    rw [wp_doIf]
    cases hp : (m.pageTable v).presentBit with
    | true =>
      rw [if_neg (by simp)]
      exact Kept.refl
    | false =>
      rw [if_pos (by simp)]
      simp only [handlePageFault, wp_bind]
      apply wp_mono_post (wp_takeFrame_kept h)
      intro r t ht
      obtain ⟨⟨f, rfl, hprov⟩, hkept⟩ := ht
      have hv' : v < t.pageCount := hprov.sizes.pageCount ▸ hv.2
      apply wp_readPageFromDisk (m := t.setEntry v _) hv' hprov.lt
      rw [wp_state]
      have hf : f < ((t.setEntry v fun e => { e with pageFrameNum := f }).loadFromDisk v f).frameCount :=
        hprov.lt
      apply (wp_index_natCast hf).mpr
      have hload : Kept t (t.load v f) fun _ => False := load_kept
      exact (hkept.trans hload).mono fun w hw => ⟨⟨v, hv, hvalid, hp⟩, hw.elim id False.elim⟩
  exact wp_mono (wp_and (wp_present h hv.2 hvalid) hkept) (fun _ _ hr => hr) fun _ _ he => he.1

private theorem touch_kept {P : Nat → Prop} {b : Bool} : Kept m (m.touch v b) P := by
  apply setEntry_kept
  · exact fun _ _ => rfl
  · intro hmod
    rw [hmod]
    rfl

/-- What an access does to the bits of its page and of the others. -/
structure Touches (m : MemoryManager) (a : Int) (b : Bool) (t : MemoryManager) : Prop where
  kept : Kept m t fun w => m.Faults a ∧ w ∈ m.hand
  page : ∃ v, m.PageOf a v ∧ (m.pageTable v).validBit = true ∧
    (t.pageTable v).referenceBit = true ∧ (b = true → (t.pageTable v).modifyBit = true)

private theorem wp_translate_touches (h : m.FrameTable) {b : Bool} :
    wp (virtualToPhysicalAddress a b) (fun _ t => Touches m a b t) (fun _ t => t = m) m := by
  simp only [virtualToPhysicalAddress, wp_bind, wp_state, wp_raiseIf]
  cases pageOf_cases m a with
  | inl hout =>
    rw [if_pos hout]
    trivial
  | inr hex =>
    obtain ⟨v, hv⟩ := hex
    rw [hv.1, if_neg hv.not_out, wp_index_natCast hv.2]
    cases hvalid : (m.pageTable v).validBit with
    | false => rw [if_pos (by simp)]
    | true =>
      rw [if_neg (by simp)]
      apply wp_mono_post (wp_present_kept h hv hvalid)
      intro _ t₁ ht₁
      obtain ⟨hready, hkept⟩ := ht₁
      have hv₁ : v < t₁.pageCount := hready.sizes.pageCount ▸ hv.2
      obtain ⟨-, f, hf, hpfn⟩ := hready.frames.present v hv₁ hready.present
      have hoff := pageOffset_lt a h.pageSize_pos
      have hend := frame_end_le hf
      rw [hready.sizes.pageSize] at hend
      have haddr : (t₁.pageTable v).pageFrameNum * t₁.pageSize + pageOffset a m.pageSize
          = (f * m.pageSize + pageOffset a m.pageSize : Nat) := by
        rw [hpfn, hready.sizes.pageSize]
        push_cast
        rfl
      have htouch : Touches m a b (t₁.touch v b) := by
        have hrest : Kept t₁ (t₁.touch v b) fun _ => False := touch_kept
        refine ⟨(hkept.trans hrest).mono fun w hw => hw.elim id False.elim, v, hv, hvalid, ?_⟩
        rw [touch, setEntry_same]
        refine ⟨rfl, fun hb => ?_⟩
        rw [hb]
        exact Bool.or_true _
      rw [haddr, if_neg (by omega)]
      cases b with
      | true => simpa [touch, setEntry] using htouch
      | false => simpa [touch, setEntry] using htouch

/-- The pages that the hand passes in a call -/
def Passes (m : MemoryManager) : Call → Nat → Prop
  | .allocateAnyPage, w => (∃ v < m.pageCount, (m.pageTable v).validBit = false) ∧ w ∈ m.hand
  | .writeVirtualMemory a _, w => m.Faults a ∧ w ∈ m.hand
  | .readVirtualMemory a, w => m.Faults a ∧ w ∈ m.hand
  | _, _ => False

/-- The page that a call reads or writes -/
def Uses (m : MemoryManager) : Call → Nat → Prop
  | .writeVirtualMemory a _, w => m.PageOf a w ∧ (m.pageTable w).validBit = true
  | .readVirtualMemory a, w => m.PageOf a w ∧ (m.pageTable w).validBit = true
  | _, _ => False

/-- The page that a call writes -/
def Writes (m : MemoryManager) : Call → Nat → Prop
  | .writeVirtualMemory a _, w => m.PageOf a w ∧ (m.pageTable w).validBit = true
  | _, _ => False

/-- The page that a call brings into memory -/
def Loaded (m : MemoryManager) : Call → Nat → Prop
  | .writeVirtualMemory a _, w => m.PageOf a w ∧ m.Faults a
  | .readVirtualMemory a, w => m.PageOf a w ∧ m.Faults a
  | _, _ => False

/-- The page that a call deletes -/
def Drops (m : MemoryManager) : Call → Nat → Prop
  | .deletePageTableEntry a, w => m.PageOf a w ∧ (m.pageTable w).validBit = true
  | _, _ => False

/-- The reachable states, with the pages used since the hand last passed them and the pages written
since they were last brought into memory. -/
inductive History (pageSize numPages numFrames : Nat) :
    MemoryManager → (Nat → Prop) → (Nat → Prop) → Prop where
  | start : SizesFit pageSize numPages numFrames →
      History pageSize numPages numFrames (new pageSize numPages numFrames) (fun _ => False) fun _ => False
  | call {m t : MemoryManager} {used written : Nat → Prop} {c : Call} {r : Except Exn Value} :
      History pageSize numPages numFrames m used written → c.perform m = some (r, t) →
      History pageSize numPages numFrames t
        (fun v => Uses m c v ∨ used v ∧ ¬ Passes m c v ∧ ¬ Drops m c v)
        fun v => Writes m c v ∨ written v ∧ ¬ Loaded m c v ∧ ¬ Drops m c v

/-- What a call does to the bits. -/
structure Marks (m : MemoryManager) (c : Call) (t : MemoryManager) : Prop where
  uses : ∀ v, Uses m c v → (t.pageTable v).referenceBit = true
  reference : ∀ v, (m.pageTable v).referenceBit = true → ¬ Passes m c v → ¬ Drops m c v →
    (t.pageTable v).referenceBit = true
  writes : ∀ v, Writes m c v → (t.pageTable v).modifyBit = true
  modify : ∀ v, (m.pageTable v).modifyBit = true → ¬ Drops m c v →
    (t.pageTable v).modifyBit = true

private theorem Refuses.not_valid {i e : Exn} (h : Refuses m a i e) (hv : m.PageOf a v)
    (hvalid : (m.pageTable v).validBit = true) : False := by
  cases h with
  | outOfBound hout => exact hv.not_out (hv.1 ▸ hout)
  | invalid hw hinvalid =>
    rw [← hv.unique hw, hvalid] at hinvalid
    cases hinvalid

theorem marks_of_eq {c : Call} (h : t.pageTable = m.pageTable) (huses : ∀ v, ¬ Uses m c v)
    (hwrites : ∀ v, ¬ Writes m c v) : Marks m c t where
  uses := fun v hv => absurd hv (huses v)
  reference := fun v hv _ _ => by rw [h, hv]
  writes := fun v hv => absurd hv (hwrites v)
  modify := fun v hv _ => by rw [h, hv]

private theorem Touches.marks_write {data : UInt8} (h : Touches m a true t)
    (hu : u.pageTable = t.pageTable) : Marks m (.writeVirtualMemory a data) u := by
  obtain ⟨v, hv, _, href, hmod⟩ := h.page
  refine ⟨fun w hw => ?_, fun w hw hno _ => ?_, fun w hw => ?_, fun w hw _ => ?_⟩
  · rw [hu, ← hv.unique hw.1, href]
  · rw [hu]
    exact h.kept.reference w hw hno
  · rw [hu, ← hv.unique hw.1, hmod rfl]
  · rw [hu]
    exact h.kept.modify w hw

private theorem Touches.marks_read (h : Touches m a false t) : Marks m (.readVirtualMemory a) t := by
  obtain ⟨v, hv, _, href, _⟩ := h.page
  refine ⟨fun w hw => ?_, fun w hw hno _ => h.kept.reference w hw hno, fun w hw => hw.elim,
    fun w hw _ => h.kept.modify w hw⟩
  rw [← hv.unique hw.1, href]

private theorem Deletes.other (h : Deletes m v t) (hw : w ≠ v) : t.pageTable w = m.pageTable w := by
  cases h with
  | present _ _ => rw [release_pageTable, Function.update_of_ne hw]
  | absent _ => exact (discard_entry w).2.2 hw

private theorem wp_allocate_marks (h : m.FrameTable) :
    wp Call.allocateAnyPage.perform (fun _ t => Marks m .allocateAnyPage t)
      (fun _ t => Marks m .allocateAnyPage t) m := by
  simp only [Call.perform, allocateAnyPage, wp_bind, wp_state, wp_raiseIf, wp_pure]
  cases firstIndex_cases m.pageCount fun i => !(m.pageTable i).validBit with
  | inl hnone =>
    rw [if_pos hnone.1]
    exact marks_of_eq rfl (fun _ => id) fun _ => id
  | inr hsome =>
    obtain ⟨v, hv, hfirst, hinvalid, _⟩ := hsome
    rw [if_neg (by omega), hfirst]
    apply wp_mono_post (wp_takeFrame_kept h)
    intro r t ht
    obtain ⟨⟨f, rfl, hprov⟩, hkept⟩ := ht
    have hv' : v < t.pageCount := hprov.sizes.pageCount ▸ hv
    have hf := hprov.lt
    simp only [allocatePage, wp_bind, wp_state, wp_raiseIf]
    rw [if_neg (by omega), if_neg (by omega), wp_index_natCast hv', wp_update, wp_index_natCast hf]
    have hassign : Kept t (t.setEntry v fun e =>
        { e with validBit := true, pageFrameNum := f, presentBit := true }) fun _ => False := by
      apply setEntry_kept
      · exact fun href _ => href
      · exact fun hmod => hmod
    have hall := hkept.trans hassign
    have hpage : ∃ v < m.pageCount, (m.pageTable v).validBit = false := ⟨v, hv, by simpa using hinvalid⟩
    exact ⟨fun _ hw => hw.elim, fun w hw hno _ => hall.reference w hw fun hin =>
      hno ⟨hpage, hin.elim id False.elim⟩, fun _ hw => hw.elim, fun w hw _ => hall.modify w hw⟩

theorem wp_perform_marks (h : m.FrameTable) (c : Call) :
    wp c.perform (fun _ t => Marks m c t) (fun _ t => Marks m c t) m := by
  cases c with
  | allocateAnyPage => exact wp_allocate_marks h
  | writeVirtualMemory a data =>
    simp only [Call.perform, MemoryManager.writeVirtualMemory, wp_bind, wp_pure]
    apply wp_mono (wp_and (wp_virtualToPhysicalAddress h a true) (wp_translate_touches h))
    · intro r t ht
      obtain ⟨⟨x, rfl, htrans⟩, htouch⟩ := ht
      have hlt := htrans.lt h.pageSize_pos
      simp only [writeMemory, wp_bind, wp_state, wp_raiseIf]
      rw [if_neg (by omega), wp_index_natCast hlt]
      exact htouch.marks_write rfl
    · intro e t he
      obtain ⟨⟨rfl, href⟩, _⟩ := he
      exact marks_of_eq rfl (fun v hv => href.not_valid hv.1 hv.2) fun v hv =>
        href.not_valid hv.1 hv.2
  | readVirtualMemory a =>
    simp only [Call.perform, MemoryManager.readVirtualMemory, wp_bind, wp_pure]
    apply wp_mono (wp_and (wp_virtualToPhysicalAddress h a false) (wp_translate_touches h))
    · intro r t ht
      obtain ⟨⟨x, rfl, htrans⟩, htouch⟩ := ht
      have hlt := htrans.lt h.pageSize_pos
      simp only [readMemory, wp_bind, wp_state, wp_raiseIf]
      rw [if_neg (by omega), wp_index_natCast hlt]
      exact htouch.marks_read
    · intro e t he
      obtain ⟨⟨rfl, href⟩, _⟩ := he
      exact marks_of_eq rfl (fun v hv => href.not_valid hv.1 hv.2) fun _ => id
  | deletePageTableEntry a =>
    simp only [Call.perform, wp_bind, wp_pure]
    apply wp_mono (wp_deletePageTableEntry h a)
    · intro _ t ht
      obtain ⟨v, hv, hvalid, hdel⟩ := ht
      have hother (w : Nat) (hno : ¬ Drops m (.deletePageTableEntry a) w) :
          t.pageTable w = m.pageTable w := by
        apply hdel.other
        intro hwv
        exact hno (hwv ▸ ⟨hv, hvalid⟩)
      exact ⟨fun _ hw => hw.elim, fun w hw _ hno => by rw [hother w hno, hw],
        fun _ hw => hw.elim, fun w hw hno => by rw [hother w hno, hw]⟩
    · intro e t he
      rw [he.1]
      exact marks_of_eq rfl (fun _ => id) fun _ => id
  | printPageTableEntry a =>
    simp only [Call.perform, wp_bind, wp_pure]
    apply wp_mono (wp_printPageTableEntry a)
    · intro _ t ht
      rw [ht]
      exact marks_of_eq rfl (fun _ => id) fun _ => id
    · intro e t he
      rw [he.1]
      exact marks_of_eq rfl (fun _ => id) fun _ => id

private theorem marks_of_run {c : Call} {r : Except Exn Value} (h : m.FrameTable)
    (hrun : c.perform m = some (r, t)) : Marks m c t := by
  have hmarks := wp_perform_marks h c
  cases r with
  | ok x => exact (wp_of_ok hrun).mp hmarks
  | error e => exact (wp_of_error hrun).mp hmarks

section History

variable {pageSize numPages numFrames : Nat} {used written : Nat → Prop}

private theorem History.reachable (h : History pageSize numPages numFrames m used written) :
    ReachableFrom pageSize numPages numFrames m := by
  induction h with
  | start hfit => exact .start hfit
  | call _ hrun ih => exact ih.next ⟨_, _, hrun⟩

theorem History.recorded (hp : 0 < pageSize) (hf : 0 < numFrames)
    (h : History pageSize numPages numFrames m used written) :
    (∀ v, used v → (m.pageTable v).referenceBit = true) ∧
      ∀ v, written v → (m.pageTable v).modifyBit = true := by
  induction h with
  | start => exact ⟨fun _ hv => hv.elim, fun _ hv => hv.elim⟩
  | call hist hrun ih =>
    have hmarks := marks_of_run (hist.reachable.frameTable hp hf) hrun
    constructor
    · intro v hv
      cases hv with
      | inl huses => exact hmarks.uses v huses
      | inr hkept => exact hmarks.reference v (ih.1 v hkept.1) hkept.2.1 hkept.2.2
    · intro v hv
      cases hv with
      | inl hwrites => exact hmarks.writes v hwrites
      | inr hkept => exact hmarks.modify v (ih.2 v hkept.1) hkept.2.2

/-- Every reachable state has a history. -/
theorem ReachableFrom.exists_history (h : ReachableFrom pageSize numPages numFrames m) :
    ∃ used written, History pageSize numPages numFrames m used written := by
  apply Reachable.invariant (P := fun m => ∃ used written,
    History pageSize numPages numFrames m used written) _ _ h.reached
  · rintro s rfl
    exact ⟨_, _, .start h.fits⟩
  · intro s t _ hs hstep
    obtain ⟨used, written, hist⟩ := hs
    obtain ⟨c, r, hrun⟩ := hstep
    exact ⟨_, _, hist.call hrun⟩

/-- What `_replacePage` owes: page `v` leaves frame `f`, it was not used since the hand last passed it
unless the hand passed it in this call, it is saved if it was written, and nothing of the other pages
is touched but their reference bits. -/
structure Evicts (m : MemoryManager) (used written : Nat → Prop) (v f : Nat) (t : MemoryManager) :
    Prop where
  owns : m.Owns v f
  unused : ¬ used v ∨ v ∈ sweep (2 * m.pageCount) m
  absent : (t.pageTable v).presentBit = false
  saved : written v → ∀ o < m.pageSize,
    t.diskStorage (v * m.pageSize + o) = m.physicalMemory (f * m.pageSize + o)
  entries : ∀ w ≠ v, ∃ b, t.pageTable w = { m.pageTable w with referenceBit := b }
  disk : ∀ w ≠ v, ∀ o < m.pageSize,
    t.diskStorage (w * m.pageSize + o) = m.diskStorage (w * m.pageSize + o)
  frames : ∀ w ≠ v, ∀ g, m.Owns w g → ∀ o < m.pageSize,
    t.physicalMemory (g * m.pageSize + o) = m.physicalMemory (g * m.pageSize + o)

private theorem evict_saved (hmod : (m.pageTable v).modifyBit = true) {o : Nat} (ho : o < m.pageSize) :
    ((m.markAbsent v).evict v f).diskStorage (v * m.pageSize + o) =
      m.physicalMemory (f * m.pageSize + o) := by
  have hmod' : ((m.markAbsent v).pageTable v).modifyBit = true := by
    rw [markAbsent, setEntry_same]
    exact hmod
  simp only [evict, if_pos hmod']
  show (m.diskStorage.blit (v * m.pageSize) m.pageSize m.physicalMemory (f * m.pageSize)) _ = _
  exact ByteStore.blit_of_inside ho

private theorem Victim.evicts (h : m.Victim t v f) (hm : m.FrameTable)
    (hused : ∀ v, used v → (m.pageTable v).referenceBit = true)
    (hwritten : ∀ v, written v → (m.pageTable v).modifyBit = true) :
    m.Evicts used written v f t := by
  obtain ⟨m₁, hm₁, rfl⟩ := h.evicted
  have hps : m₁.pageSize = m.pageSize := hm₁.sizes.pageSize
  have hdisk : m₁.diskStorage = m.diskStorage := by rw [hm₁.rest]
  have hmem : m₁.physicalMemory = m.physicalMemory := by rw [hm₁.rest]
  constructor
  · exact h.owns
  · by_cases hv : used v
    · exact .inr (h.referenced (hused v hv))
    · exact .inl hv
  · rw [evict_pageTable, Function.update_self]
  · intro hw o ho
    have hmod := (hm₁.fields v).2.2.1.trans (hwritten v hw)
    rw [← hps] at ho ⊢
    rw [evict_saved hmod ho, hmem]
  · intro w hw
    rw [evict_pageTable, Function.update_of_ne hw]
    exact hm₁.entry w
  · intro w hw o ho
    rw [← hps] at ho ⊢
    rw [Stored.evict_disk_other hw ho, hdisk]
  · intro w hw g hg o ho
    have hgf : g ≠ f := fun hgf => hw (hm.unique w v f (hgf ▸ hg) h.owns)
    rw [Stored.evict_physicalMemory, hps, fill_page_other hgf ho, hmem]

/-- In every reachable state with a frame and no free one, CLOCK stops within two turns of the hand and
takes out a page that it may take out. -/
theorem replacePage_evicts (hp : 0 < pageSize) (hf : 0 < numFrames)
    (h : History pageSize numPages numFrames m used written)
    (hfull : ∀ f < m.frameCount, m.freeFrames f = false) :
    (sweep (2 * m.pageCount) m).length < 2 * m.pageCount ∧
      ∃ (v f : Nat) (t : MemoryManager), replacePage m = some (.ok (f : Int), t) ∧
        m.Evicts used written v f t := by
  have hm := h.reachable.frameTable hp hf
  have hrec := h.recorded hp hf
  obtain ⟨r, t, hrun, ht⟩ := wp_elim (E := fun _ _ => False) (wp_replacePage_victim hm hfull)
  cases r with
  | error e => exact ht.elim
  | ok x =>
    obtain ⟨v, f, rfl, hv⟩ := ht
    exact ⟨hv.length, v, f, t, hrun, hv.evicts hm hrec.1 hrec.2⟩

end History

theorem replacePage_evicts_first : ∃ (v f : Nat) (t : MemoryManager),
    replacePage ((new 4 2 1).assign 0 0) = some (.ok (f : Int), t) ∧
      ((new 4 2 1).assign 0 0).Evicts (fun _ => False) (fun _ => False) v f t := by
  have hist : History 4 2 1 ((new 4 2 1).assign 0 0) _ _ :=
    .call (c := .allocateAnyPage) (r := .ok (.address 0)) (.start ⟨by decide, by decide, by decide⟩) rfl
  obtain ⟨_, v, f, t, hrun, hev⟩ := replacePage_evicts (by decide) (by decide) hist
    (by decide)
  refine ⟨v, f, t, hrun, hev.owns, .inl id, hev.absent, fun hw => hw.elim, hev.entries, hev.disk,
    hev.frames⟩

end CseOs.MemoryManager
