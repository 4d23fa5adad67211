import CseOs.Framework.Transition
import CseOs.MemoryManager.Clock

/-!
# The frame table

The page table and `freeFrames` both say which frames are in use. Each method of the manager
updates the two by hand; here they are shown to agree in every reachable state, whatever the
addresses the methods were called with and whichever of them threw.
-/

namespace CseOs.MemoryManager

open Framework Framework.Prog

variable {m t : MemoryManager} {v w f : Nat}

/-- Page `v` is in frame `f`. -/
def Owns (m : MemoryManager) (v f : Nat) : Prop :=
  v < m.pageCount ∧ (m.pageTable v).presentBit = true ∧ (m.pageTable v).pageFrameNum = f

structure FrameTable (m : MemoryManager) : Prop where
  pageSize_pos : 0 < m.pageSize
  frameCount_pos : 0 < m.frameCount
  clock_le : m.clockPointer ≤ m.pageCount
  present : ∀ v < m.pageCount, (m.pageTable v).presentBit = true →
    (m.pageTable v).validBit = true ∧ ∃ f < m.frameCount, (m.pageTable v).pageFrameNum = f
  owned : ∀ f < m.frameCount, (m.freeFrames f = false ↔ ∃ v, m.Owns v f)
  unique : ∀ v w f, m.Owns v f → m.Owns w f → v = w

theorem frameTable_new {pageSize numPages numFrames : Nat} (hp : 0 < pageSize)
    (hf : 0 < numFrames) : (new pageSize numPages numFrames).FrameTable where
  pageSize_pos := hp
  frameCount_pos := by
    show 0 < numFrames * pageSize / pageSize
    rwa [Nat.mul_div_cancel _ hp]
  clock_le := Nat.zero_le _
  present := fun v _ h => by simp [new] at h
  owned := fun f _ => by simp [new, Owns]
  unique := fun v w f h => by simp [new, Owns] at h

/-- Two states with the same sizes. -/
structure SameSizes (m t : MemoryManager) : Prop where
  pageSize : t.pageSize = m.pageSize
  pageCount : t.pageCount = m.pageCount
  physicalSize : t.physicalSize = m.physicalSize

namespace SameSizes

theorem frameCount (h : SameSizes m t) : t.frameCount = m.frameCount := by
  rw [MemoryManager.frameCount, MemoryManager.frameCount, h.physicalSize, h.pageSize]

theorem trans {u : MemoryManager} (h : SameSizes m t) (h' : SameSizes t u) : SameSizes m u :=
  ⟨h'.1.trans h.1, h'.2.trans h.2, h'.3.trans h.3⟩

end SameSizes

theorem SameButReference.sizes (h : SameButReference m t) : SameSizes m t := by
  rw [h.rest]
  exact ⟨rfl, rfl, rfl⟩

namespace FrameTable

/-- The frame table reads nothing but present bits, frame numbers and the valid bits of
present pages. -/
theorem congr (h : m.FrameTable) (hs : SameSizes m t) (hc : t.clockPointer ≤ t.pageCount)
    (hfree : t.freeFrames = m.freeFrames)
    (hpres : ∀ v, (t.pageTable v).presentBit = (m.pageTable v).presentBit)
    (hpfn : ∀ v, (t.pageTable v).pageFrameNum = (m.pageTable v).pageFrameNum)
    (hvalid : ∀ v, (m.pageTable v).presentBit = true →
      (t.pageTable v).validBit = (m.pageTable v).validBit) : t.FrameTable := by
  have howns : ∀ v f, t.Owns v f ↔ m.Owns v f := fun v f => by
    rw [Owns, Owns, hs.pageCount, hpres, hpfn]
  constructor
  · rw [hs.pageSize]
    exact h.pageSize_pos
  · rw [hs.frameCount]
    exact h.frameCount_pos
  · exact hc
  · intro v hv hp
    rw [hpres] at hp
    rw [hvalid v hp, hpfn, hs.frameCount]
    exact h.present v (hs.pageCount ▸ hv) hp
  · intro f hf
    simp only [howns, hfree]
    exact h.owned f (hs.frameCount ▸ hf)
  · intro v w f hv hw
    exact h.unique v w f ((howns v f).mp hv) ((howns w f).mp hw)

/-- A free frame given to a page that has none. -/
theorem give (h : m.FrameTable) (hs : SameSizes m t) (hc : t.clockPointer ≤ t.pageCount)
    {e : PageTableEntry} (htable : t.pageTable = Function.update m.pageTable v e)
    (hfrees : t.freeFrames = Function.update m.freeFrames f false) (hv : v < m.pageCount)
    (hf : f < m.frameCount) (hfree : m.freeFrames f = true)
    (habsent : (m.pageTable v).presentBit = false)
    (he : e.validBit = true ∧ e.presentBit = true ∧ e.pageFrameNum = f) : t.FrameTable := by
  have hnone : ∀ w, ¬ m.Owns w f := fun w hw => by
    have := (h.owned f hf).mpr ⟨w, hw⟩
    rw [hfree] at this
    cases this
  have hself : ∀ g, t.Owns v g ↔ g = f := fun g => by
    rw [Owns, htable, Function.update_self, hs.pageCount, he.2.1, he.2.2]
    exact ⟨fun hg => by omega, fun hg => ⟨hv, rfl, by rw [hg]⟩⟩
  have hother : ∀ w g, w ≠ v → (t.Owns w g ↔ m.Owns w g) := fun w g hw => by
    rw [Owns, Owns, htable, Function.update_of_ne hw, hs.pageCount]
  have hnot : ∀ g, ¬ m.Owns v g := fun g hg => by
    have := hg.2.1
    rw [habsent] at this
    cases this
  constructor
  · rw [hs.pageSize]
    exact h.pageSize_pos
  · rw [hs.frameCount]
    exact h.frameCount_pos
  · exact hc
  · intro w hw hp
    rw [hs.frameCount]
    rw [htable] at hp ⊢
    by_cases hwv : w = v
    · rw [hwv, Function.update_self]
      exact ⟨he.1, f, hf, he.2.2⟩
    · rw [Function.update_of_ne hwv] at hp ⊢
      exact h.present w (hs.pageCount ▸ hw) hp
  · intro g hg
    rw [hs.frameCount] at hg
    rw [hfrees]
    by_cases hgf : g = f
    · rw [hgf, Function.update_self]
      exact ⟨fun _ => ⟨v, (hself f).mpr rfl⟩, fun _ => rfl⟩
    · rw [Function.update_of_ne hgf, h.owned g hg]
      constructor
      · rintro ⟨w, hw⟩
        have hwv : w ≠ v := fun hwv => hnot g (hwv ▸ hw)
        exact ⟨w, (hother w g hwv).mpr hw⟩
      · rintro ⟨w, hw⟩
        have hwv : w ≠ v := fun hwv => hgf ((hself g).mp (hwv ▸ hw))
        exact ⟨w, (hother w g hwv).mp hw⟩
  · intro w x g hw hx
    by_cases hwv : w = v <;> by_cases hxv : x = v
    · rw [hwv, hxv]
    · subst hwv
      rw [hself] at hw
      rw [hother x g hxv, hw] at hx
      exact absurd hx (hnone x)
    · subst hxv
      rw [hself] at hx
      rw [hother w g hwv, hx] at hw
      exact absurd hw (hnone w)
    · exact h.unique w x g ((hother w g hwv).mp hw) ((hother x g hxv).mp hx)

/-- A frame taken from the page that is in it. -/
theorem take (h : m.FrameTable) (hs : SameSizes m t) (hc : t.clockPointer ≤ t.pageCount)
    {e : PageTableEntry} (htable : t.pageTable = Function.update m.pageTable v e)
    (hfrees : t.freeFrames = Function.update m.freeFrames f true) (hown : m.Owns v f)
    (he : e.presentBit = false) : t.FrameTable := by
  have hself : ∀ g, ¬ t.Owns v g := fun g hg => by
    have := hg.2.1
    rw [htable, Function.update_self, he] at this
    cases this
  have hother : ∀ w g, w ≠ v → (t.Owns w g ↔ m.Owns w g) := fun w g hw => by
    rw [Owns, Owns, htable, Function.update_of_ne hw, hs.pageCount]
  have hback : ∀ w g, t.Owns w g → m.Owns w g := fun w g hw =>
    (hother w g fun hwv => hself g (hwv ▸ hw)).mp hw
  constructor
  · rw [hs.pageSize]
    exact h.pageSize_pos
  · rw [hs.frameCount]
    exact h.frameCount_pos
  · exact hc
  · intro w hw hp
    rw [hs.frameCount]
    rw [htable] at hp ⊢
    by_cases hwv : w = v
    · rw [hwv, Function.update_self, he] at hp
      cases hp
    · rw [Function.update_of_ne hwv] at hp ⊢
      exact h.present w (hs.pageCount ▸ hw) hp
  · intro g hg
    rw [hs.frameCount] at hg
    rw [hfrees]
    by_cases hgf : g = f
    · rw [hgf, Function.update_self]
      constructor
      · intro hfalse
        cases hfalse
      · rintro ⟨w, hw⟩
        have hwv : w = v := h.unique w v f (hback w f hw) hown
        exact absurd (hwv ▸ hw) (hself f)
    · rw [Function.update_of_ne hgf, h.owned g hg]
      constructor
      · rintro ⟨w, hw⟩
        have hwv : w ≠ v := fun hwv => by
          have hg := hw.2.2
          rw [hwv, hown.2.2] at hg
          omega
        exact ⟨w, (hother w g hwv).mpr hw⟩
      · rintro ⟨w, hw⟩
        exact ⟨w, hback w g hw⟩
  · intro w x g hw hx
    exact h.unique w x g (hback w g hw) (hback x g hx)

theorem sameButReference (h : m.FrameTable) (ht : SameButReference m t) : t.FrameTable := by
  apply h.congr ht.sizes (ht.pageCount_eq ▸ ht.clock_le)
  · rw [ht.rest]
  · exact fun v => (ht.fields v).1
  · exact fun v => (ht.fields v).2.2.2
  · exact fun v _ => (ht.fields v).2.1

end FrameTable

end CseOs.MemoryManager
