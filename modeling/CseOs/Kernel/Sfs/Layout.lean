import CseOs.Kernel.Sfs.Balance
import CseOs.Kernel.Sfs.Format

/-!
# Who owns the blocks of a volume

A block of the volume is in use when it belongs to the superblock or the free map, when it is an inode,
or when a file refers to it, and it is in use for one of these reasons only. So nothing is shared, and
nothing is lost.
-/

namespace CseOs.Kernel.Sfs

open Framework Prog

namespace Volume

variable {v v' : Volume} {I I' : Nat → Prop} {b d f g : Nat} {r : Option Nat} {w : Transfer}

inductive Owner where
  | system
  | inode
  | file (f : Nat) (r : Option Nat)

variable {o : Owner}

/-- The superblock and the blocks of the free map -/
def System (v : Volume) (b : Nat) : Prop :=
  b = sbLocation ∨ mapLocation ≤ b ∧ b < mapLocation + bitBlocks v.nblocks

/-- What a block is there for. `I` tells the inodes. -/
def Owns (v : Volume) (I : Nat → Prop) (b : Nat) : Owner → Prop
  | .system => v.System b
  | .inode => I b
  | .file f r => I f ∧ b ≠ 0 ∧ v.ref f r = b

/-- The blocks in use are those that are there for something, each for one thing, and those past the end
of the volume. -/
structure Layout (v : Volume) (I : Nat → Prop) : Prop where
  small : v.nblocks ≤ maxBlocks
  bits : v.nbits = bitmapSize v.nblocks
  inside : ∀ b o, v.Owns I b o → b < v.nblocks
  marked : ∀ b, v.freemap b = true ↔ (∃ o, v.Owns I b o) ∨ v.nblocks ≤ b ∧ b < v.nbits
  single : ∀ b o o', v.Owns I b o → v.Owns I b o' → o = o'

theorem owns_super : v.Owns I 0 .system := .inl rfl

/-- A file with the same inode over the same blocks is the same. -/
theorem same_file (hinode : (v'.vnode g).inode = (v.vnode g).inode)
    (hdisk : ∀ r, v.ref g r ≠ 0 → v'.disk (v.ref g r) = v.disk (v.ref g r)) :
    v'.ref g = v.ref g ∧ v'.content g = v.content g := by
  have href : (v'.file g idle).ref = (v.file g idle).ref := SfsSt.ref_congr hinode fun h0 => hdisk none h0
  exact ⟨href, SfsSt.content_congr href fun c hc => hdisk (some c) hc⟩

namespace Layout

theorem le_nbits (h : v.Layout I) : v.nblocks ≤ v.nbits := by
  rw [h.bits]
  exact le_bitmapSize

theorem used (h : v.Layout I) (ho : v.Owns I b o) : v.freemap b = true := (h.marked b).mpr (.inl ⟨o, ho⟩)

/-- A block that is free is there for nothing. -/
theorem free (h : v.Layout I) (hfree : v.freemap b = false) : ¬ v.Owns I b o := by
  intro ho
  rw [h.used ho] at hfree
  cases hfree

theorem consistent (h : v.Layout I) (hf : I f) : (v.file f w).Consistent where
  small := h.small
  bits := h.le_nbits
  tail b hlo hhi := (h.marked b).mpr (.inr ⟨hlo, hhi⟩)
  superblock := h.used owns_super
  used r h0 := by
    have ho : v.Owns I (v.ref f r) (.file f r) := ⟨hf, h0, rfl⟩
    exact ⟨h.inside _ _ ho, h.used ho⟩
  distinct r r' he h0 := by
    have ho : v.Owns I (v.ref f r) (.file f r) := ⟨hf, h0, rfl⟩
    have ho' : v.Owns I (v.ref f r) (.file f r') := ⟨hf, h0, he.symm⟩
    cases h.single _ _ _ ho ho'
    rfl

/-- What another owner has is foreign to a file. -/
theorem foreign (h : v.Layout I) (hf : I f) (ho : v.Owns I b o) (hno : ∀ r, o ≠ .file f r) (h0 : b ≠ 0) :
    (v.file f idle).Foreign b where
  ne_zero := h0
  lt := h.inside b o ho
  marked := h.used ho
  unused r hr := hno r (h.single b _ _ ho ⟨hf, h0, hr⟩)

private theorem owner_of_foreign (h : v.Layout I) (hb : (v.file f idle).Foreign b) :
    ∃ o, v.Owns I b o ∧ ∀ r, o ≠ .file f r := by
  cases (h.marked b).mp hb.marked with
  | inl ho =>
    obtain ⟨o, ho⟩ := ho
    refine ⟨o, ho, fun r he => ?_⟩
    subst he
    exact hb.unused r ho.2.2
  | inr hpast =>
    have hlt : b < v.nblocks := hb.lt
    omega

/-- The layout is a matter of the free map and of what the files refer to. -/
theorem congr (h : v.Layout I) (hn : v'.nblocks = v.nblocks) (hb : v'.nbits = v.nbits)
    (hmap : v'.freemap = v.freemap) (href : ∀ g, I g → v'.ref g = v.ref g) (hI : ∀ g, I' g ↔ I g) :
    v'.Layout I' := by
  have howns (b : Nat) (o : Owner) : v'.Owns I' b o ↔ v.Owns I b o := by
    cases o with
    | system =>
      simp only [Owns, System, hn]
    | inode => exact hI b
    | file f r =>
      simp only [Owns, hI f]
      apply and_congr_right
      intro hf
      rw [href f hf]
  refine ⟨hn ▸ h.small, by rw [hn, hb, h.bits], fun b o ho => ?_, fun b => ?_, fun b o o' ho ho' => ?_⟩
  · rw [hn]
    exact h.inside b o ((howns b o).mp ho)
  · rw [hmap, h.marked b, hn, hb]
    simp only [howns]
  · exact h.single b o o' ((howns b o).mp ho) ((howns b o').mp ho')

end Layout

/-- The file `f` was changed, with its blocks taken from the free ones. -/
structure Edited (v : Volume) (I : Nat → Prop) (f : Nat) (v' : Volume) : Prop where
  consistent : (v'.file f idle).Consistent
  fair : (v.file f idle).Fair (v'.file f idle)
  nblocks : v'.nblocks = v.nblocks
  nbits : v'.nbits = v.nbits
  beyond : ∀ b, v.nbits ≤ b → v'.freemap b = v.freemap b
  others : ∀ g, I g → g ≠ f → v'.vnode g = v.vnode g

namespace Edited

theorem disk (h : v.Edited I f v') (hl : v.Layout I) (hf : I f) (ho : v.Owns I b o)
    (hno : ∀ r, o ≠ .file f r) : v'.disk b = v.disk b := by
  by_cases h0 : b = 0
  · rw [h0]
    exact h.fair.super
  · exact (h.fair.spares b (hl.foreign hf ho hno h0)).2

theorem same (h : v.Edited I f v') (hl : v.Layout I) (hf : I f) (hg : I g) (hne : g ≠ f) :
    v'.ref g = v.ref g ∧ v'.content g = v.content g := by
  apply same_file (by rw [h.others g hg hne])
  intro r h0
  have ho : v.Owns I (v.ref g r) (.file g r) := ⟨hg, h0, rfl⟩
  apply h.disk hl hf ho
  intro r' he
  cases he
  exact hne rfl

private theorem owns_iff (h : v.Edited I f v') (hl : v.Layout I) (hf : I f) (hno : ∀ r, o ≠ .file f r) :
    v'.Owns I b o ↔ v.Owns I b o := by
  cases o with
  | system => simp only [Owns, System, h.nblocks]
  | inode => rfl
  | file g r =>
    have hne : g ≠ f := fun he => hno r (he ▸ rfl)
    simp only [Owns]
    apply and_congr_right
    intro hg
    rw [(h.same hl hf hg hne).1]

private theorem foreign (h : v.Edited I f v') (hl : v.Layout I) (hf : I f) (ho : v'.Owns I b o)
    (hno : ∀ r, o ≠ .file f r) (h0 : b ≠ 0) : (v'.file f idle).Foreign b :=
  (h.fair.spares b (hl.foreign hf ((h.owns_iff hl hf hno).mp ho) hno h0)).1

theorem owner_cases (f : Nat) (o : Owner) : (∃ r, o = .file f r) ∨ ∀ r, o ≠ .file f r := by
  by_cases hr : ∃ r, o = .file f r
  · exact .inl hr
  · exact .inr fun r he => hr ⟨r, he⟩

/-- Every block is still there for one thing. -/
theorem layout (h : v.Edited I f v') (hl : v.Layout I) (hf : I f) : v'.Layout I := by
  refine ⟨h.nblocks ▸ hl.small, by rw [h.nbits, h.nblocks, hl.bits], fun b o ho => ?_, fun b => ⟨fun hm => ?_, fun hm => ?_⟩,
    fun b o o' ho ho' => ?_⟩
  · rcases owner_cases f o with ⟨r, rfl⟩ | hno
    · obtain ⟨_, h0, rfl⟩ := ho
      exact (h.consistent.used r h0).1
    · rw [h.nblocks]
      exact hl.inside b o ((h.owns_iff hl hf hno).mp ho)
  · by_cases hin : b < v'.nblocks
    · by_cases h0 : b = 0
      · rw [h0]
        exact .inl ⟨.system, owns_super⟩
      · by_cases hr : ∃ r, v'.ref f r = b
        · obtain ⟨r, hr⟩ := hr
          exact .inl ⟨.file f r, hf, h0, hr⟩
        · have hforeign : (v'.file f idle).Foreign b := ⟨h0, hin, hm, fun r he => hr ⟨r, he⟩⟩
          obtain ⟨o, ho, hno⟩ := hl.owner_of_foreign (h.fair.frugal b hforeign)
          exact .inl ⟨o, (h.owns_iff hl hf hno).mpr ho⟩
    · refine .inr ⟨Nat.not_lt.mp hin, ?_⟩
      by_contra hbits
      rw [h.nbits, Nat.not_lt] at hbits
      rw [h.beyond b hbits] at hm
      rcases (hl.marked b).mp hm with ⟨o, ho⟩ | hpast
      · have hlt := hl.inside b o ho
        rw [h.nblocks] at hin
        omega
      · omega
  · rcases hm with ⟨o, ho⟩ | hpast
    · rcases owner_cases f o with ⟨r, rfl⟩ | hno
      · obtain ⟨_, h0, rfl⟩ := ho
        exact (h.consistent.used r h0).2
      · by_cases h0 : b = 0
        · rw [h0]
          exact h.consistent.superblock
        · exact (h.foreign hl hf ho hno h0).marked
    · exact h.consistent.tail b hpast.1 hpast.2
  · rcases owner_cases f o with ⟨r, rfl⟩ | hno
    · rcases owner_cases f o' with ⟨r', rfl⟩ | hno'
      · have hsame := h.consistent.distinct r r' (ho.2.2.trans ho'.2.2.symm)
          (fun h0 => ho.2.1 (ho.2.2.symm.trans h0))
        rw [hsame]
      · exact absurd ho.2.2 ((h.foreign hl hf ho' hno' ho.2.1).unused r)
    · rcases owner_cases f o' with ⟨r', rfl⟩ | hno'
      · exact absurd ho'.2.2 ((h.foreign hl hf ho hno ho'.2.1).unused r')
      · exact hl.single b o o' ((h.owns_iff hl hf hno).mp ho) ((h.owns_iff hl hf hno').mp ho')

end Edited

/-- The block of a new inode was free. -/
theorem Layout.grow (h : v.Layout I) (hfree : v.freemap d = false) (hd : d < v.nblocks)
    (hn : v'.nblocks = v.nblocks) (hb : v'.nbits = v.nbits) (hmap : v'.freemap = Function.update v.freemap d true)
    (href : ∀ g, I g → v'.ref g = v.ref g) (hnew : ∀ r, v'.ref d r = 0) :
    v'.Layout fun g => I g ∨ g = d := by
  have howns (b : Nat) (o : Owner) : v'.Owns (fun g => I g ∨ g = d) b o ↔
      v.Owns I b o ∨ b = d ∧ o = .inode := by
    cases o with
    | system =>
      simp only [Owns, System, hn, reduceCtorEq, and_false, or_false]
    | inode => simp only [Owns, and_true]
    | file g r =>
      simp only [Owns, reduceCtorEq, and_false, or_false]
      constructor
      · rintro ⟨hg | rfl, h0, hr⟩
        · exact ⟨hg, h0, by rw [← href g hg, hr]⟩
        · exact absurd (hr.symm.trans (hnew r)) h0
      · rintro ⟨hg, h0, hr⟩
        exact ⟨.inl hg, h0, by rw [href g hg, hr]⟩
  refine ⟨hn ▸ h.small, by rw [hn, hb, h.bits], fun b o ho => ?_, fun b => ?_, fun b o o' ho ho' => ?_⟩
  · rw [hn]
    rcases (howns b o).mp ho with ho | ⟨rfl, _⟩
    · exact h.inside b o ho
    · exact hd
  · rw [hmap, hn, hb]
    simp only [howns]
    by_cases hbd : b = d
    · subst hbd
      rw [Function.update_self]
      exact iff_of_true rfl (.inl ⟨.inode, .inr ⟨rfl, rfl⟩⟩)
    · rw [Function.update_of_ne hbd, h.marked b]
      simp only [hbd, false_and, or_false]
  · rcases (howns b o).mp ho with hold | ⟨he, rfl⟩
    · rcases (howns b o').mp ho' with hold' | ⟨he', _⟩
      · exact h.single b o o' hold hold'
      · exact absurd hold (h.free (he' ▸ hfree))
    · rcases (howns b o').mp ho' with hold' | ⟨_, rfl⟩
      · exact absurd hold' (h.free (he ▸ hfree))
      · rfl

/-- The block of an inode without blocks is given back. -/
theorem Layout.shrink (h : v.Layout I) (hf : I f) (hempty : ∀ r, v.ref f r = 0)
    (hn : v'.nblocks = v.nblocks) (hb : v'.nbits = v.nbits) (hmap : v'.freemap = Function.update v.freemap f false)
    (href : ∀ g, I g → g ≠ f → v'.ref g = v.ref g) : v'.Layout fun g => I g ∧ g ≠ f := by
  have hinode : v.Owns I f .inode := hf
  have howns (b : Nat) (o : Owner) : v'.Owns (fun g => I g ∧ g ≠ f) b o ↔ v.Owns I b o ∧ b ≠ f := by
    cases o with
    | system =>
      simp only [Owns, System, hn]
      constructor
      · intro hs
        refine ⟨hs, fun he => ?_⟩
        have hsys : v.Owns I b .system := hs
        cases h.single b _ _ hsys (he ▸ hinode)
      · exact And.left
    | inode => rfl
    | file g r =>
      simp only [Owns]
      constructor
      · rintro ⟨⟨hg, hne⟩, h0, hr⟩
        rw [href g hg hne] at hr
        refine ⟨⟨hg, h0, hr⟩, fun he => ?_⟩
        have ho : v.Owns I b (.file g r) := ⟨hg, h0, hr⟩
        cases h.single b _ _ ho (he ▸ hinode)
      · rintro ⟨⟨hg, h0, hr⟩, _⟩
        have hne : g ≠ f := by
          intro he
          rw [he, hempty r] at hr
          exact h0 hr.symm
        exact ⟨⟨hg, hne⟩, h0, by rw [href g hg hne, hr]⟩
  refine ⟨hn ▸ h.small, by rw [hn, hb, h.bits], fun b o ho => ?_, fun b => ?_, fun b o o' ho ho' => ?_⟩
  · rw [hn]
    exact h.inside b o ((howns b o).mp ho).1
  · rw [hmap, hn, hb]
    simp only [howns]
    by_cases hbf : b = f
    · subst hbf
      rw [Function.update_self]
      have hlt := h.inside b _ hinode
      refine iff_of_false (by simp) ?_
      rintro (⟨o, _, hne⟩ | hpast)
      · exact hne rfl
      · omega
    · rw [Function.update_of_ne hbf, h.marked b]
      simp only [hbf, ne_eq, not_false_eq_true, and_true]
  · exact h.single b o o' ((howns b o).mp ho).1 ((howns b o').mp ho').1

end Volume

end CseOs.Kernel.Sfs
