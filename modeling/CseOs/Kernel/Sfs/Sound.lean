import CseOs.Kernel.Sfs.Vnodes

/-!
# Volumes that are in order

The inodes of a volume are in memory or on the disk, and are seen here as one. Its blocks are laid out
without sharing and without loss, its link counts are the numbers of its names, and what is in memory and
not marked as dirty is on the disk.
-/

namespace CseOs.Kernel.Sfs

open Framework Prog

namespace Volume

variable {v v' : Volume} {I I' : Nat → Prop} {f g : Nat}

/-- The size of a file is one that files can have, nothing is beyond its end, and it has no more direct
blocks than there are places for. -/
structure Tidy (v : Volume) (f : Nat) : Prop where
  size : (v.vnode f).inode.size ≤ maxFileSize
  blank : ∀ x, (v.vnode f).inode.size ≤ x → v.content f x = 0
  tail : ∀ i, nDirect ≤ i → (v.vnode f).inode.direct i = 0

/-- The inodes are the root directory and files, each with blocks of its own. -/
structure Shape (v : Volume) (I : Nat → Prop) : Prop where
  layout : v.Layout I
  member : I rootIno
  root : v.Directory rootIno
  tidy : ∀ f, I f → v.Tidy f
  files : ∀ f, I f → f ≠ rootIno → (v.vnode f).type = .file

/-- The files are the same, with the same blocks. -/
structure Alike (v : Volume) (I : Nat → Prop) (v' : Volume) : Prop where
  nblocks : v'.nblocks = v.nblocks
  nbits : v'.nbits = v.nbits
  freemap : v'.freemap = v.freemap
  inode : ∀ f, I f → (v'.vnode f).inode = (v.vnode f).inode
  type : ∀ f, I f → (v'.vnode f).type = (v.vnode f).type
  disk : ∀ f r, I f → v.ref f r ≠ 0 → v'.disk (v.ref f r) = v.disk (v.ref f r)

namespace Alike

private theorem same (h : v.Alike I v') (hf : I f) : v'.ref f = v.ref f ∧ v'.content f = v.content f :=
  same_file (h.inode f hf) fun r => h.disk f r hf

theorem text (h : v.Alike I v') (hf : I f) : v'.text f = v.text f := by
  rw [Volume.text, Volume.text, (h.same hf).2, h.inode f hf]

theorem slots (h : v.Alike I v') (hf : I f) : v'.slots f = v.slots f :=
  slots_congr (h.same hf).2 (by rw [h.inode f hf])

end Alike

theorem Tidy.of_same (h : v.Tidy f) (hinode : (v'.vnode f).inode = (v.vnode f).inode)
    (hcontent : v'.content f = v.content f) : v'.Tidy f := by
  refine ⟨?_, ?_, ?_⟩
  · rw [hinode]
    exact h.size
  · rw [hinode, hcontent]
    exact h.blank
  · rw [hinode]
    exact h.tail

namespace Shape

private theorem alike (h : v.Shape I) (ha : v.Alike I v') : v'.Shape I where
  layout := h.layout.congr ha.nblocks ha.nbits ha.freemap (fun g hg => (ha.same hg).1) fun _ => Iff.rfl
  member := h.member
  root := h.root.of_content (ha.same h.member).2 (by rw [ha.inode _ h.member]) (ha.type _ h.member)
  tidy f hf := (h.tidy f hf).of_same (ha.inode f hf) (ha.same hf).2
  files f hf hne := (ha.type f hf).trans (h.files f hf hne)

theorem of_iff (h : v.Shape I) (hI : ∀ g, I' g ↔ I g) : v.Shape I' where
  layout := h.layout.congr rfl rfl rfl (fun _ _ => rfl) hI
  member := (hI rootIno).mpr h.member
  root := h.root
  tidy f hf := h.tidy f ((hI f).mp hf)
  files f hf hne := h.files f ((hI f).mp hf) hne

theorem edited (h : v.Shape I) (hf : I f) (he : v.Edited I f v') (htidy : v'.Tidy f)
    (htype : (v'.vnode f).type = (v.vnode f).type) (hroot : v'.Directory rootIno) : v'.Shape I where
  layout := he.layout h.layout hf
  member := h.member
  root := hroot
  tidy g hg := by
    by_cases hgf : g = f
    · exact hgf ▸ htidy
    · exact (h.tidy g hg).of_same (by rw [he.others g hg hgf]) (he.same h.layout hf hg hgf).2
  files g hg hne := by
    by_cases hgf : g = f
    · rw [hgf, htype]
      exact h.files f hf (hgf ▸ hne)
    · rw [he.others g hg hgf]
      exact h.files g hg hne

theorem lt (h : v.Shape I) (hf : I f) : f < v.nblocks := h.layout.inside f .inode hf

theorem used (h : v.Shape I) (hf : I f) : v.freemap f = true :=
  h.layout.used (show v.Owns I f .inode from hf)

theorem ne_zero (h : v.Shape I) (hf : I f) : f ≠ 0 := by
  intro h0
  have hino : v.Owns I 0 .inode := by
    rw [← h0]
    exact hf
  cases h.layout.single _ _ _ hino owns_super

theorem lt_word (h : v.Shape I) (hf : I f) : f < 2 ^ 32 := by
  have hlt := h.lt hf
  have hsmall := h.layout.small
  simp only [maxBlocks, blockSize] at hsmall
  omega

/-- The block of an inode is no block of a file. -/
theorem ref_ne (h : v.Shape I) (hf : I f) (hg : I g) {r : Option Nat} (h0 : v.ref f r ≠ 0) : v.ref f r ≠ g := by
  intro he
  have ho : v.Owns I g (.file f r) := ⟨hf, he ▸ h0, he⟩
  cases h.layout.single g _ _ ho (show v.Owns I g .inode from hg)

theorem type_valid (h : v.Shape I) (hf : I f) : (v.vnode f).type ≠ .inval := by
  by_cases hroot : f = rootIno
  · rw [hroot, h.root.type]
    decide
  · rw [h.files f hf hroot]
    decide

private theorem readable (h : v.Shape I) (hok : ∀ i, v.ioErrors i = none) (hf : I f) : v.Readable f :=
  ⟨h.layout.consistent hf, hok, (h.tidy f hf).size⟩

/-- A directory has no more slots than fit into a file. -/
theorem length_slots (h : v.Shape I) : (v.slots rootIno).length < 2 ^ 16 - 1 := by
  rw [Volume.length_slots]
  have hsize := (h.tidy rootIno h.member).size
  simp only [maxFileSize, maxFileBlocks, nDirect, dbPerIdb, blockSize, direntSize] at *
  omega

end Shape

end Volume

namespace SfsFs

/-- The volume with all inodes in memory -/
def view (fs : SfsFs) : Volume :=
  { fs.vol with vnode := fun f => if f ∈ fs.vnodes then fs.vol.vnode f else inodeOf (fs.vol.disk f) }

/-- The slots of the root directory -/
def slots (fs : SfsFs) : SlotTable (List UInt8) Nat := fs.view.slots rootIno

/-- How many names lead to an inode -/
def names (fs : SfsFs) (f : Nat) : Nat := SlotTable.uses f fs.slots

/-- The root directory, the open files and the files with names -/
def IsInode (fs : SfsFs) (f : Nat) : Prop := f = rootIno ∨ f ∈ fs.vnodes ∨ 0 < fs.names f

instance (fs : SfsFs) (f : Nat) : Decidable (fs.IsInode f) :=
  inferInstanceAs (Decidable (f = rootIno ∨ f ∈ fs.vnodes ∨ 0 < fs.names f))

/-- The bytes of the files -/
def data (fs : SfsFs) (f : Nat) : List UInt8 := if f ≠ rootIno ∧ fs.IsInode f then fs.view.text f else []

/-- The slots of the directory, the bytes of the files, and the references to them -/
structure Catalog where
  slots : SlotTable (List UInt8) Nat
  data : Nat → List UInt8
  refs : Nat → Nat

def catalog (fs : SfsFs) : Catalog := ⟨fs.slots, fs.data, fs.refs⟩

/-- What is in memory and not marked as dirty is on the disk. -/
structure Cached (fs : SfsFs) : Prop where
  nodup : fs.vnodes.Nodup
  held : ∀ f, f ∈ fs.vnodes ↔ 0 < fs.refs f
  clean : ∀ f ∈ fs.vnodes, (fs.vol.vnode f).dirty = false → fs.vol.vnode f = inodeOf (fs.vol.disk f)
  magic : (fs.vol.disk sbLocation).word 0 = sfsMagic
  nblocks : (fs.vol.disk sbLocation).word 4 = fs.vol.nblocks
  map : fs.vol.freemapDirty = false → ∀ b < fs.vol.nbits, mapBit fs.vol.disk b = fs.vol.freemap b

/-- The volume is in order on a disk that works, with memory for all that is asked. Of the links to an inode,
`due` are not counted yet; the root directory counts one that is no name. -/
structure Sound (due : Nat → Int) (fs : SfsFs) : Prop where
  working : ∀ i, fs.vol.ioErrors i = none
  memory : ∀ i, fs.memory i = true
  shape : fs.view.Shape fs.IsInode
  links : ∀ f, fs.IsInode f →
    ((fs.view.vnode f).linkcount : Int) + due f = fs.names f + if f = rootIno then 1 else 0
  cached : fs.Cached

variable {fs fs' : SfsFs} {v v' : Volume} {f g ino k n m : Nat} {due due' : Nat → Int} {w : Transfer}
  {bytes : Nat → UInt8}

theorem isInode_of_mem (h : f ∈ fs.vnodes) : fs.IsInode f := .inr (.inl h)

theorem view_vnode (h : f ∈ fs.vnodes) : fs.view.vnode f = fs.vol.vnode f := if_pos h

theorem view_vnode_of_not_mem (h : f ∉ fs.vnodes) : fs.view.vnode f = inodeOf (fs.vol.disk f) := if_neg h

/-- A program on an open file takes the file as it is seen. -/
theorem view_file (h : f ∈ fs.vnodes) : fs.view.file f w = fs.vol.file f w := by
  simp only [Volume.file, view_vnode h]
  rfl

theorem view_content (h : f ∈ fs.vnodes) : fs.view.content f = fs.vol.content f := by
  rw [Volume.content, Volume.content, view_file h]

theorem view_slots (h : f ∈ fs.vnodes) : fs.view.slots f = fs.vol.slots f :=
  Volume.slots_congr (view_content h) (by rw [view_vnode h])

namespace Sound

theorem isRoot (h : fs.Sound due) : fs.IsInode rootIno := h.shape.member

theorem readable (h : fs.Sound due) (hf : f ∈ fs.vnodes) : fs.vol.Readable f := by
  obtain ⟨hcons, _, hsize⟩ := h.shape.readable h.working (isInode_of_mem hf)
  rw [view_file hf] at hcons
  rw [view_vnode hf] at hsize
  exact ⟨hcons, h.working, hsize⟩

theorem directory (h : fs.Sound due) (hr : rootIno ∈ fs.vnodes) : fs.vol.Directory rootIno :=
  h.shape.root.of_content (view_content hr).symm (by rw [view_vnode hr]) (by rw [view_vnode hr])

theorem distinct (h : fs.Sound due) : SlotTable.Distinct fs.slots := h.shape.root.distinct

theorem disk_of_revised (h : fs.Sound due) (hf : f ∈ fs.vnodes) (hr : fs.vol.Revised f bytes n v') {b : Nat}
    {o : Volume.Owner} (ho : fs.view.Owns fs.IsInode b o) (hno : ∀ r, o ≠ .file f r) :
    v'.disk b = fs.vol.disk b := by
  by_cases h0 : b = 0
  · rw [h0]
    exact hr.fair.super
  · have hforeign := h.shape.layout.foreign (isInode_of_mem hf) ho hno h0
    rw [view_file hf] at hforeign
    exact (hr.fair.spares b hforeign).2

private theorem disk_inode (h : fs.Sound due) (hf : f ∈ fs.vnodes) (hr : fs.vol.Revised f bytes n v')
    (hg : fs.IsInode g) : v'.disk g = fs.vol.disk g :=
  h.disk_of_revised hf hr (o := .inode) hg (by simp)

private theorem edited (h : fs.Sound due) (hf : f ∈ fs.vnodes) (hr : fs.vol.Revised f bytes n v') :
    fs.view.Edited fs.IsInode f (fs.setVol v').view := by
  have hf' : f ∈ (fs.setVol v').vnodes := hf
  refine ⟨?_, ?_, hr.steady.nblocks, hr.steady.nbits, hr.steady.beyond, fun g hg hne => ?_⟩
  · rw [view_file hf']
    exact hr.consistent
  · rw [view_file hf', view_file hf]
    exact hr.fair
  · by_cases hmem : g ∈ fs.vnodes
    · have hmem' : g ∈ (fs.setVol v').vnodes := hmem
      rw [view_vnode hmem', view_vnode hmem]
      exact hr.others g hne
    · have hmem' : g ∉ (fs.setVol v').vnodes := hmem
      rw [view_vnode_of_not_mem hmem', view_vnode_of_not_mem hmem]
      exact congrArg inodeOf (h.disk_inode hf hr hg)

/-- The free map is in blocks of the system. -/
theorem mapBlock_system (h : fs.Sound due) {b : Nat} (hb : b < fs.vol.nbits) :
    fs.view.Owns fs.IsInode (mapLocation + b / blockBits) .system := by
  refine .inr ⟨Nat.le_add_right .., Nat.add_lt_add_left ?_ _⟩
  have hbits : fs.vol.nbits = bitmapSize fs.vol.nblocks := h.shape.layout.bits
  rw [Nat.div_lt_iff_lt_mul (by decide)]
  rw [hbits] at hb
  exact hb

private theorem cached_revised (h : fs.Sound due) (hf : f ∈ fs.vnodes) (hr : fs.vol.Revised f bytes n v') :
    (fs.setVol v').Cached where
  nodup := h.cached.nodup
  held := h.cached.held
  clean g hg hdirty := by
    show v'.vnode g = inodeOf (v'.disk g)
    rw [h.disk_inode hf hr (isInode_of_mem hg)]
    have hdirty' : (v'.vnode g).dirty = false := hdirty
    by_cases hgf : g = f
    · subst hgf
      obtain ⟨hclean, hinode⟩ := hr.steady.inode hdirty'
      rw [← h.cached.clean g hg hclean]
      have hsame : (v'.vnode g).inode = (fs.vol.vnode g).inode := hinode
      have hclean' : (fs.vol.vnode g).dirty = false := hclean
      cases hv : v'.vnode g
      cases hu : fs.vol.vnode g
      simp only [hv, hu] at hsame hdirty' hclean' ⊢
      have htype := hr.type
      have hlinks := hr.linkcount
      rw [hv, hu] at htype hlinks
      simp only [SfsVnode.mk.injEq]
      exact ⟨hsame, htype, hlinks, hdirty'.trans hclean'.symm⟩
    · rw [hr.others g hgf] at hdirty' ⊢
      exact h.cached.clean g hg hdirty'
  magic := by
    show (v'.disk sbLocation).word 0 = sfsMagic
    rw [show v'.disk sbLocation = fs.vol.disk sbLocation from hr.fair.super]
    exact h.cached.magic
  nblocks := by
    show (v'.disk sbLocation).word 4 = v'.nblocks
    rw [show v'.disk sbLocation = fs.vol.disk sbLocation from hr.fair.super,
      show v'.nblocks = fs.vol.nblocks from hr.steady.nblocks]
    exact h.cached.nblocks
  map hdirty b hb := by
    obtain ⟨hclean, hsame⟩ := hr.steady.map hdirty
    have hb' : b < fs.vol.nbits := Nat.lt_of_lt_of_eq hb hr.steady.nbits
    have hsys := h.mapBlock_system hb'
    show mapBit v'.disk b = v'.freemap b
    rw [mapBit_congr (h.disk_of_revised hf hr hsys (by simp)), show v'.freemap = fs.vol.freemap from hsame]
    exact h.cached.map hclean b hb'

/-- The files are the same, and so are the inodes. -/
theorem of_alike (h : fs.Sound due) (ha : fs.view.Alike fs.IsInode fs'.view)
    (hI : ∀ g ∈ fs'.vnodes, fs.IsInode g)
    (hI' : ∀ g ∈ fs.vnodes, g ∈ fs'.vnodes ∨ g = rootIno ∨ 0 < fs.names g)
    (hworking : ∀ i, fs'.vol.ioErrors i = none) (hmemory : ∀ i, fs'.memory i = true)
    (hlinks : ∀ g, fs.IsInode g → ((fs'.view.vnode g).linkcount : Int) + due' g =
      (fs.view.vnode g).linkcount + due g)
    (hcached : fs'.Cached) : fs'.Sound due' ∧ fs'.catalog = { fs.catalog with refs := fs'.refs } := by
  have hslots : fs'.slots = fs.slots := ha.slots h.isRoot
  have hnames (g : Nat) : fs'.names g = fs.names g := by rw [names, names, hslots]
  have hmem (g : Nat) : fs'.IsInode g ↔ fs.IsInode g := by
    simp only [IsInode, hnames]
    constructor
    · rintro (hroot | hg | hpos)
      · exact .inl hroot
      · exact hI g hg
      · exact .inr (.inr hpos)
    · rintro (hroot | hg | hpos)
      · exact .inl hroot
      · rcases hI' g hg with hg' | hroot | hpos
        · exact .inr (.inl hg')
        · exact .inl hroot
        · exact .inr (.inr hpos)
      · exact .inr (.inr hpos)
  have hdata : fs'.data = fs.data := by
    funext g
    simp only [data, hmem]
    split
    case isTrue hg => exact ha.text hg.2
    case isFalse => rfl
  refine ⟨⟨hworking, hmemory, (h.shape.alike ha).of_iff hmem, fun g hg => ?_, hcached⟩, ?_⟩
  · rw [hlinks g ((hmem g).mp hg), h.links g ((hmem g).mp hg), hnames]
  · rw [catalog, catalog, hslots, hdata]

/-- An open file other than the directory is revised. -/
theorem revise_file (h : fs.Sound due) (hf : f ∈ fs.vnodes) (hne : f ≠ rootIno)
    (hr : fs.vol.Revised f bytes n v') (hsize : n ≤ maxFileSize) (hblank : ∀ x, n ≤ x → bytes x = 0) :
    (fs.setVol v').Sound due ∧ (fs.setVol v').catalog =
      { fs.catalog with data := Function.update fs.data f ((List.range n).map bytes) } := by
  have hI := isInode_of_mem hf
  have hf' : f ∈ (fs.setVol v').vnodes := hf
  have he := h.edited hf hr
  have hsame (g : Nat) (hg : fs.IsInode g) (hgf : g ≠ f) := he.same h.shape.layout hI hg hgf
  have hinode (g : Nat) (hg : fs.IsInode g) (hgf : g ≠ f) := he.others g hg hgf
  have hroot := hsame rootIno h.isRoot hne.symm
  have hslots : (fs.setVol v').slots = fs.slots :=
    Volume.slots_congr hroot.2 (by rw [hinode rootIno h.isRoot hne.symm])
  have hnames (g : Nat) : (fs.setVol v').names g = fs.names g := by rw [names, names, hslots]
  have hmem (g : Nat) : (fs.setVol v').IsInode g ↔ fs.IsInode g := by
    simp only [IsInode, hnames]
    rfl
  have hcontent : (fs.setVol v').view.content f = bytes := (view_content hf').trans hr.content
  have hsize' : ((fs.setVol v').view.vnode f).inode.size = n := by
    rw [view_vnode hf']
    exact hr.size
  have htidy : (fs.setVol v').view.Tidy f := by
    refine ⟨hsize' ▸ hsize, hsize' ▸ hcontent ▸ hblank, fun i hi => ?_⟩
    rw [view_vnode hf', show (((fs.setVol v').vol).vnode f).inode.direct i = (fs.vol.vnode f).inode.direct i from
      hr.steady.tail i hi, ← view_vnode hf]
    exact (h.shape.tidy f hI).tail i hi
  have htype : ((fs.setVol v').view.vnode f).type = (fs.view.vnode f).type := by
    rw [view_vnode hf', view_vnode hf]
    exact hr.type
  have hlinkcount : ((fs.setVol v').view.vnode f).linkcount = (fs.view.vnode f).linkcount := by
    rw [view_vnode hf', view_vnode hf]
    exact hr.linkcount
  have hdir : (fs.setVol v').view.Directory rootIno := by
    have hinode' := hinode rootIno h.isRoot hne.symm
    exact h.shape.root.of_content hroot.2 (by rw [hinode']) (by rw [hinode'])
  refine ⟨⟨fun i => ?_, h.memory, (h.shape.edited hI he htidy htype hdir).of_iff hmem, fun g hg => ?_,
    h.cached_revised hf hr⟩, ?_⟩
  · rw [show (fs.setVol v').vol.ioErrors = fs.vol.ioErrors from hr.steady.errors]
    exact h.working i
  · have hg' := (hmem g).mp hg
    rw [hnames, ← h.links g hg']
    by_cases hgf : g = f
    · rw [hgf, hlinkcount]
    · rw [hinode g hg' hgf]
  · have hdata : (fs.setVol v').data = Function.update fs.data f ((List.range n).map bytes) := by
      funext g
      by_cases hgf : g = f
      · subst hgf
        rw [Function.update_self, data, if_pos ⟨hne, isInode_of_mem hf'⟩, Volume.text, hsize', hcontent]
      · rw [Function.update_of_ne hgf]
        simp only [data, hmem]
        split
        case isTrue hg => rw [Volume.text, Volume.text, (hsame g hg.2 hgf).2, hinode g hg.2 hgf]
        case isFalse => rfl
    rw [catalog, catalog, hslots, hdata]
    rfl

/-- The directory is revised. Inodes that are not in memory have a name still, or have none as before. -/
theorem relink (h : fs.Sound due) (hr : rootIno ∈ fs.vnodes) {t : SlotTable (List UInt8) Nat}
    (hrev : fs.vol.Relinked rootIno t v') (ht : SlotTable.Distinct t)
    (huses : ∀ g, g ∈ fs.vnodes ∨ (0 < SlotTable.uses g t ↔ 0 < fs.names g))
    (hdue : ∀ g, (SlotTable.uses g t : Int) - due' g = fs.names g - due g) :
    (fs.setVol v').Sound due' ∧ (fs.setVol v').catalog = { fs.catalog with slots := t } := by
  have hr' : rootIno ∈ (fs.setVol v').vnodes := hr
  have he := h.edited hr hrev.revised
  have hslots : (fs.setVol v').slots = t := (view_slots hr').trans hrev.slots
  have hnames (g : Nat) : (fs.setVol v').names g = SlotTable.uses g t := by rw [names, hslots]
  have hmem (g : Nat) : (fs.setVol v').IsInode g ↔ fs.IsInode g := by
    simp only [IsInode, hnames]
    rcases huses g with hg | hiff
    · exact iff_of_true (.inr (.inl hg)) (.inr (.inl hg))
    · rw [hiff]
      rfl
  have hsize : ((fs.setVol v').view.vnode rootIno).inode.size = (v'.vnode rootIno).inode.size := by
    rw [view_vnode hr']
    rfl
  have hcontent : (fs.setVol v').view.content rootIno = v'.content rootIno := view_content hr'
  have htidyRoot := h.shape.tidy rootIno h.isRoot
  have htidy : (fs.setVol v').view.Tidy rootIno := by
    refine ⟨hsize ▸ hrev.fits, ?_, fun i hi => ?_⟩
    · rw [hsize, hcontent]
      apply hrev.blank
      rw [← view_content hr, ← view_vnode hr]
      exact htidyRoot.blank
    · rw [view_vnode hr', show (((fs.setVol v').vol).vnode rootIno).inode.direct i =
        (fs.vol.vnode rootIno).inode.direct i from hrev.revised.steady.tail i hi, ← view_vnode hr]
      exact htidyRoot.tail i hi
  have htype : ((fs.setVol v').view.vnode rootIno).type = (fs.view.vnode rootIno).type := by
    rw [view_vnode hr', view_vnode hr]
    exact hrev.revised.type
  have hlinkcount : ((fs.setVol v').view.vnode rootIno).linkcount = (fs.view.vnode rootIno).linkcount := by
    rw [view_vnode hr', view_vnode hr]
    exact hrev.revised.linkcount
  have hdir : (fs.setVol v').view.Directory rootIno := by
    refine ⟨htype.trans h.shape.root.type, hsize ▸ hrev.whole, fun k k' name a b hk hk' => ?_⟩
    apply ht k k' name a b
    · rw [← hslots]
      exact Volume.at_slots.mpr hk
    · rw [← hslots]
      exact Volume.at_slots.mpr hk'
  refine ⟨⟨fun i => ?_, h.memory, (h.shape.edited h.isRoot he htidy htype hdir).of_iff hmem, fun g hg => ?_,
    h.cached_revised hr hrev.revised⟩, ?_⟩
  · rw [show (fs.setVol v').vol.ioErrors = fs.vol.ioErrors from hrev.revised.steady.errors]
    exact h.working i
  · have hg' := (hmem g).mp hg
    have hlinks := h.links g hg'
    have hdue' := hdue g
    have hcount : ((fs.setVol v').view.vnode g).linkcount = (fs.view.vnode g).linkcount := by
      by_cases hgr : g = rootIno
      · rw [hgr, hlinkcount]
      · rw [he.others g hg' hgr]
    rw [hnames, hcount]
    omega
  · have hdata : (fs.setVol v').data = fs.data := by
      funext g
      simp only [data, hmem]
      split
      case isTrue hg =>
        rw [Volume.text, Volume.text, (he.same h.shape.layout h.isRoot hg.2 hg.1).2, he.others g hg.2 hg.1]
      case isFalse => rfl
    rw [catalog, catalog, hslots, hdata]
    rfl

end Sound

end SfsFs

end CseOs.Kernel.Sfs
