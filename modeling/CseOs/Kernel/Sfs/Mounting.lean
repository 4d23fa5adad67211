import CseOs.Kernel.Sfs.Links

/-!
# Syncing and mounting

A sync leaves on the disk what is in memory, so a volume that is mounted from the disk then is the same. The
disk that `mksfs` leaves is that of an empty volume.
-/

namespace CseOs.Kernel.Sfs

open Framework Prog

namespace SfsFs

variable {fs fs' : SfsFs} {disk : Nat → ByteStore} {f g ino j k n m : Nat} {due due' : Nat → Int}
  {E : Errno → SfsFs → Prop}

/-- Nothing in memory is marked as dirty. -/
structure Synced (fs : SfsFs) : Prop where
  inodes : ∀ f ∈ fs.vnodes, (fs.vol.vnode f).dirty = false
  map : fs.vol.freemapDirty = false

/-- The first `j` blocks of the free map were written. -/
structure MapWritten (fs : SfsFs) (j : Nat) (fs' : SfsFs) : Prop where
  vnodes : fs'.vnodes = fs.vnodes
  vnode : fs'.vol.vnode = fs.vol.vnode
  nblocks : fs'.vol.nblocks = fs.vol.nblocks
  nbits : fs'.vol.nbits = fs.vol.nbits
  freemap : fs'.vol.freemap = fs.vol.freemap
  dirty : fs'.vol.freemapDirty = fs.vol.freemapDirty
  blocks : ∀ i < j, fs'.vol.disk (mapLocation + i) = mapBlock fs.vol.freemap i

/-- The free map, with the block `j` of it on the disk -/
def storeMap (j : Nat) (block : ByteStore) (fs : SfsFs) : SfsFs :=
  fs.setVol { fs.vol with disk := Function.update fs.vol.disk (mapLocation + j) block, ios := fs.vol.ios + 1 }

private theorem MapWritten.step (h : fs.MapWritten j fs') :
    fs.MapWritten (j + 1) (storeMap j (mapBlock fs.vol.freemap j) fs') where
  vnodes := h.vnodes
  vnode := h.vnode
  nblocks := h.nblocks
  nbits := h.nbits
  freemap := h.freemap
  dirty := h.dirty
  blocks i hi := by
    show Function.update fs'.vol.disk (mapLocation + j) (mapBlock fs.vol.freemap j) (mapLocation + i) = _
    by_cases hij : i = j
    · rw [hij, Function.update_self]
    · rw [Function.update_of_ne (by omega)]
      exact h.blocks i (by omega)

namespace Sound

theorem storeMap (h : fs.Sound due) (hj : j < bitBlocks fs.vol.nblocks) (hdirty : fs.vol.freemapDirty = true)
    (block : ByteStore) : (fs.storeMap j block).Sound due ∧ (fs.storeMap j block).catalog = fs.catalog := by
  have hsys : fs.view.Owns fs.IsInode (mapLocation + j) .system :=
    .inr ⟨Nat.le_add_right .., Nat.add_lt_add_left hj _⟩
  have hdisk (b : Nat) (hb : b ≠ mapLocation + j) : (fs.storeMap j block).vol.disk b = fs.vol.disk b :=
    Function.update_of_ne hb ..
  have hino (g : Nat) (hg : fs.IsInode g) : g ≠ mapLocation + j := by
    intro he
    have ho : fs.view.Owns fs.IsInode g .inode := hg
    rw [he] at ho
    cases h.shape.layout.single _ _ _ hsys ho
  have href (g : Nat) (r : Option Nat) (hg : fs.IsInode g) (h0 : fs.view.ref g r ≠ 0) :
      fs.view.ref g r ≠ mapLocation + j := by
    intro he
    have ho : fs.view.Owns fs.IsInode (fs.view.ref g r) (.file g r) := ⟨hg, h0, rfl⟩
    rw [he] at ho
    cases h.shape.layout.single _ _ _ hsys ho
  have hvnode (g : Nat) (hg : fs.IsInode g) : (fs.storeMap j block).view.vnode g = fs.view.vnode g := by
    have hmem : g ∈ (fs.storeMap j block).vnodes ↔ g ∈ fs.vnodes := Iff.rfl
    by_cases hin : g ∈ fs.vnodes
    · rw [view_vnode (hmem.mpr hin), view_vnode hin]
      rfl
    · rw [view_vnode_of_not_mem (mt hmem.mp hin), view_vnode_of_not_mem hin, hdisk g (hino g hg)]
  have ha : fs.view.Alike fs.IsInode (fs.storeMap j block).view :=
    ⟨rfl, rfl, rfl, fun g hg => by rw [hvnode g hg], fun g hg => by rw [hvnode g hg],
      fun g r hg h0 => hdisk _ (href g r hg h0)⟩
  have h0 : sbLocation ≠ mapLocation + j := by
    simp only [sbLocation, mapLocation]
    omega
  refine h.of_alike ha (fun _ hg => isInode_of_mem hg) (fun _ hg => .inl hg) h.working h.memory
    (fun g hg => by rw [hvnode g hg]) ⟨h.cached.nodup, h.cached.held, fun g hg hclean => ?_, ?_, ?_, fun hclean => ?_⟩
  · rw [hdisk g (hino g (isInode_of_mem hg))]
    exact h.cached.clean g hg hclean
  · rw [hdisk _ h0]
    exact h.cached.magic
  · rw [hdisk _ h0]
    exact h.cached.nblocks
  · have hdirty' : fs.vol.freemapDirty = false := hclean
    rw [hdirty] at hdirty'
    cases hdirty'

theorem cleanMap (h : fs.Sound due)
    (hmap : ∀ i < bitBlocks fs.vol.nblocks, fs.vol.disk (mapLocation + i) = mapBlock fs.vol.freemap i) :
    (fs.setVol { fs.vol with freemapDirty := false }).Sound due ∧
      (fs.setVol { fs.vol with freemapDirty := false }).catalog = fs.catalog := by
  have ha : fs.view.Alike fs.IsInode (fs.setVol { fs.vol with freemapDirty := false }).view :=
    ⟨rfl, rfl, rfl, fun _ _ => rfl, fun _ _ => rfl, fun _ _ _ _ => rfl⟩
  refine h.of_alike ha (fun _ hg => isInode_of_mem hg) (fun _ hg => .inl hg) h.working h.memory (fun _ _ => rfl)
    ⟨h.cached.nodup, h.cached.held, h.cached.clean, h.cached.magic, h.cached.nblocks, fun _ b hb => ?_⟩
  apply mapBit_mapBlock
  apply hmap
  have hbits : fs.vol.nbits = bitmapSize fs.vol.nblocks := h.shape.layout.bits
  rw [Nat.div_lt_iff_lt_mul (by decide)]
  exact Nat.lt_of_lt_of_eq hb hbits

theorem wp_syncInodes (h : fs.Sound 0) : wp (forEach (fun ino => ignoring (syncInode ino)) fs.vnodes)
    (fun _ fs' => (fs'.Sound 0 ∧ fs'.catalog = fs.catalog) ∧ fs'.vnodes = fs.vnodes ∧
      ∀ f ∈ fs.vnodes, (fs'.vol.vnode f).dirty = false) E fs := by
  apply wp_mono_post (wp_forEach (fun is fs' => (fs'.Sound 0 ∧ fs'.catalog = fs.catalog) ∧ fs'.vnodes = fs.vnodes ∧
    ∀ f ∈ fs.vnodes, f ∉ is → (fs'.vol.vnode f).dirty = false) ?_ ?_)
  · intro _ fs' h'
    exact ⟨h'.1, h'.2.1, fun f hf => h'.2.2 f hf List.not_mem_nil⟩
  · exact ⟨⟨h, rfl⟩, rfl, fun f hf hno => absurd hf hno⟩
  · intro i is fs₁ hi h₁
    obtain ⟨⟨hsound₁, hcat₁⟩, hv₁, hclean₁⟩ := h₁
    rw [wp_ignoring]
    apply wp_mono (hsound₁.wp_syncInode (hv₁ ▸ hi) rfl (E := fun _ _ => False))
    · intro _ fs₂ h₂
      obtain ⟨hsound₂, hcat₂, hflush⟩ := h₂
      refine ⟨⟨hsound₂, hcat₂.trans hcat₁⟩, hflush.vnodes.trans hv₁, fun f hf hno => ?_⟩
      rw [hflush.vnode]
      by_cases hfi : f = i
      · rw [hfi, Function.update_self]
      · rw [Function.update_of_ne hfi]
        exact hclean₁ f hf (List.not_mem_cons_of_ne_of_not_mem hfi hno)
    · exact fun _ _ hno => hno.elim

theorem wp_sync (h : fs.Sound 0) : wp sync
    (fun _ fs' => (fs'.Sound 0 ∧ fs'.catalog = fs.catalog) ∧ fs'.vnodes = fs.vnodes ∧ fs'.Synced) E fs := by
  rw [sync, wp_bind, wp_state, wp_bind]
  apply wp_mono_post h.wp_syncInodes
  intro _ fs₁ h₁
  obtain ⟨⟨hsound₁, hcat₁⟩, hv₁, hclean₁⟩ := h₁
  rw [wp_bind, wp_state, wp_doIf]
  split
  case isFalse hmap =>
    exact ⟨⟨hsound₁, hcat₁⟩, hv₁, fun f hf => hclean₁ f (hv₁ ▸ hf), by simpa using hmap⟩
  case isTrue hmap =>
    rw [wp_bind]
    apply wp_loop fun j fs' => (fs'.Sound 0 ∧ fs'.catalog = fs₁.catalog) ∧ fs₁.MapWritten j fs'
    · exact ⟨⟨hsound₁, rfl⟩, rfl, rfl, rfl, rfl, rfl, rfl, fun i hi => absurd hi (Nat.not_lt_zero i)⟩
    · intro j fs₂ hj h₂
      obtain ⟨⟨hsound₂, hcat₂⟩, hwritten⟩ := h₂
      obtain ⟨hsound₃, hcat₃⟩ := hsound₂.storeMap (hwritten.nblocks ▸ hj) (hwritten.dirty.trans hmap)
        (mapBlock fs₁.vol.freemap j)
      rw [onDevice, wp_wblock hsound₂.working]
      exact ⟨⟨hsound₃, hcat₃.trans hcat₂⟩, hwritten.step⟩
    · intro fs₂ h₂
      obtain ⟨⟨hsound₂, hcat₂⟩, hwritten⟩ := h₂
      obtain ⟨hsound₃, hcat₃⟩ := hsound₂.cleanMap fun i hi => by
        rw [hwritten.freemap]
        exact hwritten.blocks i (hwritten.nblocks ▸ hi)
      rw [wp_update]
      refine ⟨⟨hsound₃, hcat₃.trans (hcat₂.trans hcat₁)⟩, hwritten.vnodes.trans hv₁, fun f hf => ?_, rfl⟩
      show (fs₂.vol.vnode f).dirty = false
      rw [hwritten.vnode]
      exact hclean₁ f (hv₁ ▸ hwritten.vnodes ▸ hf)

end Sound

/-- A volume as it is mounted from a disk that works, when there is memory -/
structure Mounted (blocks : Nat → ByteStore) (fs : SfsFs) : Prop where
  vnodes : fs.vnodes = []
  refs : fs.refs = fun _ => 0
  disk : fs.vol.disk = blocks
  working : ∀ i, fs.vol.ioErrors i = none
  memory : ∀ i, fs.memory i = true
  nblocks : fs.vol.nblocks = (blocks sbLocation).word 4
  nbits : fs.vol.nbits = bitmapSize fs.vol.nblocks
  freemap : ∀ b, fs.vol.freemap b = if b < fs.vol.nbits then mapBit blocks b else false
  clean : fs.vol.freemapDirty = false

/-- The first `j` blocks of the free map were read. -/
structure MapRead (blocks : Nat → ByteStore) (j : Nat) (fs : SfsFs) : Prop where
  vnodes : fs.vnodes = []
  refs : fs.refs = fun _ => 0
  disk : fs.vol.disk = blocks
  working : ∀ i, fs.vol.ioErrors i = none
  memory : ∀ i, fs.memory i = true
  nblocks : fs.vol.nblocks = (blocks sbLocation).word 4
  nbits : fs.vol.nbits = bitmapSize fs.vol.nblocks
  freemap : ∀ b, fs.vol.freemap b = if b / blockBits < j then mapBit blocks b else false
  clean : fs.vol.freemapDirty = false

private theorem MapRead.step (h : MapRead disk j fs) :
    MapRead disk (j + 1) (setMapBlock j (fs.vol.disk (mapLocation + j)) fs.countIo) where
  vnodes := h.vnodes
  refs := h.refs
  disk := h.disk
  working := h.working
  memory := h.memory
  nblocks := h.nblocks
  nbits := h.nbits
  freemap b := by
    show (if b / blockBits = j then _ else fs.vol.freemap b) = _
    rw [h.freemap b]
    by_cases hb : b / blockBits = j
    · rw [if_pos hb, if_pos (by omega), mapBit, hb, h.disk]
    · have hlt : b / blockBits < j + 1 ↔ b / blockBits < j := by omega
      rw [if_neg hb]
      simp only [hlt]
  clean := h.clean

theorem wp_domount (hok : ∀ i, fs.vol.ioErrors i = none) (hmem : ∀ i, fs.memory i = true)
    (hmagic : (fs.vol.disk sbLocation).word 0 = sfsMagic) :
    wp domount (fun _ fs' => Mounted fs.vol.disk fs') E fs := by
  have hok' : ∀ i, fs.ask.ask.vol.ioErrors i = none := hok
  have hmem₁ : ∀ i, fs.ask.memory i = true := hmem
  have hmem₂ : ∀ i, fs.ask.ask.countIo.memory i = true := hmem
  have hmagic' : ¬ (fs.ask.ask.vol.disk sbLocation).word 0 ≠ sfsMagic := not_not.mpr hmagic
  rw [domount, wp_bind, wp_allocate hmem, wp_bind, wp_allocate hmem₁, wp_bind, onDevice, wp_rblock hok', wp_bind,
    wp_raiseIf, if_neg hmagic', wp_bind, wp_allocate hmem₂, wp_bind, wp_update]
  apply wp_loop (MapRead fs.vol.disk)
  · exact ⟨rfl, rfl, rfl, hok, hmem, rfl, rfl, fun b => by rw [if_neg (Nat.not_lt_zero _)]; rfl, rfl⟩
  · intro j fs₁ hj h₁
    rw [wp_bind, onDevice, wp_rblock h₁.working, wp_update]
    exact h₁.step
  · intro fs₁ h₁
    refine ⟨h₁.vnodes, h₁.refs, h₁.disk, h₁.working, h₁.memory, h₁.nblocks, h₁.nbits, fun b => ?_, h₁.clean⟩
    have hin : b < fs₁.vol.nbits ↔ b / blockBits < bitBlocks ((fs.ask.ask.vol.disk sbLocation).word 4) := by
      rw [show fs.ask.ask.vol = fs.vol from rfl, h₁.nbits, h₁.nblocks, bitmapSize, Nat.div_lt_iff_lt_mul (by decide)]
    rw [h₁.freemap b]
    simp only [hin]

theorem Mounted.alike (hm : Mounted fs.vol.disk fs') (h : fs.Sound due) (hs : fs.Synced) :
    (∀ g, fs'.view.vnode g = fs.view.vnode g) ∧ fs.view.Alike fs.IsInode fs'.view := by
  have hvnode (g : Nat) : fs'.view.vnode g = fs.view.vnode g := by
    have hno : g ∉ fs'.vnodes := by
      rw [hm.vnodes]
      exact List.not_mem_nil
    rw [view_vnode_of_not_mem hno, hm.disk]
    by_cases hin : g ∈ fs.vnodes
    · rw [view_vnode hin]
      exact (h.cached.clean g hin (hs.inodes g hin)).symm
    · rw [view_vnode_of_not_mem hin]
  have hn : fs'.vol.nblocks = fs.vol.nblocks := hm.nblocks.trans h.cached.nblocks
  have hbits : fs.vol.nbits = bitmapSize fs.vol.nblocks := h.shape.layout.bits
  have hb : fs'.vol.nbits = fs.vol.nbits := by rw [hm.nbits, hn, hbits]
  have hmap : fs'.vol.freemap = fs.vol.freemap := by
    funext b
    rw [hm.freemap, hb]
    split
    case isTrue hlt => exact h.cached.map hs.map b hlt
    case isFalse hout =>
      symm
      apply Bool.eq_false_iff.mpr
      intro hset
      rcases (h.shape.layout.marked b).mp hset with ⟨o, ho⟩ | hpast
      · have hin := h.shape.layout.inside b o ho
        exact hout (Nat.lt_of_lt_of_le hin h.shape.layout.le_nbits)
      · exact hout hpast.2
  exact ⟨hvnode, hn, hb, hmap, fun g _ => by rw [hvnode], fun g _ => by rw [hvnode], fun _ _ _ _ => congrFun hm.disk _⟩

/-- The names and what is under them are there again. -/
theorem Mounted.contents (hm : Mounted fs.vol.disk fs') (h : fs.Sound due) (hs : fs.Synced) :
    fs'.slots = fs.slots ∧ ∀ g, 0 < fs.names g → fs'.data g = fs.data g := by
  have ha := (hm.alike h hs).2
  have hslots : fs'.slots = fs.slots := ha.slots h.isRoot
  refine ⟨hslots, fun g hg => ?_⟩
  have hI : fs.IsInode g := .inr (.inr hg)
  have hI' : fs'.IsInode g := by
    refine .inr (.inr ?_)
    rw [names, hslots]
    exact hg
  simp only [data, hI, hI', and_true, ha.text hI]

theorem Mounted.cached (hm : Mounted disk fs) (hmagic : (disk sbLocation).word 0 = sfsMagic) : fs.Cached := by
  refine ⟨?_, fun g => ?_, fun g hg => ?_, ?_, ?_, fun _ b hb => ?_⟩
  · rw [hm.vnodes]
    exact List.nodup_nil
  · rw [hm.vnodes, hm.refs]
    simp
  · rw [hm.vnodes] at hg
    cases hg
  · rw [hm.disk]
    exact hmagic
  · rw [hm.disk]
    exact hm.nblocks.symm
  · rw [hm.disk, hm.freemap b, if_pos hb]

/-- A volume that was synced comes back without references. Where no open file is without a name, it is in
order. -/
theorem Mounted.sound (hm : Mounted fs.vol.disk fs') (h : fs.Sound 0) (hs : fs.Synced)
    (hnamed : ∀ g ∈ fs.vnodes, g = rootIno ∨ 0 < fs.names g) : fs'.Sound 0 ∧
      fs'.catalog = { fs.catalog with refs := fun _ => 0 } := by
  obtain ⟨hvnode, ha⟩ := hm.alike h hs
  rw [← hm.refs]
  refine h.of_alike ha (fun g hg => ?_) (fun g hg => .inr (hnamed g hg)) hm.working hm.memory (fun g _ => by rw [hvnode])
    (hm.cached h.cached.magic)
  rw [hm.vnodes] at hg
  cases hg

private theorem newRoot_fits : newRoot.Fits :=
  ⟨by decide, fun _ _ => Nat.two_pow_pos 32, fun _ _ => rfl, by decide, by decide⟩

section

variable {volname : List UInt8} {nblocks b : Nat} {bitbuf : Nat → Bool}

theorem Mounted.size_new (hm : Mounted disk fs) (hf : Formatted volname nblocks disk bitbuf) :
    fs.vol.nblocks = nblocks ∧ fs.vol.nbits = bitmapSize nblocks := by
  have hsmall : nblocks < 2 ^ 32 := by
    have hmax := hf.small
    simp only [maxBlocks, blockSize] at hmax
    omega
  have hn : fs.vol.nblocks = nblocks := by
    rw [hm.nblocks, hf.super, superBytes_nblocks hsmall]
  exact ⟨hn, hn ▸ hm.nbits⟩

/-- The bits that `mksfs` set are read back. -/
theorem Mounted.map_new (hm : Mounted disk fs) (hf : Formatted volname nblocks disk bitbuf) :
    fs.vol.freemap b = true ↔ b < bitmapSize nblocks ∧ bitbuf b = true := by
  rw [hm.freemap b, (hm.size_new hf).2]
  by_cases hlt : b < bitmapSize nblocks
  · have hj : b / blockBits < bitBlocks nblocks := by
      rw [Nat.div_lt_iff_lt_mul (by decide)]
      exact hlt
    rw [if_pos hlt, mapBit_mapBlock (hf.map _ hj)]
    exact (and_iff_right hlt).symm
  · rw [if_neg hlt]
    exact iff_of_false (by decide) fun hc => hlt hc.1

/-- The root directory of a new volume is empty, and is all that is there. -/
theorem Mounted.sound_new (hm : Mounted disk fs) (hf : Formatted volname nblocks disk bitbuf) :
    fs.Sound 0 ∧ fs.catalog = ⟨[], fun _ => [], fun _ => 0⟩ := by
  obtain ⟨hn, hb⟩ : fs.view.nblocks = nblocks ∧ fs.view.nbits = bitmapSize nblocks := hm.size_new hf
  have hroot : fs.view.vnode rootIno = newRoot := by
    have hno : rootIno ∉ fs.vnodes := by
      rw [hm.vnodes]
      exact List.not_mem_nil
    rw [view_vnode_of_not_mem hno, hm.disk, hf.root, inodeOf_inodeBytes newRoot_fits]
    rfl
  have hslots : fs.slots = [] := by
    rw [slots, Volume.slots, hroot]
    rfl
  have hnames (g : Nat) : fs.names g = 0 := by
    rw [names, hslots]
    rfl
  have hI (g : Nat) : fs.IsInode g ↔ g = rootIno := by
    simp only [IsInode, hm.vnodes, hnames, List.not_mem_nil, Nat.lt_irrefl, or_false]
  have hblank (r : Option Nat) : fs.view.ref rootIno r = 0 := by
    apply Volume.ref_blank
    rw [hroot]
    rfl
  have hcontent : fs.view.content rootIno = fun _ => 0 := SfsSt.content_of_ref hblank
  have howns (b : Nat) (o : Volume.Owner) : fs.view.Owns fs.IsInode b o →
      o = .system ∧ (b = sbLocation ∨ mapLocation ≤ b ∧ b < mapLocation + bitBlocks nblocks) ∨
        o = .inode ∧ b = rootIno := by
    cases o with
    | system =>
      intro ho
      exact .inl ⟨rfl, hn ▸ ho⟩
    | inode => exact fun ho => .inr ⟨rfl, (hI b).mp ho⟩
    | file g r =>
      rintro ⟨hg, h0, hr⟩
      rw [(hI g).mp hg, hblank r] at hr
      exact absurd hr.symm h0
  have hlayout : fs.view.Layout fs.IsInode := by
    refine ⟨hn ▸ hf.small, by rw [hb, hn], fun b o ho => ?_, fun b => ?_, fun b o o' ho ho' => ?_⟩
    · have hroom := hf.room
      rw [hn]
      rcases howns b o ho with ⟨_, hs⟩ | ⟨_, rfl⟩
      · simp only [sbLocation, mapLocation] at *
        omega
      · simp only [rootIno, mapLocation] at *
        omega
    · have hset : fs.view.freemap b = true ↔ b < bitmapSize nblocks ∧ bitbuf b = true := hm.map_new hf
      rw [hset, hf.bits b, hn, hb]
      have hroom := hf.room
      have hle : nblocks ≤ bitmapSize nblocks := le_bitmapSize
      constructor
      · rintro ⟨hlt, hin | hpast⟩
        · left
          by_cases h1 : b = rootIno
          · exact ⟨.inode, (hI b).mpr h1⟩
          · refine ⟨.system, ?_⟩
            show b = sbLocation ∨ mapLocation ≤ b ∧ b < mapLocation + bitBlocks fs.view.nblocks
            rw [hn]
            simp only [sbLocation, mapLocation, rootIno] at *
            omega
        · exact .inr hpast
      · rintro (⟨o, ho⟩ | hpast)
        · rcases howns b o ho with ⟨_, hs⟩ | ⟨_, rfl⟩
          · simp only [sbLocation, mapLocation] at *
            omega
          · simp only [rootIno, mapLocation] at *
            omega
        · exact ⟨hpast.2, .inr hpast⟩
    · rcases howns b o ho with ⟨rfl, hs⟩ | ⟨rfl, rfl⟩
      · rcases howns b o' ho' with ⟨rfl, _⟩ | ⟨rfl, rfl⟩
        · rfl
        · simp only [sbLocation, mapLocation, rootIno] at hs
          omega
      · rcases howns _ o' ho' with ⟨rfl, hs⟩ | ⟨rfl, _⟩
        · simp only [sbLocation, mapLocation, rootIno] at hs
          omega
        · rfl
  have hshape : fs.view.Shape fs.IsInode := by
    refine ⟨hlayout, .inl rfl, ⟨?_, ?_, fun k k' name a b hk _ => ?_⟩, fun g hg => ?_, fun g hg hne => ?_⟩
    · rw [hroot]
      rfl
    · rw [hroot]
      rfl
    · have hat := Volume.at_slots.mpr hk
      rw [show fs.view.slots rootIno = [] from hslots] at hat
      cases hat
    · rw [(hI g).mp hg]
      refine ⟨?_, fun x _ => by rw [hcontent], fun i _ => ?_⟩
      · rw [hroot]
        exact Nat.zero_le _
      · rw [hroot]
        rfl
    · exact absurd ((hI g).mp hg) hne
  have hmagic : (disk sbLocation).word 0 = sfsMagic := by
    rw [hf.super]
    exact superBytes_magic
  refine ⟨⟨hm.working, hm.memory, hshape, fun g hg => ?_, hm.cached hmagic⟩, ?_⟩
  · rw [(hI g).mp hg, hroot, hnames]
    rfl
  · have hdata : fs.data = fun _ => [] := by
      funext g
      rw [data, if_neg]
      rintro ⟨hne, hg⟩
      exact hne ((hI g).mp hg)
    rw [catalog, hslots, hdata, hm.refs]

end

end SfsFs

end CseOs.Kernel.Sfs
