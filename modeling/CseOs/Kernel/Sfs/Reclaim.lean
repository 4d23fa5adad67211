import CseOs.Kernel.Sfs.Inodes

/-!
# Writing inodes back and erasing files

`sfs_sync_inode`, `sfs_truncate` to nothing, and what `vnode_decref` does with the last reference.
-/

namespace CseOs.Kernel.Sfs

open Framework Prog

namespace SfsSt

variable {s t : SfsSt} {r : Option Nat}

theorem Cut.ref_zero (h : s.Cut (blocksOf 0) t) : t.ref r = 0 := by
  have h0 : blocksOf 0 = 0 := by decide
  rw [h0] at h
  cases r with
  | none =>
    by_cases hid : s.inode.indirect = 0
    · have hkept : ¬ s.FreesIndirect 0 := fun hfree => hfree.1 hid
      exact (h.kept hkept).trans hid
    · refine h.emptied ⟨hid, by decide, fun k _ hlt => ?_⟩
      simp only [nDirect] at hlt
      omega
  | some b =>
    have hdrops : Drops 0 b := by
      simp only [Drops, nDirect]
      omega
    rw [ref_some, h.fileBlock, if_pos hdrops]

theorem content_of_ref (h : ∀ r, s.ref r = 0) : s.content = fun _ => 0 := by
  funext x
  rw [content, if_pos]
  exact h (some (x / blockSize))

end SfsSt

namespace SfsFs

open Volume (Revised)

variable {fs fs' : SfsFs} {v v' : Volume} {f g ino k n m : Nat} {due due' : Nat → Int} {E : Errno → SfsFs → Prop}

/-- A block of the device is written. -/
theorem wp_wblock {Q : Unit → SfsFs → Prop} {block : ByteStore} (hok : ∀ i, fs.vol.ioErrors i = none) :
    wp (onFile ino (SfsSt.wblock block n)) Q E fs ↔
      Q () (fs.setVol { fs.vol with disk := Function.update fs.vol.disk n block, ios := fs.vol.ios + 1 }) := by
  have herror : (fs.vol.file ino idle).ioErrors (fs.vol.file ino idle).ios = none := hok _
  have hset : fs.vol.setFile ino ((fs.vol.file ino idle).countIo.setBlock n block) =
      { fs.vol with disk := Function.update fs.vol.disk n block, ios := fs.vol.ios + 1 } := by
    simp [Volume.setFile, Volume.setVnode, Volume.file, SfsSt.countIo, SfsSt.setBlock]
  rw [wp_onFile, SfsSt.wp_wblock, herror]
  show Q () (fs.setVol (fs.vol.setFile ino ((fs.vol.file ino idle).countIo.setBlock n block))) ↔ _
  rw [hset]

/-- The inode was written back, if that was to be done. -/
structure Flushed (fs : SfsFs) (ino : Nat) (fs' : SfsFs) : Prop where
  vnodes : fs'.vnodes = fs.vnodes
  refs : fs'.refs = fs.refs
  vnode : fs'.vol.vnode = Function.update fs.vol.vnode ino { fs.vol.vnode ino with dirty := false }
  nblocks : fs'.vol.nblocks = fs.vol.nblocks
  nbits : fs'.vol.nbits = fs.vol.nbits
  freemap : fs'.vol.freemap = fs.vol.freemap
  freemapDirty : fs'.vol.freemapDirty = fs.vol.freemapDirty
  errors : fs'.vol.ioErrors = fs.vol.ioErrors
  memory : fs'.memory = fs.memory
  disk : ∀ b ≠ ino, fs'.vol.disk b = fs.vol.disk b

namespace Sound

theorem fits (h : fs.Sound due) (hI : fs.IsInode f) (hdue : due f = 0) : (fs.view.vnode f).Fits := by
  have htidy := h.shape.tidy f hI
  have hword (r : Option Nat) : fs.view.ref f r < 2 ^ 32 := by
    by_cases h0 : fs.view.ref f r = 0
    · rw [h0]
      decide
    · have ho : fs.view.Owns fs.IsInode (fs.view.ref f r) (.file f r) := ⟨hI, h0, rfl⟩
      have hlt := h.shape.layout.inside _ _ ho
      have hsmall := h.shape.layout.small
      simp only [maxBlocks, blockSize] at hsmall
      omega
  refine ⟨?_, fun i hi => ?_, htidy.tail, hword none, ?_⟩
  · have hsize := htidy.size
    simp only [maxFileSize, maxFileBlocks, nDirect, dbPerIdb, blockSize] at hsize
    omega
  · have hdirect : fs.view.ref f (some i) = (fs.view.vnode f).inode.direct i := SfsSt.ref_direct hi
    rw [← hdirect]
    exact hword _
  · have hlinks := h.links f hI
    have hle : fs.names f ≤ fs.slots.length := SlotTable.uses_le_length
    have hlen : fs.slots.length < 2 ^ 16 - 1 := h.shape.length_slots
    rw [hdue] at hlinks
    split at hlinks <;> omega

theorem flushed (h : fs.Sound due) (hf : f ∈ fs.vnodes) (hflush : fs.Flushed f fs')
    (hdisk : fs'.vol.vnode f = inodeOf (fs'.vol.disk f)) : fs'.Sound due ∧ fs'.catalog = fs.catalog := by
  have hI := isInode_of_mem hf
  have hinode (g : Nat) (hg : fs.IsInode g) : (fs'.view.vnode g).inode = (fs.view.vnode g).inode ∧
      (fs'.view.vnode g).type = (fs.view.vnode g).type ∧
      (fs'.view.vnode g).linkcount = (fs.view.vnode g).linkcount := by
    by_cases hgf : g = f
    · have hf' : f ∈ fs'.vnodes := hflush.vnodes ▸ hf
      rw [hgf, view_vnode hf', view_vnode hf, hflush.vnode, Function.update_self]
      exact ⟨rfl, rfl, rfl⟩
    · by_cases hin : g ∈ fs.vnodes
      · have hin' : g ∈ fs'.vnodes := hflush.vnodes ▸ hin
        rw [view_vnode hin', view_vnode hin, hflush.vnode, Function.update_of_ne hgf]
        exact ⟨rfl, rfl, rfl⟩
      · have hin' : g ∉ fs'.vnodes := hflush.vnodes ▸ hin
        rw [view_vnode_of_not_mem hin', view_vnode_of_not_mem hin, hflush.disk g hgf]
        exact ⟨rfl, rfl, rfl⟩
  have ha : fs.view.Alike fs.IsInode fs'.view :=
    ⟨hflush.nblocks, hflush.nbits, hflush.freemap, fun g hg => (hinode g hg).1, fun g hg => (hinode g hg).2.1,
      fun g r hg h0 => hflush.disk _ (h.shape.ref_ne hg hI h0)⟩
  have h0 : sbLocation ≠ f := (h.shape.ne_zero hI).symm
  have hcached : fs'.Cached := by
    refine ⟨?_, fun g => ?_, fun g hg hdirty => ?_, ?_, ?_, fun hdirty b hb => ?_⟩
    · rw [hflush.vnodes]
      exact h.cached.nodup
    · rw [hflush.vnodes, hflush.refs]
      exact h.cached.held g
    · by_cases hgf : g = f
      · rw [hgf]
        exact hdisk
      · rw [hflush.vnodes] at hg
        rw [hflush.vnode, Function.update_of_ne hgf] at hdirty ⊢
        rw [hflush.disk g hgf]
        exact h.cached.clean g hg hdirty
    · rw [hflush.disk _ h0]
      exact h.cached.magic
    · rw [hflush.disk _ h0, hflush.nblocks]
      exact h.cached.nblocks
    · rw [hflush.freemapDirty] at hdirty
      rw [hflush.nbits] at hb
      have hsys : fs.view.Owns fs.IsInode (mapLocation + b / blockBits) .system := h.mapBlock_system hb
      have hne : mapLocation + b / blockBits ≠ f := by
        intro he
        rw [he] at hsys
        cases h.shape.layout.single f _ _ hsys (show fs.view.Owns fs.IsInode f .inode from hI)
      rw [mapBit_congr (hflush.disk _ hne), hflush.freemap]
      exact h.cached.map hdirty b hb
  have hlinks (g : Nat) (hg : fs.IsInode g) : ((fs'.view.vnode g).linkcount : Int) + due g =
      (fs.view.vnode g).linkcount + due g := by rw [(hinode g hg).2.2]
  obtain ⟨hsound, hcat⟩ := h.of_alike ha (fun g hg => isInode_of_mem (hflush.vnodes ▸ hg))
    (fun g hg => .inl (hflush.vnodes ▸ hg)) (fun i => by rw [hflush.errors]; exact h.working i)
    (fun i => by rw [hflush.memory]; exact h.memory i) hlinks hcached
  refine ⟨hsound, hcat.trans ?_⟩
  rw [hflush.refs]
  rfl

/-- An open file is written back. -/
theorem wp_syncInode (h : fs.Sound due) (hf : f ∈ fs.vnodes) (hdue : due f = 0) : wp (syncInode f)
    (fun _ fs' => fs'.Sound due ∧ fs'.catalog = fs.catalog ∧ fs.Flushed f fs') E fs := by
  have hfits := h.fits (isInode_of_mem hf) hdue
  rw [view_vnode hf] at hfits
  rw [syncInode, wp_bind, wp_state, wp_doIf]
  split
  case isTrue hdirty =>
    rw [wp_bind, wp_wblock h.working, wp_update]
    have hflush : fs.Flushed f (SfsFs.setVnode f { fs.vol.vnode f with dirty := false } (fs.setVol { fs.vol with
        disk := Function.update fs.vol.disk f (inodeBytes (fs.vol.vnode f)), ios := fs.vol.ios + 1 })) :=
      ⟨rfl, rfl, rfl, rfl, rfl, rfl, rfl, rfl, rfl, fun b hb => Function.update_of_ne hb ..⟩
    have hstored : ({ fs.vol.vnode f with dirty := false } : SfsVnode) =
        inodeOf (Function.update fs.vol.disk f (inodeBytes (fs.vol.vnode f)) f) := by
      rw [Function.update_self, inodeOf_inodeBytes hfits]
    obtain ⟨hsound, hcat⟩ := h.flushed hf hflush ((Function.update_self ..).trans hstored)
    exact ⟨hsound, hcat, hflush⟩
  case isFalse hclean =>
    have hclean' : (fs.vol.vnode f).dirty = false := by simpa using hclean
    refine ⟨h, rfl, rfl, rfl, ?_, rfl, rfl, rfl, rfl, rfl, rfl, fun _ _ => rfl⟩
    have hsame : ({ fs.vol.vnode f with dirty := false } : SfsVnode) = fs.vol.vnode f := by
      rw [← hclean']
    rw [hsame, Function.update_eq_self]

/-- A file is cut to nothing. -/
theorem wp_truncate (h : fs.Sound due) (hf : f ∈ fs.vnodes) (hne : f ≠ rootIno) : wp (truncate f 0)
    (fun _ fs' => fs'.Sound due ∧ fs'.catalog = { fs.catalog with data := Function.update fs.data f [] } ∧
      fs'.vnodes = fs.vnodes ∧ (fs'.vol.vnode f).linkcount = (fs.vol.vnode f).linkcount ∧
      ∀ r, fs'.vol.ref f r = 0) E fs := by
  have hreadable := h.readable hf
  have htype := h.shape.files f (isInode_of_mem hf) hne
  rw [view_vnode hf] at htype
  have hfile : ¬ (fs.vol.vnode f).type = .dir := by
    rw [htype]
    decide
  rw [truncate, wp_bind, wp_state, wp_bind, wp_raiseIf, if_neg hfile, wp_onFile]
  apply wp_mono_post (hreadable.consistent.wp_truncates h.working)
  intro _ u hu
  obtain ⟨⟨hcut, hsize, hfair⟩, hsteady⟩ := hu
  have href (r : Option Nat) : u.ref r = 0 := hcut.ref_zero
  have hrevised := Volume.revised_setFile (hcut.consistent hreadable.consistent) hfair hsteady
  rw [SfsSt.content_of_ref href, hsize] at hrevised
  obtain ⟨hsound, hcat⟩ := h.revise_file hf hne hrevised (Nat.zero_le _) fun _ _ => rfl
  refine ⟨hsound, hcat, rfl, hrevised.linkcount, fun r => ?_⟩
  show (fs.vol.setFile f u).ref f r = 0
  rw [Volume.ref, Volume.file_setFile]
  exact href r

theorem dropFree (h : fs.Sound due) (hf : f ∈ fs.vnodes) (hne : f ≠ rootIno) (hnames : fs.names f = 0)
    (hempty : ∀ r, fs.vol.ref f r = 0) (hnew : fs'.vnodes = fs.vnodes.erase f)
    (hrefs : fs'.refs = Function.update fs.refs f 0) (hvnode : fs'.vol.vnode = fs.vol.vnode)
    (hdisk : fs'.vol.disk = fs.vol.disk) (hmap : fs'.vol.freemap = Function.update fs.vol.freemap f false)
    (hdirty : fs'.vol.freemapDirty = true) (hn : fs'.vol.nblocks = fs.vol.nblocks)
    (hb : fs'.vol.nbits = fs.vol.nbits) (hworking : fs'.vol.ioErrors = fs.vol.ioErrors)
    (hmemory : fs'.memory = fs.memory) :
    fs'.Sound due ∧ fs'.catalog =
      { fs.catalog with data := Function.update fs.data f [], refs := Function.update fs.refs f 0 } := by
  have hI := isInode_of_mem hf
  have hmem (g : Nat) : g ∈ fs'.vnodes ↔ g ≠ f ∧ g ∈ fs.vnodes := by
    rw [hnew, h.cached.nodup.mem_erase_iff]
  have hview (g : Nat) (hgf : g ≠ f) : fs'.view.vnode g = fs.view.vnode g := by
    by_cases hin : g ∈ fs.vnodes
    · rw [view_vnode ((hmem g).mpr ⟨hgf, hin⟩), view_vnode hin, hvnode]
    · rw [view_vnode_of_not_mem (fun hg => hin ((hmem g).mp hg).2), view_vnode_of_not_mem hin, hdisk]
  have hsame (g : Nat) (hgf : g ≠ f) : fs'.view.ref g = fs.view.ref g ∧ fs'.view.content g = fs.view.content g := by
    apply Volume.same_file (by rw [hview g hgf])
    exact fun r _ => congrFun hdisk _
  have hroot := hview rootIno hne.symm
  have hslots : fs'.slots = fs.slots := Volume.slots_congr (hsame rootIno hne.symm).2 (by rw [hroot])
  have hnames' (g : Nat) : fs'.names g = fs.names g := by rw [names, names, hslots]
  have hmemI (g : Nat) : fs'.IsInode g ↔ fs.IsInode g ∧ g ≠ f := by
    simp only [IsInode, hnames', hmem]
    by_cases hgf : g = f
    · subst hgf
      simp [hne, hnames]
    · simp [hgf]
  have hempty' (r : Option Nat) : fs.view.ref f r = 0 := by
    rw [Volume.ref, view_file hf]
    exact hempty r
  have hshape : fs'.view.Shape fs'.IsInode := by
    refine ⟨?_, .inl rfl, ?_, fun g hg => ?_, fun g hg hgr => ?_⟩
    · have hshrunk : fs'.view.Layout fun g => fs.IsInode g ∧ g ≠ f :=
        h.shape.layout.shrink hI hempty' hn hb hmap fun g _ hgf => (hsame g hgf).1
      exact hshrunk.congr rfl rfl rfl (fun _ _ => rfl) hmemI
    · exact h.shape.root.of_content (hsame rootIno hne.symm).2 (by rw [hroot]) (by rw [hroot])
    · obtain ⟨hg', hgf⟩ := (hmemI g).mp hg
      exact (h.shape.tidy g hg').of_same (by rw [hview g hgf]) (hsame g hgf).2
    · obtain ⟨hg', hgf⟩ := (hmemI g).mp hg
      rw [hview g hgf]
      exact h.shape.files g hg' hgr
  refine ⟨⟨fun i => by rw [hworking]; exact h.working i, fun i => by rw [hmemory]; exact h.memory i, hshape, fun g hg => ?_, ?_⟩, ?_⟩
  · obtain ⟨hg', hgf⟩ := (hmemI g).mp hg
    rw [hnames', hview g hgf]
    exact h.links g hg'
  · refine ⟨?_, fun g => ?_, fun g hg hclean => ?_, ?_, ?_, fun hclean => ?_⟩
    · rw [hnew]
      exact h.cached.nodup.erase f
    · rw [hmem, hrefs]
      by_cases hgf : g = f
      · rw [hgf, Function.update_self]
        simp
      · rw [Function.update_of_ne hgf, ← h.cached.held g]
        exact and_iff_right hgf
    · rw [hvnode] at hclean ⊢
      rw [hdisk]
      exact h.cached.clean g ((hmem g).mp hg).2 hclean
    · rw [hdisk]
      exact h.cached.magic
    · rw [hdisk, hn]
      exact h.cached.nblocks
    · rw [hdirty] at hclean
      cases hclean
  · have hdata : fs'.data = Function.update fs.data f [] := by
      funext g
      by_cases hgf : g = f
      · subst hgf
        rw [Function.update_self]
        exact if_neg fun hc => ((hmemI g).mp hc.2).2 rfl
      · rw [Function.update_of_ne hgf]
        simp only [data, hmemI, ne_eq, hgf, not_false_eq_true, and_true]
        split
        case isTrue hg => rw [Volume.text, Volume.text, (hsame g hgf).2, hview g hgf]
        case isFalse => rfl
    rw [catalog, catalog, hslots, hdata, hrefs]

theorem dropClean (h : fs.Sound due) (hf : f ∈ fs.vnodes) (hnamed : f = rootIno ∨ 0 < fs.names f)
    (hclean : fs.vol.vnode f = inodeOf (fs.vol.disk f)) : (fs.dropVnode f).Sound due ∧
      (fs.dropVnode f).catalog = { fs.catalog with refs := Function.update fs.refs f 0 } := by
  have hmem (g : Nat) : g ∈ (fs.dropVnode f).vnodes ↔ g ≠ f ∧ g ∈ fs.vnodes :=
    h.cached.nodup.mem_erase_iff
  have hview (g : Nat) : (fs.dropVnode f).view.vnode g = fs.view.vnode g := by
    by_cases hgf : g = f
    · subst hgf
      rw [view_vnode_of_not_mem fun hg => ((hmem g).mp hg).1 rfl, view_vnode hf, hclean]
      rfl
    · by_cases hin : g ∈ fs.vnodes
      · rw [view_vnode ((hmem g).mpr ⟨hgf, hin⟩), view_vnode hin]
        rfl
      · rw [view_vnode_of_not_mem (fun hg => hin ((hmem g).mp hg).2), view_vnode_of_not_mem hin]
        rfl
  refine h.of_alike ⟨rfl, rfl, rfl, fun g _ => by rw [hview], fun g _ => by rw [hview], fun _ _ _ _ => rfl⟩
    (fun g hg => isInode_of_mem ((hmem g).mp hg).2) (fun g hg => ?_) h.working h.memory (fun g _ => by rw [hview]) ?_
  · by_cases hgf : g = f
    · rw [hgf]
      exact .inr hnamed
    · exact .inl ((hmem g).mpr ⟨hgf, hg⟩)
  · refine ⟨h.cached.nodup.erase f, fun g => ?_, fun g hg => h.cached.clean g ((hmem g).mp hg).2, h.cached.magic,
      h.cached.nblocks, h.cached.map⟩
    rw [hmem]
    show _ ↔ 0 < Function.update fs.refs f 0 g
    by_cases hgf : g = f
    · rw [hgf, Function.update_self]
      simp
    · rw [Function.update_of_ne hgf, ← h.cached.held g]
      exact and_iff_right hgf

private theorem data_root (fs : SfsFs) : fs.data rootIno = [] := if_neg fun hc => hc.1 rfl

theorem wp_reclaim (h : fs.Sound due) (hf : f ∈ fs.vnodes) (hdue : due f = 0) : wp (reclaim f)
    (fun _ fs' => fs'.Sound due ∧ fs'.catalog = { fs.catalog with
      refs := Function.update fs.refs f 0
      data := if fs.names f = 0 then Function.update fs.data f [] else fs.data }) E fs := by
  have hlinks := h.links f (isInode_of_mem hf)
  rw [view_vnode hf, hdue] at hlinks
  rw [reclaim, wp_bind, wp_state, wp_bind, wp_doIf]
  by_cases hlc : (fs.vol.vnode f).linkcount = 0
  · have hne : f ≠ rootIno := by
      intro hroot
      rw [if_pos hroot] at hlinks
      omega
    have hnames : fs.names f = 0 := by
      rw [if_neg hne] at hlinks
      omega
    rw [if_pos hlc, if_pos hnames]
    apply wp_mono_post (h.wp_truncate hf hne)
    intro _ fs₁ h₁
    obtain ⟨hsound₁, hcat₁, hv₁, hlc₁, href₁⟩ := h₁
    rw [wp_bind]
    apply wp_mono_post (hsound₁.wp_syncInode (hv₁ ▸ hf) hdue)
    intro _ fs₂ h₂
    obtain ⟨hsound₂, hcat₂, hflush⟩ := h₂
    have hf₂ : f ∈ fs₂.vnodes := by
      rw [hflush.vnodes, hv₁]
      exact hf
    have hvnode₂ : fs₂.vol.vnode f = { fs₁.vol.vnode f with dirty := false } := by
      rw [hflush.vnode, Function.update_self]
    have hlc₂ : (fs₂.vol.vnode f).linkcount = 0 := by
      rw [hvnode₂]
      exact hlc₁.trans hlc
    have hcat : fs₂.catalog = { fs.catalog with data := Function.update fs.data f [] } := hcat₂.trans hcat₁
    have hnames₂ : fs₂.names f = 0 := by
      rw [names, show fs₂.slots = fs.slots from congrArg Catalog.slots hcat]
      exact hnames
    have href₂ (r : Option Nat) : fs₂.vol.ref f r = 0 := by
      have hsame : (fs₂.vol.file f idle).ref = (fs₁.vol.file f idle).ref :=
        SfsSt.ref_congr (by rw [show (fs₂.vol.file f idle).inode = (fs₂.vol.vnode f).inode from rfl, hvnode₂]; rfl)
          fun h0 => absurd (href₁ none) h0
      exact (congrFun hsame r).trans (href₁ r)
    obtain ⟨hlt, hused⟩ := hsound₂.used (isInode_of_mem hf₂)
    have hbits : f < (fs₂.vol.file f idle).nbits := Nat.lt_of_lt_of_le hlt hsound₂.shape.layout.le_nbits
    rw [wp_bind, wp_state, wp_bind, wp_doIf, if_pos hlc₂, wp_onFile, SfsSt.wp_bfree hbits hused, wp_bind, wp_check]
    refine ⟨hf₂, ?_⟩
    rw [wp_update]
    generalize hfs₃ : dropVnode f (fs₂.setVol (fs₂.vol.setFile f ((fs₂.vol.file f idle).mark f false))) = fs₃
    have hset : fs₃.vol.vnode = fs₂.vol.vnode := by
      rw [← hfs₃]
      simp [dropVnode, SfsFs.setRefs, setVol, Volume.setFile, Volume.setVnode, Volume.file, SfsSt.mark]
    obtain ⟨hsound, hcat'⟩ := hsound₂.dropFree hf₂ hne hnames₂ href₂ (by rw [← hfs₃]; rfl)
      (by rw [← hfs₃]; rfl) hset (by rw [← hfs₃]; rfl) (by rw [← hfs₃]; rfl) (by rw [← hfs₃]; rfl)
      (by rw [← hfs₃]; rfl) (by rw [← hfs₃]; rfl) (by rw [← hfs₃]; rfl) (by rw [← hfs₃]; rfl)
    refine ⟨hsound, hcat'.trans ?_⟩
    rw [hcat, show fs₂.data = _ from congrArg Catalog.data hcat, show fs₂.refs = fs.refs from
      congrArg Catalog.refs hcat, Function.update_idem]
  · rw [if_neg hlc, wp_bind]
    apply wp_mono_post (h.wp_syncInode hf hdue)
    intro _ fs₂ h₂
    obtain ⟨hsound₂, hcat₂, hflush⟩ := h₂
    have hf₂ : f ∈ fs₂.vnodes := by
      rw [hflush.vnodes]
      exact hf
    have hvnode₂ : fs₂.vol.vnode f = { fs.vol.vnode f with dirty := false } := by
      rw [hflush.vnode, Function.update_self]
    have hlc₂ : ¬ (fs₂.vol.vnode f).linkcount = 0 := by
      rw [hvnode₂]
      exact hlc
    have hnames₂ : fs₂.names f = fs.names f := by
      rw [names, names, show fs₂.slots = fs.slots from congrArg Catalog.slots hcat₂]
    have hnamed : f = rootIno ∨ 0 < fs₂.names f := by
      by_cases hroot : f = rootIno
      · exact .inl hroot
      · rw [if_neg hroot] at hlinks
        rw [hnames₂]
        exact .inr (by omega)
    have hclean := hsound₂.cached.clean f hf₂ (by rw [hvnode₂])
    rw [wp_bind, wp_state, wp_bind, wp_doIf, if_neg hlc₂, wp_bind, wp_check]
    refine ⟨hf₂, ?_⟩
    rw [wp_update]
    obtain ⟨hsound, hcat⟩ := hsound₂.dropClean hf₂ hnamed hclean
    refine ⟨hsound, hcat.trans ?_⟩
    have hdata : (if fs.names f = 0 then Function.update fs.data f [] else fs.data) = fs.data := by
      split
      case isTrue h0 =>
        rw [hnames₂, h0] at hnamed
        have hroot := hnamed.resolve_right (Nat.lt_irrefl 0)
        rw [hroot, ← data_root fs, Function.update_eq_self]
      case isFalse => rfl
    rw [hcat₂, show fs₂.refs = fs.refs from congrArg Catalog.refs hcat₂, hdata]
    rfl

end Sound

/-- One reference fewer. With the last one a file without names is erased. -/
def Catalog.release (f : Nat) (c : Catalog) : Catalog :=
  { c with
    refs := Function.update c.refs f (c.refs f - 1)
    data := if c.refs f = 1 ∧ SlotTable.uses f c.slots = 0 then Function.update c.data f [] else c.data }

/-- A reference is dropped. -/
theorem Sound.wp_decref (h : fs.Sound due) (hf : 0 < fs.refs f) (hdue : due f = 0) : wp (decref f)
    (fun _ fs' => fs'.Sound due ∧ fs'.catalog = fs.catalog.release f) E fs := by
  have hmem := h.mem_iff.mpr hf
  rw [decref, wp_bind, wp_state, wp_bind, wp_check]
  refine ⟨hf, ?_⟩
  rw [wp_ite]
  split
  case isTrue hmany =>
    have hno : ¬ (fs.catalog.refs f = 1 ∧ SlotTable.uses f fs.catalog.slots = 0) := by
      rintro ⟨hone, _⟩
      have hone' : fs.refs f = 1 := hone
      omega
    rw [wp_update, Catalog.release, if_neg hno]
    exact h.setRefs hmem (by omega)
  case isFalse hlast =>
    have hone : fs.refs f = 1 := by omega
    rw [wp_ignoring]
    apply wp_mono (h.wp_reclaim hmem hdue (E := fun _ _ => False))
    · intro _ fs' hfs
      refine ⟨hfs.1, hfs.2.trans ?_⟩
      have hone' : fs.catalog.refs f = 1 := hone
      have hnames : SlotTable.uses f fs.catalog.slots = fs.names f := rfl
      simp only [Catalog.release, hone', hnames, true_and, Nat.sub_self]
      rfl
    · exact fun _ _ hno => hno.elim

end SfsFs

end CseOs.Kernel.Sfs
