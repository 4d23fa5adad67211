import CseOs.Kernel.Sfs.Sound

/-!
# Loading and reclaiming inodes

What `sfs_loadvnode`, `sfs_makeobj` and `vnode_decref` do to a volume that is in order.
-/

namespace CseOs.Kernel.Sfs

open Framework Prog

namespace SfsSt

variable {s : SfsSt} {d : Nat}

theorem Consistent.wp_balloc_working (h : s.Consistent) (hok : s.Working) :
    wp balloc (fun d t => s.freemap d = false ∧ d < s.nblocks ∧
      t = (s.mark d true).countIo.setBlock d zeros) (fun e t => e = .enospc ∧ t = s) s := by
  simp only [balloc, wp_bind, wp_state]
  cases hf : s.firstFree with
  | none => exact ⟨rfl, rfl⟩
  | some d =>
    obtain ⟨hbits, hfree⟩ := firstFree_spec hf
    have hlt := (h.free_block hbits hfree).2.1
    have herror : (s.mark d true).ioErrors (s.mark d true).ios = none := hok _
    simp only [wp_bind, wp_update, wp_wblock, herror, wp_pure, if_neg (Nat.not_le.mpr hlt)]
    exact ⟨hfree, hlt, trivial⟩

end SfsSt

namespace SfsFs

open Volume (Revised)

variable {fs fs' : SfsFs} {v v' : Volume} {f g ino k n m : Nat} {due due' : Nat → Int} {w : Transfer}
  {bytes : Nat → UInt8} {α : Type} {E : Errno → SfsFs → Prop}

@[simp] theorem wp_onVol {Q : α → SfsFs → Prop} (p : Prog Volume Errno α) : wp (onVol p) Q E fs ↔
    wp p (fun a v => Q a (fs.setVol v)) (fun e v => E e (fs.setVol v)) fs.vol :=
  wp_zoom ..

@[simp] theorem wp_onFile {Q : α → SfsFs → Prop} (p : Prog SfsSt Errno α) : wp (onFile ino p) Q E fs ↔
    wp p (fun a u => Q a (fs.setVol (fs.vol.setFile ino u))) (fun e u => E e (fs.setVol (fs.vol.setFile ino u)))
      (fs.vol.file ino idle) := by
  rw [onFile, wp_onVol, Volume.onFile, wp_zoom]

private theorem wp_checkBused {Q : Unit → SfsFs → Prop} : wp (checkBused ino) Q E fs ↔
    (ino < fs.vol.nblocks ∧ fs.vol.freemap ino = true) ∧ Q () fs := by
  simp only [checkBused, wp_bind, wp_state, wp_check]

private theorem wp_forEach_checkBused {Q : Unit → SfsFs → Prop} {l : List Nat}
    (h : ∀ b ∈ l, b < fs.vol.nblocks ∧ fs.vol.freemap b = true) :
    wp (forEach checkBused l) Q E fs ↔ Q () fs := by
  induction l with
  | nil => exact Iff.rfl
  | cons b l ih =>
    rw [forEach, wp_bind, wp_checkBused, ih fun x hx => h x (List.mem_cons_of_mem b hx)]
    exact and_iff_right (h b List.mem_cons_self)

private theorem mem_searched (h : g ∈ fs.searched ino) : g ∈ fs.vnodes := by
  rw [searched, List.mem_append] at h
  cases h with
  | inl hg => exact List.takeWhile_subset _ hg
  | inr hg =>
    split at hg
    case isTrue hino => exact List.mem_singleton.mp hg ▸ hino
    case isFalse => cases hg

/-- One more request to the device -/
def countIo (fs : SfsFs) : SfsFs := fs.setVol (fs.vol.countIos (fs.vol.ios + 1))

/-- A block of the device is read. -/
theorem wp_rblock {Q : ByteStore → SfsFs → Prop} (hok : ∀ i, fs.vol.ioErrors i = none) :
    wp (onFile ino (SfsSt.rblock n)) Q E fs ↔ Q (fs.vol.disk n) fs.countIo := by
  have herror : (fs.vol.file ino idle).ioErrors (fs.vol.file ino idle).ios = none := hok _
  have hset : fs.vol.setFile ino (fs.vol.file ino idle).countIo = fs.vol.countIos (fs.vol.ios + 1) :=
    @Volume.setFile_read fs.vol idle ino (fs.vol.ios + 1) idle
  rw [wp_onFile, SfsSt.wp_rblock, herror]
  show Q (fs.vol.disk n) (fs.setVol (fs.vol.setFile ino (fs.vol.file ino idle).countIo)) ↔ _
  rw [hset, countIo]

/-- Where memory does not run out a request for it is counted only. -/
theorem wp_allocate {Q : Unit → SfsFs → Prop} (hmem : ∀ i, fs.memory i = true) :
    wp allocate Q E fs ↔ Q () fs.ask := by
  rw [allocate, wp_bind, wp_state, wp_bind, wp_update, wp_raiseIf, if_neg (by simp [hmem])]

private theorem alike_refl (I : Nat → Prop) (v : Volume) : v.Alike I v :=
  ⟨rfl, rfl, rfl, fun _ _ => rfl, fun _ _ => rfl, fun _ _ _ _ => rfl⟩

theorem isInode_congr (hslots : fs'.slots = fs.slots) (hv : fs'.vnodes = fs.vnodes) :
    fs'.IsInode g ↔ fs.IsInode g := by
  simp only [IsInode, names, hslots, hv]

namespace Sound

/-- Requests to the device change nothing. -/
theorem countIos (h : fs.Sound due) (k : Nat) : (fs.setVol (fs.vol.countIos k)).Sound due ∧
    (fs.setVol (fs.vol.countIos k)).catalog = fs.catalog := by
  have ha : fs.view.Alike fs.IsInode (fs.setVol (fs.vol.countIos k)).view :=
    ⟨rfl, rfl, rfl, fun _ _ => rfl, fun _ _ => rfl, fun _ _ _ _ => rfl⟩
  have hcached : (fs.setVol (fs.vol.countIos k)).Cached :=
    ⟨h.cached.nodup, h.cached.held, h.cached.clean, h.cached.magic, h.cached.nblocks, h.cached.map⟩
  exact h.of_alike ha (fun _ hg => isInode_of_mem hg) (fun _ hg => .inl hg) h.working h.memory (fun _ _ => rfl) hcached

theorem ask (h : fs.Sound due) : fs.ask.Sound due ∧ fs.ask.catalog = fs.catalog := by
  have ha : fs.view.Alike fs.IsInode fs.ask.view := alike_refl _ _
  have hcached : fs.ask.Cached :=
    ⟨h.cached.nodup, h.cached.held, h.cached.clean, h.cached.magic, h.cached.nblocks, h.cached.map⟩
  exact h.of_alike ha (fun _ hg => isInode_of_mem hg) (fun _ hg => .inl hg) h.working h.memory (fun _ _ => rfl) hcached

theorem requests (h : fs.Sound due) :
    fs.ask.countIo.ask.ask.Sound due ∧ fs.ask.countIo.ask.ask.catalog = fs.catalog := by
  obtain ⟨h₁, hcat₁⟩ := h.ask
  obtain ⟨h₂, hcat₂⟩ := h₁.countIos (fs.vol.ios + 1)
  obtain ⟨h₃, hcat₃⟩ := h₂.ask
  obtain ⟨h₄, hcat₄⟩ := h₃.ask
  exact ⟨h₄, hcat₄.trans (hcat₃.trans (hcat₂.trans hcat₁))⟩

theorem quiet (h : fs.Sound due) (hq : fs.vol.Quiet v') : (fs.setVol v').Sound due ∧
    (fs.setVol v').catalog = fs.catalog := by
  obtain ⟨k, rfl⟩ := hq
  exact h.countIos k

theorem mem_iff (h : fs.Sound due) : f ∈ fs.vnodes ↔ 0 < fs.refs f := h.cached.held f

/-- Another number of references to an open file -/
theorem setRefs (h : fs.Sound due) (hf : f ∈ fs.vnodes) (hm : 0 < m) : (fs.setRefs f m).Sound due ∧
    (fs.setRefs f m).catalog = { fs.catalog with refs := Function.update fs.refs f m } := by
  have ha : fs.view.Alike fs.IsInode (fs.setRefs f m).view := alike_refl _ _
  refine h.of_alike ha (fun _ hg => isInode_of_mem hg) (fun _ hg => .inl hg) h.working h.memory (fun _ _ => rfl) ?_
  refine ⟨h.cached.nodup, fun g => ?_, h.cached.clean, h.cached.magic, h.cached.nblocks, h.cached.map⟩
  show g ∈ fs.vnodes ↔ 0 < Function.update fs.refs f m g
  by_cases hgf : g = f
  · rw [hgf, Function.update_self]
    exact iff_of_true hf hm
  · rw [Function.update_of_ne hgf]
    exact h.cached.held g

theorem wp_incref (h : fs.Sound due) (hf : 0 < fs.refs f) : wp (incref f)
    (fun _ fs' => fs'.Sound due ∧
      fs'.catalog = { fs.catalog with refs := Function.update fs.refs f (fs.refs f + 1) }) E fs :=
  h.setRefs (h.mem_iff.mpr hf) (Nat.succ_pos _)

/-- The inodes in memory are in blocks that are used. -/
theorem used (h : fs.Sound due) (hf : fs.IsInode f) : f < fs.vol.nblocks ∧ fs.vol.freemap f = true :=
  ⟨h.shape.lt hf, h.shape.used hf⟩

theorem refs_of_not_mem (h : fs.Sound due) (hf : f ∉ fs.vnodes) : fs.refs f = 0 := by
  by_contra hne
  exact hf (h.mem_iff.mpr (Nat.pos_of_ne_zero hne))

theorem addVnode (h : fs.Sound due) (hI : fs.IsInode ino) (hno : ino ∉ fs.vnodes) :
    (fs.addVnode ino (inodeOf (fs.vol.disk ino))).Sound due ∧
      (fs.addVnode ino (inodeOf (fs.vol.disk ino))).catalog =
        { fs.catalog with refs := Function.update fs.refs ino 1 } := by
  have hvnode (g : Nat) : (fs.addVnode ino (inodeOf (fs.vol.disk ino))).view.vnode g = fs.view.vnode g := by
    by_cases hg : g = ino
    · subst hg
      rw [view_vnode_of_not_mem hno, view_vnode (by simp [SfsFs.addVnode, SfsFs.setRefs, SfsFs.setVnode, setVol])]
      exact Function.update_self ..
    · have hother : (fs.addVnode ino (inodeOf (fs.vol.disk ino))).vol.vnode g = fs.vol.vnode g :=
        Function.update_of_ne hg ..
      have hmem : g ∈ (fs.addVnode ino (inodeOf (fs.vol.disk ino))).vnodes ↔ g ∈ fs.vnodes := by
        simp [SfsFs.addVnode, SfsFs.setRefs, SfsFs.setVnode, setVol, hg]
      by_cases hin : g ∈ fs.vnodes
      · rw [view_vnode (hmem.mpr hin), view_vnode hin, hother]
      · rw [view_vnode_of_not_mem (mt hmem.mp hin), view_vnode_of_not_mem hin]
        rfl
  have hvnodes : (fs.addVnode ino (inodeOf (fs.vol.disk ino))).vnodes = fs.vnodes ++ [ino] := rfl
  refine h.of_alike ⟨rfl, rfl, rfl, fun g _ => by rw [hvnode], fun g _ => by rw [hvnode], fun _ _ _ _ => rfl⟩
    (fun g hg => ?_) (fun g hg => .inl ?_) h.working h.memory (fun g _ => by rw [hvnode]) ?_
  · rw [hvnodes, List.mem_append, List.mem_singleton] at hg
    rcases hg with hg | rfl
    · exact isInode_of_mem hg
    · exact hI
  · rw [hvnodes]
    exact List.mem_append_left _ hg
  · refine ⟨?_, fun g => ?_, fun g hg hdirty => ?_, h.cached.magic, h.cached.nblocks, h.cached.map⟩
    · rw [hvnodes]
      exact List.nodup_append.mpr ⟨h.cached.nodup, List.nodup_cons.mpr ⟨List.not_mem_nil, List.nodup_nil⟩, fun a ha b hb he =>
        hno (List.mem_singleton.mp hb ▸ he ▸ ha)⟩
    · rw [hvnodes, List.mem_append, List.mem_singleton]
      show _ ↔ 0 < Function.update fs.refs ino 1 g
      by_cases hg : g = ino
      · rw [hg, Function.update_self]
        exact iff_of_true (.inr rfl) Nat.one_pos
      · rw [Function.update_of_ne hg, ← h.cached.held g]
        simp [hg]
    · by_cases hgi : g = ino
      · subst hgi
        exact Function.update_self ..
      · have hother : (fs.addVnode ino (inodeOf (fs.vol.disk ino))).vol.vnode g = fs.vol.vnode g :=
          Function.update_of_ne hgi ..
        rw [hother] at hdirty ⊢
        rw [hvnodes, List.mem_append, List.mem_singleton, or_iff_left hgi] at hg
        exact h.cached.clean g hg hdirty

/-- An inode is found in the table or on the disk, and a reference to it is handed out. -/
theorem wp_loadvnode (h : fs.Sound due) (hI : fs.IsInode ino) : wp (loadvnode ino .inval)
    (fun _ fs' => fs'.Sound due ∧
      fs'.catalog = { fs.catalog with refs := Function.update fs.refs ino (fs.refs ino + 1) }) E fs := by
  have hall : ∀ b ∈ fs.searched ino, b < fs.vol.nblocks ∧ fs.vol.freemap b = true := fun b hb =>
    h.used (isInode_of_mem (mem_searched hb))
  simp only [loadvnode, wp_bind, wp_state]
  rw [wp_forEach_checkBused hall, wp_ite]
  split
  case isTrue hmem =>
    simp only [wp_bind, wp_check, true_and]
    exact h.wp_incref (h.mem_iff.mp hmem)
  case isFalse hno =>
    have htype := h.shape.type_valid hI
    rw [view_vnode_of_not_mem hno] at htype
    have hloaded : loaded (fs.vol.disk ino) .inval = inodeOf (fs.vol.disk ino) := if_pos rfl
    have hworking : ∀ i, fs.ask.vol.ioErrors i = none := h.working
    have hmemory₁ : ∀ i, fs.ask.countIo.memory i = true := h.memory
    have hmemory₂ : ∀ i, fs.ask.countIo.ask.memory i = true := h.memory
    rw [wp_bind, wp_allocate h.memory, wp_bind, wp_checkBused]
    refine ⟨h.used hI, ?_⟩
    rw [wp_bind, wp_rblock hworking, wp_bind, wp_check]
    refine ⟨.inl rfl, ?_⟩
    rw [wp_bind, wp_check, show loaded (fs.ask.vol.disk ino) .inval = _ from hloaded]
    refine ⟨htype, ?_⟩
    rw [wp_bind, wp_allocate hmemory₁, wp_bind, wp_allocate hmemory₂, wp_update]
    obtain ⟨hsound, hcat⟩ := h.requests
    have hI' : fs.ask.countIo.ask.ask.IsInode ino :=
      (isInode_congr (congrArg Catalog.slots hcat) rfl).mpr hI
    have hadd := hsound.addVnode hI' hno
    rw [hcat] at hadd
    rw [h.refs_of_not_mem hno]
    exact hadd

/-- A free block is marked and cleared. -/
def taken (d : Nat) (v : Volume) : Volume :=
  { v with
    disk := Function.update v.disk d zeros
    ios := v.ios + 1
    freemap := Function.update v.freemap d true
    freemapDirty := true }

private theorem setFile_taken : v.setFile f (((v.file f idle).mark k true).countIo.setBlock k zeros) = taken k v := by
  simp [taken, Volume.setFile, Volume.setVnode, Volume.file, SfsSt.mark, SfsSt.countIo, SfsSt.setBlock]

/-- The inode of a new file -/
def newFile : SfsVnode := { SfsVnode.blank with type := .file, dirty := true }

private theorem loaded_zeros : loaded zeros .file = newFile := by
  rw [loaded, inodeOf_zeros]
  rfl

theorem addFresh (h : fs.Sound due) (hfree : fs.vol.freemap k = false) (hlt : k < fs.vol.nblocks)
    (hdue : due k = 0) : ¬ fs.IsInode k ∧ ((fs.setVol (taken k fs.vol)).addVnode k newFile).Sound due ∧
      ((fs.setVol (taken k fs.vol)).addVnode k newFile).catalog =
        { fs.catalog with refs := Function.update fs.refs k 1 } := by
  have hnew : ¬ fs.IsInode k := fun hk => by simpa [hfree] using (h.used hk).2
  have hno : k ∉ fs.vnodes := fun hk => hnew (isInode_of_mem hk)
  have hne (g : Nat) (hg : fs.IsInode g) : g ≠ k := fun he => hnew (he ▸ hg)
  generalize hfs : (fs.setVol (taken k fs.vol)).addVnode k newFile = fs'
  have hvnodes : fs'.vnodes = fs.vnodes ++ [k] := by rw [← hfs]; rfl
  have hrefs : fs'.refs = Function.update fs.refs k 1 := by rw [← hfs]; rfl
  have hdisk (b : Nat) (hb : b ≠ k) : fs'.vol.disk b = fs.vol.disk b := by
    rw [← hfs]
    exact Function.update_of_ne hb ..
  have hvol : fs'.vol.vnode = Function.update fs.vol.vnode k newFile := by rw [← hfs]; rfl
  have hmap : fs'.vol.freemap = Function.update fs.vol.freemap k true := by rw [← hfs]; rfl
  have hn : fs'.vol.nblocks = fs.vol.nblocks ∧ fs'.vol.nbits = fs.vol.nbits ∧ fs'.vol.ioErrors = fs.vol.ioErrors ∧
      fs'.vol.freemapDirty = true := by
    rw [← hfs]
    exact ⟨rfl, rfl, rfl, rfl⟩
  have hmemory : ∀ i, fs'.memory i = true := by
    rw [← hfs]
    exact h.memory
  clear hfs
  have hk : k ∈ fs'.vnodes := by simp [hvnodes]
  have hself : fs'.view.vnode k = newFile := by
    rw [view_vnode hk, hvol, Function.update_self]
  have hmem (g : Nat) (hg : g ≠ k) : g ∈ fs'.vnodes ↔ g ∈ fs.vnodes := by simp [hvnodes, hg]
  have hvnode (g : Nat) (hg : fs.IsInode g) : fs'.view.vnode g = fs.view.vnode g := by
    have hgk := hne g hg
    by_cases hin : g ∈ fs.vnodes
    · rw [view_vnode ((hmem g hgk).mpr hin), view_vnode hin, hvol, Function.update_of_ne hgk]
    · rw [view_vnode_of_not_mem (mt (hmem g hgk).mp hin), view_vnode_of_not_mem hin, hdisk g hgk]
  have hfree' : fs.view.freemap k = false := hfree
  have hsame (g : Nat) (hg : fs.IsInode g) :
      fs'.view.ref g = fs.view.ref g ∧ fs'.view.content g = fs.view.content g := by
    apply Volume.same_file (by rw [hvnode g hg])
    intro r h0
    apply hdisk
    intro he
    have ho : fs.view.Owns fs.IsInode k (.file g r) := ⟨hg, he ▸ h0, he⟩
    exact h.shape.layout.free hfree' ho
  have hinode : (fs'.view.vnode k).inode = SfsVnode.blank.inode := by rw [hself]; rfl
  have hslots : fs'.slots = fs.slots :=
    Volume.slots_congr (hsame rootIno h.isRoot).2 (by rw [hvnode rootIno h.isRoot])
  have hnames (g : Nat) : fs'.names g = fs.names g := by rw [names, names, hslots]
  have hI (g : Nat) : fs'.IsInode g ↔ fs.IsInode g ∨ g = k := by
    by_cases hg : g = k
    · subst hg
      exact iff_of_true (isInode_of_mem hk) (.inr rfl)
    · simp only [IsInode, hnames, hmem g hg, hg, or_false]
  have hcontent : fs'.view.content k = fun _ => 0 := by
    funext x
    rw [Volume.content, SfsSt.content, if_pos]
    exact Volume.ref_blank (r := some (x / blockSize)) hinode
  have hblank : fs.names k = 0 := by
    by_contra hpos
    exact hnew (.inr (.inr (Nat.pos_of_ne_zero hpos)))
  have hroot := hvnode rootIno h.isRoot
  have hshape : fs'.view.Shape fs'.IsInode := by
    refine ⟨?_, .inl rfl, ?_, fun g hg => ?_, fun g hg hgr => ?_⟩
    · have hgrown : fs'.view.Layout fun g => fs.IsInode g ∨ g = k :=
        h.shape.layout.grow hfree' hlt hn.1 hn.2.1 hmap (fun g hg => (hsame g hg).1) fun r => Volume.ref_blank hinode
      exact hgrown.congr rfl rfl rfl (fun _ _ => rfl) hI
    · exact h.shape.root.of_content (hsame rootIno h.isRoot).2 (by rw [hroot]) (by rw [hroot])
    · rcases (hI g).mp hg with hg' | rfl
      · exact (h.shape.tidy g hg').of_same (by rw [hvnode g hg']) (hsame g hg').2
      · refine ⟨?_, fun x _ => by rw [hcontent], fun i _ => ?_⟩
        · rw [hinode]
          exact Nat.zero_le _
        · rw [hinode]
          rfl
    · rcases (hI g).mp hg with hg' | rfl
      · rw [hvnode g hg']
        exact h.shape.files g hg' hgr
      · rw [hself]
        rfl
  refine ⟨hnew, ⟨fun i => by rw [hn.2.2.1]; exact h.working i, hmemory, hshape, fun g hg => ?_, ?_⟩, ?_⟩
  · rw [hnames]
    rcases (hI g).mp hg with hg' | rfl
    · rw [hvnode g hg']
      exact h.links g hg'
    · have hgr : ¬ g = rootIno := fun he => hnew (.inl he)
      rw [hself, hblank, hdue, if_neg hgr]
      rfl
  · have h0 : sbLocation ≠ k := by
      intro he
      have hzero : fs.view.freemap 0 = true := h.shape.layout.used Volume.owns_super
      rw [show (0 : Nat) = k from he, hfree'] at hzero
      cases hzero
    refine ⟨?_, fun g => ?_, fun g hg hdirty => ?_, ?_, ?_, fun hdirty => ?_⟩
    · rw [hvnodes]
      exact List.nodup_append.mpr ⟨h.cached.nodup, List.nodup_cons.mpr ⟨List.not_mem_nil, List.nodup_nil⟩,
        fun a ha b hb he => hno (List.mem_singleton.mp hb ▸ he ▸ ha)⟩
    · rw [hrefs]
      by_cases hg : g = k
      · rw [hg, Function.update_self]
        exact iff_of_true hk Nat.one_pos
      · rw [Function.update_of_ne hg, hmem g hg]
        exact h.cached.held g
    · by_cases hgk : g = k
      · rw [hgk, hvol, Function.update_self] at hdirty
        cases hdirty
      · have hg' := (hmem g hgk).mp hg
        rw [hvol, Function.update_of_ne hgk] at hdirty ⊢
        rw [hdisk g hgk]
        exact h.cached.clean g hg' hdirty
    · rw [hdisk _ h0]
      exact h.cached.magic
    · rw [hdisk _ h0, hn.1]
      exact h.cached.nblocks
    · rw [hn.2.2.2] at hdirty
      cases hdirty
  · have hdata : fs'.data = fs.data := by
      funext g
      by_cases hgk : g = k
      · subst hgk
        have hsize : (fs'.view.vnode g).inode.size = 0 := by rw [hinode]; rfl
        have hold : fs.data g = [] := if_neg fun hc => hnew hc.2
        rw [hold, data, Volume.text, hsize]
        exact ite_self _
      · simp only [data, hI, hgk, or_false]
        split
        case isTrue hg => rw [Volume.text, Volume.text, (hsame g hg.2).2, hvnode g hg.2]
        case isFalse => rfl
    rw [catalog, catalog, hslots, hdata, hrefs]

/-- A new file is made in a block that was free, or there is no room for it. -/
theorem wp_makeobj (h : fs.Sound due) (hr : rootIno ∈ fs.vnodes) (hdue : ∀ g, ¬ fs.IsInode g → due g = 0) :
    wp (makeobj rootIno .file)
      (fun k fs' => ¬ fs.IsInode k ∧ fs'.Sound due ∧
        fs'.catalog = { fs.catalog with refs := Function.update fs.refs k 1 })
      (fun e fs' => e = .enospc ∧ fs'.Sound due ∧ fs'.catalog = fs.catalog) fs := by
  have hreadable := h.readable hr
  rw [makeobj, wp_bind, wp_onFile]
  apply wp_mono (hreadable.consistent.wp_balloc_working h.working)
  · intro k u hu
    obtain ⟨hfree, hlt, rfl⟩ := hu
    have hfree' : fs.vol.freemap k = false := hfree
    have hnew : ¬ fs.IsInode k := fun hk => by simpa [hfree'] using (h.used hk).2
    obtain ⟨_, hsound, hcat⟩ := h.addFresh hfree' hlt (hdue k hnew)
    have hno : ¬ k ∈ (fs.setVol (taken k fs.vol)).vnodes := fun hk => hnew (isInode_of_mem hk)
    have hmarked (b : Nat) (hb : b = k ∨ b ∈ fs.vnodes) : b < (fs.setVol (taken k fs.vol)).vol.nblocks ∧
        (fs.setVol (taken k fs.vol)).vol.freemap b = true := by
      by_cases hbk : b = k
      · rw [hbk]
        exact ⟨hlt, Function.update_self ..⟩
      · obtain ⟨hb₁, hb₂⟩ := h.used (isInode_of_mem (hb.resolve_left hbk))
        exact ⟨hb₁, (Function.update_of_ne hbk ..).trans hb₂⟩
    have hall : ∀ b ∈ (fs.setVol (taken k fs.vol)).searched k, b < (fs.setVol (taken k fs.vol)).vol.nblocks ∧
        (fs.setVol (taken k fs.vol)).vol.freemap b = true := fun b hb => hmarked b (.inr (mem_searched hb))
    have hdisk : (fs.setVol (taken k fs.vol)).vol.disk k = zeros := Function.update_self ..
    have hworking : ∀ i, (fs.setVol (taken k fs.vol)).ask.vol.ioErrors i = none := h.working
    have hmemory : ∀ i, (fs.setVol (taken k fs.vol)).memory i = true := h.memory
    have hmemory₁ : ∀ i, (fs.setVol (taken k fs.vol)).ask.countIo.memory i = true := h.memory
    have hmemory₂ : ∀ i, (fs.setVol (taken k fs.vol)).ask.countIo.ask.memory i = true := h.memory
    have hinval : (inodeOf zeros).type = .inval := by rw [inodeOf_zeros]; rfl
    rw [setFile_taken, wp_bind, loadvnode, wp_bind, wp_state, wp_bind, wp_forEach_checkBused hall, wp_ite, if_neg hno,
      wp_bind, wp_allocate hmemory, wp_bind, wp_checkBused]
    refine ⟨hmarked k (.inl rfl), ?_⟩
    rw [wp_bind, wp_rblock hworking, show (fs.setVol (taken k fs.vol)).ask.vol.disk k = _ from hdisk, wp_bind, wp_check]
    refine ⟨.inr hinval, ?_⟩
    rw [wp_bind, wp_check, loaded_zeros]
    refine ⟨by decide, ?_⟩
    rw [wp_bind, wp_allocate hmemory₁, wp_bind, wp_allocate hmemory₂, wp_update, wp_pure]
    obtain ⟨hsound', hcat'⟩ := hsound.requests
    exact ⟨hnew, hsound', hcat'.trans hcat⟩
  · intro e u hu
    obtain ⟨he, rfl⟩ := hu
    have hsame : fs.vol.setFile rootIno (fs.vol.file rootIno idle) = fs.vol.countIos fs.vol.ios :=
      @Volume.setFile_read fs.vol idle rootIno fs.vol.ios idle
    rw [hsame]
    exact ⟨he, h.countIos _⟩

end Sound

end SfsFs

end CseOs.Kernel.Sfs
