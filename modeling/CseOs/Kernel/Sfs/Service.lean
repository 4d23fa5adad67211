import CseOs.Kernel.Sfs.Files
import CseOs.Kernel.Sfs.Mounting

/-!
# Calls on a volume

Each call takes a volume that is in order to one that is in order, and does what is promised for it in terms
of files.
-/

namespace CseOs.Kernel.Sfs

open Framework Prog

namespace SfsFs

variable {fs fs' : SfsFs} {c : Catalog} {f g ino k n m : Nat} {name n₁ n₂ path : List UInt8} {w : Transfer}
  {E : Errno → SfsFs → Prop}

/-- The slots do not matter. -/
def Catalog.files (c : Catalog) : Files := ⟨fun name => SlotTable.lookup name c.slots, c.data, c.refs⟩

def files (fs : SfsFs) : Files := fs.catalog.files

namespace Catalog

private theorem named_iff (h : SlotTable.Distinct c.slots) : c.files.Named f ↔ 0 < SlotTable.uses f c.slots := by
  rw [SlotTable.uses_pos]
  constructor
  · rintro ⟨name, hname⟩
    obtain ⟨k, hk⟩ := h.lookup_eq_some.mp hname
    exact ⟨k, name, hk⟩
  · rintro ⟨k, name, hk⟩
    exact ⟨name, h.lookup_eq_some.mpr ⟨k, hk⟩⟩

private theorem files_put (h : SlotTable.Distinct c.slots) (hv : SlotTable.Vacant c.slots k)
    (hnone : SlotTable.lookup name c.slots = none) :
    (c.put k (some (name, f))).files = c.files.addName f name := by
  have hnames : (c.put k (some (name, f))).files.names = (c.files.addName f name).names := by
    funext name'
    show SlotTable.lookup name' (SlotTable.put k (some (name, f)) c.slots) =
      Function.update (fun name => SlotTable.lookup name c.slots) name (some f) name'
    rw [h.lookup_put hv hnone, Function.update_apply]
  rw [files, Files.addName, Files.mk.injEq]
  exact ⟨hnames, rfl, rfl⟩

private theorem files_clear (h : SlotTable.Distinct c.slots) (hat : SlotTable.At c.slots k name f) :
    (c.put k none).files = c.files.dropName name := by
  have hnames : (c.put k none).files.names = (c.files.dropName name).names := by
    funext name'
    show SlotTable.lookup name' (SlotTable.put k none c.slots) =
      Function.update (fun name => SlotTable.lookup name c.slots) name none name'
    rw [h.lookup_clear hat, Function.update_apply]
  rw [files, Files.dropName, Files.mk.injEq]
  exact ⟨hnames, rfl, rfl⟩

private theorem files_reap (h : SlotTable.Distinct c.slots) : (c.reap f).files = c.files.reap f := by
  have hiff : c.refs f = 0 ∧ SlotTable.uses f c.slots = 0 ↔ c.files.refs f = 0 ∧ ¬ c.files.Named f := by
    rw [named_iff h, Nat.not_lt, Nat.le_zero]
    rfl
  by_cases hgone : c.refs f = 0 ∧ SlotTable.uses f c.slots = 0
  · rw [reap, if_pos hgone, Files.reap, if_pos (hiff.mp hgone)]
    rfl
  · rw [reap, if_neg hgone, Files.reap, if_neg (mt hiff.mpr hgone)]

private theorem files_release (h : SlotTable.Distinct c.slots) (hf : 0 < c.refs f) :
    (c.release f).files = c.files.release f := by
  have hlast : c.refs f = 1 ↔ Function.update c.refs f (c.refs f - 1) f = 0 := by
    rw [Function.update_self]
    omega
  have hreap : c.release f = reap f { c with refs := Function.update c.refs f (c.refs f - 1) } := by
    simp only [release, reap, hlast]
  have hslots : SlotTable.Distinct ({ c with refs := Function.update c.refs f (c.refs f - 1) } : Catalog).slots := h
  rw [hreap, files_reap hslots]
  rfl

end Catalog

namespace Sound

private theorem data_file (hf : f ∈ fs.vnodes) (hne : f ≠ rootIno) : fs.data f = fs.vol.text f := by
  rw [data, if_pos ⟨hne, isInode_of_mem hf⟩, Volume.text, Volume.text, view_content hf, view_vnode hf]

private theorem type_file (h : fs.Sound 0) (hf : f ∈ fs.vnodes) (hne : f ≠ rootIno) : (fs.vol.vnode f).type = .file := by
  have htype := h.shape.files f (isInode_of_mem hf) hne
  rw [view_vnode hf] at htype
  exact htype

private theorem type_root (h : fs.Sound 0) (hr : rootIno ∈ fs.vnodes) : (fs.vol.vnode rootIno).type = .dir :=
  (h.directory hr).type

/-- A request to the directory itself is refused. -/
theorem wp_root {α : Type} {Q : α → SfsFs → Prop} {p : SfsFs → Prog SfsFs Errno α} (h : fs.Sound 0)
    (hr : rootIno ∈ fs.vnodes) : wp (do
      let fs ← state
      raiseIf ((fs.vol.vnode rootIno).type = .dir) .eisdir
      p fs) Q (fun e fs' => e = .eisdir ∧ fs' = fs) fs := by
  rw [wp_bind, wp_state, wp_bind, wp_raiseIf, if_pos (h.type_root hr)]
  exact ⟨rfl, rfl⟩

private theorem reads_text {s t : SfsSt} (h : s.ReadsExactly t) (hcontent : s.content = fs.vol.content f)
    (hsize : s.inode.size = (fs.vol.vnode f).inode.size) : Files.Reads (fs.vol.text f) s.req t.req := by
  have hlen : (fs.vol.text f).length = s.inode.size := by
    rw [Volume.text, List.length_map, List.length_range, hsize]
  have hn : Files.within (fs.vol.text f).length s.req = s.readable := by
    rw [Files.within, hlen, SfsSt.readable]
  refine ⟨?_, ?_, fun i hi => ?_, ?_⟩
  · rw [hn]
    exact h.offset
  · rw [hn]
    exact h.resid
  · rw [hn] at hi
    have hin : s.req.uio.offset + i < (fs.vol.vnode f).inode.size := by
      rw [SfsSt.readable, hsize] at hi
      omega
    rw [Volume.text, List.getElem?_map, List.getElem?_range hin, h.bytes i hi, hcontent]
    rfl
  · rw [hn]
    exact h.outside

private theorem wp_read (h : fs.Sound 0) (hf : f ∈ fs.vnodes) (hne : f ≠ rootIno) (hroom : w.Room) (hfaults : w.NoFaults)
    (hrw : w.uio.rw = .read) (hend : w.uio.offset + w.uio.resid < 2 ^ 31) : wp (read f w)
      (fun w' fs' => Files.Reads (fs.data f) w w' ∧ fs'.Sound 0 ∧ fs'.catalog = fs.catalog) E fs := by
  have hfile : ¬ (fs.vol.vnode f).type = .dir := by
    rw [h.type_file hf hne]
    decide
  have hreadable := h.readable hf
  have hcan : (fs.vol.file f w).CanRead :=
    ⟨Volume.consistent_file hreadable.consistent, h.working, hroom, hfaults, hrw⟩
  have hread : wp SfsSt.sfsRead (fun _ t => (fs.vol.file f w).ReadsExactly t) (fun _ _ => False) (fs.vol.file f w) := by
    by_cases hpast : (fs.vol.file f w).inode.size ≤ (fs.vol.file f w).req.uio.offset
    · exact hcan.at_end (SfsSt.size_lt hreadable.size) hpast
    · have hlt := Nat.not_le.mp hpast
      exact hcan.clamped (SfsSt.size_lt hreadable.size) hlt hend (SfsSt.endsInside_of_size hreadable.size hlt)
  rw [read, wp_bind, wp_state, wp_bind, wp_raiseIf, if_neg hfile, wp_onVol, Volume.wp_fileIo]
  apply wp_mono hread
  · intro _ t ht
    refine ⟨?_, ?_⟩
    · rw [data_file hf hne]
      exact reads_text ht rfl rfl
    · obtain ⟨k, hk⟩ := ht.file
      rw [hk, Volume.setFile_read]
      exact h.countIos k
  · exact fun _ _ hno => hno.elim

theorem text_blit {v : Volume} (hblank : ∀ x, (v.vnode f).inode.size ≤ x → v.content f x = 0) :
    (List.range (max (v.vnode f).inode.size (w.uio.offset + n))).map
        (ByteStore.blit (v.content f) w.uio.offset n w.mem w.uio.iovBase) =
      Files.overwrite (v.text f) w.uio.offset n w.mem w.uio.iovBase := by
  have hlen : (v.text f).length = (v.vnode f).inode.size := by
    rw [Volume.text, List.length_map, List.length_range]
  have hold (i : Nat) : (v.text f).getD i 0 = v.content f i := by
    rw [List.getD_eq_getElem?_getD, Volume.text, List.getElem?_map]
    by_cases hi : i < (v.vnode f).inode.size
    · rw [List.getElem?_range hi]
      rfl
    · rw [List.getElem?_eq_none (by rw [List.length_range]; omega), hblank i (by omega)]
      rfl
  rw [Files.overwrite, hlen]
  apply List.map_congr_left
  intro i _
  rw [hold]
  rfl

theorem wp_write (h : fs.Sound 0) (hf : f ∈ fs.vnodes) (hne : f ≠ rootIno) (hroom : w.Room)
    (hrw : w.uio.rw = .write) (hoff : w.uio.offset ≤ maxFileSize) : wp (write f w)
      (fun w' fs' => (w'.uio = w.uio.advance w.uio.resid ∧ w'.mem = w.mem) ∧ fs'.Sound 0 ∧
        fs'.files = fs.files.written f w w.uio.resid)
      (fun e fs' => ∃ n, (Files.WriteFails w n e ∧ (e = .enospc → fs'.vol.Full)) ∧ fs'.Sound 0 ∧
        fs'.files = fs.files.written f w n) fs := by
  have hfile : ¬ (fs.vol.vnode f).type = .dir := by
    rw [h.type_file hf hne]
    decide
  have hreadable := h.readable hf
  have htidy := h.shape.tidy f (isInode_of_mem hf)
  have hblank : ∀ x, (fs.vol.vnode f).inode.size ≤ x → fs.vol.content f x = 0 := by
    rw [← view_content hf, ← view_vnode hf]
    exact htidy.blank
  have hstored (n : Nat) (v' : Volume) (hv : fs.vol.Stores f w n v') :
      (fs.setVol v').Sound 0 ∧ (fs.setVol v').files = fs.files.written f w n := by
    have hsize : max (fs.vol.vnode f).inode.size (w.uio.offset + n) ≤ maxFileSize :=
      Nat.max_le.mpr ⟨hreadable.size, hv.fits⟩
    obtain ⟨hsound, hcat⟩ := h.revise_file hf hne hv.revised hsize fun x hx => by
      rw [ByteStore.blit_of_outside (by omega)]
      exact hblank x (by omega)
    refine ⟨hsound, ?_⟩
    rw [files, hcat, text_blit hblank, ← data_file hf hne]
    rfl
  have hwrite := hreadable.wp_write hroom hrw hoff
  rw [Volume.wp_fileIo] at hwrite
  rw [write, wp_bind, wp_state, wp_bind, wp_raiseIf, if_neg hfile, wp_onVol, Volume.wp_fileIo, SfsSt.sfsWrite, wp_bind,
    wp_state, wp_bind, wp_check]
  refine ⟨hrw, ?_⟩
  apply wp_mono hwrite
  · exact fun _ u hu => ⟨hu.1, hstored _ _ hu.2⟩
  · intro e u hu
    obtain ⟨n, hbreaks, hv, hstops⟩ := hu
    refine ⟨n, ?_, hstored n _ hv⟩
    cases hstops with
    | space h => exact ⟨⟨hbreaks, .inl rfl⟩, fun _ => h⟩
    | size h => exact ⟨⟨hbreaks, .inr (.inl ⟨rfl, h⟩)⟩, fun he => by cases he⟩
    | memory h => exact ⟨⟨hbreaks, .inr (.inr ⟨rfl, h⟩)⟩, fun he => by cases he⟩

end Sound

theorem nameFails {v : Volume} {e : Errno} (h : Volume.LinkFails fs.slots name v e) :
    fs.files.NameFails name e := by
  rw [Volume.LinkFails] at h
  have hlookup : fs.files.names name = SlotTable.lookup name fs.slots := rfl
  rw [Files.NameFails, hlookup]
  split
  case isTrue htaken =>
    rw [if_pos htaken] at h
    exact h
  case isFalse hnew =>
    rw [if_neg hnew] at h
    split
    case isTrue hlong =>
      rw [if_pos hlong] at h
      exact h
    case isFalse hshort =>
      rw [if_neg hshort] at h
      cases h with
      | space h => exact .inl rfl
      | size h => exact .inr rfl

/-- A call, with the directory wherever one is asked for -/
def run : Call → Prog SfsFs Errno Reply
  | .getroot => do
    getroot
    return .vnode rootIno
  | .lookup path => do
    let file ← lookup rootIno path
    return .vnode file
  | .lookparent path buflen => do
    let parent ← lookparent rootIno path buflen
    return .parent parent.1 parent.2
  | .creat name excl => do
    let file ← creat rootIno name excl
    return .vnode file
  | .link name file => do
    link rootIno name file
    return .done
  | .remove name => do
    remove rootIno name
    return .done
  | .rename n1 n2 => do
    rename rootIno n1 n2
    return .done
  | .read file w => do
    let w' ← read file w
    return .moved w'
  | .write file w => do
    let w' ← write file w
    return .moved w'
  | .truncate file => do
    truncate file 0
    return .done
  | .stat file => do
    let st ← stat file
    return .stat st
  | .fsync file => do
    syncInode file
    return .done
  | .incref file => do
    incref file
    return .done
  | .decref file => do
    decref file
    return .done
  | .sync => do
    sync
    return .done
  | .remount => do
    remount
    return .done
  | .reboot => do
    reboot
    return .done

/-- What a call has kept, if it did what was promised -/
structure Served (fs : SfsFs) (call : Call) (r : Except Errno Reply) (fs' : SfsFs) : Prop where
  sound : fs'.Sound 0
  step : fs.files.Step call r fs'.files

/-- The call does what is promised for it. -/
def Serves (fs : SfsFs) (call : Call) : Prop :=
  wp (run call) (fun r fs' => fs.Served call (.ok r) fs') (fun e fs' => fs.Served call (.error e) fs') fs

namespace Sound

theorem files_of (hcat : fs'.catalog = c) : fs'.files = c.files := congrArg Catalog.files hcat

theorem files_congr (hcat : fs'.catalog = fs.catalog) : fs'.files = fs.files := files_of hcat

private theorem files_hold (hcat : fs'.catalog = fs.catalog.hold f) : fs'.files = fs.files.hold f := files_of hcat

theorem named (h : fs.Sound 0) : fs.files.Named f ↔ 0 < fs.names f := Catalog.named_iff h.distinct

theorem mem (h : fs.Sound 0) (hf : 0 < fs.files.refs f) : f ∈ fs.vnodes := h.mem_iff.mpr hf

private theorem serves_getroot (h : fs.Sound 0) : fs.Serves .getroot := by
  rw [Serves, run, wp_bind, getroot, wp_orDiverge]
  apply wp_mono_post (h.wp_loadvnode h.isRoot)
  intro _ fs' h'
  refine ⟨h'.1, ?_⟩
  rw [files_hold (f := rootIno) h'.2]
  exact .getroot

private theorem serves_lookup (h : fs.Sound 0) (hr : 0 < fs.files.refs rootIno) : fs.Serves (.lookup path) := by
  have hmem := h.mem hr
  have hdir : ¬ (fs.vol.vnode rootIno).type ≠ .dir := not_not.mpr (h.type_root hmem)
  rw [Serves, run, wp_bind, lookup, wp_bind, wp_state, wp_bind, wp_raiseIf, if_neg hdir, wp_bind]
  apply wp_mono (h.wp_lookonce hmem)
  · intro p fs' h'
    obtain ⟨hat, hsound, hcat⟩ := h'
    refine ⟨hsound, ?_⟩
    rw [files_hold hcat]
    exact .lookup (h.distinct.lookup_eq_some.mpr ⟨p.2, hat⟩)
  · intro e fs' h'
    obtain ⟨⟨rfl, hnone⟩, hsound, hcat⟩ := h'
    refine ⟨hsound, ?_⟩
    rw [files_congr hcat]
    exact .lookup_none hnone

private theorem serves_lookparent (h : fs.Sound 0) (hr : 0 < fs.files.refs rootIno) :
    fs.Serves (.lookparent path n) := by
  have hmem := h.mem hr
  have hdir : ¬ (fs.vol.vnode rootIno).type ≠ .dir := not_not.mpr (h.type_root hmem)
  rw [Serves, run, wp_bind, lookparent, wp_bind, wp_state, wp_bind, wp_raiseIf, if_neg hdir, wp_bind, wp_raiseIf]
  split
  case isTrue hlong => exact ⟨h, .lookparent_long (Nat.le_of_lt_succ hlong)⟩
  case isFalse hshort =>
    rw [wp_bind]
    apply wp_mono_post (h.wp_incref hr)
    intro _ fs' h'
    refine ⟨h'.1, ?_⟩
    rw [files_hold (f := rootIno) h'.2]
    exact .lookparent (Nat.not_lt.mp hshort)

private theorem serves_creat (h : fs.Sound 0) (hr : 0 < fs.files.refs rootIno) (hname : 0 ∉ name) {excl : Bool} :
    fs.Serves (.creat name excl) := by
  rw [Serves, run, wp_bind]
  apply wp_mono (h.wp_creat (h.mem hr) hname)
  · intro f fs' h'
    obtain ⟨hsound, ⟨rfl, hlookup, hcat⟩ | ⟨hnone, hlen, hnew, k, hv, hcat⟩⟩ := h'
    · refine ⟨hsound, ?_⟩
      rw [files_hold hcat]
      exact .creat_there hlookup
    · refine ⟨hsound, ?_⟩
      have hfiles : fs'.files = (fs.files.addName f name).hold f := by
        rw [files, hcat, files, ← Catalog.files_put h.distinct hv hnone]
        rfl
      rw [hfiles]
      refine .creat_new hnone hlen ⟨fun he => hnew (.inl he), h.refs_of_not_isInode hnew, fun hnamed => ?_,
        data_of_not_isInode hnew⟩
      exact hnew (.inr (.inr (h.named.mp hnamed)))
  · intro e fs' h'
    obtain ⟨herror, hsound, hcat⟩ := h'
    refine ⟨hsound, ?_⟩
    rw [files_congr hcat]
    cases hlookup : SlotTable.lookup name fs.slots with
    | none =>
      rw [hlookup] at herror
      refine .creat_fails hlookup ?_
      rcases herror with he | ⟨v, hfails⟩
      · exact .inl he
      · exact .inr (nameFails hfails)
    | some f =>
      rw [hlookup] at herror
      obtain ⟨rfl, rfl⟩ := herror
      exact .creat_taken hlookup

private theorem serves_link (h : fs.Sound 0) (hr : 0 < fs.files.refs rootIno) (hname : 0 ∉ name)
    (hf : 0 < fs.files.refs f) : fs.Serves (.link name f) := by
  rw [Serves, run, wp_bind]
  apply wp_mono (h.wp_link (h.mem hr) (h.mem hf) hname)
  · intro _ fs' h'
    obtain ⟨⟨hnone, hlen⟩, hsound, k, hv, hcat⟩ := h'
    refine ⟨hsound, ?_⟩
    rw [files_of hcat, Catalog.files_put h.distinct hv hnone]
    exact .link hnone hlen
  · intro e fs' h'
    obtain ⟨hfails, hsound, hcat⟩ := h'
    refine ⟨hsound, ?_⟩
    rw [files_congr hcat]
    exact .link_fails (nameFails hfails)

private theorem serves_remove (h : fs.Sound 0) (hr : 0 < fs.files.refs rootIno) : fs.Serves (.remove name) := by
  rw [Serves, run, wp_bind]
  apply wp_mono (h.wp_remove (h.mem hr))
  · intro _ fs' h'
    obtain ⟨hsound, f, k, hat, hcat⟩ := h'
    refine ⟨hsound, ?_⟩
    have hclear : SlotTable.Distinct (fs.catalog.put k none).slots := h.distinct.clear (Nat.le_of_lt hat.lt)
    rw [files_of hcat, Catalog.files_reap hclear, Catalog.files_clear h.distinct hat]
    exact .remove (h.distinct.lookup_eq_some.mpr ⟨k, hat⟩)
  · intro e fs' h'
    obtain ⟨⟨rfl, hnone⟩, hsound, hcat⟩ := h'
    refine ⟨hsound, ?_⟩
    rw [files_congr hcat]
    exact .remove_none hnone

private theorem serves_rename (h : fs.Sound 0) (hr : 0 < fs.files.refs rootIno) (hname : 0 ∉ n₂)
    (hfile : fs.files.names n₁ ≠ some rootIno) : fs.Serves (.rename n₁ n₂) := by
  rw [Serves, run, wp_bind]
  apply wp_mono (h.wp_rename (h.mem hr) hname hfile)
  · intro _ fs' h'
    obtain ⟨⟨hnone, hlen⟩, hsound, f, k₁, k₂, hat, hv, hcat⟩ := h'
    refine ⟨hsound, ?_⟩
    have hne : k₁ ≠ k₂ := fun he => hv.2 n₁ f (he ▸ hat)
    have hput : SlotTable.Distinct (fs.catalog.put k₂ (some (n₂, f))).slots := h.distinct.put hv hnone
    have hat' : SlotTable.At (fs.catalog.put k₂ (some (n₂, f))).slots k₁ n₁ f :=
      (SlotTable.at_put hv.1).mpr (.inr ⟨hne, hat⟩)
    rw [files_of hcat, Catalog.files_clear hput hat', Catalog.files_put h.distinct hv hnone]
    exact .rename (h.distinct.lookup_eq_some.mpr ⟨k₁, hat⟩) hnone hlen
  · intro e fs' h'
    obtain ⟨hfails, hsound, hcat⟩ := h'
    refine ⟨hsound, ?_⟩
    rw [files_congr hcat]
    cases hlookup : SlotTable.lookup n₁ fs.slots with
    | none =>
      rw [hlookup] at hfails
      have he : e = .enoent := hfails
      rw [he]
      exact .rename_none hlookup
    | some f =>
      rw [hlookup] at hfails
      obtain ⟨v, hfails⟩ := hfails
      exact .rename_fails hlookup (nameFails hfails)

private theorem serves_read (h : fs.Sound 0) (hf : 0 < fs.files.refs f) (hroom : w.Room) (hfaults : w.NoFaults)
    (hrw : w.uio.rw = .read) (hend : w.uio.offset + w.uio.resid < 2 ^ 31) : fs.Serves (.read f w) := by
  rw [Serves, run, wp_bind]
  by_cases hne : f = rootIno
  · subst hne
    apply wp_mono (h.wp_root (h.mem hf) (Q := fun _ _ => False))
    · exact fun _ _ hno => hno.elim
    · rintro e fs' ⟨rfl, rfl⟩
      exact ⟨h, .read_dir⟩
  · apply wp_mono_post (h.wp_read (h.mem hf) hne hroom hfaults hrw hend)
    intro w' fs' h'
    refine ⟨h'.2.1, ?_⟩
    rw [files_congr h'.2.2]
    exact .read hne h'.1

private theorem serves_write (h : fs.Sound 0) (hf : 0 < fs.files.refs f) (hroom : w.Room) (hrw : w.uio.rw = .write)
    (hoff : w.uio.offset ≤ maxFileSize) : fs.Serves (.write f w) := by
  rw [Serves, run, wp_bind]
  by_cases hne : f = rootIno
  · subst hne
    apply wp_mono (h.wp_root (h.mem hf) (Q := fun _ _ => False))
    · exact fun _ _ hno => hno.elim
    · rintro e fs' ⟨rfl, rfl⟩
      exact ⟨h, .write_dir⟩
  · apply wp_mono (h.wp_write (h.mem hf) hne hroom hrw hoff)
    · intro w' fs' h'
      refine ⟨h'.2.1, ?_⟩
      rw [h'.2.2]
      exact .write hne h'.1.1 h'.1.2
    · intro e fs' h'
      obtain ⟨n, hfails, hsound, hfiles⟩ := h'
      refine ⟨hsound, ?_⟩
      rw [hfiles]
      exact .write_fails hne hfails.1

private theorem serves_truncate (h : fs.Sound 0) (hf : 0 < fs.files.refs f) : fs.Serves (.truncate f) := by
  rw [Serves, run, wp_bind]
  by_cases hne : f = rootIno
  · subst hne
    apply wp_mono (h.wp_root (h.mem hf) (Q := fun _ _ => False))
    · exact fun _ _ hno => hno.elim
    · rintro e fs' ⟨rfl, rfl⟩
      exact ⟨h, .truncate_dir⟩
  · apply wp_mono_post (h.wp_truncate (h.mem hf) hne)
    intro _ fs' h'
    refine ⟨h'.1, ?_⟩
    rw [files_of h'.2.1]
    exact .truncate hne

private theorem serves_stat (h : fs.Sound 0) (hf : 0 < fs.files.refs f) : fs.Serves (.stat f) := by
  have hmem := h.mem hf
  have htype := h.shape.type_valid (isInode_of_mem hmem)
  rw [view_vnode hmem] at htype
  rw [Serves, run, wp_bind, stat, wp_bind, gettype, wp_bind, wp_state, wp_bind, wp_check]
  refine ⟨htype, ?_⟩
  rw [wp_pure, wp_bind, wp_state, wp_pure, wp_pure]
  refine ⟨h, ?_⟩
  by_cases hne : f = rootIno
  · subst hne
    have hdir := h.directory hmem
    rw [hdir.type, ← Nat.div_mul_cancel (Nat.dvd_of_mod_eq_zero hdir.size)]
    exact .stat_dir
  · have hsize : (fs.vol.vnode f).inode.size = (fs.files.data f).length := by
      show _ = (fs.data f).length
      rw [data_file hmem hne, Volume.text, List.length_map, List.length_range]
    rw [h.type_file hmem hne, hsize]
    exact .stat hne

private theorem serves_fsync (h : fs.Sound 0) (hf : 0 < fs.files.refs f) : fs.Serves (.fsync f) := by
  rw [Serves, run, wp_bind]
  apply wp_mono_post (h.wp_syncInode (h.mem hf) rfl)
  intro _ fs' h'
  refine ⟨h'.1, ?_⟩
  rw [files_congr h'.2.1]
  exact .fsync

private theorem serves_incref (h : fs.Sound 0) (hf : 0 < fs.files.refs f) : fs.Serves (.incref f) := by
  rw [Serves, run, wp_bind]
  apply wp_mono_post (h.wp_incref hf)
  intro _ fs' h'
  refine ⟨h'.1, ?_⟩
  rw [files_hold (f := f) h'.2]
  exact .incref

private theorem serves_decref (h : fs.Sound 0) (hf : 0 < fs.files.refs f) : fs.Serves (.decref f) := by
  rw [Serves, run, wp_bind]
  apply wp_mono_post (h.wp_decref hf rfl)
  intro _ fs' h'
  refine ⟨h'.1, ?_⟩
  rw [files_of h'.2, Catalog.files_release h.distinct hf]
  exact .decref

private theorem serves_sync (h : fs.Sound 0) : fs.Serves .sync := by
  rw [Serves, run, wp_bind]
  apply wp_mono_post h.wp_sync
  intro _ fs' h'
  refine ⟨h'.1.1, ?_⟩
  rw [files_congr h'.1.2]
  exact .sync

private theorem serves_remount (h : fs.Sound 0) : fs.Serves .remount := by
  rw [Serves, run, wp_bind, remount, wp_bind]
  apply wp_mono_post h.wp_sync
  intro _ fs₁ h₁
  obtain ⟨⟨hsound₁, hcat₁⟩, hv₁, hsynced⟩ := h₁
  have hfiles₁ := files_congr hcat₁
  rw [wp_bind, unmount, wp_bind, wp_state, wp_bind, wp_raiseIf]
  split
  case isTrue hbusy =>
    refine ⟨hsound₁, ?_⟩
    obtain ⟨f, hf⟩ := List.exists_mem_of_ne_nil _ hbusy
    rw [hfiles₁]
    rw [hv₁] at hf
    exact .remount_busy (h.mem_iff.mp hf)
  case isFalse hidle =>
    have hnone : fs₁.vnodes = [] := not_not.mp hidle
    have hmem (f : Nat) : f ∉ fs₁.vnodes := by
      rw [hnone]
      exact List.not_mem_nil
    rw [wp_check]
    refine ⟨hsynced.map, ?_⟩
    apply wp_mono_post (wp_domount hsound₁.working hsound₁.memory hsound₁.cached.magic)
    intro _ fs₂ hm
    obtain ⟨hsound₂, hcat₂⟩ := hm.sound hsound₁ hsynced fun f hf => absurd hf (hmem f)
    refine ⟨hsound₂, ?_⟩
    have hrefs : (fun _ => 0) = fs₁.refs := funext fun f => (hsound₁.refs_of_not_mem (hmem f)).symm
    have hsame : fs₂.catalog = fs₁.catalog := by
      rw [hcat₂, hrefs]
      rfl
    rw [files_congr hsame, hfiles₁]
    refine .remount fun f => ?_
    rw [← hfiles₁]
    exact hsound₁.refs_of_not_mem (hmem f)

theorem wp_unmountall (h : fs.Sound 0) : wp unmountall
    (fun _ fs' => (fs'.Sound 0 ∧ fs'.catalog = fs.catalog) ∧ fs'.vnodes = fs.vnodes ∧ fs'.Synced) E fs := by
  rw [unmountall, wp_ignoring, wp_bind, wp_orElse]
  apply wp_mono (h.wp_sync (E := fun _ _ => False))
  · intro _ fs₁ h₁
    rw [unmount, wp_bind, wp_state, wp_bind, wp_raiseIf]
    split
    case isTrue => exact h₁
    case isFalse =>
      rw [wp_check]
      exact ⟨h₁.2.2.map, h₁⟩
  · exact fun _ _ hno => hno.elim

private theorem serves_reboot (h : fs.Sound 0) (hnamed : ∀ f, 0 < fs.files.refs f → f = rootIno ∨ fs.files.Named f) :
    fs.Serves .reboot := by
  rw [Serves, run, wp_bind, reboot, wp_bind]
  apply wp_mono_post h.wp_unmountall
  intro _ fs₁ h₁
  obtain ⟨⟨hsound₁, hcat₁⟩, hv₁, hsynced⟩ := h₁
  apply wp_mono_post (wp_domount hsound₁.working hsound₁.memory hsound₁.cached.magic)
  intro _ fs₂ hm
  have hnames : fs₁.names = fs.names := by
    funext f
    rw [names, names, show fs₁.slots = fs.slots from congrArg Catalog.slots hcat₁]
  obtain ⟨hsound₂, hcat₂⟩ := hm.sound hsound₁ hsynced fun f hf => by
    rw [hv₁] at hf
    rw [hnames, ← h.named]
    exact hnamed f (h.mem_iff.mp hf)
  refine ⟨hsound₂, ?_⟩
  rw [files_of hcat₂, hcat₁]
  exact .reboot

/-- Every call that its callers may make does what is promised for it. -/
theorem serves (h : fs.Sound 0) {call : Call} (hc : fs.files.Allowed call) : fs.Serves call := by
  cases call with
  | getroot => exact h.serves_getroot
  | lookup path => exact h.serves_lookup hc
  | lookparent path buflen => exact h.serves_lookparent hc
  | creat name excl => exact h.serves_creat hc.1 hc.2
  | link name f => exact h.serves_link hc.1 hc.2.1 hc.2.2
  | remove name => exact h.serves_remove hc
  | rename n1 n2 => exact h.serves_rename hc.1 hc.2.1 hc.2.2
  | read f w => exact h.serves_read hc.1 hc.2.1 hc.2.2.1 hc.2.2.2.1 hc.2.2.2.2
  | write f w => exact h.serves_write hc.1 hc.2.1 hc.2.2.1 hc.2.2.2
  | truncate f => exact h.serves_truncate hc
  | stat f => exact h.serves_stat hc
  | fsync f => exact h.serves_fsync hc
  | incref f => exact h.serves_incref hc
  | decref f => exact h.serves_decref hc
  | sync => exact h.serves_sync
  | remount => exact h.serves_remount
  | reboot => exact h.serves_reboot hc

end Sound

end SfsFs

end CseOs.Kernel.Sfs
