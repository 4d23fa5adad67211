import CseOs.Kernel.Sfs.Reclaim

/-!
# Names and link counts

The directory operations, on the slots of the directory. A link is put into the directory first and counted
after that, and its count is taken back when it is gone.
-/

namespace CseOs.Kernel.Sfs

open Framework Prog

namespace SfsFs

open Volume (LinkFails)

variable {fs fs' : SfsFs} {f g ino k n m : Nat} {due due' : Nat → Int} {name n₁ n₂ : List UInt8}
  {E : Errno → SfsFs → Prop}

namespace Sound

theorem wp_dirLink (h : fs.Sound due) (hr : rootIno ∈ fs.vnodes) (hf : ino ∈ fs.vnodes) (hname : 0 ∉ name) :
    wp (onVol (Volume.dirLinkSlot rootIno name ino))
      (fun k fs' => (SlotTable.lookup name fs.slots = none ∧ SlotTable.Vacant fs.slots k ∧ name.length < nameLen) ∧
        fs'.Sound (Function.update due ino (due ino + 1)) ∧
        fs'.catalog = { fs.catalog with slots := SlotTable.put k (some (name, ino)) fs.slots })
      (fun e fs' => LinkFails fs.slots name fs'.vol e ∧ fs'.Sound due ∧ fs'.catalog = fs.catalog) fs := by
  have hI := isInode_of_mem hf
  have hslots : fs.slots = fs.vol.slots rootIno := view_slots hr
  rw [wp_onVol]
  apply wp_mono ((h.directory hr).wp_dirLinkSlot (h.readable hr) hname (h.shape.ne_zero hI) (h.shape.lt_word hI))
  · intro k v' hv
    rw [← hslots] at hv
    obtain ⟨hnone, hvacant, hshort, hrelinked⟩ := hv
    refine ⟨⟨hnone, hvacant, hshort⟩, h.relink hr hrelinked (h.distinct.put hvacant hnone) (fun g => ?_) fun g => ?_⟩
    · rw [SlotTable.uses_put_vacant hvacant]
      by_cases hg : ino = g
      · exact .inl (hg ▸ hf)
      · rw [if_neg hg]
        exact .inr Iff.rfl
    · rw [SlotTable.uses_put_vacant hvacant]
      have hnames : SlotTable.uses g fs.slots = fs.names g := rfl
      by_cases hg : ino = g
      · subst hg
        rw [if_pos rfl, Function.update_self, hnames]
        omega
      · rw [if_neg hg, Function.update_of_ne (Ne.symm hg), hnames]
        omega
  · intro e v' hv
    rw [← hslots] at hv
    refine ⟨hv.1, ?_⟩
    exact h.relink hr hv.2 h.distinct (fun g => .inr Iff.rfl) fun g => rfl

theorem wp_dirUnlink (h : fs.Sound due) (hr : rootIno ∈ fs.vnodes) (hf : ino ∈ fs.vnodes)
    (hat : SlotTable.At fs.slots k name ino) : wp (onVol (Volume.dirUnlink rootIno k))
      (fun _ fs' => fs'.Sound (Function.update due ino (due ino - 1)) ∧
        fs'.catalog = { fs.catalog with slots := SlotTable.put k none fs.slots }) E fs := by
  have hslots : fs.slots = fs.vol.slots rootIno := view_slots hr
  have hat' := hat
  rw [hslots] at hat'
  rw [wp_onVol]
  apply wp_mono_post ((h.directory hr).wp_dirUnlink (h.readable hr) hat')
  intro _ v' hv
  rw [← hslots] at hv
  refine h.relink hr hv (h.distinct.clear (Nat.le_of_lt hat.lt)) (fun g => ?_) fun g => ?_
  · have huses := SlotTable.uses_clear hat (b := g)
    by_cases hg : ino = g
    · exact .inl (hg ▸ hf)
    · rw [if_neg hg, Nat.add_zero] at huses
      rw [huses]
      exact .inr Iff.rfl
  · have huses := SlotTable.uses_clear hat (b := g)
    have hnames : SlotTable.uses g fs.slots = fs.names g := rfl
    rw [hnames] at huses
    by_cases hg : ino = g
    · subst hg
      rw [if_pos rfl] at huses
      rw [Function.update_self]
      omega
    · rw [if_neg hg] at huses
      rw [Function.update_of_ne (Ne.symm hg)]
      omega

theorem setLinkcount (h : fs.Sound due) (hf : ino ∈ fs.vnodes) (hdue : due' ino = due ino + (fs.vol.vnode ino).linkcount - m)
    (hsame : ∀ g ≠ ino, due' g = due g) : (fs.setLinkcount ino m).Sound due' ∧
      (fs.setLinkcount ino m).catalog = fs.catalog := by
  have hf' : ino ∈ (fs.setLinkcount ino m).vnodes := hf
  have hself : (fs.setLinkcount ino m).view.vnode ino = { fs.vol.vnode ino with linkcount := m, dirty := true } := by
    rw [view_vnode hf']
    exact Function.update_self ..
  have hother (g : Nat) (hg : g ≠ ino) : (fs.setLinkcount ino m).view.vnode g = fs.view.vnode g := by
    by_cases hin : g ∈ fs.vnodes
    · have hin' : g ∈ (fs.setLinkcount ino m).vnodes := hin
      rw [view_vnode hin', view_vnode hin]
      exact Function.update_of_ne hg ..
    · have hin' : g ∉ (fs.setLinkcount ino m).vnodes := hin
      rw [view_vnode_of_not_mem hin', view_vnode_of_not_mem hin]
      rfl
  have hinode (g : Nat) : ((fs.setLinkcount ino m).view.vnode g).inode = (fs.view.vnode g).inode ∧
      ((fs.setLinkcount ino m).view.vnode g).type = (fs.view.vnode g).type := by
    by_cases hg : g = ino
    · rw [hg, hself, view_vnode hf]
      exact ⟨rfl, rfl⟩
    · rw [hother g hg]
      exact ⟨rfl, rfl⟩
  have ha : fs.view.Alike fs.IsInode (fs.setLinkcount ino m).view :=
    ⟨rfl, rfl, rfl, fun g _ => (hinode g).1, fun g _ => (hinode g).2, fun _ _ _ _ => rfl⟩
  have hcached : (fs.setLinkcount ino m).Cached := by
    refine ⟨h.cached.nodup, h.cached.held, fun g hg hdirty => ?_, h.cached.magic, h.cached.nblocks, h.cached.map⟩
    by_cases hgi : g = ino
    · have hset : (fs.setLinkcount ino m).vol.vnode g = { fs.vol.vnode ino with linkcount := m, dirty := true } := by
        rw [hgi]
        exact Function.update_self ..
      rw [hset] at hdirty
      cases hdirty
    · have hset : (fs.setLinkcount ino m).vol.vnode g = fs.vol.vnode g := Function.update_of_ne hgi ..
      rw [hset] at hdirty ⊢
      exact h.cached.clean g hg hdirty
  refine h.of_alike ha (fun _ hg => isInode_of_mem hg) (fun _ hg => .inl hg) h.working h.memory (fun g hg => ?_) hcached
  by_cases hgi : g = ino
  · subst hgi
    rw [hself, hdue, view_vnode hf]
    show (m : Int) + _ = _
    omega
  · rw [hother g hgi, hsame g hgi]

theorem wp_countLink (h : fs.Sound due) (hf : ino ∈ fs.vnodes) (hdue : due ino = 1) (hsame : due' ino = 0)
    (hothers : ∀ g ≠ ino, due' g = due g) :
    wp (countLink ino) (fun _ fs' => fs'.Sound due' ∧ fs'.catalog = fs.catalog) E fs := by
  have hlinks := h.links ino (isInode_of_mem hf)
  rw [view_vnode hf, hdue] at hlinks
  have hle : fs.names ino ≤ fs.slots.length := SlotTable.uses_le_length
  have hlen : fs.slots.length < 2 ^ 16 - 1 := h.shape.length_slots
  have hlt : (fs.vol.vnode ino).linkcount + 1 < 2 ^ 16 := by
    split at hlinks <;> omega
  rw [countLink, wp_update, Nat.mod_eq_of_lt hlt]
  exact h.setLinkcount hf (by omega) hothers

theorem wp_uncountLink (h : fs.Sound due) (hf : ino ∈ fs.vnodes) (hdue : due ino = -1) (hsame : due' ino = 0)
    (hothers : ∀ g ≠ ino, due' g = due g) :
    wp (uncountLink ino) (fun _ fs' => fs'.Sound due' ∧ fs'.catalog = fs.catalog) E fs := by
  have hlinks := h.links ino (isInode_of_mem hf)
  rw [view_vnode hf, hdue] at hlinks
  have hpos : 0 < (fs.vol.vnode ino).linkcount := by
    split at hlinks <;> omega
  rw [uncountLink, wp_bind, wp_state, wp_bind, wp_check]
  refine ⟨hpos, ?_⟩
  rw [wp_update]
  exact h.setLinkcount hf (by omega) hothers

private theorem wp_findname (h : fs.Sound due) (hr : rootIno ∈ fs.vnodes) :
    wp (onVol (Volume.dirFindname rootIno name)) (fun scan fs' => (fs'.Sound due ∧ fs'.catalog = fs.catalog) ∧
      fs'.vnodes = fs.vnodes ∧ SlotTable.lookup name fs.slots = scan.found.map Prod.fst ∧
      ∀ ino k, scan.found = some (ino, k) → SlotTable.At fs.slots k name ino) E fs := by
  have hslots : fs.slots = fs.vol.slots rootIno := view_slots hr
  rw [wp_onVol]
  apply wp_mono_post ((h.directory hr).wp_locate (h.readable hr))
  intro scan v' hv
  obtain ⟨hquiet, hlocated⟩ := hv
  refine ⟨h.quiet hquiet, rfl, ?_, fun ino k hf => ?_⟩
  · rw [hslots]
    exact hlocated.lookup (h.directory hr)
  · rw [hslots]
    exact (hlocated.found ino k).mp hf

private theorem isInode_of_at (hat : SlotTable.At fs.slots k name ino) : fs.IsInode ino :=
  .inr (.inr (SlotTable.uses_pos.mpr ⟨k, name, hat⟩))

end Sound

/-- One reference more -/
def Catalog.hold (f : Nat) (c : Catalog) : Catalog :=
  { c with refs := Function.update c.refs f (c.refs f + 1) }

/-- A name that the directory has is found, with its slot and a reference to the file. -/
theorem Sound.wp_lookonce (h : fs.Sound 0) (hr : rootIno ∈ fs.vnodes) : wp (lookonce rootIno name)
    (fun p fs' => SlotTable.At fs.slots p.2 name p.1 ∧ fs'.Sound 0 ∧ fs'.catalog = fs.catalog.hold p.1)
    (fun e fs' => (e = .enoent ∧ SlotTable.lookup name fs.slots = none) ∧ fs'.Sound 0 ∧ fs'.catalog = fs.catalog)
    fs := by
  rw [lookonce, wp_bind]
  apply wp_mono_post (h.wp_findname hr)
  intro scan fs₁ h₁
  obtain ⟨⟨hsound, hcat⟩, hv, hlookup, hat⟩ := h₁
  cases hf : scan.found with
  | none =>
    rw [hf] at hlookup
    exact ⟨⟨rfl, hlookup⟩, hsound, hcat⟩
  | some p =>
    have hatp := hat p.1 p.2 hf
    have hslots₁ : fs₁.slots = fs.slots := congrArg Catalog.slots hcat
    have hI : fs₁.IsInode p.1 := (isInode_congr hslots₁ hv).mpr (isInode_of_at hatp)
    simp only [wp_bind]
    apply wp_mono_post (hsound.wp_loadvnode hI)
    intro _ fs₂ h₂
    obtain ⟨hsound₂, hcat₂⟩ := h₂
    have hrefs₂ : fs₂.refs = Function.update fs₁.refs p.1 (fs₁.refs p.1 + 1) := congrArg Catalog.refs hcat₂
    have hmem₂ : p.1 ∈ fs₂.vnodes := by
      rw [hsound₂.mem_iff, hrefs₂, Function.update_self]
      exact Nat.succ_pos _
    have hnames : 0 < fs₂.names p.1 := by
      have hslots₂ : fs₂.slots = fs.slots := (congrArg Catalog.slots hcat₂).trans hslots₁
      rw [names, hslots₂]
      exact SlotTable.uses_pos.mpr ⟨p.2, name, hatp⟩
    have hlinks := hsound₂.links p.1 (isInode_of_mem hmem₂)
    rw [view_vnode hmem₂, Pi.zero_apply] at hlinks
    have hne : (fs₂.vol.vnode p.1).linkcount ≠ 0 := by
      split at hlinks <;> omega
    simp only [wp_state, wp_check, wp_pure]
    refine ⟨hne, hatp, hsound₂, ?_⟩
    rw [hcat₂, hcat, show fs₁.refs = fs.refs from congrArg Catalog.refs hcat]
    rfl

namespace Catalog

variable {c : Catalog}

def put (k : Nat) (e : Option (List UInt8 × Nat)) (c : Catalog) : Catalog :=
  { c with slots := SlotTable.put k e c.slots }

/-- A file without names and references is gone. -/
def reap (f : Nat) (c : Catalog) : Catalog :=
  { c with data := if c.refs f = 0 ∧ SlotTable.uses f c.slots = 0 then Function.update c.data f [] else c.data }

theorem release_hold (c : Catalog) (f : Nat) : (c.hold f).release f = c.reap f := by
  have hone : (c.hold f).refs f = c.refs f + 1 := Function.update_self ..
  have hslots : (c.hold f).slots = c.slots := rfl
  have hdata : (c.hold f).data = c.data := rfl
  have hrefs : Function.update (c.hold f).refs f (c.refs f) = c.refs := by
    rw [hold, Function.update_idem, Function.update_eq_self]
  rw [release, reap, hone, Nat.add_sub_cancel, hrefs, hslots, hdata]
  simp only [Nat.add_eq_right]

private theorem reap_of_named (h : 0 < SlotTable.uses f c.slots) : c.reap f = c := by
  have hno : ¬ (c.refs f = 0 ∧ SlotTable.uses f c.slots = 0) := fun h0 => by omega
  rw [reap, if_neg hno]

theorem reap_of_empty (h : c.data f = []) : c.reap f = c := by
  have hsame : Function.update c.data f [] = c.data := by
    rw [← h, Function.update_eq_self]
  rw [reap, hsame, ite_self]

end Catalog

namespace Sound

theorem data_of_not_isInode (h : ¬ fs.IsInode f) : fs.data f = [] := if_neg fun hc => h hc.2

theorem refs_of_not_isInode (h : fs.Sound due) (hf : ¬ fs.IsInode f) : fs.refs f = 0 :=
  h.refs_of_not_mem fun hmem => hf (isInode_of_mem hmem)

private theorem mem_of_hold (h : fs'.Sound due) (hcat : fs'.catalog = fs.catalog.hold f) : f ∈ fs'.vnodes := by
  rw [h.mem_iff, show fs'.refs = _ from congrArg Catalog.refs hcat]
  show 0 < Function.update fs.refs f (fs.refs f + 1) f
  rw [Function.update_self]
  exact Nat.succ_pos _

theorem mem_of_mem (h : fs.Sound due) (h' : fs'.Sound due') (hcat : fs'.catalog = fs.catalog.hold f)
    (hg : g ∈ fs.vnodes) : g ∈ fs'.vnodes := by
  by_cases hgf : g = f
  · rw [hgf]
    exact h'.mem_of_hold hcat
  · rw [h'.mem_iff, show fs'.refs = _ from congrArg Catalog.refs hcat]
    show 0 < Function.update fs.refs f (fs.refs f + 1) g
    rw [Function.update_of_ne hgf]
    exact h.mem_iff.mp hg

private theorem mem_congr (h : fs.Sound due) (h' : fs'.Sound due') (hrefs : fs'.refs = fs.refs) :
    g ∈ fs'.vnodes ↔ g ∈ fs.vnodes := by
  rw [h.mem_iff, h'.mem_iff, hrefs]

/-- Why a name was not linked, once the volume has changed again -/
def Refused (t : SlotTable (List UInt8) Nat) (name : List UInt8) (e : Errno) : Prop := ∃ v, LinkFails t name v e

/-- A file is opened that exists, or made. -/
theorem wp_creat (h : fs.Sound 0) (hr : rootIno ∈ fs.vnodes) (hname : 0 ∉ name) {excl : Bool} :
    wp (creat rootIno name excl)
      (fun ino fs' => fs'.Sound 0 ∧
        ((excl = false ∧ SlotTable.lookup name fs.slots = some ino ∧ fs'.catalog = fs.catalog.hold ino) ∨
          SlotTable.lookup name fs.slots = none ∧ name.length < nameLen ∧ ¬ fs.IsInode ino ∧
            ∃ k, SlotTable.Vacant fs.slots k ∧ fs'.catalog = (fs.catalog.put k (some (name, ino))).hold ino))
      (fun e fs' => (if (SlotTable.lookup name fs.slots).isSome then excl = true ∧ e = .eexist
          else e = .enospc ∨ Refused fs.slots name e) ∧ fs'.Sound 0 ∧ fs'.catalog = fs.catalog) fs := by
  rw [creat, wp_bind]
  apply wp_mono_post (h.wp_findname hr)
  intro scan fs₁ h₁
  obtain ⟨⟨hsound₁, hcat₁⟩, hv₁, hlookup, hat⟩ := h₁
  have hslots₁ : fs₁.slots = fs.slots := congrArg Catalog.slots hcat₁
  have hrefs₁ : fs₁.refs = fs.refs := congrArg Catalog.refs hcat₁
  rw [wp_bind, wp_raiseIf]
  split
  case isTrue hexcl =>
    have hsome : (SlotTable.lookup name fs.slots).isSome = true := by
      rw [hlookup, Option.isSome_map, hexcl.1]
    rw [if_pos hsome]
    exact ⟨⟨hexcl.2, rfl⟩, hsound₁, hcat₁⟩
  case isFalse hexcl =>
    cases hf : scan.found with
    | some p =>
      have hno : excl = false := by simpa [hf] using hexcl
      have hI : fs₁.IsInode p.1 := (isInode_congr hslots₁ hv₁).mpr (isInode_of_at (hat p.1 p.2 hf))
      rw [hf] at hlookup
      simp only [wp_bind, wp_pure]
      apply wp_mono_post (hsound₁.wp_loadvnode hI)
      intro _ fs₂ h₂
      refine ⟨h₂.1, .inl ⟨hno, hlookup, ?_⟩⟩
      rw [h₂.2, hcat₁, hrefs₁]
      rfl
    | none =>
      rw [hf] at hlookup
      have hnone : SlotTable.lookup name fs.slots = none := hlookup
      have hsome : ¬ (SlotTable.lookup name fs.slots).isSome = true := by simp [hnone]
      have hr₁ : rootIno ∈ fs₁.vnodes := hv₁ ▸ hr
      simp only [wp_bind]
      apply wp_mono (hsound₁.wp_makeobj hr₁ fun _ _ => rfl)
      · intro d fs₂ h₂
        obtain ⟨hnew, hsound₂, hcat₂⟩ := h₂
        have hnew' : ¬ fs.IsInode d := fun hd => hnew ((isInode_congr hslots₁ hv₁).mpr hd)
        have hrefs0 : fs₁.refs d = 0 := hsound₁.refs_of_not_isInode hnew
        have hhold : fs₂.catalog = fs.catalog.hold d := by
          rw [hcat₂, hcat₁, hrefs₁, Catalog.hold]
          have hz : fs.catalog.refs d = 0 := (congrFun hrefs₁ d).symm.trans hrefs0
          rw [hz]
          rfl
        have hd₂ := hsound₂.mem_of_hold hhold
        have hr₂ := h.mem_of_mem hsound₂ hhold hr
        have hslots₂ : fs₂.slots = fs.slots := congrArg Catalog.slots hhold
        rw [wp_onError]
        apply wp_mono (hsound₂.wp_dirLink hr₂ hd₂ hname)
        · intro k fs₃ h₃
          obtain ⟨⟨_, hvacant, hshort⟩, hsound₃, hcat₃⟩ := h₃
          have hd₃ := (hsound₂.mem_congr hsound₃ (congrArg Catalog.refs hcat₃)).mpr hd₂
          apply wp_mono_post (hsound₃.wp_countLink hd₃ (Function.update_self ..) rfl fun g hg =>
            (Function.update_of_ne hg ..).symm)
          intro _ fs₄ h₄
          refine ⟨h₄.1, .inr ⟨hnone, hshort, hnew', k, hslots₂ ▸ hvacant, ?_⟩⟩
          rw [h₄.2, hcat₃, hhold, hslots₂]
          rfl
        · intro e fs₃ h₃
          obtain ⟨hfails, hsound₃, hcat₃⟩ := h₃
          rw [hslots₂] at hfails
          have hd₃ := (hsound₂.mem_congr hsound₃ (congrArg Catalog.refs hcat₃)).mpr hd₂
          have hempty : fs.catalog.data d = [] := data_of_not_isInode hnew'
          apply wp_mono (hsound₃.wp_decref (hsound₃.mem_iff.mp hd₃) rfl (E := fun _ _ => False))
          · intro _ fs₄ h₄
            rw [if_neg hsome]
            refine ⟨.inr ⟨_, hfails⟩, h₄.1, ?_⟩
            rw [h₄.2, hcat₃, hhold, Catalog.release_hold, Catalog.reap_of_empty hempty]
          · exact fun _ _ hno => hno.elim
      · intro e fs₂ h₂
        rw [if_neg hsome]
        exact ⟨.inl h₂.1, h₂.2.1, h₂.2.2.trans hcat₁⟩

/-- A file that is open gets another name. -/
theorem wp_link (h : fs.Sound 0) (hr : rootIno ∈ fs.vnodes) (hf : ino ∈ fs.vnodes) (hname : 0 ∉ name) :
    wp (link rootIno name ino)
      (fun _ fs' => (SlotTable.lookup name fs.slots = none ∧ name.length < nameLen) ∧ fs'.Sound 0 ∧
        ∃ k, SlotTable.Vacant fs.slots k ∧ fs'.catalog = fs.catalog.put k (some (name, ino)))
      (fun e fs' => LinkFails fs.slots name fs'.vol e ∧ fs'.Sound 0 ∧ fs'.catalog = fs.catalog) fs := by
  rw [link, wp_bind]
  apply wp_mono_post (h.wp_dirLink hr hf hname)
  intro k fs₁ h₁
  obtain ⟨⟨hnone, hvacant, hshort⟩, hsound₁, hcat₁⟩ := h₁
  have hf₁ := (h.mem_congr hsound₁ (congrArg Catalog.refs hcat₁)).mpr hf
  apply wp_mono_post (hsound₁.wp_countLink hf₁ (Function.update_self ..) rfl fun g hg =>
    (Function.update_of_ne hg ..).symm)
  intro _ fs₂ h₂
  refine ⟨⟨hnone, hshort⟩, h₂.1, k, hvacant, ?_⟩
  rw [h₂.2, hcat₁]
  rfl

/-- A name is removed, and with the last name and reference the file. -/
theorem wp_remove (h : fs.Sound 0) (hr : rootIno ∈ fs.vnodes) : wp (remove rootIno name)
    (fun _ fs' => fs'.Sound 0 ∧ ∃ ino k, SlotTable.At fs.slots k name ino ∧
      fs'.catalog = (fs.catalog.put k none).reap ino)
    (fun e fs' => (e = .enoent ∧ SlotTable.lookup name fs.slots = none) ∧ fs'.Sound 0 ∧ fs'.catalog = fs.catalog)
    fs := by
  rw [remove, wp_bind]
  apply wp_mono_post (h.wp_lookonce hr)
  intro p fs₁ h₁
  obtain ⟨hat, hsound₁, hcat₁⟩ := h₁
  have hp₁ := hsound₁.mem_of_hold hcat₁
  have hr₁ := h.mem_of_mem hsound₁ hcat₁ hr
  have hslots₁ : fs₁.slots = fs.slots := congrArg Catalog.slots hcat₁
  have hat₁ : SlotTable.At fs₁.slots p.2 name p.1 := by
    rw [hslots₁]
    exact hat
  rw [wp_bind, wp_onError]
  apply wp_mono_post (hsound₁.wp_dirUnlink hr₁ hp₁ hat₁)
  intro _ fs₂ h₂
  obtain ⟨hsound₂, hcat₂⟩ := h₂
  have hp₂ := (hsound₁.mem_congr hsound₂ (congrArg Catalog.refs hcat₂)).mpr hp₁
  rw [wp_bind]
  apply wp_mono_post (hsound₂.wp_uncountLink hp₂ (Function.update_self ..) rfl fun g hg =>
    (Function.update_of_ne hg ..).symm)
  intro _ fs₃ h₃
  obtain ⟨hsound₃, hcat₃⟩ := h₃
  have hp₃ := (hsound₂.mem_congr hsound₃ (congrArg Catalog.refs hcat₃)).mpr hp₂
  apply wp_mono_post (hsound₃.wp_decref (hsound₃.mem_iff.mp hp₃) rfl)
  intro _ fs₄ h₄
  refine ⟨h₄.1, p.1, p.2, hat, ?_⟩
  rw [h₄.2, hcat₃, hcat₂, hcat₁, hslots₁]
  exact Catalog.release_hold (fs.catalog.put p.2 none) p.1

/-- A file other than the directory gets a new name for an old one. -/
theorem wp_rename (h : fs.Sound 0) (hr : rootIno ∈ fs.vnodes) (hname : 0 ∉ n₂)
    (hfile : SlotTable.lookup n₁ fs.slots ≠ some rootIno) : wp (rename rootIno n₁ n₂)
    (fun _ fs' => (SlotTable.lookup n₂ fs.slots = none ∧ n₂.length < nameLen) ∧ fs'.Sound 0 ∧
      ∃ ino k₁ k₂, SlotTable.At fs.slots k₁ n₁ ino ∧ SlotTable.Vacant fs.slots k₂ ∧
        fs'.catalog = (fs.catalog.put k₂ (some (n₂, ino))).put k₁ none)
    (fun e fs' => (if (SlotTable.lookup n₁ fs.slots).isSome then Refused fs.slots n₂ e else e = .enoent) ∧
      fs'.Sound 0 ∧ fs'.catalog = fs.catalog) fs := by
  rw [rename, wp_bind, wp_check]
  refine ⟨rfl, ?_⟩
  rw [wp_bind]
  apply wp_mono (h.wp_lookonce hr)
  · intro p fs₁ h₁
    obtain ⟨hat, hsound₁, hcat₁⟩ := h₁
    have hlookup : SlotTable.lookup n₁ fs.slots = some p.1 := h.distinct.lookup_eq_some.mpr ⟨p.2, hat⟩
    have hsome : (SlotTable.lookup n₁ fs.slots).isSome = true := by rw [hlookup]; rfl
    have hne : p.1 ≠ rootIno := fun he => hfile (hlookup.trans (congrArg some he))
    have hp₁ := hsound₁.mem_of_hold hcat₁
    have hr₁ := h.mem_of_mem hsound₁ hcat₁ hr
    have hslots₁ : fs₁.slots = fs.slots := congrArg Catalog.slots hcat₁
    have htype := hsound₁.shape.files p.1 (isInode_of_mem hp₁) hne
    rw [view_vnode hp₁] at htype
    have hused : 0 < SlotTable.uses p.1 fs.catalog.slots := SlotTable.uses_pos.mpr ⟨p.2, n₁, hat⟩
    rw [wp_bind, wp_state, wp_bind, wp_check]
    refine ⟨htype, ?_⟩
    rw [wp_bind, wp_onError]
    apply wp_mono (hsound₁.wp_dirLink hr₁ hp₁ hname)
    · intro k fs₂ h₂
      obtain ⟨⟨hnone, hvacant, hshort⟩, hsound₂, hcat₂⟩ := h₂
      rw [hslots₁] at hnone hvacant hcat₂
      have hp₂ := (hsound₁.mem_congr hsound₂ (congrArg Catalog.refs hcat₂)).mpr hp₁
      have hr₂ := (hsound₁.mem_congr hsound₂ (congrArg Catalog.refs hcat₂)).mpr hr₁
      rw [wp_bind]
      apply wp_mono_post (hsound₂.wp_countLink hp₂ (Function.update_self ..) rfl fun g hg =>
        (Function.update_of_ne hg ..).symm)
      intro _ fs₃ h₃
      obtain ⟨hsound₃, hcat₃⟩ := h₃
      have hp₃ := (hsound₂.mem_congr hsound₃ (congrArg Catalog.refs hcat₃)).mpr hp₂
      have hr₃ := (hsound₂.mem_congr hsound₃ (congrArg Catalog.refs hcat₃)).mpr hr₂
      have hslots₃ : fs₃.slots = SlotTable.put k (some (n₂, p.1)) fs.slots :=
        congrArg Catalog.slots (hcat₃.trans hcat₂)
      have hkp : p.2 ≠ k := fun he => hvacant.2 n₁ p.1 (he ▸ hat)
      have hle : p.2 ≤ (SlotTable.put k (some (n₂, p.1)) fs.slots).length := by
        rw [SlotTable.length_put hvacant.1]
        exact Nat.le_trans (Nat.le_of_lt hat.lt) (Nat.le_max_left _ _)
      have hat₃ : SlotTable.At fs₃.slots p.2 n₁ p.1 := by
        rw [hslots₃, SlotTable.at_put hvacant.1]
        exact .inr ⟨hkp, hat⟩
      rw [wp_bind, wp_onError]
      apply wp_mono_post (hsound₃.wp_dirUnlink hr₃ hp₃ hat₃)
      intro _ fs₄ h₄
      obtain ⟨hsound₄, hcat₄⟩ := h₄
      have hp₄ := (hsound₃.mem_congr hsound₄ (congrArg Catalog.refs hcat₄)).mpr hp₃
      rw [wp_bind]
      apply wp_mono_post (hsound₄.wp_uncountLink hp₄ (Function.update_self ..) rfl fun g hg =>
        (Function.update_of_ne hg ..).symm)
      intro _ fs₅ h₅
      obtain ⟨hsound₅, hcat₅⟩ := h₅
      have hp₅ := (hsound₄.mem_congr hsound₅ (congrArg Catalog.refs hcat₅)).mpr hp₄
      apply wp_mono_post (hsound₅.wp_decref (hsound₅.mem_iff.mp hp₅) rfl)
      intro _ fs₆ h₆
      refine ⟨⟨hnone, hshort⟩, h₆.1, p.1, p.2, k, hat, hvacant, ?_⟩
      have hold : fs₅.catalog = ((fs.catalog.put k (some (n₂, p.1))).put p.2 none).hold p.1 := by
        rw [hcat₅, hcat₄, hslots₃, hcat₃, hcat₂, hcat₁]
        rfl
      rw [h₆.2, hold, Catalog.release_hold, Catalog.reap_of_named]
      apply SlotTable.uses_pos.mpr
      refine ⟨k, n₂, ?_⟩
      show SlotTable.At (SlotTable.put p.2 none (SlotTable.put k (some (n₂, p.1)) fs.slots)) k n₂ p.1
      rw [SlotTable.at_put hle, SlotTable.at_put hvacant.1]
      exact .inr ⟨hkp.symm, .inl ⟨rfl, rfl⟩⟩
    · intro e fs₂ h₂
      obtain ⟨hfails, hsound₂, hcat₂⟩ := h₂
      have hp₂ := (hsound₁.mem_congr hsound₂ (congrArg Catalog.refs hcat₂)).mpr hp₁
      rw [hslots₁] at hfails
      apply wp_mono (hsound₂.wp_decref (hsound₂.mem_iff.mp hp₂) rfl (E := fun _ _ => False))
      · intro _ fs₃ h₃
        rw [if_pos hsome]
        refine ⟨⟨_, hfails⟩, h₃.1, ?_⟩
        rw [h₃.2, hcat₂, hcat₁, Catalog.release_hold, Catalog.reap_of_named hused]
      · exact fun _ _ hno => hno.elim
  · intro e fs₁ h₁
    refine ⟨?_, h₁.2⟩
    rw [h₁.1.2]
    exact h₁.1.1

end Sound

end SfsFs

end CseOs.Kernel.Sfs
