import Mathlib.Data.List.Nodup
import CseOs.Kernel.Sfs.Service

/-!
# Runs of a volume

A volume is made by `mksfs`, mounted, and called. Whatever the calls are, it stays in order and shows its
users the files that they are promised, over unmounts and shutdowns, too.
-/

namespace CseOs.Kernel.Sfs

open Framework Prog

variable {arg volname : List UInt8} {nblocks : Nat} {disk disk' : Nat → ByteStore} {bits : List Nat}
  {bitbuf : Nat → Bool}

theorem doallocbits_isSome (hnodup : bits.Nodup) (hclear : ∀ b ∈ bits, bitbuf b = false) :
    (doallocbits bits bitbuf).isSome := by
  induction bits generalizing bitbuf with
  | nil => rfl
  | cons bit bits ih =>
    obtain ⟨hnew, hnodup'⟩ := List.nodup_cons.mp hnodup
    have hbit : doallocbit bit bitbuf = some (Function.update bitbuf bit true) := by
      have hno : ¬ bitbuf bit = true := by simp [hclear bit List.mem_cons_self]
      exact if_neg hno
    have hrest : ∀ b ∈ bits, Function.update bitbuf bit true b = false := by
      intro b hb
      have hne : b ≠ bit := fun he => hnew (he ▸ hb)
      rw [Function.update_of_ne hne]
      exact hclear b (List.mem_cons_of_mem bit hb)
    rw [doallocbits, List.foldlM_cons, hbit]
    exact ih hnodup' hrest

private theorem nodup_reservedBits (hroom : mapLocation + bitBlocks nblocks ≤ nblocks) : (reservedBits nblocks).Nodup := by
  have hmap (a n : Nat) : ((List.range n).map fun i => a + i).Nodup :=
    List.nodup_range.map fun i j h => Nat.add_left_cancel h
  rw [reservedBits, List.nodup_append]
  refine ⟨?_, hmap _ _, fun a ha b hb he => ?_⟩
  · refine List.nodup_cons.mpr ⟨fun h0 => ?_, List.nodup_cons.mpr ⟨fun h1 => ?_, hmap _ _⟩⟩
    · simp only [List.mem_cons, List.mem_map, sbLocation, rootIno, mapLocation] at h0
      rcases h0 with h0 | ⟨i, _, h0⟩ <;> omega
    · simp only [List.mem_map, rootIno, mapLocation] at h1
      obtain ⟨i, _, h1⟩ := h1
      omega
  · have hlow := mem_systemBits.mp ha
    have hhigh := (mem_pastBits.mp hb).1
    omega

theorem mksfs_isSome : (mksfs arg nblocks disk).isSome ↔
    (∃ volname, volumeName arg = some volname ∧ volname.length < volnameSize) ∧
    mapLocation + bitBlocks nblocks ≤ nblocks ∧ bitBlocks nblocks ≤ 32 := by
  constructor
  · intro h
    obtain ⟨disk', hdisk⟩ := Option.isSome_iff_exists.mp h
    obtain ⟨_, bitbuf, hf⟩ := mksfs_eq_some hdisk
    obtain ⟨volname, hname, hdisk⟩ := Option.bind_eq_some_iff.mp hdisk
    split at hdisk
    case isTrue => cases hdisk
    case isFalse hok =>
      simp only [not_or, Nat.not_le, Nat.not_lt] at hok
      exact ⟨⟨volname, hname, hok.1⟩, hf.room, hok.2.2⟩
  · rintro ⟨⟨volname, hname, hlen⟩, hroom, hmax⟩
    have hok : ¬ (volnameSize ≤ volname.length ∨ nblocks ≤ sbLocation ∨ 32 < bitBlocks nblocks) := by
      simp only [sbLocation, mapLocation] at *
      omega
    have hset : (doallocbits (reservedBits nblocks) fun _ => false).isSome :=
      doallocbits_isSome (nodup_reservedBits hroom) fun _ _ => rfl
    obtain ⟨bitbuf, hbits⟩ := Option.isSome_iff_exists.mp hset
    rw [mksfs, hname, Option.bind_eq_bind, Option.bind_some, if_neg hok, hbits]
    rfl

namespace SfsFs

variable {fs fs' fs₁ fs₂ : SfsFs} {call : Call} {r : Except Errno Reply} {calls : List (Call × Except Errno Reply)}
  {f : Nat} {reply : Except Errno Reply}

private theorem exists_of_wp {σ α : Type} {p : Prog σ Errno α} {s : σ} {Q : α → σ → Prop}
    (h : wp p Q (fun _ _ => False) s) : ∃ a t, p s = some (.ok a, t) ∧ Q a t := by
  obtain ⟨r, t, hrun, hout⟩ := wp_elim h
  cases r with
  | ok a => exact ⟨a, t, hrun, hout⟩
  | error e => exact hout.elim

theorem mount_new (hdisk : mksfs arg nblocks disk = some fs.vol.disk) (hok : ∀ i, fs.vol.ioErrors i = none)
    (hmem : ∀ i, fs.memory i = true) :
    ∃ fs', domount fs = some (.ok (), fs') ∧ fs'.Sound 0 ∧ fs'.files = Files.empty ∧ fs'.vol.nblocks = nblocks ∧
      ∀ b, fs'.vol.freemap b = true ↔ b < mapLocation + bitBlocks nblocks ∨ nblocks ≤ b ∧ b < bitmapSize nblocks := by
  obtain ⟨_, bitbuf, hf⟩ := mksfs_eq_some hdisk
  have hmagic : (fs.vol.disk sbLocation).word 0 = sfsMagic := by
    rw [hf.super]
    exact superBytes_magic
  obtain ⟨_, fs', hrun, hm⟩ := exists_of_wp (wp_domount hok hmem hmagic)
  obtain ⟨hsound, hcat⟩ := hm.sound_new hf
  refine ⟨fs', hrun, hsound, ?_, (hm.size_new hf).1, fun b => ?_⟩
  · rw [Sound.files_of hcat]
    rfl
  · rw [hm.map_new hf, hf.bits]
    have hroom := hf.room
    have hsize : nblocks ≤ bitmapSize nblocks := le_bitmapSize
    omega

/-- Calls one after the other, each as its callers may make it, with what they answer and the states of the
files after each of them in `P` -/
inductive Runs (P : Files → Prop) : SfsFs → List (Call × Except Errno Reply) → SfsFs → Prop
  | nil (fs : SfsFs) : Runs P fs [] fs
  | cons {fs fs₁ fs₂ : SfsFs} {call : Call} {r : Except Errno Reply} {calls : List (Call × Except Errno Reply)}
      (hc : fs.files.Allowed call) (hrun : run call fs = some (r, fs₁)) (hP : P fs₁.files)
      (hruns : Runs P fs₁ calls fs₂) : Runs P fs ((call, r) :: calls) fs₂

/-- A volume was made, mounted on a disk that works, and called. There is memory for all of it. -/
inductive Comes (calls : List (Call × Except Errno Reply)) (fs : SfsFs) : Prop
  | intro {arg : List UInt8} {nblocks : Nat} {disk : Nat → ByteStore} {fs₀ fs₁ : SfsFs}
      (hdisk : mksfs arg nblocks disk = some fs₀.vol.disk) (hok : ∀ i, fs₀.vol.ioErrors i = none)
      (hmem : ∀ i, fs₀.memory i = true) (hmount : domount fs₀ = some (.ok (), fs₁)) (hruns : Runs (fun _ => True) fs₁ calls fs)

theorem Sound.served (h : fs.Sound 0) (hc : fs.files.Allowed call) (hrun : run call fs = some (r, fs')) :
    fs.Served call r fs' := by
  have hserves := h.serves hc
  unfold Serves wp at hserves
  rw [hrun] at hserves
  cases r with
  | ok a => exact hserves
  | error e => exact hserves

theorem Sound.runs {P : Files → Prop} (h : fs.Sound 0) (hruns : Runs P fs calls fs') :
    fs'.Sound 0 ∧ Files.Run fs.files calls fs'.files := by
  induction hruns with
  | nil fs => exact ⟨h, .nil _⟩
  | cons hc hrun _ _ ih =>
    have hserved := h.served hc hrun
    obtain ⟨hsound, htrace⟩ := ih hserved.sound
    exact ⟨hsound, .cons hserved.step htrace⟩

private theorem Runs.snoc {P : Files → Prop} (h : Runs P fs calls fs₁) (hc : fs₁.files.Allowed call)
    (hrun : run call fs₁ = some (r, fs₂)) (hP : P fs₂.files) : Runs P fs (calls ++ [(call, r)]) fs₂ := by
  induction h with
  | nil fs => exact .cons hc hrun hP (.nil _)
  | cons hc' hrun' hP' _ ih => exact .cons hc' hrun' hP' (ih hc hrun)

private theorem Comes.sound (h : Comes calls fs) : fs.Sound 0 ∧ Files.Run .empty calls fs.files := by
  obtain ⟨hdisk, hok, hmem, hmount, hruns⟩ := h
  obtain ⟨fs', hrun, hsound, hfiles, _⟩ := mount_new hdisk hok hmem
  rw [hmount] at hrun
  cases hrun
  rw [← hfiles]
  exact hsound.runs hruns

private theorem Comes.snoc (h : Comes calls fs) (hc : fs.files.Allowed call) (hrun : run call fs = some (r, fs')) :
    Comes (calls ++ [(call, r)]) fs' := by
  obtain ⟨hdisk, hok, hmem, hmount, hruns⟩ := h
  exact ⟨hdisk, hok, hmem, hmount, hruns.snoc hc hrun trivial⟩

/-- The bits that `mksfs` sets -/
def madeBit (nblocks b : Nat) : Bool :=
  decide (b < mapLocation + bitBlocks nblocks) || decide (nblocks ≤ b) && decide (b < bitmapSize nblocks)

/-- A disk that was made a volume, in a system that has just come up -/
def sampleFs (nblocks : Nat) : SfsFs where
  vol :=
    { disk := fun b =>
        if b = sbLocation then superBytes [118] nblocks
        else if b = rootIno then inodeBytes newRoot
        else if b < mapLocation + bitBlocks nblocks then mapBlock (madeBit nblocks) (b - mapLocation)
        else zeros
      ioErrors := fun _ => none
      ios := 0
      nblocks := 0
      nbits := 0
      freemap := fun _ => false
      freemapDirty := false
      vnode := fun _ => .blank }
  vnodes := []
  refs _ := 0
  memory _ := true
  asked := 0

/-- The state that a program leaves -/
def left {α : Type} (p : Prog SfsFs Errno α) (fs : SfsFs) : SfsFs := ((p fs).map Prod.snd).getD fs

private theorem left_of_run {α : Type} {p : Prog SfsFs Errno α} {r : Except Errno α} (h : p fs = some (r, fs')) :
    left p fs = fs' := by
  rw [left, h]
  rfl

private theorem made_sample (hroom : mapLocation + bitBlocks nblocks ≤ nblocks) (hmax : bitBlocks nblocks ≤ 32) :
    mksfs [118] nblocks (fun _ => zeros) = some (sampleFs nblocks).vol.disk := by
  have hset : (doallocbits (reservedBits nblocks) fun _ => false).isSome :=
    doallocbits_isSome (nodup_reservedBits hroom) fun _ _ => rfl
  obtain ⟨bitbuf, hbits⟩ := Option.isSome_iff_exists.mp hset
  have hmade : bitbuf = madeBit nblocks := by
    funext b
    rw [Bool.eq_iff_iff, (doallocbits_eq_some hbits).1, reservedBits, List.mem_append, mem_systemBits, mem_pastBits]
    simp only [madeBit, Bool.false_eq_true, or_false, Bool.or_eq_true, Bool.and_eq_true, decide_eq_true_iff]
  have hok : ¬ (volnameSize ≤ ([118] : List UInt8).length ∨ nblocks ≤ sbLocation ∨ 32 < bitBlocks nblocks) := by
    simp only [volnameSize, sbLocation, mapLocation, List.length_singleton] at *
    omega
  have hname : volumeName [118] = some [118] := by decide
  rw [mksfs, hname, Option.bind_eq_bind, Option.bind_some, if_neg hok, hbits, hmade]
  rfl

theorem Comes.next (h : Comes calls fs) (hc : fs.files.Allowed call) :
    ∃ r, run call fs = some (r, left (run call) fs) ∧ Comes (calls ++ [(call, r)]) (left (run call) fs) := by
  obtain ⟨r, fs', hrun, _⟩ := wp_elim (h.sound.1.serves hc)
  rw [left_of_run hrun]
  exact ⟨r, hrun, h.snoc hc hrun⟩

/-- The same volume, mounted and with its root directory opened -/
def sampleRoot (nblocks : Nat) : SfsFs := left (run .getroot) (left domount (sampleFs nblocks))

private theorem comes_sample (hroom : mapLocation + bitBlocks nblocks ≤ nblocks) (hmax : bitBlocks nblocks ≤ 32) :
    ∃ calls, calls.map Prod.fst = [.getroot] ∧ Comes calls (sampleRoot nblocks) := by
  obtain ⟨fs, hmount, _⟩ := mount_new (made_sample hroom hmax) (fun _ => rfl) fun _ => rfl
  have hcomes : Comes [] fs := ⟨made_sample hroom hmax, fun _ => rfl, fun _ => rfl, hmount, .nil fs⟩
  have hc : fs.files.Allowed .getroot := trivial
  obtain ⟨r, _, hnext⟩ := hcomes.next hc
  rw [sampleRoot, left_of_run hmount]
  exact ⟨_, rfl, hnext⟩

/-- What a call asks of its arguments, whatever the state is -/
def FairCall : Call → Prop
  | .creat name _ | .link name _ | .rename _ name => 0 ∉ name
  | .read _ w => w.Room ∧ w.NoFaults ∧ w.uio.rw = .read ∧ w.uio.offset + w.uio.resid < 2 ^ 31
  | .write _ w => w.Room ∧ w.uio.rw = .write ∧ w.uio.offset ≤ maxFileSize
  | _ => True

/-- What a call asks of the state -/
def ready (fs : SfsFs) : Call → Bool
  | .getroot | .sync | .remount => true
  | .lookup _ | .lookparent _ _ | .remove _ | .creat _ _ => decide (0 < fs.refs rootIno)
  | .link _ f => decide (0 < fs.refs rootIno) && decide (0 < fs.refs f)
  | .rename n1 _ => decide (0 < fs.refs rootIno) && decide (fs.files.names n1 ≠ some rootIno)
  | .read f _ | .write f _ | .truncate f | .stat f | .fsync f | .incref f | .decref f => decide (0 < fs.refs f)
  | .reboot => fs.vnodes.all fun f => decide (f = rootIno) || decide (0 < fs.names f)

private theorem Sound.allowed (h : fs.Sound 0) (hfair : FairCall call) (hready : ready fs call = true) :
    fs.files.Allowed call := by
  cases call with
  | link name f =>
    simp only [ready, Bool.and_eq_true, decide_eq_true_iff] at hready
    exact ⟨hready.1, hfair, hready.2⟩
  | rename n1 n2 =>
    simp only [ready, Bool.and_eq_true, decide_eq_true_iff] at hready
    exact ⟨hready.1, hfair, hready.2⟩
  | creat name excl => exact ⟨of_decide_eq_true hready, hfair⟩
  | read f w => exact ⟨of_decide_eq_true hready, hfair⟩
  | write f w => exact ⟨of_decide_eq_true hready, hfair⟩
  | reboot =>
    intro f hf
    have hnamed := List.all_eq_true.mp hready f (h.mem hf)
    simpa only [Bool.or_eq_true, decide_eq_true_iff, ← h.named] using hnamed
  | getroot | sync | remount => trivial
  | lookup | lookparent | remove => exact of_decide_eq_true (p := 0 < fs.refs rootIno) hready
  | truncate f | stat f | fsync f | incref f | decref f => exact of_decide_eq_true (p := 0 < fs.refs f) hready

/-- The state after calls one after the other -/
def session (fs : SfsFs) : List Call → SfsFs
  | [] => fs
  | call :: later => session (left (run call) fs) later

/-- None of the calls asks for what the state does not have. -/
def readyAll (fs : SfsFs) : List Call → Bool
  | [] => true
  | call :: later => ready fs call && readyAll (left (run call) fs) later

private theorem Comes.session {later : List Call} (h : Comes calls fs) (hfair : ∀ call ∈ later, FairCall call)
    (hready : readyAll fs later = true) :
    ∃ answers, answers.map Prod.fst = later ∧ Comes (calls ++ answers) (fs.session later) := by
  induction later generalizing calls fs with
  | nil =>
    refine ⟨[], rfl, ?_⟩
    rw [List.append_nil]
    exact h
  | cons call later ih =>
    obtain ⟨hcall, hlater⟩ := Bool.and_eq_true_iff.mp hready
    have hc := h.sound.1.allowed (hfair call List.mem_cons_self) hcall
    obtain ⟨r, _, hnext⟩ := h.next hc
    obtain ⟨answers, hmap, hcomes⟩ := ih hnext (fun c hin => hfair c (List.mem_cons_of_mem call hin)) hlater
    refine ⟨(call, r) :: answers, congrArg (List.cons call) hmap, ?_⟩
    rw [List.append_assoc] at hcomes
    exact hcomes

/-- A request for the first five bytes of a file -/
def sampleRequest (rw : UioRw) : Transfer := ⟨mkKuio 100 5 0 rw, fun x => UInt8.ofNat x, fun _ => none, 0⟩

private theorem sampleRequest_room (rw : UioRw) : (sampleRequest rw).Room := ⟨show 5 < 2 ^ 32 by decide, le_rfl⟩

/-- Five bytes are written to a new file, which gets a second name and loses its first one. -/
def sampleCalls : List Call :=
  [.creat [97] true, .write 3 (sampleRequest .write), .link [98] 3, .remove [97]]

/-- The volume after these calls: the file is open, and nothing of it was synced. -/
def sampleUsed : SfsFs := session (sampleRoot 4096) sampleCalls

private theorem fair_sampleCalls : ∀ call ∈ sampleCalls, FairCall call := by
  have hnew : FairCall (.creat [97] true) := show 0 ∉ [97] by decide
  have hwrite : FairCall (.write 3 (sampleRequest .write)) := ⟨sampleRequest_room .write, rfl, Nat.zero_le _⟩
  have hlink : FairCall (.link [98] 3) := show 0 ∉ [98] by decide
  exact List.forall_mem_cons.mpr ⟨hnew, List.forall_mem_cons.mpr ⟨hwrite, List.forall_mem_cons.mpr ⟨hlink,
    List.forall_mem_singleton.mpr trivial⟩⟩⟩

private theorem comes_used : ∃ calls, calls.map Prod.fst = .getroot :: sampleCalls ∧ Comes calls sampleUsed := by
  obtain ⟨calls, hcalls, hcomes⟩ := @comes_sample 4096 (by decide) (by decide)
  have hready : readyAll (sampleRoot 4096) sampleCalls = true := by decide +kernel
  obtain ⟨answers, hanswers, hused⟩ := hcomes.session fair_sampleCalls hready
  refine ⟨calls ++ answers, ?_, hused⟩
  rw [List.map_append, hcalls, hanswers]
  rfl

/-- `mksfs` makes a volume of any size that it has room on and a buffer for. A colon after the name is left out. The
free map has the volume's own blocks and those past its end, and the volume can be mounted. -/
theorem mksfs_mounts (harg : arg = volname ∨ arg = volname ++ [colon]) (hcolon : colon ∉ volname)
    (hslash : slash ∉ volname) (hname : volname.length < volnameSize)
    (hroom : mapLocation + bitBlocks nblocks ≤ nblocks) (hmax : bitBlocks nblocks ≤ 32) :
    ∃ disk', mksfs arg nblocks disk = some disk' ∧
      ∀ fs : SfsFs, fs.vol.disk = disk' → (∀ i, fs.vol.ioErrors i = none) → (∀ i, fs.memory i = true) →
        ∃ fs', domount fs = some (.ok (), fs') ∧ fs'.Sound 0 ∧ fs'.files = Files.empty ∧ fs'.vol.nblocks = nblocks ∧
          ∀ b, fs'.vol.freemap b = true ↔
            b < mapLocation + bitBlocks nblocks ∨ nblocks ≤ b ∧ b < bitmapSize nblocks := by
  have hvolname : volumeName arg = some volname := volumeName_eq_some.mpr ⟨harg, hcolon, hslash⟩
  have hmade : (mksfs arg nblocks disk).isSome := mksfs_isSome.mpr ⟨⟨volname, hvolname, hname⟩, hroom, hmax⟩
  obtain ⟨disk', hdisk⟩ := Option.isSome_iff_exists.mp hmade
  refine ⟨disk', hdisk, fun fs hfs hok hmem => ?_⟩
  rw [← hfs] at hdisk
  exact mount_new hdisk hok hmem

theorem mksfs_mounts_sample : ∃ fs fs', mksfs [118, 58] 3 (fun _ => zeros) = some fs.vol.disk ∧
    domount fs = some (.ok (), fs') ∧ fs'.files = Files.empty := by
  obtain ⟨disk', hdisk, hmounts⟩ := @mksfs_mounts [118, 58] [118] 3 (fun _ => zeros) (.inr rfl) (by decide) (by decide)
    (by decide) (by decide) (by decide)
  let fs := (sampleFs 3).setVol { (sampleFs 3).vol with disk := disk' }
  obtain ⟨fs', hmount, _, hfiles, _⟩ := hmounts fs rfl (fun _ => rfl) fun _ => rfl
  exact ⟨fs, fs', hdisk, hmount, hfiles⟩

/-- After any calls the volume is in order, and no call that may be made then ends in a panic. -/
theorem volume_safe (h : Comes calls fs) : fs.Sound 0 ∧
    ∀ call, fs.files.Allowed call → ∃ r fs', run call fs = some (r, fs') ∧ Comes (calls ++ [(call, r)]) fs' := by
  have hsound := h.sound.1
  refine ⟨hsound, fun call hc => ?_⟩
  obtain ⟨r, fs', hrun, _⟩ := wp_elim (hsound.serves hc)
  exact ⟨r, fs', hrun, h.snoc hc hrun⟩

theorem volume_safe_sample : ∃ calls fs, calls.map Prod.fst = .getroot :: sampleCalls ∧ Comes calls fs ∧ fs.Sound 0 ∧
    ∃ r fs', run (.remove [98]) fs = some (r, fs') ∧ Comes (calls ++ [(.remove [98], r)]) fs' := by
  obtain ⟨calls, hcalls, hcomes⟩ := comes_used
  have hsafe := volume_safe hcomes
  have hready : ready sampleUsed (.remove [98]) = true := by decide +kernel
  have hc : sampleUsed.files.Allowed (.remove [98]) := hcomes.sound.1.allowed trivial hready
  exact ⟨calls, _, hcalls, hcomes, hsafe.1, hsafe.2 _ hc⟩

/-- After a sync the names and the files under them are on the disk, whatever happens to the memory. -/
theorem synced_survives (h : Comes calls fs) : ∃ fs₁, sync fs = some (.ok (), fs₁) ∧ fs₁.files = fs.files ∧
    ∀ fs₂ : SfsFs, fs₂.vol.disk = fs₁.vol.disk → (∀ i, fs₂.vol.ioErrors i = none) → (∀ i, fs₂.memory i = true) →
      ∃ fs₃, domount fs₂ = some (.ok (), fs₃) ∧ fs₃.files.names = fs.files.names ∧
        ∀ f, fs.files.Named f → fs₃.files.data f = fs.files.data f := by
  have hsound := h.sound.1
  obtain ⟨_, fs₁, hrun, ⟨hsound₁, hcat₁⟩, hv₁, hsynced⟩ := exists_of_wp hsound.wp_sync
  have hfiles₁ := Sound.files_congr hcat₁
  refine ⟨fs₁, hrun, hfiles₁, fun fs₂ hdisk hok hmem => ?_⟩
  have hmagic : (fs₂.vol.disk sbLocation).word 0 = sfsMagic := by
    rw [hdisk]
    exact hsound₁.cached.magic
  obtain ⟨_, fs₃, hmount, hm⟩ := exists_of_wp (wp_domount hok hmem hmagic)
  rw [hdisk] at hm
  obtain ⟨hslots, hdata⟩ := hm.contents hsound₁ hsynced
  rw [← hfiles₁]
  refine ⟨fs₃, hmount, ?_, fun f hf => ?_⟩
  · show (fun name => SlotTable.lookup name fs₃.slots) = fun name => SlotTable.lookup name fs₁.slots
    rw [hslots]
  · exact hdata f (hsound₁.named.mp hf)

theorem synced_survives_sample : ∃ calls fs fs₁ fs₂ fs₃, calls.map Prod.fst = .getroot :: sampleCalls ∧
    Comes calls fs ∧ sync fs = some (.ok (), fs₁) ∧ fs₂.vol.disk = fs₁.vol.disk ∧ fs₂.vnodes = [] ∧
    domount fs₂ = some (.ok (), fs₃) ∧ fs₃.files.names [98] = some 3 ∧
    fs₃.files.data 3 = [100, 101, 102, 103, 104] := by
  obtain ⟨calls, hcalls, hcomes⟩ := comes_used
  have hname : sampleUsed.files.names [98] = some 3 := by decide +kernel
  have hdata : sampleUsed.files.data 3 = [100, 101, 102, 103, 104] := by decide +kernel
  obtain ⟨fs₁, hrun, _, hafter⟩ := synced_survives hcomes
  let fs₂ := (sampleFs 4096).setVol { (sampleFs 4096).vol with disk := fs₁.vol.disk }
  obtain ⟨fs₃, hmount, hnames, hsame⟩ := hafter fs₂ rfl (fun _ => rfl) fun _ => rfl
  rw [← hnames] at hname
  rw [← hsame 3 ⟨[98], hnames ▸ hname⟩] at hdata
  exact ⟨calls, _, fs₁, fs₂, fs₃, hcalls, hcomes, hrun, rfl, rfl, hmount, hname, hdata⟩

section

variable {w : Transfer} {i lo hi : Nat} {x : UInt8}

private theorem Runs.keeps (hruns : Runs (fun a => a.Known f) fs calls fs') (h : fs.Sound 0)
    (hquiet : ∀ p ∈ calls, ¬ p.1.Changes f lo hi) (hlo : lo ≤ i) (hhi : i < hi)
    (hx : (fs.files.data f)[i]? = some x) : (fs'.files.data f)[i]? = some x := by
  induction hruns with
  | nil fs => exact hx
  | cons hc hrun hknown _ ih =>
    have hserved := h.served hc hrun
    apply ih hserved.sound fun p hp => hquiet p (List.mem_cons_of_mem _ hp)
    exact hserved.step.keeps (hquiet _ List.mem_cons_self) hknown hlo hhi hx

private theorem Sound.written (h : fs.Sound 0) (hc : fs.files.Allowed (.write f w)) {w' : Transfer}
    (hrun : run (.write f w) fs = some (.ok (.moved w'), fs')) :
    fs'.Sound 0 ∧ f ≠ rootIno ∧ fs'.files = fs.files.written f w w.uio.resid := by
  have hserved := h.served hc hrun
  refine ⟨hserved.sound, ?_⟩
  have hstep := hserved.step
  generalize fs'.files = after at hstep
  cases hstep with
  | write hf => exact ⟨hf, rfl⟩

/-- Bytes that were written are read, however many calls come between that neither change them nor let go of
the file: other files are written and removed, the volume is synced and mounted again, and the system goes
down and comes up. -/
theorem read_your_writes {w' r : Transfer} {fs₃ : SfsFs} {later : List (Call × Except Errno Reply)}
    (h : Comes calls fs) (hc : fs.files.Allowed (.write f w))
    (hwrite : run (.write f w) fs = some (.ok (.moved w'), fs₁))
    (hlater : Runs (fun a => a.Known f) fs₁ later fs₂)
    (hquiet : ∀ p ∈ later, ¬ p.1.Changes f r.uio.offset (r.uio.offset + r.uio.resid))
    (hin : w.uio.offset ≤ r.uio.offset) (hin' : r.uio.offset + r.uio.resid ≤ w.uio.offset + w.uio.resid)
    (hcr : fs₂.files.Allowed (.read f r)) (hread : run (.read f r) fs₂ = some (reply, fs₃)) :
    ∃ r', reply = .ok (.moved r') ∧ r'.uio.resid = 0 ∧ ∀ i < r.uio.resid,
      r'.mem (r.uio.iovBase + i) = w.mem (w.uio.iovBase + (r.uio.offset - w.uio.offset) + i) := by
  obtain ⟨hsound₁, hf, hfiles₁⟩ := h.sound.1.written hc hwrite
  obtain ⟨hsound₂, _⟩ := hsound₁.runs hlater
  have hkept (i : Nat) (hi : i < r.uio.resid) : (fs₂.files.data f)[r.uio.offset + i]? =
      some (w.mem (w.uio.iovBase + (r.uio.offset - w.uio.offset) + i)) := by
    apply hlater.keeps hsound₁ hquiet (by omega) (by omega)
    rw [hfiles₁, Files.written, Files.setData_self, Files.overwrite_inside (by omega) (by omega), Nat.add_assoc,
      Nat.sub_add_comm hin]
  have hstep := (hsound₂.served hcr hread).step
  generalize fs₃.files = after at hstep
  cases hstep with
  | read_dir => exact absurd rfl hf
  | read _ hreads => exact ⟨_, rfl, hreads.whole hkept⟩

/-- A new file in the new volume -/
def sampleFile : SfsFs := left (run (.creat [97] true)) (sampleRoot 4096)

theorem read_your_writes_sample : ∃ calls fs fs₁ fs₂ fs₃ w' r', Comes calls fs ∧
    run (.write 3 (sampleRequest .write)) fs = some (.ok (.moved w'), fs₁) ∧ run .sync fs₁ = some (.ok .done, fs₂) ∧
    run (.read 3 (sampleRequest .read)) fs₂ = some (.ok (.moved r'), fs₃) ∧ r'.uio.resid = 0 := by
  obtain ⟨_, _, hroot⟩ := @comes_sample 4096 (by decide) (by decide)
  have hheld : 0 < (sampleRoot 4096).refs rootIno := by decide +kernel
  have hcreat : (sampleRoot 4096).files.Allowed (.creat [97] true) := ⟨hheld, by decide⟩
  obtain ⟨_, _, hcomes⟩ := hroot.next hcreat
  rw [← sampleFile] at hcomes
  have hfile : 0 < sampleFile.refs 3 := by decide +kernel
  have hok : ((run (.write 3 (sampleRequest .write)) sampleFile).any fun p => p.1.isOk) = true := by decide +kernel
  generalize sampleFile = fs at hcomes hfile hok
  have hwrite : fs.files.Allowed (.write 3 (sampleRequest .write)) :=
    ⟨hfile, sampleRequest_room _, rfl, Nat.zero_le _⟩
  obtain ⟨r, hrun, hcomes₁⟩ := hcomes.next hwrite
  rw [hrun] at hok
  have hstep := (hcomes.sound.1.served hwrite hrun).step
  generalize left (run (.write 3 (sampleRequest .write))) fs = fs₁ at hrun hcomes₁ hstep
  generalize hfiles : fs₁.files = after at hstep
  cases hstep with
  | write_fails => cases hok
  | @write _ _ w' hf huio hmem =>
    have hsync : fs₁.files.Allowed .sync := trivial
    obtain ⟨r', hrun₁, hcomes₂⟩ := hcomes₁.next hsync
    have hstep₁ := (hcomes₁.sound.1.served hsync hrun₁).step
    generalize left (run .sync) fs₁ = fs₂ at hrun₁ hcomes₂ hstep₁
    generalize hfiles₁ : fs₂.files = after₁ at hstep₁
    cases hstep₁
    have hheld₂ : 0 < fs₂.files.refs 3 := by
      rw [hfiles₁, hfiles]
      exact hfile
    have hread : fs₂.files.Allowed (.read 3 (sampleRequest .read)) :=
      ⟨hheld₂, sampleRequest_room _, fun _ => rfl, rfl, show 0 + 5 < 2 ^ 31 by decide⟩
    obtain ⟨reply, hrun₂, _⟩ := hcomes₂.next hread
    have hlater : Runs (fun a => a.Known 3) fs₁ [(.sync, .ok .done)] fs₂ := .cons hsync hrun₁ (.inr hheld₂) (.nil _)
    have hquiet : ∀ p ∈ [(Call.sync, Except.ok (ε := Errno) Reply.done)], ¬ p.1.Changes 3 0 (0 + 5) :=
      List.forall_mem_singleton.mpr id
    have hin : (sampleRequest .write).uio.offset ≤ (sampleRequest .read).uio.offset := le_rfl
    obtain ⟨r'', rfl, hresid, _⟩ := read_your_writes hcomes hwrite hrun hlater hquiet hin le_rfl hread hrun₂
    exact ⟨_, fs, fs₁, fs₂, _, w', r'', hcomes, hrun, hrun₁, hrun₂, hresid⟩

end

section

variable {b : Nat}

private theorem Sound.isInode_iff (h : fs.Sound 0) : fs.IsInode f ↔ f = rootIno ∨ fs.files.Known f := by
  rw [IsInode, h.mem_iff, Files.Known, h.named]
  exact or_congr_right or_comm

theorem Sound.layout_known (h : fs.Sound 0) : fs.view.Layout fun f => f = rootIno ∨ fs.files.Known f :=
  (h.shape.of_iff fun _ => h.isInode_iff.symm).layout

private theorem Sound.used_iff (h : fs.Sound 0) (hb : b < fs.vol.nblocks) :
    fs.vol.freemap b = true ↔ ∃ o, fs.view.Owns (fun f => f = rootIno ∨ fs.files.Known f) b o := by
  have hno : ¬ (fs.view.nblocks ≤ b ∧ b < fs.view.nbits) := fun hpast => Nat.not_lt.mpr hpast.1 hb
  have hmarked := h.layout_known.marked b
  rw [or_iff_left hno] at hmarked
  exact hmarked

private theorem Sound.full_of_enospc (h : fs.Sound 0) (hc : fs.files.Allowed call) (hfills : call.Fills) :
    wp (run call) (fun _ _ => True) (fun e fs' => e = .enospc → fs'.Sound 0 ∧ fs'.vol.Full) fs := by
  cases call with
  | link name f =>
    rw [run, wp_bind]
    apply wp_mono (h.wp_link (h.mem hc.1) (h.mem hc.2.2) hc.2.1)
    · exact fun _ _ _ => trivial
    · rintro e fs' ⟨hfails, hsound, _⟩ rfl
      refine ⟨hsound, ?_⟩
      rw [Volume.LinkFails] at hfails
      split at hfails
      · cases hfails
      · split at hfails
        · cases hfails
        · cases hfails with
          | space hfull => exact hfull
  | write f w =>
    rw [run, wp_bind]
    by_cases hne : f = rootIno
    · subst hne
      apply wp_mono (h.wp_root (h.mem hc.1) (Q := fun _ _ => True))
      · exact fun _ _ _ => trivial
      · rintro e fs' ⟨rfl, _⟩ he
        cases he
    · apply wp_mono (h.wp_write (h.mem hc.1) hne hc.2.1 hc.2.2.1 hc.2.2.2)
      · exact fun _ _ _ => trivial
      · rintro e fs' ⟨n, ⟨_, hfull⟩, hsound, _⟩ he
        exact ⟨hsound, hfull he⟩
  | _ => exact hfills.elim

/-- A link or a write fails for want of space only when every block of the volume is there for the system or
for a file that is known. -/
theorem enospc_full (h : Comes calls fs) (hc : fs.files.Allowed call) (hfills : call.Fills)
    (hrun : run call fs = some (.error .enospc, fs')) (hb : b < fs'.vol.nblocks) :
    ∃! o, fs'.view.Owns (fun f => f = rootIno ∨ fs'.files.Known f) b o := by
  have hfails := h.sound.1.full_of_enospc hc hfills
  unfold wp at hfails
  rw [hrun] at hfails
  obtain ⟨hsound, hfull⟩ := hfails rfl
  have hbits : fs'.vol.nbits = bitmapSize fs'.vol.nblocks := hsound.shape.layout.bits
  have hin : b < fs'.vol.nbits := by
    rw [hbits]
    exact Nat.lt_of_lt_of_le hb le_bitmapSize
  obtain ⟨o, ho⟩ := (hsound.used_iff hb).mp (hfull b hin)
  exact ⟨o, ho, fun o' ho' => hsound.layout_known.single b o' o ho' ho⟩

/-- A volume as `domount` leaves it -/
def sampleMounted (nblocks : Nat) : SfsFs :=
  (left domount (sampleFs nblocks)).setVol { (left domount (sampleFs nblocks)).vol with freemap := madeBit nblocks }

theorem sampleRoot_mounted (hroom : mapLocation + bitBlocks nblocks ≤ nblocks) (hmax : bitBlocks nblocks ≤ 32) :
    sampleRoot nblocks = left (run .getroot) (sampleMounted nblocks) := by
  obtain ⟨fs, hmount, _, _, _, hmap⟩ := mount_new (made_sample hroom hmax) (fun _ => rfl) fun _ => rfl
  have hmade : fs.vol.freemap = madeBit nblocks := by
    funext b
    rw [Bool.eq_iff_iff, hmap, madeBit]
    simp
  rw [sampleRoot, sampleMounted, left_of_run hmount, ← hmade]
  rfl

/-- Eight bytes, half of them before the end of the first block. -/
def sampleAcross : Transfer :=
  ⟨mkKuio 100 8 508 .write, fun x => UInt8.ofNat x, fun _ => none, 0⟩

theorem enospc_full_sample : ∃ calls fs fs', calls.map Prod.fst = [.getroot, .creat [97] true] ∧
    Comes calls fs ∧ run (.write 3 sampleAcross) fs = some (.error .enospc, fs') ∧
    (fs'.files.data 3).length = blockSize ∧
    ∀ b < 6, ∃! o, fs'.view.Owns (fun f => f = rootIno ∨ fs'.files.Known f) b o := by
  obtain ⟨calls, hcalls, hroot⟩ := @comes_sample 6 (by decide) (by decide)
  rw [sampleRoot_mounted (by decide) (by decide)] at hroot
  have hnew : FairCall (.creat [97] true) := show 0 ∉ [97] by decide
  have hwrite : FairCall (.write 3 sampleAcross) :=
    ⟨⟨show 8 < 2 ^ 32 by decide, le_rfl⟩, rfl, by decide⟩
  have hready : readyAll (left (run .getroot) (sampleMounted 6)) [.creat [97] true] = true := by
    decide +kernel
  obtain ⟨answers, hanswers, hcomes⟩ := hroot.session (List.forall_mem_singleton.mpr hnew) hready
  have hnext : ready (session (left (run .getroot) (sampleMounted 6)) [.creat [97] true])
      (.write 3 sampleAcross) = true := by decide +kernel
  have hfails : ((run (.write 3 sampleAcross)
      (session (left (run .getroot) (sampleMounted 6)) [.creat [97] true])).any
      fun p => p.1.casesOn (motive := fun _ => Bool)
        (fun e => decide (e = .enospc ∧ (p.2.files.data 3).length = blockSize ∧ p.2.vol.nblocks = 6))
        fun _ => false) = true := by decide +kernel
  generalize session (left (run .getroot) (sampleMounted 6)) [.creat [97] true] = fs
    at hcomes hnext hfails
  have hc : fs.files.Allowed (.write 3 sampleAcross) := hcomes.sound.1.allowed hwrite hnext
  obtain ⟨⟨r, fs'⟩, hrun, hout⟩ := (Option.any_eq_true _ _).mp hfails
  cases r with
  | ok reply => cases hout
  | error e =>
    obtain ⟨rfl, hlen, hsize⟩ := of_decide_eq_true hout
    refine ⟨calls ++ answers, fs, fs', ?_, hcomes, hrun, hlen, fun b hb => ?_⟩
    · rw [List.map_append, hcalls, hanswers]
      rfl
    · exact enospc_full hcomes hc trivial hrun (Nat.lt_of_lt_of_eq hb hsize.symm)

/-- When all files are removed and let go of, no block is in use but those of the system and the directory. -/
theorem space_returns (h : Comes calls fs) (hgone : ∀ f, fs.files.Known f → f = rootIno) (hb : b < fs.vol.nblocks) :
    fs.vol.freemap b = true ↔
      fs.view.System b ∨ b = rootIno ∨ b ≠ 0 ∧ ∃ r, fs.view.ref rootIno r = b := by
  have hsound := h.sound.1
  have hI (f : Nat) : f = rootIno ∨ fs.files.Known f ↔ f = rootIno := or_iff_left_of_imp (hgone f)
  rw [hsound.used_iff hb]
  constructor
  · rintro ⟨o, ho⟩
    cases o with
    | system => exact .inl ho
    | inode => exact .inr (.inl ((hI b).mp ho))
    | file f r =>
      obtain ⟨hf, h0, hr⟩ := ho
      rw [(hI f).mp hf] at hr
      exact .inr (.inr ⟨h0, r, hr⟩)
  · rintro (hsystem | hroot | ⟨h0, r, hr⟩)
    · exact ⟨.system, hsystem⟩
    · exact ⟨.inode, .inl hroot⟩
    · exact ⟨.file rootIno r, .inl rfl, h0, hr⟩

/-- The file loses its second name too, and is closed. -/
def sampleGone : List Call := sampleCalls ++ [.remove [98], .decref 3]

theorem space_returns_sample : ∃ calls fs, calls.map Prod.fst = .getroot :: sampleGone ∧ Comes calls fs ∧
    fs.vol.freemap 5 = false ∧ ∀ b < 4096, (fs.vol.freemap b = true ↔
      fs.view.System b ∨ b = rootIno ∨ b ≠ 0 ∧ ∃ r, fs.view.ref rootIno r = b) := by
  obtain ⟨calls, hcalls, hroot⟩ := @comes_sample 4096 (by decide) (by decide)
  have hfair : ∀ call ∈ sampleGone, FairCall call :=
    List.forall_mem_append.mpr ⟨fair_sampleCalls, List.forall_mem_cons.mpr ⟨trivial, List.forall_mem_singleton.mpr trivial⟩⟩
  have hready : readyAll (sampleRoot 4096) sampleGone = true := by decide +kernel
  obtain ⟨answers, hanswers, hcomes⟩ := hroot.session hfair hready
  have hopen : (session (sampleRoot 4096) sampleGone).vnodes = [rootIno] := by decide +kernel
  have hslots : (session (sampleRoot 4096) sampleGone).slots.all Option.isNone = true := by decide +kernel
  have hblocks : (session (sampleRoot 4096) sampleGone).vol.nblocks = 4096 := by decide +kernel
  have hfree : (session (sampleRoot 4096) sampleGone).vol.freemap 5 = false := by decide +kernel
  generalize session (sampleRoot 4096) sampleGone = fs at hcomes hopen hslots hblocks hfree
  have hgone : ∀ f, fs.files.Known f → f = rootIno := by
    intro f hf
    rcases hcomes.sound.1.isInode_iff.mpr (.inr hf) with hroot | hmem | hnamed
    · exact hroot
    · rw [hopen] at hmem
      exact List.mem_singleton.mp hmem
    · obtain ⟨k, name, hat⟩ := SlotTable.uses_pos.mp hnamed
      have hnone := List.all_eq_true.mp hslots _ (List.mem_of_getElem? hat)
      cases hnone
  refine ⟨calls ++ answers, fs, ?_, hcomes, hfree, fun b hb => space_returns hcomes hgone (hblocks.symm ▸ hb)⟩
  rw [List.map_append, hcalls, hanswers]
  rfl

end

end SfsFs

end CseOs.Kernel.Sfs
