import CseOs.Framework.Transition
import CseOs.Kernel.Errno
import Mathlib.Data.List.Perm.Basic

/-!
# The table of named devices

A device answers to its name, to its raw name and, once a filesystem is mounted on it, to the
volume name of that filesystem. `vfs_adddev` and `vfs_addfs` check all three for a new entry;
`vfs_mount` brings in a volume name and checks nothing.
-/

namespace CseOs.Kernel.Vfs

open Framework

/-- A filesystem object and what `FSOP_GETVOLNAME` says of it. -/
structure Fs where
  id : Nat
  volname : Option String
deriving DecidableEq

structure KnownDev where
  name : String
  rawname : Option String
  device : Option Nat
  fs : Option Fs
deriving DecidableEq

abbrev KnownDevs := List KnownDev

/-- What `vfs_getroot` hands back. A failed assertion is `panic`. -/
inductive Root where
  | fs (f : Fs)
  | device (d : Nat)
  | error (e : Errno)
  | panic
deriving DecidableEq

def deviceRoot : Option Nat → Root
  | some d => .device d
  | none => .panic

/-- One round of the loop of `vfs_getroot`; `none` goes on to the next entry. -/
def KnownDev.root (kd : KnownDev) (devname : String) : Option Root :=
  let mounted : Option Root :=
    match kd.fs with
    | some f => if kd.name = devname ∨ f.volname = some devname then some (.fs f) else none
    | none => if kd.rawname.isSome ∧ kd.name = devname then some (.error .enxio) else none
  let itself : Option Root :=
    if kd.name = devname then
      some (if kd.fs.isNone ∧ kd.rawname.isNone then deviceRoot kd.device else .panic)
    else none
  let raw : Option Root :=
    if kd.rawname = some devname then some (deviceRoot kd.device) else none
  mounted <|> itself <|> raw

def vfsGetroot (table : KnownDevs) (devname : String) : Root :=
  (table.findSome? (·.root devname)).getD (.error .enodev)

def mkrawname (name : String) : String := name ++ "raw"

def samestring : Option String → Option String → Bool
  | some a, some b => a = b
  | _, _ => false

def samestring3 (a b c d : Option String) : Bool :=
  samestring a b || samestring a c || samestring a d

def KnownDev.volname (kd : KnownDev) : Option String := kd.fs.bind Fs.volname

def badnames (table : KnownDevs) (n1 n2 n3 : Option String) : Bool :=
  table.any fun kd =>
    samestring3 kd.volname n1 n2 n3 || samestring3 kd.rawname n1 n2 n3 ||
      samestring3 (some kd.name) n1 n2 n3

/-- Which of the allocations of `vfs_doadd` succeed; `grow` is the one in `array_add`. -/
structure AddMemory where
  name : Bool
  rawname : Bool
  vnode : Bool
  kd : Bool
  grow : Bool

/-- The error returned, if any, and the table after the call. -/
abbrev Result := Option Errno × KnownDevs

def vfsDoadd (dname : String) (mountable : Bool) (dev : Option Nat) (fs : Option Fs)
    (mem : AddMemory) (table : KnownDevs) : Result :=
  if ¬ mem.name ∨ (mountable ∧ ¬ mem.rawname) ∨ ¬ mem.vnode ∨ ¬ mem.kd then (some .enomem, table)
  else
    let rawname := if mountable then some (mkrawname dname) else none
    let kd : KnownDev := { name := dname, rawname := rawname, device := dev, fs := fs }
    if badnames table (some dname) rawname (fs.bind Fs.volname) then (some .eexist, table)
    else if mem.grow then (none, table ++ [kd])
    else (some .enomem, table)

def vfsAdddev (devname : String) (dev : Nat) (mountable : Bool) : AddMemory → KnownDevs → Result :=
  vfsDoadd devname mountable (some dev) none

def vfsAddfs (devname : String) (fs : Fs) : AddMemory → KnownDevs → Result :=
  vfsDoadd devname false none (some fs)

def findmount (table : KnownDevs) (devname : String) : Option Nat :=
  table.findIdx? fun kd => kd.rawname.isSome && kd.name = devname

/-- The mount function is called on the device of the entry; `none` is a failed assertion. -/
def vfsMount (devname : String) (mountfunc : Nat → Except Errno Fs) (table : KnownDevs) :
    Option Result :=
  match findmount table devname with
  | none => some (some .enodev, table)
  | some i => do
    let kd ← table[i]?
    if kd.fs.isSome then some (some .ebusy, table)
    else
      let dev ← kd.device
      match mountfunc dev with
      | .error e => some (some e, table)
      | .ok fs => some (none, table.set i { kd with fs := some fs })

/-- `FSOP_SYNC` and `FSOP_UNMOUNT` return the two given results. -/
def vfsUnmount (devname : String) (synced unmounted : Option Errno) (table : KnownDevs) :
    Option Result :=
  match findmount table devname with
  | none => some (some .enodev, table)
  | some i => do
    let kd ← table[i]?
    if kd.fs.isNone then some (some .einval, table)
    else
      let _ ← kd.device
      match synced with
      | some e => some (some e, table)
      | none =>
        match unmounted with
        | some e => some (some e, table)
        | none => some (none, table.set i { kd with fs := none })

/-- A call on the device table, with what the code outside the table answers. -/
inductive Call where
  | vfsAdddev (devname : String) (dev : Nat) (mountable : Bool) (mem : AddMemory)
  | vfsAddfs (devname : String) (fs : Fs) (mem : AddMemory)
  | vfsMount (devname : String) (mountfunc : Nat → Except Errno Fs)
  | vfsUnmount (devname : String) (synced unmounted : Option Errno)

def Call.perform : Call → KnownDevs → Option Result
  | .vfsAdddev devname dev mountable mem, table => some (Vfs.vfsAdddev devname dev mountable mem table)
  | .vfsAddfs devname fs mem, table => some (Vfs.vfsAddfs devname fs mem table)
  | .vfsMount devname mountfunc, table => Vfs.vfsMount devname mountfunc table
  | .vfsUnmount devname synced unmounted, table => Vfs.vfsUnmount devname synced unmounted table

def step (c : Call) (table : KnownDevs) : Option KnownDevs := (c.perform table).map Prod.snd

/-- The entry goes by this name. -/
def KnownDev.Answers (kd : KnownDev) (n : String) : Prop :=
  kd.name = n ∨ kd.rawname = some n ∨ kd.volname = some n

/-- No name is shared by two entries. -/
def Unambiguous (table : KnownDevs) : Prop :=
  table.Pairwise fun a b => ∀ n, ¬ (a.Answers n ∧ b.Answers n)

/-- The order of the table does not matter to `vfs_getroot`. -/
def OrderFree (table : KnownDevs) : Prop :=
  ∀ table', table.Perm table' → ∀ devname, vfsGetroot table devname = vfsGetroot table' devname

variable {table table' : KnownDevs} {kd kd' : KnownDev} {n : String}

private theorem KnownDev.root_eq_none (h : ¬ kd.Answers n) : kd.root n = none := by
  have hname : kd.name ≠ n := fun hn => h (Or.inl hn)
  have hraw : kd.rawname ≠ some n := fun hn => h (Or.inr (Or.inl hn))
  have hvol : ∀ f, kd.fs = some f → f.volname ≠ some n := fun f hf hn =>
    h (Or.inr (Or.inr (by rw [KnownDev.volname, hf]; exact hn)))
  simp only [root, hname, hraw, if_false, and_false, false_or]
  cases hfs : kd.fs with
  | none => rfl
  | some f => simp only [hvol f hfs, if_false]; rfl

theorem findSome_root_perm (h : Unambiguous table) (hp : table.Perm table') :
    table.findSome? (·.root n) = table'.findSome? (·.root n) := by
  induction hp with
  | nil => rfl
  | cons a _ ih =>
    simp only [List.findSome?_cons]
    rw [ih (List.pairwise_cons.mp h).2]
  | swap a b l =>
    have hab : ¬ (b.Answers n ∧ a.Answers n) :=
      (List.pairwise_cons.mp h).1 a List.mem_cons_self n
    simp only [List.findSome?_cons]
    by_cases ha : a.Answers n
    · rw [KnownDev.root_eq_none fun hb => hab ⟨hb, ha⟩]
    · rw [KnownDev.root_eq_none ha]
  | trans hp _ ih ih' =>
    have hsymm : ∀ a b : KnownDev, (∀ n, ¬ (a.Answers n ∧ b.Answers n)) →
        ∀ n, ¬ (b.Answers n ∧ a.Answers n) := fun a b hab n hba => hab n hba.symm
    rw [ih h, ih' ((hp.pairwise_iff fun {a b} => hsymm a b).mp h)]

private theorem Unambiguous.orderFree (h : Unambiguous table) : OrderFree table := fun _ hp devname => by
  rw [vfsGetroot, vfsGetroot, findSome_root_perm h hp]

private theorem unambiguous_iff : Unambiguous table ↔ ∀ (i j : Nat) (a b : KnownDev),
    table[i]? = some a → table[j]? = some b → i ≠ j → ∀ n, ¬ (a.Answers n ∧ b.Answers n) := by
  rw [Unambiguous, List.pairwise_iff_getElem]
  constructor
  · intro h i j a b hi hj hne n hn
    obtain ⟨hli, rfl⟩ := List.getElem?_eq_some_iff.mp hi
    obtain ⟨hlj, rfl⟩ := List.getElem?_eq_some_iff.mp hj
    cases Nat.lt_or_gt_of_ne hne with
    | inl hlt => exact h i j hli hlj hlt n hn
    | inr hgt => exact h j i hlj hli hgt n hn.symm
  · intro h i j hi hj hlt
    exact h i j _ _ (List.getElem?_eq_getElem hi) (List.getElem?_eq_getElem hj) (Nat.ne_of_lt hlt)

theorem unambiguous_set {i : Nat} (h : Unambiguous table) (hi : table[i]? = some kd) :
    Unambiguous (table.set i kd') ↔
      ∀ n, kd'.Answers n → ∀ j b, table[j]? = some b → j ≠ i → ¬ b.Answers n := by
  obtain ⟨hlt, -⟩ := List.getElem?_eq_some_iff.mp hi
  rw [unambiguous_iff] at h ⊢
  constructor
  · intro hset n hn j b hj hne hb
    apply hset i j kd' b (List.getElem?_set_self hlt) _ (Ne.symm hne) n ⟨hn, hb⟩
    rw [List.getElem?_set_ne (Ne.symm hne)]
    exact hj
  · intro hfree j k a b hj hk hne n hn
    by_cases hji : i = j
    · subst hji
      rw [List.getElem?_set_self hlt] at hj
      rw [List.getElem?_set_ne hne] at hk
      cases hj
      exact hfree n hn.1 k b hk (Ne.symm hne) hn.2
    · rw [List.getElem?_set_ne hji] at hj
      by_cases hki : i = k
      · subst hki
        rw [List.getElem?_set_self hlt] at hk
        cases hk
        exact hfree n hn.2 j a hj (Ne.symm hji) hn.1
      · rw [List.getElem?_set_ne hki] at hk
        exact h j k a b hj hk hne n hn

private theorem samestring_self {a b : Option String} (ha : a = some n) (hb : b = some n) :
    samestring a b = true := by
  rw [ha, hb]
  exact decide_eq_true rfl

private theorem badnames_of_answers {n1 n2 n3 : Option String} (hkd : kd ∈ table) (h : kd.Answers n)
    (hn : n1 = some n ∨ n2 = some n ∨ n3 = some n) : badnames table n1 n2 n3 = true := by
  have hsame : ∀ a, a = some n → samestring3 a n1 n2 n3 = true := by
    intro a ha
    rw [samestring3]
    cases hn with
    | inl h1 => rw [samestring_self ha h1, Bool.true_or, Bool.true_or]
    | inr h23 =>
      cases h23 with
      | inl h2 => rw [samestring_self ha h2, Bool.or_true, Bool.true_or]
      | inr h3 => rw [samestring_self ha h3, Bool.or_true]
  rw [badnames, List.any_eq_true]
  refine ⟨kd, hkd, ?_⟩
  cases h with
  | inl hname => rw [hsame (some kd.name) (congrArg some hname), Bool.or_true]
  | inr hrest =>
    cases hrest with
    | inl hraw => rw [hsame kd.rawname hraw, Bool.or_true, Bool.true_or]
    | inr hvol => rw [hsame kd.volname hvol, Bool.true_or, Bool.true_or]

/-- A filesystem that is mounted brings in no name that another entry goes by. -/
def MountsFresh (table : KnownDevs) : Call → Prop
  | .vfsMount devname mountfunc => ∀ i kd dev fs v, findmount table devname = some i →
      table[i]? = some kd → kd.fs = none → kd.device = some dev → mountfunc dev = .ok fs →
      fs.volname = some v → ∀ j kd', table[j]? = some kd' → j ≠ i → ¬ kd'.Answers v
  | _ => True

theorem vfsDoadd_unambiguous (h : Unambiguous table) (dname : String) (mountable : Bool)
    (dev : Option Nat) (fs : Option Fs) (mem : AddMemory) :
    Unambiguous (vfsDoadd dname mountable dev fs mem table).2 := by
  rw [vfsDoadd]
  split
  · exact h
  · generalize (if mountable = true then some (mkrawname dname) else none) = rawname
    simp only
    split
    · exact h
    · next hgood =>
      split
      · rw [Unambiguous, List.pairwise_append]
        refine ⟨h, List.pairwise_singleton _ _, ?_⟩
        intro a ha b hb n hn
        rw [List.mem_singleton.mp hb] at hn
        apply hgood
        apply badnames_of_answers ha hn.1
        cases hn.2 with
        | inl hname => exact Or.inl (congrArg some hname)
        | inr hrest => exact Or.inr hrest
      · exact h

private theorem vfsMount_unambiguous {devname : String} {mountfunc : Nat → Except Errno Fs} {r : Result}
    (h : Unambiguous table) (hr : vfsMount devname mountfunc table = some r) :
    Unambiguous r.2 ↔ MountsFresh table (.vfsMount devname mountfunc) := by
  rw [vfsMount] at hr
  cases hfind : findmount table devname with
  | none =>
    rw [hfind] at hr
    cases hr
    refine ⟨fun _ i kd dev fs v hi => ?_, fun _ => h⟩
    rw [hfind] at hi
    cases hi
  | some i =>
    rw [hfind] at hr
    simp only [Option.bind_eq_bind, Option.bind_eq_some_iff] at hr
    obtain ⟨kd, hi, hr⟩ := hr
    have hcond : MountsFresh table (.vfsMount devname mountfunc) ↔ ∀ dev fs v, kd.fs = none →
        kd.device = some dev → mountfunc dev = .ok fs → fs.volname = some v →
        ∀ j kd', table[j]? = some kd' → j ≠ i → ¬ kd'.Answers v := by
      constructor
      · intro hm dev fs v
        exact hm i kd dev fs v hfind hi
      · intro hm i' kd' dev fs v hi' hkd'
        rw [hfind] at hi'
        cases hi'
        rw [hi] at hkd'
        cases hkd'
        exact hm dev fs v
    rw [hcond]
    split at hr
    · next hbusy =>
      cases hr
      refine ⟨fun _ dev fs v hnone => ?_, fun _ => h⟩
      rw [hnone] at hbusy
      cases hbusy
    · next hfree =>
      have hnone : kd.fs = none := by simpa using hfree
      rw [Option.bind_eq_some_iff] at hr
      obtain ⟨dev, hdev, hr⟩ := hr
      cases hm : mountfunc dev with
      | error e =>
        rw [hm] at hr
        cases hr
        refine ⟨fun _ dev' fs v _ hdev' hok => ?_, fun _ => h⟩
        rw [hdev] at hdev'
        cases hdev'
        rw [hm] at hok
        cases hok
      | ok fs =>
        rw [hm] at hr
        cases hr
        rw [unambiguous_set h hi]
        constructor
        · intro hset dev' fs' v _ hdev' hok hv j kd' hj hne
          rw [hdev] at hdev'
          cases hdev'
          rw [hm] at hok
          cases hok
          exact hset v (Or.inr (Or.inr hv)) j kd' hj hne
        · intro hfresh n hn j b hj hne hb
          have hold := unambiguous_iff.mp h i j kd b hi hj (Ne.symm hne) n
          cases hn with
          | inl hname => exact hold ⟨Or.inl hname, hb⟩
          | inr hrest =>
            cases hrest with
            | inl hraw => exact hold ⟨Or.inr (Or.inl hraw), hb⟩
            | inr hvol => exact hfresh dev fs n hnone hdev hm hvol j b hj hne hb

private theorem vfsUnmount_unambiguous {devname : String} {synced unmounted : Option Errno} {r : Result}
    (h : Unambiguous table) (hr : vfsUnmount devname synced unmounted table = some r) :
    Unambiguous r.2 := by
  rw [vfsUnmount] at hr
  cases hfind : findmount table devname with
  | none =>
    rw [hfind] at hr
    cases hr
    exact h
  | some i =>
    rw [hfind] at hr
    simp only [Option.bind_eq_bind, Option.bind_eq_some_iff] at hr
    obtain ⟨kd, hi, hr⟩ := hr
    split at hr
    · cases hr
      exact h
    · obtain ⟨dev, -, hr⟩ := Option.bind_eq_some_iff.mp hr
      cases synced with
      | some e =>
        cases hr
        exact h
      | none =>
        cases unmounted with
        | some e =>
          cases hr
          exact h
        | none =>
          cases hr
          rw [unambiguous_set h hi]
          intro n hn j b hj hne hb
          have hkd : kd.Answers n := by
            cases hn with
            | inl hname => exact Or.inl hname
            | inr hrest =>
              cases hrest with
              | inl hraw => exact Or.inr (Or.inl hraw)
              | inr hvol => cases hvol
          exact unambiguous_iff.mp h i j kd b hi hj (Ne.symm hne) n ⟨hkd, hb⟩

private theorem step_unambiguous {c : Call} (h : Unambiguous table) (hs : step c table = some table') :
    Unambiguous table' ↔ MountsFresh table c := by
  obtain ⟨r, hr, rfl⟩ := Option.map_eq_some_iff.mp hs
  cases c with
  | vfsAdddev devname dev mountable mem =>
    cases hr
    exact ⟨fun _ => trivial, fun _ => vfsDoadd_unambiguous h _ _ _ _ _⟩
  | vfsAddfs devname fs mem =>
    cases hr
    exact ⟨fun _ => trivial, fun _ => vfsDoadd_unambiguous h _ _ _ _ _⟩
  | vfsMount devname mountfunc => exact vfsMount_unambiguous h hr
  | vfsUnmount devname synced unmounted =>
    exact ⟨fun _ => trivial, fun _ => vfsUnmount_unambiguous h hr⟩

/-- In a run from the empty table no name is ever answered by two entries, and the order of the
table never matters, exactly if no mount brings in a volume name that another entry goes by. -/
theorem device_names_unambiguous (calls : List Call) :
    EveryState step (fun table => Unambiguous table ∧ OrderFree table) calls [] ↔
      EveryStep step MountsFresh calls [] := by
  apply everyState_iff_everyStep step
  · intro table c table' h hs
    rw [← step_unambiguous h.1 hs]
    exact ⟨fun h' => h'.1, fun h' => ⟨h', h'.orderFree⟩⟩
  · exact ⟨List.Pairwise.nil, Unambiguous.orderFree List.Pairwise.nil⟩

def enoughMemory : AddMemory := ⟨true, true, true, true, true⟩

/-- The console, and a disk whose volume is called `con`. -/
def consoleVolume : List Call :=
  [.vfsAdddev "con" 0 false enoughMemory, .vfsAdddev "lhd0" 1 true enoughMemory,
    .vfsMount "lhd0" fun _ => .ok ⟨0, some "con"⟩]

/-- Both entries answer to `con`, and the order of the table decides what it is. -/
theorem volume_named_as_device :
    (consoleVolume.foldlM (fun table c => step c table) []) =
      some [⟨"con", none, some 0, none⟩, ⟨"lhd0", some "lhd0raw", some 1, some ⟨0, some "con"⟩⟩] ∧
    vfsGetroot [⟨"con", none, some 0, none⟩,
      ⟨"lhd0", some "lhd0raw", some 1, some ⟨0, some "con"⟩⟩] "con" = .device 0 ∧
    vfsGetroot [⟨"lhd0", some "lhd0raw", some 1, some ⟨0, some "con"⟩⟩,
      ⟨"con", none, some 0, none⟩] "con" = .fs ⟨0, some "con"⟩ ∧
    ¬ EveryState step (fun table => Unambiguous table ∧ OrderFree table) consoleVolume [] := by
  refine ⟨by decide +kernel, by decide +kernel, by decide +kernel, fun hrun => ?_⟩
  have hlast := (((hrun.2 _ rfl).2 _ rfl).2 _ rfl).1
  apply unambiguous_iff.mp hlast 0 1 _ _ rfl rfl (by decide) "con"
  exact ⟨Or.inl rfl, Or.inr (Or.inr rfl)⟩

end CseOs.Kernel.Vfs
