import CseOs.Kernel.Vm.Pmem

/-!
# Pages that are handed out

A range of pages is taken when it was stolen before `vm_bootstrap` or is a run of the inverted
page table. Ranges are given by their kernel address and their number of pages, the way
`alloc_kpages` and `free_kpages` name them. A grant is apart from every taken range, and a
release leaves the others taken.
-/

namespace CseOs.Kernel

open Framework

/-- Two ranges of pages share no byte. -/
def RangesApart (a n b k : Nat) : Prop := a + n * pageSize ≤ b ∨ b + k * pageSize ≤ a

theorem RangesApart.symm {a n b k : Nat} (h : RangesApart a n b k) : RangesApart b k a n :=
  Or.symm h

namespace Pmem

/-- The kernel address of page `j`. -/
def kvPage (pm : Pmem) (j : Nat) : Nat := mipsKseg0 + pm.pageAddr j

/-- Memory below this address is not for the inverted page table to manage. -/
def floor (pm : Pmem) : Nat := if pm.bootstrapped then pm.lo else pm.firstpaddr

/-- The range lies in the memory that was stolen before `vm_bootstrap`. -/
def Stolen (pm : Pmem) (a n : Nat) : Prop :=
  mipsKseg0 + 2 * pageSize ≤ a ∧ a % pageSize = 0 ∧ 0 < n ∧
    a + n * pageSize ≤ mipsKseg0 + pm.floor

/-- The range is a run of the inverted page table. -/
def Extent (pm : Pmem) (a n : Nat) : Prop :=
  pm.bootstrapped = true ∧ 0 < n ∧ ∃ j, a = pm.kvPage j ∧ pm.ipt j = n

def Taken (pm : Pmem) (a n : Nat) : Prop := pm.Stolen a n ∨ pm.Extent a n

/-- Every release so far named the first page of a run. -/
def CleanTrace (pm : Pmem) : Prop :=
  ∀ page len, PageEvent.free page len ∈ pm.trace → page < pm.systemPages ∧ 0 < len

/-- The allocator after `vm_bootstrap`, when it was only used as its comments ask. -/
structure Ruled (pm : Pmem) : Prop extends Managed pm where
  lo_above : 2 * pageSize ≤ pm.lo
  tight : ∀ i, 0 < pm.ipt i → i + pm.ipt i < pm.systemPages
  clean : pm.CleanTrace

def Ok (pm : Pmem) : Prop := pm.PreBoot ∨ pm.Ruled

/-- The request can be met. -/
def Fits (pm : Pmem) (n : Nat) : Prop :=
  if pm.bootstrapped then pm.HasRoom n else pm.firstpaddr + n * pageSize ≤ pm.lastpaddr

variable {pm pm' : Pmem} {a b n k : Nat}

theorem kvPage_injective {i j : Nat} (h : pm.kvPage i = pm.kvPage j) : i = j := by
  apply pageAddr_injective
  simpa [kvPage] using h

theorem Extent.inside (h : pm.Extent a n) (hr : pm.Ruled) :
    mipsKseg0 + pm.lo ≤ a ∧ a % pageSize = 0 ∧ a + n * pageSize ≤ 0xa0000000 := by
  obtain ⟨_, hn, j, rfl, hj⟩ := h
  have hin := hr.wf.inside j (by omega)
  have htop := hr.top
  have hal := hr.lo_aligned
  simp only [kvPage, pageAddr, pageSize, mipsKseg0] at *
  omega

theorem Taken.bounds (h : pm.Taken a n) (hok : pm.Ok) :
    mipsKseg0 + 2 * pageSize ≤ a ∧ a % pageSize = 0 ∧ 0 < n ∧ a + n * pageSize ≤ 0xa0000000 := by
  cases h with
  | inl hs =>
      obtain ⟨hlo, hal, hn, hhi⟩ := hs
      refine ⟨hlo, hal, hn, ?_⟩
      cases hok with
      | inl hp =>
          have h1 := hp.ordered
          have h2 := hp.last_le
          simp only [floor, hp.raw, mipsKseg0] at hhi
          simp only [Bool.false_eq_true, if_false] at hhi
          omega
      | inr hr =>
          have h1 := hr.top
          simp only [floor, hr.booted, if_true, mipsKseg0, pageAddr] at hhi h1
          omega
  | inr he =>
      cases hok with
      | inl hp =>
          have h1 := he.1
          rw [hp.raw] at h1
          cases h1
      | inr hr =>
          have h1 := he.inside hr
          have h2 := hr.lo_above
          exact ⟨by omega, h1.2.1, he.2.1, h1.2.2⟩

private theorem taken_congr (hb : pm'.bootstrapped = pm.bootstrapped) (hl : pm'.lo = pm.lo)
    (hf : pm'.firstpaddr = pm.firstpaddr) (hi : pm'.ipt = pm.ipt) :
    pm'.Taken a n ↔ pm.Taken a n := by
  simp only [Taken, Stolen, Extent, floor, kvPage, pageAddr, hb, hl, hf, hi]

/-- No request of the calls between the two states was refused. -/
def Quiet (pm pm' : Pmem) : Prop :=
  ∃ evs, pm'.trace = pm.trace ++ evs ∧ ∀ n, PageEvent.nospace n ∉ evs

theorem Quiet.of_eq (h : pm'.trace = pm.trace) : Quiet pm pm' :=
  ⟨[], by rw [h, List.append_nil], fun _ => List.not_mem_nil⟩

theorem Quiet.trans {pm'' : Pmem} (h : Quiet pm pm') (h' : Quiet pm' pm'') : Quiet pm pm'' := by
  obtain ⟨evs, he, hno⟩ := h
  obtain ⟨evs', he', hno'⟩ := h'
  refine ⟨evs ++ evs', by rw [he', he, List.append_assoc], fun n hn => ?_⟩
  cases List.mem_append.mp hn with
  | inl hl => exact hno n hl
  | inr hr => exact hno' n hr

/-- What a granted request for `n` pages at `a` leaves. -/
structure Granted (pm pm' : Pmem) (a n : Nat) : Prop where
  ok : pm'.Ok
  taken : pm'.Taken a n
  others : ∀ b k, pm.Taken b k → pm'.Taken b k ∧ RangesApart a n b k
  extents : ∀ b k, pm.Extent b k → pm'.Extent b k
  extent : pm.bootstrapped = true → pm'.Extent a n
  booted : pm'.bootstrapped = pm.bootstrapped
  lo : pm'.lo = pm.lo
  pages : pm'.systemPages = pm.systemPages
  log : pm.bootstrapped = true → ∃ j, a = pm.kvPage j ∧ pm.ipt.FreeRun j n ∧
    pm'.trace = pm.trace ++ [.alloc j n] ∧ pm'.ipt = pm.ipt.mark j n
  quiet : Quiet pm pm'

private theorem stolen_extent_apart (hr : pm.Ruled) (hs : pm.Stolen b k) {j : Nat} :
    RangesApart (pm.kvPage j) n b k := by
  right
  obtain ⟨_, _, _, hhi⟩ := hs
  simp only [floor, hr.booted, if_true] at hhi
  simp only [kvPage, pageAddr]
  omega

theorem Ruled.allocKpages_granted (hr : pm.Ruled) (hn : 0 < n) (hroom : pm.HasRoom n) :
    Granted pm (pm.allocKpages n).2 (pm.allocKpages n).1 n := by
  have hm := hr.toManaged
  rw [hm.allocKpages_eq]
  rcases allocPpages_cases hm.wf hm.top_lt hn with ⟨hno, _⟩ | ⟨_, j, hj, hfree, _, he⟩
  · exact absurd hroom hno
  · have hz : pm.ipt j = 0 := hfree.entry_zero (le_refl j) (by omega)
    have hkv : paddrToKvaddr (pm.pageAddr j) = pm.kvPage j := by
      rw [(hm.kvaddr_roundTrip (by omega : j < pm.systemPages)).1, kvPage, Nat.add_comm]
    have hm' : (pm.allocPpages n).2.Managed := hm.allocPpages hn
    rw [he] at hm' ⊢
    simp only [hkv]
    have hkeep (b k : Nat) (hb : pm.Extent b k) : Pmem.Extent { pm with
        ipt := pm.ipt.mark j n
        availPages := pm.availPages - n
        trace := pm.trace ++ [.alloc j n] } b k := by
      obtain ⟨_, hk, i, hi, hik⟩ := hb
      have hij : i ≠ j := by
        rintro rfl
        omega
      exact ⟨hm.booted, hk, i, hi, by simpa [RunTable.mark_of_ne hij] using hik⟩
    have hnew : Pmem.Extent { pm with
        ipt := pm.ipt.mark j n
        availPages := pm.availPages - n
        trace := pm.trace ++ [.alloc j n] } (pm.kvPage j) n :=
      ⟨hm.booted, hn, j, rfl, by simp⟩
    refine ⟨.inr ⟨hm', hr.lo_above, ?_, ?_⟩, .inr hnew, ?_, hkeep, fun _ => hnew, rfl, rfl, rfl,
      fun _ => ⟨j, rfl, hfree, rfl, rfl⟩, [.alloc j n], rfl, fun _ => by simp⟩
    · intro i hi
      by_cases hij : i = j
      · subst hij
        simpa using hj
      · simp only [RunTable.mark_of_ne hij] at hi ⊢
        exact hr.tight i hi
    · intro page len hmem
      simp only [List.mem_append, List.mem_singleton, reduceCtorEq, or_false] at hmem
      exact hr.clean page len hmem
    · intro b k hb
      cases hb with
      | inl hs =>
          exact ⟨.inl hs, stolen_extent_apart hr hs⟩
      | inr hb =>
          refine ⟨.inr (hkeep b k hb), ?_⟩
          obtain ⟨_, hk, i, rfl, hik⟩ := hb
          have hsep : i + k ≤ j ∨ j + n ≤ i := by
            by_contra hno
            rcases Nat.lt_or_ge i j with hlt | hge
            · exact hfree j (le_refl j) (by omega) ⟨i, by omega, by omega⟩
            · exact hfree i hge (by omega) ⟨i, le_refl i, by omega⟩
          simp only [RangesApart, kvPage, pageAddr, pageSize]
          omega

private theorem PreBoot.allocKpages_granted (hp : pm.PreBoot) (hn : 0 < n)
    (hfit : pm.firstpaddr + n * pageSize ≤ pm.lastpaddr) :
    Granted pm (pm.allocKpages n).2 (pm.allocKpages n).1 n := by
  have hlast := hp.last_le
  have hfirst := hp.first_pos
  have hal := hp.first_aligned
  have hsize : n * pageSize % 2 ^ 32 = n * pageSize := Nat.mod_eq_of_lt (by omega)
  have hsum : (pm.firstpaddr + n * pageSize) % 2 ^ 32 = pm.firstpaddr + n * pageSize :=
    Nat.mod_eq_of_lt (by omega)
  have hkv : paddrToKvaddr pm.firstpaddr = mipsKseg0 + pm.firstpaddr := by
    have hlt : pm.firstpaddr < 0x80000000 := by omega
    simp only [paddrToKvaddr, mipsKseg0]
    omega
  have hsteal : pm.ramStealmem n =
      (pm.firstpaddr, { pm with firstpaddr := pm.firstpaddr + n * pageSize }) := by
    have hle : ¬ pm.lastpaddr < pm.firstpaddr + n * pageSize := by omega
    simp only [Pmem.ramStealmem, hsize, hsum, if_neg hle]
  have hpre : (pm.ramStealmem n).2.PreBoot := hp.ramStealmem (by omega)
  have hres : pm.allocKpages n = (mipsKseg0 + pm.firstpaddr,
      { pm with firstpaddr := pm.firstpaddr + n * pageSize }) := by
    simp only [allocKpages, hp.raw, hsteal, hkv, Bool.false_eq_true, if_false]
  rw [hsteal] at hpre
  rw [hres]
  have hfloor : pm.floor = pm.firstpaddr := by simp [floor, hp.raw]
  have hfloor' : floor { pm with firstpaddr := pm.firstpaddr + n * pageSize } =
      pm.firstpaddr + n * pageSize := by simp [floor, hp.raw]
  have hnone (b k : Nat) : ¬ pm.Extent b k := by
    intro hb
    have h1 := hb.1
    rw [hp.raw] at h1
    cases h1
  refine ⟨.inl hpre, .inl ⟨by simp only; omega, ?_, hn, ?_⟩, ?_, fun b k hb => absurd hb (hnone b k),
    fun hb => ?_, rfl, rfl, rfl, fun hb => ?_, .of_eq rfl⟩
  · simp only [mipsKseg0, pageSize] at *
    omega
  · simp only [hfloor']
    omega
  · intro b k hb
    obtain ⟨hlo, hba, hk, hhi⟩ := hb.resolve_right (hnone b k)
    rw [hfloor] at hhi
    exact ⟨.inl ⟨hlo, hba, hk, by rw [hfloor']; omega⟩, .inr (by simp only; omega)⟩
  · rw [hp.raw] at hb
    cases hb
  · rw [hp.raw] at hb
    cases hb

theorem Ok.allocKpages_granted (hok : pm.Ok) (hn : 0 < n) (hfit : pm.Fits n) :
    Granted pm (pm.allocKpages n).2 (pm.allocKpages n).1 n := by
  cases hok with
  | inl hp =>
      simp only [Fits, hp.raw, Bool.false_eq_true, if_false] at hfit
      exact hp.allocKpages_granted hn hfit
  | inr hr =>
      simp only [Fits, hr.booted, if_true] at hfit
      exact hr.allocKpages_granted hn hfit

/-- The answer of `alloc_ppages` is the physical address of what `alloc_kpages` answers. -/
theorem Ruled.allocPpages_granted (hr : pm.Ruled) (hn : 0 < n) (hroom : pm.HasRoom n) :
    (pm.allocPpages n).1 ≠ 0 ∧ (pm.allocPpages n).1 < 0x20000000 ∧
      mipsKseg0 + (pm.allocPpages n).1 = (pm.allocKpages n).1 ∧
      (pm.allocPpages n).2 = (pm.allocKpages n).2 := by
  have hm := hr.toManaged
  rw [hm.allocKpages_eq]
  rcases allocPpages_cases hm.wf hm.top_lt hn with ⟨hno, _⟩ | ⟨_, j, hj, hfree, _, he⟩
  · exact absurd hroom hno
  · have hjs : j < pm.systemPages := by omega
    have hb := hm.pageAddr_bounds hjs
    have hkv := (hm.kvaddr_roundTrip hjs).1
    simp only [he, hkv, pageSize] at *
    exact ⟨by omega, by omega, by omega, trivial⟩

/-- Two pages can be granted one after the other. -/
def RoomForTwo (pm : Pmem) : Prop :=
  ∃ i j, i ≠ j ∧ i + 1 < pm.systemPages ∧ j + 1 < pm.systemPages ∧
    pm.ipt.FreeRun i 1 ∧ pm.ipt.FreeRun j 1

theorem RoomForTwo.after_grant (h : pm.RoomForTwo) (hg : Granted pm pm' a 1)
    (hb : pm.bootstrapped = true) : pm'.HasRoom 1 := by
  obtain ⟨k, _, hfree, _, hipt⟩ := hg.log hb
  obtain ⟨i, j, hij, hi, hj, hfi, hfj⟩ := h
  have hstill (x : Nat) (hx : x ≠ k) (hfx : pm.ipt.FreeRun x 1) : pm'.ipt.FreeRun x 1 := by
    intro c hlo hhi
    rw [hipt, RunTable.covered_mark_free (by decide) hfree]
    rintro (hc | ⟨h1, h2⟩)
    · exact hfx c hlo hhi hc
    · omega
  by_cases hik : i = k
  · exact ⟨j, by rw [hg.pages]; exact hj, hstill j (fun he => hij (hik.trans he.symm)) hfj⟩
  · exact ⟨i, by rw [hg.pages]; exact hi, hstill i hik hfi⟩

theorem Ruled.allocKpages_refused (hr : pm.Ruled) (hn : 0 < n) (hno : ¬ pm.HasRoom n) :
    pm.allocKpages n = (mipsKseg0, { pm with
      availPages := pm.availPages - n
      trace := pm.trace ++ [.nospace n] }) := by
  have hm := hr.toManaged
  rw [hm.allocKpages_eq]
  rcases allocPpages_cases hm.wf hm.top_lt hn with ⟨_, he⟩ | ⟨hroom, _⟩
  · have hz : paddrToKvaddr 0 = mipsKseg0 := by decide
    rw [he]
    simp only [hz]
  · exact absurd hroom hno

private theorem Ruled.bump (hr : pm.Ruled) (i : Int) (n : Nat) :
    Ruled { pm with availPages := i, trace := pm.trace ++ [.nospace n] } := by
  refine ⟨hr.toManaged.congr rfl rfl rfl hr.wf, hr.lo_above, hr.tight, ?_⟩
  intro page len hmem
  simp only [List.mem_append, List.mem_singleton, reduceCtorEq, or_false] at hmem
  exact hr.clean page len hmem

/-- What a refused request leaves. -/
structure Refused (pm pm' : Pmem) (n : Nat) : Prop where
  ruled : pm'.Ruled
  taken : ∀ b k, pm'.Taken b k ↔ pm.Taken b k
  extents : ∀ b k, pm'.Extent b k ↔ pm.Extent b k
  ipt : pm'.ipt = pm.ipt
  lo : pm'.lo = pm.lo
  pages : pm'.systemPages = pm.systemPages
  log : pm'.trace = pm.trace ++ [.nospace n]

theorem Ruled.refused (hr : pm.Ruled) (hn : 0 < n) (hno : ¬ pm.HasRoom n) :
    (pm.allocKpages n).1 = mipsKseg0 ∧ Refused pm (pm.allocKpages n).2 n := by
  rw [hr.allocKpages_refused hn hno]
  exact ⟨rfl, hr.bump _ n, fun b k => taken_congr rfl rfl rfl rfl, fun b k => Iff.rfl, rfl, rfl,
    rfl, rfl⟩

theorem Ruled.allocPpages_refused (hr : pm.Ruled) (hn : 0 < n) (hno : ¬ pm.HasRoom n) :
    (pm.allocPpages n).1 = 0 ∧ (pm.allocPpages n).2 = (pm.allocKpages n).2 := by
  have hm := hr.toManaged
  rw [hm.allocKpages_eq]
  rcases allocPpages_cases hm.wf hm.top_lt hn with ⟨_, he⟩ | ⟨hroom, _⟩
  · rw [he]
    exact ⟨rfl, rfl⟩
  · exact absurd hroom hno

private theorem Extent.freeKpages_eq (he : pm.Extent a n) (hr : pm.Ruled) :
    ∃ j, a = pm.kvPage j ∧ j + n < pm.systemPages ∧ pm.ipt j = n ∧
      pm.freeKpages a = { pm with
        availPages := pm.availPages + n
        ipt := pm.ipt.mark j 0
        trace := pm.trace ++ [.free j n] } := by
  obtain ⟨_, hn, j, rfl, hj⟩ := he
  have htight := hr.tight j (by omega)
  have hjs : j < pm.systemPages := by omega
  have hkv := hr.toManaged.kvaddr_roundTrip hjs
  have haddr : kvaddrToPaddr (pm.kvPage j) = pm.pageAddr j := by
    rw [kvPage, Nat.add_comm, hkv.2]
  refine ⟨j, rfl, by omega, hj, ?_⟩
  rw [freeKpages, haddr, hr.toManaged.freePpages_eq hjs, hj]

/-- What releasing the run at `a` leaves. -/
structure Released (pm pm' : Pmem) (a n : Nat) : Prop where
  ruled : pm'.Ruled
  others : ∀ b k, pm.Taken b k → RangesApart a n b k → pm'.Taken b k
  extents : ∀ b k, pm.Extent b k → RangesApart a n b k → pm'.Extent b k
  lo : pm'.lo = pm.lo
  pages : pm'.systemPages = pm.systemPages
  log : ∃ j, a = pm.kvPage j ∧ pm'.trace = pm.trace ++ [.free j n] ∧ pm'.ipt = pm.ipt.mark j 0

theorem Extent.released (he : pm.Extent a n) (hr : pm.Ruled) :
    Released pm (pm.freeKpages a) a n := by
  have hn := he.2.1
  obtain ⟨j, rfl, hj, hjn, heq⟩ := he.freeKpages_eq hr
  rw [heq]
  have hkeep (b k : Nat) (hb : pm.Extent b k) (hap : RangesApart (pm.kvPage j) n b k) :
      Pmem.Extent { pm with
        availPages := pm.availPages + n
        ipt := pm.ipt.mark j 0
        trace := pm.trace ++ [.free j n] } b k := by
    obtain ⟨_, hk, i, rfl, hik⟩ := hb
    have hij : i ≠ j := by
      rintro rfl
      simp only [RangesApart, pageSize] at hap
      omega
    exact ⟨hr.booted, hk, i, rfl, by simpa [RunTable.mark_of_ne hij] using hik⟩
  refine ⟨⟨hr.toManaged.congr rfl rfl rfl (hr.wf.clear j), hr.lo_above, ?_, ?_⟩, ?_, hkeep, rfl,
    rfl, j, rfl, rfl, rfl⟩
  · intro i hi
    by_cases hij : i = j
    · subst hij
      simp at hi
    · simp only [RunTable.mark_of_ne hij] at hi ⊢
      exact hr.tight i hi
  · intro page len hmem
    simp only [List.mem_append, List.mem_singleton, PageEvent.free.injEq] at hmem
    cases hmem with
    | inl hold => exact hr.clean page len hold
    | inr hnew =>
        obtain ⟨rfl, rfl⟩ := hnew
        exact ⟨by simp only; omega, hn⟩
  · intro b k hb hap
    cases hb with
    | inl hs => exact .inl hs
    | inr hb => exact .inr (hkeep b k hb hap)

/-- `vm_bootstrap` keeps what was stolen and takes the pages of its table. -/
theorem PreBoot.bootstrapped_ruled (hp : pm.PreBoot) :
    pm.vmBootstrap.Ruled ∧ (∀ b k, pm.Taken b k → pm.vmBootstrap.Taken b k) ∧
      (1 < pm.vmBootstrap.systemPages → pm.vmBootstrap.Extent (mipsKseg0 + pm.vmBootstrap.lo)
        (tablePages pm.vmBootstrap.systemPages)) := by
  have hm := hp.vmBootstrap
  have hlo := hp.first_pos
  have hfloor : pm.floor = pm.firstpaddr := by simp [floor, hp.raw]
  by_cases hfit : tablePages pm.managedPages < pm.managedPages
  · have heq := hp.vmBootstrap_eq hfit
    have htp := hp.tablePages_le.2 (by omega)
    have hsys : pm.vmBootstrap.systemPages = pm.managedPages := by rw [heq]
    have hfirst : pm.vmBootstrap.lo = pm.firstpaddr := by rw [heq]
    have hipt : pm.vmBootstrap.ipt = RunTable.mark (fun _ => 0) 0 (tablePages pm.managedPages) := by
      rw [heq]
    refine ⟨⟨hm, by omega, fun i hi => ?_, fun page len hmem => ?_⟩, fun b k hb => .inl ?_, fun _ => ?_⟩
    · rw [hipt] at hi ⊢
      by_cases hi0 : i = 0
      · subst hi0
        simp only [RunTable.mark_self]
        omega
      · simp [RunTable.mark_of_ne hi0] at hi
    · rw [heq] at hmem
      simp at hmem
    · obtain ⟨h1, h2, h3, h4⟩ := hb.resolve_right fun he => by simp [Extent, hp.raw] at he
      refine ⟨h1, h2, h3, ?_⟩
      simp only [floor, hm.booted, if_true, hfirst]
      omega
    · refine ⟨hm.booted, by rw [hsys]; exact htp, 0, by simp [kvPage, pageAddr], ?_⟩
      rw [hipt, hsys]
      simp
  · obtain ⟨hle, heq⟩ := hp.vmBootstrap_unfit hfit
    have hsys : pm.vmBootstrap.systemPages = pm.managedPages := by rw [heq]
    have hfirst : pm.vmBootstrap.lo = pm.firstpaddr := by rw [heq]
    have hipt : pm.vmBootstrap.ipt = fun _ => 0 := by rw [heq]
    refine ⟨⟨hm, by omega, fun i hi => ?_, fun page len hmem => ?_⟩, fun b k hb => .inl ?_,
      fun hone => ?_⟩
    · rw [hipt] at hi
      cases hi
    · rw [heq] at hmem
      simp at hmem
    · obtain ⟨h1, h2, h3, h4⟩ := hb.resolve_right fun he => by simp [Extent, hp.raw] at he
      refine ⟨h1, h2, h3, ?_⟩
      simp only [floor, hm.booted, if_true, hfirst]
      omega
    · rw [hsys] at hone
      omega

end Pmem

end CseOs.Kernel
