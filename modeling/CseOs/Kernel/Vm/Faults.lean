import CseOs.Kernel.Vm.FirstFit
import CseOs.Kernel.Vm.PageOwners

/-!
# Demand paging

Faults of one process, with writes of its own and of the kernel's clients between them. The TLB
is told the same frame for every fault on a page, and another frame for another page. A page is
cleared when it is mapped.
-/

namespace CseOs.Kernel

open Framework KernelSt

/-- The frame a TLB entry names: the low bits of its second half are flags. -/
def entryFrame (e : TlbInsert) : Nat := roundDown e.2

namespace Vm

/-- A fault at an accepted address for which every page that is asked for is granted. -/
structure FaultStep (as : Nat) (s : Vm) (ft fa : Nat) (ins : TlbInsert) (t : Vm) : Prop where
  addr : fa < 2 ^ 32
  room : s.NodeRoom as (roundDown fa)
  runs : ∃ k, KernelSt.vmFault ft fa as s.k = some (0, some ins, k) ∧ t = s.recordFault as k

/-- The faults of a run, each with the entry it put into the TLB. -/
inductive Faults (as : Nat) (s : Vm) : List (Nat × TlbInsert) → Vm → Prop
  | nil : Faults as s [] s
  | fault {l : List (Nat × TlbInsert)} {t u : Vm} {ft fa : Nat} {ins : TlbInsert} :
      Faults as s l t → FaultStep as t ft fa ins u → Faults as s (l ++ [(fa, ins)]) u
  | store {l : List (Nat × TlbInsert)} {t : Vm} (m : ByteStore) : Faults as s l t →
      (∀ x, ¬ t.Writable x → m x = t.k.mem x) → Faults as s l (t.writeMem m)

variable {s t u : Vm} {as fa fb ft x : Nat} {ins : TlbInsert} {l : List (Nat × TlbInsert)}

private theorem roundDown_idem (a : Nat) : roundDown (roundDown a) = roundDown a := by
  simp only [roundDown, pageSize]
  omega

private theorem frameOf_roundDown (m : ByteStore) (as fa : Nat) :
    frameOf m as (roundDown fa) = frameOf m as fa := by
  have hhi : hiOf (roundDown fa) = hiOf fa := by
    simp only [hiOf, roundDown, pageSize]
    omega
  have hmid : midOf (roundDown fa) = midOf fa := by
    simp only [midOf, roundDown, pageSize]
    omega
  rw [frameOf, hhi, hmid, frameOf]

theorem indices_injective (ha : fa < 2 ^ 32) (hb : fb < 2 ^ 32) (hhi : hiOf fa = hiOf fb)
    (hmid : midOf fa = midOf fb) : roundDown fa = roundDown fb := by
  simp only [hiOf, midOf, roundDown, pageSize] at *
  omega

private theorem slot_ne (ha : fa < 2 ^ 32) (hb : fb < 2 ^ 32) (hne : roundDown fb ≠ roundDown fa) :
    SpacePage.user (hiOf fb) (midOf fb) ≠ .user (hiOf fa) (midOf fa) := by
  intro h
  have hinj := SpacePage.user.inj h
  exact hne (indices_injective hb ha hinj.1 hinj.2)

theorem treePage_of_frameOf {m : ByteStore} (h : frameOf m as fa ≠ 0) :
    treePage m (asPt m as) (.user (hiOf fa) (midOf fa)) = some (mipsKseg0 + frameOf m as fa) :=
  if_pos ⟨hiOf_lt fa, midOf_lt fa, h⟩

private theorem holds_of_frameOf (has : as ∈ s.spaces) (h : frameOf s.k.mem as fa ≠ 0) :
    s.Holds (.space as (.user (hiOf fa) (midOf fa))) (mipsKseg0 + frameOf s.k.mem as fa) 1 :=
  ⟨has, treePage_of_frameOf h, rfl⟩

private theorem frameOf_congr {m m' : ByteStore}
    (h : treePage m' (asPt m' as) (.user (hiOf fa) (midOf fa)) =
      treePage m (asPt m as) (.user (hiOf fa) (midOf fa))) : frameOf m' as fa = frameOf m as fa := by
  by_cases h0 : frameOf m as fa = 0
  · rw [h0]
    rw [frameOf, ptFrame_eq_zero_iff (hiOf_lt fa) (midOf_lt fa)] at h0 ⊢
    exact h.trans h0
  · by_cases h0' : frameOf m' as fa = 0
    · rw [treePage_of_frameOf h0] at h
      rw [frameOf, ptFrame_eq_zero_iff (hiOf_lt fa) (midOf_lt fa)] at h0'
      rw [h0'] at h
      cases h
    · rw [treePage_of_frameOf h0, treePage_of_frameOf h0'] at h
      have heq := Option.some.inj h
      omega

theorem Inv.entryFrame_eq (hi : Inv s) (has : as ∈ s.spaces) (h : frameOf s.k.mem as fa ≠ 0)
    (page : Nat) : entryFrame (page, frameOf s.k.mem as fa ||| tlbloDirty ||| tlbloValid) =
      frameOf s.k.mem as fa := by
  have hext := (hi.placed.extent as _ _ 1 (holds_of_frameOf has h)).2
  have haligned := (hext.inside (hi.ruled_of_booted (hi.booted_of_space has))).2.1
  generalize frameOf s.k.mem as fa = f at haligned
  simp only [mipsKseg0, pageSize] at haligned
  have hflags : f ||| tlbloDirty ||| tlbloValid = f + 1536 := by
    have hf : f = 2 ^ 12 * (f / 4096) := by omega
    have hor : tlbloDirty ||| tlbloValid = 1536 := by decide
    rw [Nat.or_assoc, hor, hf]
    exact (Nat.two_pow_add_eq_or_of_lt (by decide) _).symm
  simp only [entryFrame, roundDown, pageSize, hflags]
  omega

/-- What a fault in the address space `as` leaves. -/
structure FaultEffect (as : Nat) (s : Vm) (fa : Nat) (ins : TlbInsert) (t : Vm) : Prop where
  inv : Inv t
  live : as ∈ t.spaces
  page : ins.1 = roundDown fa
  frame : entryFrame ins = frameOf t.k.mem as fa
  mapped : frameOf t.k.mem as fa ≠ 0
  kept : frameOf s.k.mem as fa ≠ 0 → frameOf t.k.mem as fa = frameOf s.k.mem as fa
  zero : frameOf s.k.mem as fa = 0 → ZeroFrame t.k.mem (frameOf t.k.mem as fa)
  others : ∀ fb, fb < 2 ^ 32 → roundDown fb ≠ roundDown fa →
    frameOf t.k.mem as fb = frameOf s.k.mem as fb
  contents : ∀ fb, frameOf s.k.mem as fb ≠ 0 → ∀ x, mipsKseg0 + frameOf s.k.mem as fb ≤ x →
    x < mipsKseg0 + frameOf s.k.mem as fb + pageSize → t.k.mem x = s.k.mem x

theorem WalkEffect.contents {k : KernelSt} {evs : List PageEvent} (h : WalkEffect s as k evs)
    (hi : Inv s) (has : as ∈ s.spaces) (hf : frameOf s.k.mem as fb ≠ 0)
    (hlo : mipsKseg0 + frameOf s.k.mem as fb ≤ x)
    (hhi : x < mipsKseg0 + frameOf s.k.mem as fb + pageSize) : k.mem x = s.k.mem x := by
  have hheld := holds_of_frameOf has hf
  rcases h.mem x with hsame | htree | hfresh
  · exact hsame
  · obtain ⟨q, b, hq, hb, hblo, hbhi⟩ := treeByte_held has htree
    have hne : Owner.space as q ≠ .space as (.user (hiOf fb) (midOf fb)) := by
      intro heq
      exact hq _ _ (Owner.space.inj heq).2
    have hapart := hi.placed.apart _ _ _ 1 _ 1 hb hheld hne
    simp only [RangesApart] at hapart
    omega
  · obtain ⟨a, ha, halo, hahi⟩ := hfresh
    have hapart := h.fresh a ha _ 1 (hi.placed.taken _ _ 1 hheld)
    simp only [RangesApart] at hapart
    omega

theorem FaultStep.effect (hi : Inv s) (has : as ∈ s.spaces) (h : FaultStep as s ft fa ins t) :
    FaultEffect as s fa ins t := by
  obtain ⟨haddr, hroom, k, hrun, rfl⟩ := h
  obtain ⟨evs, heff, hcase⟩ := hi.vmFault has (fun _ => hroom) hrun
  have hinv : Inv (s.recordFault as k) := by
    rw [recordFault, heff.log, List.drop_left]
    exact heff.inv
  have hpt : asPt k.mem as = asPt s.k.mem as := heff.pt
  rcases hcase with ⟨_, _, hmapped, hins, hmap⟩ | ⟨_, _, hnone, _⟩ | ⟨hne, _⟩
  · have hins := Option.some.inj hins
    rw [frameOf_roundDown] at hmapped hins
    have hslot : ∀ q, q ≠ .node (hiOf (roundDown fa)) →
        q ≠ .user (hiOf (roundDown fa)) (midOf (roundDown fa)) →
        treePage k.mem (asPt k.mem as) q = treePage s.k.mem (asPt s.k.mem as) q := by
      rw [hpt]
      exact hmap.others
    refine ⟨hinv, has, ?_, ?_, hmapped, ?_, ?_, ?_, ?_⟩
    · rw [hins]
    · rw [hins]
      exact hinv.entryFrame_eq has hmapped _
    · intro hold
      have hkept := heff.kept _ _ (treePage_of_frameOf hold)
      rw [treePage_of_frameOf hmapped] at hkept
      have heq := Option.some.inj hkept
      show frameOf k.mem as fa = _
      omega
    · intro hold
      have hzero := hmap.zero
      simp only [frameOf_roundDown] at hzero
      exact hzero hold hmapped
    · intro fb hfb hne
      apply frameOf_congr
      apply hslot
      · simp
      · apply slot_ne (by simp only [roundDown, pageSize]; omega) hfb
        rwa [roundDown_idem]
    · intro fb hfb x hlo hhi
      exact heff.contents hi has hfb hlo hhi
  · cases hnone
  · exact absurd rfl hne

private theorem Inv.store_frameOf (hi : Inv s) (has : as ∈ s.spaces) {m : ByteStore}
    (hm : ∀ x, ¬ s.Writable x → m x = s.k.mem x) (fa : Nat) :
    frameOf m as fa = frameOf s.k.mem as fa := by
  apply frameOf_congr
  exact space_congr (fun x hx => hm x fun hw => (hi.writable_not_reserved hw).1 hx) has _

/-- What holds after the faults `l`: the entries agree with the page table, and pages without a
fault are mapped as they were. -/
structure FaultsInv (as : Nat) (s : Vm) (l : List (Nat × TlbInsert)) (t : Vm) : Prop where
  inv : Inv t
  live : as ∈ t.spaces
  entries : ∀ d ∈ l, d.1 < 2 ^ 32 ∧ frameOf t.k.mem as d.1 ≠ 0 ∧
    entryFrame d.2 = frameOf t.k.mem as d.1
  untouched : ∀ fb, fb < 2 ^ 32 → (∀ d ∈ l, roundDown d.1 ≠ roundDown fb) →
    frameOf t.k.mem as fb = frameOf s.k.mem as fb

private theorem frameOf_samePage {m : ByteStore} (h : roundDown fa = roundDown fb) :
    frameOf m as fa = frameOf m as fb := by
  rw [← frameOf_roundDown, h, frameOf_roundDown]

private theorem FaultsInv.fault (h : FaultsInv as s l t) (hstep : FaultStep as t ft fa ins u) :
    FaultsInv as s (l ++ [(fa, ins)]) u := by
  have heff := hstep.effect h.inv h.live
  refine ⟨heff.inv, heff.live, ?_, ?_⟩
  · intro d hd
    rw [List.mem_append, List.mem_singleton] at hd
    cases hd with
    | inl hold =>
      obtain ⟨haddr, hmapped, hentry⟩ := h.entries d hold
      have hsame : frameOf u.k.mem as d.1 = frameOf t.k.mem as d.1 := by
        by_cases hpage : roundDown d.1 = roundDown fa
        · rw [frameOf_samePage hpage] at hmapped
          rw [frameOf_samePage hpage, frameOf_samePage hpage]
          exact heff.kept hmapped
        · exact heff.others d.1 haddr hpage
      rw [hsame]
      exact ⟨haddr, hmapped, hentry⟩
    | inr hnew =>
      rw [hnew]
      exact ⟨hstep.addr, heff.mapped, heff.frame⟩
  · intro fb hfb hno
    rw [heff.others fb hfb fun heq => hno (fa, ins) (by simp) heq.symm]
    exact h.untouched fb hfb fun d hd => hno d (by simp [hd])

private theorem Faults.inv (hi : Inv s) (has : as ∈ s.spaces) (h : Faults as s l t) :
    FaultsInv as s l t := by
  induction h with
  | nil =>
    exact ⟨hi, has, fun d hd => absurd hd List.not_mem_nil, fun _ _ _ => rfl⟩
  | fault _ hstep ih => exact ih.fault hstep
  | store m _ hm ih =>
    have hsame := ih.inv.store_frameOf ih.live hm
    refine ⟨ih.inv.store hm, ih.live, ?_, ?_⟩
    · intro d hd
      show _ ∧ frameOf m as d.1 ≠ 0 ∧ entryFrame d.2 = frameOf m as d.1
      rw [hsame]
      exact ih.entries d hd
    · intro fb hfb hno
      show frameOf m as fb = _
      rw [hsame]
      exact ih.untouched fb hfb hno

theorem Inv.frames_distinct (hi : Inv s) (has : as ∈ s.spaces) (ha : fa < 2 ^ 32)
    (hb : fb < 2 ^ 32) (hne : roundDown fb ≠ roundDown fa) (hfa : frameOf s.k.mem as fa ≠ 0)
    (hfb : frameOf s.k.mem as fb ≠ 0) : frameOf s.k.mem as fb ≠ frameOf s.k.mem as fa := by
  intro heq
  have hslot : Owner.space as (.user (hiOf fb) (midOf fb)) ≠
      .space as (.user (hiOf fa) (midOf fa)) :=
    fun h => slot_ne ha hb hne (Owner.space.inj h).2
  have hapart := hi.placed.apart _ _ _ 1 _ 1 (holds_of_frameOf has hfb) (holds_of_frameOf has hfa)
    hslot
  simp only [RangesApart, pageSize, heq] at hapart
  omega

/-- After any run of faults, the next one gives a page the frame it had, or a cleared frame that
no other page has, and leaves the other pages alone. -/
theorem demand_paging (h : Reachable Boots CleanStep s) (has : as ∈ s.spaces)
    (hrun : Faults as s l t) (hstep : FaultStep as t ft fa ins u) :
    ins.1 = roundDown fa ∧
    (∀ d ∈ l, roundDown d.1 = roundDown fa → entryFrame d.2 = entryFrame ins) ∧
    (∀ d ∈ l, roundDown d.1 ≠ roundDown fa → entryFrame d.2 ≠ entryFrame ins) ∧
    (frameOf s.k.mem as fa = 0 → (∀ d ∈ l, roundDown d.1 ≠ roundDown fa) →
      ZeroFrame u.k.mem (entryFrame ins)) ∧
    ∀ fb, fb < 2 ^ 32 → roundDown fb ≠ roundDown fa →
      frameOf u.k.mem as fb = frameOf t.k.mem as fb ∧
      (frameOf t.k.mem as fb ≠ 0 → ∀ x, mipsKseg0 + frameOf t.k.mem as fb ≤ x →
        x < mipsKseg0 + frameOf t.k.mem as fb + pageSize → u.k.mem x = t.k.mem x) := by
  have hinv := hrun.inv (inv_of_reachable h) has
  have heff := hstep.effect hinv.inv hinv.live
  have hafter := hinv.fault hstep
  have hentry (d : Nat × TlbInsert) (hd : d ∈ l) := hafter.entries d (by simp [hd])
  refine ⟨heff.page, ?_, ?_, ?_, ?_⟩
  · intro d hd hpage
    rw [(hentry d hd).2.2, heff.frame, frameOf_samePage hpage]
  · intro d hd hpage
    rw [(hentry d hd).2.2, heff.frame]
    exact heff.inv.frames_distinct heff.live hstep.addr (hentry d hd).1 hpage heff.mapped
      (hentry d hd).2.1
  · intro hfresh hno
    rw [heff.frame]
    apply heff.zero
    rw [hinv.untouched fa hstep.addr hno, hfresh]
  · intro fb hfb hpage
    exact ⟨heff.others fb hfb hpage, heff.contents fb⟩

end Vm

namespace StackFault

open Vm (Boots)

def boot : KernelSt := ⟨Kheap.initial, fun _ => 0, ramBootstrap (Pmem.bootOf 16 (by decide))⟩
def booted : KernelSt := { boot with pages := boot.pages.vmBootstrap }
def spaced : KernelSt := SharedTable.spaceIn 0x80003fe0 booted
def stacked : KernelSt := (KernelSt.asDefineStack 0x80003fe0 spaced).2.2

def before : Vm := ⟨stacked, [], [], [0x80003fe0],
  Function.update (fun _ => []) 0x80003fe0 [asPt spaced.mem 0x80003fe0]⟩

private theorem freeRun_booted {j : Nat} (h : 1 ≤ j) : booted.pages.ipt.FreeRun j 1 := by
  have hipt : booted.pages.ipt = RunTable.mark (fun _ => 0) 0 1 :=
    (Pmem.vmBootstrap_bootOf 16 (by decide) (by decide)).2.2
  rw [hipt, Pmem.freeRun_mark_first]
  exact Or.inr h

private theorem systemPages_booted : booted.pages.systemPages = 16 :=
  (Pmem.vmBootstrap_bootOf 16 (by decide) (by decide)).2.1

private theorem room_booted : Vm.CreateRoom ⟨booted, [], [], [], fun _ => []⟩ := by
  have hroom (j : Nat) (h : j < 15) : j + 1 < booted.pages.systemPages := by
    rw [systemPages_booted]
    omega
  intro _
  exact ⟨fun _ => ⟨1, 2, by decide, hroom 1 (by decide), hroom 2 (by decide),
    freeRun_booted (by decide), freeRun_booted (by decide)⟩,
    1, hroom 1 (by decide), freeRun_booted (by decide)⟩

/-- Page 3 becomes a node and page 4 is mapped. -/
def nodeStack : KernelSt := KernelSt.linkPage (0x80004000 + 4 * 511) stacked
def mappedStack : KernelSt := KernelSt.mapPage (0x80005000 + 4 * 1023) nodeStack

private theorem stack_values : SharedTable.CreatesAt 0x80003fe0 booted ∧
    KernelSt.FreshNode stacked 0x80003fe0 0x7fffff04 (0x80004000 + 4 * 511) ∧
    (nodeStack.pages.allocPpages 1).1 = 0x6000 ∧
    (nodeStack.mem.fill (mipsKseg0 + 0x6000) pageSize 0).word (0x80004000 + 4 * 511) =
      0x80005000 ∧ mappedStack.mem.word (0x80004000 + 4 * 511) = 0x80005000 ∧
    3 + 1 < stacked.pages.systemPages ∧ ¬ stacked.pages.ipt.Covered 3 ∧
    Vm.frameOf stacked.mem 0x80003fe0 (roundDown 0x7fffff04) = 0 := by
  decide +kernel

private theorem fault_stacked : KernelSt.vmFault vmFaultWrite 0x7fffff04 0x80003fe0 stacked =
    some (0, some (0x7ffff000, 0x6600), mappedStack) := by
  obtain ⟨_, hfresh, hframe, hnode, hkeep, _⟩ := stack_values
  exact hfresh.vmFault_mapPage (.inr rfl) (by decide) (by decide) hframe hnode hkeep

private theorem reachable_before : Reachable Boots Vm.CleanStep before := by
  have h0 : Reachable Boots Vm.CleanStep ⟨boot, [], [], [], fun _ => []⟩ :=
    Reachable.start ⟨_, _, rfl⟩
  have h1 : Reachable Boots Vm.CleanStep ⟨booted, [], [], [], fun _ => []⟩ :=
    h0.next ⟨.vmBootstrap, _, trivial, .vmBootstrap rfl⟩
  have h2 := h1.next ⟨.asCreate, _, room_booted, stack_values.1.step⟩
  exact h2.next ⟨.asDefineStack 0x80003fe0, _, trivial, .asDefineStack 0x80003fe0 (by simp)⟩

private theorem room_stacked : before.NodeRoom 0x80003fe0 (roundDown 0x7fffff04) := by
  obtain ⟨_, _, _, _, _, hroom, hfree, _⟩ := stack_values
  intro _
  refine ⟨3, hroom, fun j hlo hhi => ?_⟩
  have hj : j = 3 := by omega
  rwa [hj]

theorem demand_paging_stack : Vm.ZeroFrame mappedStack.mem 0x6000 := by
  obtain ⟨_, _, _, _, _, _, _, hframe⟩ := stack_values
  have hstep : Vm.FaultStep 0x80003fe0 before vmFaultWrite 0x7fffff04 (0x7ffff000, 0x6600)
      (before.recordFault 0x80003fe0 mappedStack) :=
    ⟨by decide, room_stacked, mappedStack, fault_stacked, rfl⟩
  have h := Vm.demand_paging reachable_before (by simp [before]) Vm.Faults.nil hstep
  exact h.2.2.2.1 hframe (fun d hd => absurd hd List.not_mem_nil)

end StackFault

end CseOs.Kernel
