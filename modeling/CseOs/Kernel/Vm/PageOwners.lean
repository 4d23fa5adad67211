import CseOs.Kernel.Vm.Clients
import CseOs.Kernel.Vm.PageRuns

/-!
# Every page has one owner

Along every run of clean steps the inverted page table, the page tables and the addresses that
kernel clients hold agree. A refused page for a page table is not noticed, because the failure
value 0 has become a kernel address by then: two address spaces then share the table at page 0.
-/

namespace CseOs.Kernel

open Framework KernelSt

namespace Vm

/-- The owner holds page `j` of the inverted page table. -/
def Owns (s : Vm) (o : Owner) (j : Nat) : Prop :=
  ∃ a n, s.Holds o a n ∧ a ≤ s.k.pages.kvPage j ∧ s.k.pages.kvPage j < a + n * pageSize

/-- A page has at most one owner, no client counts twice, address spaces hold managed pages only,
and no frame is mapped twice. -/
structure Exclusive (s : Vm) : Prop where
  owner : ∀ j o o', j < s.k.pages.systemPages → s.Owns o j → s.Owns o' j → o = o'
  clients : (s.kpages.map Prod.fst).Nodup
  spaces : s.spaces.Nodup
  managed : ∀ as q a n, s.Holds (.space as q) a n →
    n = 1 ∧ ∃ j, j < s.k.pages.systemPages ∧ a = s.k.pages.kvPage j
  frames : ∀ as as' hi mid hi' mid', as ∈ s.spaces → as' ∈ s.spaces →
    hi < ptFanout → mid < ptFanout → hi' < ptFanout → mid' < ptFanout →
    ptFrame s.k.mem (asPt s.k.mem as) hi mid ≠ 0 →
    ptFrame s.k.mem (asPt s.k.mem as) hi mid = ptFrame s.k.mem (asPt s.k.mem as') hi' mid' →
    as = as' ∧ hi = hi' ∧ mid = mid'

/-- A step of any client, clean or not. -/
def AnyStep (s t : Vm) : Prop := ∃ op r, Step s op r t

variable {s : Vm}

private theorem Inv.exclusive (hi : Inv s) : Exclusive s := by
  refine ⟨fun j o o' _ ho ho' => ?_, hi.keys, hi.spaces_nodup, fun as q a n ho => ?_, ?_⟩
  · obtain ⟨a, n, hh, hlo, hhi⟩ := ho
    obtain ⟨b, k, hh', hlo', hhi'⟩ := ho'
    by_contra hne
    have := hi.placed.apart o o' a n b k hh hh' hne
    simp only [RangesApart] at this
    omega
  · obtain ⟨hn, hext⟩ := hi.placed.extent as q a n ho
    obtain ⟨hb, hpos, j, hj, hjn⟩ := hext
    have := (hi.ruled_of_booted hb).wf.inside j (by omega)
    exact ⟨hn, j, by omega, hj⟩
  · intro as as' i mid i' mid' has has' hin hmid hin' hmid' h0 heq
    have h0' : ptFrame s.k.mem (asPt s.k.mem as') i' mid' ≠ 0 := heq ▸ h0
    have ho : s.Holds (.space as (.user i mid)) _ 1 := ⟨has, if_pos ⟨hin, hmid, h0⟩, rfl⟩
    have ho' : s.Holds (.space as' (.user i' mid')) _ 1 := ⟨has', if_pos ⟨hin', hmid', h0'⟩, rfl⟩
    by_contra hne
    have := hi.placed.apart _ _ _ 1 _ 1 ho ho' (by simpa [and_assoc] using hne)
    simp only [RangesApart, pageSize, heq] at this
    omega

/-- In every run of clean steps each managed page has at most one owner. -/
theorem page_owner_unique (h : Reachable Boots CleanStep s) : Exclusive s :=
  (inv_of_reachable h).exclusive

end Vm

namespace SharedTable

/-- Five managed pages, one of which holds the inverted page table. -/
def boot : KernelSt := ⟨Kheap.initial, fun _ => 0, ramBootstrap PageClients.fivePages⟩

def booted : KernelSt := { boot with pages := boot.pages.vmBootstrap }

/-- The machine after `as_create`, when it gets its block and its page table. -/
def spaceIn (as : Nat) (k : KernelSt) : KernelSt :=
  let k' := ((HeapSt.kmalloc vmSupply addrspaceSize k).getD (0, k)).2
  KernelSt.linkPage (as + 20) { k' with mem := k'.mem.fill as 20 0 }

/-- Kernel clients take two of the three pages that can be granted. -/
def taken : KernelSt := { booted with pages := (booted.pages.allocKpages 1).2 }
def filled : KernelSt := { taken with pages := (taken.pages.allocKpages 1).2 }

theorem answer_eq {α β : Type} {o : Option (α × β)} {d : α × β} {r : α}
    (h : o.map Prod.fst = some r) : o = some (r, (o.getD d).2) := by
  cases o with
  | none => cases h
  | some p =>
      obtain ⟨a, b⟩ := p
      cases h
      rfl

variable {k k' : KernelSt} {kpages : List (Nat × Nat)} {spaces : List Nat}
  {got : Nat → List Nat} {a n as : Nat}

/-- `as_create` gets its block at `as` and its page table. -/
abbrev CreatesAt (as : Nat) (k : KernelSt) : Prop :=
  k.pages.bootstrapped = true ∧ as ≠ 0 ∧
    (HeapSt.kmalloc vmSupply addrspaceSize k).map Prod.fst = some as ∧
    (((HeapSt.kmalloc vmSupply addrspaceSize k).getD (0, k)).2.pages.allocKpages 1).1 ≠ 0

private theorem CreatesAt.asCreate (h : CreatesAt as k) : KernelSt.asCreate k = some (as, spaceIn as k) :=
  Vm.asCreate_of_granted (answer_eq h.2.2.1) h.2.1 h.2.2.2

/-- One address space on the fresh machine. -/
def spaced : KernelSt := spaceIn 0x80004fe0 booted

/-- The last page goes to the heap, so there is none for either page table. -/
def first : KernelSt := spaceIn 0x80006fe0 filled
def second : KernelSt := spaceIn 0x80006fc0 first

/-- One client gives its page back, and a fault makes it a node of the shared table. There is no
page left to map. -/
def freed : KernelSt := { second with pages := second.pages.freeKpages 0x80004000 }
def stacked : KernelSt := (KernelSt.asDefineStack 0x80006fe0 freed).2.2
def linked : KernelSt := KernelSt.linkPage (0x80000000 + 4 * 511) stacked
def faulted : KernelSt := { linked with pages := (linked.pages.allocPpages 1).2 }

open Vm (AnyStep Boots)

private theorem step_alloc (hn : 1 ≤ n) (hb : k.pages.bootstrapped = true)
    (ha : (k.pages.allocKpages n).1 = a) (hne : a ≠ mipsKseg0) :
    Vm.Step ⟨k, kpages, [], spaces, got⟩ (.allocKpages n) a
      ⟨{ k with pages := (k.pages.allocKpages n).2 }, (a, n) :: kpages, [], spaces, got⟩ := by
  have h := Vm.Step.allocKpages (s := ⟨k, kpages, [], spaces, got⟩) n hn hb
  simp only [Vm.recordPages, ha, if_neg hne] at h
  exact h

theorem CreatesAt.step (h : CreatesAt as k) :
    Vm.Step ⟨k, kpages, [], spaces, got⟩ .asCreate as ⟨spaceIn as k, kpages, [], as :: spaces,
      Function.update got as [asPt (spaceIn as k).mem as]⟩ := by
  have hstep := Vm.Step.asCreate (s := ⟨k, kpages, [], spaces, got⟩) as _ h.1 h.asCreate
  simp only [Vm.recordSpace, if_neg h.2.1] at hstep
  exact hstep

theorem booted_values : booted.pages.bootstrapped = true ∧ 2 + 1 < booted.pages.systemPages ∧
    ¬ booted.pages.ipt.Covered 1 ∧ ¬ booted.pages.ipt.Covered 2 ∧ CreatesAt 0x80004fe0 booted := by
  decide +kernel

theorem free_booted (j : Nat) (hj : j = 1 ∨ j = 2) : booted.pages.ipt.FreeRun j 1 := by
  obtain ⟨_, _, h1, h2, _⟩ := booted_values
  intro i hlo hhi
  have hi : i = 1 ∨ i = 2 := by omega
  rcases hi with rfl | rfl
  · exact h1
  · exact h2

theorem clean_spaced : Vm.Clean ⟨booted, [], [], [], fun _ => []⟩ .asCreate := by
  have hroom : 2 + 1 < booted.pages.systemPages := booted_values.2.1
  have hfirst : 1 + 1 < booted.pages.systemPages := Nat.lt_of_succ_lt hroom
  exact fun _ => ⟨fun _ => ⟨1, 2, by decide, hfirst, hroom, free_booted 1 (.inl rfl),
    free_booted 2 (.inr rfl)⟩, 1, hfirst, free_booted 1 (.inl rfl)⟩

/-- The machine with one address space is reached by clean steps. -/
theorem reachable_spaced : Reachable Boots Vm.CleanStep
    ⟨spaced, [], [], [0x80004fe0],
      Function.update (fun _ => []) 0x80004fe0 [asPt spaced.mem 0x80004fe0]⟩ := by
  have h0 : Reachable Boots Vm.CleanStep ⟨boot, [], [], [], fun _ => []⟩ :=
    Reachable.start ⟨_, _, rfl⟩
  have h1 : Reachable Boots Vm.CleanStep ⟨booted, [], [], [], fun _ => []⟩ :=
    h0.next ⟨.vmBootstrap, _, trivial, .vmBootstrap rfl⟩
  exact h1.next ⟨.asCreate, _, clean_spaced, booted_values.2.2.2.2.step⟩

theorem page_owner_unique_spaced : Vm.Exclusive ⟨spaced, [], [], [0x80004fe0],
    Function.update (fun _ => []) 0x80004fe0 [asPt spaced.mem 0x80004fe0]⟩ :=
  Vm.page_owner_unique reachable_spaced

theorem filled_values : (booted.pages.allocKpages 1).1 = 0x80004000 ∧
    taken.pages.bootstrapped = true ∧ (taken.pages.allocKpages 1).1 = 0x80005000 ∧
    CreatesAt 0x80006fe0 filled := by
  decide +kernel

private theorem shared_values : CreatesAt 0x80006fc0 first ∧
    KernelSt.FreshNode stacked 0x80006fe0 0x7ffff000 (0x80000000 + 4 * 511) ∧
    (linked.pages.allocPpages 1).1 = 0 ∧ 1 < faulted.pages.systemPages ∧
    treePage faulted.mem (asPt faulted.mem 0x80006fe0) (.node 511) =
      some (faulted.pages.kvPage 1) ∧
    treePage faulted.mem (asPt faulted.mem 0x80006fc0) (.node 511) =
      some (faulted.pages.kvPage 1) := by
  decide +kernel

/-- All pages but one are taken. -/
theorem reachable_filled : Reachable Boots AnyStep
    ⟨filled, [(0x80005000, 1), (0x80004000, 1)], [], [], fun _ => []⟩ := by
  obtain ⟨htaken, hb, hfilled, _⟩ := filled_values
  have h0 : Reachable Boots AnyStep ⟨boot, [], [], [], fun _ => []⟩ := Reachable.start ⟨_, _, rfl⟩
  have h1 : Reachable Boots AnyStep ⟨booted, [], [], [], fun _ => []⟩ :=
    h0.next ⟨_, _, .vmBootstrap rfl⟩
  have h2 : Reachable Boots AnyStep ⟨taken, [(0x80004000, 1)], [], [], fun _ => []⟩ :=
    h1.next ⟨_, _, step_alloc (by decide) booted_values.1 htaken (by decide)⟩
  exact h2.next ⟨_, _, step_alloc (by decide) hb hfilled (by decide)⟩

private theorem reachable_faulted : ∃ kpages got, Reachable Boots AnyStep
    ⟨faulted, kpages, [], [0x80006fc0, 0x80006fe0], got⟩ := by
  obtain ⟨_, _, _, hfirst⟩ := filled_values
  obtain ⟨hsecond, hnode, hrefused, _⟩ := shared_values
  have h4 := reachable_filled.next ⟨_, _, hfirst.step⟩
  have h5 := h4.next ⟨_, _, CreatesAt.step (k := first) hsecond⟩
  have h6 := h5.next ⟨_, _, .freeKpages 0x80004000 (by decide)⟩
  have h7 := h6.next ⟨_, _, .asDefineStack 0x80006fe0
    (List.mem_cons_of_mem _ List.mem_cons_self)⟩
  exact ⟨_, _, h7.next ⟨_, _, .vmFault vmFaultRead 0x7ffff000 0x80006fe0 enomem none faulted
    (List.mem_cons_of_mem _ List.mem_cons_self) (hnode.vmFault_refused (.inl rfl) hrefused)⟩⟩

private theorem shared_not_exclusive {as' j : Nat} {q : SpacePage} (has : as ∈ spaces)
    (has' : as' ∈ spaces) (hne : as ≠ as') (hj : j < k.pages.systemPages)
    (h : treePage k.mem (asPt k.mem as) q = some (k.pages.kvPage j))
    (h' : treePage k.mem (asPt k.mem as') q = some (k.pages.kvPage j)) :
    ¬ Vm.Exclusive ⟨k, kpages, [], spaces, got⟩ := by
  intro hex
  have hpage : k.pages.kvPage j < k.pages.kvPage j + 1 * pageSize := by
    simp only [pageSize]
    omega
  have heq := hex.owner j (.space as q) (.space as' q) hj
    ⟨k.pages.kvPage j, 1, ⟨has, h, rfl⟩, le_refl _, hpage⟩
    ⟨k.pages.kvPage j, 1, ⟨has', h', rfl⟩, le_refl _, hpage⟩
  exact hne (Owner.space.inj heq).1

/-- With no page left for their page tables two address spaces own one page. -/
theorem page_owned_twice : ¬ ∀ s, Reachable Boots AnyStep s → Vm.Exclusive s := by
  intro hall
  obtain ⟨kpages, got, h⟩ := reachable_faulted
  obtain ⟨_, _, _, hin, h1, h2⟩ := shared_values
  exact shared_not_exclusive (List.mem_cons_of_mem _ List.mem_cons_self) List.mem_cons_self
    (by decide) hin h1 h2 (hall _ h)

end SharedTable

end CseOs.Kernel
