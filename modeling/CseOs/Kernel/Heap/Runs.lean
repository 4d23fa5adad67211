import CseOs.Framework.Transition
import CseOs.Kernel.Heap.Kfree

/-!
# Runs of the subpage heap

Clients allocate and release blocks of less than half a page and write inside the blocks they
hold, over any page allocator that fails with 0 or grants a fresh page.
-/

namespace CseOs.Kernel

open Framework

variable {σ : Type}

/-- What the heap is promised of single pages: `held` tells which pages are handed out. -/
structure PageSupply.Lawful (S : PageSupply σ) (held : σ → Nat → Prop) : Prop where
  grant : ∀ s,
    (S.allocKpages 1 s).1 = 0 ∧ (∀ b, held (S.allocKpages 1 s).2 b ↔ held s b) ∨
    0 < (S.allocKpages 1 s).1 ∧ (S.allocKpages 1 s).1 % pageSize = 0 ∧
      (S.allocKpages 1 s).1 + pageSize < 2 ^ 32 ∧ ¬ held s (S.allocKpages 1 s).1 ∧
      ∀ b, held (S.allocKpages 1 s).2 b ↔ b = (S.allocKpages 1 s).1 ∨ held s b
  release : ∀ s a, held s a → ∀ b, held (S.freeKpages a s) b ↔ held s b ∧ b ≠ a

/-- The heap with the blocks its clients hold, each with the size that was asked for. -/
structure HeapClients (σ : Type) where
  st : HeapSt σ
  live : List (Nat × Nat)

namespace HeapClients

inductive Step (S : PageSupply σ) (s : HeapClients σ) : HeapClients σ → Prop
  | subpageKmalloc (sz ptr : Nat) (st : HeapSt σ) : sz < largestSubpageSize →
      s.st.subpageKmalloc S sz = some (ptr, st) → Step S s ⟨st, recordBlock ptr sz s.live⟩
  | kfree (ptr : Nat) (st : HeapSt σ) : ptr ∈ s.live.map Prod.fst →
      s.st.kfree S ptr = some st → Step S s ⟨st, dropBlock s.live ptr⟩
  | store (m : ByteStore) :
      (∀ x, (∀ b ∈ s.live, x < b.1 ∨ b.1 + b.2 ≤ x) → m x = s.st.mem x) →
      Step S s ⟨{ s.st with mem := m }, s.live⟩

/-- The empty heap over some state of the page allocator. -/
def Starts (pages : σ) (s : HeapClients σ) : Prop :=
  s.st.kheap = Kheap.initial ∧ s.st.pages = pages ∧ s.live = []

/-- The heap is in order and holds exactly its own pages beyond those handed out before. -/
structure Inv (held : σ → Nat → Prop) (pages : σ) (s : HeapClients σ) : Prop where
  heap : KheapInv s.st.kheap s.st.mem s.live
  owns : ∀ a, held s.st.pages a ↔ held pages a ∨
    ∃ p, s.st.kheap.InUse p ∧ (s.st.kheap.pagerefs p).pageaddr = a
  fresh : ∀ p, s.st.kheap.InUse p → ¬ held pages (s.st.kheap.pagerefs p).pageaddr

variable {S : PageSupply σ} {held : σ → Nat → Prop} {pages : σ} {s t : HeapClients σ}

theorem kheapInv_initial (m : ByteStore) : KheapInv Kheap.initial m [] := by
  have hno (p : Nat) : ¬ Kheap.initial.InUse p := by
    simp [Kheap.InUse, Kheap.initial]
  refine ⟨⟨⟨[], rfl, List.nodup_nil, fun p => ?_⟩, fun blk _ => ⟨[], rfl, List.nodup_nil,
    fun p => ?_⟩, fun p hp => absurd hp (hno p), fun p _ hp => absurd hp (hno p),
    fun b hb => absurd hb List.not_mem_nil, List.nodup_nil⟩, fun p hp => absurd hp (hno p)⟩
  · simp [hno p]
  · simp [hno p]

private theorem inv_starts (h : Starts pages s) : Inv held pages s := by
  obtain ⟨hk, hp, hl⟩ := h
  have hno (p : Nat) : ¬ s.st.kheap.InUse p := by
    rw [hk]
    simp [Kheap.InUse, Kheap.initial]
  refine ⟨?_, fun a => ?_, fun p hp' => absurd hp' (hno p)⟩
  · rw [hk, hl]
    exact kheapInv_initial _
  · rw [hp]
    simp [hno]

private theorem Inv.freshPage (hS : S.Lawful held) (hi : Inv held pages s) :
    (S.allocKpages 1 s.st.pages).1 = 0 ∨
      FreshPage s.st.kheap (S.allocKpages 1 s.st.pages).1 := by
  cases hS.grant s.st.pages with
  | inl hz => exact .inl hz.1
  | inr hg =>
      obtain ⟨hpos, hal, htop, hnot, _⟩ := hg
      refine .inr ⟨hpos, hal, htop, fun q hq he => hnot ?_⟩
      exact (hi.owns _).mpr (.inr ⟨q, hq, he⟩)

private theorem Inv.kmalloc (hS : S.Lawful held) (hi : Inv held pages s) {sz ptr : Nat}
    {st : HeapSt σ} (ho : KmallocOutcome S s.st s.live sz ptr st) :
    Inv held pages ⟨st, recordBlock ptr sz s.live⟩ := by
  cases ho with
  | taken p ptr off n _ _ hp hblk hinv =>
      rw [hinv.recordBlock_eq]
      refine ⟨hinv, fun a => ?_, fun q hq => ?_⟩
      · simp only [setCounters_pageaddr, inUse_setCounters]
        exact hi.owns a
      · simp only [setCounters_pageaddr]
        exact hi.fresh q hq
  | made p ptr kh m hwants hpos hp hpin huse hsame haddr hblk hmem hinv =>
      rw [hinv.recordBlock_eq]
      obtain ⟨_, _, _, hnot, hheld⟩ := (hS.grant s.st.pages).resolve_left fun h => by omega
      refine ⟨hinv, fun a => ?_, fun q hq => ?_⟩
      · rw [hheld a, hi.owns a]
        constructor
        · rintro (he | h0 | ⟨q, hq, hqa⟩)
          · exact .inr ⟨p, hpin, haddr.trans he.symm⟩
          · exact .inl h0
          · exact .inr ⟨q, (huse q).mpr (.inr hq), by rw [hsame q hq]; exact hqa⟩
        · rintro (h0 | ⟨q, hq, hqa⟩)
          · exact .inr (.inl h0)
          · cases (huse q).mp hq with
            | inl he =>
                subst he
                exact .inl (hqa.symm.trans haddr)
            | inr hold => exact .inr (.inr ⟨q, hold, by rw [← hsame q hold]; exact hqa⟩)
      · cases (huse q).mp hq with
        | inl he =>
            subst he
            rw [haddr]
            exact fun h0 => hnot ((hi.owns _).mpr (.inl h0))
        | inr hold =>
            rw [hsame q hold]
            exact hi.fresh q hold
  | refused hwants hz =>
      have hheld := ((hS.grant s.st.pages).resolve_right fun h => by omega).2
      exact ⟨hi.heap, fun a => (hheld a).trans (hi.owns a), hi.fresh⟩
  | full _ _ => exact hi

private theorem Inv.kfree (hS : S.Lawful held) (hi : Inv held pages s) {ptr : Nat} {st : HeapSt σ}
    (ho : KfreeOutcome S s.st s.live ptr st) : Inv held pages ⟨st, dropBlock s.live ptr⟩ := by
  cases ho with
  | kept p off n hp hblk hsome hinv =>
      refine ⟨hinv, fun a => ?_, fun q hq => ?_⟩
      · simp only [setCounters_pageaddr, inUse_setCounters]
        exact hi.owns a
      · simp only [setCounters_pageaddr]
        exact hi.fresh q hq
  | returned p kh hp hblk hnone huse hpab hinv =>
      have haddr (q : Nat) : (kh.pagerefs q).pageaddr = (s.st.kheap.pagerefs q).pageaddr := by
        simp only [Pageref.pageaddr, hpab q]
      have hheldp := (hi.owns (s.st.kheap.pagerefs p).pageaddr).mpr (.inr ⟨p, hp, rfl⟩)
      refine ⟨hinv, fun a => ?_, fun q hq => ?_⟩
      · rw [hS.release _ _ hheldp, hi.owns a]
        simp only [haddr, huse]
        constructor
        · rintro ⟨h0 | ⟨q, hq, rfl⟩, hne⟩
          · exact .inl h0
          · exact .inr ⟨q, ⟨fun he => hne (he ▸ rfl), hq⟩, rfl⟩
        · rintro (h0 | ⟨q, ⟨hne, hq⟩, rfl⟩)
          · exact ⟨.inl h0, fun he => hi.fresh p hp (he ▸ h0)⟩
          · exact ⟨.inr ⟨q, hq, rfl⟩, fun he => hne (hi.heap.apart q p hq hp he)⟩
      · rw [haddr]
        exact hi.fresh q ((huse q).mp hq).2

private theorem kfree_eq {ptr : Nat} (hi : KheapInv s.st.kheap s.st.mem s.live)
    (hp : ptr ∈ s.live.map Prod.fst) :
    ∃ st, s.st.kfree S ptr = some st ∧ KfreeOutcome S s.st s.live ptr st := by
  obtain ⟨st, hrun, ho⟩ := hi.subpageKfree_spec S hp
  obtain ⟨b, hb, rfl⟩ := List.mem_map.mp hp
  have hne : b.1 ≠ 0 := Nat.ne_of_gt (hi.block_pos hb)
  exact ⟨st, by simp [HeapSt.kfree, hne, hrun], ho⟩

private theorem store_inv {h : Kheap} {m m' : ByteStore} {live : List (Nat × Nat)}
    (hi : KheapInv h m live) (hm : ∀ x, (∀ b ∈ live, x < b.1 ∨ b.1 + b.2 ≤ x) → m' x = m x) :
    KheapInv h m' live := by
  refine hi.congr_mem fun p a hp ha hdead => ?_
  apply ByteStore.word_congr
  intro x hlo hhi
  apply hm
  intro b hb
  obtain ⟨q, hq, hbq, hbt⟩ := hi.inside b hb
  have hsz := (blocktypeOf_spec hbt).2
  have hend := hbq.end_le (hi.page q hq).sized
  have haend := ha.end_le (hi.page p hp).sized
  have h16 : 16 ≤ (h.pagerefs p).size := (blockSize_cases (hi.page p hp).sized).1
  have hqs : (h.pagerefs q).size = blockSize (h.pagerefs q).blocktype := rfl
  by_cases hpq : p = q
  · subst hpq
    have hne : a ≠ b.1 := fun he => hdead (he ▸ List.mem_map_of_mem hb)
    have := ha.disjoint hbq hne
    omega
  · have := page_disjoint fun he => hpq (hi.apart p q hp hq he)
    have := ha.1
    have := hbq.1
    omega

private theorem Inv.step (hS : S.Lawful held) (hi : Inv held pages s) (h : Step S s t) :
    Inv held pages t := by
  cases h with
  | subpageKmalloc sz ptr st hsz hrun =>
      obtain ⟨ptr', st', hrun', ho⟩ := hi.heap.subpageKmalloc_spec S hsz fun _ => hi.freshPage hS
      rw [hrun'] at hrun
      cases hrun
      exact hi.kmalloc hS ho
  | kfree ptr st hp hrun =>
      obtain ⟨st', hrun', ho⟩ := kfree_eq (S := S) hi.heap hp
      rw [hrun'] at hrun
      cases hrun
      exact hi.kfree hS ho
  | store m hm => exact ⟨store_inv hi.heap hm, hi.owns, hi.fresh⟩

private theorem inv_of_reachable (hS : S.Lawful held) (h : Reachable (Starts pages) (Step S) s) :
    Inv held pages s :=
  h.invariant (fun _ => inv_starts) fun _ _ _ hi hst => hi.step hS hst

/-- The size of the blocks that serve a request. -/
def classSize (sz : Nat) : Nat := blockSize ((blocktypeOf sz).getD 0)

/-- Two blocks share no byte. -/
def Apart (b c : Nat × Nat) : Prop := b.1 + classSize b.2 ≤ c.1 ∨ c.1 + classSize c.2 ≤ b.1

private theorem live_apart {h : Kheap} {m : ByteStore} {live : List (Nat × Nat)}
    (hi : KheapInv h m live) {b c : Nat × Nat} (hb : b ∈ live) (hc : c ∈ live) (hne : b.1 ≠ c.1) :
    Apart b c := by
  obtain ⟨p, hp, hbp, hbt⟩ := hi.inside b hb
  obtain ⟨q, hq, hcq, hct⟩ := hi.inside c hc
  have hbs : classSize b.2 = (h.pagerefs p).size := by simp [classSize, hbt, Pageref.size]
  have hcs : classSize c.2 = (h.pagerefs q).size := by simp [classSize, hct, Pageref.size]
  rw [Apart, hbs, hcs]
  by_cases hpq : p = q
  · subst hpq
    exact hbp.disjoint hcq hne
  · have hpages := page_disjoint fun he => hpq (hi.apart p q hp hq he)
    have hbend := hbp.end_le (hi.page p hp).sized
    have hcend := hcq.end_le (hi.page q hq).sized
    have := hbp.1
    have := hcq.1
    omega

private theorem pairwise_apart {h : Kheap} {m : ByteStore} {live : List (Nat × Nat)}
    (hi : KheapInv h m live) : live.Pairwise Apart := by
  have hnd := List.pairwise_map.mp hi.nodup
  exact hnd.imp_of_mem fun hb hc hne => live_apart hi hb hc hne

private theorem block_page {pr : Pageref} {a : Nat} (ha : pr.IsBlock a) :
    roundDown a = pr.pageaddr := by
  have hmod := pageaddr_mod pr
  obtain ⟨hlo, hhi, _⟩ := ha
  simp only [roundDown, pageSize] at *
  omega

private theorem block_aligned {pr : Pageref} {a : Nat} (ha : pr.IsBlock a)
    (hb : pr.blocktype < nSizes) : a % pr.size = 0 := by
  obtain ⟨_, hdvd, _, _, _⟩ := blockSize_cases hb
  have hs : pr.size = blockSize pr.blocktype := rfl
  have hpage : pr.size ∣ pr.pageaddr := by
    have h1 : pr.size ∣ pageSize := ⟨pageSize / pr.size, by rw [Nat.mul_comm, hs, hdvd]⟩
    exact h1.trans (Nat.dvd_of_mod_eq_zero (pageaddr_mod pr))
  have hoff := Nat.dvd_of_mod_eq_zero ha.2.2
  have hsum : pr.pageaddr + (a - pr.pageaddr) = a := by
    have := ha.1
    omega
  exact Nat.mod_eq_zero_of_dvd (hsum ▸ Nat.dvd_add hpage hoff)

/-- The subpage heap along every run over a page allocator that grants only fresh pages: live
blocks are apart, aligned and large enough, free lists hold exactly the other blocks of their
page, every used page reference stands on its two lists, a page is held exactly as long as it
contains a live block, and no assertion fires. -/
theorem subpage_heap_sound (hS : S.Lawful held) (h : Reachable (Starts pages) (Step S) s) :
    s.live.Pairwise Apart ∧
    (∀ b ∈ s.live, b.2 ≤ classSize b.2 ∧ b.1 % classSize b.2 = 0 ∧
      b.1 + classSize b.2 ≤ roundDown b.1 + pageSize) ∧
    (∀ p, s.st.kheap.InUse p → ∃ l,
      Chain (freeNext s.st.mem) (s.st.kheap.pagerefs p).freeHead l ∧ l.Nodup ∧
      l.length = (s.st.kheap.pagerefs p).nfree ∧
      ∀ a ∈ l, (s.st.kheap.pagerefs p).IsBlock a ∧
        ∀ b ∈ s.live, a + (s.st.kheap.pagerefs p).size ≤ b.1 ∨ b.1 + classSize b.2 ≤ a) ∧
    (∃ l, Chain (fun p => (s.st.kheap.pagerefs p).nextAll) s.st.kheap.allbase l ∧ l.Nodup ∧
      ∀ p, p ∈ l ↔ s.st.kheap.InUse p) ∧
    (∀ blk, blk < nSizes → ∃ l,
      Chain (fun p => (s.st.kheap.pagerefs p).nextSamesize) (s.st.kheap.sizebases blk) l ∧
      l.Nodup ∧ ∀ p, p ∈ l ↔ s.st.kheap.InUse p ∧ (s.st.kheap.pagerefs p).blocktype = blk) ∧
    (∀ a, held s.st.pages a ↔ held pages a ∨ ∃ b ∈ s.live, roundDown b.1 = a) ∧
    (∀ sz, sz < largestSubpageSize → (s.st.subpageKmalloc S sz).isSome) ∧
    (∀ ptr ∈ s.live.map Prod.fst, (s.st.kfree S ptr).isSome) := by
  have hi := inv_of_reachable hS h
  have hh := hi.heap
  have hclass (b : Nat × Nat) (p : Nat)
      (hbt : blocktypeOf b.2 = some (s.st.kheap.pagerefs p).blocktype) :
      classSize b.2 = (s.st.kheap.pagerefs p).size := by
    simp [classSize, hbt, Pageref.size]
  refine ⟨pairwise_apart hh, ?_, ?_, hh.listed, hh.sorted, ?_, ?_, ?_⟩
  · intro b hb
    obtain ⟨p, hp, hblk, hbt⟩ := hh.inside b hb
    have hsized := (hh.page p hp).sized
    rw [hclass b p hbt, block_page hblk]
    exact ⟨(blocktypeOf_spec hbt).2, block_aligned hblk hsized, hblk.end_le hsized⟩
  · intro p hp
    obtain ⟨l, hc, hnd, hlen, hmem⟩ := (hh.page p hp).list
    refine ⟨l, hc, hnd, hlen, fun a ha => ⟨((hmem a).mp ha).1, fun b hb => ?_⟩⟩
    obtain ⟨hblk, hdead⟩ := (hmem a).mp ha
    obtain ⟨q, hq, hbq, hbt⟩ := hh.inside b hb
    rw [hclass b q hbt]
    by_cases hpq : p = q
    · subst hpq
      exact hblk.disjoint hbq fun he => hdead (he ▸ List.mem_map_of_mem hb)
    · have hpages := page_disjoint fun he => hpq (hh.apart p q hp hq he)
      have haend := hblk.end_le (hh.page p hp).sized
      have hbend := hbq.end_le (hh.page q hq).sized
      have := hblk.1
      have := hbq.1
      omega
  · intro a
    rw [hi.owns a]
    constructor
    · rintro (h0 | ⟨p, hp, rfl⟩)
      · exact .inl h0
      · obtain ⟨x, hx, hblk⟩ := hh.used p hp
        obtain ⟨b, hb, rfl⟩ := List.mem_map.mp hx
        exact .inr ⟨b, hb, block_page hblk⟩
    · rintro (h0 | ⟨b, hb, rfl⟩)
      · exact .inl h0
      · obtain ⟨p, hp, hblk, _⟩ := hh.inside b hb
        exact .inr ⟨p, hp, (block_page hblk).symm⟩
  · intro sz hsz
    obtain ⟨ptr, st, hrun, _⟩ := hh.subpageKmalloc_spec S hsz fun _ => hi.freshPage hS
    rw [hrun]
    rfl
  · intro ptr hp
    obtain ⟨st, hrun, _⟩ := kfree_eq (S := S) hh hp
    rw [hrun]
    rfl

/-- First fit over five pages; the state lists the pages that are handed out. -/
def fivePageSupply : PageSupply (List Nat) where
  allocKpages _ s :=
    match (List.range 5).find? fun j => 0x80004000 + j * pageSize ∉ s with
    | none => (0, s)
    | some j => (0x80004000 + j * pageSize, (0x80004000 + j * pageSize) :: s)
  freeKpages a s := s.filter fun b => b ≠ a

private theorem fivePageSupply_lawful : fivePageSupply.Lawful fun s a => a ∈ s := by
  constructor
  · intro s
    cases hf : (List.range 5).find? fun j => 0x80004000 + j * pageSize ∉ s with
    | none =>
        simp only [fivePageSupply, hf]
        exact .inl ⟨trivial, fun _ => trivial⟩
    | some j =>
        have hj : j < 5 := List.mem_range.mp (List.mem_of_find?_eq_some hf)
        have hnot : 0x80004000 + j * pageSize ∉ s := by simpa using List.find?_some hf
        simp only [fivePageSupply, hf, pageSize] at *
        exact .inr ⟨by omega, by omega, by omega, hnot, fun b => List.mem_cons⟩
  · intro s a _ b
    simp [fivePageSupply]

def emptyHeap : HeapClients (List Nat) := ⟨⟨Kheap.initial, fun _ => 0, []⟩, []⟩

/-- One call: `kmalloc` of a size, or `kfree` of a pointer -/
def callHeap (s : HeapClients (List Nat)) : Nat ⊕ Nat → Option (HeapClients (List Nat))
  | .inl sz => if sz < largestSubpageSize then
      (s.st.subpageKmalloc fivePageSupply sz).map fun r => ⟨r.2, recordBlock r.1 sz s.live⟩ else none
  | .inr ptr => if ptr ∈ s.live.map Prod.fst then
      (s.st.kfree fivePageSupply ptr).map fun st => ⟨st, dropBlock s.live ptr⟩ else none

private theorem step_callHeap {s t : HeapClients (List Nat)} {call : Nat ⊕ Nat} (h : callHeap s call = some t) :
    Step fivePageSupply s t := by
  cases call with
  | inl sz =>
    rw [callHeap, Option.ite_none_right_eq_some, Option.map_eq_some_iff] at h
    obtain ⟨hsz, ⟨ptr, st⟩, hrun, rfl⟩ := h
    exact .subpageKmalloc sz ptr st hsz hrun
  | inr ptr =>
    rw [callHeap, Option.ite_none_right_eq_some, Option.map_eq_some_iff] at h
    obtain ⟨hlive, st, hrun, rfl⟩ := h
    exact .kfree ptr st hlive hrun

private theorem reachable_calls {s t : HeapClients (List Nat)} {calls : List (Nat ⊕ Nat)}
    (h : Reachable (Starts []) (Step fivePageSupply) s) (hrun : calls.foldlM callHeap s = some t) :
    Reachable (Starts []) (Step fivePageSupply) t := by
  induction calls generalizing s with
  | nil =>
    cases hrun
    exact h
  | cons call calls ih =>
    rw [List.foldlM_cons] at hrun
    obtain ⟨u, hcall, hrest⟩ := Option.bind_eq_some_iff.mp hrun
    exact ih (h.next (step_callHeap hcall)) hrest

theorem subpage_heap_sound_five : ∃ s, Reachable (Starts []) (Step fivePageSupply) s ∧
    s.live = [(0x80004f00, 120), (0x80005800, 2000), (0x80004f80, 100)] ∧
    s.live.Pairwise Apart ∧ ∀ a, a ∈ s.st.pages ↔ a ∈ [] ∨ ∃ b ∈ s.live, roundDown b.1 = a := by
  have hrun : (([.inl 100, .inl 100, .inl 2000, .inr 0x80004f00, .inl 120] : List (Nat ⊕ Nat)).foldlM callHeap
      emptyHeap).any (fun s => decide (s.live =
        [(0x80004f00, 120), (0x80005800, 2000), (0x80004f80, 100)])) = true := by decide +kernel
  obtain ⟨s, hs, hlive⟩ := (Option.any_eq_true _ _).mp hrun
  have hreach := reachable_calls (Reachable.start (show Starts [] emptyHeap from ⟨rfl, rfl, rfl⟩)) hs
  have hsound := subpage_heap_sound fivePageSupply_lawful hreach
  exact ⟨s, hreach, of_decide_eq_true hlive, hsound.1, hsound.2.2.2.2.2.1⟩

end HeapClients

end CseOs.Kernel
