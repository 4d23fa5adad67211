import CseOs.Kernel.Heap.Invariant

/-!
# Allocation from the kernel heap

`subpage_kmalloc` takes a block from a page of the right size, makes a new page when there is
none, or fails without changing the heap. No assertion on its way can fire.
-/

namespace CseOs.Kernel

open Framework

variable {σ : Type} {h : Kheap} {m : ByteStore} {live : List (Nat × Nat)} {p q : Nat}

private theorem bit_clear {w : BitVec 32} {j : Nat} (hj : j < 32) :
    w &&& BitVec.twoPow 32 j = 0#32 ↔ w.getLsbD j = false := by
  rw [BitVec.and_twoPow]
  cases hb : w.getLsbD j with
  | false => simp
  | true =>
      simp only [if_true, Bool.true_eq_false, iff_false]
      intro hz
      have hbit := congrArg (fun v => v.getLsbD j) hz
      simp [hj] at hbit

private theorem exists_clear_bit {w : BitVec 32} (h : w ≠ BitVec.allOnes 32) :
    ∃ j, j < 32 ∧ w.getLsbD j = false := by
  by_contra hall
  push Not at hall
  apply h
  apply BitVec.eq_of_getLsbD_eq
  intro j hj
  have hset := hall j hj
  rw [BitVec.getLsbD_allOnes]
  simpa [hj] using hset

private theorem inUse_set {i j : Nat} (hi : i < inuseWords) (hj : j < 32) (w : BitVec 32)
    (hw : w = h.pagerefsInuse i ||| BitVec.twoPow 32 j) :
    (h.setInuse i w).InUse q ↔
      q = i * 32 + j ∨ h.InUse q := by
  subst hw
  simp only [Kheap.InUse, Kheap.setInuse, nPagerefs, inuseWords] at *
  by_cases hqi : q / 32 = i
  · subst hqi
    have hiff : q % 32 = j ↔ q = q / 32 * 32 + j := by omega
    have hlt : q < 256 := by omega
    simp only [Function.update_self, BitVec.getLsbD_or, BitVec.getLsbD_twoPow, hj, decide_true,
      Bool.true_and, Bool.or_eq_true, decide_eq_true_eq, ← hiff, hlt, true_and]
    tauto
  · rw [Function.update_of_ne hqi]
    have : q ≠ i * 32 + j := by omega
    simp [this]

private theorem inUse_clear {w : BitVec 32}
    (hw : w = h.pagerefsInuse (p / 32) &&& ~~~ BitVec.twoPow 32 (p % 32)) :
    (h.setInuse (p / 32) w).InUse q ↔
      q ≠ p ∧ h.InUse q := by
  subst hw
  simp only [Kheap.InUse, Kheap.setInuse]
  by_cases hqi : q / 32 = p / 32
  · rw [← hqi]
    have hlt : q % 32 < 32 := Nat.mod_lt _ (by decide)
    simp only [Function.update_self, BitVec.getLsbD_and, BitVec.getLsbD_not,
      BitVec.getLsbD_twoPow, hlt, decide_true, Bool.true_and, Bool.and_eq_true, Bool.not_eq_true']
    have hiff : p % 32 = q % 32 ↔ q = p := by omega
    have hp : p % 32 < 32 := Nat.mod_lt _ (by decide)
    simp only [hp, decide_true, Bool.true_and, decide_eq_false_iff_not, hiff]
    tauto
  · rw [Function.update_of_ne hqi]
    have : q ≠ p := fun he => hqi (he ▸ rfl)
    simp [this]

theorem allocpageref_cases (h : Kheap) :
    h.allocpageref = some (none, h) ∨
    ∃ p kh, h.allocpageref = some (some p, kh) ∧ p < nPagerefs ∧ ¬ h.InUse p ∧
      kh = { h with pagerefsInuse := kh.pagerefsInuse } ∧
      (∀ q, kh.InUse q ↔ q = p ∨ h.InUse q) ∧ kh.freepageref p = some h := by
  unfold Kheap.allocpageref
  cases hi : (List.range inuseWords).find? fun i => h.pagerefsInuse i ≠ BitVec.allOnes 32 with
  | none => exact .inl rfl
  | some i =>
      have hilt : i < inuseWords := List.mem_range.mp (List.mem_of_find?_eq_some hi)
      have hne : h.pagerefsInuse i ≠ BitVec.allOnes 32 := by simpa using List.find?_some hi
      cases hj : (List.range 32).find? fun j => h.pagerefsInuse i &&& BitVec.twoPow 32 j = 0#32 with
      | none =>
          obtain ⟨j, hj32, hclear⟩ := exists_clear_bit hne
          have := List.find?_eq_none.mp hj j (List.mem_range.mpr hj32)
          rw [decide_eq_true_eq, bit_clear hj32] at this
          exact absurd hclear this
      | some j =>
          have hjlt : j < 32 := List.mem_range.mp (List.mem_of_find?_eq_some hj)
          have hclear : (h.pagerefsInuse i).getLsbD j = false := by
            have := List.find?_some hj
            rwa [decide_eq_true_eq, bit_clear hjlt] at this
          have hdiv : (i * 32 + j) / 32 = i := by omega
          have hmod : (i * 32 + j) % 32 = j := by omega
          have hlt : i * 32 + j < nPagerefs := by
            simp only [inuseWords, nPagerefs] at *
            omega
          refine .inr ⟨i * 32 + j, h.setInuse i (h.pagerefsInuse i ||| BitVec.twoPow 32 j), ?_,
            hlt, ?_, rfl, fun q => inUse_set hilt hjlt _ rfl, ?_⟩
          · simp only [hj]
          · rintro ⟨_, hb⟩
            rw [hdiv, hmod, hclear] at hb
            cases hb
          · have hset : (h.pagerefsInuse i ||| BitVec.twoPow 32 j) &&& BitVec.twoPow 32 j ≠ 0#32 := by
              rw [Ne, bit_clear hjlt]
              simp [hjlt]
            have hback : (h.pagerefsInuse i ||| BitVec.twoPow 32 j) &&& ~~~ BitVec.twoPow 32 j =
                h.pagerefsInuse i := by
              apply BitVec.eq_of_getLsbD_eq
              intro k hk
              simp only [BitVec.getLsbD_and, BitVec.getLsbD_or, BitVec.getLsbD_not,
                BitVec.getLsbD_twoPow, hk, decide_true, Bool.true_and]
              by_cases hjk : j = k
              · subst hjk
                simp [hclear]
              · simp [hjk]
            simp [Kheap.freepageref, Kheap.setInuse, hlt, hdiv, hmod, hset, hback]

theorem freepageref_spec (hp : h.InUse p) :
    ∃ kh, h.freepageref p = some kh ∧ kh = { h with pagerefsInuse := kh.pagerefsInuse } ∧
      ∀ q, kh.InUse q ↔ q ≠ p ∧ h.InUse q := by
  have hset : h.pagerefsInuse (p / 32) &&& BitVec.twoPow 32 (p % 32) ≠ 0#32 := by
    rw [Ne, bit_clear (Nat.mod_lt _ (by decide)), hp.2]
    simp
  refine ⟨h.setInuse (p / 32) (h.pagerefsInuse (p / 32) &&& ~~~BitVec.twoPow 32 (p % 32)), ?_,
    rfl, fun q => inUse_clear rfl⟩
  simp [Kheap.freepageref, hp.1, hset]

/-- A page whose list head and count change, together with memory and live blocks that differ
only inside that page. -/
theorem KheapCore.setCounters {m' : ByteStore} {live' : List (Nat × Nat)} {off n : Nat}
    (hi : KheapCore h m live)
    (hpage : PageInv { h.pagerefs p with freelistOffset := off, nfree := n } m'
      (live'.map Prod.fst))
    (hmem : ∀ q a, h.InUse q → q ≠ p → (h.pagerefs q).IsBlock a → m'.word a = m.word a)
    (hlive : ∀ q a, h.InUse q → q ≠ p → (h.pagerefs q).IsBlock a →
      (a ∈ live'.map Prod.fst ↔ a ∈ live.map Prod.fst))
    (hinside : ∀ b ∈ live', b ∈ live ∨ ∃ p, h.InUse p ∧ (h.pagerefs p).IsBlock b.1 ∧
      blocktypeOf b.2 = some (h.pagerefs p).blocktype)
    (hnodup : (live'.map Prod.fst).Nodup) :
    KheapCore (h.setCounters p off n) m' live' := by
  have haddr := setCounters_pageaddr h p off n
  have hblk := setCounters_blocktype h p off n
  refine ⟨?_, ?_, ?_, ?_, ?_, hnodup⟩
  · obtain ⟨l, hc, hnd, hl⟩ := hi.listed
    exact ⟨l, hc.congr fun q _ => by simp, hnd, hl⟩
  · intro blk hb
    obtain ⟨l, hc, hnd, hl⟩ := hi.sorted blk hb
    refine ⟨l, hc.congr fun q _ => by simp, hnd, fun q => ?_⟩
    rw [hl q, hblk q]
    rfl
  · intro q hq
    by_cases hqp : q = p
    · subst hqp
      rw [Kheap.setCounters, setPageref_self]
      exact hpage
    · rw [Kheap.setCounters, setPageref_of_ne h _ hqp]
      exact (hi.page q hq).congr (fun a ha _ => hmem q a hq hqp ha)
        fun a ha => hlive q a hq hqp ha
  · intro q r hq hr he
    rw [haddr q, haddr r] at he
    exact hi.apart q r hq hr he
  · intro b hb
    have hold : ∃ p, h.InUse p ∧ (h.pagerefs p).IsBlock b.1 ∧
        blocktypeOf b.2 = some (h.pagerefs p).blocktype := by
      cases hinside b hb with
      | inl hbl => exact hi.inside b hbl
      | inr hnew => exact hnew
    obtain ⟨q, hq, hbq, hsz⟩ := hold
    exact ⟨q, hq, (setCounters_isBlock h p off n q b.1).mpr hbq, by rw [hblk q]; exact hsz⟩

private theorem KheapCore.findFree_cases {st : HeapSt σ} (hi : KheapCore st.kheap st.mem live) {blk : Nat}
    (hb : blk < nSizes) :
    (∃ p, st.findFree blk = some (some p) ∧ st.kheap.InUse p ∧
      (st.kheap.pagerefs p).blocktype = blk ∧ 0 < (st.kheap.pagerefs p).nfree) ∨
    (st.findFree blk = some none ∧ ∀ p, st.kheap.InUse p →
      (st.kheap.pagerefs p).blocktype = blk → (st.kheap.pagerefs p).nfree = 0) := by
  obtain ⟨l, hc, hnd, hl⟩ := hi.sorted blk hb
  have hlen := KheapCore.length_le hnd fun p hp => ((hl p).mp hp).1
  rw [HeapSt.findFree, hc.walk_eq hlen fun p hp => decide_eq_true ((hl p).mp hp).2]
  cases hf : l.find? fun p => 0 < (st.kheap.pagerefs p).nfree with
  | none =>
      refine .inr ⟨rfl, fun p hp hpb => ?_⟩
      have := List.find?_eq_none.mp hf p ((hl p).mpr ⟨hp, hpb⟩)
      simpa using this
  | some p =>
      have hpl := (hl p).mp (List.mem_of_find?_eq_some hf)
      have hpos := List.find?_some hf
      exact .inl ⟨p, rfl, hpl.1, hpl.2, by simpa using hpos⟩

theorem KheapCore.doalloc_spec (st : HeapSt σ) (hi : KheapCore st.kheap st.mem live)
    (hp : st.kheap.InUse p) (hfree : 0 < (st.kheap.pagerefs p).nfree) {sz : Nat}
    (hsz : blocktypeOf sz = some (st.kheap.pagerefs p).blocktype) :
    ∃ ptr off n, st.doalloc p = some (ptr, { st with kheap := st.kheap.setCounters p off n }) ∧
      (st.kheap.pagerefs p).IsBlock ptr ∧ ptr ∉ live.map Prod.fst ∧
      KheapCore (st.kheap.setCounters p off n) st.mem ((ptr, sz) :: live) := by
  have hpi := hi.page p hp
  obtain ⟨l, hc, hnd, hlen, hmem⟩ := hpi.list
  generalize hpr : st.kheap.pagerefs p = pr at *
  cases l with
  | nil => simp only [List.length_nil] at hlen; omega
  | cons ptr l =>
      obtain ⟨hhead, hrest⟩ := hc
      obtain ⟨hptrl, hnd⟩ := List.nodup_cons.mp hnd
      have hptr := (hmem ptr).mp List.mem_cons_self
      have hoff : pr.freelistOffset ≠ invalidOffset ∧ ptr = pr.pageaddr + pr.freelistOffset := by
        rw [Pageref.freeHead] at hhead
        split at hhead
        · cases hhead
        · rename_i hne
          exact ⟨hne, (Option.some.inj hhead).symm⟩
      have hofflt : pr.freelistOffset < pageSize := by
        have := hptr.1.2.1
        omega
      have hlive' (q a : Nat) (hq : st.kheap.InUse q) (hne : q ≠ p)
          (hqa : (st.kheap.pagerefs q).IsBlock a) :
          a ∈ ((ptr, sz) :: live).map Prod.fst ↔ a ∈ live.map Prod.fst := by
        have hap : a ≠ ptr := by
          rintro rfl
          refine hne (hi.page_unique hq hp hqa.1 hqa.2.1 ?_ ?_)
          · rw [hpr]
            exact hptr.1.1
          · rw [hpr]
            exact hptr.1.2.1
        simp [hap]
      have hcore {off n : Nat} (hpage : PageInv { pr with freelistOffset := off, nfree := n }
          st.mem (((ptr, sz) :: live).map Prod.fst)) :
          KheapCore (st.kheap.setCounters p off n) st.mem ((ptr, sz) :: live) := by
        subst hpr
        refine hi.setCounters hpage (fun _ _ _ _ _ => rfl) hlive' ?_ ?_
        · intro b hb
          cases List.mem_cons.mp hb with
          | inl he => exact .inr ⟨p, hp, he ▸ hptr.1, he ▸ hsz⟩
          | inr hbl => exact .inl hbl
        · exact List.nodup_cons.mpr ⟨hptr.2, hi.nodup⟩
      have hmem' (a : Nat) : a ∈ l ↔ pr.IsBlock a ∧ a ∉ ((ptr, sz) :: live).map Prod.fst := by
        simp only [List.map_cons, List.mem_cons, not_or]
        constructor
        · intro ha
          have h1 := (hmem a).mp (List.mem_cons_of_mem ptr ha)
          exact ⟨h1.1, fun he => hptrl (he ▸ ha), h1.2⟩
        · rintro ⟨hb, hne, hn⟩
          cases List.mem_cons.mp ((hmem a).mpr ⟨hb, hn⟩) with
          | inl he => exact absurd he hne
          | inr ha => exact ha
      simp only [List.length_cons] at hlen
      cases l with
      | nil =>
          have hz : st.mem.word ptr = 0 := by
            have hn : nullable (st.mem.word ptr) = none := hrest
            simpa [nullable] using hn
          refine ⟨ptr, invalidOffset, pr.nfree - 1, ?_, hptr.1, hptr.2, hcore ?_⟩
          · have hn0 : pr.nfree - 1 = 0 := by simp only [List.length_nil] at hlen; omega
            simp [HeapSt.doalloc, Kheap.setCounters, hpr, hofflt, ← hoff.2, hz, hn0]
          · refine ⟨hpi.pos, hpi.top, hpi.sized, [], ?_, List.nodup_nil, ?_, hmem'⟩
            · exact if_pos rfl
            · simp only [List.length_nil] at hlen ⊢
              omega
      | cons b l =>
          obtain ⟨hb, hrest'⟩ := hrest
          have hb' := (hmem b).mp (by simp)
          have hw : st.mem.word ptr = b ∧ b ≠ 0 := by
            simp only [freeNext, nullable] at hb
            split at hb
            · cases hb
            · rename_i hne
              have he := Option.some.inj hb
              exact ⟨he, he ▸ hne⟩
          have htop := hpi.top
          have hbo : addrSub b pr.pageaddr = b - pr.pageaddr :=
            addrSub_of_le hb'.1.1 (lt_trans hb'.1.2.1 htop)
          have hblt : b - pr.pageaddr < pageSize := by
            have := hb'.1.2.1
            have := hb'.1.1
            omega
          have hn1 : 0 < pr.nfree - 1 := by simp only [List.length_cons] at hlen; omega
          refine ⟨ptr, b - pr.pageaddr, pr.nfree - 1, ?_, hptr.1, hptr.2, hcore ?_⟩
          · simp [HeapSt.doalloc, Kheap.setCounters, hpr, hofflt, ← hoff.2, hw.1, hw.2, hbo, hblt, hn1]
          · refine ⟨hpi.pos, hpi.top, hpi.sized, b :: l, ⟨?_, hrest'⟩, hnd, ?_, hmem'⟩
            · have hne : b - pr.pageaddr ≠ invalidOffset := by
                simp only [pageSize, invalidOffset] at *
                omega
              have hsum : pr.pageaddr + (b - pr.pageaddr) = b := by
                have := hb'.1.1
                omega
              have haddr : Pageref.pageaddr { pr with
                  freelistOffset := b - pr.pageaddr, nfree := pr.nfree - 1 } = pr.pageaddr := rfl
              simp only [Pageref.freeHead, if_neg hne, haddr, hsum]
            · simp only [List.length_cons] at hlen ⊢
              omega

/-- The blocks of a fresh page in the order its free list has them. -/
def threaded (fla size : Nat) : Nat → List Nat
  | 0 => [fla]
  | i + 1 => (fla + (i + 1) * size) :: threaded fla size i

private theorem mem_threaded {fla size a i : Nat} :
    a ∈ threaded fla size i ↔ ∃ k, k ≤ i ∧ a = fla + k * size := by
  induction i with
  | zero => simp [threaded]
  | succ i ih =>
      rw [threaded, List.mem_cons, ih]
      constructor
      · rintro (rfl | ⟨k, hk, rfl⟩)
        · exact ⟨i + 1, le_refl _, rfl⟩
        · exact ⟨k, Nat.le_succ_of_le hk, rfl⟩
      · rintro ⟨k, hk, rfl⟩
        cases Nat.lt_or_eq_of_le hk with
        | inl hlt => exact .inr ⟨k, Nat.le_of_lt_succ hlt, rfl⟩
        | inr heq => exact .inl (heq ▸ rfl)

private theorem length_threaded (fla size i : Nat) : (threaded fla size i).length = i + 1 := by
  induction i with
  | zero => rfl
  | succ i ih => rw [threaded, List.length_cons, ih]

private theorem threaded_nodup {size : Nat} (fla i : Nat) (hs : 0 < size) :
    (threaded fla size i).Nodup := by
  induction i with
  | zero => simp [threaded]
  | succ i ih =>
      refine List.nodup_cons.mpr ⟨fun hmem => ?_, ih⟩
      obtain ⟨k, hk, he⟩ := mem_threaded.mp hmem
      have hlt : k * size < (i + 1) * size := Nat.mul_lt_mul_of_pos_right (by omega) hs
      omega

private theorem threadBlocks_spec {fla size : Nat} (i : Nat) (hfla : 0 < fla) (hs : 4 ≤ size)
    (htop : fla + (i + 1) * size < 2 ^ 32) :
    ∃ m', threadBlocks fla size i m = some m' ∧
      (∀ x, x < fla ∨ fla + (i + 1) * size ≤ x → m' x = m x) ∧
      Chain (freeNext m') (some (fla + i * size)) (threaded fla size i) := by
  induction i with
  | zero =>
      refine ⟨m.setWord fla 0, rfl, fun x hx => ?_, ?_⟩
      · exact ByteStore.setWord_of_outside (by omega)
      · refine ⟨by simp, ?_⟩
        simp only [freeNext, ByteStore.word_setWord_self m fla (v := 0) (by decide)]
        rfl
  | succ i ih =>
      have hmul : (i + 1 + 1) * size = (i + 1) * size + size := Nat.succ_mul _ _
      have hmul' : (i + 1) * size = i * size + size := Nat.succ_mul _ _
      obtain ⟨m', hrun, hout, hchain⟩ := ih (by omega)
      have hword : (m'.setWord (fla + (i + 1) * size) (fla + i * size)).word
          (fla + (i + 1) * size) = fla + i * size :=
        ByteStore.word_setWord_self m' _ (by omega)
      have hne : fla + (i + 1) * size ≠ fla + i * size := by omega
      refine ⟨m'.setWord (fla + (i + 1) * size) (fla + i * size), ?_, ?_, rfl, ?_⟩
      · simp only [threadBlocks, hrun, Option.bind_eq_bind, Option.bind_some, hword,
          assertThat_of_pos hne]
        rfl
      · intro x hx
        rw [ByteStore.setWord_of_outside (by omega)]
        exact hout x (by omega)
      · have hnz : fla + i * size ≠ 0 := by omega
        have hnext : freeNext (m'.setWord (fla + (i + 1) * size) (fla + i * size))
            (fla + (i + 1) * size) = some (fla + i * size) := by
          simp only [freeNext, hword, nullable, if_neg hnz]
        rw [hnext]
        refine hchain.congr fun b hb => ?_
        obtain ⟨k, hk, rfl⟩ := mem_threaded.mp hb
        have hle : k * size ≤ i * size := Nat.mul_le_mul_right size hk
        simp only [freeNext]
        rw [ByteStore.word_setWord_of_disjoint (by omega)]

/-- An answer of the page allocator the heap can use. -/
structure FreshPage (h : Kheap) (a : Nat) : Prop where
  pos : 0 < a
  aligned : a % pageSize = 0
  top : a + pageSize < 2 ^ 32
  unused : ∀ q, h.InUse q → (h.pagerefs q).pageaddr ≠ a

private theorem mkpab_fields {a blk : Nat} (ha : a % pageSize = 0) (hb : blk < nSizes) :
    roundDown (mkpab a blk) = a ∧ mkpab a blk % pageSize = blk := by
  simp only [mkpab, roundDown, pageSize, nSizes] at *
  omega

/-- The heap after a page was made: page `p` is new and holds free blocks only. -/
structure Carved (h kh : Kheap) (m m' : ByteStore) (live : List (Nat × Nat)) (p a blk : Nat) :
    Prop where
  core : KheapCore kh m' live
  mem : ∀ x, x < a ∨ a + pageSize ≤ x → m' x = m x
  inUse : ∀ q, kh.InUse q ↔ q = p ∨ h.InUse q
  same : ∀ q, h.InUse q → kh.pagerefs q = h.pagerefs q
  pageaddr : (kh.pagerefs p).pageaddr = a
  blocktype : (kh.pagerefs p).blocktype = blk
  nfree : 0 < (kh.pagerefs p).nfree

private theorem KheapCore.carve_spec {kh : Kheap} {a blk : Nat} (hi : KheapCore h m live) (pages : σ)
    (hp : ¬ h.InUse p) (hkh : kh = { h with pagerefsInuse := kh.pagerefsInuse })
    (huse : ∀ q, kh.InUse q ↔ q = p ∨ h.InUse q) (ha : FreshPage h a) (hb : blk < nSizes) :
    ∃ kh' m', HeapSt.carve p a blk ⟨kh, m, pages⟩ = some ⟨kh', m', pages⟩ ∧
      Carved h kh' m m' live p a blk := by
  obtain ⟨h16, hdvd, h2, _, _⟩ := blockSize_cases hb
  have hfields := mkpab_fields ha.aligned hb
  have htop := ha.top
  have hcount : pageSize / blockSize blk - 1 + 1 = pageSize / blockSize blk := by omega
  obtain ⟨m', hrun, hout, hchain⟩ := threadBlocks_spec (m := m)
    (pageSize / blockSize blk - 1) ha.pos (show 4 ≤ blockSize blk by omega) (by rw [hcount, hdvd]; exact htop)
  rw [hcount, hdvd] at hout
  generalize hn : pageSize / blockSize blk = n at *
  have hold (q : Nat) (hq : h.InUse q) : q ≠ p := fun he => hp (he ▸ hq)
  have hfar (q : Nat) (hq : h.InUse q) :
      a + pageSize ≤ (h.pagerefs q).pageaddr ∨ (h.pagerefs q).pageaddr + pageSize ≤ a := by
    have hne := ha.unused q hq
    have h1 := pageaddr_mod (h.pagerefs q)
    have h2 := ha.aligned
    simp only [pageSize] at *
    omega
  let pr : Pageref := ⟨h.sizebases blk, h.allbase, mkpab a blk, (n - 1) * blockSize blk, n⟩
  let kh' : Kheap :=
    { kh.setPageref p pr with
      sizebases := Function.update kh.sizebases blk (some p)
      allbase := some p }
  have hpr : kh'.pagerefs p = pr := setPageref_self kh p pr
  have hrefs : kh.pagerefs = h.pagerefs := by rw [hkh]
  have hbases : kh.sizebases = h.sizebases := by rw [hkh]
  have hall : kh.allbase = h.allbase := by rw [hkh]
  have hsame (q : Nat) (hq : h.InUse q) : kh'.pagerefs q = h.pagerefs q := by
    have : kh'.pagerefs q = kh.pagerefs q := setPageref_of_ne kh pr (hold q hq)
    rw [this, hrefs]
  have huse' (q : Nat) : kh'.InUse q ↔ q = p ∨ h.InUse q := huse q
  have haddr : pr.pageaddr = a := hfields.1
  have hblk : pr.blocktype = blk := hfields.2
  have hfresh (x : Nat) (hx : x ∈ live.map Prod.fst) : ¬ pr.IsBlock x := by
    rintro ⟨hlo, hhi, _⟩
    obtain ⟨b, hbl, rfl⟩ := List.mem_map.mp hx
    obtain ⟨q, hq, ⟨hqlo, hqhi, _⟩, _⟩ := hi.inside b hbl
    have := hfar q hq
    omega
  refine ⟨kh', m', ?_, ⟨⟨?_, ?_, ?_, ?_, ?_, hi.nodup⟩, hout, huse', hsame, ?_, ?_, ?_⟩⟩
  · simp only [HeapSt.carve, hn, hrun, hbases, hall, kh', pr]
    rfl
  · obtain ⟨l, hc, hnd, hl⟩ := hi.listed
    refine ⟨p :: l, ⟨rfl, ?_⟩, List.nodup_cons.mpr ⟨fun hpl => hp ((hl p).mp hpl), hnd⟩, ?_⟩
    · simp only [hpr]
      exact hc.congr fun q hq => by rw [hsame q ((hl q).mp hq)]
    · intro q
      rw [List.mem_cons, huse', hl]
  · intro blk' hb'
    obtain ⟨l, hc, hnd, hl⟩ := hi.sorted blk' hb'
    by_cases he : blk' = blk
    · subst he
      refine ⟨p :: l, ⟨Function.update_self _ _ _, ?_⟩,
        List.nodup_cons.mpr ⟨fun hpl => hp ((hl p).mp hpl).1, hnd⟩, fun q => ?_⟩
      · simp only [hpr]
        exact hc.congr fun q hq => by rw [hsame q ((hl q).mp hq).1]
      · rw [List.mem_cons, huse', hl]
        constructor
        · rintro (rfl | ⟨hq, hqb⟩)
          · exact ⟨.inl rfl, by rw [hpr]; exact hblk⟩
          · exact ⟨.inr hq, by rw [hsame q hq]; exact hqb⟩
        · rintro ⟨rfl | hq, hqb⟩
          · exact .inl rfl
          · exact .inr ⟨hq, by rwa [hsame q hq] at hqb⟩
    · refine ⟨l, ?_, hnd, fun q => ?_⟩
      · have hbase : kh'.sizebases blk' = h.sizebases blk' := by
          have : kh'.sizebases blk' = kh.sizebases blk' := Function.update_of_ne he _ _
          rw [this, hbases]
        rw [hbase]
        exact hc.congr fun q hq => by rw [hsame q ((hl q).mp hq).1]
      · rw [hl, huse']
        constructor
        · rintro ⟨hq, hqb⟩
          exact ⟨.inr hq, by rw [hsame q hq]; exact hqb⟩
        · rintro ⟨rfl | hq, hqb⟩
          · rw [hpr, hblk] at hqb
            exact absurd hqb.symm he
          · exact ⟨hq, by rwa [hsame q hq] at hqb⟩
  · intro q hq
    cases (huse' q).mp hq with
    | inl he =>
        subst he
        have hsized : pr.blocktype < nSizes := hblk.symm ▸ hb
        have hoff : (n - 1) * blockSize blk ≠ invalidOffset := by
          have hlt : (n - 1) * blockSize blk < n * blockSize blk :=
            Nat.mul_lt_mul_of_pos_right (by omega) (by omega)
          rw [hdvd] at hlt
          simp only [pageSize, invalidOffset] at *
          omega
        rw [hpr]
        refine ⟨haddr.symm ▸ ha.pos, by rw [haddr]; exact htop, hsized,
          threaded a (blockSize blk) (n - 1), ?_, threaded_nodup _ _ (by omega), ?_, ?_⟩
        · have hhead : pr.freeHead = some (a + (n - 1) * blockSize blk) := by
            have : pr.freelistOffset = (n - 1) * blockSize blk := rfl
            rw [Pageref.freeHead, this, if_neg hoff, haddr]
          rw [hhead]
          exact hchain
        · rw [length_threaded]
          exact hcount
        · intro x
          have hsize : pr.size = blockSize blk := congrArg blockSize hblk
          have hin := Pageref.mem_blocks (a := x) hsized
          simp only [Pageref.blocks, hsize, hn, haddr, List.mem_map, List.mem_range] at hin
          rw [mem_threaded]
          constructor
          · rintro ⟨k, hk, rfl⟩
            have hblock := hin.mp ⟨k, by omega, rfl⟩
            exact ⟨hblock, fun hx => hfresh _ hx hblock⟩
          · rintro ⟨hblock, _⟩
            obtain ⟨k, hk, hke⟩ := hin.mpr hblock
            exact ⟨k, by omega, hke.symm⟩
    | inr hq =>
        rw [hsame q hq]
        refine (hi.page q hq).congr (fun x hx _ => ?_) fun _ _ => Iff.rfl
        have hend := hx.end_le (hi.page q hq).sized
        have hs : 16 ≤ (h.pagerefs q).size := (blockSize_cases (hi.page q hq).sized).1
        have := hx.1
        apply ByteStore.word_congr
        intro y hylo hyhi
        exact hout y (by have := hfar q hq; omega)
  · intro q r hq hr he
    cases (huse' q).mp hq with
    | inl hqp =>
        cases (huse' r).mp hr with
        | inl hrp => exact hqp.trans hrp.symm
        | inr hr =>
            rw [hqp, hpr, haddr, hsame r hr] at he
            exact absurd he.symm (ha.unused r hr)
    | inr hq =>
        cases (huse' r).mp hr with
        | inl hrp =>
            rw [hrp, hpr, haddr, hsame q hq] at he
            exact absurd he (ha.unused q hq)
        | inr hr =>
            rw [hsame q hq, hsame r hr] at he
            exact hi.apart q r hq hr he
  · intro b hbl
    obtain ⟨q, hq, hbq, hsz⟩ := hi.inside b hbl
    exact ⟨q, (huse' q).mpr (.inr hq), by rw [hsame q hq]; exact hbq,
      by rw [hsame q hq]; exact hsz⟩
  · rw [hpr]
    exact haddr
  · rw [hpr]
    exact hblk
  · rw [hpr]
    show 0 < n
    omega

/-- The request needs a new page and has a page reference for it. -/
def HeapSt.wantsPage (sz : Nat) (st : HeapSt σ) : Bool :=
  match blocktypeOf sz with
  | none => false
  | some blktype =>
    match st.findFree blktype, st.kheap.allocpageref with
    | some none, some (some _, _) => true
    | _, _ => false

/-- The request needs a new page and all page references are in use. -/
def HeapSt.heapFull (sz : Nat) (st : HeapSt σ) : Bool :=
  match blocktypeOf sz with
  | none => false
  | some blktype =>
    match st.findFree blktype, st.kheap.allocpageref with
    | some none, some (none, _) => true
    | _, _ => false

theorem HeapSt.heapFull_of_wantsPage {sz : Nat} {st : HeapSt σ} (h : st.wantsPage sz = true) :
    st.heapFull sz = false := by
  simp only [HeapSt.wantsPage] at h
  split at h
  case h_1 => cases h
  case h_2 blktype hb =>
    split at h
    case h_1 p kh hfind hpr => simp [HeapSt.heapFull, hb, hfind, hpr]
    case h_2 => cases h

/-- What `subpage_kmalloc` can do, with the live blocks afterwards. -/
inductive KmallocOutcome (S : PageSupply σ) (st : HeapSt σ) (live : List (Nat × Nat)) (sz : Nat) :
    Nat → HeapSt σ → Prop
  | taken (p ptr off n : Nat) : st.wantsPage sz = false → st.heapFull sz = false →
      st.kheap.InUse p → (st.kheap.pagerefs p).IsBlock ptr →
      KheapInv (st.kheap.setCounters p off n) st.mem ((ptr, sz) :: live) →
      KmallocOutcome S st live sz ptr { st with kheap := st.kheap.setCounters p off n }
  | made (p ptr : Nat) (kh : Kheap) (m : ByteStore) : st.wantsPage sz = true →
      0 < (S.allocKpages 1 st.pages).1 → ¬ st.kheap.InUse p → kh.InUse p →
      (∀ q, kh.InUse q ↔ q = p ∨ st.kheap.InUse q) →
      (∀ q, st.kheap.InUse q → kh.pagerefs q = st.kheap.pagerefs q) →
      (kh.pagerefs p).pageaddr = (S.allocKpages 1 st.pages).1 → (kh.pagerefs p).IsBlock ptr →
      (∀ x, x < (S.allocKpages 1 st.pages).1 ∨ (S.allocKpages 1 st.pages).1 + pageSize ≤ x →
        m x = st.mem x) →
      KheapInv kh m ((ptr, sz) :: live) →
      KmallocOutcome S st live sz ptr ⟨kh, m, (S.allocKpages 1 st.pages).2⟩
  | refused : st.wantsPage sz = true → (S.allocKpages 1 st.pages).1 = 0 →
      KmallocOutcome S st live sz 0 { st with pages := (S.allocKpages 1 st.pages).2 }
  | full : st.wantsPage sz = false → st.heapFull sz = true → KmallocOutcome S st live sz 0 st

private theorem KheapInv.pageaddr_pos (hi : KheapInv h m live) (hp : h.InUse p) :
    0 < (h.pagerefs p).pageaddr := (hi.page p hp).pos

/-- The live blocks after a call; null reports failure and is not kept. -/
def recordBlock (ptr sz : Nat) (live : List (Nat × Nat)) : List (Nat × Nat) :=
  if ptr = 0 then live else (ptr, sz) :: live

theorem KheapInv.block_pos {ptr sz : Nat} (hi : KheapInv h m live) (hb : (ptr, sz) ∈ live) :
    0 < ptr := by
  obtain ⟨p, hp, hblk, _⟩ := hi.inside (ptr, sz) hb
  have hpos := hi.pageaddr_pos hp
  have hlo := hblk.1
  simp only at hlo
  omega

theorem KheapInv.recordBlock_eq {ptr sz : Nat} (hi : KheapInv h m ((ptr, sz) :: live))
    (bs : List (Nat × Nat)) : recordBlock ptr sz bs = (ptr, sz) :: bs := by
  have hpos := hi.block_pos List.mem_cons_self
  exact if_neg (by omega)

private theorem KheapCore.toInv {kh : Kheap} {ptr sz : Nat} (hc : KheapCore kh m ((ptr, sz) :: live))
    (hused : ∀ q, kh.InUse q → (kh.pagerefs q).IsBlock ptr ∨
      ∃ a ∈ live.map Prod.fst, (kh.pagerefs q).IsBlock a) :
    KheapInv kh m ((ptr, sz) :: live) := by
  refine ⟨hc, fun q hq => ?_⟩
  cases hused q hq with
  | inl hptr => exact ⟨ptr, by simp, hptr⟩
  | inr hold =>
      obtain ⟨a, ha, hblk⟩ := hold
      exact ⟨a, by simpa using .inr (by simpa using ha), hblk⟩

/-- On a heap in order `subpage_kmalloc` ends in one of its outcomes. -/
theorem KheapInv.subpageKmalloc_spec (S : PageSupply σ) {st : HeapSt σ}
    (hi : KheapInv st.kheap st.mem live) {sz : Nat} (hsz : sz < largestSubpageSize)
    (hpage : st.wantsPage sz = true → (S.allocKpages 1 st.pages).1 = 0 ∨
      FreshPage st.kheap (S.allocKpages 1 st.pages).1) :
    ∃ ptr st', st.subpageKmalloc S sz = some (ptr, st') ∧
      KmallocOutcome S st live sz ptr st' := by
  obtain ⟨blk, hblk⟩ := blocktypeOf_of_lt hsz
  obtain ⟨hb, _⟩ := blocktypeOf_spec hblk
  rcases hi.findFree_cases hb with ⟨p, hfind, hp, hpb, hfree⟩ | ⟨hfind, _⟩
  · have hsize : blocktypeOf sz = some (st.kheap.pagerefs p).blocktype := by rwa [hpb]
    obtain ⟨ptr, off, n, hrun, hblock, hdead, hcore⟩ := hi.doalloc_spec st hp hfree hsize
    refine ⟨ptr, _, ?_, .taken p ptr off n (by simp [HeapSt.wantsPage, hblk, hfind])
      (by simp [HeapSt.heapFull, hblk, hfind]) hp hblock (hcore.toInv fun q hq => ?_)⟩
    · simp [HeapSt.subpageKmalloc, hblk, hfind, hrun]
    · obtain ⟨a, ha, hqa⟩ := hi.used q hq
      exact .inr ⟨a, ha, (setCounters_isBlock _ _ _ _ _ _).mpr hqa⟩
  · rcases allocpageref_cases st.kheap with hnone | ⟨p, kh, hsome, _, hp, hkh, huse, hback⟩
    · exact ⟨0, st, by simp [HeapSt.subpageKmalloc, hblk, hfind, hnone],
        .full (by simp [HeapSt.wantsPage, hblk, hfind, hnone])
          (by simp [HeapSt.heapFull, hblk, hfind, hnone])⟩
    · have hwants : st.wantsPage sz = true := by simp [HeapSt.wantsPage, hblk, hfind, hsome]
      by_cases hz : (S.allocKpages 1 st.pages).1 = 0
      · refine ⟨0, _, ?_, .refused hwants hz⟩
        simp [HeapSt.subpageKmalloc, hblk, hfind, hsome, hz, hback]
      · have hfresh := (hpage hwants).resolve_left hz
        obtain ⟨kh', m', hcarve, hc⟩ := hi.carve_spec (S.allocKpages 1 st.pages).2
          hp hkh huse hfresh hb
        have hsize : blocktypeOf sz = some (kh'.pagerefs p).blocktype := by rwa [hc.blocktype]
        have hpin : kh'.InUse p := (hc.inUse p).mpr (.inl rfl)
        obtain ⟨ptr, off, n, hrun, hblock, hdead, hcore⟩ :=
          KheapCore.doalloc_spec ⟨kh', m', (S.allocKpages 1 st.pages).2⟩ hc.core hpin hc.nfree
            hsize
        refine ⟨ptr, _, ?_, .made p ptr (kh'.setCounters p off n) m' hwants (Nat.pos_of_ne_zero hz)
          hp hpin hc.inUse ?_ ?_ ?_ hc.mem (hcore.toInv fun q hq => ?_)⟩
        · simp [HeapSt.subpageKmalloc, hblk, hfind, hsome, hz, hcarve, hrun]
        · intro q hq
          have hne : q ≠ p := fun he => hp (he ▸ hq)
          rw [Kheap.setCounters, setPageref_of_ne _ _ hne]
          exact hc.same q hq
        · rw [setCounters_pageaddr]
          exact hc.pageaddr
        · exact (setCounters_isBlock _ _ _ _ _ _).mpr hblock
        · cases (hc.inUse q).mp hq with
          | inl he => exact .inl (by rw [he]; exact (setCounters_isBlock _ _ _ _ _ _).mpr hblock)
          | inr hold =>
              obtain ⟨a, ha, hqa⟩ := hi.used q hold
              refine .inr ⟨a, ha, (setCounters_isBlock _ _ _ _ _ _).mpr ?_⟩
              rw [hc.same q hold]
              exact hqa

end CseOs.Kernel
