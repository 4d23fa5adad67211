import CseOs.Kernel.Vm.Changes

/-!
# Pages that become part of an address space, and back

A page granted to the kernel becomes a page table, a node of one or a user page when it is
linked into a tree. A tree that is given up falls apart into pages of the kernel.
-/

namespace CseOs.Kernel

open Framework KernelSt

namespace Vm

variable {s : Vm} {m : ByteStore} {as as' a n x : Nat} {q : SpacePage}

theorem Inv.spaces_nodup (hi : Inv s) : s.spaces.Nodup := by
  have hnd := hi.heap.nodup
  rw [heapLive, List.map_append, List.map_map] at hnd
  have h2 := (List.nodup_append.mp hnd).2.1
  simpa [Function.comp_def] using h2

/-- A tree occupies pages its address space holds. -/
theorem treeByte_held (has : as ∈ s.spaces) (hx : TreeByte s.k.mem (asPt s.k.mem as) x) :
    ∃ q a, (∀ hi mid, q ≠ .user hi mid) ∧ s.Holds (.space as q) a 1 ∧ a ≤ x ∧ x < a + pageSize := by
  obtain ⟨q, a, hq, hqa, hlo, hhi⟩ := hx
  exact ⟨q, a, hq, ⟨has, hqa, rfl⟩, hlo, hhi⟩

/-- A tree shares no byte with what another owner holds. -/
theorem Inv.treeByte_apart (hi : Inv s) (has : as ∈ s.spaces)
    (hx : TreeByte s.k.mem (asPt s.k.mem as) x) {o : Owner} (ho : s.Holds o a n)
    (hne : ∀ q, o ≠ .space as q) : x < a ∨ a + n * pageSize ≤ x := by
  obtain ⟨q, b, _, hb, hlo, hhi⟩ := treeByte_held has hx
  have := hi.placed.apart (.space as q) o b 1 a n hb ho (hne q).symm
  simp only [RangesApart] at this
  omega

theorem Inv.struct_not_treeByte (hi : Inv s) (has : as ∈ s.spaces) (has' : as' ∈ s.spaces)
    (hlo : as' ≤ x) (hhi : x < as' + 24) : ¬ TreeByte s.k.mem (asPt s.k.mem as) x := by
  intro hx
  obtain ⟨p, hp, hblk, _, hend⟩ := hi.space_block has'
  have hplo := hblk.1
  have hheld : s.Holds (.heapPage p) (s.k.kheap.pagerefs p).pageaddr 1 := ⟨hp, rfl, rfl⟩
  have := hi.treeByte_apart has hx hheld (by simp)
  omega

section

variable (hi : Inv s) (has : as ∈ s.spaces)
  (hm : ∀ x, ¬ TreeByte s.k.mem (asPt s.k.mem as) x → m x = s.k.mem x)

include hi has hm

private theorem graft_asPt (has' : as' ∈ s.spaces) : asPt m as' = asPt s.k.mem as' := by
  apply ByteStore.word_congr
  intro x hlo hhi
  exact hm x (hi.struct_not_treeByte has has' (by omega) (by omega))

private theorem graft_other (has' : as' ∈ s.spaces) (hne : as' ≠ as) (q : SpacePage) :
    treePage m (asPt m as') q = treePage s.k.mem (asPt s.k.mem as') q := by
  rw [graft_asPt hi has hm has']
  apply treePage_congr
  intro x hx
  apply hm x
  intro hx'
  obtain ⟨q', b, _, hb, hlo, hhi⟩ := treeByte_held has' hx
  have := hi.treeByte_apart has hx' hb (by simp [hne])
  omega

private theorem graft_heap : KheapInv s.k.kheap m s.heapLive := by
  refine hi.heap.congr_mem fun p b hp hb hdead => ?_
  apply ByteStore.word_congr
  intro x hlo hhi
  apply hm x
  intro hx
  obtain ⟨p', hp', hplo, hphi⟩ := hi.freeWord_held ⟨p, b, hp, hb, hdead, hlo, hhi⟩
  have hheld : s.Holds (.heapPage p') (s.k.kheap.pagerefs p').pageaddr 1 := ⟨hp', rfl, rfl⟩
  have := hi.treeByte_apart has hx hheld (by simp)
  omega

end

/-- A page of a kernel client is linked into a tree: the tree gains that page and no other. -/
theorem Inv.graft (hi : Inv s) (has : as ∈ s.spaces) {q₀ : SpacePage} (ha : (a, 1) ∈ s.kpages)
    (he : s.k.pages.Extent a 1)
    (hm : ∀ x, ¬ TreeByte s.k.mem (asPt s.k.mem as) x → m x = s.k.mem x)
    (hold : treePage s.k.mem (asPt s.k.mem as) q₀ = none)
    (htree : ∀ q, treePage m (asPt s.k.mem as) q =
      if q = q₀ then some a else treePage s.k.mem (asPt s.k.mem as) q) :
    Inv { s with
      k := { s.k with mem := m }
      kpages := dropBlock s.kpages a
      got := Function.update s.got as (s.got as ++ [a]) } := by
  have hpt := graft_asPt hi has hm has
  have hnot (q : SpacePage) : treePage s.k.mem (asPt s.k.mem as) q ≠ some a := by
    intro hqa
    have := hi.placed.apart (.space as q) (.kernel a) a 1 a 1 ⟨has, hqa, rfl⟩ ⟨rfl, ha⟩ (by simp)
    simp only [RangesApart, pageSize] at this
    omega
  have hcase (as' : Nat) (q : SpacePage) (b : Nat) (has' : as' ∈ s.spaces)
      (hb : treePage m (asPt m as') q = some b) :
      (as' = as ∧ q = q₀ ∧ b = a) ∨
        (treePage s.k.mem (asPt s.k.mem as') q = some b ∧ ¬ (as' = as ∧ q = q₀)) := by
    by_cases hne : as' = as
    · subst hne
      rw [hpt, htree q] at hb
      by_cases hq : q = q₀
      · rw [if_pos hq] at hb
        exact .inl ⟨rfl, hq, (Option.some.inj hb).symm⟩
      · rw [if_neg hq] at hb
        exact .inr ⟨hb, fun h => hq h.2⟩
    · rw [graft_other hi has hm has' hne] at hb
      exact .inr ⟨hb, fun h => hne h.1⟩
  refine ⟨hi.ok, graft_heap (s := s) hi has hm, ?_, dropBlock_nodup hi.keys, ?_⟩
  · refine hi.placed.transfer
      (fun o _ o₁ => if o = .space as q₀ then o₁ = .kernel a else o₁ = o) ?_ ?_ ?_
    · intro o b k ho
      cases o with
      | table => exact ⟨.table, by simp, ho⟩
      | kernel c => exact ⟨.kernel c, by simp, ho.1, (mem_dropBlock.mp ho.2).1⟩
      | heapPage p => exact ⟨.heapPage p, by simp, ho⟩
      | space as' q =>
          obtain ⟨has', hb, hk⟩ := ho
          rcases hcase as' q b has' hb with ⟨rfl, rfl, rfl⟩ | ⟨hb', hne⟩
          · exact ⟨.kernel b, by simp, rfl, hk ▸ ha⟩
          · exact ⟨.space as' q, by simpa using hne, has', hb', hk⟩
    · intro o o' b k c l o₁ ho ho' hr hr'
      by_cases h1 : o = .space as q₀
      · by_cases h2 : o' = .space as q₀
        · exact h1.trans h2.symm
        · rw [if_pos h1] at hr
          rw [if_neg h2] at hr'
          have hk : o' = .kernel a := hr'.symm.trans hr
          subst hk
          obtain ⟨hac, hmem⟩ := ho'
          exact absurd hac.symm (mem_dropBlock.mp hmem).2
      · by_cases h2 : o' = .space as q₀
        · rw [if_neg h1] at hr
          rw [if_pos h2] at hr'
          have hk : o = .kernel a := hr.symm.trans hr'
          subst hk
          obtain ⟨hac, hmem⟩ := ho
          exact absurd hac.symm (mem_dropBlock.mp hmem).2
        · rw [if_neg h1] at hr
          rw [if_neg h2] at hr'
          exact hr.symm.trans hr'
    · intro as' q b k ho
      obtain ⟨has', hb, hk⟩ := ho
      rcases hcase as' q b has' hb with ⟨rfl, rfl, rfl⟩ | ⟨hb', _⟩
      · exact ⟨hk, he⟩
      · exact hi.placed.extent as' q b k ⟨has', hb', hk⟩
  · intro as' has'
    obtain ⟨hnd, hmem⟩ := hi.given as' has'
    by_cases hne : as' = as
    · subst hne
      simp only [Function.update_self]
      refine ⟨?_, fun b => ?_⟩
      · refine List.nodup_append.mpr ⟨hnd, List.nodup_singleton a, ?_⟩
        intro b hb c hc hbc
        rw [List.mem_singleton] at hc
        obtain ⟨q, hq⟩ := (hmem b).mp hb
        exact hnot q (by rw [hq, hbc, hc])
      · rw [List.mem_append, List.mem_singleton, hmem b]
        constructor
        · rintro (⟨q, hq⟩ | rfl)
          · refine ⟨q, ?_⟩
            have hqq : q ≠ q₀ := by
              rintro rfl
              rw [hold] at hq
              cases hq
            rw [hpt, htree q, if_neg hqq]
            exact hq
          · exact ⟨q₀, by rw [hpt, htree q₀, if_pos rfl]⟩
        · rintro ⟨q, hq⟩
          rcases hcase as' q b has' hq with ⟨_, _, hb⟩ | ⟨hb, _⟩
          · exact .inr hb
          · exact .inl ⟨q, hb⟩
    · simp only [Function.update_of_ne hne]
      refine ⟨hnd, fun b => ?_⟩
      rw [hmem b]
      simp only [graft_other hi has hm has' hne]

theorem treePage_of_zero {pt : Nat} (hz : ∀ i, i < ptFanout → m.word (pt + 4 * i) = 0)
    (q : SpacePage) : treePage m pt q = if q = .pageTable then some pt else none := by
  cases q with
  | pageTable => rfl
  | node i =>
      have hno : ¬ (i < ptFanout ∧ ptNode m pt i ≠ 0) := fun h => h.2 (hz i h.1)
      simp [treePage, hno]
  | user i mid =>
      have hno : ¬ (i < ptFanout ∧ mid < ptFanout ∧ ptFrame m pt i mid ≠ 0) := by
        rintro ⟨hlt, _, hf⟩
        exact hf (if_pos (hz i hlt))
      simp [treePage, hno]

/-- A block and a cleared page become an address space with an empty page table. -/
theorem Inv.adopt (hi : Inv s) (hb : (as, addrspaceSize) ∈ s.blocks) {pt : Nat}
    (hpt : asPt s.k.mem as = pt) (ha : (pt, 1) ∈ s.kpages) (he : s.k.pages.Extent pt 1)
    (hz : ∀ i, i < ptFanout → s.k.mem.word (pt + 4 * i) = 0) :
    Inv { s with
      blocks := dropBlock s.blocks as
      kpages := dropBlock s.kpages pt
      spaces := as :: s.spaces
      got := Function.update s.got as [pt] } := by
  have hns : as ∉ s.spaces := hi.blocks_spaces (List.mem_map_of_mem hb)
  have htree := treePage_of_zero hz
  have hlive (b : Nat × Nat) : b ∈ heapLive { s with
      blocks := dropBlock s.blocks as, spaces := as :: s.spaces } ↔ b ∈ s.heapLive := by
    have hkey := hi.heap.nodup
    simp only [heapLive, List.mem_append, List.map_cons, List.mem_cons, mem_dropBlock]
    constructor
    · rintro (⟨hbb, _⟩ | rfl | hbs)
      · exact .inl hbb
      · exact .inl hb
      · exact .inr hbs
    · rintro (hbb | hbs)
      · by_cases hfst : b.1 = as
        · have hnd : (s.blocks.map Prod.fst).Nodup := by
            rw [heapLive, List.map_append] at hkey
            exact (List.nodup_append.mp hkey).1
          have : b = (as, addrspaceSize) := List.inj_on_of_nodup_map hnd hbb hb hfst
          exact .inr (.inl this)
        · exact .inl ⟨hbb, hfst⟩
      · exact .inr (.inr hbs)
  have hlnd : ((heapLive { s with
      blocks := dropBlock s.blocks as, spaces := as :: s.spaces }).map Prod.fst).Nodup := by
    have hkey := hi.heap.nodup
    rw [heapLive, List.map_append, List.map_map] at hkey ⊢
    obtain ⟨h1, h2, h3⟩ := List.nodup_append.mp hkey
    refine List.nodup_append.mpr ⟨dropBlock_nodup h1, ?_, ?_⟩
    · simpa [Function.comp_def] using ⟨hns, hi.spaces_nodup⟩
    · intro b hbm c hc hbc
      obtain ⟨hbm, hne⟩ := mem_dropBlock_fst.mp hbm
      simp only [List.map_cons, List.mem_cons, Function.comp_apply] at hc
      cases hc with
      | inl hcas => exact hne (hbc.trans hcas)
      | inr hcs => exact h3 b hbm c hcs hbc
  refine ⟨hi.ok, hi.heap.congr_live hlive hlnd, ?_, dropBlock_nodup hi.keys, ?_⟩
  · refine hi.placed.transfer
      (fun o _ o₁ => if o = .space as .pageTable then o₁ = .kernel pt else o₁ = o) ?_ ?_ ?_
    · intro o b k ho
      cases o with
      | table => exact ⟨.table, by simp, ho⟩
      | kernel c => exact ⟨.kernel c, by simp, ho.1, (mem_dropBlock.mp ho.2).1⟩
      | heapPage p => exact ⟨.heapPage p, by simp, ho⟩
      | space as' q =>
          obtain ⟨has', hqb, hk⟩ := ho
          cases List.mem_cons.mp has' with
          | inl hnew =>
              subst hnew
              simp only [hpt, htree] at hqb
              by_cases hq : q = .pageTable
              · subst hq
                rw [if_pos rfl] at hqb
                cases hqb
                exact ⟨.kernel pt, by simp, rfl, hk ▸ ha⟩
              · rw [if_neg hq] at hqb
                cases hqb
          | inr hold =>
              have hne : as' ≠ as := fun h => hns (h ▸ hold)
              exact ⟨.space as' q, by simp [hne], hold, hqb, hk⟩
    · intro o o' b k c l o₁ ho ho' hr hr'
      have hdrop (d e : Nat) (h : Holds { s with
          blocks := dropBlock s.blocks as
          kpages := dropBlock s.kpages pt
          spaces := as :: s.spaces
          got := Function.update s.got as [pt] } (.kernel pt) d e) : False := by
        obtain ⟨hpd, hmem⟩ := h
        exact (mem_dropBlock.mp hmem).2 hpd.symm
      by_cases h1 : o = .space as .pageTable
      · by_cases h2 : o' = .space as .pageTable
        · exact h1.trans h2.symm
        · rw [if_pos h1] at hr
          rw [if_neg h2] at hr'
          have hk : o' = .kernel pt := hr'.symm.trans hr
          exact absurd (hk ▸ ho') (hdrop c l)
      · by_cases h2 : o' = .space as .pageTable
        · rw [if_neg h1] at hr
          rw [if_pos h2] at hr'
          have hk : o = .kernel pt := hr.symm.trans hr'
          exact absurd (hk ▸ ho) (hdrop b k)
        · rw [if_neg h1] at hr
          rw [if_neg h2] at hr'
          exact hr.symm.trans hr'
    · intro as' q b k ho
      obtain ⟨has', hqb, hk⟩ := ho
      cases List.mem_cons.mp has' with
      | inl hnew =>
          subst hnew
          simp only [hpt, htree] at hqb
          by_cases hq : q = .pageTable
          · rw [if_pos hq] at hqb
            cases hqb
            exact ⟨hk, he⟩
          · rw [if_neg hq] at hqb
            cases hqb
      | inr hold => exact hi.placed.extent as' q b k ⟨hold, hqb, hk⟩
  · intro as' has'
    cases List.mem_cons.mp has' with
    | inl hnew =>
        subst hnew
        simp only [Function.update_self, hpt, htree]
        refine ⟨List.nodup_singleton pt, fun b => ?_⟩
        rw [List.mem_singleton]
        constructor
        · rintro rfl
          exact ⟨.pageTable, if_pos rfl⟩
        · rintro ⟨q, hq⟩
          by_cases hq' : q = .pageTable
          · rw [if_pos hq'] at hq
            exact (Option.some.inj hq).symm
          · rw [if_neg hq'] at hq
            cases hq
    | inr hold =>
        have hne : as' ≠ as := fun h => hns (h ▸ hold)
        simp only [Function.update_of_ne hne]
        exact hi.given as' hold

/-- The pages of a tree and the block of its address space pass to kernel clients. -/
theorem Inv.dissolve (hi : Inv s) (has : as ∈ s.spaces) {l : List Nat} (hl : l.Nodup)
    (hmem : ∀ a, a ∈ l ↔ ∃ q, treePage s.k.mem (asPt s.k.mem as) q = some a) :
    Inv { s with
      blocks := (as, addrspaceSize) :: s.blocks
      kpages := l.map (fun a => (a, 1)) ++ s.kpages
      spaces := s.spaces.erase as } := by
  have hsnd := hi.spaces_nodup
  have hgone (as' : Nat) (h : as' ∈ s.spaces.erase as) : as' ≠ as ∧ as' ∈ s.spaces :=
    hsnd.mem_erase_iff.mp h
  have hfresh (b : Nat) (hbl : b ∈ l) (k : Nat) : (b, k) ∉ s.kpages := by
    intro hbk
    obtain ⟨q, hq⟩ := (hmem b).mp hbl
    have hpos := ((hi.placed.taken (.kernel b) b k ⟨rfl, hbk⟩).bounds hi.ok).2.2.1
    have := hi.placed.apart (.space as q) (.kernel b) b 1 b k ⟨has, hq, rfl⟩ ⟨rfl, hbk⟩ (by simp)
    simp only [RangesApart, pageSize] at this
    omega
  refine ⟨hi.ok, hi.heap.congr_live ?_ ?_, ?_, ?_, ?_⟩
  · intro b
    simp only [heapLive, List.mem_append, List.mem_cons, List.mem_map]
    constructor
    · rintro ((rfl | hb) | ⟨as', has', rfl⟩)
      · exact .inr ⟨as, has, rfl⟩
      · exact .inl hb
      · exact .inr ⟨as', (hgone as' has').2, rfl⟩
    · rintro (hb | ⟨as', has', rfl⟩)
      · exact .inl (.inr hb)
      · by_cases hne : as' = as
        · exact .inl (.inl (by rw [hne]))
        · exact .inr ⟨as', hsnd.mem_erase_iff.mpr ⟨hne, has'⟩, rfl⟩
  · have hkey := hi.heap.nodup
    rw [heapLive, List.map_append, List.map_map] at hkey ⊢
    obtain ⟨h1, h2, h3⟩ := List.nodup_append.mp hkey
    have hin (c : Nat) (hc : c ∈ s.spaces) :
        c ∈ s.spaces.map (Prod.fst ∘ fun as => (as, addrspaceSize)) :=
      List.mem_map.mpr ⟨c, hc, rfl⟩
    refine List.nodup_append.mpr ⟨?_, ?_, ?_⟩
    · rw [List.map_cons]
      exact List.nodup_cons.mpr ⟨fun h => h3 as h as (hin as has) rfl, h1⟩
    · simpa [Function.comp_def] using hsnd.erase as
    · intro b hb c hc hbc
      obtain ⟨as', has', rfl⟩ := List.mem_map.mp hc
      obtain ⟨hne, hold⟩ := hgone as' has'
      rw [List.map_cons] at hb
      cases List.mem_cons.mp hb with
      | inl hbas => exact hne (hbc.symm.trans hbas)
      | inr hbb => exact h3 b hbb as' (hin as' hold) hbc
  · refine hi.placed.transfer (fun o b o₁ => o₁ = o ∧ (∀ c, o = .kernel c → c ∉ l) ∨
      o = .kernel b ∧ ∃ q, o₁ = .space as q ∧ treePage s.k.mem (asPt s.k.mem as) q = some b)
      ?_ ?_ ?_
    · intro o b k ho
      cases o with
      | table => exact ⟨.table, .inl ⟨rfl, by simp⟩, ho⟩
      | heapPage p => exact ⟨.heapPage p, .inl ⟨rfl, by simp⟩, ho⟩
      | kernel c =>
          obtain ⟨rfl, hck⟩ := ho
          cases List.mem_append.mp hck with
          | inl hcl =>
              obtain ⟨d, hd, he⟩ := List.mem_map.mp hcl
              cases he
              obtain ⟨q, hq⟩ := (hmem c).mp hd
              exact ⟨.space as q, .inr ⟨rfl, q, rfl, hq⟩, has, hq, rfl⟩
          | inr hold =>
              refine ⟨.kernel c, .inl ⟨rfl, ?_⟩, rfl, hold⟩
              rintro d hd hdl
              cases hd
              exact hfresh c hdl k hold
      | space as' q =>
          obtain ⟨has', hq, hk⟩ := ho
          exact ⟨.space as' q, .inl ⟨rfl, by simp⟩, (hgone as' has').2, hq, hk⟩
    · intro o o' b k c d o₁ ho ho' hr hr'
      have hspace (q : SpacePage) (e g : Nat) (h : Holds { s with
          blocks := (as, addrspaceSize) :: s.blocks
          kpages := l.map (fun a => (a, 1)) ++ s.kpages
          spaces := s.spaces.erase as } (.space as q) e g) : False := (hgone as h.1).1 rfl
      rcases hr with ⟨rfl, _⟩ | ⟨rfl, q, rfl, hq⟩
      · rcases hr' with ⟨he, _⟩ | ⟨rfl, q, rfl, hq⟩
        · exact he
        · exact absurd ho (hspace q b k)
      · rcases hr' with ⟨rfl, _⟩ | ⟨rfl, q', he, hq'⟩
        · exact absurd ho' (hspace q c d)
        · cases he
          have hbc : b = c := Option.some.inj (hq.symm.trans hq')
          rw [hbc]
    · intro as' q b k ho
      obtain ⟨has', hq, hk⟩ := ho
      exact hi.placed.extent as' q b k ⟨(hgone as' has').2, hq, hk⟩
  · rw [List.map_append, List.map_map]
    have hid : l.map (Prod.fst ∘ fun a => (a, 1)) = l := by simp [Function.comp_def]
    rw [hid]
    refine List.nodup_append.mpr ⟨hl, hi.keys, ?_⟩
    intro b hb c hc hbc
    obtain ⟨e, he, rfl⟩ := List.mem_map.mp hc
    exact hfresh b hb e.2 (hbc ▸ he)
  · intro as' has'
    exact hi.given as' (hgone as' has').2

end Vm

end CseOs.Kernel
