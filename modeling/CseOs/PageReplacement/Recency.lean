import CseOs.PageReplacement.FaultLaw

/-!
# Recency

The simulator for LRU holds the pages used last: whatever was used after a page it holds it
holds too. Hence the pages held with fewer frames are among those held with more.
-/

namespace CseOs.PageReplacement

variable {refs : List Int} {frames t : Nat} {page p q : Int}

/-- The time before `t` at which `page` was used last, `-1` if it was not. -/
def lastUse (refs : List Int) : Nat → Int → Int
  | 0, _ => -1
  | t + 1, page => if refs[t]? = some page then t else lastUse refs t page

private theorem lastUse_succ_self (h : refs[t]? = some page) : lastUse refs (t + 1) page = t := by
  rw [lastUse, if_pos h]

private theorem lastUse_succ_of_ne (h : refs[t]? = some page) (hne : q ≠ page) :
    lastUse refs (t + 1) q = lastUse refs t q := by
  rw [lastUse, if_neg]
  rw [h, Option.some_inj]
  exact fun heq => hne heq.symm

private theorem lastUse_lt (refs : List Int) (t : Nat) (page : Int) : lastUse refs t page < t := by
  induction t with
  | zero => exact Int.negSucc_lt_zero 0
  | succ t ih =>
    rw [lastUse]
    split
    · omega
    · omega

theorem lastUse_inj (hp : -1 < lastUse refs t p) (h : lastUse refs t p = lastUse refs t q) :
    p = q := by
  induction t with
  | zero => exact absurd hp (lt_irrefl _)
  | succ t ih =>
    simp only [lastUse] at hp h
    split at h
    · next hpage =>
      split at h
      · next hq => exact Option.some_inj.mp (hpage.symm.trans hq)
      · exact absurd h (ne_of_gt (lastUse_lt refs t q))
    · next hpage =>
      rw [if_neg hpage] at hp
      split at h
      · exact absurd h (ne_of_lt (lastUse_lt refs t p))
      · exact ih hp h

private theorem lastUse_of_mem_take (h : page ∈ refs.take t) : -1 < lastUse refs t page := by
  induction t with
  | zero => simp at h
  | succ t ih =>
    rw [lastUse]
    split
    · omega
    · next hpage =>
      rw [List.take_add_one, List.mem_append] at h
      exact ih (h.resolve_right (by simpa using hpage))

private theorem lruScan_le {i k : Nat} {all rest : List Int} {time : Int} (hk : all[k]? = some time)
    (hrest : all.drop i = rest) (hseen : ∀ j < i, ∀ x, all[j]? = some x → time ≤ x) :
    ∃ least, all[lruScan i k time rest]? = some least ∧ ∀ x ∈ all, least ≤ x := by
  induction rest generalizing i k time with
  | nil =>
    refine ⟨time, hk, fun x hx => ?_⟩
    obtain ⟨j, hj, hget⟩ := List.getElem_of_mem hx
    exact hseen j (hj.trans_le (List.drop_eq_nil_iff.mp hrest)) x
      (List.getElem?_eq_some_iff.mpr ⟨hj, hget⟩)
  | cons used rest ih =>
    have hused : all[i]? = some used := by
      have := @List.getElem?_drop _ all i 0
      rwa [hrest, List.getElem?_cons_zero, Nat.add_zero, eq_comm] at this
    have hrest' : all.drop (i + 1) = rest := by
      rw [← List.drop_drop, hrest, List.drop_one, List.tail_cons]
    rw [lruScan]
    split
    · next hlt =>
      apply ih hused hrest'
      intro j hj x hx
      cases Nat.lt_succ_iff_lt_or_eq.mp hj with
      | inl hji => exact hlt.le.trans (hseen j hji x hx)
      | inr hji =>
        rw [hji, hused] at hx
        exact (Option.some_inj.mp hx).le
    · next hge =>
      apply ih hk hrest'
      intro j hj x hx
      cases Nat.lt_succ_iff_lt_or_eq.mp hj with
      | inl hji => exact hseen j hji x hx
      | inr hji =>
        rw [hji, hused] at hx
        exact (not_lt.mp hge).trans (Option.some_inj.mp hx).le

theorem lruIndex_le {lastUsed : List Int} (h : 1 ≤ lastUsed.length) :
    ∃ least, lastUsed[lruIndex lastUsed]? = some least ∧ ∀ x ∈ lastUsed, least ≤ x := by
  cases lastUsed with
  | nil => simp at h
  | cons used rest =>
    apply lruScan_le (by simp) (by simp)
    intro j hj x hx
    rw [Nat.lt_one_iff.mp hj, List.getElem?_cons_zero] at hx
    exact (Option.some_inj.mp hx).le

private theorem lru_slot (frame lastUsed : List Int) (t : Nat) (refs : List Int) :
    (lruPolicy.replace frame lastUsed t refs).1 =
      (freeIndex frame).getD (lruIndex lastUsed) := by
  simp only [lruPolicy]
  cases freeIndex frame <;> rfl

private theorem lru_stamp (frame lastUsed : List Int) (t : Nat) (refs : List Int) :
    (lruPolicy.replace frame lastUsed t refs).2 =
      lastUsed.set (lruPolicy.replace frame lastUsed t refs).1 t := by
  simp only [lruPolicy]
  cases freeIndex frame <;> rfl

/-- The time stamps are right, and whatever was used after a held page is held. -/
structure Recent (refs : List Int) (frames t : Nat) : Prop where
  stamped : ∀ i p, Holds lruPolicy refs frames t i p →
    (lruPolicy.run refs frames t).vars[i]? = some (lastUse refs t p)
  closed : ∀ i p q, Holds lruPolicy refs frames t i p → lastUse refs t p < lastUse refs t q →
    ∃ j, Holds lruPolicy refs frames t j q

section Invariant

variable (hframes : 1 ≤ frames) (hrefs : (-1 : Int) ∉ refs)
include hframes

private theorem lru_vars_length (t : Nat) : (lruPolicy.run refs frames t).vars.length = frames :=
  (lru_freeFirst hframes).run_inv t

omit hframes in
private theorem Recent.keep (h : Recent refs frames t) (hnone : refs[t]? = none) :
    Recent refs frames (t + 1) := by
  have hholds : ∀ i p, Holds lruPolicy refs frames (t + 1) i p ↔
      Holds lruPolicy refs frames t i p := by
    intro i p
    rw [holds_succ]
    simp [Simulator.event, hnone]
  have huse : ∀ p, lastUse refs (t + 1) p = lastUse refs t p := by
    intro p
    rw [lastUse, if_neg (by simp [hnone])]
  constructor
  · intro i p hp
    rw [huse]
    simp only [Simulator.run, hnone]
    exact h.stamped i p ((hholds i p).mp hp)
  · intro i p q hp hlt
    rw [huse, huse] at hlt
    obtain ⟨j, hj⟩ := h.closed i p q ((hholds i p).mp hp) hlt
    exact ⟨j, (hholds j q).mpr hj⟩

omit hframes in
theorem Recent.stamp {slot : Nat} (h : Recent refs frames t) (hpage : refs[t]? = some page)
    (hlen : slot < (lruPolicy.run refs frames t).vars.length)
    (hvars : (lruPolicy.run refs frames (t + 1)).vars =
      (lruPolicy.run refs frames t).vars.set slot t)
    (hslot : ∀ i p, Holds lruPolicy refs frames (t + 1) i p →
      (i = slot ∧ p = page) ∨ (i ≠ slot ∧ p ≠ page ∧ Holds lruPolicy refs frames t i p)) :
    ∀ i p, Holds lruPolicy refs frames (t + 1) i p →
      (lruPolicy.run refs frames (t + 1)).vars[i]? = some (lastUse refs (t + 1) p) := by
  intro i p hp
  rw [hvars]
  cases hslot i p hp with
  | inl heq => rw [heq.1, heq.2, lastUse_succ_self hpage, List.getElem?_set_self hlen]
  | inr hold =>
    rw [lastUse_succ_of_ne hpage hold.2.1, List.getElem?_set_ne hold.1.symm]
    exact h.stamped i p hold.2.2

omit hframes in
theorem lastUse_succ_lt (hpage : refs[t]? = some page)
    (h : lastUse refs (t + 1) p < lastUse refs (t + 1) q) :
    q = page ∨ (p ≠ page ∧ lastUse refs t p < lastUse refs t q) := by
  by_cases hq : q = page
  · exact .inl hq
  · rw [lastUse_succ_of_ne hpage hq] at h
    by_cases hp : p = page
    · rw [hp, lastUse_succ_self hpage] at h
      exact absurd (lastUse_lt refs t q) (lt_asymm h)
    · rw [lastUse_succ_of_ne hpage hp] at h
      exact .inr ⟨hp, h⟩

include hrefs

private theorem Recent.hit {pos : Nat} (h : Recent refs frames t) (hpage : refs[t]? = some page)
    (hpos : (lruPolicy.run refs frames t).frame[pos]? = some page)
    (hevent : lruPolicy.event refs frames t = some (.hit pos))
    (hrun : (lruPolicy.run refs frames (t + 1)).vars =
      (lruPolicy.run refs frames t).vars.set pos t) : Recent refs frames (t + 1) := by
  have hne : page ≠ -1 := fun heq => hrefs (heq ▸ List.mem_of_getElem? hpage)
  have hheld : Holds lruPolicy refs frames t pos page := holds_of_frame hpos (.inl hne)
  have hholds : ∀ i p, Holds lruPolicy refs frames (t + 1) i p ↔
      Holds lruPolicy refs frames t i p := by
    intro i p
    rw [holds_succ]
    simp [hevent]
  have hlen : pos < (lruPolicy.run refs frames t).vars.length := by
    rw [lru_vars_length hframes]
    exact (lru_freeFirst hframes).holds_lt hheld
  constructor
  · apply h.stamp hpage hlen hrun
    intro i p hp
    rw [hholds] at hp
    by_cases hi : i = pos
    · subst hi
      exact .inl ⟨rfl, Option.some_inj.mp ((holds_iff.mp hp).symm.trans (holds_iff.mp hheld))⟩
    · refine .inr ⟨hi, ?_, hp⟩
      rintro rfl
      exact hi ((lru_freeFirst hframes).holds_inj hp hheld)
  · intro i p q hp hlt
    rw [hholds] at hp
    cases lastUse_succ_lt hpage hlt with
    | inl hq => exact ⟨pos, (hholds pos q).mpr (hq ▸ hheld)⟩
    | inr hold =>
      obtain ⟨j, hj⟩ := h.closed i p q hp hold.2
      exact ⟨j, (hholds j q).mpr hj⟩

private theorem Recent.fault {slot : Nat} {vars : List Int} (h : Recent refs frames t)
    (hpage : refs[t]? = some page) (hnot : page ∉ (lruPolicy.run refs frames t).frame)
    (hreplace : lruPolicy.replace (lruPolicy.run refs frames t).frame
      (lruPolicy.run refs frames t).vars t refs = (slot, vars))
    (hevent : lruPolicy.event refs frames t = some (.fault slot))
    (hrun : (lruPolicy.run refs frames (t + 1)).vars = vars) : Recent refs frames (t + 1) := by
  have hS := lru_freeFirst hframes
  have hsafe : MarkSafe lruPolicy refs frames t := markSafe_of_notMem hrefs t
  have hslot : slot < frames := hS.slot_lt hevent
  have hloaded : Holds lruPolicy refs frames (t + 1) slot page :=
    holds_succ.mpr (.inl ⟨hevent, hpage⟩)
  have hkept : ∀ i p, i ≠ slot → Holds lruPolicy refs frames t i p →
      Holds lruPolicy refs frames (t + 1) i p := by
    intro i p hi hp
    refine holds_succ.mpr (.inr ⟨fun h => hi ?_, hp⟩)
    rw [hevent] at h
    cases h
    rfl
  have hcases : ∀ i p, Holds lruPolicy refs frames (t + 1) i p →
      (i = slot ∧ p = page) ∨ (i ≠ slot ∧ p ≠ page ∧ Holds lruPolicy refs frames t i p) := by
    intro i p hp
    rcases holds_succ.mp hp with ⟨hei, hpi⟩ | ⟨hei, hp⟩
    · rw [hevent] at hei
      cases hei
      exact .inl ⟨rfl, Option.some_inj.mp (hpi.symm.trans hpage)⟩
    · refine .inr ⟨fun hi => hei (hi ▸ hevent), fun heq => hnot ?_, hp⟩
      exact List.mem_of_getElem? (heq ▸ hp.frame_eq (hS.holds_lt hp))
  have hvars : vars = (lruPolicy.run refs frames t).vars.set slot t := by
    have hstamp := lru_stamp (lruPolicy.run refs frames t).frame (lruPolicy.run refs frames t).vars
      t refs
    rwa [hreplace] at hstamp
  constructor
  · exact h.stamp hpage (by rwa [lru_vars_length hframes]) (hrun.trans hvars) hcases
  · intro i p q hp hlt
    rcases lastUse_succ_lt hpage hlt with hq | ⟨hne, hlt'⟩
    · exact ⟨slot, hq ▸ hloaded⟩
    have hpold : Holds lruPolicy refs frames t i p ∧ i ≠ slot := by
      rcases hcases i p hp with heq | hold
      · exact absurd heq.2 hne
      · exact ⟨hold.2.2, hold.1⟩
    obtain ⟨j, hj⟩ := h.closed i p q hpold.1 hlt'
    by_cases hex : ∃ k < frames, Unused lruPolicy refs frames t k
    · obtain ⟨k, hk, hu⟩ := hex
      exact ⟨j, hS.holds_kept hsafe hk hu hj⟩
    · refine ⟨j, hkept j q (fun hjs => ?_) hj⟩
      subst hjs
      have hindex : j = lruIndex (lruPolicy.run refs frames t).vars := by
        have hslot := congrArg Prod.fst hreplace
        rw [lru_slot, freeIndex_eq_none hrefs hex, Option.getD_none] at hslot
        exact hslot.symm
      obtain ⟨least, hleast, hall⟩ := lruIndex_le
        (show 1 ≤ (lruPolicy.run refs frames t).vars.length by rwa [lru_vars_length hframes])
      rw [← hindex, h.stamped j q hj, Option.some_inj] at hleast
      have := hall _ (List.mem_of_getElem? (h.stamped i p hpold.1))
      omega

private theorem recent (t : Nat) : Recent refs frames t := by
  induction t with
  | zero =>
    constructor
    · intro i p hp
      exact absurd hp.mem_take (by simp)
    · intro i p q hp
      exact absurd hp.mem_take (by simp)
  | succ t ih =>
    cases hpage : refs[t]? with
    | none => exact ih.keep hpage
    | some page =>
      rcases step_cases (S := lruPolicy) frames hpage with
        ⟨pos, hpos, hevent, heq⟩ | ⟨slot, vars, hnot, hreplace, hevent, heq⟩
      · exact ih.hit hframes hrefs hpage hpos hevent (by rw [heq]; rfl)
      · exact ih.fault hframes hrefs hpage hnot hreplace hevent (by rw [heq])

end Invariant

theorem lru_pages_subset (hrefs : (-1 : Int) ∉ refs) {fewer more : Nat} (hfewer : 1 ≤ fewer)
    (hle : fewer ≤ more) (t : Nat) :
    pages lruPolicy refs fewer t ⊆ pages lruPolicy refs more t := by
  have hmore := hfewer.trans hle
  have hF := lru_freeFirst hfewer
  have hM := lru_freeFirst hmore
  have hrecF := recent hfewer hrefs (t := t)
  have hrecM := recent hmore hrefs (t := t)
  intro p hp
  by_contra hnot
  obtain ⟨i, hi⟩ := (hF.mem_pages_iff hrefs).mp hp
  -- the larger array is full, of pages used after `p`, all of which the smaller one holds
  have hfull : ∀ k < more, ¬ Unused lruPolicy refs more t k := by
    intro k hk hu
    exact hnot ((hM.mem_pages_iff hrefs).mpr
      (hM.all_loaded (markSafe_of_notMem hrefs t) hk hu hi.mem_take))
  have hsub : pages lruPolicy refs more t ⊆ (pages lruPolicy refs fewer t).erase p := by
    intro q hq
    have hqp : q ≠ p := fun heq => hnot (heq ▸ hq)
    obtain ⟨j, hj⟩ := (hM.mem_pages_iff hrefs).mp hq
    have hlt : lastUse refs t p < lastUse refs t q := by
      by_contra hge
      have hlt' : lastUse refs t q < lastUse refs t p := by
        refine lt_of_le_of_ne (not_lt.mp hge) fun heq => hqp ?_
        exact lastUse_inj (lastUse_of_mem_take hj.mem_take) heq
      exact hnot ((hM.mem_pages_iff hrefs).mpr (hrecM.closed j q p hj hlt'))
    exact Finset.mem_erase.mpr
      ⟨hqp, (hF.mem_pages_iff hrefs).mpr (hrecF.closed i p q hi hlt)⟩
  have hcard := Finset.card_le_card hsub
  rw [Finset.card_erase_of_mem hp] at hcard
  have h₁ := hM.frames_le_card_pages hrefs hfull
  have h₂ := card_pages_le lruPolicy refs fewer t
  have h₃ := Finset.card_pos.mpr ⟨p, hp⟩
  omega

theorem faults_le_of_subset {σ τ : Type} {S : Simulator σ} {T : Simulator τ} {k l : Nat}
    (hrefs : (-1 : Int) ∉ refs) (hsub : ∀ t, pages S refs k t ⊆ pages T refs l t) (t : Nat) :
    (T.run refs l t).res.faults ≤ (S.run refs k t).res.faults := by
  induction t with
  | zero => exact le_rfl
  | succ t ih =>
    cases hpage : refs[t]? with
    | none =>
      simp only [Simulator.run, hpage]
      exact ih
    | some page =>
      have hne : page ≠ -1 := fun heq => hrefs (heq ▸ List.mem_of_getElem? hpage)
      rcases step_cases (S := T) l hpage with
        ⟨_, _, _, hT⟩ | ⟨_, _, hnotT, _, _, hT⟩
      · rcases step_cases (S := S) k hpage with ⟨_, _, _, hS⟩ | ⟨_, _, _, _, _, hS⟩
        · rw [hT, hS]
          exact ih
        · rw [hT, hS]
          exact ih.trans (Nat.le_succ _)
      · rcases step_cases (S := S) k hpage with
          ⟨_, hpos, _, hS⟩ | ⟨_, _, _, _, _, hS⟩
        · have := hsub t (mem_pages.mpr ⟨List.mem_of_getElem? hpos, hne⟩)
          exact absurd (mem_pages.mp this).1 hnotT
        · rw [hT, hS]
          exact Nat.succ_le_succ ih

/-- LRU is a stack algorithm: with one more frame it holds at every step what it holds without,
so that more frames never mean more faults. -/
theorem lru_inclusion (refs : List Int) (hrefs : ∀ page ∈ refs, 0 ≤ page) (k : Nat) (hk : 1 ≤ k) :
    (∀ t, pages lruPolicy refs k t ⊆ pages lruPolicy refs (k + 1) t) ∧
      ∀ l, k ≤ l → (simulateLru refs l).faults ≤ (simulateLru refs k).faults := by
  have hmark : (-1 : Int) ∉ refs := fun h => absurd (hrefs _ h) (by decide)
  constructor
  · exact lru_pages_subset hmark hk k.le_succ
  · intro l hl
    exact faults_le_of_subset hmark (lru_pages_subset hmark hk hl) refs.length

theorem lru_inclusion_example :
    (∀ t, pages lruPolicy [1, 2, 3, 1, 4, 2] 2 t ⊆ pages lruPolicy [1, 2, 3, 1, 4, 2] 3 t) ∧
      ∀ l, 2 ≤ l → (simulateLru [1, 2, 3, 1, 4, 2] l).faults ≤
        (simulateLru [1, 2, 3, 1, 4, 2] 2).faults :=
  lru_inclusion [1, 2, 3, 1, 4, 2] (by decide) 2 (by decide)

end CseOs.PageReplacement
