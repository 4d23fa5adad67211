import CseOs.Kernel.Asst1.Meals

/-!
# `catmouse` waits for everybody

The semaphore on which `catmouse` waits counts the animals that have finished. When it has been taken once
for each animal, there is none left, and nobody sleeps on it when it is destroyed.
-/

namespace CseOs.Kernel.CatMouse

open Framework State

variable {Addr : Type} [DecidableEq Addr] {S : Setup Addr} {c c' : State Addr} {synch : Synch Addr}
  {t u newguy : Nat} {a : Animal} {bowl : Nat} {answers : Nat → Bool}

/-- How many animals were forked -/
def forked (S : Setup Addr) : Stage → Nat
  | .start => 0
  | .created => 0
  | .forking index => index
  | .waiting _ => S.numCats + S.numMice
  | .called _ => S.numCats + S.numMice
  | .done => S.numCats + S.numMice

/-- How many of the calls of `P(CatMouseWait)` have returned -/
def returned (S : Setup Addr) (c : State Addr) : Nat :=
  match c.stage with
  | .waiting i => i
  | .called i => if c.synch.pending S.main = some S.catMouseWait then i else i + 1
  | _ => 0

/-- The indices of the loops are in range. -/
def InRange (S : Setup Addr) : Stage → Prop
  | .forking index => index ≤ S.numCats + S.numMice
  | .waiting i => i ≤ S.numCats + S.numMice
  | .called i => i < S.numCats + S.numMice
  | _ => True

/-- The semaphore `s` has been given once for each animal that is gone, and `l` are the others. -/
structure Counted (S : Setup Addr) (c : State Addr) (s : Semaphore) (l : List Nat) : Prop where
  sem : c.synch.sems S.catMouseWait = some s
  initial : s.initial = 0
  nodup : l.Nodup
  mem : ∀ t, t ∈ l ↔ c.animal t ≠ none
  given : s.given + l.length = forked S c.stage
  taken : s.taken = returned S c

/-- `catmouse` and its semaphore -/
structure Census (S : Setup Addr) (c : State Addr) : Prop where
  main : c.stage ≠ .done → c.synch.threads.Live S.main
  other : c.animal S.main = none
  range : InRange S c.stage
  calling : c.synch.pending S.main = some S.catMouseWait → ∃ i, c.stage = .called i
  start : c.stage = .start → ∀ t, c.animal t = none
  done : c.stage = .done → ∀ t, c.animal t = none
  counted : c.stage ≠ .start → c.stage ≠ .done → ∃ s l, Counted S c s l

theorem Counted.congr {s : Semaphore} {l : List Nat} (h : Counted S c s l)
    (hsem : c'.synch.sems S.catMouseWait = c.synch.sems S.catMouseWait)
    (hanimal : ∀ t, c'.animal t ≠ none ↔ c.animal t ≠ none) (hstage : c'.stage = c.stage)
    (hpending : c'.synch.pending S.main = some S.catMouseWait ↔
      c.synch.pending S.main = some S.catMouseWait) : Counted S c' s l where
  sem := hsem.trans h.sem
  initial := h.initial
  nodup := h.nodup
  mem t := (h.mem t).trans (hanimal t).symm
  given := hstage ▸ h.given
  taken := by
    rw [h.taken, returned, returned, hstage]
    simp only [hpending]

theorem Move.counted (hmove : Move S t a bowl answers c c') {s : Semaphore}
    {l : List Nat} (h : Counted S c s l) (ha : c.animal t = some a)
    (hcur : c.synch.threads.curthread = some t) (hmain : t ≠ S.main) :
    ∃ s' l', Counted S c' s' l' := by
  have hkept (r : Animal) : ∀ u, Function.update c.animal t (some r) u ≠ none ↔ c.animal u ≠ none := by
    intro u
    by_cases he : u = t
    · simp [he, ha]
    · rw [Function.update_of_ne he]
  cases hmove with
  | ask pc synch _ _ _ _ hP hc' =>
    obtain ⟨cur, r, hcur', _, hcases⟩ := Synch.P_cases hP
    have hcur' : c.synch.threads.curthread = some cur := hcur'
    rw [hcur] at hcur'
    cases hcur'
    subst hc'
    cases hcases with
    | inl hsleep =>
      obtain ⟨_, th, _, rfl⟩ := hsleep
      refine ⟨s, l, h.congr rfl (hkept _) rfl ?_⟩
      show Function.update c.synch.pending t _ S.main = _ ↔ _
      rw [Function.update_of_ne (Ne.symm hmain)]
    | inr htake =>
      obtain ⟨_, rfl⟩ := htake
      refine ⟨s, l, h.congr (Function.update_of_ne S.distinct.symm ..) (hkept _) rfl ?_⟩
      show Function.update c.synch.pending t _ S.main = _ ↔ _
      rw [Function.update_of_ne (Ne.symm hmain)]
  | finish synch _ _ hV hc' =>
    obtain ⟨r, th, hr, _, _, rfl⟩ := Synch.V_cases hV
    have hr : c.synch.sems S.catMouseWait = some r := hr
    rw [h.sem] at hr
    cases hr
    subst hc'
    have hin : t ∈ l := (h.mem t).mpr (by simp [ha])
    have hlen := List.length_erase_of_mem hin
    have hpos := List.length_pos_of_mem hin
    have hgiven := h.given
    refine ⟨_, l.erase t, Function.update_self .., h.initial, h.nodup.erase t, fun u => ?_, ?_, h.taken⟩
    · show _ ↔ Function.update c.animal t none u ≠ none
      rw [h.nodup.mem_erase_iff, h.mem u]
      by_cases he : u = t
      · simp [he]
      · simp [he]
    · show s.given + 1 + (l.erase t).length = forked S c.stage
      omega
  | release r synch _ _ _ _ _ _ hV hc' =>
    obtain ⟨s', th, _, _, _, rfl⟩ := Synch.V_cases hV
    subst hc'
    exact ⟨s, l, h.congr (Function.update_of_ne S.distinct.symm ..) (hkept _) rfl .rfl⟩
  | write r _ _ _ hsynch hstage hanimal =>
    refine ⟨s, l, h.congr (by rw [hsynch]) ?_ hstage (by rw [hsynch])⟩
    rw [hanimal]
    exact hkept r

namespace Census

private theorem starts (h : Starts S c) (hlive : c.synch.threads.Live S.main) : Census S c where
  main _ := hlive
  other := by rw [h.animal]
  range := by
    rw [h.stage]
    exact trivial
  calling hp := by
    obtain ⟨s, hs⟩ := (Synch.Sound.of_reachable h.run).exists_sem S.main S.catMouseWait hp
    rw [h.wait] at hs
    cases hs
  start _ t := by rw [h.animal]
  done _ t := by rw [h.animal]
  counted hno := absurd h.stage hno

private theorem animal (hr : Census S c) (hc : Tidy S c) (hcur : c.synch.threads.curthread = some t)
    (ha : c.animal t = some a) (hm : animalStep S t a bowl answers c = .ok c') : Census S c' := by
  have hmove := animalStep_move hm
  have hmain : t ≠ S.main := by
    intro he
    rw [he, hr.other] at ha
    cases ha
  have hstage := hmove.stage
  have hnone := hc.sound.not_pending hcur
  have hnot : c.stage ≠ .start := fun hs => by
    rw [hr.start hs t] at ha
    cases ha
  have hnot' : c.stage ≠ .done := fun hs => by
    rw [hr.done hs t] at ha
    cases ha
  refine ⟨fun _ => hmove.live hc.sound (hr.main hnot'), ?_, ?_, fun hp => ?_, fun hs => ?_, fun hs => ?_,
    fun _ _ => ?_⟩
  · rw [hmove.others (Ne.symm hmain)]
    exact hr.other
  · rw [hstage]
    exact hr.range
  · rw [hstage]
    cases hmove.asks hnone hcur hp with
    | inl hold => exact hr.calling hold.2
    | inr hself => exact absurd hself.1.symm hmain
  · exact absurd (hstage.symm.trans hs) hnot
  · exact absurd (hstage.symm.trans hs) hnot'
  · obtain ⟨s, l, hl⟩ := hr.counted hnot hnot'
    exact hmove.counted hl ha hcur hmain

theorem apart (hr : Census S c) (hc : Tidy S c) {e : Synch.Event Addr} (hwait : e.Apart S.catMouseWait)
    (hexit : e = .thread .exit → c.synch.threads.curthread = some S.main → c.stage = .done)
    (hm : e.apply (c.synch.withMemory answers) = some synch) : Census S (c.setSynch synch) := by
  have hsound := hc.sound.withMemory answers
  have heffect := hsound.effect hwait hm
  refine ⟨fun hd => ?_, hr.other, hr.range, fun hp => ?_, hr.start, hr.done, fun hs hd => ?_⟩
  · exact hsound.live (hr.main hd) (fun he hcur => hd (hexit he hcur)) hm
  · cases heffect with
    | inl hu => exact hr.calling ((hu.pending S.main).mp hp)
    | inr htook =>
      obtain ⟨u, htook⟩ := htook
      exact hr.calling ((htook.pending S.main).mp hp).1
  · obtain ⟨s, l, hl⟩ := hr.counted hs hd
    cases heffect with
    | inl hu => exact ⟨s, l, hl.congr hu.sems (fun _ => .rfl) rfl (hu.pending S.main)⟩
    | inr htook =>
      obtain ⟨u, htook⟩ := htook
      have hself : u = S.main := hc.waits u htook.waited
      subst hself
      obtain ⟨i, hi⟩ := hr.calling htook.waited
      obtain ⟨r, hr', _, hs'⟩ := htook.sems
      have hr' : c.synch.sems S.catMouseWait = some r := hr'
      rw [hl.sem] at hr'
      cases hr'
      have hbefore := hl.taken
      have hwaited : c.synch.pending S.main = some S.catMouseWait := htook.waited
      have hafter : ¬ synch.pending S.main = some S.catMouseWait :=
        fun hp => ((htook.pending S.main).mp hp).2 rfl
      refine ⟨_, l, hs', hl.initial, hl.nodup, hl.mem, hl.given, ?_⟩
      simp only [returned, hi, hwaited, if_true] at hbefore
      show s.taken + 1 = returned S (c.setSynch synch)
      simp only [returned, setSynch, hi, hafter, if_false, hbefore]

private theorem setStage (hr : Census S c) {stage : Stage} (hs : stage ≠ .start) (hd : stage ≠ .done)
    (hd' : c.stage ≠ .done) (hrange : InRange S stage)
    (hcalling : c.synch.pending S.main = some S.catMouseWait → ∃ i, stage = .called i)
    (hcounted : ∃ s l, Counted S (c.setStage stage) s l) : Census S (c.setStage stage) :=
  ⟨fun _ => hr.main hd', hr.other, hrange, hcalling, fun he => absurd he hs, fun he => absurd he hd,
    fun _ _ => hcounted⟩

theorem create (hr : Census S c) (hc : Tidy S c) (hcur : c.synch.threads.curthread = some S.main)
    (hstage : c.stage = .start) {r : Option Addr}
    (hcreate : (c.synch.withMemory answers).semCreate S.catMouseWait 0 = some (r, synch))
    (hsome : r ≠ none) : Census S ((c.setStage .created).setSynch synch) := by
  obtain ⟨hpending, _, hcases⟩ := Synch.semCreate_cases hcreate
  have hempty := hr.start hstage
  have hsems : synch.sems S.catMouseWait = some ⟨0, 0, 0, 0⟩ := by
    cases hcases with
    | inl hnone => exact absurd hnone.1 hsome
    | inr hmade => rw [hmade.2, Function.update_self]
  have hlive : synch.threads.Live S.main :=
    (hc.sound.withMemory answers).live (e := .create S.catMouseWait 0) (hr.main (by simp [hstage]))
      (by simp) (by
        show Option.map Prod.snd _ = _
        rw [hcreate]
        rfl)
  refine ⟨fun _ => hlive, hr.other, trivial, fun hp => ?_, fun he => (by cases he),
    fun he => (by cases he),
    fun _ _ => ⟨_, [], hsems, rfl, List.nodup_nil, fun t => ?_, rfl, rfl⟩⟩
  · have hp : synch.pending S.main = some S.catMouseWait := hp
    rw [hpending, show (c.synch.withMemory answers).pending = c.synch.pending from rfl,
      hc.sound.not_pending hcur] at hp
    cases hp
  · show t ∈ [] ↔ c.animal t ≠ none
    simp [hempty t]

private theorem fork (hr : Census S c) (hc : Tidy S c) {index : Nat} (hstage : c.stage = .forking index)
    (hlt : index < S.numCats + S.numMice) (hcur : c.synch.threads.curthread = some S.main)
    (hnew : c.synch.threads.created newguy = false)
    (hm : forkNext S newguy index (c.withMemory answers) = .ok c') : Census S c' := by
  unfold forkNext at hm
  cases hfork : (c.withMemory answers).synch.threads.threadFork newguy with
  | none => simp [hfork] at hm
  | some p =>
    obtain ⟨e, threads⟩ := p
    cases e with
    | some e => simp [hfork] at hm
    | none =>
      simp only [hfork, Except.ok.injEq] at hm
      subst hm
      have hlive := hr.main (by simp [hstage])
      have hmain : S.main ≠ newguy := by
        intro he
        have hcreated := hlive.1
        rw [he, hnew] at hcreated
        cases hcreated
      have hnone : c.animal newguy = none := by
        cases ha : c.animal newguy with
        | none => rfl
        | some a =>
          have hcreated := (hc.alive newguy a ha).1
          rw [hnew] at hcreated
          cases hcreated
      have hlive' : threads.Live S.main := by
        have hmem : (c.synch.withMemory answers).threads.Live S.main := hlive
        apply hmem.apply (hc.sound.withMemory answers).partition (e := .fork newguy) (by simp)
        show Option.map Prod.snd _ = _
        rw [show (c.synch.withMemory answers).threads.threadFork newguy = _ from hfork]
        rfl
      obtain ⟨s, l, hl⟩ := hr.counted (by simp [hstage]) (by simp [hstage])
      have hnot : newguy ∉ l := fun hin => (hl.mem newguy).mp hin hnone
      have hgiven := hl.given
      have htaken := hl.taken
      simp only [forked, returned, hstage] at hgiven htaken
      refine ⟨fun _ => hlive', ?_, hlt, fun hp => ?_, fun he => (by cases he), fun he => (by cases he),
        fun _ _ => ⟨s, newguy :: l, hl.sem, hl.initial, List.nodup_cons.mpr ⟨hnot, hl.nodup⟩,
          fun t => ?_, ?_, htaken⟩⟩
      · exact (Function.update_of_ne hmain ..).trans hr.other
      · have hp : c.synch.pending S.main = some S.catMouseWait := hp
        rw [hc.sound.not_pending hcur] at hp
        cases hp
      · show t ∈ newguy :: l ↔ Function.update c.animal newguy _ t ≠ none
        rw [List.mem_cons, hl.mem t]
        by_cases he : t = newguy
        · simp [he]
        · simp [he]
      · show s.given + (l.length + 1) = index + 1
        omega

theorem wait (hr : Census S c) (hc : Tidy S c) {i : Nat} (hstage : c.stage = .waiting i)
    (hlt : i < S.numCats + S.numMice) (hcur : c.synch.threads.curthread = some S.main)
    (hP : (c.synch.withMemory answers).P S.catMouseWait = some synch) :
    Census S ((c.setStage (.called i)).setSynch synch) := by
  obtain ⟨s, l, hl⟩ := hr.counted (by simp [hstage]) (by simp [hstage])
  have hlive : synch.threads.Live S.main :=
    (hc.sound.withMemory answers).live (e := .P S.catMouseWait) (hr.main (by simp [hstage])) (by simp) hP
  have hgiven := hl.given
  have htaken := hl.taken
  simp only [forked, returned, hstage] at hgiven htaken
  refine ⟨fun _ => hlive, hr.other, hlt, fun _ => ⟨i, rfl⟩, fun he => (by cases he),
    fun he => (by cases he), fun _ _ => ?_⟩
  obtain ⟨cur, r, hcur', hs, hcases⟩ := Synch.P_cases hP
  have hcur' : c.synch.threads.curthread = some cur := hcur'
  have hs : c.synch.sems S.catMouseWait = some r := hs
  rw [hcur] at hcur'
  rw [hl.sem] at hs
  cases hcur'
  cases hs
  cases hcases with
  | inl hsleep =>
    obtain ⟨_, th, _, rfl⟩ := hsleep
    refine ⟨s, l, hl.sem, hl.initial, hl.nodup, hl.mem, hgiven, ?_⟩
    exact htaken.trans (if_pos (Function.update_self ..)).symm
  | inr htake =>
    obtain ⟨_, rfl⟩ := htake
    refine ⟨_, l, Function.update_self .., hl.initial, hl.nodup, hl.mem, hgiven, ?_⟩
    have hback : ¬ Function.update c.synch.pending S.main none S.main = some S.catMouseWait := by simp
    exact (congrArg (· + 1) htaken).trans (if_neg hback).symm

theorem empty (hr : Census S c) (hc : Tidy S c) {i : Nat} (hstage : c.stage = .waiting i)
    (hge : ¬ i < S.numCats + S.numMice) (t : Nat) : c.animal t = none := by
  obtain ⟨s, l, hl⟩ := hr.counted (by simp [hstage]) (by simp [hstage])
  have hexact := hc.sound.exact S.catMouseWait s hl.sem
  have hledger := hexact.ledger
  have hnonneg := hexact.nonneg
  have hgiven := hl.given
  have htaken := hl.taken
  have hinitial := hl.initial
  simp only [forked, returned, hstage] at hgiven htaken
  have hlen : l.length = 0 := by omega
  by_contra hsome
  have hin := (hl.mem t).mpr hsome
  rw [List.length_eq_zero_iff.mp hlen] at hin
  cases hin

private theorem main_step (hr : Census S c) (hc : Tidy S c) (hcur : c.synch.threads.curthread = some S.main)
    (hfresh : Fresh S newguy c) (hm : mainStep S newguy answers c = .ok c') : Census S c' := by
  have hcalling : c.synch.pending S.main ≠ some S.catMouseWait := by
    simp [hc.sound.not_pending hcur]
  cases hstage : c.stage with
  | start =>
    simp only [mainStep, hstage] at hm
    obtain ⟨r, synch, hcreate, rfl⟩ := create_cases hm
    exact hr.create hc hcur hstage (r := some r) hcreate (by simp)
  | created =>
    simp only [mainStep, hstage] at hm
    unfold initializeBowls at hm
    split at hm
    · cases hm
    · obtain ⟨r, synch, hcreate, rfl⟩ := create_cases hm
      have hcreate : (c.synch.withMemory fun i => answers (i + 1)).semCreate S.mutex 1 =
        some (some r, synch) := hcreate
      have hevent : (Synch.Event.create S.mutex 1).apply
          (c.synch.withMemory fun i => answers (i + 1)) = some synch := by
        show Option.map Prod.snd _ = _
        rw [hcreate]
        rfl
      have hapart : (Synch.Event.create S.mutex 1).Apart S.catMouseWait := S.distinct
      have hnext := hr.apart hc hapart (by simp) hevent
      obtain ⟨s, l, hl⟩ := hnext.counted (by simp [setSynch, hstage]) (by simp [setSynch, hstage])
      have hgiven := hl.given
      have htaken := hl.taken
      simp only [forked, returned, setSynch, hstage] at hgiven htaken
      exact ⟨fun _ => hnext.main (by simp [setSynch, hstage]), hr.other, Nat.zero_le _,
        fun hp => by
          obtain ⟨i, hi⟩ := hnext.calling hp
          simp [setSynch, hstage] at hi,
        fun he => (by cases he), fun he => (by cases he),
        fun _ _ => ⟨s, l, hl.sem, hl.initial, hl.nodup, hl.mem, hgiven, htaken⟩⟩
  | forking index =>
    simp only [mainStep, hstage] at hm
    split at hm
    · next hlt => exact hr.fork hc hstage hlt hcur hfresh.forking hm
    · next hge =>
      cases hm
      have hrange := hr.range
      rw [hstage] at hrange
      have hrange : index ≤ S.numCats + S.numMice := hrange
      obtain ⟨s, l, hl⟩ := hr.counted (by simp [hstage]) (by simp [hstage])
      have hgiven := hl.given
      have htaken := hl.taken
      simp only [forked, returned, hstage] at hgiven htaken
      refine hr.setStage (by simp) (by simp) (by simp [hstage]) (Nat.zero_le _)
        (fun hp => absurd hp hcalling) ⟨s, l, hl.sem, hl.initial, hl.nodup, hl.mem, ?_, htaken⟩
      show s.given + l.length = S.numCats + S.numMice
      omega
  | waiting i =>
    simp only [mainStep, hstage] at hm
    split at hm
    · next hlt =>
      obtain ⟨synch, hP, rfl⟩ := call_eq_ok.mp hm
      exact hr.wait hc hstage hlt hcur hP
    · next hge =>
      have hempty := hr.empty hc hstage hge
      obtain ⟨synch, hdestroy, rfl⟩ := call_eq_ok.mp hm
      unfold Synch.semDestroy at hdestroy
      split at hdestroy
      · cases hdestroy
      · cases hdestroy
        exact ⟨fun hno => absurd rfl hno, hr.other, trivial, fun hp => absurd hp hcalling,
          fun he => (by cases he), fun _ => hempty, fun _ hno => absurd rfl hno⟩
  | called i =>
    simp only [mainStep, hstage] at hm
    cases hm
    have hrange := hr.range
    rw [hstage] at hrange
    obtain ⟨s, l, hl⟩ := hr.counted (by simp [hstage]) (by simp [hstage])
    have hgiven := hl.given
    have htaken := hl.taken
    simp only [forked, returned, hstage, hcalling, if_false] at hgiven htaken
    exact hr.setStage (by simp) (by simp) (by simp [hstage]) hrange (fun hp => absurd hp hcalling)
      ⟨s, l, hl.sem, hl.initial, hl.nodup, hl.mem, hgiven, htaken⟩
  | done =>
    simp only [mainStep, hstage] at hm
    cases hm
    exact hr

end Census

theorem starts_live (h : Starts S c) : c.synch.threads.Live S.main := by
  have hp := (Synch.Sound.of_reachable h.run).partition
  have hin : S.main ∈ c.synch.threads.threadsAt .current := by
    simp [Threads.threadsAt, h.main]
  refine ⟨(hp.created S.main).mp ((Threads.Partition.mem_places ..).mpr ⟨.current, hin⟩), fun hz => ?_⟩
  have hz : S.main ∈ c.synch.threads.threadsAt .zombies := hz
  have hone := hp.one_place hin hz
  cases hone

private theorem step_keeps (hc : Tidy S c) (hr : Census S c) (hstep : Step S c c') :
    Tidy S c' ∧ Census S c' := by
  cases hstep with
  | animal t a bowl answers hcur ha h1 hlen hm =>
    exact ⟨hc.animal hcur ha h1 hlen hm, hr.animal hc hcur ha hm⟩
  | main newguy answers hcur hfresh hm => exact ⟨hc.main hcur hfresh hm, hr.main_step hc hcur hfresh hm⟩
  | other e answers hf hm =>
    exact ⟨hc.apart hf.legal hf.mutex (fun he t ht => (hf.exit he t ht).1) (.inl hf.wait) hm,
      hr.apart hc hf.wait (fun he ht => (hf.exit he S.main ht).2 rfl) hm⟩

private theorem reachable_keeps (h : Reachable (Starts S) (Step S) c) : Tidy S c ∧ Census S c := by
  apply h.invariant
  · exact fun c hs => ⟨Tidy.starts hs, Census.starts hs (starts_live hs)⟩
  · exact fun c c' _ hc hstep => step_keeps hc.1 hc.2 hstep

/-- An animal that eats, from its mark in the bowls to the clearing of it -/
def Eats (c : State Addr) (t : Nat) (kind : Kind) (b : Nat) : Prop :=
  ∃ a, c.animal t = some a ∧ a.kind = kind ∧ a.pc.occupied = some b

/-- One more animal at this bowl would break the rules. -/
def Forbids (c : State Addr) (kind : Kind) (b : Nat) : Prop :=
  (∃ u, Eats c u kind b) ∨ ∃ u b', Eats c u kind.other b'

private theorem Truthful.shown_eater {bowls : List (Option Kind)} {eating : Kind → Int}
    {animal : Nat → Option Animal} {h : Option Nat} (hT : Truthful bowls eating animal h) (kind : Kind) :
    0 < shown bowls kind ↔ ∃ u a b, animal u = some a ∧ a.kind = kind ∧ a.pc.occupied = some b := by
  constructor
  · intro hpos
    obtain ⟨k, hk⟩ := List.mem_iff_getElem?.mp (List.count_pos_iff.mp hpos)
    obtain ⟨u, a, hu, hkind, hb⟩ := hT.eater k kind hk
    exact ⟨u, a, k + 1, hu, hkind, hb⟩
  · intro he
    obtain ⟨u, a, b, hu, hkind, hb⟩ := he
    have hmark := hT.marks u a b hu hb
    rw [hkind] at hmark
    exact shown_pos hmark

omit [DecidableEq Addr] in
theorem Guard.check_outcome (hg : Guard S c (some t)) (ha : c.animal t = some a) {b : Nat}
    (hpc : a.pc = .entering b) :
    check t a b c ≠ .error .assertion ∧ (check t a b c = .error .panic ↔ Forbids c a.kind b) := by
  obtain ⟨_, hother⟩ := hg.truthful.ahead t a rfl ha
  have hb := hg.truthful.range t a b ha (by rw [hpc]; rfl)
  have hoccupied : c.bowls[b - 1]? = some (some a.kind) ↔ ∃ u, Eats c u a.kind b := by
    constructor
    · intro hmark
      obtain ⟨u, a', hu, hkind, hocc⟩ := hg.truthful.eater _ _ hmark
      rw [Nat.sub_add_cancel hb.1] at hocc
      exact ⟨u, a', hu, hkind, hocc⟩
    · intro he
      obtain ⟨u, a', hu, hkind, hocc⟩ := he
      rw [← hkind]
      exact hg.truthful.marks u a' b hu hocc
  have hcrowd : 0 < c.eating a.kind.other ↔ ∃ u b', Eats c u a.kind.other b' := by
    rw [hother, Int.natCast_pos, hg.truthful.shown_eater]
    constructor
    · intro he
      obtain ⟨u, a', b', hu, hkind, hocc⟩ := he
      exact ⟨u, b', a', hu, hkind, hocc⟩
    · intro he
      obtain ⟨u, b', a', hu, hkind, hocc⟩ := he
      exact ⟨u, a', b', hu, hkind, hocc⟩
  unfold check Forbids
  rw [← hoccupied, ← hcrowd]
  by_cases hmark : c.bowls[b - 1]? = some (some a.kind)
  · simp [hmark]
  · by_cases hpos : 0 < c.eating a.kind.other
    · simp [hmark, hpos]
    · have hzero : c.eating a.kind.other = 0 := by omega
      have hfree : c.bowls[b - 1]? = some none := by
        have hlt : b - 1 < c.bowls.length := by omega
        cases hget : c.bowls[b - 1] with
        | none => rw [List.getElem?_eq_getElem hlt, hget]
        | some kind =>
          have hbowl : c.bowls[b - 1]? = some (some kind) := by
            rw [List.getElem?_eq_getElem hlt, hget]
          cases eq_or_other a.kind kind with
          | inl hk => exact absurd (hk ▸ hbowl) hmark
          | inr hk =>
            have hshown := shown_pos (hk ▸ hbowl)
            omega
      simp [hfree, hzero]

theorem animalStep_outcome (hc : Tidy S c) (hr : Census S c)
    (hcur : c.synch.threads.curthread = some t) (ha : c.animal t = some a) (h1 : 1 ≤ bowl)
    (hlen : bowl ≤ S.numBowls) :
    animalStep S t a bowl (fun _ => true) c ≠ .error .assertion ∧
      (animalStep S t a bowl (fun _ => true) c = .error .panic ↔
        ∃ b, a.pc = .entering b ∧ Forbids c a.kind b) := by
  have hsound := hc.sound.withMemory fun _ => true
  have hample : (c.synch.withMemory fun _ => true).threads.Ample := fun _ => rfl
  have hcur' : (c.synch.withMemory fun _ => true).threads.curthread = some t := hcur
  have hmade : c.synch.sems S.mutex ≠ none := by
    intro hno
    rw [hc.idle hno t] at ha
    cases ha
  obtain ⟨s, hs⟩ := Option.ne_none_iff_exists'.mp hmade
  have hs' : (c.synch.withMemory fun _ => true).sems S.mutex = some s := hs
  obtain ⟨h, hg⟩ := hc.guard hmade
  have hin : a.pc.Inside → h = some t := fun hpc =>
    (hg.holder t).mp ⟨a, ha, hpc, by simp [hc.sound.not_pending hcur]⟩
  obtain ⟨synch, hP⟩ := hsound.P_total hample hcur' hs'
  have hV : a.pc.Inside → ∃ synch, (c.synch.withMemory fun _ => true).V S.mutex = some synch := by
    intro hpc
    have hzero := hg.units s hs
    rw [hin hpc, if_neg (by simp)] at hzero
    exact hsound.V_total hample hs' (by omega)
  cases hcase : a.pc with
  | resting =>
    simp only [animalStep, hcase, reduceCtorEq, false_and, exists_false, iff_false]
    split
    · have hok : ¬ (bowl = 0 ∨ c.bowls.length < bowl) := by
        rw [hg.length]
        omega
      unfold eat
      rw [if_neg hok, hP]
      simp [call]
    · have hlive : c.stage ≠ .start := fun he => by
        rw [hr.start he t] at ha
        cases ha
      have hlive' : c.stage ≠ .done := fun he => by
        rw [hr.done he t] at ha
        cases ha
      obtain ⟨r, l, hl⟩ := hr.counted hlive hlive'
      have hlt : r.count + 1 < 2 ^ 31 := by
        have hexact := hc.sound.exact S.catMouseWait r hl.sem
        have hledger := hexact.ledger
        have hinitial := hl.initial
        have hgiven := hl.given
        have hsmall := S.small
        have hpos := List.length_pos_of_mem ((hl.mem t).mpr (by simp [ha]))
        have hrange := hr.range
        have hall : forked S c.stage ≤ S.numCats + S.numMice := by
          cases hst : c.stage with
          | forking index =>
            rw [hst] at hrange
            exact hrange
          | start => exact Nat.zero_le _
          | created => exact Nat.zero_le _
          | waiting i => exact Nat.le_refl _
          | called i => exact Nat.le_refl _
          | done => exact Nat.le_refl _
        omega
      have hsem : (c.synch.withMemory fun _ => true).sems S.catMouseWait = some r := hl.sem
      obtain ⟨synch, hV⟩ := hsound.V_total hample hsem hlt
      simp [hV, call]
  | entering b =>
    have hh := hin (by rw [hcase]; trivial)
    subst hh
    simp only [animalStep, hcase, Pc.entering.injEq, exists_eq_left']
    exact hg.check_outcome ha hcase
  | checked b => simp [animalStep, hcase]
  | counted b => simp [animalStep, hcase]
  | marked b =>
    obtain ⟨synch, hV⟩ := hV (by rw [hcase]; trivial)
    simp [animalStep, hcase, hV, call]
  | eating b => simp [animalStep, hcase, hP, call]
  | leaving b =>
    have hh := hin (by rw [hcase]; trivial)
    subst hh
    have hocc : a.pc.occupied = some b := by rw [hcase]; rfl
    have hmark := hg.truthful.marks t a b ha hocc
    have hself := (hg.truthful.ahead t a rfl ha).1
    have hshown := shown_pos hmark
    have hok : ¬ (c.eating a.kind ≤ 0 ∨ a.kind = .cat ∧ c.bowls[b - 1]? ≠ some (some .cat)) := by
      rw [hmark, hself, hcase]
      refine not_or.mpr ⟨?_, fun hcat => hcat.2 (by rw [hcat.1])⟩
      show ¬ (shown c.bowls a.kind : Int) + 0 ≤ 0
      omega
    simp only [animalStep, hcase, uncount]
    rw [if_neg hok]
    simp
  | uncounted b =>
    have hocc : a.pc.occupied = some b := by rw [hcase]; rfl
    have hmark := hg.truthful.marks t a b ha hocc
    have hok : ¬ (a.kind = .mouse ∧ c.bowls[b - 1]? ≠ some (some .mouse)) := by
      rw [hmark]
      exact fun hm => hm.2 (by rw [hm.1])
    simp only [animalStep, hcase, clear]
    rw [if_neg hok]
    simp
  | cleared b =>
    obtain ⟨synch, hV⟩ := hV (by rw [hcase]; trivial)
    simp [animalStep, hcase, hV, call]

/-- One cat that eats once, from one bowl -/
def oneCat : Setup Nat := ⟨1, 2, 1, 1, 0, 1, 0, by decide, by decide⟩

theorem oneCat_runs : ∃ c, Reachable (Starts oneCat) (Step oneCat) c ∧ c.synch.threads.curthread = some 0 ∧
    c.stage = .waiting 0 := by
  have hstart : Reachable (Starts oneCat) (Step oneCat)
      ⟨Synch.bootstrap 0, [], fun _ => 0, fun _ => none, .start⟩ :=
    .start ⟨.start ⟨0, rfl⟩, rfl, rfl, rfl, rfl, rfl⟩
  have hcreate := hstart.next (.main 1 (fun _ => true) rfl
    ⟨fun _ => ⟨rfl, by decide, by decide⟩, (fun he => by cases he), rfl⟩ rfl)
  have hinit := hcreate.next (.main 1 (fun _ => true) rfl
    ⟨(fun he => by cases he), fun _ => ⟨rfl, by decide, by decide⟩, rfl⟩ rfl)
  have hfork := hinit.next (.main 1 (fun _ => true) rfl
    ⟨(fun he => by cases he), (fun he => by cases he), rfl⟩ rfl)
  have hwait := hfork.next (.main 2 (fun _ => true) rfl
    ⟨(fun he => by cases he), (fun he => by cases he), rfl⟩ rfl)
  exact ⟨_, hwait, rfl, rfl⟩

/-- In every run of the simulation no two animals eat from one bowl, cats and mice do not eat at the same
time, no assertion of `bowls.c` fails, and it panics exactly when an animal is about to break one of
these rules. -/
theorem meals_ruled (h : Reachable (Starts S) (Step S) c) :
    (∀ t u kind kind' b, Eats c t kind b → Eats c u kind' b → t = u) ∧
    (∀ t u kind kind' b b', Eats c t kind b → Eats c u kind' b' → kind = kind') ∧
    ∀ t a bowl, c.synch.threads.curthread = some t → c.animal t = some a → 1 ≤ bowl →
      bowl ≤ S.numBowls →
      animalStep S t a bowl (fun _ => true) c ≠ .error .assertion ∧
      (animalStep S t a bowl (fun _ => true) c = .error .panic ↔
        ∃ b, a.pc = .entering b ∧ Forbids c a.kind b) := by
  obtain ⟨hc, hr⟩ := reachable_keeps h
  have htruth : ∀ t kind b, Eats c t kind b → ∃ h, Guard S c h := by
    intro t kind b he
    obtain ⟨a, ha, _⟩ := he
    apply hc.guard
    intro hno
    rw [hc.idle hno t] at ha
    cases ha
  refine ⟨fun t u kind kind' b ht hu => ?_, fun t u kind kind' b b' ht hu => ?_, ?_⟩
  · obtain ⟨h, hg⟩ := htruth t kind b ht
    obtain ⟨a, ha, _, hb⟩ := ht
    obtain ⟨a', ha', _, hb'⟩ := hu
    exact hg.truthful.one t u a a' b ha ha' hb hb'
  · obtain ⟨h, hg⟩ := htruth t kind b ht
    obtain ⟨a, ha, hkind, hb⟩ := ht
    obtain ⟨a', ha', hkind', hb'⟩ := hu
    have hpos := (hg.truthful.shown_eater kind).mpr ⟨t, a, b, ha, hkind, hb⟩
    have hpos' := (hg.truthful.shown_eater kind').mpr ⟨u, a', b', ha', hkind', hb'⟩
    cases eq_or_other kind kind' with
    | inl hsame => exact hsame.symm
    | inr hother =>
      have hzero := hg.truthful.apart kind hpos
      rw [hother] at hpos'
      omega
  · exact fun t a bowl hcur ha h1 hlen => animalStep_outcome hc hr hcur ha h1 hlen

/-- One cat and one mouse at two bowls -/
def oneEach : Setup Nat := ⟨1, 2, 2, 1, 1, 1, 0, by decide, by decide⟩

theorem oneEach_runs : ∃ c, Reachable (Starts oneEach) (Step oneEach) c ∧ c.synch.threads.curthread = some 2 ∧
    c.animal 1 = some ⟨.cat, 0, .eating 1⟩ ∧ c.animal 2 = some ⟨.mouse, 0, .entering 2⟩ := by
  have hstart : Reachable (Starts oneEach) (Step oneEach)
      ⟨Synch.bootstrap 0, [], fun _ => 0, fun _ => none, .start⟩ :=
    .start ⟨.start ⟨0, rfl⟩, rfl, rfl, rfl, rfl, rfl⟩
  have hcreate := hstart.next (.main 1 (fun _ => true) rfl
    ⟨fun _ => ⟨rfl, by decide, by decide⟩, (fun he => by cases he), rfl⟩ rfl)
  have hinit := hcreate.next (.main 1 (fun _ => true) rfl
    ⟨(fun he => by cases he), fun _ => ⟨rfl, by decide, by decide⟩, rfl⟩ rfl)
  have hcat := hinit.next (.main 1 (fun _ => true) rfl ⟨(fun he => by cases he), (fun he => by cases he), rfl⟩ rfl)
  have hmouse := hcat.next (.main 2 (fun _ => true) rfl ⟨(fun he => by cases he), (fun he => by cases he), rfl⟩ rfl)
  have hyield := hmouse.next (.other (.thread .yield) (fun _ => true)
    ⟨trivial, trivial, trivial, (fun he => by cases he)⟩ rfl)
  have hdispatch := hyield.next (.other (.thread .dispatch) (fun _ => true)
    ⟨trivial, trivial, trivial, (fun he => by cases he)⟩ rfl)
  have henter := hdispatch.next (.animal 1 ⟨.cat, 0, .resting⟩ 1 (fun _ => true) rfl rfl
    (by decide) (by decide) rfl)
  have hcheck := henter.next (.animal 1 ⟨.cat, 0, .entering 1⟩ 1 (fun _ => true) rfl rfl
    (by decide) (by decide) rfl)
  have hcount := hcheck.next (.animal 1 ⟨.cat, 0, .checked 1⟩ 1 (fun _ => true) rfl rfl
    (by decide) (by decide) rfl)
  have hmark := hcount.next (.animal 1 ⟨.cat, 0, .counted 1⟩ 1 (fun _ => true) rfl rfl
    (by decide) (by decide) rfl)
  have heat := hmark.next (.animal 1 ⟨.cat, 0, .marked 1⟩ 1 (fun _ => true) rfl rfl
    (by decide) (by decide) rfl)
  have hyield₂ := heat.next (.other (.thread .yield) (fun _ => true)
    ⟨trivial, trivial, trivial, (fun he => by cases he)⟩ rfl)
  have hdispatch₂ := hyield₂.next (.other (.thread .dispatch) (fun _ => true)
    ⟨trivial, trivial, trivial, (fun he => by cases he)⟩ rfl)
  have hcome := hdispatch₂.next (.animal 2 ⟨.mouse, 0, .resting⟩ 2 (fun _ => true) rfl rfl
    (by decide) (by decide) rfl)
  exact ⟨_, hcome, rfl, rfl, rfl⟩

theorem meals_ruled_oneEach : ∃ c a, Reachable (Starts oneEach) (Step oneEach) c ∧ Eats c 1 .cat 1 ∧
    c.animal 2 = some a ∧ a.kind = .mouse ∧ a.pc = .entering 2 ∧
    animalStep oneEach 2 a 2 (fun _ => true) c = .error .panic := by
  obtain ⟨c, hc, hcur, hcat, hmouse⟩ := oneEach_runs
  have heats : Eats c 1 .cat 1 := ⟨_, hcat, rfl, rfl⟩
  have hrules := (meals_ruled hc).2.2 2 _ 2 hcur hmouse (by decide) (by decide)
  exact ⟨c, _, hc, heats, hmouse, rfl, rfl, hrules.2.mpr ⟨2, rfl, .inr ⟨1, 1, heats⟩⟩⟩

/-- `catmouse` destroys its semaphore when every animal has finished, with nobody asleep on it; then there
is none left. -/
theorem catmouse_waits (h : Reachable (Starts S) (Step S) c) :
    (c.stage = .done → ∀ t, c.animal t = none) ∧
    (∀ i, c.stage = .waiting i → c.synch.threads.curthread = some S.main →
      (i < S.numCats + S.numMice ∨ ∀ t, c.animal t = none) ∧
      ∃ c', mainStep S newguy (fun _ => true) c = .ok c') := by
  obtain ⟨hc, hr⟩ := reachable_keeps h
  refine ⟨hr.done, fun i hi hcur => ⟨?_, ?_⟩⟩
  · by_cases hlt : i < S.numCats + S.numMice
    · exact .inl hlt
    · exact .inr (hr.empty hc hi hlt)
  · obtain ⟨s, l, hl⟩ := hr.counted (by simp [hi]) (by simp [hi])
    simp only [mainStep, hi]
    split
    · have hsem : (c.synch.withMemory fun _ => true).sems S.catMouseWait = some s := hl.sem
      obtain ⟨synch, hP⟩ := (hc.sound.withMemory fun _ => true).P_total (fun _ => rfl) hcur hsem
      rw [hP]
      exact ⟨_, rfl⟩
    · have hnobody : Synch.hassleepers S.catMouseWait (c.synch.withMemory fun _ => true).threads = false := by
        rw [Synch.hassleepers_eq_false]
        intro t ht haddr
        have hpending := (hc.sound.asleep t S.catMouseWait s hl.sem ⟨ht, haddr⟩).1
        rw [hc.waits t hpending, hc.sound.not_pending hcur] at hpending
        cases hpending
      rw [Synch.semDestroy, hnobody]
      exact ⟨_, rfl⟩

theorem catmouse_waits_oneCat : ∃ c, Reachable (Starts oneCat) (Step oneCat) c ∧
    c.stage = .waiting 0 ∧ ∃ c', mainStep oneCat 2 (fun _ => true) c = .ok c' := by
  obtain ⟨c, hc, hcur, hstage⟩ := oneCat_runs
  exact ⟨c, hc, hstage, ((catmouse_waits hc).2 0 hstage hcur).2⟩

end CseOs.Kernel.CatMouse
