import CseOs.Kernel.Asst1.Bowls

/-!
# No two animals at one bowl

The rules of the simulation over all interleavings: whoever eats has a bowl for itself and only its own kind
beside it, and `bowls.c` panics exactly when an animal is about to break that.
-/

namespace CseOs.Kernel.CatMouse

open Framework State

variable {Addr : Type} {S : Setup Addr} {c c' : State Addr} {synch : Synch Addr}
  {t u newguy : Nat} {a a' : Animal} {b bowl : Nat} {h h' : Option Nat} {answers : Nat → Bool}

/-- The thread is in the critical section, not waiting for it. -/
def Holds (S : Setup Addr) (c : State Addr) (t : Nat) : Prop :=
  ∃ a, c.animal t = some a ∧ a.pc.Inside ∧ c.synch.pending t ≠ some S.mutex

/-- The mutex is held by `h` or free, and the state it guards is truthful. -/
structure Guard (S : Setup Addr) (c : State Addr) (h : Option Nat) : Prop where
  holder : ∀ t, Holds S c t ↔ h = some t
  units : ∀ s, c.synch.sems S.mutex = some s → s.count = if h = none then 1 else 0
  truthful : Truthful c.bowls c.eating c.animal h
  length : c.bowls.length = S.numBowls

theorem holder_step (hold : ∀ u, Holds S c u ↔ h = some u)
    (hanimal : ∀ u ≠ t, c'.animal u = c.animal u)
    (hpending : ∀ u ≠ t, c'.synch.pending u = some S.mutex ↔ c.synch.pending u = some S.mutex)
    (hself : Holds S c' t ↔ h' = some t) (hothers : ∀ u ≠ t, h' = some u ↔ h = some u) :
    ∀ u, Holds S c' u ↔ h' = some u := by
  intro u
  by_cases he : u = t
  · rw [he]
    exact hself
  · rw [hothers u he, ← hold u]
    simp only [Holds, hanimal u he, ne_eq, hpending u he]

theorem Guard.untouched (hg : Guard S c h) (hu : Synch.Untouched S.mutex c.synch synch) :
    Guard S (c.setSynch synch) h where
  holder t := by
    rw [← hg.holder t]
    simp only [Holds, setSynch, ne_eq, hu.pending t]
  units s hs := hg.units s (hu.sems ▸ hs)
  truthful := hg.truthful
  length := hg.length

theorem Guard.took (hg : Guard S c h) (hasks : ∃ a, c.animal t = some a ∧ a.pc.Asking)
    (ht : Synch.Took S.mutex t c.synch synch) : Guard S (c.setSynch synch) (some t) := by
  obtain ⟨a, ha, hask⟩ := hasks
  obtain ⟨s, hs, hpos, hs'⟩ := ht.sems
  have hnone : h = none := by
    by_contra hne
    have hzero := hg.units s hs
    rw [if_neg hne] at hzero
    omega
  subst hnone
  have hone := hg.units s hs
  rw [if_pos rfl] at hone
  constructor
  · apply holder_step (t := t) (c := c) hg.holder
    · exact fun _ _ => rfl
    · intro u hu
      rw [setSynch, ht.pending u]
      exact and_iff_left hu
    · refine iff_of_true ⟨a, ha, hask.inside, fun hp => ?_⟩ rfl
      exact ((ht.pending t).mp hp).2 rfl
    · intro u hu
      simp [Ne.symm hu]
  · intro r hr
    have hr : synch.sems S.mutex = some r := hr
    rw [hs'] at hr
    cases hr
    show s.count - 1 = 0
    omega
  · exact hg.truthful.take ha hask
  · exact hg.length

theorem Guard.write (hg : Guard S c (some t)) (c' : State Addr) (hnone : c.synch.pending t = none) (hin : a.pc.Inside)
    (hT : Truthful c'.bowls c'.eating c'.animal (some t)) (hsynch : c'.synch = c.synch)
    (hlength : c'.bowls.length = c.bowls.length)
    (hanimal : c'.animal = Function.update c.animal t (some a)) : Guard S c' (some t) := by
  constructor
  · apply holder_step (t := t) (c := c) hg.holder
    · intro u hu
      rw [hanimal, Function.update_of_ne hu]
    · exact fun u _ => by rw [hsynch]
    · refine iff_of_true ⟨a, by rw [hanimal, Function.update_self], hin, ?_⟩ rfl
      simp [hsynch, hnone]
    · exact fun _ _ => .rfl
  · intro s hs
    rw [hsynch] at hs
    exact hg.units s hs
  · exact hT
  · rw [hlength, hg.length]

theorem Guard.setAnimal (hg : Guard S c h) (hne : h ≠ some t) {r : Option Animal}
    (hout : ∀ a, r = some a → ¬ a.pc.Inside ∨ c.synch.pending t = some S.mutex)
    (hT : Truthful c.bowls c.eating (Function.update c.animal t r) h) :
    Guard S (c.setAnimal t r) h := by
  refine ⟨?_, hg.units, hT, hg.length⟩
  apply holder_step (t := t) (c := c) hg.holder
  · exact fun u hu => Function.update_of_ne hu ..
  · exact fun _ _ => .rfl
  · refine iff_of_false (fun ht => ?_) hne
    obtain ⟨a, ha, hin, hp⟩ := ht
    have ha : Function.update c.animal t r t = some a := ha
    rw [Function.update_self] at ha
    cases hout a ha with
    | inl hno => exact hno hin
    | inr hwait => exact hp hwait
  · exact fun _ _ => .rfl

theorem call_eq_ok {r : Option (Synch Addr)} :
    c.call r = .ok c' ↔ ∃ synch, r = some synch ∧ c' = c.setSynch synch := by
  cases r <;> simp [call, eq_comm]

private theorem check_cases (hm : check t a b c = .ok c') : c.bowls[b - 1]? = some none ∧
    c.eating a.kind.other = 0 ∧ c' = c.setAnimal t (some { a with pc := .checked b }) := by
  unfold check at hm
  split at hm
  · cases hm
  · split at hm
    · cases hm
    · split at hm
      · cases hm
      · next hok =>
        have hok := not_or.mp hok
        exact ⟨not_not.mp hok.1, not_not.mp hok.2, (Except.ok.inj hm).symm⟩

theorem create_cases [DecidableEq Addr] {sem : Addr} {n : Int} (hm : create sem n c = .ok c') :
    ∃ r synch, c.synch.semCreate sem n = some (some r, synch) ∧ c' = c.setSynch synch := by
  unfold create at hm
  cases hcreate : c.synch.semCreate sem n with
  | none => simp [hcreate] at hm
  | some p =>
    obtain ⟨r, synch⟩ := p
    cases r with
    | none => simp [hcreate] at hm
    | some r =>
      simp only [hcreate, Except.ok.injEq] at hm
      exact ⟨r, synch, rfl, hm.symm⟩

private theorem uncount_cases (hm : uncount t a b c = .ok c') :
    c' = (c.setEating a.kind (c.eating a.kind - 1)).setAnimal t (some { a with pc := .uncounted b }) := by
  unfold uncount at hm
  split at hm
  · cases hm
  · exact (Except.ok.inj hm).symm

private theorem clear_cases (hm : clear t a b c = .ok c') :
    c' = (c.setBowl b none).setAnimal t (some { a with pc := .cleared b }) := by
  unfold clear at hm
  split at hm
  · cases hm
  · exact (Except.ok.inj hm).symm

variable [DecidableEq Addr]

theorem Guard.P {pc : Pc} (hg : Guard S c h)
    (hcur : c.synch.threads.curthread = some t) (ha : c.animal t = some a) (hout : ¬ a.pc.Inside)
    (hask : pc.Asking) (hocc : pc.occupied = a.pc.occupied)
    (hrange : ∀ b, pc.bowl = some b → 1 ≤ b ∧ b ≤ c.bowls.length)
    (hm : c.synch.P S.mutex = some synch) :
    ∃ h', Guard S ((c.setAnimal t (some { a with pc := pc })).setSynch synch) h' := by
  have hne : h ≠ some t := by
    intro he
    obtain ⟨a', ha', hin, _⟩ := (hg.holder t).mpr he
    rw [ha] at ha'
    cases ha'
    exact hout hin
  have hT : Truthful c.bowls c.eating (Function.update c.animal t (some { a with pc := pc })) h := by
    apply hg.truthful.move hne
    · intro b hb
      obtain ⟨a', ha', hb⟩ := hb
      rw [ha] at ha'
      cases ha'
      exact ⟨_, rfl, hocc.trans hb⟩
    · intro a' ha'
      cases ha'
      exact ⟨hrange, fun b hb => ⟨a, ha, rfl, hocc.symm.trans hb⟩⟩
  obtain ⟨cur, s, hcur', hs, hcases⟩ := Synch.P_cases hm
  rw [hcur] at hcur'
  cases hcur'
  cases hcases with
  | inl hsleep =>
    obtain ⟨_, th, _, rfl⟩ := hsleep
    refine ⟨h, ?_, hg.units, hT, hg.length⟩
    apply holder_step (t := t) (c := c) hg.holder
    · exact fun u hu => Function.update_of_ne hu ..
    · intro u hu
      show Function.update c.synch.pending t (some S.mutex) u = _ ↔ _
      rw [Function.update_of_ne hu]
    · refine iff_of_false (fun ht => ?_) hne
      obtain ⟨_, _, _, hp⟩ := ht
      exact hp (Function.update_self ..)
    · exact fun _ _ => .rfl
  | inr htake =>
    obtain ⟨hpos, rfl⟩ := htake
    have hunits := hg.units s hs
    have hnone : h = none := by
      by_contra hsome
      rw [if_neg hsome] at hunits
      omega
    subst hnone
    rw [if_pos rfl] at hunits
    refine ⟨some t, ?_, fun r hr => ?_, hT.take (Function.update_self ..) hask, hg.length⟩
    · apply holder_step (t := t) (c := c) hg.holder
      · exact fun u hu => Function.update_of_ne hu ..
      · intro u hu
        show Function.update c.synch.pending t none u = _ ↔ _
        rw [Function.update_of_ne hu]
      · refine iff_of_true ⟨_, Function.update_self .., hask.inside, fun hp => ?_⟩ rfl
        have hp : Function.update c.synch.pending t none t = some S.mutex := hp
        rw [Function.update_self] at hp
        cases hp
      · intro u hu
        simp [Ne.symm hu]
    · have hr : Function.update c.synch.sems S.mutex (some _) S.mutex = some r := hr
      rw [Function.update_self] at hr
      cases hr
      show s.count - 1 = 0
      omega

theorem Guard.V {r : Animal} (hg : Guard S c (some t)) (ha : c.animal t = some a)
    (h0 : a.pc.ahead = 0) (hout : ¬ r.pc.Inside) (hocc : r.pc.occupied = a.pc.occupied)
    (hkind : r.kind = a.kind) (hrange : ∀ b, r.pc.bowl = some b → 1 ≤ b ∧ b ≤ c.bowls.length)
    (hm : c.synch.V S.mutex = some synch) :
    Guard S ((c.setAnimal t (some r)).setSynch synch) none := by
  obtain ⟨s, th, hs, _, _, rfl⟩ := Synch.V_cases hm
  have hT := hg.truthful.give ha h0
  refine ⟨?_, fun r' hr => ?_, ?_, hg.length⟩
  · apply holder_step (t := t) (c := c) hg.holder
    · exact fun u hu => Function.update_of_ne hu ..
    · exact fun _ _ => .rfl
    · refine iff_of_false (fun ht => ?_) (by simp)
      obtain ⟨a', ha', hin, _⟩ := ht
      have ha' : Function.update c.animal t (some r) t = some a' := ha'
      rw [Function.update_self] at ha'
      cases ha'
      exact hout hin
    · intro u hu
      simp [Ne.symm hu]
  · have hr : Function.update c.synch.sems S.mutex (some _) S.mutex = some r' := hr
    rw [Function.update_self] at hr
    cases hr
    have hunits := hg.units s hs
    rw [if_neg (by simp)] at hunits
    show s.count + 1 = 1
    omega
  · apply hT.move (by simp)
    · intro b hb
      obtain ⟨a', ha', hb⟩ := hb
      rw [ha] at ha'
      cases ha'
      exact ⟨r, rfl, hocc.trans hb⟩
    · intro a' ha'
      cases ha'
      exact ⟨hrange, fun b hb => ⟨a, ha, hkind.symm, hocc.symm.trans hb⟩⟩

theorem Guard.inside (hg : Guard S c (some t)) (ha : c.animal t = some a)
    (hnone : c.synch.pending t = none) (hpc : a.pc.Inside) (hstay : ∀ b, a.pc ≠ .marked b)
    (hleft : ∀ b, a.pc ≠ .cleared b) (hm : animalStep S t a bowl answers c = .ok c') :
    Guard S c' (some t) := by
  obtain ⟨hself, hother⟩ := hg.truthful.ahead t a rfl ha
  cases hcase : a.pc with
  | resting => rw [hcase] at hpc; exact hpc.elim
  | eating b => rw [hcase] at hpc; exact hpc.elim
  | marked b => exact absurd hcase (hstay b)
  | cleared b => exact absurd hcase (hleft b)
  | entering b =>
    simp only [animalStep, hcase] at hm
    obtain ⟨hfree, hzero, rfl⟩ := check_cases hm
    rw [hcase] at hself
    have hT := hg.truthful.write ha (.checked b) (by rw [hcase]; rfl) (by rw [hcase]; rfl)
      hself fun b' hb' => by
        cases hb'
        exact ⟨hfree, by omega⟩
    rw [Function.update_eq_self] at hT
    exact hg.write (a := { a with pc := .checked b }) _ hnone trivial hT rfl rfl rfl
  | checked b =>
    simp only [animalStep, hcase] at hm
    cases hm
    rw [hcase] at hself
    have hT := hg.truthful.write ha (.counted b) (n := c.eating a.kind + 1) (by rw [hcase]; rfl)
      (by rw [hcase]; rfl) (by rw [hself]; rfl) fun b' hb' => by
        cases hb'
        exact hg.truthful.claim t a b rfl ha (by rw [hcase]; rfl)
    exact hg.write (a := { a with pc := .counted b }) _ hnone trivial hT rfl rfl rfl
  | counted b =>
    simp only [animalStep, hcase] at hm
    cases hm
    obtain ⟨hfree, hzero⟩ := hg.truthful.claim t a b rfl ha (by rw [hcase]; rfl)
    rw [hcase] at hself
    have hT := hg.truthful.writeBowl ha (.marked b) (some a.kind) (by rw [hcase]; rfl) rfl
      hfree ?_ ?_ ?_ ?_ ?_ rfl
    · exact hg.write (a := { a with pc := .marked b }) _ hnone trivial hT rfl (List.length_set ..) rfl
    · intro u a' _ hu hb'
      rw [hg.truthful.marks u a' b hu hb'] at hfree
      cases hfree
    · intro kind hkind
      cases hkind
      exact ⟨rfl, rfl, hzero⟩
    · intro b' hb'
      cases hb'
      exact ⟨rfl, rfl⟩
    · intro b' hb'
      rw [hcase] at hb'
      cases hb'
    · intro kind
      have hset := shown_set hfree (some a.kind) kind
      simp only [Option.some.injEq, reduceCtorEq, if_false] at hset
      have hself : c.eating a.kind = shown c.bowls a.kind + 1 := hself
      cases eq_or_other a.kind kind with
      | inl hk =>
        subst hk
        rw [if_pos rfl] at hset ⊢
        show _ = _ + (0 : Int)
        omega
      | inr hk =>
        subst hk
        rw [if_neg other_ne.symm] at hset
        rw [if_neg other_ne]
        omega
  | leaving b =>
    simp only [animalStep, hcase] at hm
    cases uncount_cases hm
    rw [hcase] at hself
    have hT := hg.truthful.write ha (.uncounted b) (n := c.eating a.kind - 1) (by rw [hcase]; rfl)
      (by rw [hcase]; rfl) (by rw [hself]; show _ + (0 : Int) - 1 = _ + (-1 : Int); omega)
      fun b' hb' => nomatch hb'
    exact hg.write (a := { a with pc := .uncounted b }) _ hnone trivial hT rfl rfl rfl
  | uncounted b =>
    simp only [animalStep, hcase] at hm
    cases clear_cases hm
    rw [hcase] at hself
    have hocc : a.pc.occupied = some b := by rw [hcase]; rfl
    have hmark := hg.truthful.marks t a b ha hocc
    have hT := hg.truthful.writeBowl ha (.cleared b) none (by rw [hcase]; rfl) rfl
      hmark ?_ ?_ ?_ ?_ ?_ rfl
    · exact hg.write (a := { a with pc := .cleared b }) _ hnone trivial hT rfl (List.length_set ..) rfl
    · intro u a' hne hu hb'
      exact hne (hg.truthful.marked_iff ha hocc hu hb')
    · exact fun kind hkind => nomatch hkind
    · exact fun b' hb' => nomatch hb'
    · intro b' hb'
      rw [hocc] at hb'
      cases hb'
      rfl
    · intro kind
      have hset := shown_set hmark none kind
      simp only [Option.some.injEq, reduceCtorEq, if_false] at hset
      have hself : c.eating a.kind = shown c.bowls a.kind + (-1 : Int) := hself
      cases eq_or_other a.kind kind with
      | inl hk =>
        subst hk
        rw [if_pos rfl] at hset ⊢
        show _ = _ + (0 : Int)
        omega
      | inr hk =>
        subst hk
        rw [if_neg other_ne.symm] at hset
        rw [if_neg other_ne]
        omega

/-- What one step of an animal is. -/
inductive Move (S : Setup Addr) (t : Nat) (a : Animal) (bowl : Nat) (answers : Nat → Bool)
    (c c' : State Addr) : Prop
  | ask (pc : Pc) (synch : Synch Addr) : ¬ a.pc.Inside → pc.Asking → pc.occupied = a.pc.occupied →
      (∀ b, pc.bowl = some b → b = bowl ∨ a.pc.bowl = some b) →
      (c.synch.withMemory answers).P S.mutex = some synch →
      c' = (c.setAnimal t (some { a with pc := pc })).setSynch synch → Move S t a bowl answers c c'
  | finish (synch : Synch Addr) : a.pc = .resting → ¬ a.i < S.numLoops →
      (c.synch.withMemory answers).V S.catMouseWait = some synch →
      c' = (c.setAnimal t none).setSynch synch → Move S t a bowl answers c c'
  | release (r : Animal) (synch : Synch Addr) : a.pc.Inside → a.pc.ahead = 0 → ¬ r.pc.Inside →
      r.pc.occupied = a.pc.occupied → r.kind = a.kind →
      (∀ b, r.pc.bowl = some b → a.pc.bowl = some b) →
      (c.synch.withMemory answers).V S.mutex = some synch →
      c' = (c.setAnimal t (some r)).setSynch synch → Move S t a bowl answers c c'
  | write (r : Animal) : a.pc.Inside → (∀ b, a.pc ≠ .marked b) → (∀ b, a.pc ≠ .cleared b) →
      c'.synch = c.synch → c'.stage = c.stage → c'.animal = Function.update c.animal t (some r) →
      Move S t a bowl answers c c'

theorem animalStep_move (hm : animalStep S t a bowl answers c = .ok c') :
    Move S t a bowl answers c c' := by
  cases hcase : a.pc with
  | resting =>
    simp only [animalStep, hcase] at hm
    split at hm
    · unfold eat at hm
      split at hm
      · cases hm
      · obtain ⟨synch, hP, rfl⟩ := call_eq_ok.mp hm
        refine .ask (.entering bowl) synch ?_ trivial ?_ ?_ hP rfl
        · rw [hcase]
          exact id
        · rw [hcase]
          rfl
        · exact fun b hb => .inl (Option.some.inj hb).symm
    · next hdone =>
      obtain ⟨synch, hV, rfl⟩ := call_eq_ok.mp hm
      exact .finish synch hcase hdone hV rfl
  | eating b =>
    simp only [animalStep, hcase] at hm
    obtain ⟨synch, hP, rfl⟩ := call_eq_ok.mp hm
    refine .ask (.leaving b) synch ?_ trivial ?_ ?_ hP rfl
    · rw [hcase]
      exact id
    · rw [hcase]
      rfl
    · exact fun b' hb => .inr (by rw [hcase]; exact hb)
  | marked b =>
    simp only [animalStep, hcase] at hm
    obtain ⟨synch, hV, rfl⟩ := call_eq_ok.mp hm
    refine .release { a with pc := .eating b } synch ?_ ?_ id ?_ rfl ?_ hV rfl
    · rw [hcase]
      exact trivial
    · rw [hcase]
      rfl
    · rw [hcase]
      rfl
    · exact fun b' hb => by rw [hcase]; exact hb
  | cleared b =>
    simp only [animalStep, hcase] at hm
    obtain ⟨synch, hV, rfl⟩ := call_eq_ok.mp hm
    refine .release { a with i := a.i + 1, pc := .resting } synch ?_ ?_ id ?_ rfl ?_ hV rfl
    · rw [hcase]
      exact trivial
    · rw [hcase]
      rfl
    · rw [hcase]
      rfl
    · exact fun b' hb => nomatch hb
  | entering b =>
    simp only [animalStep, hcase] at hm
    obtain ⟨_, _, rfl⟩ := check_cases hm
    exact .write { a with pc := .checked b } (by rw [hcase]; trivial) (by simp [hcase])
      (by simp [hcase]) rfl rfl rfl
  | checked b =>
    simp only [animalStep, hcase] at hm
    cases hm
    exact .write { a with pc := .counted b } (by rw [hcase]; trivial) (by simp [hcase])
      (by simp [hcase]) rfl rfl rfl
  | counted b =>
    simp only [animalStep, hcase] at hm
    cases hm
    exact .write { a with pc := .marked b } (by rw [hcase]; trivial) (by simp [hcase])
      (by simp [hcase]) rfl rfl rfl
  | leaving b =>
    simp only [animalStep, hcase] at hm
    cases uncount_cases hm
    exact .write { a with pc := .uncounted b } (by rw [hcase]; trivial) (by simp [hcase])
      (by simp [hcase]) rfl rfl rfl
  | uncounted b =>
    simp only [animalStep, hcase] at hm
    cases clear_cases hm
    exact .write { a with pc := .cleared b } (by rw [hcase]; trivial) (by simp [hcase])
      (by simp [hcase]) rfl rfl rfl

omit [DecidableEq Addr] in
theorem Guard.withMemory (hg : Guard S c h) (answers : Nat → Bool) :
    Guard S (c.withMemory answers) h :=
  hg.untouched ⟨rfl, fun _ => .rfl⟩

theorem Guard.animalStep (hg : Guard S c h) (hnone : c.synch.pending t = none)
    (hcur : c.synch.threads.curthread = some t) (ha : c.animal t = some a) (h1 : 1 ≤ bowl)
    (hlen : bowl ≤ S.numBowls) (hm : animalStep S t a bowl answers c = .ok c') :
    ∃ h', Guard S c' h' := by
  have hrange := hg.truthful.range t a
  rw [hg.length] at hrange
  have hout : ¬ a.pc.Inside → h ≠ some t := by
    intro hno he
    obtain ⟨a', ha', hin, _⟩ := (hg.holder t).mpr he
    rw [ha] at ha'
    cases ha'
    exact hno hin
  have hin : a.pc.Inside → h = some t :=
    fun hpc => (hg.holder t).mp ⟨a, ha, hpc, by simp [hnone]⟩
  have hmove := animalStep_move hm
  cases hmove with
  | ask pc synch hno hask hocc hb hP hc' =>
    rw [hc']
    apply (hg.withMemory answers).P hcur ha hno hask hocc _ hP
    intro b hpc
    rw [show (c.withMemory answers).bowls.length = S.numBowls from hg.length]
    cases hb b hpc with
    | inl hsame => exact hsame ▸ ⟨h1, hlen⟩
    | inr hold => exact hrange b ha hold
  | finish synch hrest _ hV hc' =>
    have hno : ¬ a.pc.Inside := by
      rw [hrest]
      exact id
    obtain ⟨s, th, _, _, _, rfl⟩ := Synch.V_cases hV
    have hset : Guard S (c.setAnimal t none) h := by
      refine hg.setAnimal (hout hno) (by simp) (hg.truthful.move (hout hno) ?_ (by simp))
      intro b hb
      obtain ⟨a', ha', hb⟩ := hb
      rw [ha] at ha'
      cases ha'
      rw [hrest] at hb
      cases hb
    rw [hc']
    exact ⟨h, hset.untouched ⟨Function.update_of_ne S.distinct .., fun _ => .rfl⟩⟩
  | release r synch hpc h0 hno hocc hkind hb hV hc' =>
    have hh := hin hpc
    subst hh
    rw [hc']
    refine ⟨none, (hg.withMemory answers).V ha h0 hno hocc hkind ?_ hV⟩
    intro b hr
    rw [show (c.withMemory answers).bowls.length = S.numBowls from hg.length]
    exact hrange b ha (hb b hr)
  | write r hpc hstay hleft _ _ _ =>
    have hh := hin hpc
    subst hh
    exact ⟨some t, hg.inside ha hnone hpc hstay hleft hm⟩

/-- What holds of a simulation in every state. -/
structure Tidy (S : Setup Addr) (c : State Addr) : Prop where
  run : Reachable Synch.Boots Synch.Step c.synch
  alive : ∀ t a, c.animal t = some a → c.synch.threads.Live t
  asks : ∀ t, c.synch.pending t = some S.mutex → ∃ a, c.animal t = some a ∧ a.pc.Asking
  waits : ∀ t, c.synch.pending t = some S.catMouseWait → t = S.main
  idle : c.synch.sems S.mutex = none → ∀ t, c.animal t = none
  made : c.stage ≠ .start → c.stage ≠ .created → c.synch.sems S.mutex ≠ none
  guard : c.synch.sems S.mutex ≠ none → ∃ h, Guard S c h

theorem Tidy.sound (hc : Tidy S c) : c.synch.Sound := Synch.Sound.of_reachable hc.run

theorem Move.run (hmove : Move S t a bowl answers c c')
    (hrun : Reachable Synch.Boots Synch.Step c.synch) :
    Reachable Synch.Boots Synch.Step c'.synch := by
  cases hmove with
  | ask pc synch _ _ _ _ hP hc' =>
    rw [hc']
    exact hrun.next ⟨.P S.mutex, answers, trivial, hP⟩
  | finish synch _ _ hV hc' =>
    rw [hc']
    exact hrun.next ⟨.V S.catMouseWait, answers, trivial, hV⟩
  | release r synch _ _ _ _ _ _ hV hc' =>
    rw [hc']
    exact hrun.next ⟨.V S.mutex, answers, trivial, hV⟩
  | write r _ _ _ hsynch _ _ =>
    rw [hsynch]
    exact hrun

theorem Move.live (hmove : Move S t a bowl answers c c') (hsound : c.synch.Sound)
    (hlive : c.synch.threads.Live u) : c'.synch.threads.Live u := by
  have hsound' := hsound.withMemory answers
  have hlive' : (c.synch.withMemory answers).threads.Live u := hlive
  cases hmove with
  | ask pc synch _ _ _ _ hP hc' =>
    rw [hc']
    exact hsound'.live hlive' (e := .P S.mutex) (by simp) hP
  | finish synch _ _ hV hc' =>
    rw [hc']
    exact hsound'.live hlive' (e := .V S.catMouseWait) (by simp) hV
  | release r synch _ _ _ _ _ _ hV hc' =>
    rw [hc']
    exact hsound'.live hlive' (e := .V S.mutex) (by simp) hV
  | write r _ _ _ hsynch _ _ =>
    rw [hsynch]
    exact hlive

/-- The other animals are where they were. -/
theorem Move.others (hmove : Move S t a bowl answers c c') (hu : u ≠ t) :
    c'.animal u = c.animal u := by
  cases hmove with
  | ask pc synch _ _ _ _ _ hc' =>
    rw [hc']
    exact Function.update_of_ne hu ..
  | finish synch _ _ _ hc' =>
    rw [hc']
    exact Function.update_of_ne hu ..
  | release r synch _ _ _ _ _ _ _ hc' =>
    rw [hc']
    exact Function.update_of_ne hu ..
  | write r _ _ _ _ _ hanimal =>
    rw [hanimal, Function.update_of_ne hu]

/-- Who is in a `P` after a step -/
theorem Move.asks (hmove : Move S t a bowl answers c c') (hnone : c.synch.pending t = none)
    (hcur : c.synch.threads.curthread = some t) {sem : Addr} (hu : c'.synch.pending u = some sem) :
    (u ≠ t ∧ c.synch.pending u = some sem) ∨
      u = t ∧ sem = S.mutex ∧ ∃ r, c'.animal t = some r ∧ r.pc.Asking := by
  have hkept (hp : c.synch.pending u = some sem) :
      (u ≠ t ∧ c.synch.pending u = some sem) ∨
        u = t ∧ sem = S.mutex ∧ ∃ r, c'.animal t = some r ∧ r.pc.Asking := by
    refine .inl ⟨fun he => ?_, hp⟩
    rw [he, hnone] at hp
    cases hp
  cases hmove with
  | ask pc synch _ hask _ _ hP hc' =>
    rw [hc'] at hu
    have hu : synch.pending u = some sem := hu
    obtain ⟨cur, s, hcur', _, hcases⟩ := Synch.P_cases hP
    have hcur' : c.synch.threads.curthread = some cur := hcur'
    rw [hcur] at hcur'
    cases hcur'
    cases hcases with
    | inl hsleep =>
      obtain ⟨_, th, _, rfl⟩ := hsleep
      have hu : Function.update c.synch.pending t (some S.mutex) u = some sem := hu
      by_cases he : u = t
      · subst he
        rw [Function.update_self] at hu
        rw [hc']
        exact .inr ⟨rfl, (Option.some.inj hu).symm, _, Function.update_self .., hask⟩
      · rw [Function.update_of_ne he] at hu
        exact .inl ⟨he, hu⟩
    | inr htake =>
      obtain ⟨_, rfl⟩ := htake
      have hu : Function.update c.synch.pending t none u = some sem := hu
      by_cases he : u = t
      · subst he
        rw [Function.update_self] at hu
        cases hu
      · rw [Function.update_of_ne he] at hu
        exact .inl ⟨he, hu⟩
  | finish synch _ _ hV hc' =>
    obtain ⟨s, th, _, _, _, rfl⟩ := Synch.V_cases hV
    rw [hc'] at hu
    exact hkept hu
  | release r synch _ _ _ _ _ _ hV hc' =>
    obtain ⟨s, th, _, _, _, rfl⟩ := Synch.V_cases hV
    rw [hc'] at hu
    exact hkept hu
  | write r _ _ _ hsynch _ _ =>
    rw [hsynch] at hu
    exact hkept hu

theorem Move.made (hmove : Move S t a bowl answers c c') (hmade : c.synch.sems S.mutex ≠ none) :
    c'.synch.sems S.mutex ≠ none := by
  cases hmove with
  | ask pc synch _ _ _ _ hP hc' =>
    obtain ⟨cur, s, _, hs, hcases⟩ := Synch.P_cases hP
    rw [hc']
    cases hcases with
    | inl hsleep =>
      obtain ⟨_, th, _, rfl⟩ := hsleep
      exact hmade
    | inr htake =>
      obtain ⟨_, rfl⟩ := htake
      show Function.update c.synch.sems S.mutex (some _) S.mutex ≠ none
      simp
  | finish synch _ _ hV hc' =>
    obtain ⟨s, th, _, _, _, rfl⟩ := Synch.V_cases hV
    rw [hc']
    show Function.update c.synch.sems S.catMouseWait (some _) S.mutex ≠ none
    rw [Function.update_of_ne S.distinct]
    exact hmade
  | release r synch _ _ _ _ _ _ hV hc' =>
    obtain ⟨s, th, _, _, _, rfl⟩ := Synch.V_cases hV
    rw [hc']
    show Function.update c.synch.sems S.mutex (some _) S.mutex ≠ none
    simp
  | write r _ _ _ hsynch _ _ =>
    rw [hsynch]
    exact hmade

theorem Move.stage (hmove : Move S t a bowl answers c c') : c'.stage = c.stage := by
  cases hmove with
  | ask pc synch _ _ _ _ _ hc' =>
    rw [hc']
    rfl
  | finish synch _ _ _ hc' =>
    rw [hc']
    rfl
  | release r synch _ _ _ _ _ _ _ hc' =>
    rw [hc']
    rfl
  | write r _ _ _ _ hstage _ => exact hstage

namespace Tidy

theorem animal (hc : Tidy S c) (hcur : c.synch.threads.curthread = some t)
    (ha : c.animal t = some a) (h1 : 1 ≤ bowl) (hlen : bowl ≤ S.numBowls)
    (hm : animalStep S t a bowl answers c = .ok c') : Tidy S c' := by
  have hmove := animalStep_move hm
  have hnone := hc.sound.not_pending hcur
  have hmade : c.synch.sems S.mutex ≠ none := by
    intro hno
    rw [hc.idle hno t] at ha
    cases ha
  refine ⟨hmove.run hc.run, fun u r hr => ?_, fun u hu => ?_, fun u hu => ?_, fun hno => ?_,
    fun _ _ => hmove.made hmade, fun _ => ?_⟩
  · apply hmove.live hc.sound
    by_cases he : u = t
    · exact he ▸ hc.alive t a ha
    · rw [hmove.others he] at hr
      exact hc.alive u r hr
  · cases hmove.asks hnone hcur hu with
    | inl hold =>
      rw [hmove.others hold.1]
      exact hc.asks u hold.2
    | inr hself =>
      rw [hself.1]
      exact hself.2.2
  · cases hmove.asks hnone hcur hu with
    | inl hold => exact hc.waits u hold.2
    | inr hself => exact absurd hself.2.1 S.distinct.symm
  · exact absurd hno (hmove.made hmade)
  · obtain ⟨h, hg⟩ := hc.guard hmade
    exact hg.animalStep hnone hcur ha h1 hlen hm

/-- The rest of the kernel, and the calls of `catmouse` -/
theorem apart (hc : Tidy S c) {e : Synch.Event Addr} (hlegal : e.Legal c.synch)
    (happart : e.Apart S.mutex)
    (hexit : e = .thread .exit → ∀ t, c.synch.threads.curthread = some t → c.animal t = none)
    (hwaits : e.Apart S.catMouseWait ∨
      ∀ t, synch.pending t = some S.catMouseWait → t = S.main ∨ c.synch.pending t = some S.catMouseWait)
    (hm : e.apply (c.synch.withMemory answers) = some synch) : Tidy S (c.setSynch synch) := by
  have heffect := (hc.sound.withMemory answers).effect happart hm
  have hpending : ∀ t, synch.pending t = some S.mutex → c.synch.pending t = some S.mutex := by
    intro t ht
    cases heffect with
    | inl hu => exact (hu.pending t).mp ht
    | inr htook =>
      obtain ⟨u, htook⟩ := htook
      exact ((htook.pending t).mp ht).1
  have hsems : synch.sems S.mutex = none ↔ c.synch.sems S.mutex = none := by
    cases heffect with
    | inl hu =>
      rw [hu.sems]
      exact .rfl
    | inr htook =>
      obtain ⟨u, htook⟩ := htook
      obtain ⟨s, hs, _, hs'⟩ := htook.sems
      have hs : c.synch.sems S.mutex = some s := hs
      rw [hs', hs]
      simp
  refine ⟨hc.run.next ⟨e, answers, hlegal, hm⟩, fun t a ha => ?_, fun t ht => hc.asks t (hpending t ht),
    fun t ht => ?_, fun hno => hc.idle (hsems.mp hno), fun hs hs' hno => hc.made hs hs' (hsems.mp hno), fun hmade => ?_⟩
  · apply (hc.sound.withMemory answers).live (hc.alive t a ha) _ hm
    intro he hcur
    have ha : c.animal t = some a := ha
    rw [hexit he t hcur] at ha
    cases ha
  · cases hwaits with
    | inr hsame =>
      cases hsame t ht with
      | inl hmain => exact hmain
      | inr hold => exact hc.waits t hold
    | inl hwait =>
      cases (hc.sound.withMemory answers).effect hwait hm with
      | inl hu => exact hc.waits t ((hu.pending t).mp ht)
      | inr htook =>
        obtain ⟨u, htook⟩ := htook
        exact hc.waits t ((htook.pending t).mp ht).1
  · obtain ⟨h, hg⟩ := hc.guard fun hno => hmade (hsems.mpr hno)
    cases heffect with
    | inl hu => exact ⟨h, hg.untouched ⟨hu.sems, hu.pending⟩⟩
    | inr htook =>
      obtain ⟨t, htook⟩ := htook
      exact ⟨some t, hg.took (hc.asks t htook.waited) ⟨htook.waited, htook.sems, htook.pending⟩⟩

theorem setStage (hc : Tidy S c) {stage : Stage}
    (hmade : stage ≠ .start → stage ≠ .created → c.synch.sems S.mutex ≠ none) :
    Tidy S (c.setStage stage) :=
  ⟨hc.run, hc.alive, hc.asks, hc.waits, hc.idle, hmade, fun hm => by
    obtain ⟨h, hg⟩ := hc.guard hm
    exact ⟨h, hg.holder, hg.units, hg.truthful, hg.length⟩⟩

theorem starts (h : Starts S c) : Tidy S c where
  run := h.run
  alive t a ha := by
    rw [h.animal] at ha
    cases ha
  asks t ht := by
    obtain ⟨s, hs⟩ := (Synch.Sound.of_reachable h.run).exists_sem t S.mutex ht
    rw [h.mutex] at hs
    cases hs
  waits t ht := by
    obtain ⟨s, hs⟩ := (Synch.Sound.of_reachable h.run).exists_sem t S.catMouseWait ht
    rw [h.wait] at hs
    cases hs
  idle _ t := by rw [h.animal]
  made hno := absurd h.stage hno
  guard hno := absurd h.mutex hno

theorem initializeBowls (hc : Tidy S c) (hlegal : (Synch.Event.create S.mutex 1).Legal c.synch)
    (hm : initializeBowls S answers (c.setStage (.forking 0)) = .ok c') : Tidy S c' := by
  unfold CatMouse.initializeBowls at hm
  split at hm
  · cases hm
  · obtain ⟨r, synch, hcreate, rfl⟩ := create_cases hm
    have hcreate : (c.synch.withMemory fun i => answers (i + 1)).semCreate S.mutex 1 =
      some (some r, synch) := hcreate
    have hempty : ∀ t, c.animal t = none := hc.idle hlegal.1
    have hanimal : c.animal = fun _ => none := funext hempty
    obtain ⟨hpending, _, hcases⟩ := Synch.semCreate_cases hcreate
    have hsems : synch.sems S.mutex = some ⟨1, 1, 0, 0⟩ := by
      cases hcases with
      | inl hnone => cases hnone.1
      | inr hsome => rw [hsome.2, Function.update_self]
    constructor
    · exact hc.run.next ⟨.create S.mutex 1, fun i => answers (i + 1), hlegal, by
        show Option.map Prod.snd _ = _
        rw [hcreate]
        rfl⟩
    · intro t a ha
      have ha : c.animal t = some a := ha
      rw [hempty t] at ha
      cases ha
    · intro t ht
      have ht : synch.pending t = some S.mutex := ht
      rw [hpending] at ht
      exact hc.asks t ht
    · intro t ht
      have ht : synch.pending t = some S.catMouseWait := ht
      rw [hpending] at ht
      exact hc.waits t ht
    · exact fun _ => hempty
    · exact fun _ _ hno => nomatch hsems.symm.trans hno
    · intro _
      refine ⟨none, fun t => iff_of_false (fun ht => ?_) (by simp), fun s hs => ?_, ?_, ?_⟩
      · obtain ⟨a, ha, _⟩ := ht
        have ha : c.animal t = some a := ha
        rw [hempty t] at ha
        cases ha
      · have hs : synch.sems S.mutex = some s := hs
        rw [hsems] at hs
        cases hs
        rfl
      · show Truthful (List.replicate S.numBowls none) (fun _ => 0) c.animal none
        rw [hanimal]
        exact .start S.numBowls
      · exact List.length_replicate

theorem forkNext {index : Nat} (hc : Tidy S c) (hmade : c.synch.sems S.mutex ≠ none)
    (hcur : c.synch.threads.curthread = some S.main) (hnew : c.synch.threads.created newguy = false)
    (hm : forkNext S newguy index (c.withMemory answers) = .ok c') : Tidy S c' := by
  unfold CatMouse.forkNext at hm
  cases hfork : (c.withMemory answers).synch.threads.threadFork newguy with
  | none => simp [hfork] at hm
  | some p =>
    obtain ⟨e, threads⟩ := p
    cases e with
    | some e => simp [hfork] at hm
    | none =>
      simp only [hfork, Except.ok.injEq] at hm
      subst hm
      have hlegal : (Synch.Event.thread (.fork newguy)).Legal c.synch := by
        refine ⟨hnew, ?_⟩
        rw [hcur]
        rfl
      have hevent : (Synch.Event.thread (.fork newguy)).apply (c.synch.withMemory answers) =
          some { c.synch.withMemory answers with threads := threads } := by
        show Option.map _ (Option.map Prod.snd _) = _
        rw [show (c.synch.withMemory answers).threads.threadFork newguy = _ from hfork]
        rfl
      have hforked := hc.apart hlegal trivial (by simp) (.inl trivial) hevent
      have hnone : c.animal newguy = none := by
        cases ha : c.animal newguy with
        | none => rfl
        | some a =>
          have hlive := (hc.alive newguy a ha).1
          rw [hnew] at hlive
          cases hlive
      have hlive : threads.Live newguy :=
        Threads.live_fork (hc.sound.withMemory answers).partition hnew hfork
      refine Tidy.setStage (c := State.setAnimal newguy (some (newborn S index))
        (c.setSynch { c.synch.withMemory answers with threads := threads }))
        ⟨hforked.run, fun t a ha => ?_, fun t ht => ?_, hforked.waits, fun hno => ?_, fun _ _ => hmade,
          fun _ => ?_⟩
        fun _ _ => hmade
      · by_cases he : t = newguy
        · exact he ▸ hlive
        · have ha : Function.update c.animal newguy _ t = some a := ha
          rw [Function.update_of_ne he] at ha
          exact hforked.alive t a ha
      · have hask := hforked.asks t ht
        by_cases he : t = newguy
        · obtain ⟨a, ha, _⟩ := hask
          have ha : c.animal t = some a := ha
          rw [he, hnone] at ha
          cases ha
        · obtain ⟨a, ha, hask⟩ := hask
          exact ⟨a, by
            show Function.update c.animal newguy _ t = some a
            rw [Function.update_of_ne he]
            exact ha, hask⟩
      · exact absurd hno hmade
      · obtain ⟨h, hg⟩ := hforked.guard hmade
        have hne : h ≠ some newguy := by
          intro he
          obtain ⟨a, ha, _⟩ := (hg.holder newguy).mpr he
          have ha : c.animal newguy = some a := ha
          rw [hnone] at ha
          cases ha
        refine ⟨h, hg.setAnimal hne ?_ (hg.truthful.move hne ?_ ?_)⟩
        · intro a ha
          cases ha
          exact .inl fun hin => hin
        · intro b hb
          obtain ⟨a, ha, _⟩ := hb
          have ha : c.animal newguy = some a := ha
          rw [hnone] at ha
          cases ha
        · intro a ha
          cases ha
          exact ⟨fun b hb => (nomatch hb), fun b hb => (nomatch hb)⟩

theorem main (hc : Tidy S c) (hcur : c.synch.threads.curthread = some S.main)
    (hfresh : Fresh S newguy c) (hm : mainStep S newguy answers c = .ok c') : Tidy S c' := by
  cases hstage : c.stage with
  | start =>
    simp only [mainStep, hstage] at hm
    obtain ⟨r, synch, hcreate, rfl⟩ := create_cases hm
    have hcreate : (c.synch.withMemory answers).semCreate S.catMouseWait 0 = some (some r, synch) :=
      hcreate
    have hevent : (Synch.Event.create S.catMouseWait 0).apply (c.synch.withMemory answers) =
        some synch := by
      show Option.map Prod.snd _ = _
      rw [hcreate]
      rfl
    have hpending := (Synch.semCreate_cases hcreate).1
    have hnext := hc.apart (hfresh.start hstage) (Ne.symm S.distinct) (by simp)
      (.inr fun t ht => .inr (hpending ▸ ht)) hevent
    exact hnext.setStage fun _ hno => absurd rfl hno
  | created =>
    simp only [mainStep, hstage] at hm
    exact hc.initializeBowls (hfresh.created hstage) hm
  | forking index =>
    have hmade := hc.made (by simp [hstage]) (by simp [hstage])
    simp only [mainStep, hstage] at hm
    split at hm
    · exact hc.forkNext hmade hcur hfresh.forking hm
    · cases hm
      exact hc.setStage fun _ _ => hmade
  | waiting i =>
    have hmade := hc.made (by simp [hstage]) (by simp [hstage])
    simp only [mainStep, hstage] at hm
    split at hm
    · obtain ⟨synch, hP, rfl⟩ := call_eq_ok.mp hm
      have hwaits : ∀ t, synch.pending t = some S.catMouseWait →
          t = S.main ∨ c.synch.pending t = some S.catMouseWait := by
        intro t ht
        obtain ⟨cur, s, hcur', _, hcases⟩ := Synch.P_cases hP
        have hcur' : c.synch.threads.curthread = some cur := hcur'
        rw [hcur] at hcur'
        cases hcur'
        by_cases he : t = S.main
        · exact .inl he
        · right
          cases hcases with
          | inl hsleep =>
            obtain ⟨_, th, _, rfl⟩ := hsleep
            exact (Function.update_of_ne he ..).symm.trans ht
          | inr htake =>
            obtain ⟨_, rfl⟩ := htake
            exact (Function.update_of_ne he ..).symm.trans ht
      have hnext := hc.apart (e := .P S.catMouseWait) trivial (Ne.symm S.distinct) (by simp)
        (.inr hwaits) hP
      exact hnext.setStage fun _ _ => hnext.made (by simp [setSynch, hstage]) (by simp [setSynch, hstage])
    · obtain ⟨synch, hdestroy, rfl⟩ := call_eq_ok.mp hm
      have hlegal : (Synch.Event.destroy S.catMouseWait).Legal c.synch := by
        intro t ht
        have hself := hc.waits t ht
        rw [hself, hc.sound.not_pending hcur] at ht
        cases ht
      have hpending : synch.pending = c.synch.pending := by
        unfold Synch.semDestroy at hdestroy
        split at hdestroy
        · cases hdestroy
        · cases hdestroy
          rfl
      have hnext := hc.apart (e := .destroy S.catMouseWait) hlegal (Ne.symm S.distinct) (by simp)
        (.inr fun t ht => .inr (hpending ▸ ht)) hdestroy
      exact hnext.setStage fun _ _ => hnext.made (by simp [setSynch, hstage]) (by simp [setSynch, hstage])
  | called i =>
    have hmade := hc.made (by simp [hstage]) (by simp [hstage])
    simp only [mainStep, hstage] at hm
    cases hm
    exact hc.setStage fun _ _ => hmade
  | done =>
    simp only [mainStep, hstage] at hm
    cases hm
    exact hc

end Tidy

end CseOs.Kernel.CatMouse
