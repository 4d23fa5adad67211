import CseOs.Framework.TimeSlices
import CseOs.TickSim.Loop

/-!
# The wait under round robin

Only the second loop of `dispatch_rr` takes threads from the ready queue, from its front, and all others
enter at its end. Each core is given to a new thread within one quantum.
-/

namespace CseOs.TickSim

open Framework Sim

variable {cfg : Config} {jobs : List Job} {s s' s'' : Sim} {l l' l'' : QName → List Ptr}
  {place place' : Ptr → Place} {p r t : Ptr} {T quantum : Int} {i n : Nat} {filled : Finset Nat}

/-- Cores are freed and threads enter the ready queue. -/
structure Frees (s s' : Sim) (l l' : QName → List Ptr) : Prop where
  cores : s'.core.length = s.core.length
  keeps : ∀ (i : Nat) (r : Ptr), s'.core[i]? = some (some r) →
    s.core[i]? = some (some r) ∧ (s'.thread r).quantaRem = (s.thread r).quantaRem
  ready : l .ready <+: l' .ready

private theorem Frees.trans (h : Frees s s' l l') (h' : Frees s' s'' l' l'') : Frees s s'' l l'' := by
  refine ⟨h'.cores.trans h.cores, fun i r hr => ?_, h.ready.trans h'.ready⟩
  obtain ⟨hmid, heq⟩ := h'.keeps i r hr
  obtain ⟨hold, heq'⟩ := h.keeps i r hmid
  exact ⟨hold, heq.trans heq'⟩

private theorem Woken.frees {src : QName} {due : Thread → Prop} (h : Woken src due s s' place place')
    (hp : Placed s l place) (hready : ∃ new, l' .ready = l .ready ++ new) : Frees s s' l l' := by
  obtain ⟨new, hnew⟩ := hready
  refine ⟨by rw [h.frame.core], fun i r hr => ?_, ⟨new, hnew.symm⟩⟩
  rw [h.frame.core] at hr
  refine ⟨hr, ?_⟩
  rw [(h.same (hp.core_lt hr) (by rw [hp.core_eq hr]; nofun)).2]

private theorem Interrupted.frees {io : Ptr → Option Nat} (h : Interrupted s s' place io)
    (hp : Placed s l place)
    (hp' : Placed s' l' fun p => if (io p).isSome then .queue .waiting else place p)
    (hready : l' .ready = l .ready) : Frees s s' l l' := by
  refine ⟨h.cores, fun i r hr => ?_, by rw [hready]⟩
  have hmade : s'.made = s.made := by rw [h.frame]
  have hlt : r < s.made := hmade ▸ hp'.core_lt hr
  have hplace := hp'.core_eq hr
  cases hio : io r with
  | some d =>
    simp [hio] at hplace
  | none =>
    simp only [hio, Option.isSome_none, Bool.false_eq_true, if_false] at hplace
    refine ⟨(hp.core i r).mpr ⟨hlt, hplace⟩, ?_⟩
    rw [h.thread r hlt, hio]
    rfl

private theorem freed_core (cores : List (Option Ptr)) (i : Nat) (r : Ptr) :
    (cores.set i none)[i]? ≠ some (some r) := by
  by_cases hi : i < cores.length
  · rw [List.getElem?_set_self hi]
    simp
  · rw [List.getElem?_eq_none (by rw [List.length_set]; omega)]
    simp

theorem rrPreempt_frees (is : List Nat) (h : Placed s l place) :
    ∃ s' l' place', rrPreempt is s = some s' ∧ Placed s' l' place' ∧ Frees s s' l l' ∧
      ∀ i ∈ is, ∀ r : Ptr, s'.core[i]? = some (some r) → (s'.thread r).quantaRem ≠ 0 := by
  induction is generalizing s l place with
  | nil =>
    exact ⟨s, l, place, rfl, h, ⟨rfl, fun _ _ hr => ⟨hr, rfl⟩, List.prefix_rfl⟩,
      fun _ hi => absurd hi List.not_mem_nil⟩
  | cons i is ih =>
    rw [rrPreempt]
    split
    · next t hcore =>
      split
      · obtain ⟨s₁, hrun, h₁, _, hcore₁, htag⟩ := h.preempt hcore
        have hframe : Frees s s₁ l (Function.update l .ready (l .ready ++ [t])) := by
          refine ⟨by rw [hcore₁, List.length_set], fun j r hr => ?_, ?_⟩
          · have hne : r ≠ t := by
              intro heq
              have hplace := h₁.core_eq hr
              rw [heq, Function.update_self] at hplace
              cases hplace
            rw [htag.other r hne]
            rw [hcore₁] at hr
            have hji : i ≠ j := by
              intro heq
              rw [← heq] at hr
              exact freed_core _ _ _ hr
            rw [List.getElem?_set_ne hji] at hr
            exact ⟨hr, rfl⟩
          · rw [Function.update_self]
            exact List.prefix_append _ _
        obtain ⟨s', l', place', hrest, h', hfrees, hleft⟩ := ih h₁
        refine ⟨s', l', place', by rw [hrun]; exact hrest, h', hframe.trans hfrees, fun j hj r hr => ?_⟩
        cases List.mem_cons.mp hj with
        | inr hj => exact hleft j hj r hr
        | inl heq =>
          have hgone := (hfrees.keeps j r hr).1
          rw [hcore₁, heq] at hgone
          exact absurd hgone (freed_core _ _ _)
      · next hrem =>
        obtain ⟨s', l', place', hrest, h', hfrees, hleft⟩ := ih h
        refine ⟨s', l', place', hrest, h', hfrees, fun j hj r hr => ?_⟩
        cases List.mem_cons.mp hj with
        | inr hj => exact hleft j hj r hr
        | inl heq =>
          obtain ⟨hold, hsame⟩ := hfrees.keeps j r hr
          rw [heq, hcore] at hold
          cases hold
          rw [hsame]
          exact hrem
    · next hidle =>
      obtain ⟨s', l', place', hrest, h', hfrees, hleft⟩ := ih h
      refine ⟨s', l', place', hrest, h', hfrees, fun j hj r hr => ?_⟩
      cases List.mem_cons.mp hj with
      | inr hj => exact hleft j hj r hr
      | inl heq =>
        have hold := (hfrees.keeps j r hr).1
        rw [heq] at hold
        exact absurd hold (hidle r)

/-- What the second loop does: threads from the front of the ready queue take the cores `filled`. -/
structure Fills (quantum : Int) (s s' : Sim) (l l' : QName → List Ptr) (filled : Finset Nat) : Prop where
  cores : s'.core.length = s.core.length
  ready : l' .ready = (l .ready).drop filled.card
  served : ∀ t ∈ (l .ready).take filled.card, ∃ i : Nat, s'.core[i]? = some (some t)
  idle : ∀ i ∈ filled, s.core[i]? = some none
  keeps : ∀ (i : Nat) (r : Ptr), s.core[i]? = some (some r) →
    s'.core[i]? = some (some r) ∧ (s'.thread r).quantaRem = (s.thread r).quantaRem
  slots : ∀ (i : Nat) (r : Ptr), s'.core[i]? = some (some r) →
    (i ∈ filled ∧ (s'.thread r).quantaRem = quantum) ∨ s.core[i]? = some (some r)

private theorem fills_none : Fills quantum s s l l ∅ :=
  ⟨rfl, rfl, fun _ ht => absurd ht List.not_mem_nil, fun _ hi => absurd hi (Finset.notMem_empty _),
    fun _ _ hr => ⟨hr, rfl⟩, fun _ _ hr => .inr hr⟩

private theorem cpuBindCore_quanta (h : cpuBindCore i t s = some s') (r : Ptr) :
    (s'.thread r).quantaRem = (s.thread r).quantaRem := by
  rw [cpuBindCore] at h
  split at h
  · cases h
    by_cases hrt : r = t
    · rw [hrt, setThread_same]
      rfl
    · rw [setThread_other _ hrt]
      rfl
  · cases h

private theorem rrFill_fills (quantum : Int) (is : List Nat) (h : Placed s l place)
    (his : ∀ i ∈ is, i < s.core.length) :
    ∃ s' l' place' filled, rrFill quantum is s = some s' ∧ Placed s' l' place' ∧
      Fills quantum s s' l l' filled := by
  induction is generalizing s l place with
  | nil => exact ⟨s, l, place, ∅, rfl, h, fills_none⟩
  | cons i is ih =>
    have hi := his i List.mem_cons_self
    have hrest : ∀ j ∈ is, j < s.core.length := fun j hj => his j (List.mem_cons_of_mem i hj)
    rw [rrFill]
    cases hcore : s.core[i]? with
    | none => exact absurd (List.getElem?_eq_none_iff.mp hcore) (by omega)
    | some c =>
      cases c with
      | some t => exact ih h hrest
      | none =>
        cases hready : l .ready with
        | nil =>
          rw [h.pop_nil hready]
          exact ⟨s, l, place, ∅, rfl, h, fills_none⟩
        | cons t ts =>
          have ht : t ∈ l .ready := hready ▸ List.mem_cons_self
          obtain ⟨s₁, hpop, hrel, h₁⟩ := h.pop_cons hready
          obtain ⟨s₂, hbind, h₂, hshift, hcore₂⟩ :=
            h.popBind ht hrel h₁ hcore (fun th => { th with quantaRem := quantum }) fun _ => rfl
          have hquanta := cpuBindCore_quanta hbind
          have hself : (s₂.thread t).quantaRem = quantum := by
            rw [hquanta, setThread_same]
          have hothers : ∀ r, r ≠ t → (s₂.thread r).quantaRem = (s.thread r).quantaRem := by
            intro r hr
            rw [hquanta, setThread_other _ hr, hrel.thread]
          have hbound : s₂.core[i]? = some (some t) := by
            rw [hcore₂, List.getElem?_set_self hi]
          have hcores : ∀ j ≠ i, s₂.core[j]? = s.core[j]? := by
            intro j hj
            rw [hcore₂, List.getElem?_set_ne (Ne.symm hj)]
          obtain ⟨s', l', place', filled, hfill, h', hf⟩ := ih h₂ (hshift.cores ▸ hrest)
          have hnew : i ∉ filled := by
            intro hin
            have hidle := hf.idle i hin
            rw [hbound] at hidle
            cases hidle
          have hcard : (insert i filled).card = filled.card + 1 := Finset.card_insert_of_notMem hnew
          refine ⟨s', l', place', insert i filled, ?_, h', ?_⟩
          · rw [hpop]
            show (cpuBindCore i t _).bind (rrFill quantum is) = _
            rw [hbind]
            exact hfill
          · refine ⟨hf.cores.trans hshift.cores, ?_, fun r hr => ?_, fun j hj => ?_, fun j r hr => ?_,
              fun j r hr => ?_⟩
            · rw [hf.ready, hcard, hready, Function.update_self, List.drop_succ_cons]
            · rw [hcard, hready, List.take_succ_cons, List.mem_cons] at hr
              cases hr with
              | inl heq =>
                rw [heq]
                exact ⟨i, (hf.keeps i t hbound).1⟩
              | inr hr =>
                apply hf.served r
                rwa [Function.update_self]
            · cases Finset.mem_insert.mp hj with
              | inl heq => rw [heq, hcore]
              | inr hj =>
                have hji : j ≠ i := fun heq => hnew (heq ▸ hj)
                rw [← hcores j hji]
                exact hf.idle j hj
            · have hji : j ≠ i := by
                intro heq
                rw [heq, hcore] at hr
                cases hr
              have hrt : r ≠ t := by
                intro heq
                have hplace := h.core_eq hr
                rw [heq, h.place_eq ht] at hplace
                cases hplace
              rw [← hothers r hrt]
              exact hf.keeps j r (hcores j hji ▸ hr)
            · cases hf.slots j r hr with
              | inl hin => exact .inl ⟨Finset.mem_insert_of_mem hin.1, hin.2⟩
              | inr hold =>
                by_cases hji : j = i
                · rw [hji, hbound] at hold
                  cases hold
                  rw [hji]
                  refine .inl ⟨Finset.mem_insert_self i filled, ?_⟩
                  rw [(hf.keeps i t hbound).2, hself]
                · exact .inr (hcores j hji ▸ hold)

/-- The quantum that `dispatch_rr` uses. -/
def rrSlice (cfg : Config) : Nat := (if cfg.rrQuantum < 1 then 1 else cfg.rrQuantum).toNat

private theorem rrSlice_eq (cfg : Config) :
    (rrSlice cfg : Int) = if cfg.rrQuantum < 1 then 1 else cfg.rrQuantum := by
  rw [rrSlice]
  split <;> omega

private theorem rrSlice_pos (cfg : Config) : 1 ≤ (rrSlice cfg : Int) := by
  rw [rrSlice_eq]
  split <;> omega

/-- The rest of each slice is between the bounds. -/
def QuantaIn (lo hi : Int) (s : Sim) : Prop := ∀ (i : Nat) (r : Ptr), s.core[i]? = some (some r) →
  lo ≤ (s.thread r).quantaRem ∧ (s.thread r).quantaRem ≤ hi

/-- The calls up to the dispatcher: `u` is the state between its two loops. -/
structure Arranges (cfg : Config) (s s' : Sim) (l l' : QName → List Ptr) (u : Sim)
    (lu : QName → List Ptr) (filled : Finset Nat) : Prop where
  frees : Frees s u l lu
  left : ∀ (i : Nat) (r : Ptr), u.core[i]? = some (some r) → (u.thread r).quantaRem ≠ 0
  fills : Fills (rrSlice cfg) u s' lu l' filled

private theorem arrange_rr (hrr : cfg.algo = .rr) (h : Placed s l place)
    (ha : Accounted jobs (.during T 0) s place) :
    ∃ s' l' place' u lu filled, runCalls ((phases cfg).take 4) s = some s' ∧ Placed s' l' place' ∧
      Accounted jobs (.during T 4) s' place' ∧ WorkConserving s' l' ∧
      Arranges cfg s s' l l' u lu filled := by
  obtain ⟨s₁, l₁, place₁, hrun₁, h₁, ha₁, harrive, hready₁⟩ := admit_call h ha
  obtain ⟨s₂, l₂, place₂, hrun₂, h₂, ha₂, hresolve, hready₂⟩ := resolve_call h₁ ha₁
  obtain ⟨s₃, l₃, io, hrun₃, h₃, ha₃, hint, _, hready₃⟩ := interrupts_call cfg h₂ ha₂
  obtain ⟨s₄, l₄, place₄, hrun₄, h₄, ha₄, _, hwork, _⟩ := dispatch_call cfg h₃ ha₃
  obtain ⟨u, lu, placeu, hpre, hu, hfrees, hleft⟩ := rrPreempt_frees (List.range s₃.core.length) h₃
  obtain ⟨t, lt, placet, filled, hfill, htp, hfills⟩ :=
    rrFill_fills (rrSlice cfg) (List.range u.core.length) hu fun i hi => List.mem_range.mp hi
  have hsame : some t = some s₄ := by
    rw [← hrun₄, dispatch, hrr]
    simp only [dispatchRr, hpre, Option.bind_eq_bind, Option.bind_some]
    rw [← rrSlice_eq]
    exact hfill.symm
  cases hsame
  have hlist : l₄ .ready = lt .ready := (h₄.chain .ready).unique (htp.chain .ready)
  have hbefore := ((harrive.frees h hready₁).trans (hresolve.frees h₁ hready₂)).trans
    (hint.frees h₂ h₃ hready₃)
  refine ⟨s₄, l₄, place₄, u, lu, filled, ?_, h₄, ha₄, hwork, hbefore.trans hfrees, fun i r hr => ?_, ?_⟩
  · simp only [phases, List.take_succ_cons, List.take_zero, runCalls, hrun₁, hrun₂, hrun₃, hrun₄,
      Option.bind_some]
  · have hi := (List.getElem?_eq_some_iff.mp hr).1
    rw [hfrees.cores] at hi
    exact hleft i (List.mem_range.mpr hi) r hr
  · exact { hfills with ready := hlist.trans hfills.ready }

/-- The calls after the dispatcher. -/
structure Ticks (s s' : Sim) (l l' : QName → List Ptr) : Prop where
  cores : s'.core.length = s.core.length
  ready : l' .ready = l .ready
  keeps : ∀ (i : Nat) (r : Ptr), s'.core[i]? = some (some r) → s.core[i]? = some (some r) ∧
    (s'.thread r).quantaRem = (runTick (s.thread r)).quantaRem

private theorem serve_rr (cfg : Config) (h : Placed s l place) (ha : Accounted jobs (.during T 4) s place) :
    ∃ s' l' place', runCalls ((phases cfg).drop 4) s = some s' ∧ Placed s' l' place' ∧
      Accounted jobs (.during (T + 1) 0) s' place' ∧ Ticks s s' l l' := by
  obtain ⟨s₁, hrun₁, h₁, ha₁, hframe₁, hth₁⟩ := bump_call h ha
  obtain ⟨h₂, ha₂, hth₂⟩ := step_call h₁ ha₁
  obtain ⟨_, _, hframe₂⟩ := cpuStep_spec h₁
  generalize hs₂ : cpuStep s₁ = s₂ at h₂ ha₂ hth₂ hframe₂
  obtain ⟨s₃, hrun₃, h₃, ha₃, hframe₃, hth₃⟩ := decay_call h₂ ha₂
  obtain ⟨s₄, l₄, place₄, hrun₄, h₄, ha₄, hcores, ⟨hmade, _⟩, hdone, hstay, hready⟩ :=
    collect_call h₃ ha₃
  have hcore₃ : s₃.core = s.core := by rw [hframe₃, hframe₂, hframe₁]
  refine ⟨s₄, l₄, place₄, ?_, h₄, ha₄, by rw [hcores, hcore₃], hready, fun i r hr => ?_⟩
  · simp only [phases, List.drop_succ_cons, List.drop_zero, runCalls, hrun₁, hs₂, hrun₃, hrun₄,
      Option.bind_some]
  · have hmade₃ : s₃.made = s.made := by rw [hframe₃, hframe₂, hframe₁]
    have hr₃ : r < s₃.made := hmade ▸ h₄.core_lt hr
    have hr₀ : r < s.made := hmade₃ ▸ hr₃
    have hplace₄ := h₄.core_eq hr
    obtain ⟨hplace, hsame⟩ := hstay r hr₃ fun hc => by
      rw [(hdone r hr₃ hc.1 hc.2).1] at hplace₄
      cases hplace₄
    rw [hplace] at hplace₄
    refine ⟨(h.core i r).mpr ⟨hr₀, hplace₄⟩, ?_⟩
    have hmade₁ : s₁.made = s.made := by rw [hframe₁]
    have hmade₂ : s₂.made = s.made := by rw [hframe₂, hframe₁]
    have hcore : (place r).OnCore := onCore_iff.mpr ⟨i, hplace₄⟩
    rw [hsame, hth₃ r (hmade₂ ▸ hr₀), if_neg (by simp [hplace₄]), hth₂ r (hmade₁ ▸ hr₀), if_pos hcore,
      hth₁ r hr₀, if_neg (by simp [hplace₄])]

private theorem Ticks.quanta (h : Ticks s s' l l') (hq : QuantaIn 1 quantum s) : QuantaIn 0 quantum s' := by
  intro i r hr
  obtain ⟨hold, heq⟩ := h.keeps i r hr
  have hbounds := hq i r hold
  have hrun : (runTick (s.thread r)).quantaRem = (s.thread r).quantaRem - 1 := if_pos (by omega)
  rw [heq, hrun]
  omega

theorem Arranges.cases {u : Sim} {lu : QName → List Ptr} (h : Arranges cfg s s' l l' u lu filled)
    (hr : s'.core[i]? = some (some r)) :
    (i ∈ filled ∧ (s'.thread r).quantaRem = rrSlice cfg) ∨ (s.core[i]? = some (some r) ∧
      (s'.thread r).quantaRem = (s.thread r).quantaRem ∧ (s'.thread r).quantaRem ≠ 0) := by
  cases h.fills.slots i r hr with
  | inl hfilled => exact .inl hfilled
  | inr hkept =>
    have hsame := (h.fills.keeps i r hkept).2
    obtain ⟨hold, heq⟩ := h.frees.keeps i r hkept
    exact .inr ⟨hold, hsame.trans heq, hsame ▸ h.left i r hkept⟩

private theorem Arranges.quanta {u : Sim} {lu : QName → List Ptr} (h : Arranges cfg s s' l l' u lu filled)
    (hq : QuantaIn 0 (rrSlice cfg) s) : QuantaIn 1 (rrSlice cfg) s' := by
  intro i r hr
  have hpos := rrSlice_pos cfg
  cases h.cases hr with
  | inl hfilled => omega
  | inr hkept =>
    have := hq i r hkept.1
    omega

theorem loopHead_quanta (hrr : cfg.algo = .rr) (h : loopHead cfg jobs n = some s) :
    ∃ l place, Placed s l place ∧ Accounted jobs (.during n 0) s place ∧
      s.core.length = cfg.ncores ∧ QuantaIn 0 (rrSlice cfg) s := by
  induction n generalizing s with
  | zero =>
    obtain ⟨s', l, place, hrun, hp, ha, hcores, _, hplace⟩ := loopHead_zero cfg jobs
    cases hrun.symm.trans h
    refine ⟨l, place, hp, ha, hcores, fun i r hr => ?_⟩
    have hon := hp.core_eq hr
    cases hplace r (hp.core_lt hr) with
    | inl hwork =>
      rw [hwork] at hon
      cases hon
    | inr hready =>
      rw [hready] at hon
      cases hon
  | succ n ih =>
    obtain ⟨s₀, hhead, htick⟩ := Option.bind_eq_some_iff.mp h
    obtain ⟨s₁, hrun, hlast⟩ := Option.bind_eq_some_iff.mp htick
    obtain ⟨l, place, hp, ha, hcores, hquanta⟩ := ih hhead
    obtain ⟨s₂, l₂, place₂, u, lu, filled, hrun₂, h₂, ha₂, _, harr⟩ := arrange_rr hrr hp ha
    obtain ⟨s₃, l₃, place₃, hrun₃, h₃, ha₃, hticks⟩ := serve_rr cfg h₂ ha₂
    rw [tick, ← List.take_append_drop 4 (phases cfg), runCalls_append, hrun₂, Option.bind_some,
      hrun₃] at hrun
    cases hrun
    split at hlast
    · cases hlast
    · cases hlast
      refine ⟨l₃, place₃, h₃, ?_, ?_, hticks.quanta (harr.quanta hquanta)⟩
      · exact_mod_cast ha₃
      · rw [hticks.cores, harr.fills.cores, harr.frees.cores, hcores]

/-- The state after the dispatcher in the round `n`. -/
def afterDispatch (cfg : Config) (jobs : List Job) (n : Nat) : Option Sim :=
  (loopHead cfg jobs n).bind (runCalls ((phases cfg).take 4))

/-- The thread is at the position `p` of the ready queue. -/
def AtPosition (t : Ptr) (p : Nat) (s : Sim) : Prop :=
  ∃ ps, Chain s.next (s.queue .ready).front ps ∧ ps[p]? = some t

/-- A state after the dispatcher, with what is known of it. -/
structure Paused (cfg : Config) (jobs : List Job) where
  round : Nat
  sim : Sim
  list : QName → List Ptr
  place : Ptr → Place
  run : afterDispatch cfg jobs round = some sim
  placed : Placed sim list place
  accounted : Accounted jobs (.during round 4) sim place
  cores : sim.core.length = cfg.ncores
  working : WorkConserving sim list
  quanta : QuantaIn 1 (rrSlice cfg) sim

namespace Paused

variable {a : Paused cfg jobs}

/-- The ready queue and the cores with the rests of their slices. -/
def slots (a : Paused cfg jobs) : Slots Ptr where
  ready := a.list .ready
  slot i := a.sim.core[i]?.join.map fun r => (r, (a.sim.thread r).quantaRem)

private theorem slot_iff {m : Int} : a.slots.slot i = some (r, m) ↔
    a.sim.core[i]? = some (some r) ∧ (a.sim.thread r).quantaRem = m := by
  show (a.sim.core[i]?.join.map fun r => (r, (a.sim.thread r).quantaRem)) = some (r, m) ↔ _
  rw [Option.map_eq_some_iff]
  constructor
  · intro h
    obtain ⟨r', hr', heq⟩ := h
    cases heq
    exact ⟨Option.join_eq_some_iff.mp hr', rfl⟩
  · intro h
    exact ⟨r, Option.join_eq_some_iff.mpr h.1, by rw [h.2]⟩

private theorem sliced (a : Paused cfg jobs) : Sliced cfg.ncores (rrSlice cfg) a.slots := by
  constructor
  · intro i r m h
    obtain ⟨hr, hm⟩ := slot_iff.mp h
    rw [← hm]
    exact a.quanta i r hr
  · intro hne i hi
    have hbusy := a.working.resolve_left hne
    rw [← a.cores] at hi
    cases hcore : a.sim.core[i] with
    | none => exact absurd (hcore ▸ List.getElem_mem hi) hbusy
    | some r =>
      have hr : a.sim.core[i]? = some (some r) := by rw [List.getElem?_eq_getElem hi, hcore]
      exact Option.isSome_iff_exists.mpr ⟨_, slot_iff.mpr ⟨hr, rfl⟩⟩

theorem goes (hrr : cfg.algo = .rr) (a : Paused cfg jobs) (hne : a.slots.ready ≠ []) :
    ∃ (b : Paused cfg jobs) (filled : Finset Nat) (new : List Ptr), b.round = a.round + 1 ∧
      SliceRound (rrSlice cfg) a.slots b.slots filled new := by
  obtain ⟨s₀, hhead, hrun⟩ := Option.bind_eq_some_iff.mp a.run
  obtain ⟨h, l, place, hserve, hp, ha, hticks⟩ := serve_rr cfg a.placed a.accounted
  have htick : tick cfg s₀ = some h := by
    rw [tick, ← List.take_append_drop 4 (phases cfg), runCalls_append, hrun]
    exact hserve
  have hmore : ¬ allDone h = true := by
    intro hdone
    rw [allDone, Bool.and_eq_true, Bool.and_eq_true, hp.empty_iff, hticks.ready] at hdone
    exact hne hdone.1.1
  have hnext : loopHead cfg jobs (a.round + 1) = some h := by
    rw [loopHead, hhead]
    show (tick cfg s₀).bind _ = _
    rw [htick]
    exact if_neg hmore
  obtain ⟨s', l', place', u, lu, filled, harrange, hp', ha', hwork, harr⟩ := arrange_rr hrr hp ha
  obtain ⟨new, hnew⟩ := harr.frees.ready
  rw [hticks.ready] at hnew
  refine ⟨⟨a.round + 1, s', l', place', ?_, hp', by exact_mod_cast ha', ?_, hwork,
    harr.quanta (hticks.quanta a.quanta)⟩, filled, new, rfl, ?_, fun t ht => ?_, fun i r m hr => ?_⟩
  · rw [afterDispatch, hnext]
    exact harrange
  · rw [harr.fills.cores, harr.frees.cores, hticks.cores, a.cores]
  · show l' .ready = (a.list .ready ++ new).drop filled.card
    rw [hnew]
    exact harr.fills.ready
  · replace ht : t ∈ (a.list .ready ++ new).take filled.card := ht
    rw [hnew] at ht
    obtain ⟨i, hi⟩ := harr.fills.served t ht
    exact ⟨i, _, slot_iff.mpr ⟨hi, rfl⟩⟩
  · obtain ⟨hr, hm⟩ := slot_iff.mp hr
    change (s'.thread r).quantaRem = m at hm
    cases harr.cases hr with
    | inl hfilled => exact .inl ⟨hfilled.1, hm ▸ hfilled.2⟩
    | inr hkept =>
      obtain ⟨hold, heq⟩ := hticks.keeps i r hkept.1
      have hpos := (a.quanta i r hold).1
      have hdown : (runTick (a.sim.thread r)).quantaRem = (a.sim.thread r).quantaRem - 1 :=
        if_pos (by omega)
      have hsame := hkept.2.1
      exact .inr (slot_iff.mpr ⟨hold, by omega⟩)

end Paused

/-- Under round robin the thread at the position `p` of the ready queue after a dispatch is bound to a
core within as many quanta as it takes to serve `p + 1` threads on all cores. -/
theorem rr_bounded_wait {p : Nat} (hrr : cfg.algo = .rr) (hcores : 1 ≤ cfg.ncores)
    (h : afterDispatch cfg jobs n = some s) (ht : AtPosition t p s) :
    ∃ k s', 0 < k ∧ k ≤ rrSlice cfg * ((p + 1) ⌈/⌉ cfg.ncores) ∧
      afterDispatch cfg jobs (n + k) = some s' ∧ some t ∈ s'.core := by
  obtain ⟨s₀, hhead, hrun⟩ := Option.bind_eq_some_iff.mp h
  obtain ⟨l₀, place₀, hp₀, ha₀, hlen, hquanta⟩ := loopHead_quanta hrr hhead
  obtain ⟨s₁, l, place, u, lu, filled, hrun₁, hp, ha, hwork, harr⟩ := arrange_rr hrr hp₀ ha₀
  cases hrun₁.symm.trans hrun
  obtain ⟨ps, hchain, hget⟩ := ht
  have hlist : l .ready = ps := (hp.chain .ready).unique hchain
  have hstart : (Paused.slots ⟨n, s, l, place, h, hp, ha,
      by rw [harr.fills.cores, harr.frees.cores, hlen], hwork, harr.quanta hquanta⟩).ready[p]? = some t := by
    show (l .ready)[p]? = some t
    rw [hlist, hget]
  obtain ⟨b, hlt, hle, i, m, hslot⟩ := bounded_wait Paused.slots Paused.round Paused.sliced
    (Paused.goes hrr) hcores _ hstart
  change n < b.round at hlt
  change b.round ≤ n + _ at hle
  refine ⟨b.round - n, b.sim, by omega, by omega, ?_, ?_⟩
  · rw [Nat.add_sub_of_le (Nat.le_of_lt hlt)]
    exact b.run
  · exact List.mem_of_getElem? (Paused.slot_iff.mp hslot).1

theorem rr_bounded_wait_pair : ∃ k s', 0 < k ∧
    k ≤ rrSlice ⟨.rr, 2, 1, false, fun _ => 0⟩ * ((0 + 1) ⌈/⌉ 1) ∧
      afterDispatch ⟨.rr, 2, 1, false, fun _ => 0⟩ [shortJob 0, shortJob 0] (0 + k) = some s' ∧
        some 1 ∈ s'.core := by
  obtain ⟨s, hs, hfront, hnext⟩ : ∃ s,
      afterDispatch ⟨.rr, 2, 1, false, fun _ => 0⟩ [shortJob 0, shortJob 0] 0 = some s ∧
        (s.queue .ready).front = some 1 ∧ s.next 1 = none :=
    ⟨_, rfl, by decide, by decide⟩
  exact rr_bounded_wait rfl (by decide) hs ⟨[1], ⟨hfront, hnext⟩, rfl⟩

end CseOs.TickSim
