import CseOs.Framework.WhileLoop
import CseOs.Libc.StrtokR

/-!
# The command line of the menu

`cmd_dispatch` splits the line into words. Whether an ampersand is the last word it finds out with the
tokenizer of the loop, and the word that it looks at does not come back.
-/

namespace CseOs.Kernel.Menu

open Framework Libc

def MAXMENUARGS : Nat := 16

/-- Blanks and tabs. -/
def seps : List Char := [' ', '\t']

def ampersand : List Char := ['&']

/-- How the loop is left before its last word. -/
inductive Exit where
  | break
  | E2BIG
  deriving DecidableEq, Repr

/-- The local variables of `cmd_dispatch` in its first loop. -/
structure Dispatch where
  cmd : Tokens
  word : Option Nat
  args : List Nat
  background : Bool
  exit : Option Exit
  deriving DecidableEq, Repr

/-- The loop goes on. -/
def Dispatch.test (s : Dispatch) : Bool := s.word.isSome && s.exit.isNone

/-- `args[nargs++] = word;` and the next word. -/
def Dispatch.push (s : Dispatch) (word : Nat) : Dispatch :=
  { s with
    word := (strtok_r none seps s.cmd).1
    cmd := (strtok_r none seps s.cmd).2
    args := s.args ++ [word] }

/-- The body of the loop. -/
def Dispatch.body (s : Dispatch) : Option Dispatch :=
  s.word.map fun word =>
    if MAXMENUARGS ≤ s.args.length then { s with exit := some .E2BIG }
    else if str s.cmd.buf word = ampersand then
      match strtok_r none seps s.cmd with
      | (none, cmd) => { s with cmd := cmd, background := true, exit := some .break }
      | (some _, cmd) => { s with cmd := cmd }.push word
    else s.push word

def Dispatch.start (cmd : List Char) : Dispatch where
  word := (strtok_r (some 0) seps ⟨cmd, none⟩).1
  cmd := (strtok_r (some 0) seps ⟨cmd, none⟩).2
  args := []
  background := false
  exit := none

/-- `args` as the commands read it. -/
def Dispatch.strings (s : Dispatch) : List (List Char) := s.args.map (str s.cmd.buf)

/-- All words, but for a last ampersand, which asks for the background. -/
def arguments (ws : List (List Char)) : List (List Char) × Bool :=
  if ws.getLast? = some ampersand then (ws.dropLast, true) else (ws, false)

/-- `cmd_dispatch` splits the line into its arguments. -/
def SplitsInto (cmd : List Char) (args : List (List Char)) (background : Bool) : Prop :=
  ∃ s, Returns Dispatch.test Dispatch.body (.start cmd) s ∧ s.exit ≠ some .E2BIG ∧ s.strings = args ∧
    s.background = background

/-- What the loop makes of the words: the word behind an ampersand is lost. -/
def kept : List (List Char) → List (List Char) × Bool
  | [] => ([], false)
  | [w] => if w = ampersand then ([], true) else ([w], false)
  | w :: w' :: ws =>
    if w = ampersand then (w :: (kept ws).1, (kept ws).2) else (w :: (kept (w' :: ws)).1, (kept (w' :: ws)).2)

variable {cmd : List Char} {s s' : Dispatch} {w : List Char} {ws : List (List Char)} {p : Nat}

private theorem kept_cons (hw : w ≠ ampersand) : kept (w :: ws) = (w :: (kept ws).1, (kept ws).2) := by
  cases ws with
  | nil => exact if_neg hw
  | cons w' ws => rw [kept, if_neg hw]

/-- The words from the current one on. -/
def Dispatch.pending (s : Dispatch) : List (List Char) :=
  match s.exit, s.word with
  | none, some p => str s.cmd.buf p :: words (strchr seps) (rest s.cmd)
  | _, _ => []

/-- With the words still to come, the loop makes `args` and `background` of the line. -/
structure Splitting (ws : List (List Char)) (s : Dispatch) : Prop where
  args : (kept ws).1 = s.strings ++ (kept s.pending).1
  background : (kept ws).2 = (s.background || (kept s.pending).2)
  room : s.args.length + s.pending.length ≤ MAXMENUARGS
  before : ∀ q ∈ s.args, Before s.cmd q
  word : ∀ q, s.word = some q → Before s.cmd q
  exit : s.exit ≠ some .E2BIG

theorem next_spec (c : Tokens) (s : Dispatch) (hexit : s.exit = none) :
    ({ s with word := (strtok_r none seps c).1, cmd := (strtok_r none seps c).2 } : Dispatch).pending =
        words (strchr seps) (rest c) ∧
      (∀ q, (strtok_r none seps c).1 = some q → Before (strtok_r none seps c).2 q) ∧
      ∀ q, Before c q → str (strtok_r none seps c).2.buf q = str c.buf q ∧ Before (strtok_r none seps c).2 q := by
  cases strtok_r_token seps c with
  | none hover hresult =>
    rw [hresult, hover, Dispatch.pending, hexit]
    refine ⟨rfl, fun q hq => ?_, fun q _ => ⟨rfl, fun c hc => ?_⟩⟩
    · cases hq
    · cases hc
  | word head c' hresult htext hpast hframe =>
    rw [hresult, htext, Dispatch.pending, hexit]
    refine ⟨rfl, fun q hq => ?_, hframe⟩
    cases hq
    exact hpast

theorem next_none {c c' : Tokens} (h : strtok_r none seps c = (none, c')) :
    words (strchr seps) (rest c) = [] ∧ c' = { c with context := none } := by
  cases strtok_r_token seps c with
  | none hover hresult =>
    cases hresult.symm.trans h
    exact ⟨hover, rfl⟩
  | word head c'' hresult _ _ _ => cases hresult.symm.trans h

private theorem next_some {c c' : Tokens} (h : strtok_r none seps c = (some p, c')) :
    (∃ w, words (strchr seps) (rest c) = w :: words (strchr seps) (rest c')) ∧
      ∀ q, Before c q → str c'.buf q = str c.buf q ∧ Before c' q := by
  cases strtok_r_token seps c with
  | none _ hresult => cases hresult.symm.trans h
  | word head c'' hresult htext _ hframe =>
    cases hresult.symm.trans h
    exact ⟨⟨_, htext⟩, hframe⟩

private theorem strings_congr {s' : Dispatch} (hargs : s'.args = s.args) (hbefore : ∀ q ∈ s.args, Before s.cmd q)
    (hframe : ∀ q, Before s.cmd q → str s'.cmd.buf q = str s.cmd.buf q) : s'.strings = s.strings := by
  rw [Dispatch.strings, Dispatch.strings, hargs]
  exact List.map_congr_left fun q hq => hframe q (hbefore q hq)

theorem push_spec (hexit : s.exit = none) (hbefore : ∀ q ∈ s.args, Before s.cmd q) (hp : Before s.cmd p) :
    (s.push p).strings = s.strings ++ [str s.cmd.buf p] ∧
      (s.push p).pending = words (strchr seps) (rest s.cmd) ∧
      (∀ q ∈ (s.push p).args, Before (s.push p).cmd q) ∧
      ∀ q, (s.push p).word = some q → Before (s.push p).cmd q := by
  obtain ⟨hpending, hword, hframe⟩ := next_spec s.cmd s hexit
  have hargs : ∀ q ∈ s.args ++ [p], Before s.cmd q := by
    intro q hq
    cases List.mem_append.mp hq with
    | inl hold => exact hbefore q hold
    | inr hnew => exact List.mem_singleton.mp hnew ▸ hp
  refine ⟨?_, hpending, fun q hq => (hframe q (hargs q hq)).2, hword⟩
  show (s.args ++ [p]).map (str (strtok_r none seps s.cmd).2.buf) = s.args.map (str s.cmd.buf) ++ [str s.cmd.buf p]
  rw [List.map_congr_left fun q hq => (hframe q (hargs q hq)).1, List.map_append]
  rfl

private theorem splitting_push (hexit : s.exit = none) (hbefore : ∀ q ∈ s.args, Before s.cmd q)
    (hp : Before s.cmd p)
    (hargs : (kept ws).1 = s.strings ++ str s.cmd.buf p :: (kept (words (strchr seps) (rest s.cmd))).1)
    (hback : (kept ws).2 = (s.background || (kept (words (strchr seps) (rest s.cmd))).2))
    (hroom : s.args.length + (words (strchr seps) (rest s.cmd)).length + 1 ≤ MAXMENUARGS) :
    Splitting ws (s.push p) := by
  obtain ⟨hstrings, hpending, hbefore', hword⟩ := push_spec hexit hbefore hp
  refine ⟨?_, ?_, ?_, hbefore', hword, ?_⟩
  · rw [hstrings, hpending, List.append_assoc, List.singleton_append, hargs]
  · rw [hpending]
    exact hback
  · show (s.args ++ [p]).length + _ ≤ _
    rw [hpending, List.length_append, List.length_singleton]
    omega
  · show s.exit ≠ some .E2BIG
    rw [hexit]
    exact Option.some_ne_none _ |>.symm

theorem Splitting.turn (h : Splitting ws s) (htest : s.test = true) :
    ∃ s', s.body = some s' ∧ Splitting ws s' ∧ s'.pending.length < s.pending.length := by
  obtain ⟨hsome, hnone⟩ := Bool.and_eq_true_iff.mp htest
  have hexit := Option.isNone_iff_eq_none.mp hnone
  obtain ⟨p, hp⟩ := Option.isSome_iff_exists.mp hsome
  have hbefore := h.word p hp
  have hpending : s.pending = str s.cmd.buf p :: words (strchr seps) (rest s.cmd) := by
    rw [Dispatch.pending, hexit, hp]
  have hroom := h.room
  have hargs := h.args
  have hback := h.background
  rw [hpending, List.length_cons] at hroom
  rw [hpending] at hargs hback
  rw [Dispatch.body, hp, Option.map_some, if_neg (by omega), hpending]
  by_cases hamp : str s.cmd.buf p = ampersand
  · rw [if_pos hamp]
    cases hlook : strtok_r none seps s.cmd with
    | mk next c =>
      cases next with
      | none =>
        obtain ⟨hover, hc⟩ := next_none hlook
        rw [hover, hamp] at hargs hback
        refine ⟨_, rfl, ⟨?_, ?_, ?_, ?_, ?_, ?_⟩, Nat.succ_pos _⟩
        · rw [hargs, Dispatch.strings, Dispatch.strings, hc]
          rfl
        · rw [hback]
          exact Bool.or_true _
        · exact (Nat.le_add_right _ _).trans hroom
        · intro q _ a ha
          rw [hc] at ha
          cases ha
        · intro q _ a ha
          rw [hc] at ha
          cases ha
        · exact fun heq => by cases heq
      | some q =>
        obtain ⟨⟨w, hw⟩, hframe⟩ := next_some hlook
        rw [hw, List.length_cons] at hroom
        rw [hw, hamp, kept, if_pos rfl] at hargs hback
        have hsame : ({ s with cmd := c } : Dispatch).strings = s.strings :=
          strings_congr rfl h.before fun q hq => (hframe q hq).1
        have hfirst : str c.buf p = ampersand := by rw [(hframe p hbefore).1, hamp]
        have hold : ∀ q ∈ ({ s with cmd := c } : Dispatch).args, Before c q := fun q hq =>
          (hframe q (h.before q hq)).2
        have hnext : Splitting ws (({ s with cmd := c } : Dispatch).push p) := by
          apply splitting_push (s := { s with cmd := c }) hexit hold (hframe p hbefore).2
          · rw [hsame, hargs, hfirst]
          · exact hback
          · show s.args.length + (words (strchr seps) (rest c)).length + 1 ≤ _
            omega
        refine ⟨_, rfl, hnext, ?_⟩
        obtain ⟨_, hrest, _⟩ := push_spec (s := { s with cmd := c }) hexit hold (hframe p hbefore).2
        show (({ s with cmd := c } : Dispatch).push p).pending.length < _
        rw [hrest, hw, List.length_cons, List.length_cons]
        exact Nat.lt_succ_of_lt (Nat.lt_succ_self _)
  · rw [if_neg hamp]
    rw [kept_cons hamp] at hargs hback
    refine ⟨_, rfl, splitting_push hexit h.before hbefore hargs hback (by omega), ?_⟩
    obtain ⟨_, hrest, _⟩ := push_spec hexit h.before hbefore
    rw [hrest, List.length_cons]
    omega

private theorem splitting_start (hroom : (words (strchr seps) cmd).length ≤ MAXMENUARGS) (hnul : NUL ∉ cmd) :
    Splitting (words (strchr seps) cmd) (.start cmd) := by
  have hcmd : str cmd 0 = cmd := by
    rw [str, List.drop_zero, List.takeWhile_eq_self_iff]
    intro c hc
    exact decide_eq_true fun heq => hnul (heq ▸ hc)
  obtain ⟨hpending, hword, _⟩ := next_spec ⟨cmd, some 0⟩ (.start cmd) rfl
  have hall : (Dispatch.start cmd).pending = words (strchr seps) cmd := by
    have hrest : rest ⟨cmd, some 0⟩ = cmd := hcmd
    rw [hrest] at hpending
    exact hpending
  refine ⟨?_, ?_, ?_, fun q hq => absurd hq List.not_mem_nil, hword, fun heq => by cases heq⟩
  · rw [hall]
    rfl
  · rw [hall]
    rfl
  · rw [hall]
    exact (Nat.zero_add _).trans_le hroom

theorem cmd_dispatch_kept (hnul : NUL ∉ cmd) (hroom : (words (strchr seps) cmd).length ≤ MAXMENUARGS) :
    SplitsInto cmd (kept (words (strchr seps) cmd)).1 (kept (words (strchr seps) cmd)).2 := by
  obtain ⟨s, hreturns, hinv, hstop⟩ := returns_of_variant (fun s : Dispatch => s.pending.length)
    (fun s h htest => h.turn htest) (splitting_start hroom hnul)
  have hnone : s.pending = [] := by
    rw [Dispatch.pending]
    rw [Dispatch.test] at hstop
    cases hexit : s.exit with
    | some e => rfl
    | none =>
      cases hword : s.word with
      | none => rfl
      | some p =>
        rw [hexit, hword] at hstop
        cases hstop
  refine ⟨s, hreturns, hinv.exit, ?_, ?_⟩
  · rw [hinv.args, hnone, kept, List.append_nil]
  · rw [hinv.background, hnone, kept, Bool.or_false]

private theorem kept_length (ws : List (List Char)) :
    (kept ws).1.length + (if (kept ws).2 then 1 else 0) ≤ ws.length := by
  induction ws using kept.induct with
  | case1 => simp [kept]
  | case2 => simp [kept]
  | case3 w h => simp [kept, h]
  | case4 w' ws ih =>
    rw [kept, if_pos rfl]
    simp only [List.length_cons]
    omega
  | case5 w w' ws h ih =>
    rw [kept, if_neg h]
    simp only [List.length_cons] at ih ⊢
    omega

theorem kept_length_lt (h : ampersand ∈ ws.dropLast) :
    (kept ws).1.length + (if (kept ws).2 then 1 else 0) < ws.length := by
  induction ws using kept.induct with
  | case1 => cases h
  | case2 => cases h
  | case3 w _ => cases h
  | case4 w' ws _ =>
    have hle := kept_length ws
    rw [kept, if_pos rfl]
    simp only [List.length_cons]
    omega
  | case5 w w' ws hw ih =>
    rw [List.dropLast_cons_cons, List.mem_cons] at h
    have hlt := ih (h.resolve_left fun heq => hw heq.symm)
    rw [kept, if_neg hw]
    simp only [List.length_cons] at hlt ⊢
    omega

private theorem arguments_length (ws : List (List Char)) :
    (arguments ws).1.length + (if (arguments ws).2 then 1 else 0) = ws.length := by
  rw [arguments]
  split
  · next hlast =>
    cases ws with
    | nil => cases hlast
    | cons w ws => simp
  · simp

private theorem kept_eq (h : ampersand ∉ ws.dropLast) : kept ws = arguments ws := by
  induction ws with
  | nil => rfl
  | cons w ws ih =>
    cases ws with
    | nil =>
      by_cases hw : w = ampersand
      · subst hw
        rfl
      · rw [kept, if_neg hw, arguments, if_neg (by simpa using hw)]
    | cons w' ws =>
      rw [List.dropLast_cons_cons, List.mem_cons, not_or] at h
      rw [kept_cons (Ne.symm h.1), ih h.2, arguments, arguments, List.getLast?_cons_cons]
      split
      · rfl
      · rfl

private theorem kept_eq_iff : kept ws = arguments ws ↔ ampersand ∉ ws.dropLast := by
  constructor
  · intro heq h
    have hlt := kept_length_lt h
    rw [heq, arguments_length] at hlt
    omega
  · exact kept_eq

private theorem SplitsInto.unique {args args' : List (List Char)} {b b' : Bool} (h : SplitsInto cmd args b)
    (h' : SplitsInto cmd args' b') : args = args' ∧ b = b' := by
  obtain ⟨s, hs, _, hargs, hback⟩ := h
  obtain ⟨s', hs', _, hargs', hback'⟩ := h'
  cases hs.unique hs'
  exact ⟨hargs.symm.trans hargs', hback.symm.trans hback'⟩

/-- A line is split faithfully exactly if no word but the last one is an ampersand. -/
theorem cmd_dispatch_faithful_iff (hnul : NUL ∉ cmd)
    (hroom : (words (strchr seps) cmd).length ≤ MAXMENUARGS) :
    SplitsInto cmd (arguments (words (strchr seps) cmd)).1 (arguments (words (strchr seps) cmd)).2 ↔
      ampersand ∉ (words (strchr seps) cmd).dropLast := by
  have hkept := cmd_dispatch_kept hnul hroom
  rw [← kept_eq_iff]
  constructor
  · intro h
    obtain ⟨hargs, hback⟩ := hkept.unique h
    exact Prod.ext hargs hback
  · intro heq
    rwa [heq] at hkept

theorem cmd_dispatch_faithful_background :
    SplitsInto "cp a  b &".toList ["cp".toList, "a".toList, "b".toList] true ↔
      ampersand ∉ ["cp".toList, "a".toList, "b".toList] :=
  cmd_dispatch_faithful_iff (by decide) (by decide)

/-- The last word goes to the call that looks ahead. -/
theorem cmd_dispatch_loses :
    words (strchr seps) "a & b".toList = ["a".toList, ampersand, "b".toList] ∧
      ¬ SplitsInto "a & b".toList (arguments ["a".toList, ampersand, "b".toList]).1
        (arguments ["a".toList, ampersand, "b".toList]).2 := by
  refine ⟨by decide, fun h => ?_⟩
  obtain ⟨s, hreturns, _, hargs, _⟩ := h
  have hrun : Returns Dispatch.test Dispatch.body (.start "a & b".toList)
      ⟨⟨['a', NUL, '&', NUL, 'b'], none⟩, none, [0, 2], false, none⟩ := ⟨3, by decide⟩
  cases hreturns.unique hrun
  exact absurd hargs (by decide)

end CseOs.Kernel.Menu
