import Mathlib.Data.List.TakeWhile

/-!
# `strtok_r`

The tokenizer writes the ends of the words into its buffer. The next call goes on behind the last end it
has written.
-/

namespace CseOs.Libc

/-- The maximal runs of characters that do not separate. -/
def words (sep : Char → Bool) (text : List Char) : List (List Char) :=
  (text.splitOnP sep).filter fun w => !w.isEmpty

variable {sep : Char → Bool} {text a b w : List Char} {c : Char}

private theorem words_nil : words sep [] = [] := by
  rw [words, List.splitOnP_nil]
  rfl

private theorem words_append_cons (hc : sep c = true) : words sep (a ++ c :: b) = words sep a ++ words sep b := by
  rw [words, List.splitOnP_append_cons a b hc, List.filter_append]
  rfl

private theorem words_blank (h : ∀ x ∈ a, sep x = true) : words sep (a ++ b) = words sep b := by
  induction a with
  | nil => rfl
  | cons x a ih =>
    have hx := words_append_cons (a := []) (b := a ++ b) (h x List.mem_cons_self)
    rw [words_nil, List.nil_append, List.nil_append] at hx
    rw [List.cons_append, hx, ih fun y hy => h y (List.mem_cons_of_mem x hy)]

private theorem words_word (hw : w ≠ []) (h : ∀ x ∈ w, sep x = false) : words sep w = [w] := by
  rw [words, List.splitOnP_eq_singleton h]
  cases w with
  | nil => exact absurd rfl hw
  | cons x w => rfl

theorem words_eq (sep : Char → Bool) (text : List Char) (ht : text.dropWhile sep ≠ []) :
    words sep text = (text.dropWhile sep).takeWhile (fun c => !sep c) ::
      words sep (((text.dropWhile sep).dropWhile fun c => !sep c).drop 1) := by
  have hblank : words sep text = words sep (text.dropWhile sep) := by
    have hskip : ∀ x ∈ text.takeWhile sep, sep x = true := fun x hx => List.mem_takeWhile_imp hx
    have happend := words_blank (b := text.dropWhile sep) hskip
    rwa [List.takeWhile_append_dropWhile] at happend
  obtain ⟨u, hu⟩ : ∃ u, u = text.dropWhile sep := ⟨_, rfl⟩
  rw [hblank, ← hu]
  have hword : u.takeWhile (fun c => !sep c) ≠ [] := by
    cases u with
    | nil => exact absurd hu.symm ht
    | cons x u =>
      have hx : sep x = false := by
        have hhead := List.head?_dropWhile_not sep text
        rw [← hu] at hhead
        simpa using hhead
      rw [List.takeWhile_cons_of_pos (by simpa using hx)]
      exact List.cons_ne_nil _ _
  have hno : ∀ x ∈ u.takeWhile (fun c => !sep c), sep x = false := fun x hx => by
    simpa using List.mem_takeWhile_imp hx
  have happend := List.takeWhile_append_dropWhile (p := fun c => !sep c) (l := u)
  cases hrest : u.dropWhile fun c => !sep c with
  | nil =>
    rw [hrest, List.append_nil] at happend
    rw [List.drop_nil, words_nil, happend]
    rw [happend] at hword hno
    exact words_word hword hno
  | cons x rest =>
    have hx : sep x = true := by
      have hhead := List.head?_dropWhile_not (fun c => !sep c) u
      rw [hrest] at hhead
      simpa using hhead
    rw [hrest] at happend
    have hsplit := words_append_cons (a := u.takeWhile fun c => !sep c) (b := rest) hx
    rw [words_word hword hno, happend] at hsplit
    exact hsplit

private theorem words_eq_nil (ht : text.dropWhile sep = []) : words sep text = [] := by
  have hblank := words_blank (b := []) (List.dropWhile_eq_nil_iff.mp ht)
  rwa [List.append_nil, words_nil] at hblank

def NUL : Char := Char.ofNat 0

/-- The string at `p`. -/
def str (buf : List Char) (p : Nat) : List Char := (buf.drop p).takeWhile (· ≠ NUL)

/-- `strchr(seps, c)` for a `c` that is not `NUL`. -/
def strchr (seps : List Char) (c : Char) : Bool := seps.contains c

/-- `while (*p && test(*p)) p++;` -/
def scan (test : Char → Bool) (buf : List Char) (p : Nat) : Nat :=
  p + ((str buf p).takeWhile test).length

/-- The buffer and the variable behind the argument `context`. -/
structure Tokens where
  buf : List Char
  context : Option Nat
  deriving DecidableEq, Repr

def strtok_r (string : Option Nat) (seps : List Char) (s : Tokens) : Option Nat × Tokens :=
  match string <|> s.context with
  | none => (none, { s with context := none })
  | some p =>
    let head := scan (strchr seps) s.buf p
    if s.buf.getD head NUL = NUL then (none, { s with context := none })
    else
      let tail := scan (fun c => !strchr seps c) s.buf head
      if s.buf.getD tail NUL = NUL then (some head, { s with context := none })
      else (some head, { buf := s.buf.set tail NUL, context := some (tail + 1) })

variable {buf : List Char} {p q n t : Nat} {s : Tokens} {seps : List Char}

private theorem str_add (hn : n ≤ (str buf p).length) : str buf (p + n) = (str buf p).drop n := by
  rw [str, ← List.drop_drop]
  rw [str] at hn ⊢
  generalize buf.drop p = l at hn ⊢
  induction n generalizing l with
  | zero => rfl
  | succ n ih =>
    cases l with
    | nil => simp
    | cons x l =>
      by_cases hx : x ≠ NUL
      · rw [List.takeWhile_cons_of_pos (by simpa using hx)] at hn ⊢
        rw [List.drop_succ_cons, List.drop_succ_cons]
        exact ih l (by simpa using hn)
      · rw [List.takeWhile_cons_of_neg (by simpa using hx)] at hn
        simp at hn

private theorem str_scan (test : Char → Bool) (buf : List Char) (p : Nat) :
    str buf (scan test buf p) = (str buf p).dropWhile test := by
  have hlen : ((str buf p).takeWhile test).length ≤ (str buf p).length :=
    (List.takeWhile_sublist test).length_le
  rw [scan, str_add hlen]
  have hleft : ((str buf p).takeWhile test ++ (str buf p).dropWhile test).drop
      ((str buf p).takeWhile test).length = (str buf p).dropWhile test := List.drop_left
  rwa [List.takeWhile_append_dropWhile] at hleft

private theorem getD_eq_nul : buf.getD p NUL = NUL ↔ str buf p = [] := by
  rw [str, List.getD_eq_getElem?_getD, ← List.head?_drop]
  cases buf.drop p with
  | nil => simp
  | cons x l => simp [List.takeWhile_cons]

theorem str_set (hp : p ≤ t) : str (buf.set t NUL) p = (str buf p).take (t - p) := by
  rw [str, str, List.drop_set, if_neg (by omega)]
  generalize buf.drop p = l
  generalize t - p = n
  induction l generalizing n with
  | nil => simp
  | cons x l ih =>
    cases n with
    | zero => simp
    | succ n =>
      rw [List.set_cons_succ]
      by_cases hx : x ≠ NUL
      · rw [List.takeWhile_cons_of_pos (by simpa using hx), List.takeWhile_cons_of_pos (by simpa using hx), ih,
          List.take_succ_cons]
      · rw [List.takeWhile_cons_of_neg (by simpa using hx), List.takeWhile_cons_of_neg (by simpa using hx),
          List.take_nil]

private theorem str_set_behind (hp : t < p) : str (buf.set t NUL) p = str buf p := by
  rw [str, str, List.drop_set_of_lt hp]

/-- The text that the next call looks at. -/
def rest (s : Tokens) : List Char :=
  match s.context with
  | none => []
  | some p => str s.buf p

/-- The string at `q` ends in front of the context. -/
def Before (s : Tokens) (q : Nat) : Prop := ∀ c, s.context = some c → q + (str s.buf q).length < c

/-- A call returns the first word of the text and leaves the others, and the strings in front of it. -/
inductive Token (seps : List Char) (s : Tokens) : Prop
  | none (last : words (strchr seps) (rest s) = [])
      (result : strtok_r none seps s = (none, { s with context := none }))
  | word (head : Nat) (s' : Tokens) (result : strtok_r none seps s = (some head, s'))
      (text : words (strchr seps) (rest s) = str s'.buf head :: words (strchr seps) (rest s'))
      (past : Before s' head) (frame : ∀ q, Before s q → str s'.buf q = str s.buf q ∧ Before s' q)

theorem strtok_r_token (seps : List Char) (s : Tokens) : Token seps s := by
  cases hctx : s.context with
  | none =>
    apply Token.none
    · rw [rest, hctx]
      exact words_nil
    · rw [strtok_r, hctx]
      rfl
  | some p =>
    have hrest : rest s = str s.buf p := by rw [rest, hctx]
    have hhead := str_scan (strchr seps) s.buf p
    by_cases hend : str s.buf (scan (strchr seps) s.buf p) = []
    · apply Token.none
      · rw [hrest]
        exact words_eq_nil (hhead ▸ hend)
      · simp only [strtok_r, hctx, Option.orElse_eq_orElse, Option.orElse_none, if_pos (getD_eq_nul.mpr hend)]
    · obtain ⟨head, hdef⟩ : ∃ head, head = scan (strchr seps) s.buf p := ⟨_, rfl⟩
      rw [← hdef] at hhead hend
      have hle : p ≤ head := hdef ▸ Nat.le_add_right ..
      have hwords := words_eq (strchr seps) (str s.buf p) (hhead ▸ hend)
      rw [← hhead] at hwords
      have htail := str_scan (fun c => !strchr seps c) s.buf head
      obtain ⟨tail, htdef⟩ : ∃ tail, tail = scan (fun c => !strchr seps c) s.buf head := ⟨_, rfl⟩
      rw [← htdef] at htail
      have hword : (str s.buf head).take (tail - head) = (str s.buf head).takeWhile fun c => !strchr seps c := by
        rw [htdef, scan, Nat.add_sub_cancel_left]
        exact (List.prefix_iff_eq_take.mp (List.takeWhile_prefix _)).symm
      by_cases hlast : str s.buf tail = []
      · have hall : (str s.buf head).takeWhile (fun c => !strchr seps c) = str s.buf head := by
          have happend := List.takeWhile_append_dropWhile (p := fun c => !strchr seps c) (l := str s.buf head)
          rwa [← htail, hlast, List.append_nil] at happend
        apply Token.word head { s with context := none }
        · simp only [strtok_r, hctx, Option.orElse_eq_orElse, Option.orElse_none, ← hdef, ← htdef,
            if_neg (mt getD_eq_nul.mp hend), if_pos (getD_eq_nul.mpr hlast)]
        · rw [hrest, hwords, hall, ← htail, hlast]
          rfl
        · intro c hc
          cases hc
        · intro q _
          refine ⟨rfl, fun c hc => ?_⟩
          cases hc
      · have hth : head ≤ tail := htdef ▸ Nat.le_add_right ..
        have hhw : str (s.buf.set tail NUL) head = (str s.buf head).takeWhile fun c => !strchr seps c := by
          rw [str_set hth, hword]
        apply Token.word head { buf := s.buf.set tail NUL, context := some (tail + 1) }
        · simp only [strtok_r, hctx, Option.orElse_eq_orElse, Option.orElse_none, ← hdef, ← htdef,
            if_neg (mt getD_eq_nul.mp hend), if_neg (mt getD_eq_nul.mp hlast)]
        · show _ = str (s.buf.set tail NUL) head :: words (strchr seps) (str (s.buf.set tail NUL) (tail + 1))
          have hpos := List.length_pos_iff.mpr hlast
          rw [hrest, hwords, hhw, str_set_behind (Nat.lt_succ_self tail), str_add hpos, htail]
        · intro c hc
          cases hc
          show head + (str (s.buf.set tail NUL) head).length < tail + 1
          rw [hhw, htdef, scan]
          omega
        · intro q hq
          have hlt := hq p hctx
          have hsame : str (s.buf.set tail NUL) q = str s.buf q := by
            rw [str_set (by omega), List.take_of_length_le (by omega)]
          refine ⟨hsame, fun c hc => ?_⟩
          cases hc
          show q + (str (s.buf.set tail NUL) q).length < tail + 1
          rw [hsame]
          omega

end CseOs.Libc
