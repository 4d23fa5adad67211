import CseOs.Libc.Printf

/-!
# Integer fields

What `%d`, `%u`, `%o`, `%x` and `%p` print, with any modifiers, and how the text reads back.
-/

namespace CseOs.Libc.Printf

open Framework Numeral

variable {pf pf' : PF} {c ch : Char} {cs mods l pre text : List Char} {k n d base : Nat}
  {w : BitVec 32} {ap : List Arg}

private theorem pfPrint_nil : pfPrint pf [] = pf := by
  simp [pfPrint]

private theorem pfPrint_append (pf : PF) (a b : List Char) : pfPrint (pfPrint pf a) b = pfPrint pf (a ++ b) := by
  simp [pfPrint, BitVec.ofNat_add, BitVec.add_assoc]

private theorem pfFill_eq (pf : PF) (spc : Nat) :
    pfFill pf spc = pfPrint pf (List.replicate spc pf.fillchar) := by
  induction spc with
  | zero => exact pfPrint_nil.symm
  | succ spc ih => rw [pfFill, ih, pfPrint_append, List.replicate_succ']

/-- The text of a field, whose prefixes go in front of zeros and behind blanks. -/
def fieldText (pf : PF) (pre text : List Char) : List Char :=
  let spc := padding pf (pre.length + text.length)
  if pf.rightspc = true then pre ++ text ++ List.replicate spc pf.fillchar
  else if pf.fillchar = '0' then pre ++ List.replicate spc '0' ++ text
  else List.replicate spc pf.fillchar ++ pre ++ text

private theorem pfPrintstuff_eq (pf : PF) (pfx pfx2 stuff : List Char) :
    pfPrintstuff pf pfx pfx2 stuff = pfPrint pf (fieldText pf (pfx ++ pfx2) stuff) := by
  have hfill : ∀ txt, (pfPrint pf txt).fillchar = pf.fillchar := fun _ => rfl
  have hright : ∀ txt, (pfPrint pf txt).rightspc = pf.rightspc := fun _ => rfl
  rw [fieldText, pfPrintstuff, List.length_append]
  cases hr : pf.rightspc with
  | true => simp [pfFill_eq, pfPrint_append, hfill, hright, hr]
  | false =>
    by_cases hzero : pf.fillchar = '0'
    · simp [pfFill_eq, pfPrint_append, hfill, hright, hr, hzero]
    · simp [pfFill_eq, pfPrint_append, hfill, hright, hr, hzero]

private theorem le_length_fieldText (hw : pf.spacing = n) : n ≤ (fieldText pf pre text).length := by
  rw [fieldText]
  generalize hspc : padding pf (pre.length + text.length) = spc
  have hpad : n ≤ spc + (pre.length + text.length) := by
    rw [padding, hw] at hspc
    split at hspc <;> omega
  split
  · simp only [List.length_append, List.length_replicate]
    omega
  · split
    · simp only [List.length_append, List.length_replicate]
      omega
    · simp only [List.length_append, List.length_replicate]
      omega

theorem digitLoop_eq {slots : Nat} (hbase : 1 < base) (hslots : 0 < slots) (hn : n < base ^ slots) :
    digitLoop base slots n text = .ok (numeral digitChar base n ++ text) := by
  induction slots generalizing n text with
  | zero => omega
  | succ slots ih =>
    rw [digitLoop]
    by_cases hmore : n / base > 0
    · have hlt : n / base < base ^ slots := by
        rw [Nat.div_lt_iff_lt_mul (by omega), ← Nat.pow_succ]
        exact hn
      have hpos : 0 < slots := by
        rcases Nat.eq_zero_or_pos slots with h0 | h0
        · rw [h0, Nat.pow_zero] at hlt
          omega
        · exact h0
      rw [if_pos hmore, ih hpos hlt, numeral, numeral, digitsOf_div hbase hmore]
      simp
    · have hlt : n < base := by
        by_contra hge
        exact hmore (Nat.div_pos (by omega) (by omega))
      rw [if_neg hmore, numeral, digitsOf_of_lt hlt, Nat.mod_eq_of_lt hlt]
      rfl

def nextWidth (k : Nat) (c : Char) : Nat := if c.isDigit then k * 10 + digit c else k

/-- The number that the digits among the modifiers make behind the number `k`. -/
def widthFrom (k : Nat) (mods : List Char) : Nat := mods.foldl nextWidth k

/-- The field width that is asked for. -/
def width (mods : List Char) : Nat := widthFrom 0 mods

/-- The first digit is a zero. -/
def zeroFlag (mods : List Char) : Bool := (mods.filter Char.isDigit).head? == some '0'

private theorem le_widthFrom (k : Nat) (cs : List Char) : k ≤ widthFrom k cs := by
  induction cs generalizing k with
  | nil => exact Nat.le_refl k
  | cons c cs ih =>
    have hstep : k ≤ nextWidth k c := by
      rw [nextWidth]
      split <;> omega
    exact Nat.le_trans hstep (ih _)

/-- The state after modifiers that follow a width `k`. -/
def modified (k : Nat) (mods : List Char) (pf : PF) : PF :=
  { pf with
    spacing := widthFrom k mods
    altformat := pf.altformat || mods.contains '#'
    rightspc := pf.rightspc || mods.contains '-'
    fillchar := if k = 0 ∧ zeroFlag mods = true then '0' else pf.fillchar
    size := if mods.contains 'l' || mods.contains 'q' then .longsz else pf.size }

private theorem forall_mem_of_all {l : List Char} {P : Char → Prop} [DecidablePred P]
    (h : l.all (fun c => decide (P c)) = true) : ∀ c ∈ l, P c :=
  fun c hc => of_decide_eq_true (List.all_eq_true.mp h c hc)

private theorem modifiers_cases : ∀ c ∈ modifiers, c = '#' ∨ c = '-' ∨ c = 'l' ∨ c = 'q' ∨ c = '0' ∨
    ('0' < c ∧ c ≤ '9' ∧ 0 < digit c ∧ c.isDigit = true ∧ c ≠ '#' ∧ c ≠ '-' ∧ c ≠ 'l' ∧ c ≠ 'q' ∧
      c ≠ '0') :=
  forall_mem_of_all (by decide)

private theorem pfSend_modifier (hpct : pf.inPct = true) (hc : c ∈ modifiers) :
    pfSend pf c = pfModifier pf c := by
  have hnul : ∀ c ∈ modifiers, c ≠ '\x00' := forall_mem_of_all (by decide)
  rw [pfSend, check_bind (hnul c hc)]
  simp [hpct, hc]

/-- The state after one modifier. -/
def modify (k : Nat) (c : Char) (pf : PF) : PF :=
  { pf with
    spacing := nextWidth k c
    altformat := pf.altformat || c == '#'
    rightspc := pf.rightspc || c == '-'
    fillchar := if k = 0 ∧ c = '0' then '0' else pf.fillchar
    size := if c == 'l' || c == 'q' then .longsz else pf.size }

private theorem pfModifier_eq (hspc : pf.spacing = k) (hc : c ∈ modifiers)
    (hfits : nextWidth k c < 2147483648) : pfModifier pf c = .ok (modify k c pf) := by
  rcases modifiers_cases c hc with rfl | rfl | rfl | rfl | rfl | hdigit
  · simp [pfModifier, modify, nextWidth, hspc]
  · simp [pfModifier, modify, nextWidth, hspc]
  · simp [pfModifier, modify, nextWidth, hspc]
  · simp [pfModifier, modify, nextWidth, hspc]
  · have hten : k * 10 < 2147483648 := hfits
    have hint : int32 ((k : Int) * 10) = k * 10 := int32_of_small (by omega) (by omega)
    by_cases hzero : k = 0
    · simp [pfModifier, modify, nextWidth, hspc, hzero, digit]
    · have hpos : 0 < k := Nat.pos_of_ne_zero hzero
      simp [pfModifier, modify, nextWidth, hspc, hzero, hpos, hint, digit]
  · obtain ⟨hlo, hhi, _, hd, h₁, h₂, h₃, h₄, h₅⟩ := hdigit
    have hwidth : nextWidth k c = k * 10 + digit c := if_pos hd
    rw [hwidth] at hfits
    have hint : int32 ((k : Int) * 10) = k * 10 := int32_of_small (by omega) (by omega)
    have hint' : int32 ((k : Int) * 10 + digit c) = k * 10 + digit c :=
      int32_of_small (by omega) (by omega)
    rw [pfModifier, if_neg h₁, if_neg h₂, if_neg h₃, if_neg h₄, if_neg h₅, check_bind ⟨hlo, hhi⟩,
      hspc, hint, hint']
    simp [modify, hwidth, h₁, h₂, h₃, h₄, h₅]

private theorem zeroFlag_cons (c : Char) (cs : List Char) :
    zeroFlag (c :: cs) = if c.isDigit then c == '0' else zeroFlag cs := by
  rw [zeroFlag, List.filter_cons]
  split
  · simp
  · rfl

theorem modified_modify (k : Nat) (pf : PF) (hc : c ∈ modifiers) :
    modified (nextWidth k c) cs (modify k c pf) = modified k (c :: cs) pf := by
  simp only [modified, modify, zeroFlag_cons, widthFrom, List.foldl_cons, List.contains_cons,
    Bool.or_assoc, PF.mk.injEq, true_and]
  rcases modifiers_cases c hc with rfl | rfl | rfl | rfl | rfl | hdigit
  · simp [nextWidth]
  · simp [nextWidth]
  · simp [nextWidth]
  · simp [nextWidth]
  · cases k <;> simp [nextWidth, digit]
  · obtain ⟨_, _, hpos, hd, h₁, h₂, h₃, h₄, h₅⟩ := hdigit
    have hne : nextWidth k c ≠ 0 := by
      rw [nextWidth, if_pos hd]
      omega
    have hhash : (c == '#') = ('#' == c) := BEq.comm
    have hminus : (c == '-') = ('-' == c) := BEq.comm
    simp [hne, hd, h₃, h₄, h₅, Ne.symm h₃, Ne.symm h₄, hhash, hminus]

theorem foldlM_modifiers (hpct : pf.inPct = true) (hspc : pf.spacing = k)
    (hmods : ∀ c ∈ mods, c ∈ modifiers) (hwidth : widthFrom k mods < 2147483648) :
    mods.foldlM pfSend pf = .ok (modified k mods pf) := by
  induction mods generalizing pf k with
  | nil =>
    rw [List.foldlM_nil]
    simp only [modified, widthFrom, List.foldl_nil, ← hspc]
    simp [zeroFlag]
  | cons c cs ih =>
    have hc : c ∈ modifiers := hmods c List.mem_cons_self
    have hfits : nextWidth k c < 2147483648 := Nat.lt_of_le_of_lt (le_widthFrom _ cs) hwidth
    rw [List.foldlM_cons, pfSend_modifier hpct hc, pfModifier_eq hspc hc hfits, checked_bind,
      ← modified_modify k pf hc]
    exact ih hpct rfl (fun c hc => hmods c (List.mem_cons_of_mem _ hc)) hwidth

/-- The value of a digit in a base. -/
def digitValue (base : Nat) (c : Char) : Option Nat :=
  (digitChars.idxOf? c).filter fun d => d < base

/-- Without the blanks in front and behind. -/
def strip (l : List Char) : List Char :=
  ((l.dropWhile fun c => c == ' ').reverse.dropWhile fun c => c == ' ').reverse

/-- The prefix and the digits. -/
def readUnsigned (base : Nat) (pre l : List Char) : Option Nat :=
  if pre.isPrefixOf l then readNumeral (digitValue base) base (l.drop pre.length) else none

/-- The value of a field: blanks around it, a sign, the prefix, digits. -/
def readBack (base : Nat) (pre field : List Char) : Option Int :=
  match strip field with
  | '-' :: l => (readUnsigned base pre l).map fun n => -(n : Int)
  | l => (readUnsigned base pre l).map fun n => (n : Int)

private theorem digitValue_digitChar (hbase : base ≤ 16) : ∀ d < base, digitValue base (digitChar d) = some d := by
  intro d hd
  have hindex : ∀ d < 16, digitChars.idxOf? (digitChar d) = some d := by decide
  rw [digitValue, hindex d (by omega)]
  simp [hd]

theorem digitChar_plain : ∀ d < 16, digitChar d ≠ ' ' ∧ digitChar d ≠ '-' := by decide

private theorem dropWhile_blanks (k : Nat) (l : List Char) :
    (List.replicate k ' ' ++ l).dropWhile (fun c => c == ' ') = l.dropWhile fun c => c == ' ' := by
  induction k with
  | zero => rfl
  | succ k ih => rw [List.replicate_succ, List.cons_append, List.dropWhile_cons_of_pos (by rfl), ih]

private theorem dropWhile_plain (h : ∀ c ∈ l, c ≠ ' ') : l.dropWhile (fun c => c == ' ') = l := by
  cases l with
  | nil => rfl
  | cons c cs => exact List.dropWhile_cons_of_neg (by simpa using h c List.mem_cons_self)

theorem strip_padded (h : ∀ c ∈ l, c ≠ ' ') (k n : Nat) :
    strip (List.replicate k ' ' ++ l ++ List.replicate n ' ') = l := by
  have hrev : ∀ c ∈ l.reverse, c ≠ ' ' := fun c hc => h c (List.mem_reverse.mp hc)
  rw [strip, List.append_assoc, dropWhile_blanks]
  cases l with
  | nil =>
    rw [List.nil_append, ← List.append_nil (List.replicate n ' '), dropWhile_blanks]
    rfl
  | cons c cs =>
    rw [List.cons_append, List.dropWhile_cons_of_neg (by simpa using h c List.mem_cons_self),
      ← List.cons_append, List.reverse_append, List.reverse_replicate, dropWhile_blanks,
      dropWhile_plain hrev, List.reverse_reverse]

def baseOf (ch : Char) : Nat := if ch = 'o' then 8 else if ch = 'x' ∨ ch = 'p' then 16 else 10

def prefixOf (mods : List Char) (ch : Char) : List Char :=
  if mods.contains '#' || ch == 'p' then
    if baseOf ch = 16 then ['0', 'x'] else if baseOf ch = 8 then ['0'] else []
  else []

/-- The value of an argument under a conversion. -/
def valueOf (ch : Char) (w : BitVec 32) : Int := if ch = 'd' then w.toInt else w.toNat

def signOf (ch : Char) (w : BitVec 32) : List Char := if valueOf ch w < 0 then ['-'] else []

/-- The number of characters of a field without padding. -/
def naturalLength (mods : List Char) (ch : Char) (w : BitVec 32) : Nat :=
  (signOf ch w).length + (prefixOf mods ch).length + (digitsOf (baseOf ch) (valueOf ch w).natAbs).length

/-- A left-aligned field is filled up with zeros, behind a number that is not zero. -/
def Spoiled (mods : List Char) (ch : Char) (w : BitVec 32) : Prop :=
  '-' ∈ mods ∧ zeroFlag mods = true ∧ valueOf ch w ≠ 0 ∧ naturalLength mods ch w < width mods

/-- Between two fields. -/
def Ready (pf : PF) : Prop := pfEndfield pf = pf

/-- The field is printed within the buffer, is wide enough and reads back as the argument. -/
def Formats (mods : List Char) (ch : Char) (w : BitVec 32) (pf : PF) (ap : List Arg) : Prop :=
  ∃ pf' field, ('%' :: mods ++ [ch]).foldlM pfSend pf = .ok pf' ∧ Ready pf' ∧ pf'.ap = ap ∧
    pf'.out = pf.out ++ field ∧ width mods ≤ field.length ∧
    readBack (baseOf ch) (prefixOf mods ch) field = some (valueOf ch w)

private theorem readUnsigned_prefixed {r : Option Nat} (h : readNumeral (digitValue base) base l = r) :
    readUnsigned base pre (pre ++ l) = r := by
  have hpre : pre.isPrefixOf (pre ++ l) = true := by simp
  rw [readUnsigned, if_pos hpre, List.drop_left, h]

private theorem readBack_padded {digits : List Char} (hplain : ∀ c ∈ pre ++ digits, c ≠ ' ' ∧ c ≠ '-')
    (hread : readNumeral (digitValue base) base digits = some n) (neg : Bool) (j k : Nat) :
    readBack base pre (List.replicate j ' ' ++ ((if neg then ['-'] else []) ++ pre ++ digits) ++
      List.replicate k ' ') = some (if neg then -(n : Int) else n) := by
  have hunsigned : readUnsigned base pre (pre ++ digits) = some n := readUnsigned_prefixed hread
  have hblank : ∀ c ∈ (if neg then ['-'] else []) ++ pre ++ digits, c ≠ ' ' := by
    intro c hc
    rw [List.append_assoc] at hc
    cases List.mem_append.mp hc with
    | inl hsign =>
      cases neg with
      | true => rw [List.mem_singleton.mp hsign]; decide
      | false => cases hsign
    | inr hrest => exact (hplain c hrest).1
  rw [readBack, strip_padded hblank]
  cases neg with
  | true =>
    show (readUnsigned base pre (pre ++ digits)).map (fun n => -(n : Int)) = _
    rw [hunsigned]
    rfl
  | false =>
    show (match pre ++ digits with
      | '-' :: l => (readUnsigned base pre l).map fun n => -(n : Int)
      | l => (readUnsigned base pre l).map fun n => (n : Int)) = _
    split
    · next l heq =>
      have hhead : '-' ∈ pre ++ digits := heq ▸ List.mem_cons_self
      exact absurd rfl (hplain '-' hhead).2
    · rw [hunsigned]
      rfl

private theorem padding_eq (hw : pf.spacing = n) : padding pf k = n - k := by
  rw [padding, hw]
  split <;> omega

private theorem baseOf_bounds (ch : Char) : 1 < baseOf ch ∧ baseOf ch ≤ 16 ∧ 2 ^ 32 ≤ baseOf ch ^ 11 := by
  rw [baseOf]
  split
  · decide
  · split <;> decide

private theorem prefixOf_plain (mods : List Char) (ch : Char) :
    ∀ c ∈ prefixOf mods ch, c ≠ ' ' ∧ c ≠ '-' := by
  rw [prefixOf]
  split
  · split
    · exact forall_mem_of_all (by decide)
    · split <;> exact forall_mem_of_all (by decide)
  · nofun

private theorem numeral_plain (ch : Char) (n : Nat) :
    ∀ c ∈ numeral digitChar (baseOf ch) n, c ≠ ' ' ∧ c ≠ '-' := by
  intro c hc
  obtain ⟨d, hd, rfl⟩ := List.mem_map.mp hc
  have hbounds := baseOf_bounds ch
  have hlt := digitsOf_lt hbounds.1 hd
  exact digitChar_plain d (by omega)

private theorem signOf_eq (ch : Char) (w : BitVec 32) :
    signOf ch w = if decide (valueOf ch w < 0) then ['-'] else [] := by
  simp [signOf]

private theorem value_eq (v : Int) : (if decide (v < 0) then -(v.natAbs : Int) else v.natAbs) = v := by
  simp only [decide_eq_true_eq]
  split <;> omega

theorem scaled_eq_iff (hbase : 1 < base) (v : Int) (k : Nat) :
    (if decide (v < 0) then -((base ^ k * v.natAbs : Nat) : Int) else (base ^ k * v.natAbs : Nat)) = v ↔
      v = 0 ∨ k = 0 := by
  simp only [decide_eq_true_eq]
  by_cases hk : k = 0
  · simp only [hk, Nat.pow_zero, Nat.one_mul, or_true, iff_true]
    split <;> omega
  · by_cases hv : v = 0
    · simp [hv]
    · have hpow : 1 < base ^ k := Nat.one_lt_pow hk hbase
      have hlt : 1 * v.natAbs < base ^ k * v.natAbs :=
        Nat.mul_lt_mul_of_pos_right hpow (Int.natAbs_pos.mpr hv)
      simp only [hk, hv, or_self, iff_false]
      split <;> omega

theorem readBack_field (hright : pf.rightspc = mods.contains '-')
    (hfill : pf.fillchar = if zeroFlag mods = true then '0' else ' ') (hspc : pf.spacing = width mods) :
    readBack (baseOf ch) (prefixOf mods ch) (fieldText pf (signOf ch w ++ prefixOf mods ch)
      (numeral digitChar (baseOf ch) (valueOf ch w).natAbs)) = some (valueOf ch w) ↔
      ¬ Spoiled mods ch w := by
  have hbounds := baseOf_bounds ch
  have hvalue := digitValue_digitChar hbounds.2.1
  have hpad : padding pf ((signOf ch w ++ prefixOf mods ch).length +
      (numeral digitChar (baseOf ch) (valueOf ch w).natAbs).length) =
      width mods - naturalLength mods ch w := by
    rw [padding_eq hspc, naturalLength, numeral, List.length_map, List.length_append]
  rw [fieldText, hpad, signOf_eq]
  generalize hk : width mods - naturalLength mods ch w = k
  have hpre := prefixOf_plain mods ch
  have hnum := numeral_plain ch (valueOf ch w).natAbs
  have hzeros : ∀ c ∈ List.replicate k '0', c ≠ ' ' ∧ c ≠ '-' := by
    intro c hc
    rw [List.eq_of_mem_replicate hc]
    decide
  have hbody := readBack_padded (List.forall_mem_append.mpr ⟨hpre, hnum⟩)
    (readNumeral_zeros_numeral hvalue hbounds.1 0 _) (decide (valueOf ch w < 0))
  rw [value_eq] at hbody
  by_cases hminus : '-' ∈ mods
  · have hr : pf.rightspc = true := by rw [hright]; simpa using hminus
    rw [if_pos hr, hfill]
    by_cases hzero : zeroFlag mods = true
    · have hread := readBack_padded
        (List.forall_mem_append.mpr ⟨hpre, List.forall_mem_append.mpr ⟨hnum, hzeros⟩⟩)
        (readNumeral_numeral_zeros hvalue hbounds.1 k _) (decide (valueOf ch w < 0)) 0 0
      simp only [List.replicate_zero, List.nil_append, List.append_nil, List.append_assoc] at hread
      have hgap : k = 0 ↔ ¬ naturalLength mods ch w < width mods := by omega
      rw [if_pos hzero, List.append_assoc, List.append_assoc, hread, Option.some.injEq,
        scaled_eq_iff hbounds.1, Spoiled, hgap]
      tauto
    · rw [if_neg hzero]
      exact iff_of_true (hbody 0 k) fun hspoiled => hzero hspoiled.2.1
  · have hr : ¬ pf.rightspc = true := by rw [hright]; simpa using hminus
    have hnot : ¬ Spoiled mods ch w := fun hspoiled => hminus hspoiled.1
    rw [if_neg hr, hfill]
    refine iff_of_true ?_ hnot
    by_cases hzero : zeroFlag mods = true
    · have hread := readBack_padded
        (List.forall_mem_append.mpr ⟨hpre, List.forall_mem_append.mpr ⟨hzeros, hnum⟩⟩)
        (readNumeral_zeros_numeral hvalue hbounds.1 k _) (decide (valueOf ch w < 0)) 0 0
      rw [value_eq] at hread
      simp only [List.replicate_zero, List.nil_append, List.append_nil, List.append_assoc] at hread
      rw [if_pos hzero, if_pos rfl, List.append_assoc, List.append_assoc]
      exact hread
    · have hread := hbody k 0
      simp only [List.replicate_zero, List.append_nil, List.append_assoc] at hread
      rw [if_neg hzero, if_neg (by decide), List.append_assoc, List.append_assoc]
      exact hread

private theorem magnitude_eq (ch : Char) (w : BitVec 32) :
    (if valueOf ch w < 0 then -w else w).toNat = (valueOf ch w).natAbs := by
  by_cases hd : ch = 'd'
  · have hlt := w.isLt
    have hint : valueOf ch w = if 2 * w.toNat < 2 ^ 32 then (w.toNat : Int) else w.toNat - 2 ^ 32 := by
      rw [valueOf, if_pos hd, BitVec.toInt_eq_toNat_cond]
      rfl
    rw [hint]
    by_cases hsmall : 2 * w.toNat < 2 ^ 32
    · rw [if_pos hsmall, if_neg (by omega), Int.natAbs_natCast]
    · rw [if_neg hsmall, if_pos (by omega), BitVec.toNat_neg]
      omega
  · have hint : valueOf ch w = w.toNat := if_neg hd
    rw [hint, if_neg (by omega), Int.natAbs_natCast]

private theorem pfGetnum_eq (hap : pf.ap = .word w :: ap) : pfGetnum pf ch = .ok { pf with
    ap := ap
    sign := if valueOf ch w < 0 then -1 else pf.sign
    num := if valueOf ch w < 0 then -w else w } := by
  have hword : vaWord pf = .ok (w, { pf with ap := ap }) := by rw [vaWord, hap]
  rw [pfGetnum, hword, checked_bind]
  by_cases hd : ch = 'd'
  · subst hd
    have hvalue : valueOf 'd' w = w.toInt := rfl
    rw [hvalue]
    by_cases hneg : w.toInt < 0
    · simp [hneg]
    · simp [hneg]
  · have hvalue : ¬ valueOf ch w < 0 := by
      rw [valueOf, if_neg hd]
      omega
    simp [hd, hvalue]

private theorem pfSetbase_eq (hch : ch ∈ conversions) : pfSetbase pf ch =
    { pf with base := baseOf ch, baseprefix := pf.baseprefix || (pf.altformat || ch == 'p') } := by
  have hcases : ch = 'd' ∨ ch = 'o' ∨ ch = 'u' ∨ ch = 'p' ∨ ch = 'x' := by
    simpa [conversions] using hch
  rcases hcases with rfl | rfl | rfl | rfl | rfl <;> cases halt : pf.altformat <;>
    simp [pfSetbase, baseOf, halt]

theorem pfPrintnum_eq (hbase : pf.base = baseOf ch) (hnum : pf.num.toNat = (valueOf ch w).natAbs)
    (hsign : pf.sign ≠ 0 ↔ valueOf ch w < 0)
    (hpre : pf.baseprefix = (mods.contains '#' || ch == 'p')) :
    pfPrintnum pf = .ok (pfPrint pf (fieldText pf (signOf ch w ++ prefixOf mods ch)
      (numeral digitChar (baseOf ch) (valueOf ch w).natAbs))) := by
  have hbounds := baseOf_bounds ch
  have hlt : (valueOf ch w).natAbs < baseOf ch ^ (numberBufSize - 1) := by
    have := pf.num.isLt
    exact Nat.lt_of_lt_of_le (hnum ▸ this) hbounds.2.2
  have hloop : digitLoop (baseOf ch) (numberBufSize - 1) (valueOf ch w).natAbs [] =
      .ok (numeral digitChar (baseOf ch) (valueOf ch w).natAbs ++ []) :=
    digitLoop_eq hbounds.1 (by decide) hlt
  rw [List.append_nil] at hloop
  have hbasePre : (if pf.baseprefix = true ∧ pf.base = 16 then ['0', 'x']
      else if pf.baseprefix = true ∧ pf.base = 8 then ['0'] else []) = prefixOf mods ch := by
    rw [prefixOf, hbase, hpre]
    split <;> split <;> simp_all
  rw [pfPrintnum, hbase, hnum, hloop, checked_bind, ← hbase, hbasePre, hbase]
  simp only [checked_pure, pfPrintstuff_eq, signOf, hsign]

private theorem pfSend_conversion (hpct : pf.inPct = true) (hch : ch ∈ conversions) :
    pfSend pf ch = do
      let pf ← pfGetnum pf ch
      let pf ← pfPrintnum (pfSetbase pf ch)
      return pfEndfield pf := by
  have hnot : ∀ c ∈ conversions, c ≠ '\x00' ∧ c ∉ modifiers := forall_mem_of_all (by decide)
  rw [pfSend, check_bind (hnot ch hch).1]
  simp [hpct, hch, (hnot ch hch).2]

theorem foldlM_field (hready : Ready pf) (hap : pf.ap = .word w :: ap) (hch : ch ∈ conversions)
    (hmods : ∀ c ∈ mods, c ∈ modifiers) (hwidth : width mods < 2147483648) :
    ∃ q pf' : PF, ('%' :: mods ++ [ch]).foldlM pfSend pf = .ok pf' ∧ Ready pf' ∧ pf'.ap = ap ∧
      q.rightspc = mods.contains '-' ∧ q.fillchar = (if zeroFlag mods = true then '0' else ' ') ∧
      q.spacing = width mods ∧
      pf'.out = pf.out ++ fieldText q (signOf ch w ++ prefixOf mods ch)
        (numeral digitChar (baseOf ch) (valueOf ch w).natAbs) := by
  have hpct : pfSend pf '%' = .ok { pf with inPct := true } := by
    rw [pfSend, check_bind (by decide), ← hready]
    rfl
  have hspacing : pf.spacing = (0 : Nat) := by rw [← hready]; rfl
  have hright : pf.rightspc = false := by rw [← hready]; rfl
  have halt : pf.altformat = false := by rw [← hready]; rfl
  have hfill : pf.fillchar = ' ' := by rw [← hready]; rfl
  have hsign : pf.sign = 0 := by rw [← hready]; rfl
  have hbasePre : pf.baseprefix = false := by rw [← hready]; rfl
  let q₁ := modified 0 mods { pf with inPct := true }
  have hmodified : mods.foldlM pfSend { pf with inPct := true } = .ok q₁ :=
    foldlM_modifiers rfl hspacing hmods hwidth
  let q₂ : PF := { q₁ with
    ap := ap
    sign := if valueOf ch w < 0 then -1 else q₁.sign
    num := if valueOf ch w < 0 then -w else w }
  have hgetnum : pfGetnum q₁ ch = .ok q₂ := pfGetnum_eq hap
  let q : PF := { q₂ with
    base := baseOf ch, baseprefix := q₂.baseprefix || (q₂.altformat || ch == 'p') }
  have hsetbase : pfSetbase q₂ ch = q := pfSetbase_eq hch
  have hnegative : q.sign ≠ 0 ↔ valueOf ch w < 0 := by
    show (if valueOf ch w < 0 then -1 else pf.sign) ≠ 0 ↔ _
    rw [hsign]
    simp
  have hpre : q.baseprefix = (mods.contains '#' || ch == 'p') := by
    show (pf.baseprefix || (pf.altformat || mods.contains '#' || ch == 'p')) = _
    rw [hbasePre, halt, Bool.false_or, Bool.false_or]
  have hprint : pfPrintnum q = _ := pfPrintnum_eq rfl (magnitude_eq ch w) hnegative hpre
  refine ⟨q, pfEndfield (pfPrint q _), ?_, rfl, rfl, ?_, ?_, rfl, rfl⟩
  · rw [List.cons_append, List.foldlM_cons, hpct, checked_bind, List.foldlM_append, hmodified,
      checked_bind, List.foldlM_cons, pfSend_conversion rfl hch, hgetnum, checked_bind, hsetbase, hprint]
    rfl
  · show (pf.rightspc || mods.contains '-') = _
    rw [hright, Bool.false_or]
  · show (if 0 = 0 ∧ zeroFlag mods = true then '0' else pf.fillchar) = _
    rw [hfill]
    simp

/-- An integer field is printed within the digit buffer, as wide as asked for, and so that it reads back
as its argument, exactly if it is not a left-aligned field with zero filling that has to be filled up
behind a number other than zero. -/
theorem integer_field_iff (hready : Ready pf) (hap : pf.ap = .word w :: ap) (hch : ch ∈ conversions)
    (hmods : ∀ c ∈ mods, c ∈ modifiers) (hwidth : width mods < 2147483648) :
    Formats mods ch w pf ap ↔ ¬ Spoiled mods ch w := by
  obtain ⟨q, pf', hrun, hready', hap', hright, hfill, hspc, hout⟩ :=
    foldlM_field hready hap hch hmods hwidth
  have hread : _ ↔ ¬ Spoiled mods ch w := readBack_field hright hfill hspc
  rw [← hread]
  constructor
  · intro hformats
    obtain ⟨pf'', field, hrun', _, _, hout', _, hback⟩ := hformats
    cases hrun.symm.trans hrun'
    rw [hout, List.append_right_inj] at hout'
    rwa [hout']
  · intro hback
    exact ⟨pf', _, hrun, hready', hap', hout, le_length_fieldText hspc, hback⟩

theorem integer_field_minus : Formats ['-', '5'] 'd' (-42) (start [.word (-42)]) [] := by
  have hready : Ready (start [.word (-42)]) := rfl
  exact (integer_field_iff hready rfl (by decide) (forall_mem_of_all (by decide)) (by decide)).mpr
    fun h => absurd h.2.1 (by decide)

/-- `%-05d` of 5 prints 50000. -/
theorem left_zero_fill : vprintf "%-05d".toList [.word 5] = .ok ("50000".toList, 5) ∧
    ¬ Formats ['-', '0', '5'] 'd' 5 (start [.word 5]) [] := by
  have hrun : ('%' :: ['-', '0', '5'] ++ ['d']).foldlM pfSend (start [.word 5]) =
      .ok { start [] with out := "50000".toList, charcount := 5 } := rfl
  refine ⟨rfl, fun h => ?_⟩
  obtain ⟨pf', field, hrun', _, _, hout, _, hback⟩ := h
  cases hrun.symm.trans hrun'
  rw [show field = "50000".toList from hout.symm] at hback
  exact absurd hback (by decide)

end CseOs.Libc.Printf
