import CseOs.Framework.Checked
import CseOs.Framework.Numerals
import Mathlib

/-!
# `__printf.c`

The formatter that `printf`, `snprintf` and `kprintf` share. A state machine takes the format one character
at a time; long and int are both 32 bits wide.
-/

namespace CseOs.Libc.Printf

open Framework Numeral

/-- An argument of the variadic call: an integer or a pointer that is not a string, or a string. -/
inductive Arg where
  | word (w : BitVec 32)
  | str (s : Option (List Char))

inductive Size where
  | intsz
  | longsz
  deriving DecidableEq

/-- `out` is what `sendfunc` got so far. -/
structure PF where
  out : List Char
  ap : List Arg
  charcount : BitVec 32
  inPct : Bool
  size : Size
  num : BitVec 32
  sign : Int
  spacing : Int
  rightspc : Bool
  fillchar : Char
  base : Nat
  baseprefix : Bool
  altformat : Bool

/-- `sizeof(long) * CHAR_BIT / 3 + 2` -/
def numberBufSize : Nat := 4 * 8 / 3 + 2

def pfPrint (pf : PF) (txt : List Char) : PF :=
  { pf with out := pf.out ++ txt, charcount := pf.charcount + BitVec.ofNat 32 txt.length }

def pfEndfield (pf : PF) : PF :=
  { pf with
    inPct := false, size := .intsz, num := 0, sign := 0, spacing := 0, rightspc := false, fillchar := ' ',
    base := 0, baseprefix := false, altformat := false }

/-- `ch-'0'` -/
def digit (ch : Char) : Nat := ch.toNat - 48

def pfModifier (pf : PF) (ch : Char) : Checked PF :=
  if ch = '#' then return { pf with altformat := true }
  else if ch = '-' then return { pf with rightspc := true }
  else if ch = 'l' then return { pf with size := .longsz }
  else if ch = 'q' then return { pf with size := .longsz }
  else if ch = '0' then
    if pf.spacing > 0 then return { pf with spacing := int32 (pf.spacing * 10) }
    else return { pf with fillchar := '0' }
  else do
    check ('0' < ch ∧ ch ≤ '9')
    return { pf with spacing := int32 (int32 (pf.spacing * 10) + digit ch) }

/-- `va_arg` of a type as wide as a word. -/
def vaWord (pf : PF) : Checked (BitVec 32 × PF) :=
  match pf.ap with
  | .word w :: ap => .ok (w, { pf with ap := ap })
  | _ => .error .outside

def vaStr (pf : PF) : Checked (Option (List Char) × PF) :=
  match pf.ap with
  | .str s :: ap => .ok (s, { pf with ap := ap })
  | _ => .error .outside

def pfGetnum (pf : PF) (ch : Char) : Checked PF := do
  let (w, pf) ← vaWord pf
  if ch = 'p' then return { pf with num := w }
  else if ch = 'd' then
    -- the negation of the least value wraps
    if w.toInt < 0 then return { pf with sign := -1, num := -w } else return { pf with num := w }
  else return { pf with num := w }

def pfSetbase (pf : PF) (ch : Char) : PF :=
  let pf := { pf with
    base := if ch = 'd' ∨ ch = 'u' then 10 else if ch = 'x' ∨ ch = 'p' then 16
      else if ch = 'o' then 8 else pf.base }
  if pf.altformat = true ∨ ch = 'p' then { pf with baseprefix := true } else pf

def pfFill (pf : PF) : Nat → PF
  | 0 => pf
  | spc + 1 => pfPrint (pfFill pf spc) [pf.fillchar]

/-- The padding: `spc` in `__pf_printstuff`. -/
def padding (pf : PF) (len : Nat) : Nat := if pf.spacing > len then (pf.spacing - len).toNat else 0

def pfPrintstuff (pf : PF) (pfx pfx2 stuff : List Char) : PF :=
  let spc := padding pf (pfx.length + pfx2.length + stuff.length)
  let pf := if pf.rightspc = false ∧ pf.fillchar ≠ '0' then pfFill pf spc else pf
  let pf := pfPrint (pfPrint pf pfx) pfx2
  let pf := if pf.rightspc = false ∧ pf.fillchar = '0' then pfFill pf spc else pf
  let pf := pfPrint pf stuff
  if pf.rightspc = true then pfFill pf spc else pf

def digitChars : List Char := "0123456789abcdef".toList

def digitChar (d : Nat) : Char := digitChars.getD d '\x00'

/-- The loop of `__pf_printnum` with `slots` bytes of the buffer in front of the text so far. -/
def digitLoop (base : Nat) : Nat → Nat → List Char → Checked (List Char)
  | 0, _, _ => .error .outside
  | slots + 1, xnum, text =>
    let text := digitChar (xnum % base) :: text
    if xnum / base > 0 then digitLoop base slots (xnum / base) text else .ok text

/-- The last byte of the buffer holds the terminator. -/
def pfPrintnum (pf : PF) : Checked PF := do
  let text ← digitLoop pf.base (numberBufSize - 1) pf.num.toNat []
  let bprefix := if pf.baseprefix = true ∧ pf.base = 16 then ['0', 'x']
    else if pf.baseprefix = true ∧ pf.base = 8 then ['0'] else []
  let sprefix := if pf.sign ≠ 0 then ['-'] else []
  return pfPrintstuff pf sprefix bprefix text

def modifiers : List Char := "#-ql0123456789".toList

def conversions : List Char := "doupx".toList

def pfSend (pf : PF) (ch : Char) : Checked PF := do
  check (ch ≠ '\x00')
  if pf.inPct = false ∧ ch ≠ '%' then return pfPrint pf [ch]
  else if pf.inPct = false then return { pf with inPct := true }
  else if ch ∈ modifiers then pfModifier pf ch
  else if ch ∈ conversions then do
    let pf ← pfGetnum pf ch
    let pf ← pfPrintnum (pfSetbase pf ch)
    return pfEndfield pf
  else if ch = 's' then do
    let (s, pf) ← vaStr pf
    return pfEndfield (pfPrintstuff pf [] [] (s.getD "(null)".toList))
  else if ch = 'c' then do
    let (w, pf) ← vaWord pf
    -- a character 0 is an empty string
    let x := Char.ofNat (w.toNat % 256)
    return pfEndfield (pfPrintstuff pf [] [] (if x = '\x00' then [] else [x]))
  else return pfEndfield (pfPrintstuff pf [] [] [ch])

def start (ap : List Arg) : PF :=
  pfEndfield ⟨[], ap, 0, false, .intsz, 0, 0, 0, false, ' ', 0, false, false⟩

/-- The characters sent, and their count as `__vprintf` returns it. -/
def vprintf (format : List Char) (ap : List Arg) : Checked (List Char × BitVec 32) := do
  let pf ← format.foldlM pfSend (start ap)
  return (pf.out, pf.charcount)

end CseOs.Libc.Printf
