import Mathlib.Logic.Basic

/-!
# Checked programs

A computation that stops at a failed assertion or at an access outside of its memory.
-/

namespace CseOs.Framework

/-- A failed assertion, or an access outside of the block. -/
inductive Fault where
  | assertion
  | outside
  deriving DecidableEq, Repr

abbrev Checked := Except Fault

def check (p : Prop) [Decidable p] : Checked Unit := if p then .ok () else .error .assertion

/-- A 32-bit signed int. -/
def int32 (n : Int) : Int := (n + 2147483648) % 4294967296 - 2147483648

theorem check_eq {p : Prop} [Decidable p] (h : p) : check p = .ok () := if_pos h

theorem check_bind {β : Type} {p : Prop} [Decidable p] (h : p) (f : Unit → Checked β) :
    (check p >>= f) = f () := by
  rw [check_eq h]
  rfl

@[simp] theorem checked_pure {β : Type} (b : β) : (pure b : Checked β) = .ok b := rfl

@[simp] theorem checked_bind {β γ : Type} (b : β) (f : β → Checked γ) :
    ((.ok b : Checked β) >>= f) = f b := rfl

theorem int32_of_small {n : Int} (h₀ : 0 ≤ n) (h : n < 2147483648) : int32 n = n := by
  rw [int32]
  omega

end CseOs.Framework
