import CseOs.Kernel.Asst1.CatMouse
import Mathlib.Data.List.Count

/-!
# The rules of the bowls

Over every interleaving the state that `bowls.c` keeps is the truth about who eats where, but for what the
thread that holds the mutex is about to write.
-/

namespace CseOs.Kernel.CatMouse

open Framework

namespace Pc

def bowl : Pc → Option Nat
  | .resting => none
  | .entering b => some b
  | .checked b => some b
  | .counted b => some b
  | .marked b => some b
  | .eating b => some b
  | .leaving b => some b
  | .uncounted b => some b
  | .cleared b => some b

/-- The bowl that is marked with the animal -/
def occupied : Pc → Option Nat
  | .marked b => some b
  | .eating b => some b
  | .leaving b => some b
  | .uncounted b => some b
  | _ => none

/-- Between `P(mutex)` and `V(mutex)` -/
def Inside : Pc → Prop
  | .resting => False
  | .eating _ => False
  | _ => True

/-- `P(mutex)` was called. -/
def Asking : Pc → Prop
  | .entering _ => True
  | .leaving _ => True
  | _ => False

/-- How far the count is ahead of the bowls -/
def ahead : Pc → Int
  | .counted _ => 1
  | .uncounted _ => -1
  | _ => 0

/-- The bowl was found free. -/
def claimed : Pc → Option Nat
  | .checked b => some b
  | .counted b => some b
  | _ => none

variable {pc : Pc} {b : Nat}

theorem Asking.inside (h : pc.Asking) : pc.Inside := by
  cases pc <;> first | exact trivial | exact h

private theorem Asking.ahead (h : pc.Asking) : pc.ahead = 0 := by
  cases pc <;> first | rfl | exact h.elim

private theorem Asking.claimed (h : pc.Asking) : pc.claimed = none := by
  cases pc <;> first | rfl | exact h.elim

private theorem bowl_of_occupied (h : pc.occupied = some b) : pc.bowl = some b := by
  cases pc <;> first | exact h | cases h

end Pc

/-- How many of a kind the bowls show -/
def shown (bowls : List (Option Kind)) (kind : Kind) : Nat := bowls.count (some kind)

/-- What the bowls and the counts say is so, but for what the thread `h` in the critical section is
about to write. -/
structure Truthful (bowls : List (Option Kind)) (eating : Kind → Int) (animal : Nat → Option Animal)
    (h : Option Nat) : Prop where
  range : ∀ t a b, animal t = some a → a.pc.bowl = some b → 1 ≤ b ∧ b ≤ bowls.length
  marks : ∀ t a b, animal t = some a → a.pc.occupied = some b → bowls[b - 1]? = some (some a.kind)
  eater : ∀ k kind, bowls[k]? = some (some kind) →
    ∃ t a, animal t = some a ∧ a.kind = kind ∧ a.pc.occupied = some (k + 1)
  one : ∀ t u a a' b, animal t = some a → animal u = some a' → a.pc.occupied = some b →
    a'.pc.occupied = some b → t = u
  apart : ∀ kind : Kind, 0 < shown bowls kind → shown bowls kind.other = 0
  count : h = none → ∀ kind, eating kind = shown bowls kind
  ahead : ∀ t a, h = some t → animal t = some a →
    eating a.kind = shown bowls a.kind + a.pc.ahead ∧ eating a.kind.other = shown bowls a.kind.other
  claim : ∀ t a b, h = some t → animal t = some a → a.pc.claimed = some b →
    bowls[b - 1]? = some none ∧ shown bowls a.kind.other = 0

variable {bowls : List (Option Kind)} {eating : Kind → Int} {animal : Nat → Option Animal}
  {h : Option Nat} {t u : Nat} {a a' : Animal} {pc : Pc} {b : Nat} {kind : Kind}

@[simp] theorem other_other : kind.other.other = kind := by cases kind <;> rfl

theorem other_ne : kind.other ≠ kind := by cases kind <;> simp [Kind.other]

theorem eq_or_other (kind kind' : Kind) : kind' = kind ∨ kind' = kind.other := by
  cases kind <;> cases kind' <;> simp [Kind.other]

theorem shown_set {old : Option Kind} {k : Nat} (hk : bowls[k]? = some old) (new : Option Kind)
    (kind : Kind) :
    shown (bowls.set k new) kind + (if old = some kind then 1 else 0) =
      shown bowls kind + (if new = some kind then 1 else 0) := by
  obtain ⟨hlt, hget⟩ := List.getElem?_eq_some_iff.mp hk
  have hle := List.boole_getElem_le_count (a := some kind) hlt
  rw [shown, shown, List.count_set hlt]
  simp only [hget, beq_iff_eq] at hle ⊢
  omega

theorem shown_pos {k : Nat} (hk : bowls[k]? = some (some kind)) : 0 < shown bowls kind :=
  List.count_pos_iff.mpr (List.mem_of_getElem? hk)

namespace Truthful

theorem start (n : Nat) : Truthful (List.replicate n none) (fun _ => 0) (fun _ => none) none where
  range _ _ _ ht := nomatch ht
  marks _ _ _ ht := nomatch ht
  eater k kind hk := by
    rw [List.getElem?_replicate] at hk
    split at hk <;> cases hk
  one _ _ _ _ _ ht := nomatch ht
  apart kind hpos := by simp [shown, List.count_replicate] at hpos
  count _ kind := by simp [shown, List.count_replicate]
  ahead _ _ ht := nomatch ht
  claim _ _ _ ht := nomatch ht

/-- A bowl with the animal's mark has the animal at it and no other. -/
theorem marked_iff (hT : Truthful bowls eating animal h) (ht : animal t = some a)
    (hb : a.pc.occupied = some b) (hu : animal u = some a') (hub : a'.pc.occupied = some b) : u = t :=
  hT.one u t a' a b hu ht hub hb

/-- Outside the critical section an animal goes from one place to another with the same bowl marked, or
comes, or goes. -/
theorem move (hT : Truthful bowls eating animal h) (hne : h ≠ some t) {r : Option Animal}
    (hold : ∀ b, (∃ a, animal t = some a ∧ a.pc.occupied = some b) →
      ∃ a, r = some a ∧ a.pc.occupied = some b)
    (hnew : ∀ a, r = some a → (∀ b, a.pc.bowl = some b → 1 ≤ b ∧ b ≤ bowls.length) ∧
      ∀ b, a.pc.occupied = some b → ∃ a₀, animal t = some a₀ ∧ a₀.kind = a.kind ∧
        a₀.pc.occupied = some b) :
    Truthful bowls eating (Function.update animal t r) h := by
  have hback : ∀ u a b, Function.update animal t r u = some a → a.pc.occupied = some b →
      ∃ a₀, animal u = some a₀ ∧ a₀.kind = a.kind ∧ a₀.pc.occupied = some b := by
    intro u a b hu hb
    by_cases he : u = t
    · subst he
      rw [Function.update_self] at hu
      exact (hnew a hu).2 b hb
    · rw [Function.update_of_ne he] at hu
      exact ⟨a, hu, rfl, hb⟩
  have hholder : ∀ u a, h = some u → Function.update animal t r u = some a → animal u = some a := by
    intro u a hu ha
    rw [Function.update_of_ne fun he => hne (hu.trans (congrArg some he))] at ha
    exact ha
  constructor
  · intro u a b hu hb
    by_cases he : u = t
    · subst he
      rw [Function.update_self] at hu
      exact (hnew a hu).1 b hb
    · rw [Function.update_of_ne he] at hu
      exact hT.range u a b hu hb
  · intro u a b hu hb
    obtain ⟨a₀, ha₀, hkind, hocc⟩ := hback u a b hu hb
    rw [← hkind]
    exact hT.marks u a₀ b ha₀ hocc
  · intro k kind hk
    obtain ⟨u, a, hu, hkind, hocc⟩ := hT.eater k kind hk
    by_cases he : u = t
    · subst he
      obtain ⟨a', hr, hocc'⟩ := hold _ ⟨a, hu, hocc⟩
      obtain ⟨a₀, ha₀, hkind₀, _⟩ := (hnew a' hr).2 _ hocc'
      rw [hu] at ha₀
      cases ha₀
      exact ⟨u, a', by rw [Function.update_self, hr], hkind₀.symm.trans hkind, hocc'⟩
    · exact ⟨u, a, by rw [Function.update_of_ne he, hu], hkind, hocc⟩
  · intro u v a a' b hu hv hb hb'
    obtain ⟨a₀, ha₀, _, hocc⟩ := hback u a b hu hb
    obtain ⟨a₁, ha₁, _, hocc'⟩ := hback v a' b hv hb'
    exact hT.one u v a₀ a₁ b ha₀ ha₁ hocc hocc'
  · exact hT.apart
  · exact hT.count
  · exact fun u a hu ha => hT.ahead u a hu (hholder u a hu ha)
  · exact fun u a b hu ha => hT.claim u a b hu (hholder u a hu ha)

/-- The mutex is taken by an animal that asked for it. -/
theorem take (hT : Truthful bowls eating animal none) (ht : animal t = some a) (hask : a.pc.Asking) :
    Truthful bowls eating animal (some t) where
  range := hT.range
  marks := hT.marks
  eater := hT.eater
  one := hT.one
  apart := hT.apart
  count hn := nomatch hn
  ahead u a' hu ha := by
    cases hu
    rw [ht] at ha
    cases ha
    rw [hask.ahead, Int.add_zero]
    exact ⟨hT.count rfl _, hT.count rfl _⟩
  claim u a' b hu ha hb := by
    cases hu
    rw [ht] at ha
    cases ha
    rw [hask.claimed] at hb
    cases hb

/-- The mutex is given back by an animal that has nothing left to write. -/
theorem give (hT : Truthful bowls eating animal (some t)) (ht : animal t = some a)
    (h0 : a.pc.ahead = 0) : Truthful bowls eating animal none where
  range := hT.range
  marks := hT.marks
  eater := hT.eater
  one := hT.one
  apart := hT.apart
  count _ kind := by
    obtain ⟨hself, hother⟩ := hT.ahead t a rfl ht
    rw [h0, Int.add_zero] at hself
    cases eq_or_other a.kind kind with
    | inl hk => rw [hk, hself]
    | inr hk => rw [hk, hother]
  ahead _ _ ht := nomatch ht
  claim _ _ _ ht := nomatch ht

/-- The holder goes on without touching a bowl. -/
theorem write (hT : Truthful bowls eating animal (some t)) (ht : animal t = some a) (pc : Pc)
    (hbowl : pc.bowl = a.pc.bowl) (hocc : pc.occupied = a.pc.occupied) {n : Int}
    (hn : n = shown bowls a.kind + pc.ahead)
    (hclaim : ∀ b, pc.claimed = some b → bowls[b - 1]? = some none ∧ shown bowls a.kind.other = 0) :
    Truthful bowls (Function.update eating a.kind n)
      (Function.update animal t (some { a with pc := pc })) (some t) := by
  have hother := (hT.ahead t a rfl ht).2
  have hback : ∀ u a', Function.update animal t (some { a with pc := pc }) u = some a' →
      ∃ a₀, animal u = some a₀ ∧ a₀.kind = a'.kind ∧ a₀.pc.bowl = a'.pc.bowl ∧
        a₀.pc.occupied = a'.pc.occupied := by
    intro u a' hu
    by_cases he : u = t
    · subst he
      rw [Function.update_self] at hu
      cases hu
      exact ⟨a, ht, rfl, hbowl.symm, hocc.symm⟩
    · rw [Function.update_of_ne he] at hu
      exact ⟨a', hu, rfl, rfl, rfl⟩
  constructor
  · intro u a' b hu hb
    obtain ⟨a₀, ha₀, _, hb₀, _⟩ := hback u a' hu
    exact hT.range u a₀ b ha₀ (hb₀.trans hb)
  · intro u a' b hu hb
    obtain ⟨a₀, ha₀, hkind, _, hocc₀⟩ := hback u a' hu
    rw [← hkind]
    exact hT.marks u a₀ b ha₀ (hocc₀.trans hb)
  · intro k kind hk
    obtain ⟨u, a', hu, hkind, hb⟩ := hT.eater k kind hk
    by_cases he : u = t
    · subst he
      rw [ht] at hu
      cases hu
      exact ⟨u, _, Function.update_self .., hkind, hocc.trans hb⟩
    · exact ⟨u, a', by rw [Function.update_of_ne he, hu], hkind, hb⟩
  · intro u v a₁ a₂ b hu hv hb hb'
    obtain ⟨a₀, ha₀, _, _, hocc₀⟩ := hback u a₁ hu
    obtain ⟨a₀', ha₀', _, _, hocc₀'⟩ := hback v a₂ hv
    exact hT.one u v a₀ a₀' b ha₀ ha₀' (hocc₀.trans hb) (hocc₀'.trans hb')
  · exact hT.apart
  · exact fun hno => nomatch hno
  · intro u a' hu ha
    cases hu
    rw [Function.update_self] at ha
    cases ha
    refine ⟨?_, ?_⟩
    · show Function.update eating a.kind n a.kind = _
      rw [Function.update_self, hn]
    · show Function.update eating a.kind n a.kind.other = _
      rw [Function.update_of_ne other_ne]
      exact hother
  · intro u a' b hu ha hb
    cases hu
    rw [Function.update_self] at ha
    cases ha
    exact hclaim b hb

/-- The holder writes its bowl: nobody else has that bowl. -/
theorem writeBowl (hT : Truthful bowls eating animal (some t)) (ht : animal t = some a) (pc : Pc)
    (new : Option Kind) (hb : a.pc.bowl = some b) (hbowl : pc.bowl = some b) {old : Option Kind}
    (hold : bowls[b - 1]? = some old)
    (hfree : ∀ u a', u ≠ t → animal u = some a' → a'.pc.occupied ≠ some b)
    (hmark : ∀ kind, new = some kind → kind = a.kind ∧ pc.occupied = some b ∧
      shown bowls kind.other = 0)
    (hocc : ∀ b', pc.occupied = some b' → b' = b ∧ new = some a.kind)
    (hlost : ∀ b', a.pc.occupied = some b' → b' = b)
    (hahead : ∀ kind, eating kind = shown (bowls.set (b - 1) new) kind + if kind = a.kind then pc.ahead else 0)
    (hclaim : pc.claimed = none) :
    Truthful (bowls.set (b - 1) new) eating
      (Function.update animal t (some { a with pc := pc })) (some t) := by
  obtain ⟨h1, hlen⟩ := hT.range t a b ht hb
  have hlt : b - 1 < bowls.length := by omega
  have hset : (bowls.set (b - 1) new)[b - 1]? = some new := List.getElem?_set_self hlt
  have hother : ∀ b', 1 ≤ b' → b' ≠ b → (bowls.set (b - 1) new)[b' - 1]? = bowls[b' - 1]? :=
    fun b' h1' hne => List.getElem?_set_ne (by omega)
  constructor
  · intro u a' b' hu hb'
    rw [List.length_set]
    by_cases he : u = t
    · subst he
      rw [Function.update_self] at hu
      cases hu
      rw [hbowl] at hb'
      cases hb'
      exact ⟨h1, hlen⟩
    · rw [Function.update_of_ne he] at hu
      exact hT.range u a' b' hu hb'
  · intro u a' b' hu hb'
    by_cases he : u = t
    · subst he
      rw [Function.update_self] at hu
      cases hu
      obtain ⟨rfl, hnew⟩ := hocc b' hb'
      rw [hset, hnew]
    · rw [Function.update_of_ne he] at hu
      have hne : b' ≠ b := fun heq => hfree u a' he hu (heq ▸ hb')
      rw [hother b' (hT.range u a' b' hu (Pc.bowl_of_occupied hb')).1 hne]
      exact hT.marks u a' b' hu hb'
  · intro k kind hk
    by_cases hkb : k = b - 1
    · subst hkb
      rw [hset, Option.some.injEq] at hk
      obtain ⟨hkind, hpc, _⟩ := hmark kind hk
      refine ⟨t, _, Function.update_self .., hkind.symm, ?_⟩
      rw [Nat.sub_add_cancel h1]
      exact hpc
    · rw [List.getElem?_set_ne (Ne.symm hkb)] at hk
      obtain ⟨u, a', hu, hkind, hb'⟩ := hT.eater k kind hk
      have he : u ≠ t := by
        intro he
        subst he
        rw [ht] at hu
        cases hu
        have hsame := hlost _ hb'
        omega
      exact ⟨u, a', by rw [Function.update_of_ne he, hu], hkind, hb'⟩
  · intro u v a₁ a₂ b' hu hv hb₁ hb₂
    by_cases hut : u = t
    · subst hut
      by_cases hvu : v = u
      · exact hvu.symm
      · rw [Function.update_self] at hu
        rw [Function.update_of_ne hvu] at hv
        cases hu
        have hsame := (hocc b' hb₁).1
        exact absurd (hsame ▸ hb₂) (hfree v a₂ hvu hv)
    · rw [Function.update_of_ne hut] at hu
      by_cases hvt : v = t
      · subst hvt
        rw [Function.update_self] at hv
        cases hv
        have hsame := (hocc b' hb₂).1
        exact absurd (hsame ▸ hb₁) (hfree u a₁ hut hu)
      · rw [Function.update_of_ne hvt] at hv
        exact hT.one u v a₁ a₂ b' hu hv hb₁ hb₂
  · intro kind hpos
    have hcount := shown_set hold new kind
    have hcount' := shown_set hold new kind.other
    by_cases hnew : new = some kind
    · have hzero := (hmark kind hnew).2.2
      have hne : ¬ new = some kind.other := by
        rw [hnew, Option.some.injEq]
        exact fun he => other_ne he.symm
      rw [if_neg hne] at hcount'
      omega
    · rw [if_neg hnew] at hcount
      have hzero := hT.apart kind (by omega)
      by_cases hnew' : new = some kind.other
      · have hself := (hmark _ hnew').2.2
        rw [other_other] at hself
        omega
      · rw [if_neg hnew'] at hcount'
        omega
  · exact fun hno => nomatch hno
  · intro u a' hu ha
    cases hu
    rw [Function.update_self] at ha
    cases ha
    refine ⟨?_, ?_⟩
    · have hself := hahead a.kind
      rw [if_pos rfl] at hself
      exact hself
    · have hoth := hahead a.kind.other
      rw [if_neg other_ne, Int.add_zero] at hoth
      exact hoth
  · intro u a' b' hu ha hb'
    cases hu
    rw [Function.update_self] at ha
    cases ha
    rw [show ({ a with pc := pc } : Animal).pc.claimed = none from hclaim] at hb'
    cases hb'

end Truthful

end CseOs.Kernel.CatMouse
