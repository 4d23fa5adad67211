import Mathlib.Data.List.Nodup
import Mathlib.Data.Option.Basic

/-!
# Singly linked lists

Nodes are joined by a partial successor function. The results relate the two loops that C code
runs over such a list, the search for a node and the removal of a node through a pointer to a
pointer, to operations on the list of nodes.
-/

namespace CseOs.Framework

variable {α : Type*}

/-- `l` is the list of nodes met from `head` along the links. -/
def Chain (next : α → Option α) : Option α → List α → Prop
  | head, [] => head = none
  | head, a :: l => head = some a ∧ Chain next (next a) l

/-- Follow the links to the first node that stops the walk and check every node on the way;
`none` when a check fails or the fuel runs out. -/
def walk (next : α → Option α) (ok stop : α → Bool) : Nat → Option α → Option (Option α)
  | _, none => some none
  | 0, some _ => none
  | fuel + 1, some a =>
    if ok a then
      if stop a then some (some a) else walk next ok stop fuel (next a)
    else
      none

/-- The head and the link fields of a list; `none` as a place stands for the head. -/
structure Links (α : Type*) where
  head : Option α
  next : α → Option α

namespace Chain

variable {next next' : α → Option α} {head : Option α} {l : List α} {a : α}

theorem congr (h : Chain next head l) (heq : ∀ b ∈ l, next' b = next b) : Chain next' head l := by
  induction l generalizing head with
  | nil => exact h
  | cons b l ih =>
      refine ⟨h.1, ?_⟩
      rw [heq b List.mem_cons_self]
      exact ih h.2 fun c hc => heq c (List.mem_cons_of_mem b hc)

/-- The links determine the list. -/
theorem unique {l' : List α} (h : Chain next head l) (h' : Chain next head l') : l = l' := by
  induction l generalizing head l' with
  | nil =>
      subst h
      cases l' with
      | nil => rfl
      | cons b l' => cases h'.1
  | cons b l ih =>
      obtain ⟨hb, hl⟩ := h
      subst hb
      cases l' with
      | nil => cases h'
      | cons c l' =>
          obtain ⟨hc, hl'⟩ := h'
          cases hc
          rw [ih hl hl']

theorem head_mem (h : Chain next head l) (ha : head = some a) : a ∈ l := by
  cases l with
  | nil => exact absurd (ha.symm.trans h) (by simp)
  | cons b l =>
      have hb : a = b := Option.some.inj (ha.symm.trans h.1)
      exact hb ▸ List.mem_cons_self

/-- The search loop finds the first node of the list that stops it. -/
theorem walk_eq (h : Chain next head l) {ok stop : α → Bool} {fuel : Nat}
    (hfuel : l.length ≤ fuel) (hok : ∀ b ∈ l, ok b = true) :
    walk next ok stop fuel head = some (l.find? stop) := by
  induction l generalizing head fuel with
  | nil =>
      cases h
      cases fuel <;> rfl
  | cons b l ih =>
      obtain ⟨hb, hl⟩ := h
      subst hb
      cases fuel with
      | zero => simp at hfuel
      | succ fuel =>
          have hrest := ih hl (by simpa using hfuel) fun c hc => hok c (List.mem_cons_of_mem b hc)
          rw [walk, if_pos (hok b List.mem_cons_self), hrest, List.find?_cons]
          cases stop b <;> rfl

theorem after {r : α} {pre post : List α} (h : Chain next head (pre ++ r :: post)) :
    Chain next (next r) post := by
  induction pre generalizing head with
  | nil => exact h.2
  | cons b pre ih => exact ih h.2

section Update

variable [DecidableEq α] {r : α} {pre post : List α}

/-- Link a new last node behind the old one. -/
theorem snoc (h : Chain next head l) (hnd : l.Nodup) (ha : a ∉ l) (hlast : l.getLast? = some r) :
    Chain (Function.update (Function.update next a none) r (some a)) head (l ++ [a]) := by
  induction l generalizing head with
  | nil => simp at hlast
  | cons b l ih =>
      obtain ⟨hb, hl⟩ := h
      obtain ⟨hbl, hnd⟩ := List.nodup_cons.mp hnd
      have hab : a ≠ b := fun he => ha (he ▸ List.mem_cons_self)
      cases l with
      | nil =>
          have hbr : b = r := by simpa using hlast
          subst hbr
          refine ⟨hb, Function.update_self .., ?_⟩
          rw [Chain, Function.update_of_ne hab, Function.update_self]
      | cons c l =>
          rw [List.getLast?_cons_cons] at hlast
          have hbr : b ≠ r := fun he => hbl (he ▸ List.mem_of_getLast? hlast)
          refine ⟨hb, ?_⟩
          rw [Function.update_of_ne hbr, Function.update_of_ne hab.symm]
          exact ih hl hnd (fun hm => ha (List.mem_cons_of_mem b hm)) hlast

/-- Unlink the node behind `r`. -/
theorem removeAfter (h : Chain next head (pre ++ r :: a :: post))
    (hnd : (pre ++ r :: a :: post).Nodup) :
    Chain (Function.update (Function.update next r (next a)) a none) head (pre ++ r :: post) := by
  induction pre generalizing head with
  | nil =>
      obtain ⟨hr, _, hpost⟩ := h
      simp only [List.nil_append, List.nodup_cons, List.mem_cons, not_or] at hnd
      refine ⟨hr, ?_⟩
      rw [Function.update_of_ne hnd.1.1, Function.update_self]
      apply hpost.congr
      intro c hc
      have hca : c ≠ a := fun he => hnd.2.1 (he ▸ hc)
      have hcr : c ≠ r := fun he => hnd.1.2 (he ▸ hc)
      rw [Function.update_of_ne hca, Function.update_of_ne hcr]
  | cons b pre ih =>
      obtain ⟨hb, hrest⟩ := h
      obtain ⟨hbn, hnd⟩ := List.nodup_cons.mp hnd
      have hbr : b ≠ r := by
        rintro rfl
        exact hbn (by simp)
      have hba : b ≠ a := by
        rintro rfl
        exact hbn (by simp)
      refine ⟨hb, ?_⟩
      rw [Function.update_of_ne hba, Function.update_of_ne hbr]
      exact ih hrest hnd

end Update

end Chain

namespace Links

variable {k : Links α} {l : List α}

def get (k : Links α) : Option α → Option α
  | none => k.head
  | some q => k.next q

def set [DecidableEq α] (k : Links α) (v : Option α) : Option α → Links α
  | none => { k with head := v }
  | some q => { k with next := Function.update k.next q v }

/-- Walk from place to place until one points at `a`, and let it point past `a`; nothing
changes when no place does, and `none` means that the fuel ran out. -/
def unlink [DecidableEq α] (a : α) : Nat → Option α → Links α → Option (Links α)
  | fuel, guy, k =>
    match k.get guy with
    | none => some k
    | some q =>
      if q = a then
        some (k.set (k.next a) guy)
      else
        match fuel with
        | 0 => none
        | fuel + 1 => unlink a fuel (some q) k

section

variable [DecidableEq α]

@[simp] theorem get_set_self (k : Links α) (v : Option α) (g : Option α) :
    (k.set v g).get g = v := by
  cases g <;> simp [get, set]

theorem get_set_of_ne (k : Links α) (v : Option α) {g g' : Option α} (h : g' ≠ g) :
    (k.set v g).get g' = k.get g' := by
  cases g with
  | none =>
      cases g' with
      | none => exact absurd rfl h
      | some _ => rfl
  | some q =>
      cases g' with
      | none => rfl
      | some q' =>
          have hne : q' ≠ q := fun he => h (he ▸ rfl)
          simp [get, set, hne]

private theorem unlink_from {a : α} {guy : Option α} {fuel : Nat}
    (h : Chain k.next (k.get guy) l) (hnd : l.Nodup) (hguy : ∀ q, guy = some q → q ∉ l)
    (hfuel : l.length ≤ fuel) :
    ∃ k', k.unlink a fuel guy = some k' ∧ Chain k'.next (k'.get guy) (l.erase a) ∧
      ∀ g, g ≠ guy → (∀ q, g = some q → q ∉ l) → k'.get g = k.get g := by
  induction l generalizing guy fuel with
  | nil =>
      have hn : k.get guy = none := h
      refine ⟨k, ?_, h, fun _ _ _ => rfl⟩
      rw [unlink, hn]
  | cons b l ih =>
      obtain ⟨hb, hl⟩ := h
      obtain ⟨hbl, hnd⟩ := List.nodup_cons.mp hnd
      rw [unlink, hb]
      by_cases hba : b = a
      · subst hba
        refine ⟨_, if_pos rfl, ?_, fun g hg _ => get_set_of_ne k _ hg⟩
        rw [get_set_self, List.erase_cons_head]
        refine hl.congr fun c hc => ?_
        have hne : some c ≠ guy := fun he => hguy c he.symm (List.mem_cons_of_mem b hc)
        exact get_set_of_ne k _ hne
      · cases fuel with
        | zero => simp at hfuel
        | succ fuel =>
            have hb' : ∀ q, some b = some q → q ∉ l := by
              intro q hq
              cases hq
              exact hbl
            have hl' : Chain k.next (k.get (some b)) l := hl
            obtain ⟨k', hrun, hchain, hsame⟩ := ih hl' hnd hb' (by simpa using hfuel)
            refine ⟨k', by simpa [hba] using hrun, ?_, ?_⟩
            · rw [List.erase_cons_tail (by simpa using hba)]
              refine ⟨?_, hchain⟩
              have hgb : guy ≠ some b := fun he => hguy b he List.mem_cons_self
              rw [hsame guy hgb fun q hq hql => hguy q hq (List.mem_cons_of_mem b hql), hb]
            · intro g hg hgl
              have hgb : g ≠ some b := fun he => hgl b he List.mem_cons_self
              exact hsame g hgb fun q hq hql => hgl q hq (List.mem_cons_of_mem b hql)

/-- Unlinking a node erases it from the list and touches no node outside the list. -/
theorem unlink_spec {a : α} {fuel : Nat} (h : Chain k.next k.head l) (hnd : l.Nodup)
    (hfuel : l.length ≤ fuel) :
    ∃ k', k.unlink a fuel none = some k' ∧ Chain k'.next k'.head (l.erase a) ∧
      ∀ b, b ∉ l → k'.next b = k.next b := by
  obtain ⟨k', hrun, hchain, hsame⟩ :=
    unlink_from (show Chain k.next (k.get none) l from h) hnd (fun _ hq => nomatch hq) hfuel
  refine ⟨k', hrun, hchain, fun b hb => ?_⟩
  have hbl : ∀ q, some b = some q → q ∉ l := by
    intro q hq
    cases hq
    exact hb
  exact hsame (some b) (by simp) hbl

end

end Links

end CseOs.Framework
