import CseOs.Kernel.Vm.PageTable

/-!
# The segments of an address space

`as_define_region` rounds a request to whole pages in 32-bit arithmetic and keeps it in the first
slot whose page count is zero. `as_check_access` accepts what the two slots and the stack cover.
-/

namespace CseOs.Kernel

open Framework KernelSt

def userTop : Nat := mipsKseg0

/-- What a program header asks for. -/
structure Request where
  vaddr : Nat
  sz : Nat
  deriving DecidableEq

inductive SegOp
  | region (r : Request)
  | stack
  deriving DecidableEq

/-- The number of pages of a request as `as_define_region` computes it. -/
def regionPages (vaddr sz : Nat) : Nat :=
  roundDown (((sz + vaddr % pageSize) % 2 ^ 32 + pageSize - 1) % 2 ^ 32) / pageSize

namespace Request

def Fits32 (r : Request) : Prop := r.vaddr < 2 ^ 32 ∧ r.sz < 2 ^ 32

/-- The page at `a` contains a byte of the segment. -/
def Touches (r : Request) (a : Nat) : Prop :=
  0 < r.sz ∧ a < r.vaddr + r.sz ∧ r.vaddr < a + pageSize

/-- What a slot that holds the request accepts. -/
def Accepts (r : Request) (a : Nat) : Prop :=
  roundDown r.vaddr ≤ a ∧ a < (roundDown r.vaddr + regionPages r.vaddr r.sz * pageSize) % 2 ^ 32

instance (r : Request) : Decidable r.Fits32 :=
  inferInstanceAs (Decidable (_ ∧ _))

instance (r : Request) (a : Nat) : Decidable (r.Touches a) :=
  inferInstanceAs (Decidable (_ ∧ _ ∧ _))

end Request

def OnStack (a : Nat) : Prop := userstack - stackpages * pageSize ≤ a ∧ a < userstack

namespace Segments

/-- The requests that returned 0, and the kernel afterwards. -/
def defineAll (as : Nat) : List SegOp → KernelSt → List Request × KernelSt
  | [], k => ([], k)
  | .region r :: ops, k =>
    let q := asDefineRegion as r.vaddr r.sz k
    let rest := defineAll as ops q.2
    (if q.1 = 0 then r :: rest.1 else rest.1, rest.2)
  | .stack :: ops, k => defineAll as ops (asDefineStack as k).2.2

/-- The fields as `as_create` leaves them. -/
structure Fresh (m : ByteStore) (as : Nat) : Prop where
  npages1 : asNpages1 m as = 0
  npages2 : asNpages2 m as = 0
  npagesS : asNpagesS m as = 0

/-- The accepted pages are the touched ones and the stack, and nothing at or above `USERTOP` is
accepted. -/
structure Exact (as : Nat) (ops : List SegOp) (k : KernelSt) : Prop where
  pages : ∀ a, a < 2 ^ 32 → a % pageSize = 0 →
    (asCheckAccess (defineAll as ops k).2.mem as a = 0 ↔
      (∃ r ∈ (defineAll as ops k).1, r.Touches a) ∨ (.stack ∈ ops ∧ OnStack a))
  user : ∀ a, a < 2 ^ 32 → asCheckAccess (defineAll as ops k).2.mem as a = 0 → a < userTop

/-- The requests that find one of `n` free slots. One that rounds to no pages leaves its slot
free. -/
def served : Nat → List SegOp → List Request
  | _, [] => []
  | n, .stack :: ops => served n ops
  | 0, .region _ :: ops => served 0 ops
  | n + 1, .region r :: ops =>
    r :: served (if regionPages r.vaddr r.sz = 0 then n + 1 else n) ops

/-- A segment that is not empty lies below `USERTOP`. An empty one that starts inside a page,
except the last page of all, starts in a page that is accepted anyhow. -/
def Sound (ops : List SegOp) : Prop :=
  ∀ r ∈ served 2 ops,
    (r.sz ≠ 0 → r.vaddr + r.sz ≤ userTop) ∧
    (r.sz = 0 → r.vaddr % pageSize ≠ 0 → roundDown r.vaddr = 2 ^ 32 - pageSize ∨
      (∃ q ∈ served 2 ops, q.Touches (roundDown r.vaddr)) ∨
      (.stack ∈ ops ∧ OnStack (roundDown r.vaddr)))

variable {m : ByteStore} {as a n : Nat} {k : KernelSt} {r : Request} {ops : List SegOp}

def freeSlots (m : ByteStore) (as : Nat) : Nat :=
  if asNpages1 m as = 0 then 2 else if asNpages2 m as = 0 then 1 else 0

/-- The slots are filled in order. -/
def InOrder (m : ByteStore) (as : Nat) : Prop := asNpages1 m as = 0 → asNpages2 m as = 0

def SlotsAccept (m : ByteStore) (as a : Nat) : Prop :=
  (asVbase1 m as ≤ a ∧ a < (asVbase1 m as + asNpages1 m as * pageSize) % 2 ^ 32) ∨
  (asVbase2 m as ≤ a ∧ a < (asVbase2 m as + asNpages2 m as * pageSize) % 2 ^ 32)

theorem no_pages (b a : Nat) : ¬ (b ≤ a ∧ a < (b + 0 * pageSize) % 2 ^ 32) := by
  intro h
  have hle := Nat.mod_le (b + 0 * pageSize) (2 ^ 32)
  omega

private theorem regionPages_lt (v s : Nat) : regionPages v s < 2 ^ 32 := by
  have hle : roundDown (((s + v % pageSize) % 2 ^ 32 + pageSize - 1) % 2 ^ 32) < 2 ^ 32 := by
    simp only [roundDown, pageSize]
    omega
  exact Nat.lt_of_le_of_lt (Nat.div_le_self _ _) hle

private theorem roundDown_lt {v : Nat} (h : v < 2 ^ 32) : roundDown v < 2 ^ 32 :=
  Nat.lt_of_le_of_lt (Nat.div_mul_le_self v pageSize) h

/-- What a granted request leaves in the fields. -/
structure Granted (k : KernelSt) (as : Nat) (r : Request) (k' : KernelSt) : Prop where
  slots : freeSlots k'.mem as =
    if regionPages r.vaddr r.sz = 0 then freeSlots k.mem as else freeSlots k.mem as - 1
  inOrder : InOrder k'.mem as
  accepts : ∀ a, SlotsAccept k'.mem as a ↔ SlotsAccept k.mem as a ∨ r.Accepts a
  stack : asNpagesS k'.mem as = asNpagesS k.mem as

theorem asDefineRegion_granted (hr : r.Fits32) (ho : InOrder k.mem as)
    (hfree : 0 < freeSlots k.mem as) : (asDefineRegion as r.vaddr r.sz k).1 = 0 ∧
      Granted k as r (asDefineRegion as r.vaddr r.sz k).2 := by
  have hv := roundDown_lt hr.1
  have hn := regionPages_lt r.vaddr r.sz
  by_cases h1 : asNpages1 k.mem as = 0
  · have h2 := ho h1
    simp only [asDefineRegion, if_pos h1]
    generalize hm : (k.mem.setWord as (roundDown r.vaddr)).setWord (as + 4) _ = m
    have hbase : asVbase1 m as = roundDown r.vaddr := by
      rw [← hm, asVbase1, ByteStore.word_setWord_of_disjoint (by omega),
        ByteStore.word_setWord_self _ _ hv]
    have hpages : asNpages1 m as = regionPages r.vaddr r.sz := by
      rw [← hm, asNpages1]
      exact ByteStore.word_setWord_self _ _ hn
    have hbase2 : asVbase2 m as = asVbase2 k.mem as := by
      rw [← hm, asVbase2, ByteStore.word_setWord_of_disjoint (by omega),
        ByteStore.word_setWord_of_disjoint (by omega), asVbase2]
    have hpages2 : asNpages2 m as = 0 := by
      rw [← hm, asNpages2, ByteStore.word_setWord_of_disjoint (by omega),
        ByteStore.word_setWord_of_disjoint (by omega)]
      exact h2
    have hstack : asNpagesS m as = asNpagesS k.mem as := by
      rw [← hm, asNpagesS, ByteStore.word_setWord_of_disjoint (by omega),
        ByteStore.word_setWord_of_disjoint (by omega), asNpagesS]
    refine ⟨trivial, ?_, fun _ => hpages2, ?_, hstack⟩
    · simp only [freeSlots, hpages, hpages2, h1, if_true]
    · intro a
      simp only [SlotsAccept, Request.Accepts, hbase, hpages, hpages2, h1, h2, no_pages, or_false,
        false_or]
  · have h2 : asNpages2 k.mem as = 0 := by
      by_contra hno
      simp [freeSlots, h1, hno] at hfree
    simp only [asDefineRegion, if_neg h1, if_pos h2]
    generalize hm : (k.mem.setWord (as + 8) (roundDown r.vaddr)).setWord (as + 12) _ = m
    have hbase : asVbase2 m as = roundDown r.vaddr := by
      rw [← hm, asVbase2, ByteStore.word_setWord_of_disjoint (by omega),
        ByteStore.word_setWord_self _ _ hv]
    have hpages : asNpages2 m as = regionPages r.vaddr r.sz := by
      rw [← hm, asNpages2]
      exact ByteStore.word_setWord_self _ _ hn
    have hbase1 : asVbase1 m as = asVbase1 k.mem as := by
      rw [← hm, asVbase1, ByteStore.word_setWord_of_disjoint (by omega),
        ByteStore.word_setWord_of_disjoint (by omega), asVbase1]
    have hpages1 : asNpages1 m as = asNpages1 k.mem as := by
      rw [← hm, asNpages1, ByteStore.word_setWord_of_disjoint (by omega),
        ByteStore.word_setWord_of_disjoint (by omega), asNpages1]
    have hstack : asNpagesS m as = asNpagesS k.mem as := by
      rw [← hm, asNpagesS, ByteStore.word_setWord_of_disjoint (by omega),
        ByteStore.word_setWord_of_disjoint (by omega), asNpagesS]
    refine ⟨trivial, ?_, fun h => absurd (hpages1.symm.trans h) h1, ?_, hstack⟩
    · simp only [freeSlots, hpages, hpages1, h1, h2, if_true, if_false]
    · intro a
      simp only [SlotsAccept, Request.Accepts, hbase, hpages, hbase1, hpages1, h2, no_pages,
        or_false]

private theorem asDefineRegion_refused (hfree : freeSlots k.mem as = 0) :
    asDefineRegion as r.vaddr r.sz k = (eunimp, k) := by
  by_cases h1 : asNpages1 k.mem as = 0
  · simp [freeSlots, h1] at hfree
  · by_cases h2 : asNpages2 k.mem as = 0
    · simp [freeSlots, h1, h2] at hfree
    · simp only [asDefineRegion, if_neg h1, if_neg h2]

theorem asDefineStack_fields :
    freeSlots (asDefineStack as k).2.2.mem as = freeSlots k.mem as ∧
      (InOrder k.mem as → InOrder (asDefineStack as k).2.2.mem as) ∧
      (∀ a, SlotsAccept (asDefineStack as k).2.2.mem as a ↔ SlotsAccept k.mem as a) ∧
      asNpagesS (asDefineStack as k).2.2.mem as = stackpages := by
  simp only [asDefineStack]
  have hbase1 : asVbase1 (k.mem.setWord (as + 16) stackpages) as = asVbase1 k.mem as :=
    ByteStore.word_setWord_of_disjoint (by omega)
  have hpages1 : asNpages1 (k.mem.setWord (as + 16) stackpages) as = asNpages1 k.mem as :=
    ByteStore.word_setWord_of_disjoint (by omega)
  have hbase2 : asVbase2 (k.mem.setWord (as + 16) stackpages) as = asVbase2 k.mem as :=
    ByteStore.word_setWord_of_disjoint (by omega)
  have hpages2 : asNpages2 (k.mem.setWord (as + 16) stackpages) as = asNpages2 k.mem as :=
    ByteStore.word_setWord_of_disjoint (by omega)
  have hstack : asNpagesS (k.mem.setWord (as + 16) stackpages) as = stackpages :=
    ByteStore.word_setWord_self _ _ (by decide)
  simp only [freeSlots, InOrder, SlotsAccept, hbase1, hpages1, hbase2, hpages2, hstack]
  exact ⟨trivial, fun h => h, fun _ => trivial, trivial⟩

private theorem served_stack (n : Nat) (ops : List SegOp) : served n (.stack :: ops) = served n ops := by
  cases n with
  | zero => rfl
  | succ n => rfl

private theorem defineAll_granted (h : (asDefineRegion as r.vaddr r.sz k).1 = 0) :
    defineAll as (.region r :: ops) k =
      (r :: (defineAll as ops (asDefineRegion as r.vaddr r.sz k).2).1,
        (defineAll as ops (asDefineRegion as r.vaddr r.sz k).2).2) := by
  rw [defineAll, if_pos h]

private theorem defineAll_refused (h : asDefineRegion as r.vaddr r.sz k = (eunimp, k)) :
    defineAll as (.region r :: ops) k = defineAll as ops k := by
  have hcode : ¬ eunimp = 0 := by decide
  rw [defineAll, h, if_neg hcode]

theorem defineAll_spec (hops : ∀ r, .region r ∈ ops → r.Fits32) (ho : InOrder k.mem as) :
    (defineAll as ops k).1 = served (freeSlots k.mem as) ops ∧
      (∀ a, SlotsAccept (defineAll as ops k).2.mem as a ↔ SlotsAccept k.mem as a ∨
        ∃ r ∈ served (freeSlots k.mem as) ops, r.Accepts a) ∧
      asNpagesS (defineAll as ops k).2.mem as =
        if .stack ∈ ops then stackpages else asNpagesS k.mem as := by
  induction ops generalizing k with
  | nil => simp [defineAll, served]
  | cons op ops ih =>
    have hrest : ∀ r, .region r ∈ ops → r.Fits32 := fun r hr => hops r (by simp [hr])
    cases op with
    | stack =>
      obtain ⟨hfree, hord, haccept, hstack⟩ := @asDefineStack_fields as k
      obtain ⟨hgranted, hslots, hnpages⟩ := ih hrest (hord ho)
      rw [hfree] at hgranted hslots
      rw [hstack] at hnpages
      refine ⟨?_, ?_, ?_⟩
      · rw [defineAll, hgranted, served_stack]
      · intro a
        rw [defineAll, hslots a, haccept a, served_stack]
      · rw [defineAll, hnpages]
        simp
    | region r =>
      have hr : r.Fits32 := hops r (by simp)
      have hmem : SegOp.stack ∈ SegOp.region r :: ops ↔ .stack ∈ ops := by simp
      cases hn : freeSlots k.mem as with
      | zero =>
        have hrefused := asDefineRegion_refused (r := r) hn
        have h := ih hrest ho
        rw [hn] at h
        rw [defineAll_refused hrefused, served]
        simp only [hmem]
        exact h
      | succ n =>
        obtain ⟨hzero, hgrant⟩ := asDefineRegion_granted hr ho (by omega)
        obtain ⟨hgranted, hslots, hnpages⟩ := ih hrest hgrant.inOrder
        have hfree : freeSlots (asDefineRegion as r.vaddr r.sz k).2.mem as =
            if regionPages r.vaddr r.sz = 0 then n + 1 else n := by
          rw [hgrant.slots, hn, Nat.add_sub_cancel]
        rw [hfree] at hgranted hslots
        rw [defineAll_granted hzero, served]
        refine ⟨?_, ?_, ?_⟩
        · rw [hgranted]
        · intro a
          rw [hslots a, hgrant.accepts a]
          simp only [List.mem_cons, exists_eq_or_imp, or_assoc]
        · rw [hnpages, hgrant.stack]
          simp only [hmem]

private theorem checks_iff {P Q R : Prop} [Decidable P] [Decidable Q] [Decidable R] :
    (if P then 0 else if Q then 0 else if R then 0 else efault) = 0 ↔ (P ∨ Q) ∨ R := by
  by_cases hP : P
  · simp [hP]
  · by_cases hQ : Q
    · simp [hQ]
    · simp [hP, hQ, efault]

private theorem Fresh.spec (h : Fresh k.mem as) (hops : ∀ r, .region r ∈ ops → r.Fits32) :
    (defineAll as ops k).1 = served 2 ops ∧
      ∀ a, asCheckAccess (defineAll as ops k).2.mem as a = 0 ↔
        (∃ r ∈ served 2 ops, r.Accepts a) ∨ (.stack ∈ ops ∧ OnStack a) := by
  have hfree : freeSlots k.mem as = 2 := by simp [freeSlots, h.npages1]
  obtain ⟨hgranted, hslots, hstack⟩ := @defineAll_spec as k ops hops fun _ => h.npages2
  rw [hfree] at hgranted hslots
  refine ⟨hgranted, fun a => ?_⟩
  have hnone : ¬ SlotsAccept k.mem as a := by
    simp only [SlotsAccept, h.npages1, h.npages2, no_pages, or_self, not_false_eq_true]
  have hcheck : asCheckAccess (defineAll as ops k).2.mem as a = 0 ↔
      SlotsAccept (defineAll as ops k).2.mem as a ∨ (.stack ∈ ops ∧ OnStack a) := by
    have hon : ((userstack + 2 ^ 32 - asNpagesS (defineAll as ops k).2.mem as * pageSize % 2 ^ 32) %
        2 ^ 32 ≤ a ∧ a < userstack) ↔ (.stack ∈ ops ∧ OnStack a) := by
      rw [hstack, h.npagesS]
      by_cases hmem : SegOp.stack ∈ ops
      · simp only [hmem, if_true, true_and, OnStack, userstack, stackpages, mipsKseg0, pageSize]
        omega
      · simp only [hmem, if_false, false_and, iff_false, userstack, mipsKseg0, pageSize]
        omega
    rw [asCheckAccess, checks_iff, hon]
    rfl
  rw [hcheck, hslots a]
  simp only [hnone, false_or]

theorem accepts_below (hs : r.sz ≠ 0) (htop : r.vaddr + r.sz ≤ userTop) :
    (∀ a, a % pageSize = 0 → (r.Accepts a ↔ r.Touches a)) ∧ ∀ a, r.Accepts a → a < userTop := by
  simp only [Request.Accepts, Request.Touches, regionPages, roundDown, userTop, mipsKseg0,
    pageSize] at *
  constructor
  · intro a ha
    omega
  · intro a ha
    omega

theorem touches_above (hr : r.Fits32) (hs : r.sz ≠ 0) (htop : ¬ r.vaddr + r.sz ≤ userTop) :
    ∃ a, a < 2 ^ 32 ∧ a % pageSize = 0 ∧ userTop ≤ a ∧ r.Touches a := by
  have hlt := hr.1
  simp only [Request.Touches, userTop, mipsKseg0, pageSize] at *
  by_cases hv : r.vaddr < 0x80000000
  · exact ⟨0x80000000, by omega, by omega, by omega, by omega⟩
  · exact ⟨r.vaddr / 4096 * 4096, by omega, by omega, by omega, by omega⟩

theorem accepts_empty (hr : r.Fits32) (hs : r.sz = 0) (a : Nat) :
    r.Accepts a ↔ r.vaddr % pageSize ≠ 0 ∧ roundDown r.vaddr ≠ 2 ^ 32 - pageSize ∧
      roundDown r.vaddr ≤ a ∧ a < roundDown r.vaddr + pageSize := by
  have hlt := hr.1
  simp only [Request.Accepts, regionPages, roundDown, pageSize, hs] at *
  omega

private theorem roundDown_aligned (v : Nat) : roundDown v % pageSize = 0 := by
  simp only [roundDown, pageSize]
  omega

private theorem served_mem {n : Nat} (h : r ∈ served n ops) : .region r ∈ ops := by
  induction ops generalizing n with
  | nil =>
    rw [served] at h
    cases h
  | cons op ops ih =>
    cases op with
    | stack =>
      rw [served_stack] at h
      exact List.mem_cons_of_mem _ (ih h)
    | region q =>
      cases n with
      | zero =>
        rw [served] at h
        exact List.mem_cons_of_mem _ (ih h)
      | succ n =>
        rw [served, List.mem_cons] at h
        cases h with
        | inl heq =>
          rw [heq]
          exact List.mem_cons_self
        | inr hmem => exact List.mem_cons_of_mem _ (ih hmem)

theorem page_below (h : (∃ q ∈ served 2 ops, q.Touches (roundDown n)) ∨
      (.stack ∈ ops ∧ OnStack (roundDown n)))
    (htop : ∀ q ∈ served 2 ops, q.sz ≠ 0 → q.vaddr + q.sz ≤ userTop)
    (ha : a < roundDown n + pageSize) : a < userTop := by
  have haligned := roundDown_aligned n
  cases h with
  | inl h =>
    obtain ⟨q, hq, hpos, hhi, _⟩ := h
    have hq := htop q hq (by omega)
    simp only [userTop, mipsKseg0, pageSize] at *
    omega
  | inr h =>
    have hstack := h.2.2
    simp only [userTop, userstack, mipsKseg0, pageSize] at *
    omega

/-- The accepted pages are those of the granted segments and the stack if and only if the
requests keep below `USERTOP` and no empty one takes a page of its own. -/
theorem segments_exact (k : KernelSt) (as : Nat) (ops : List SegOp) (hfresh : Fresh k.mem as)
    (hops : ∀ r, .region r ∈ ops → r.Fits32) : Exact as ops k ↔ Sound ops := by
  obtain ⟨hgranted, hcheck⟩ := hfresh.spec hops
  have hfits : ∀ r ∈ served 2 ops, r.Fits32 := fun r hr => hops r (served_mem hr)
  constructor
  · intro hexact r hr
    have hpages := hexact.pages
    rw [hgranted] at hpages
    constructor
    · intro hs
      by_contra htop
      obtain ⟨a, ha, haligned, hge, htouch⟩ := touches_above (hfits r hr) hs htop
      have haccept := (hpages a ha haligned).mpr (Or.inl ⟨r, hr, htouch⟩)
      have hlt := hexact.user a ha haccept
      omega
    · intro hs hoff
      by_cases hlast : roundDown r.vaddr = 2 ^ 32 - pageSize
      · exact Or.inl hlast
      · right
        have haccept : r.Accepts (roundDown r.vaddr) := by
          rw [accepts_empty (hfits r hr) hs]
          exact ⟨hoff, hlast, Nat.le_refl _, by simp [pageSize]⟩
        have hlt := roundDown_lt (hfits r hr).1
        exact (hpages _ hlt (roundDown_aligned _)).mp ((hcheck _).mpr (Or.inl ⟨r, hr, haccept⟩))
  · intro hsound
    have htop : ∀ q ∈ served 2 ops, q.sz ≠ 0 → q.vaddr + q.sz ≤ userTop :=
      fun q hq => (hsound q hq).1
    have hempty : ∀ r ∈ served 2 ops, r.sz = 0 → ∀ a, r.Accepts a →
        ((∃ q ∈ served 2 ops, q.Touches (roundDown r.vaddr)) ∨
          (.stack ∈ ops ∧ OnStack (roundDown r.vaddr))) ∧
        roundDown r.vaddr ≤ a ∧ a < roundDown r.vaddr + pageSize := by
      intro r hr hs a haccept
      rw [accepts_empty (hfits r hr) hs] at haccept
      obtain ⟨hoff, hlast, hrange⟩ := haccept
      exact ⟨((hsound r hr).2 hs hoff).resolve_left hlast, hrange⟩
    constructor
    · intro a ha haligned
      rw [hcheck, hgranted]
      constructor
      · intro h
        cases h with
        | inr hstack => exact Or.inr hstack
        | inl h =>
          obtain ⟨r, hr, haccept⟩ := h
          by_cases hs : r.sz = 0
          · obtain ⟨hpage, hlo, hhi⟩ := hempty r hr hs a haccept
            have hbase := roundDown_aligned r.vaddr
            have heq : roundDown r.vaddr = a := by
              simp only [pageSize] at *
              omega
            rwa [heq] at hpage
          · exact Or.inl ⟨r, hr, ((accepts_below hs (htop r hr hs)).1 a haligned).mp haccept⟩
      · intro h
        cases h with
        | inr hstack => exact Or.inr hstack
        | inl h =>
          obtain ⟨r, hr, htouch⟩ := h
          have hs : r.sz ≠ 0 := Nat.pos_iff_ne_zero.mp htouch.1
          exact Or.inl ⟨r, hr, ((accepts_below hs (htop r hr hs)).1 a haligned).mpr htouch⟩
    · intro a _ haccept
      rw [hcheck] at haccept
      cases haccept with
      | inr hstack => exact hstack.2.2
      | inl h =>
        obtain ⟨r, hr, haccept⟩ := h
        by_cases hs : r.sz = 0
        · obtain ⟨hpage, _, hhi⟩ := hempty r hr hs a haccept
          exact page_below hpage htop hhi
        · exact (accepts_below hs (htop r hr hs)).2 a haccept

/-- `as_create` hands out an address space without segments. -/
theorem fresh_asCreate {k k' : KernelSt} {as : Nat} (h : asCreate k = some (as, k'))
    (has : as ≠ 0) : Fresh k'.mem as := by
  rw [asCreate, Option.bind_eq_some_iff] at h
  obtain ⟨⟨ptr, k₁⟩, _, h⟩ := h
  by_cases hptr : ptr = 0
  · simp only [hptr, if_true, Option.some.injEq, Prod.mk.injEq] at h
    exact absurd h.1.symm has
  · simp only [hptr, if_false, asSetup] at h
    generalize hpt : ptCreate { k₁ with mem := clearWords k₁.mem ptr 5 } = q at h
    by_cases hq : q.1 = 0
    · rw [if_pos hq, Option.map_eq_some_iff] at h
      obtain ⟨_, _, h⟩ := h
      cases h
      exact absurd rfl has
    · rw [if_neg hq] at h
      cases h
      have hmem : q.2.mem = clearWords (clearWords k₁.mem as 5) q.1 ptFanout := by
        rw [← hpt] at hq ⊢
        simp only [ptCreate, tableCreate] at hq ⊢
        split at hq
        · exact absurd rfl hq
        · rename_i hne
          rw [if_neg hne]
      have hword (i : Nat) (hi : i < 5) : (q.2.mem.setWord (as + 20) q.1).word (as + 4 * i) = 0 := by
        rw [ByteStore.word_setWord_of_disjoint (by omega), hmem]
        simp only [clearWords, ByteStore.foldl_setWord_zero]
        have hbyte (x : Nat) (hlo : as ≤ x) (hhi : x < as + 20) :
            ((k₁.mem.fill as (4 * 5) 0).fill q.1 (4 * ptFanout) 0) x = 0 := by
          by_cases hx : q.1 ≤ x ∧ x < q.1 + 4 * ptFanout
          · exact ByteStore.fill_of_inside hx.1 hx.2
          · rw [ByteStore.fill_of_outside (by omega), ByteStore.fill_of_inside hlo (by omega)]
        simp only [ByteStore.word]
        rw [hbyte _ (by omega) (by omega), hbyte _ (by omega) (by omega),
          hbyte _ (by omega) (by omega), hbyte _ (by omega) (by omega)]
        rfl
      exact ⟨hword 1 (by decide), hword 3 (by decide), hword 4 (by decide)⟩

private theorem blank_fits : mipsKseg0 + 2 * pageSize - mipsKseg0 ≤
    min (16 * pageSize) (508 * 1024 * 1024) := by
  decide

private theorem blank_above : mipsKseg0 + 2 * pageSize ≤ mipsKseg0 + 2 * pageSize := Nat.le_refl _

/-- A kernel with an address space at 0x1000 whose fields are clear. -/
def blank : KernelSt := ⟨Kheap.initial, fun _ => 0, ramBootstrap
  { firstfree := mipsKseg0 + 2 * pageSize
    ramsize := 16 * pageSize
    firstfree_aligned := rfl
    ramsize_aligned := rfl
    above_kernel := blank_above
    fits := blank_fits }⟩

private theorem fresh_blank : Fresh blank.mem 0x1000 := ⟨rfl, rfl, rfl⟩

/-- A text segment, a data segment and the stack. -/
def program : List SegOp :=
  [.region ⟨0x400000, 0x1234⟩, .region ⟨0x10000010, 0x20⟩, .stack]

theorem segments_exact_program : Exact 0x1000 program blank := by
  have hserved : served 2 program = [⟨0x400000, 0x1234⟩, ⟨0x10000010, 0x20⟩] := by decide
  apply (segments_exact blank 0x1000 program fresh_blank ?_).2
  · intro r hr
    have hall : ∀ r ∈ served 2 program, r.sz ≠ 0 ∧ r.vaddr + r.sz ≤ userTop := by
      rw [hserved]
      decide
    exact ⟨fun _ => (hall r hr).2, fun hs => absurd hs (hall r hr).1⟩
  · intro r hr
    have hall : ∀ op ∈ program, op = .stack ∨ ∃ r : Request, op = .region r ∧ r.Fits32 := by
      simp [program, Request.Fits32]
    cases hall _ hr with
    | inl h => cases h
    | inr h =>
      obtain ⟨q, hq, hfits⟩ := h
      cases hq
      exact hfits

/-- The end of a segment of 2^32 - 1 bytes is rounded up past the end of the word, to no pages. -/
theorem segment_dropped : ¬ ∀ (k : KernelSt) (as : Nat) (ops : List SegOp), Fresh k.mem as →
    (∀ r, .region r ∈ ops → r.Fits32) → Exact as ops k := by
  intro hall
  have hexact := hall blank 0x1000 [.region ⟨0x1000, 2 ^ 32 - 1⟩] fresh_blank (by
    intro r hr
    have hr : r = ⟨0x1000, 2 ^ 32 - 1⟩ := by simpa using hr
    rw [hr]
    decide)
  have hpage := (hexact.pages 0x1000 (by decide) (by decide)).mpr (Or.inl
    ⟨⟨0x1000, 2 ^ 32 - 1⟩, by decide +kernel, by decide⟩)
  exact absurd hpage (by decide +kernel)

end Segments

end CseOs.Kernel
