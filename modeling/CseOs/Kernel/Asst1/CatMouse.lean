import CseOs.Kernel.Thread.Semaphores

/-!
# Cats and mice: `catmouse.c` and `bowls.c`

Threads that stand for cats and mice eat from shared bowls. The state that `bowls.c` keeps of them is
guarded by a semaphore, and `catmouse` waits for all of them on another one. Between any two statements
that touch that state or a semaphore, other threads and interrupt handlers may come.
-/

namespace CseOs.Kernel.CatMouse

open Framework

inductive Kind where
  | cat
  | mouse
deriving DecidableEq, Repr

def Kind.other : Kind → Kind
  | .cat => .mouse
  | .mouse => .cat

/-- Where a thread is in `cat_eat` or `mouse_eat`, and at which bowl -/
inductive Pc where
  | resting
  /-- `P(mutex)` was called. -/
  | entering (bowl : Nat)
  | checked (bowl : Nat)
  | counted (bowl : Nat)
  | marked (bowl : Nat)
  | eating (bowl : Nat)
  /-- `P(mutex)` was called again. -/
  | leaving (bowl : Nat)
  | uncounted (bowl : Nat)
  | cleared (bowl : Nat)

/-- A thread in `cat_simulation` or `mouse_simulation`, with its loop counter -/
structure Animal where
  kind : Kind
  i : Nat
  pc : Pc

/-- Where the thread is that runs `catmouse`. After `called` it is in a `P`, or back from it. -/
inductive Stage where
  | start
  | created
  | forking (index : Nat)
  | waiting (i : Nat)
  | called (i : Nat)
  | done

/-- The parameters of a simulation, the addresses of its semaphores and the thread in `catmouse`. The
sum of cats and mice is an `int`. -/
structure Setup (Addr : Type) where
  mutex : Addr
  catMouseWait : Addr
  numBowls : Nat
  numCats : Nat
  numMice : Nat
  numLoops : Nat
  main : Nat
  distinct : mutex ≠ catMouseWait
  small : numCats + numMice < 2 ^ 31

/-- In `bowls` nothing is `-`; `eating` has `eating_cats_count` and `eating_mice_count`. -/
structure State (Addr : Type) where
  synch : Synch Addr
  bowls : List (Option Kind)
  eating : Kind → Int
  animal : Nat → Option Animal
  stage : Stage

/-- Why the kernel stops -/
inductive Halt where
  | panic
  | assertion

variable {Addr : Type} [DecidableEq Addr]

namespace State

def setSynch (synch : Synch Addr) (c : State Addr) : State Addr := { c with synch := synch }

def setAnimal (t : Nat) (a : Option Animal) (c : State Addr) : State Addr :=
  { c with animal := Function.update c.animal t a }

def setEating (kind : Kind) (n : Int) (c : State Addr) : State Addr :=
  { c with eating := Function.update c.eating kind n }

def setBowl (bowl : Nat) (kind : Option Kind) (c : State Addr) : State Addr :=
  { c with bowls := c.bowls.set (bowl - 1) kind }

def setStage (stage : Stage) (c : State Addr) : State Addr := { c with stage := stage }

def withMemory (answers : Nat → Bool) (c : State Addr) : State Addr :=
  c.setSynch (c.synch.withMemory answers)

/-- A call of `P` or `V`; `none` is an assertion that failed there. -/
def call (r : Option (Synch Addr)) (c : State Addr) : Except Halt (State Addr) :=
  match r with
  | none => .error .assertion
  | some synch => .ok (c.setSynch synch)

end State

open State

/-- `cat_eat` and `mouse_eat`, up to the call of `P(mutex)` -/
def eat (S : Setup Addr) (t : Nat) (a : Animal) (bowl : Nat) (answers : Nat → Bool) (c : State Addr) :
    Except Halt (State Addr) :=
  if bowl = 0 ∨ c.bowls.length < bowl then .error .panic
  else
    (c.setAnimal t (some { a with pc := .entering bowl })).call
      ((c.synch.withMemory answers).P S.mutex)

/-- The checks of the simulation requirements -/
def check (t : Nat) (a : Animal) (bowl : Nat) (c : State Addr) : Except Halt (State Addr) :=
  if c.bowls[bowl - 1]? = some (some a.kind) then .error .panic
  else if 0 < c.eating a.kind.other then .error .panic
  else if c.bowls[bowl - 1]? ≠ some none ∨ c.eating a.kind.other ≠ 0 then .error .assertion
  else .ok (c.setAnimal t (some { a with pc := .checked bowl }))

/-- The end of a meal: a cat checks its bowl before the count is changed, a mouse after that. -/
def uncount (t : Nat) (a : Animal) (bowl : Nat) (c : State Addr) : Except Halt (State Addr) :=
  if c.eating a.kind ≤ 0 ∨ a.kind = .cat ∧ c.bowls[bowl - 1]? ≠ some (some .cat) then
    .error .assertion
  else
    .ok ((c.setEating a.kind (c.eating a.kind - 1)).setAnimal t (some { a with pc := .uncounted bowl }))

def clear (t : Nat) (a : Animal) (bowl : Nat) (c : State Addr) : Except Halt (State Addr) :=
  if a.kind = .mouse ∧ c.bowls[bowl - 1]? ≠ some (some .mouse) then .error .assertion
  else .ok ((c.setBowl bowl none).setAnimal t (some { a with pc := .cleared bowl }))

/-- One step of `cat_simulation` or `mouse_simulation`; a new meal is from the bowl given. -/
def animalStep (S : Setup Addr) (t : Nat) (a : Animal) (bowl : Nat) (answers : Nat → Bool)
    (c : State Addr) : Except Halt (State Addr) :=
  let synch := c.synch.withMemory answers
  match a.pc with
  | .resting =>
    if a.i < S.numLoops then eat S t a bowl answers c
    else (c.setAnimal t none).call (synch.V S.catMouseWait)
  | .entering b => check t a b c
  | .checked b =>
    .ok ((c.setEating a.kind (c.eating a.kind + 1)).setAnimal t (some { a with pc := .counted b }))
  | .counted b => .ok ((c.setBowl b (some a.kind)).setAnimal t (some { a with pc := .marked b }))
  | .marked b => (c.setAnimal t (some { a with pc := .eating b })).call (synch.V S.mutex)
  | .eating b => (c.setAnimal t (some { a with pc := .leaving b })).call (synch.P S.mutex)
  | .leaving b => uncount t a b c
  | .uncounted b => clear t a b c
  | .cleared _ =>
    (c.setAnimal t (some { a with i := a.i + 1, pc := .resting })).call (synch.V S.mutex)

/-- `sem_create`, with a panic when it returns `NULL` -/
def create (sem : Addr) (count : Int) (c : State Addr) : Except Halt (State Addr) :=
  match c.synch.semCreate sem count with
  | none => .error .assertion
  | some (none, _) => .error .panic
  | some (some _, synch) => .ok (c.setSynch synch)

/-- `initialize_bowls`; the bowls themselves are allocated first. -/
def initializeBowls (S : Setup Addr) (answers : Nat → Bool) (c : State Addr) :
    Except Halt (State Addr) :=
  if S.numBowls = 0 ∨ answers 0 = false then .error .panic
  else create S.mutex 1 { c.withMemory (fun i => answers (i + 1)) with
    bowls := List.replicate S.numBowls none, eating := fun _ => 0 }

/-- The threads of the cats come first. -/
def newborn (S : Setup Addr) (index : Nat) : Animal :=
  ⟨if index < S.numCats then .cat else .mouse, 0, .resting⟩

def forkNext (S : Setup Addr) (newguy index : Nat) (c : State Addr) : Except Halt (State Addr) :=
  match c.synch.threads.threadFork newguy with
  | none => .error .assertion
  | some (some _, _) => .error .panic
  | some (none, threads) => .ok (((c.setSynch { c.synch with threads := threads }).setAnimal newguy
      (some (newborn S index))).setStage (.forking (index + 1)))

/-- One step of `catmouse` -/
def mainStep (S : Setup Addr) (newguy : Nat) (answers : Nat → Bool) (c : State Addr) :
    Except Halt (State Addr) :=
  match c.stage with
  | .start => create S.catMouseWait 0 ((c.withMemory answers).setStage .created)
  | .created => initializeBowls S answers (c.setStage (.forking 0))
  | .forking index =>
    if index < S.numCats + S.numMice then forkNext S newguy index (c.withMemory answers)
    else .ok (c.setStage (.waiting 0))
  | .waiting i =>
    if i < S.numCats + S.numMice then
      (c.setStage (.called i)).call ((c.synch.withMemory answers).P S.catMouseWait)
    else (c.setStage .done).call ((c.synch.withMemory answers).semDestroy S.catMouseWait)
  | .called i => .ok (c.setStage (.waiting (i + 1)))
  | .done => .ok c

/-- The addresses of the semaphores and of a new thread are not in use. -/
structure Fresh (S : Setup Addr) (newguy : Nat) (c : State Addr) : Prop where
  start : c.stage = .start → (Synch.Event.create S.catMouseWait 0).Legal c.synch
  created : c.stage = .created → (Synch.Event.create S.mutex 1).Legal c.synch
  forking : c.synch.threads.created newguy = false

/-- What the rest of the kernel does: it leaves the two semaphores alone, and no thread of the
simulation exits before its function returns. -/
structure Foreign (S : Setup Addr) (c : State Addr) (e : Synch.Event Addr) : Prop where
  legal : e.Legal c.synch
  mutex : e.Apart S.mutex
  wait : e.Apart S.catMouseWait
  exit : e = .thread .exit → ∀ t, c.synch.threads.curthread = some t →
    c.animal t = none ∧ (t = S.main → c.stage = .done)

/-- One step of the current thread, or of the rest of the kernel -/
inductive Step (S : Setup Addr) (c : State Addr) : State Addr → Prop
  | animal {c' : State Addr} (t : Nat) (a : Animal) (bowl : Nat) (answers : Nat → Bool) :
      c.synch.threads.curthread = some t → c.animal t = some a → 1 ≤ bowl → bowl ≤ S.numBowls →
      animalStep S t a bowl answers c = .ok c' → Step S c c'
  | main {c' : State Addr} (newguy : Nat) (answers : Nat → Bool) :
      c.synch.threads.curthread = some S.main → Fresh S newguy c →
      mainStep S newguy answers c = .ok c' → Step S c c'
  | other {synch : Synch Addr} (e : Synch.Event Addr) (answers : Nat → Bool) :
      Foreign S c e → e.apply (c.synch.withMemory answers) = some synch → Step S c (c.setSynch synch)

/-- `catmouse` is called in some state of the kernel. -/
structure Starts (S : Setup Addr) (c : State Addr) : Prop where
  run : Reachable Synch.Boots Synch.Step c.synch
  main : c.synch.threads.curthread = some S.main
  mutex : c.synch.sems S.mutex = none
  wait : c.synch.sems S.catMouseWait = none
  animal : c.animal = fun _ => none
  stage : c.stage = .start

end CseOs.Kernel.CatMouse
