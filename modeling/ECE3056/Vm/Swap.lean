import Mathlib.Logic.Function.Basic

/-!
# Swap space

The swap queue of `swap.c` and the three operations of `swapops.c`. The queue is
kept as the C code keeps it: heap cells with a `next` link, a head, a tail and
two counters.

A cell's address is the token it was created with, so a fresh `calloc` never
returns the address of another cell. Counters and tokens are natural numbers;
they agree with `uint64_t` as long as fewer than 2^64 entries are created.
-/

namespace ECE3056.Vm

/-- How a run of the simulator can end early. -/
inductive Fault
  /-- A call of `panic` with its message. -/
  | panic (message : String)
  /-- Behaviour that C leaves undefined, or storage used under the wrong type. -/
  | undefined
  /-- A loop that never leaves a cyclic list. -/
  | diverges
  deriving DecidableEq, Repr

/-- The bytes of one page, by offset. -/
abbrev Page := Nat → UInt8

/-- `memset(_, 0, PAGE_SIZE)` -/
def zeroPage : Page := fun _ => 0

/-- `pte_t` -/
structure Pte where
  valid : UInt8 := 0
  dirty : UInt8 := 0
  pfn : Nat := 0
  swap : Nat := 0

/-- `swap_info_t` -/
structure SwapInfo where
  token : Nat
  pageData : Page
  next : Option Nat

/-- `swap_queue_t`, with the heap cells it links and the static `TOKEN`. -/
structure SwapQueue where
  head : Option Nat
  tail : Option Nat
  size : Nat
  sizeMax : Nat
  TOKEN : Nat
  cells : Nat → Option SwapInfo

namespace SwapQueue

def empty : SwapQueue where
  head := none
  tail := none
  size := 0
  sizeMax := 0
  TOKEN := 1
  cells := fun _ => none

/-- Dereference a cell; a cell that was never created or was freed is undefined. -/
def deref (q : SwapQueue) (a : Nat) : Except Fault SwapInfo :=
  match q.cells a with
  | some info => .ok info
  | none => .error .undefined

def setNext (q : SwapQueue) (a : Nat) (next : Option Nat) : Except Fault SwapQueue := do
  let info ← q.deref a
  return { q with cells := Function.update q.cells a (some { info with next := next }) }

def setPageData (q : SwapQueue) (a : Nat) (page : Page) : Except Fault SwapQueue := do
  let info ← q.deref a
  return { q with cells := Function.update q.cells a (some { info with pageData := page }) }

end SwapQueue

/-- `create_entry`: a zeroed cell with the next token. -/
def createEntry (q : SwapQueue) : Nat × SwapQueue :=
  (q.TOKEN,
    { q with
      TOKEN := q.TOKEN + 1
      cells := Function.update q.cells q.TOKEN (some ⟨q.TOKEN, zeroPage, none⟩) })

/-- `swap_queue_enqueue` -/
def swapQueueEnqueue (q : SwapQueue) (info : Nat) : Except Fault SwapQueue := do
  let q ← q.setNext info none
  let q ← match q.head, q.tail with
    | none, _ => pure { q with head := some info, tail := some info }
    | some _, none => throw .undefined
    | some _, some tail => do
      let q ← q.setNext tail (some info)
      pure { q with tail := some info }
  let q := { q with size := q.size + 1 }
  return { q with sizeMax := if q.size > q.sizeMax then q.size else q.sizeMax }

/-- The body of the loop of `swap_queue_dequeue` at the cell that holds the token. -/
def unlink (q : SwapQueue) (prev : Option Nat) (curr : Nat) (next : Option Nat) :
    Except Fault SwapQueue := do
  let q ← match prev with
    | some prev => q.setNext prev next
    | none => pure { q with head := next }
  return { q with tail := if some curr = q.tail then prev else q.tail }

/-- The loop of `swap_queue_dequeue`, from the cells `prev` and `curr`. It returns
the queue with `curr` unlinked, or no cell when the token was not found. -/
def dequeueLoop (q : SwapQueue) (token : Nat) :
    Nat → Option Nat → Option Nat → Except Fault (SwapQueue × Option Nat)
  | _, _, none => .ok (q, none)
  | 0, _, some _ => .error .diverges
  | fuel + 1, prev, some curr => do
    let info ← q.deref curr
    if info.token = token then return (← unlink q prev curr info.next, some curr)
    else dequeueLoop q token fuel (some curr) info.next

/-- `swap_queue_dequeue`. A list without a cycle has fewer than `TOKEN` cells, which
bounds the loop. -/
def swapQueueDequeue (q : SwapQueue) (token : Nat) : Except Fault SwapQueue := do
  let (q, curr) ← dequeueLoop q token q.TOKEN none q.head
  let q := { q with size := q.size - 1 }
  match curr with
  | none => throw .undefined  -- curr->next with curr == NULL
  | some curr =>
    let q ← q.setNext curr none
    return { q with cells := Function.update q.cells curr none }

/-- The loop of `swap_queue_find`. -/
def findLoop (q : SwapQueue) (token : Nat) : Nat → Option Nat → Except Fault (Option Nat)
  | _, none => .ok none
  | 0, some _ => .error .diverges
  | fuel + 1, some curr => do
    let info ← q.deref curr
    if info.token = token then return some curr else findLoop q token fuel info.next

/-- `swap_queue_find` -/
def swapQueueFind (q : SwapQueue) (token : Nat) : Except Fault (Option Nat) :=
  findLoop q token q.TOKEN q.head

/-- `swap_read`: the page copied to `dst`. -/
def swapRead (q : SwapQueue) (pte : Pte) : Except Fault Page := do
  match ← swapQueueFind q pte.swap with
  | none => throw (.panic ("Attempted to read an invalid swap entry.\nHINT: How do you check if a "
      ++ "swap entry exists, and if it does not, what should you put in memory instead?"))
  | some info => return (← q.deref info).pageData

/-- `swap_write`: the entry and the queue after `src` was stored. -/
def swapWrite (q : SwapQueue) (pte : Pte) (src : Page) : Except Fault (Pte × SwapQueue) := do
  match ← swapQueueFind q pte.swap with
  | none =>
    let (info, q) := createEntry q
    let q ← swapQueueEnqueue q info
    let token := (← q.deref info).token
    return ({ pte with swap := token }, ← q.setPageData info src)
  | some info => return (pte, ← q.setPageData info src)

/-- `swap_free` -/
def swapFree (q : SwapQueue) (pte : Pte) : Except Fault (Pte × SwapQueue) := do
  match ← swapQueueFind q pte.swap with
  | none => throw (.panic "Attempted to free an invalid swap entry!")
  | some _ => return ({ pte with swap := 0 }, ← swapQueueDequeue q pte.swap)

end ECE3056.Vm
