import ECE3056.Library.Fallible
import ECE3056.Vm.Swap
import Mathlib.Tactic

/-!
# The paging code

`paging.c`, `page_fault.c` and `page_replacement.c`, with the bodies of the
START, STOP and access branches of `main` in `pagesim.c`.

Physical memory is an array of frames, each holding what the code last put there:
the frame table, a page table or the bytes of a page. Storage used as anything
else than what it holds is `undefined`, and so is an index outside an array. The
frame table entries are kept in a field of their own; `frame_table` points at
frame 0 from `system_init` on.
-/

namespace ECE3056.Vm

open ECE3056.Fallible

def offsetLen : Nat := 14
def pageSize : Nat := 2 ^ offsetLen
def memSize : Nat := 2 ^ 20
def numPages : Nat := 2 ^ (24 - offsetLen)
def numFrames : Nat := 2 ^ (20 - offsetLen)
def maxPid : Nat := 800

/-- How many `fte_t` (24 bytes each) frame 0 has room for. -/
def frameTableRoom : Nat := pageSize / 24

/-- `fte_t`. The process is the index of its block in `procs`, or NULL. -/
structure Fte where
  isProtected : UInt8 := 0
  mapped : UInt8 := 0
  referenced : UInt8 := 0
  process : Option Nat := none
  vpn : Nat := 0

inductive ProcState
  | stopped
  | running
  deriving DecidableEq, Repr

/-- `pcb_t` -/
structure Pcb where
  pid : Nat := 0
  state : ProcState := .stopped
  savedPtbr : Nat := 0

inductive Replacement
  | random
  | clocksweep
  deriving DecidableEq, Repr

/-- `stats_t`, less the average that is computed at the end. -/
structure Stats where
  writes : Nat := 0
  reads : Nat := 0
  accesses : Nat := 0
  pageFaults : Nat := 0
  writebacks : Nat := 0

/-- What a frame of physical memory holds. -/
inductive Frame
  | frameTable
  | pageTable (entries : Nat → Pte)
  | data (page : Page)

/-- The simulator's global variables. `prng` is the sequence of values that
`prng_rand` is still to return. -/
structure State where
  mem : Nat → Frame
  frameTablePtr : Option Nat
  frameTable : Nat → Fte
  procs : Nat → Pcb
  PTBR : Nat
  currentProcess : Option Nat
  swapQueue : SwapQueue
  replacement : Replacement
  prng : Nat → Nat
  stats : Stats

/-- The state `main` starts from: everything zeroed by `calloc`. -/
def State.zeroed (replacement : Replacement) (prng : Nat → Nat) : State where
  mem := fun _ => .data zeroPage
  frameTablePtr := none
  frameTable := fun _ => {}
  procs := fun _ => {}
  PTBR := 0
  currentProcess := none
  swapQueue := .empty
  replacement := replacement
  prng := prng
  stats := {}

namespace State

/-- `procs[pid]` -/
def pcb (s : State) (pid : Nat) : Except Fault Pcb :=
  if pid < maxPid then .ok (s.procs pid) else .error .undefined

def setPcb (s : State) (pid : Nat) (pcb : Pcb) : State :=
  { s with procs := Function.update s.procs pid pcb }

/-- `frame_table[pfn]` -/
def fte (s : State) (pfn : Nat) : Except Fault Fte :=
  if pfn < frameTableRoom then .ok (s.frameTable pfn) else .error .undefined

def setFte (s : State) (pfn : Nat) (entry : Fte) : Except Fault State :=
  if pfn < frameTableRoom then .ok { s with frameTable := Function.update s.frameTable pfn entry }
  else .error .undefined

/-- The page table in a frame. -/
def pageTable (s : State) (frame : Nat) : Except Fault (Nat → Pte) :=
  if frame < numFrames then
    match s.mem frame with
    | .pageTable entries => .ok entries
    | _ => .error .undefined
  else .error .undefined

/-- `((pte_t*) (mem + frame * PAGE_SIZE))[vpn]` -/
def pte (s : State) (frame vpn : Nat) : Except Fault Pte := do
  let entries ← s.pageTable frame
  if vpn < numPages then return entries vpn else throw .undefined

def setPte (s : State) (frame vpn : Nat) (entry : Pte) : Except Fault State := do
  let entries ← s.pageTable frame
  if vpn < numPages then
    return { s with
      mem := Function.update s.mem frame (.pageTable (Function.update entries vpn entry)) }
  else throw .undefined

/-- The page of bytes in a frame. -/
def page (s : State) (frame : Nat) : Except Fault Page :=
  if frame < numFrames then
    match s.mem frame with
    | .data page => .ok page
    | _ => .error .undefined
  else .error .undefined

/-- `memset` or `memcpy` over a whole frame, whatever it held. -/
def setFrame (s : State) (frame : Nat) (contents : Frame) : Except Fault State :=
  if frame < numFrames then .ok { s with mem := Function.update s.mem frame contents }
  else .error .undefined

/-- `mem[address]` -/
def readByte (s : State) (address : Nat) : Except Fault UInt8 := do
  let page ← s.page (address / pageSize)
  return page (address % pageSize)

def writeByte (s : State) (address : Nat) (data : UInt8) : Except Fault State := do
  let page ← s.page (address / pageSize)
  s.setFrame (address / pageSize) (.data (Function.update page (address % pageSize) data))

end State

/-- `vaddr_vpn`, truncated to the 16 bits of `vpn_t`. -/
def vaddrVpn (addr : Nat) : Nat := addr / pageSize % 2 ^ 16

def vaddrOffset (addr : Nat) : Nat := addr % pageSize

/-- `system_init` -/
def systemInit (s : State) : State :=
  { s with
    mem := Function.update s.mem 0 .frameTable
    frameTablePtr := some 0
    frameTable := Function.update (fun _ => {}) 0 { isProtected := 1 } }

/-! ## page_replacement.c -/

/-- The first loop of `select_victim_frame`. -/
def firstFree (frameTable : Nat → Fte) : Option Nat :=
  (List.range (memSize / pageSize)).find? fun i =>
    (frameTable i).isProtected = 0 ∧ (frameTable i).mapped = 0

/-- The second loop of `select_victim_frame`, over the frames still to be tried, with
the last unprotected frame seen. It returns the victim and the values left. -/
def russianRoulette (frameTable : Nat → Fte) : List Nat → Nat → (Nat → Nat) →
    Option Nat × (Nat → Nat)
  | [], lastUnprotected, prng =>
    (if lastUnprotected < numFrames then some lastUnprotected else none, prng)
  | i :: rest, lastUnprotected, prng =>
    if (frameTable i).isProtected = 0 then
      if prng 0 % 2 ≠ 0 then (some i, fun n => prng (n + 1))
      else russianRoulette frameTable rest i fun n => prng (n + 1)
    else russianRoulette frameTable rest lastUnprotected prng

/-- The panic of `select_victim_frame`. -/
def outOfMemory : Fault := .panic "System ran out of memory\n"

/-- `select_victim_frame` -/
def selectVictimFrame (s : State) : Except Fault (Nat × State) :=
  match firstFree s.frameTable with
  | some i => .ok (i, s)
  | none =>
    match s.replacement with
    | .random =>
      match russianRoulette s.frameTable (List.range (memSize / pageSize)) numFrames s.prng with
      | (some i, prng) => .ok (i, { s with prng := prng })
      | (none, _) => .error outOfMemory
    | .clocksweep => .error outOfMemory

/-- The write back of a dirty victim in `free_frame`: the entry and the state after it. -/
def writeBack (s : State) (victimPfn : Nat) (entry : Pte) : Except Fault (Pte × State) := do
  if entry.dirty = 1 then
    let (entry, swapQueue) ← swapWrite s.swapQueue entry (← s.page victimPfn)
    return ({ entry with dirty := 0 },
      { s with
        swapQueue := swapQueue
        stats := { s.stats with writebacks := s.stats.writebacks + 1 } })
  else return (entry, s)

/-- The eviction of a mapped victim in `free_frame`. -/
def evict (s : State) (victimPfn : Nat) : Except Fault State := do
  let frame ← s.fte victimPfn
  let vpn := frame.vpn
  match frame.process with
  | none => throw .undefined
  | some process =>
    let ptbr := (← s.pcb process).savedPtbr
    let (entry, s) ← writeBack s victimPfn (← s.pte ptbr vpn)
    let s ← s.setPte ptbr vpn { entry with valid := 0 }
    s.setFte victimPfn { frame with mapped := 0 }

/-- `free_frame` -/
def freeFrame (s : State) : Except Fault (Nat × State) := do
  let (victimPfn, s) ← selectVictimFrame s
  let s ← if (← s.fte victimPfn).mapped = 1 then evict s victimPfn else pure s
  let s ← s.setFte victimPfn { (← s.fte victimPfn) with referenced := 0 }
  return (victimPfn, s)

/-! ## page_fault.c -/

/-- The end of `page_fault`: the frame is loaded from swap, or cleared. -/
def loadFrame (s : State) (frame : Nat) (entry : Pte) : Except Fault State := do
  if entry.swap ≠ 0 then s.setFrame frame (.data (← swapRead s.swapQueue entry))
  else s.setFrame frame (.data zeroPage)

/-- `page_fault` -/
def pageFault (s : State) (address : Nat) : Except Fault State := do
  let vpn := vaddrVpn address
  match s.currentProcess with
  | none => throw .undefined
  | some process =>
    let ptbr := (← s.pcb process).savedPtbr
    let (frame, s) ← freeFrame s
    let entry := { (← s.pte ptbr vpn) with pfn := frame, valid := 1, dirty := 0 }
    let s ← s.setPte ptbr vpn entry
    let s ← s.setFte frame
      { (← s.fte frame) with mapped := 1, isProtected := 0, vpn := vpn, process := some process }
    let s ← loadFrame s frame entry
    return { s with stats := { s.stats with pageFaults := s.stats.pageFaults + 1 } }

/-! ## paging.c -/

/-- `proc_init` -/
def procInit (s : State) (proc : Nat) : Except Fault State := do
  let (frame, s) ← freeFrame s
  let s ← s.setFrame frame (.pageTable fun _ => {})
  let s := s.setPcb proc { (← s.pcb proc) with savedPtbr := frame }
  s.setFte frame { (← s.fte frame) with isProtected := 1 }

/-- `context_switch` -/
def contextSwitch (s : State) (proc : Nat) : Except Fault State := do
  return { s with PTBR := (← s.pcb proc).savedPtbr }

/-- The first half of `mem_access`: the physical address, after a page fault if the
entry is invalid. -/
def translate (s : State) (address : Nat) : Except Fault (Nat × State) := do
  let vpn := vaddrVpn address
  let offset := vaddrOffset address
  let s ← if (← s.pte s.PTBR vpn).valid = 0 then pageFault s address else pure s
  let pfn := (← s.pte s.PTBR vpn).pfn
  let s ← s.setFte pfn { (← s.fte pfn) with referenced := 1 }
  return (pfn <<< offsetLen ||| offset, s)

/-- `mem_access` -/
def memAccess (s : State) (address : Nat) (rw : Char) (data : UInt8) :
    Except Fault (UInt8 × State) := do
  let (physicalAddress, s) ← translate s address
  let s := { s with stats := { s.stats with accesses := s.stats.accesses + 1 } }
  if rw = 'r' then
    let s := { s with stats := { s.stats with reads := s.stats.reads + 1 } }
    return (← s.readByte physicalAddress, s)
  else
    let s ← s.writeByte physicalAddress data
    let vpn := vaddrVpn address
    let s ← s.setPte s.PTBR vpn { (← s.pte s.PTBR vpn) with dirty := 1 }
    return (data, { s with stats := { s.stats with writes := s.stats.writes + 1 } })

/-- The first test in the loop of `proc_cleanup`. -/
def unmapEntry (s : State) (entry : Pte) : Except Fault State := do
  if entry.valid ≠ 0 then s.setFte entry.pfn { (← s.fte entry.pfn) with mapped := 0 }
  else return s

/-- The body of the loop of `proc_cleanup`. -/
def cleanupEntry (ptbr : Nat) (s : State) (i : Nat) : Except Fault State := do
  let entry ← s.pte ptbr i
  let s ← unmapEntry s entry
  if entry.swap ≠ 0 then
    let (entry, swapQueue) ← swapFree s.swapQueue entry
    { s with swapQueue := swapQueue }.setPte ptbr i entry
  else return s

/-- `proc_cleanup` -/
def procCleanup (s : State) (proc : Nat) : Except Fault State := do
  let ptbr := (← s.pcb proc).savedPtbr
  let s ← (List.range numPages).foldlM (cleanupEntry ptbr) s
  s.setFte ptbr { (← s.fte ptbr) with isProtected := 0, mapped := 0, referenced := 0 }

/-! ## The branches of main -/

/-- The START branch. -/
def start (s : State) (pid : Nat) : Except Fault State := do
  let newProc ← s.pcb pid
  procInit (s.setPcb pid { newProc with pid := pid, state := .running }) pid

/-- The STOP branch. -/
def stop (s : State) (pid : Nat) : Except Fault State := do
  let s ← procCleanup s pid
  return s.setPcb pid { (← s.pcb pid) with savedPtbr := 0, state := .stopped }

end ECE3056.Vm
