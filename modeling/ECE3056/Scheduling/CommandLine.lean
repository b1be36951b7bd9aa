import ECE3056.Library.Scanf
import ECE3056.Scheduling.Processes

/-!
# The command line

`main` of `student.c` and the check in `start_simulator`. Every argument sets
`scheduling_alg` anew, the number behind `-r` too, so the letter for Round-Robin never
reaches the scheduler. It is not missed: the scheduler asks for LRTF only, and what
makes the difference to FIFO is the time slice.
-/

namespace ECE3056.Scheduling

open ECE3056.Scanf

/-- What becomes of a command line before the threads run. -/
inductive Launch
  /-- the usage message of `main` -/
  | usage
  /-- the error of `start_simulator` -/
  | cpuCount
  | start (cpu_count : Nat) (cfg : Config)

/-- The loop of `main`, from one of the arguments on. The last one has NULL behind it, which `atoi`
may not be given. -/
def parseArgs : List (List Char) → Config → Option Config
  | [], cfg => some cfg
  | arg :: rest, cfg =>
    if arg = ['-', 'r'] then
      match rest with
      | [] => none
      | next :: _ => do
        let time_slice ← atoi next
        parseArgs rest { scheduling_alg := 'r', time_slice }
    else if arg = ['-', 'l'] then parseArgs rest { cfg with scheduling_alg := 'l' }
    else parseArgs rest { cfg with scheduling_alg := 'f' }

/-- `main`, up to the threads. Without arguments `strtoul` is given NULL. -/
def main (argv : List (List Char)) : Option Launch :=
  if argv.length < 1 ∨ argv.length > 4 then some .usage
  else do
    let arg ← argv[1]?
    let cpu_count := strtoulAny arg % 2 ^ 32
    let cfg ← parseArgs argv { scheduling_alg := Char.ofNat 0, time_slice := -1 }
    if cpu_count < 1 ∨ cpu_count > 16 then some .cpuCount else some (.start cpu_count cfg)

/-- The command lines of the usage message. -/
inductive Usage
  | fifo
  | longest
  | roundRobin (time_slice : Int)

namespace Usage

def args : Usage → List (List Char)
  | fifo => []
  | longest => [['-', 'l']]
  | roundRobin time_slice => [['-', 'r'], decimal time_slice]

/-- What is asked for. -/
def config : Usage → Config
  | fifo => ⟨'f', -1⟩
  | longest => ⟨'l', -1⟩
  | roundRobin time_slice => ⟨'r', time_slice⟩

/-- The time slice is an `int`. -/
def Fits : Usage → Prop
  | roundRobin time_slice => -2 ^ 31 ≤ time_slice ∧ time_slice < 2 ^ 31
  | _ => True

end Usage

/-! ## What the loop leaves -/

variable {arg : List Char} {args rest : List (List Char)} {cfg cfg' : Config}

/-- The last argument decides. -/
theorem parseArgs_alg (h : parseArgs (arg :: rest) cfg = some cfg') : cfg'.scheduling_alg =
    if (arg :: rest).getLast? = some ['-', 'l'] then 'l' else 'f' := by
  induction rest generalizing arg cfg with
  | nil =>
    rw [parseArgs] at h
    split at h
    · simp at h
    · split at h
      case isTrue hl =>
        obtain rfl := Option.some_inj.mp h
        simp [hl]
      case isFalse hl =>
        obtain rfl := Option.some_inj.mp h
        simp [hl]
  | cons next rest ih =>
    rw [List.getLast?_cons_cons]
    rw [parseArgs] at h
    split at h
    · obtain ⟨_, -, h⟩ := Option.bind_eq_some_iff.mp h
      exact ih h
    · split at h
      · exact ih h
      · exact ih h

/-- The time slice is the number behind the last `-r`. -/
def SliceFrom (args : List (List Char)) (default time_slice : Int) : Prop :=
  ['-', 'r'] ∉ args ∧ time_slice = default ∨
    ∃ before next after, args = before ++ ['-', 'r'] :: next :: after ∧
      ['-', 'r'] ∉ next :: after ∧ atoi next = some time_slice

theorem parseArgs_slice (h : parseArgs args cfg = some cfg') :
    SliceFrom args cfg.time_slice cfg'.time_slice := by
  induction args generalizing cfg with
  | nil =>
    obtain rfl := Option.some_inj.mp h
    exact .inl ⟨by simp, rfl⟩
  | cons arg rest ih =>
    rw [parseArgs.eq_def] at h
    dsimp only at h
    split at h
    case isTrue harg =>
      subst harg
      split at h
      · simp at h
      · rename_i next after
        obtain ⟨t, hatoi, h⟩ := Option.bind_eq_some_iff.mp h
        rcases ih h with ⟨hnot, heq⟩ | ⟨before, next', after', hsplit, hnot, hlast⟩
        · exact .inr ⟨[], next, after, rfl, hnot, heq ▸ hatoi⟩
        · exact .inr ⟨_ :: before, next', after', by rw [hsplit, List.cons_append], hnot, hlast⟩
    case isFalse harg =>
      -- only the letter is set
      have hrest : SliceFrom rest cfg.time_slice cfg'.time_slice := by
        split at h
        · exact @ih { cfg with scheduling_alg := 'l' } h
        · exact @ih { cfg with scheduling_alg := 'f' } h
      rcases hrest with ⟨hnot, heq⟩ | ⟨before, next', after', hsplit, hnot, hlast⟩
      · exact .inl ⟨by simp [hnot, Ne.symm harg], heq⟩
      · exact .inr ⟨arg :: before, next', after', by rw [hsplit, List.cons_append], hnot, hlast⟩

/-! ## What the scheduler makes of the letter -/

variable {ncpu nproc ncaller : Nat}

theorem popFromQueue_of_ne {scheduling_alg : Char} (h : scheduling_alg ≠ 'l')
    (time : Fin nproc → UInt32) (q : Queue nproc) :
    popFromQueue scheduling_alg time q = some (popFirst q) := by
  unfold popFromQueue
  split
  · exact absurd rfl h
  · rfl

section
variable {alg alg' : Char} (h : alg = 'l' ↔ alg' = 'l')
include h

theorem popFromQueue_congr (time : Fin nproc → UInt32) (q : Queue nproc) :
    popFromQueue alg time q = popFromQueue alg' time q := by
  by_cases hl : alg = 'l'
  · rw [hl, h.mp hl]
  · rw [popFromQueue_of_ne hl, popFromQueue_of_ne (fun hl' => hl (h.mpr hl'))]

theorem cpuStep_congr (s : State ncpu nproc ncaller) (c : Fin ncpu) :
    s.cpuStep alg c = s.cpuStep alg' c := by
  rw [State.cpuStep.eq_def, State.cpuStep.eq_def, popFromQueue_congr h]

theorem callerStep_congr (s : State ncpu nproc ncaller) (w : Fin ncaller) :
    s.callerStep alg w = s.callerStep alg' w := by
  rw [State.callerStep.eq_def, State.callerStep.eq_def]
  simp only [h]

end

/-- The simulator sees whether LRTF is asked for, and the time slice. -/
theorem next_congr (halg : cfg.scheduling_alg = 'l' ↔ cfg'.scheduling_alg = 'l')
    (hslice : cfg.time_slice = cfg'.time_slice) (s : Sim ncpu nproc) (t : Turn ncpu) :
    s.next cfg t = s.next cfg' t := by
  have hcpu := @cpuStep_congr ncpu nproc 1 _ _ halg
  have hcaller := @callerStep_congr ncpu nproc 1 _ _ halg
  cases t with
  | supervisor =>
    simp only [Sim.next, Sim.supervisorStep, Sim.wakeUpStep, hcaller]
  | thread c =>
    simp only [Sim.next, Sim.threadStep, Sim.contextSwitch, hcpu, hslice]
  | spurious c => rfl

/-! ## The command lines of the usage message -/

theorem digits_ne (n : Nat) (c : Char) (rest : List Char) :
    Nat.toDigits 10 n ≠ '-' :: c :: rest := by
  obtain ⟨d, ds, hd, hdigits⟩ := @exists_toDigits 10 (by decide) n
  intro heq
  rw [hdigits] at heq
  exact (digitChar_plain (show d < 16 by omega)).2.1 (List.cons.inj heq).1

/-- A number is none of the options. -/
theorem decimal_ne (t : Int) {c : Char} (hc : ∀ d < 10, d.digitChar ≠ c) :
    decimal t ≠ ['-', c] := by
  cases t with
  | ofNat n => exact digits_ne n c []
  | negSucc n =>
    obtain ⟨d, ds, hd, hdigits⟩ := @exists_toDigits 10 (by decide) (n + 1)
    intro heq
    rw [decimal, hdigits] at heq
    exact hc d hd (List.cons.inj (List.cons.inj heq).2).1

/-- An argument that is no option leaves nothing behind that the next one does not set anew. -/
theorem parseArgs_plain (hr : arg ≠ ['-', 'r']) (hl : arg ≠ ['-', 'l']) :
    parseArgs (arg :: rest) cfg = parseArgs rest { cfg with scheduling_alg := 'f' } := by
  rw [parseArgs.eq_def]
  dsimp only
  rw [if_neg hr, if_neg hl]

/-- The number of CPUs is no option, and undoes what the name of the program has set. -/
theorem parseArgs_cpus {name : List Char} (hname : name ≠ ['-', 'r']) (n : Nat) :
    parseArgs (name :: Nat.toDigits 10 n :: args) cfg =
      parseArgs args { cfg with scheduling_alg := 'f' } := by
  have hplain := fun alg => @parseArgs_plain (Nat.toDigits 10 n) args
    { cfg with scheduling_alg := alg } (digits_ne n 'r' []) (digits_ne n 'l' [])
  by_cases hl : name = ['-', 'l']
  · rw [parseArgs.eq_def]
    dsimp only
    rw [if_neg hname, if_pos hl]
    exact hplain 'l'
  · rw [parseArgs_plain hname hl]
    exact hplain 'f'

theorem parseArgs_usage {u : Usage} (hu : u.Fits) (hslice : cfg.time_slice = -1)
    (halg : cfg.scheduling_alg = 'f') : ∃ cfg', parseArgs u.args cfg = some cfg' ∧
      cfg'.time_slice = u.config.time_slice ∧
      (cfg'.scheduling_alg = 'l' ↔ u.config.scheduling_alg = 'l') := by
  cases u with
  | fifo => exact ⟨cfg, rfl, hslice, by rw [halg]; rfl⟩
  | longest =>
    refine ⟨{ cfg with scheduling_alg := 'l' }, ?_, hslice, Iff.rfl⟩
    rw [Usage.args, parseArgs, if_neg (by decide), if_pos rfl, parseArgs]
  | roundRobin t =>
    refine ⟨⟨'f', t⟩, ?_, rfl, ?_⟩
    · rw [Usage.args, parseArgs, if_pos rfl, Option.bind_eq_bind, atoi_decimal hu.1 hu.2,
        Option.bind_some, parseArgs_plain (decimal_ne t (by decide)) (decimal_ne t (by decide)),
        parseArgs]
    · simp [Usage.config]

/-- Whatever the arguments, a simulation that starts has between 1 and 16 CPUs, LRTF if the last
argument is `-l` and FIFO otherwise, and the time slice of the last `-r`. A command line of the
usage message starts the simulation that it asks for. -/
theorem command_line_selects :
    (∀ argv n cfg, main argv = some (.start n cfg) → (1 ≤ n ∧ n ≤ 16) ∧
      cfg.scheduling_alg = (if argv.getLast? = some ['-', 'l'] then 'l' else 'f') ∧
      SliceFrom argv (-1) cfg.time_slice) ∧
    ∀ name n (u : Usage), name ≠ ['-', 'r'] → 1 ≤ n → n ≤ 16 → u.Fits →
      ∃ cfg, main (name :: Nat.toDigits 10 n :: u.args) = some (.start n cfg) ∧
        ∀ ncpu nproc (s : Sim ncpu nproc) t, s.next cfg t = s.next u.config t := by
  refine ⟨fun argv n cfg h => ?_, fun name n u hname hlow hhigh hu => ?_⟩
  · rw [main] at h
    split at h
    · simp at h
    · obtain ⟨arg, harg, h⟩ := Option.bind_eq_some_iff.mp h
      obtain ⟨cfg', hcfg, h⟩ := Option.bind_eq_some_iff.mp h
      split at h
      · simp at h
      · rename_i hcount
        obtain ⟨rfl, rfl⟩ := Launch.start.inj (Option.some_inj.mp h)
        cases argv with
        | nil => simp at harg
        | cons first rest => exact ⟨by omega, parseArgs_alg hcfg, parseArgs_slice hcfg⟩
  · have hcount : strtoulAny (Nat.toDigits 10 n) % 2 ^ 32 = n := by
      rw [strtoulAny_toDigits (by omega) (by omega)]
      omega
    have hlength : ¬ ((name :: Nat.toDigits 10 n :: u.args).length < 1 ∨
        (name :: Nat.toDigits 10 n :: u.args).length > 4) := by
      cases u <;> simp [Usage.args]
    obtain ⟨cfg, hcfg, hslice, halg⟩ := @parseArgs_usage ⟨'f', -1⟩ u hu rfl rfl
    refine ⟨cfg, ?_, fun ncpu nproc s t => next_congr halg hslice s t⟩
    rw [main, if_neg hlength]
    show (parseArgs (name :: Nat.toDigits 10 n :: u.args) _).bind _ = _
    rw [parseArgs_cpus hname, hcfg, Option.bind_some, hcount, if_neg (by omega)]

end ECE3056.Scheduling
