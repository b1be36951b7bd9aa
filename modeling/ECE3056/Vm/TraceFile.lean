import ECE3056.Library.Scanf
import ECE3056.Vm.CheckValidity
import ECE3056.Vm.MainLoop

/-!
# main of pagesim.c

The loop over the lines of a trace file: what `fgets` stores and `sscanf` reads, the
operation, the line that is printed and the checks of `-c`. The text of a trace is read
back as its operations.
-/

namespace ECE3056.Vm

open ECE3056.Fallible ECE3056.Scanf

/-! ## Reading a line -/

/-- `sizeof(buf)` -/
def bufSize : Nat := 120

/-- `buf`; a byte that has not been stored yet is indeterminate. -/
abbrev Buf := Nat → Option Char

/-- Store a string and its terminator. The bytes behind it keep what an earlier line left. -/
def Buf.store (buf : Buf) (text : List Char) : Buf := fun i =>
  if h : i < text.length then some text[i]
  else if i = text.length then some (Char.ofNat 0)
  else buf i

/-- Split off a line with its newline, or as many characters as there is room for. -/
def takeLine : Nat → List Char → List Char × List Char
  | 0, file => ([], file)
  | _ + 1, [] => ([], [])
  | room + 1, c :: file =>
    if c = '\n' then ([c], file)
    else
      let (line, rest) := takeLine room file
      (c :: line, rest)

/-- `fgets(buf, sizeof(buf), fin)`; NULL at the end of the file. -/
def fgets (buf : Buf) : List Char → Option (Buf × List Char)
  | [] => none
  | c :: file =>
    let (line, rest) := takeLine (bufSize - 1) (c :: file)
    some (buf.store line, rest)

/-- The characters from `buf + i` to the first terminator, among `n` bytes. -/
def Buf.chars (buf : Buf) : Nat → Nat → Except Fault (List Char)
  | 0, _ => .error .undefined
  | n + 1, i =>
    match buf i with
    | none => .error .undefined
    | some c =>
      if c = Char.ofNat 0 then .ok []
      else do return c :: (← buf.chars n (i + 1))

/-- The string at `buf + i`. -/
def Buf.string (buf : Buf) (i : Nat) : Except Fault (List Char) := buf.chars (bufSize - i) i

def START : List Char := ['S', 'T', 'A', 'R', 'T']
def STOP : List Char := ['S', 'T', 'O', 'P']

/-- `sscanf(text, "%u\n", &pid)` -/
def scanPid (text : List Char) : Except Stop Nat := do
  let (pid, _) ← scanUnsigned 10 32 text
  return pid

/-- `sscanf(text, "%u %c %x %hhu\n", &pid, &rw, &address, &data)` -/
def scanAccess (text : List Char) : Except Stop Op := do
  let (pid, text) ← scanUnsigned 10 32 text
  let (rw, text) ← scanChar (skipSpace text)
  let (address, text) ← scanUnsigned 16 32 text
  let (data, _) ← scanUnsigned 10 8 text
  return .access pid address rw (UInt8.ofNat data)

/-- The operation, unless `sscanf` makes fewer conversions than `main` asks for. -/
def orInvalid {α : Type} (scanned : Except Stop α) (message : String) :
    Except Fault (Except String α) :=
  match scanned with
  | .ok a => .ok (.ok a)
  | .error (.mismatch _) => .ok (.error message)
  | .error .overflow => .error .undefined

/-- The operation on a line, or the message with which `main` exits. -/
def readLine (buf : Buf) : Except Fault (Except String Op) := do
  let line ← buf.string 0
  if START.isPrefixOf line then
    orInvalid (Op.start <$> scanPid (← buf.string 6))
      "Unable to parse trace file: Invalid START command encountered\n"
  else if STOP.isPrefixOf line then
    orInvalid (Op.stop <$> scanPid (← buf.string 5))
      "Unable to parse trace file: Invalid STOP command encountered\n"
  else
    orInvalid (scanAccess line)
      "Unable to parse trace file: Invalid memory access command encountered\n"

/-! ## The loop -/

/-- One line of the trace, with the byte that `mem_access` returns. -/
def runLine (s : State) : Op → Except Fault (UInt8 × State)
  | .start pid => do return (0, ← start s pid)
  | .stop pid => do return (0, ← stop s pid)
  | .access pid address rw data => do memAccess (← dispatch s pid) address rw data

/-- What `main` prints of a line. -/
def report (step : Nat) (op : Op) (byte : UInt8) : List Char :=
  (Nat.toDigits 10 step).leftpad 8 ' ' ++
    match op with
    | .start pid => ": PID ".toList ++ Nat.toDigits 10 pid ++ " started\n".toList
    | .stop pid => ": PID ".toList ++ Nat.toDigits 10 pid ++ " stopped\n".toList
    | .access pid address rw data =>
      ": ".toList ++ (Nat.toDigits 10 pid).leftpad 3 ' ' ++
        (if rw = 'r' then "  r  0x".toList else "  w  0x".toList) ++
        (Nat.toDigits 16 address).leftpad 5 '0' ++
        (if rw = 'r' then " -> ".toList else " <- ".toList) ++
        (Nat.toDigits 16 (if rw = 'r' then byte else data).toNat).leftpad 2 '0' ++ ['\n']

/-- How `main` ends: with the statistics of the last state, in `exit(1)`, or in a fault. -/
inductive Ending
  | finished (s : State)
  | exit
  | fault (fault : Fault)

/-- `if (check_corruption) check_validity(checks)` -/
def checked (check_corruption : Bool) (checks : Nat) (s : State) : Except Ending State :=
  if check_corruption then
    match checkValidity s checks with
    | .ok _ => .ok s
    | .error fault => .error (.fault fault)
  else .ok s

/-- The body of the loop: what is printed, and how it goes on. -/
def mainLine (check_corruption : Bool) (buf : Buf) (step : Nat) (s : State) :
    List Char × Except Ending State :=
  match readLine buf with
  | .error fault => ([], .error (.fault fault))
  | .ok (.error message) => (message.toList, .error .exit)
  | .ok (.ok op) =>
    match runLine s op with
    | .error fault => ([], .error (.fault fault))
    | .ok (byte, s) => (report step op byte, checked check_corruption 1 s)

/-- The `while` loop. Each round takes a character at least, so the length of the file bounds the
number of rounds. -/
def lineLoop (check_corruption : Bool) : Nat → Buf → List Char → Nat → State → List Char × Ending
  | 0, _, _, _, s => ([], .finished s)
  | rounds + 1, buf, file, step, s =>
    match fgets buf file with
    | none => ([], .finished s)
    | some (buf, file) =>
      match mainLine check_corruption buf step s with
      | (printed, .error ending) => (printed, ending)
      | (printed, .ok s) =>
        let (rest, ending) := lineLoop check_corruption rounds buf file ((step + 1) % 2 ^ 32) s
        (printed ++ rest, ending)

/-- `main`, from `system_init` to the end of the trace. -/
def main (check_corruption : Bool) (replacement : Replacement) (prng : Nat → Nat)
    (file : List Char) : List Char × Ending :=
  match checked check_corruption 0 (systemInit (.zeroed replacement prng)) with
  | .error ending => ([], ending)
  | .ok s => lineLoop check_corruption file.length (fun _ => none) file 0 s

/-! ## The text of a trace -/

def Op.text : Op → List Char
  | .start pid => START ++ ' ' :: Nat.toDigits 10 pid ++ ['\n']
  | .stop pid => STOP ++ ' ' :: Nat.toDigits 10 pid ++ ['\n']
  | .access pid address rw data =>
    Nat.toDigits 10 pid ++ ' ' :: rw :: ' ' :: '0' :: 'x' :: Nat.toDigits 16 address ++
      ' ' :: Nat.toDigits 10 data.toNat ++ ['\n']

/-- The fields have their C types, and `rw` can be seen. -/
def Op.Fields : Op → Prop
  | .start pid => pid < 2 ^ 32
  | .stop pid => pid < 2 ^ 32
  | .access pid address rw _ =>
    pid < 2 ^ 32 ∧ address < 2 ^ 32 ∧ isSpace rw = false ∧ rw ≠ Char.ofNat 0

/-- A line that `fgets` takes whole. -/
structure IsLine (text : List Char) : Prop where
  split : ∃ line, text = line ++ ['\n'] ∧ ∀ c ∈ line, c ≠ '\n' ∧ c ≠ Char.ofNat 0
  length_lt : text.length < bufSize

theorem takeLine_line {line rest : List Char} {room : Nat} (hroom : line.length < room)
    (hline : ∀ c ∈ line, c ≠ '\n') :
    takeLine room (line ++ '\n' :: rest) = (line ++ ['\n'], rest) := by
  induction line generalizing room with
  | nil =>
    cases room with
    | zero => simp at hroom
    | succ room => simp [takeLine]
  | cons c line ih =>
    cases room with
    | zero => simp at hroom
    | succ room =>
      have hne := hline c (List.mem_cons_self ..)
      have hlt : line.length < room := by simpa using hroom
      have hrest := ih hlt fun d hd => hline d (List.mem_cons_of_mem c hd)
      simp [takeLine, hne, hrest]

theorem fgets_line {text : List Char} (h : IsLine text) (buf : Buf) (rest : List Char) :
    fgets buf (text ++ rest) = some (buf.store text, rest) := by
  obtain ⟨⟨line, rfl, hline⟩, hlength⟩ := h
  have htake := @takeLine_line line rest (bufSize - 1) (by simp at hlength; omega)
    fun c hc => (hline c hc).1
  rw [List.append_assoc, List.singleton_append]
  cases hsplit : line ++ '\n' :: rest with
  | nil => simp at hsplit
  | cons c file => rw [fgets, ← hsplit, htake]

/-- Reading a stored string from one of its characters on. -/
theorem Buf.chars_store {text : List Char} (htext : ∀ c ∈ text, c ≠ Char.ofNat 0) (buf : Buf)
    {n i : Nat} (hi : i ≤ text.length) (hn : text.length < i + n) :
    (buf.store text).chars n i = .ok (text.drop i) := by
  induction n generalizing i with
  | zero => omega
  | succ n ih =>
    rw [Buf.chars, Buf.store]
    by_cases hlt : i < text.length
    · have hne := htext _ (List.getElem_mem hlt)
      have hrest := ih (i := i + 1) hlt (by omega)
      rw [dif_pos hlt]
      simp only [if_neg hne, hrest, ok_bind, pure_eq_ok]
      rw [← List.drop_eq_getElem_cons hlt]
    · have heq : i = text.length := by omega
      subst heq
      simp

theorem Buf.string_store {text : List Char} (h : IsLine text) (buf : Buf) {i : Nat}
    (hi : i ≤ text.length) : (buf.store text).string i = .ok (text.drop i) := by
  obtain ⟨⟨line, rfl, hline⟩, hlength⟩ := h
  refine Buf.chars_store ?_ buf hi (by omega)
  intro c hc
  rcases List.mem_append.mp hc with hc | hc
  · exact (hline c hc).2
  · rw [List.mem_singleton.mp hc]
    decide

/-- A character that ends neither a line nor a string. -/
def Inner (c : Char) : Prop := c ≠ '\n' ∧ c ≠ Char.ofNat 0

instance (c : Char) : Decidable (Inner c) := inferInstanceAs (Decidable (_ ∧ _))

theorem inner_digits {base n : Nat} (hone : 1 < base) (hbase : base ≤ 16) {c : Char}
    (hc : c ∈ Nat.toDigits base n) : Inner c := by
  have hall : ∀ d < 16, Inner d.digitChar := by decide
  obtain ⟨d, hd, rfl⟩ := mem_toDigits hone hc
  exact hall d (by omega)

theorem inner_of_not_space {c : Char} (hspace : isSpace c = false) (hnul : c ≠ Char.ofNat 0) :
    Inner c := by
  refine ⟨?_, hnul⟩
  rintro rfl
  exact absurd hspace (by decide)

theorem length_toDigits_le {base n k : Nat} (hone : 1 < base) (hk : 0 < k) (hn : n < base ^ k) :
    (Nat.toDigits base n).length ≤ k := (Nat.length_toDigits_le_iff hone hk).mpr hn

theorem Op.isLine {op : Op} (h : op.Fields) : IsLine op.text := by
  have hpid : ∀ {pid : Nat}, pid < 2 ^ 32 → (Nat.toDigits 10 pid).length ≤ 10 := fun hlt =>
    length_toDigits_le (by decide) (by decide) (hlt.trans (by decide))
  have hdec : ∀ {n : Nat} {c : Char}, c ∈ Nat.toDigits 10 n → Inner c := fun hc =>
    inner_digits (by decide) (by decide) hc
  cases op with
  | start pid =>
    have hlength := hpid h
    refine ⟨⟨START ++ ' ' :: Nat.toDigits 10 pid, rfl, ?_⟩, ?_⟩
    · intro c hc
      rw [List.append_cons, List.mem_append] at hc
      rcases hc with hc | hc
      · have hall : (START ++ [' ']).all (fun c => decide (Inner c)) = true := by decide
        exact of_decide_eq_true (List.all_eq_true.mp hall c hc)
      · exact hdec hc
    · simp [Op.text, START, bufSize]
      omega
  | stop pid =>
    have hlength := hpid h
    refine ⟨⟨STOP ++ ' ' :: Nat.toDigits 10 pid, rfl, ?_⟩, ?_⟩
    · intro c hc
      rw [List.append_cons, List.mem_append] at hc
      rcases hc with hc | hc
      · have hall : (STOP ++ [' ']).all (fun c => decide (Inner c)) = true := by decide
        exact of_decide_eq_true (List.all_eq_true.mp hall c hc)
      · exact hdec hc
    · simp [Op.text, STOP, bufSize]
      omega
  | access pid address rw data =>
    obtain ⟨hlt, haddress, hspace, hnul⟩ := h
    have hlength := hpid hlt
    have hhex := @length_toDigits_le 16 address 8 (by decide) (by decide)
      (haddress.trans_le (by decide))
    have hbyte := @length_toDigits_le 10 data.toNat 3 (by decide) (by decide)
      (data.toNat_lt.trans (by decide))
    refine ⟨⟨_, rfl, ?_⟩, ?_⟩
    · intro c hc
      simp only [List.mem_append, List.mem_cons] at hc
      rcases hc with (hc | rfl | rfl | rfl | rfl | rfl | hc) | rfl | hc
      · exact hdec hc
      · decide
      · exact inner_of_not_space hspace hnul
      · decide
      · decide
      · decide
      · exact inner_digits (by decide) (by decide) hc
      · decide
      · exact hdec hc
    · simp [Op.text, bufSize]
      omega

theorem scanPid_text {pid : Nat} (h : pid < 2 ^ 32) :
    scanPid (Nat.toDigits 10 pid ++ ['\n']) = .ok pid := by
  rw [scanPid, scanUnsigned_toDigits (by decide) (by decide) (by decide) h
    (delimited_cons.mpr (by decide))]
  rfl

theorem scanAccess_text {pid address : Nat} {rw : Char} {data : UInt8}
    (h : Op.Fields (.access pid address rw data)) :
    scanAccess (Op.access pid address rw data).text = .ok (.access pid address rw data) := by
  obtain ⟨hpid, haddress, hspace, -⟩ := h
  have hdata : data.toNat < 2 ^ 8 := data.toNat_lt
  have hdelimited : ∀ text, Delimited (' ' :: text) := fun text => delimited_cons.mpr (by decide)
  have hrw : ∀ text, skipSpace (' ' :: rw :: text) = rw :: text := by
    intro text
    rw [skipSpace_cons (by decide), skipSpace, List.dropWhile_cons_of_neg (by simp [hspace])]
  have haddr : ∀ text, scanUnsigned 16 32
      (' ' :: '0' :: 'x' :: (Nat.toDigits 16 address ++ ' ' :: text)) =
        .ok (address, ' ' :: text) := fun text =>
    (scanUnsigned_space (by decide) _).trans
      (scanUnsigned_hex (by decide) haddress (hdelimited text))
  have hbyte : scanUnsigned 10 8 (' ' :: (Nat.toDigits 10 data.toNat ++ ['\n'])) =
      .ok (data.toNat, ['\n']) :=
    (scanUnsigned_space (by decide) _).trans
      (scanUnsigned_toDigits (by decide) (by decide) (by decide) hdata
        (delimited_cons.mpr (by decide)))
  simp only [Op.text, List.append_assoc, List.cons_append, scanAccess]
  rw [scanUnsigned_toDigits (by decide) (by decide) (by decide) hpid (hdelimited _)]
  simp only [ok_bind, hrw, scanChar, haddr, hbyte, pure_eq_ok, UInt8.ofNat_toNat]

/-- What was stored for the line of an operation is read as the operation. -/
theorem readLine_text {op : Op} (h : op.Fields) (buf : Buf) :
    readLine (buf.store op.text) = .ok (.ok op) := by
  have hline := Op.isLine h
  rw [readLine, Buf.string_store hline buf (Nat.zero_le _), ok_bind, List.drop_zero]
  cases op with
  | start pid =>
    have hprefix : START.isPrefixOf (Op.start pid).text = true := by simp [Op.text, START]
    have hdrop : (Op.start pid).text.drop 6 = Nat.toDigits 10 pid ++ ['\n'] := rfl
    rw [if_pos hprefix, Buf.string_store hline buf (by simp [Op.text, START]), ok_bind, hdrop,
      scanPid_text h]
    rfl
  | stop pid =>
    have hstart : ¬ START.isPrefixOf (Op.stop pid).text = true := by simp [Op.text, START, STOP]
    have hprefix : STOP.isPrefixOf (Op.stop pid).text = true := by simp [Op.text, STOP]
    have hdrop : (Op.stop pid).text.drop 5 = Nat.toDigits 10 pid ++ ['\n'] := rfl
    rw [if_neg hstart, if_pos hprefix, Buf.string_store hline buf (by simp [Op.text, STOP]),
      ok_bind, hdrop, scanPid_text h]
    rfl
  | access pid address rw data =>
    -- the line starts with a digit
    obtain ⟨d, ds, hd, hdigits⟩ := @exists_toDigits 10 (by decide) pid
    have hstart : ¬ START.isPrefixOf (Op.access pid address rw data).text = true := by
      simp [Op.text, START, hdigits]
    have hstop : ¬ STOP.isPrefixOf (Op.access pid address rw data).text = true := by
      simp [Op.text, STOP, hdigits]
    rw [if_neg hstart, if_neg hstop, scanAccess_text h]
    rfl

end ECE3056.Vm
