import Mathlib.Data.List.TakeWhile
import ECE3056.Library.Fallible
import ECE3056.Library.Scanf
import ECE3056.Cache.PrintStats

/-!
# main of main.c

The loop that reads a trace with `fscanf` until `feof`. It makes every access of the
trace once: the white space at the end of the format meets the end of the file
behind the last line, so that no line is taken twice.
-/
namespace ECE3056.Cache

open Scanf

/-- `fscanf(trace, "%c %llx %llx %u\n", &c, &va, &pa, &sz)`: the address and the kind of the access,
and the rest of the file. Without a size they are stored nevertheless; without an address the call
that follows would use an indeterminate value. -/
def scanLine (file : List Char) : Option (Access × List Char) :=
  match (do
    let (c, text) ← scanChar file
    let (_, text) ← scanUnsigned 16 64 text
    let (pa, text) ← scanUnsigned 16 64 text
    return (c, pa, text)) with
  | .error _ => none
  | .ok (c, pa, text) =>
    match scanUnsigned 10 32 text with
    | .ok (_, rest) => some ((BitVec.ofNat 64 pa, c), skipSpace rest)
    | .error (.mismatch rest) => some ((BitVec.ofNat 64 pa, c), rest)
    | .error .overflow => none

/-- `while (next_line(input));` The end of the file is known only when something has been read up to
it. Each line takes a character at least, so the length of the file bounds the number of calls. -/
def readLines (c : Config) : Nat → Cachesim → Bool → List Char → Option Cachesim
  | 0, _, _, _ => none
  | calls + 1, s, feof, file =>
    if feof then some s
    else do
      let (a, rest) ← scanLine file
      let s ← l1CachesimAccess c s a.1 a.2
      readLines c calls s rest.isEmpty rest

/-- `main`, with the three numbers of the command line. `cachesim_init` divides by the product of
block size and ways, and the logarithm of no sets is no `unsigned int`. -/
def main (c : Config) (file : List Char) : Option PrintedStats :=
  if c.l2Blocksize * c.l2Ways = 0 ∨ c.l2IndexMax = 0 then none
  else (readLines c (file.length + 1) (cachesimInit c) false file).map cachesimPrintStats

/-! ## The text of a trace -/

/-- What stands on a line; the virtual address and the size are not used. -/
structure Line where
  kind : Char
  va : Addr
  pa : Addr
  sz : UInt32
  kind_seen : isSpace kind = false

def Line.text (l : Line) : List Char :=
  l.kind :: ' ' :: Nat.toDigits 16 l.va.toNat ++ ' ' :: Nat.toDigits 16 l.pa.toNat ++
    ' ' :: Nat.toDigits 10 l.sz.toNat

def Line.access (l : Line) : Access := (l.pa, l.kind)

/-- The lines, with `blank` behind the last one. -/
def traceText (blank : List Char) : List Line → List Char
  | [] => []
  | [l] => l.text ++ blank
  | l :: l' :: ls => l.text ++ '\n' :: traceText blank (l' :: ls)

/-- The text behind a line starts with white space, which the format skips. -/
theorem scanLine_text (l : Line) {rest : List Char} (hrest : Delimited rest) :
    scanLine (l.text ++ rest) = some (l.access, skipSpace rest) := by
  have hdelimited : ∀ text, Delimited (' ' :: text) := fun text => delimited_cons.mpr (by decide)
  have hex : ∀ (n : Addr) text,
      scanUnsigned 16 64 (' ' :: (Nat.toDigits 16 n.toNat ++ ' ' :: text)) =
        .ok (n.toNat, ' ' :: text) := fun n text =>
    (scanUnsigned_space (by decide) _).trans
      (scanUnsigned_toDigits (by decide) le_rfl (by decide) n.isLt (hdelimited text))
  have hsz : scanUnsigned 10 32 (' ' :: (Nat.toDigits 10 l.sz.toNat ++ rest)) =
      .ok (l.sz.toNat, rest) :=
    (scanUnsigned_space (by decide) _).trans
      (scanUnsigned_toDigits (by decide) (by decide) (by decide) l.sz.toNat_lt hrest)
  have htext : l.text ++ rest = l.kind :: ' ' :: (Nat.toDigits 16 l.va.toNat ++
      ' ' :: (Nat.toDigits 16 l.pa.toNat ++ ' ' :: (Nat.toDigits 10 l.sz.toNat ++ rest))) := by
    simp [Line.text]
  rw [htext, scanLine]
  simp only [scanChar, hex, hsz, Fallible.ok_bind, Fallible.pure_eq_ok, BitVec.ofNat_toNat]
  rfl

theorem skipSpace_text (l : Line) (rest : List Char) :
    skipSpace (l.text ++ rest) = l.text ++ rest := by
  rw [Line.text, skipSpace, List.cons_append, List.cons_append, List.cons_append,
    List.dropWhile_cons_of_neg (by simp [l.kind_seen])]

theorem skipSpace_blank {blank : List Char} (h : ∀ c ∈ blank, isSpace c = true) :
    skipSpace blank = [] := List.dropWhile_eq_nil_iff.mpr h

theorem readLines_line (c : Config) (l : Line) {rest : List Char} (hrest : Delimited rest)
    (s : Cachesim) (calls : Nat) :
    readLines c (calls + 1) s false (l.text ++ rest) =
      (l1CachesimAccess c s l.pa l.kind).bind fun s =>
        readLines c calls s (skipSpace rest).isEmpty (skipSpace rest) := by
  rw [readLines, if_neg (by decide), scanLine_text l hrest]
  rfl

theorem l1Run_cons (c : Config) (s : Cachesim) (a : Access) (trace : List Access) :
    l1Run c s (a :: trace) = (l1CachesimAccess c s a.1 a.2).bind fun s => l1Run c s trace :=
  List.foldlM_cons

theorem text_pos (l : Line) : 0 < l.text.length := Nat.succ_pos _

/-- A call for each line, and one at the end of the file. -/
theorem readLines_text (c : Config) {blank : List Char} (hblank : ∀ c ∈ blank, isSpace c = true)
    (l : Line) (ls : List Line) (s : Cachesim) {calls : Nat}
    (hcalls : (traceText blank (l :: ls)).length < calls) :
    readLines c calls s false (traceText blank (l :: ls)) =
      l1Run c s ((l :: ls).map Line.access) := by
  have hpos := text_pos l
  induction ls generalizing l s calls with
  | nil =>
    obtain ⟨calls, rfl⟩ : ∃ k, calls = k + 2 := by
      rw [traceText, List.length_append] at hcalls
      exact ⟨calls - 2, by omega⟩
    have hdelimited : Delimited blank := fun d hd => hblank d (List.mem_of_mem_head? hd)
    rw [traceText, readLines_line c l hdelimited, skipSpace_blank hblank, List.map_singleton,
      l1Run_cons]
    rfl
  | cons l' ls ih =>
    obtain ⟨calls, rfl⟩ : ∃ k, calls = k + 1 := ⟨calls - 1, by omega⟩
    have hfirst : skipSpace ('\n' :: traceText blank (l' :: ls)) = traceText blank (l' :: ls) := by
      rw [skipSpace_cons (by decide)]
      cases ls with
      | nil => exact skipSpace_text l' blank
      | cons l'' ls => exact skipSpace_text l' _
    have hmore : (traceText blank (l' :: ls)).isEmpty = false := by
      cases ls <;> rfl
    have hlength : (traceText blank (l' :: ls)).length < calls := by
      rw [traceText, List.length_append, List.length_cons] at hcalls
      omega
    rw [traceText, readLines_line c l (delimited_cons.mpr (by decide)), hfirst, hmore,
      List.map_cons, l1Run_cons]
    refine congrArg _ (funext fun s' => ?_)
    exact ih l' s' hlength (text_pos l')

/-- `main` makes every access of its trace once, in order, whatever white space ends the file, and
prints the statistics of that run. An empty file is read as a line before its end is noticed. -/
theorem main_reads_trace (c : RunnableConfig) {blank : List Char}
    (hblank : ∀ c ∈ blank, isSpace c = true) (ls : List Line) :
    (ls ≠ [] → ∃ s, l1Run c.toConfig (cachesimInit c.toConfig) (ls.map Line.access) = some s ∧
        main c.toConfig (traceText blank ls) = some (cachesimPrintStats s)) ∧
      main c.toConfig [] = none := by
  have hinit : ¬ (c.l2Blocksize * c.l2Ways = 0 ∨ c.l2IndexMax = 0) := by
    have hproduct := Nat.mul_pos c.blocksize_pos c.ways_pos
    have hsets := c.sets_pos
    omega
  constructor
  · intro hls
    obtain ⟨l, ls, rfl⟩ := List.exists_cons_of_ne_nil hls
    obtain ⟨s, hs, -⟩ := l1Run_represents c ((l :: ls).map Line.access)
    refine ⟨s, hs, ?_⟩
    rw [main, if_neg hinit, readLines_text c.toConfig hblank l ls _ (Nat.lt_succ_self _), hs]
    rfl
  · rw [main, if_neg hinit]
    rfl

/-- A read of four bytes at 0x10000. -/
def oneRead : Line where
  kind := 'r'
  va := 0x7f0000
  pa := 0x10000
  sz := 4
  kind_seen := rfl

/-- A fetch of the same bytes. -/
def oneFetch : Line := { oneRead with kind := 'i', kind_seen := rfl }

theorem main_reads_trace_twice :
    ∃ s, l1Run oneWay.toConfig (cachesimInit oneWay.toConfig)
        [(0x10000, 'r'), (0x10000, 'i')] = some s ∧
      main oneWay.toConfig "r 7f0000 10000 4\ni 7f0000 10000 4\n".toList =
        some (cachesimPrintStats s) := by
  have htext : "r 7f0000 10000 4\ni 7f0000 10000 4\n".toList =
      traceText ['\n'] [oneRead, oneFetch] := by decide
  have hblank : ∀ c ∈ ['\n'], isSpace c = true := by
    intro c hc
    rw [List.mem_singleton.mp hc]
    rfl
  rw [htext]
  exact (main_reads_trace oneWay.runnable hblank [oneRead, oneFetch]).1 (by simp)

end ECE3056.Cache
