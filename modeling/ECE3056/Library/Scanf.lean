import Mathlib.Data.Nat.Digits.Defs

/-!
# Numbers in text

The conversions of `scanf` that read unsigned numbers, one character or white space.
What `printf` writes of a number is read back as that number, whatever stands behind it.
-/

namespace ECE3056.Scanf

/-- `isspace` in the C locale. -/
def isSpace (c : Char) : Bool := c.toNat = 32 ∨ 9 ≤ c.toNat ∧ c.toNat ≤ 13

/-- White space in a format. -/
def skipSpace (text : List Char) : List Char := text.dropWhile isSpace

/-- Why a conversion stores nothing: the text does not match from `rest` on, or its value has no
place in the object, which C leaves undefined. -/
inductive Stop
  | mismatch (rest : List Char)
  | overflow
  deriving DecidableEq

/-- `%c` -/
def scanChar : List Char → Except Stop (Char × List Char)
  | [] => .error (.mismatch [])
  | c :: rest => .ok (c, rest)

def digitValue (base : Nat) (c : Char) : Option Nat :=
  let value :=
    if '0' ≤ c ∧ c ≤ '9' then c.toNat - '0'.toNat
    else if 'a' ≤ c ∧ c ≤ 'f' then c.toNat - 'a'.toNat + 10
    else if 'A' ≤ c ∧ c ≤ 'F' then c.toNat - 'A'.toNat + 10
    else base
  if value < base then some value else none

/-- The digits at the start of the text, behind those of the number `acc`. -/
def scanDigits (base : Nat) : Nat → List Char → Nat × List Char
  | acc, [] => (acc, [])
  | acc, c :: rest =>
    match digitValue base c with
    | some d => scanDigits base (base * acc + d) rest
    | none => (acc, c :: rest)

def scanSign : List Char → Bool × List Char
  | '-' :: rest => (true, rest)
  | '+' :: rest => (false, rest)
  | text => (false, text)

/-- The prefix that `%x` allows. -/
def dropPrefix (base : Nat) : List Char → List Char
  | '0' :: 'x' :: rest => if base = 16 then rest else '0' :: 'x' :: rest
  | '0' :: 'X' :: rest => if base = 16 then rest else '0' :: 'X' :: rest
  | text => text

/-- What `strtoul` makes of the number: a sign negates it in 64 bits. -/
def strtoul (negative : Bool) (n : Nat) : Nat := if negative then (2 ^ 64 - n) % 2 ^ 64 else n

/-- `%u` or `%x` into an object of `width` bits, at most 64. -/
def scanUnsigned (base width : Nat) (text : List Char) : Except Stop (Nat × List Char) :=
  let (negative, text) := scanSign (skipSpace text)
  match dropPrefix base text with
  | [] => .error (.mismatch [])
  | c :: rest =>
    match digitValue base c with
    | none => .error (.mismatch (c :: rest))
    | some d =>
      let (n, rest) := scanDigits base d rest
      if n < 2 ^ 64 ∧ strtoul negative n < 2 ^ width then .ok (strtoul negative n, rest)
      else .error .overflow

/-- The base that `strtoul` finds by itself, and the text behind the prefix. -/
def findBase : List Char → Nat × List Char
  | '0' :: x :: d :: rest =>
    if (x = 'x' ∨ x = 'X') ∧ (digitValue 16 d).isSome then (16, d :: rest)
    else (8, '0' :: x :: d :: rest)
  | '0' :: rest => (8, '0' :: rest)
  | text => (10, text)

/-- `strtoul(text, NULL, 0)` -/
def strtoulAny (text : List Char) : Nat :=
  let (negative, text) := scanSign (skipSpace text)
  let (base, text) := findBase text
  let n := (scanDigits base 0 text).1
  if n < 2 ^ 64 then strtoul negative n else 2 ^ 64 - 1

/-- `atoi`, which is undefined for a number that is no `int`. -/
def atoi (text : List Char) : Option Int :=
  let (negative, text) := scanSign (skipSpace text)
  let n := (scanDigits 10 0 text).1
  let value : Int := if negative then -n else n
  if -2 ^ 31 ≤ value ∧ value < 2 ^ 31 then some value else none

/-! ## Printed numbers -/

/-- The end of the text, or a white-space character. -/
def Delimited (text : List Char) : Prop := ∀ c ∈ text.head?, isSpace c = true

@[simp] theorem delimited_nil : Delimited [] := by simp [Delimited]

@[simp] theorem delimited_cons {c : Char} {text : List Char} :
    Delimited (c :: text) ↔ isSpace c = true := by simp [Delimited]

variable {base n : Nat} {rest : List Char}

theorem digitValue_digitChar (hbase : base ≤ 16) {d : Nat} (hd : d < base) :
    digitValue base d.digitChar = some d := by
  have hall : ∀ e < 16, ∀ b ≤ 16, e < b → digitValue b e.digitChar = some e := by decide
  exact hall d (by omega) base hbase hd

/-- What a digit is not. -/
theorem digitChar_plain {d : Nat} (hd : d < 16) :
    isSpace d.digitChar = false ∧ d.digitChar ≠ '-' ∧ d.digitChar ≠ '+' ∧ d.digitChar ≠ 'x' ∧
      d.digitChar ≠ 'X' := by
  have hall : ∀ e < 16, isSpace e.digitChar = false ∧ e.digitChar ≠ '-' ∧ e.digitChar ≠ '+' ∧
      e.digitChar ≠ 'x' ∧ e.digitChar ≠ 'X' := by decide
  exact hall d hd

/-- Every character of a printed number is a digit. -/
theorem mem_toDigits (hone : 1 < base) {c : Char} (hc : c ∈ Nat.toDigits base n) :
    ∃ d < base, c = d.digitChar := by
  induction n using Nat.base_induction base hone with
  | single m hm =>
    rw [Nat.toDigits_of_lt_base hm, List.mem_singleton] at hc
    exact ⟨m, hm, hc⟩
  | digit m k hk hm ih =>
    rw [← Nat.toDigits_append_toDigits hone hm hk, List.mem_append] at hc
    rcases hc with hc | hc
    · exact ih hc
    · rw [Nat.toDigits_of_lt_base hk, List.mem_singleton] at hc
      exact ⟨k, hk, hc⟩

theorem digitValue_space {c : Char} (hc : isSpace c = true) : digitValue base c = none := by
  have hcode : c.toNat = 32 ∨ 9 ≤ c.toNat ∧ c.toNat ≤ 13 := by simpa [isSpace] using hc
  have hlow : c.toNat < 48 := by omega
  have hnot : ∀ d : Char, 48 ≤ d.toNat → ¬ d ≤ c := by
    intro d hd hle
    have hle' : d.toNat ≤ c.toNat := hle
    omega
  have hzero := hnot '0' (by decide)
  have ha := hnot 'a' (by decide)
  have hA := hnot 'A' (by decide)
  simp [digitValue, hzero, ha, hA]

theorem scanDigits_delimited (h : Delimited rest) (acc : Nat) :
    scanDigits base acc rest = (acc, rest) := by
  cases rest with
  | nil => rfl
  | cons c rest => rw [scanDigits, digitValue_space (delimited_cons.mp h)]

/-- Reading on behind a printed number. -/
theorem scanDigits_toDigits (hone : 1 < base) (hbase : base ≤ 16) (n : Nat) (rest : List Char) :
    scanDigits base 0 (Nat.toDigits base n ++ rest) = scanDigits base n rest := by
  induction n using Nat.base_induction base hone generalizing rest with
  | single m hm =>
    rw [Nat.toDigits_of_lt_base hm, List.singleton_append, scanDigits,
      digitValue_digitChar hbase hm]
    simp
  | digit m k hk hm ih =>
    rw [← Nat.toDigits_append_toDigits hone hm hk, List.append_assoc, ih,
      Nat.toDigits_of_lt_base hk, List.singleton_append, scanDigits, digitValue_digitChar hbase hk]

/-- The first digit of a printed number. -/
theorem exists_toDigits (hone : 1 < base) (n : Nat) :
    ∃ d ds, d < base ∧ Nat.toDigits base n = d.digitChar :: ds := by
  cases hdigits : Nat.toDigits base n with
  | nil => exact absurd hdigits Nat.toDigits_ne_nil
  | cons c ds =>
    obtain ⟨d, hd, rfl⟩ := mem_toDigits (n := n) hone (hdigits ▸ List.mem_cons_self ..)
    exact ⟨d, ds, hd, rfl⟩

theorem skipSpace_digit {d : Nat} (hd : d < 16) (ds : List Char) :
    skipSpace (d.digitChar :: ds) = d.digitChar :: ds := by
  rw [skipSpace, List.dropWhile_cons_of_neg]
  simp [(digitChar_plain hd).1]

theorem scanSign_digit {d : Nat} (hd : d < 16) (ds : List Char) :
    scanSign (d.digitChar :: ds) = (false, d.digitChar :: ds) := by
  obtain ⟨-, hminus, hplus, -⟩ := digitChar_plain hd
  rw [scanSign]
  · exact fun _ h => hminus (List.cons.inj h).1
  · exact fun _ h => hplus (List.cons.inj h).1

/-- No digit is an `x`, so a number in front of white space has no prefix. -/
theorem dropPrefix_digits {ds : List Char} (hds : ∀ c ∈ ds, c ≠ 'x' ∧ c ≠ 'X') (c : Char)
    (hrest : Delimited rest) : dropPrefix base (c :: ds ++ rest) = c :: ds ++ rest := by
  have hx : ∀ d ds', ds ++ rest = d :: ds' → d ≠ 'x' ∧ d ≠ 'X' := by
    intro d ds' hsplit
    cases ds with
    | nil =>
      rw [List.nil_append] at hsplit
      subst hsplit
      have hspace := delimited_cons.mp hrest
      constructor <;> rintro rfl <;> simp [isSpace] at hspace
    | cons e ds =>
      obtain ⟨rfl, -⟩ := List.cons.inj hsplit
      exact hds e (List.mem_cons_self ..)
  rw [List.cons_append, dropPrefix]
  · exact fun _ h => (hx _ _ (List.cons.inj h).2).1 rfl
  · exact fun _ h => (hx _ _ (List.cons.inj h).2).2 rfl

/-- What stands behind the sign and the prefix is read as one number. -/
theorem scan_digits (hone : 1 < base) (hbase : base ≤ 16) {width : Nat} (hwidth : width ≤ 64)
    (hn : n < 2 ^ width) (hrest : Delimited rest) {d : Nat} {ds : List Char} (hd : d < base)
    (hdigits : Nat.toDigits base n = d.digitChar :: ds) :
    scanDigits base d (ds ++ rest) = (n, rest) ∧ n < 2 ^ 64 ∧ strtoul false n < 2 ^ width := by
  have hscan := scanDigits_toDigits hone hbase n rest
  rw [hdigits, List.cons_append, scanDigits, digitValue_digitChar hbase hd,
    scanDigits_delimited hrest] at hscan
  simp only [Nat.mul_zero, Nat.zero_add] at hscan
  exact ⟨hscan, hn.trans_le (Nat.pow_le_pow_right (by decide) hwidth), hn⟩

/-- A printed number is read back. -/
theorem scanUnsigned_toDigits (hone : 1 < base) (hbase : base ≤ 16) {width : Nat}
    (hwidth : width ≤ 64) (hn : n < 2 ^ width) (hrest : Delimited rest) :
    scanUnsigned base width (Nat.toDigits base n ++ rest) = .ok (n, rest) := by
  obtain ⟨d, ds, hd, hdigits⟩ := exists_toDigits hone n
  obtain ⟨hscan, hlong, hfits⟩ := scan_digits hone hbase hwidth hn hrest hd hdigits
  have hd16 : d < 16 := by omega
  have hds : ∀ c ∈ ds, c ≠ 'x' ∧ c ≠ 'X' := by
    intro c hc
    obtain ⟨e, he, rfl⟩ := mem_toDigits (n := n) hone (hdigits ▸ List.mem_cons_of_mem _ hc)
    obtain ⟨-, -, -, hx, hX⟩ := digitChar_plain (d := e) (by omega)
    exact ⟨hx, hX⟩
  simp only [scanUnsigned, hdigits, List.cons_append, skipSpace_digit hd16, scanSign_digit hd16]
  rw [← List.cons_append, dropPrefix_digits hds _ hrest, List.cons_append]
  simp only [digitValue_digitChar hbase hd, hscan, if_pos (And.intro hlong hfits)]
  rfl

/-- A number printed with `0x` is read back. -/
theorem scanUnsigned_hex {width : Nat} (hwidth : width ≤ 64) (hn : n < 2 ^ width)
    (hrest : Delimited rest) :
    scanUnsigned 16 width ('0' :: 'x' :: Nat.toDigits 16 n ++ rest) = .ok (n, rest) := by
  obtain ⟨d, ds, hd, hdigits⟩ := @exists_toDigits 16 (by decide) n
  obtain ⟨hscan, hlong, hfits⟩ := scan_digits (by decide) le_rfl hwidth hn hrest hd hdigits
  have hsign : scanSign (skipSpace ('0' :: 'x' :: d.digitChar :: (ds ++ rest))) =
      (false, '0' :: 'x' :: d.digitChar :: (ds ++ rest)) := rfl
  simp only [hdigits, List.cons_append, scanUnsigned, hsign, dropPrefix, if_true,
    digitValue_digitChar le_rfl hd, hscan, if_pos (And.intro hlong hfits)]
  rfl

theorem skipSpace_cons {c : Char} (hc : isSpace c = true) (text : List Char) :
    skipSpace (c :: text) = skipSpace text := List.dropWhile_cons_of_pos hc

/-- White space in front of a number is skipped. -/
theorem scanUnsigned_space {width : Nat} {c : Char} (hc : isSpace c = true) (text : List Char) :
    scanUnsigned base width (c :: text) = scanUnsigned base width text := by
  rw [scanUnsigned, skipSpace_cons hc, ← scanUnsigned]

/-- The first digit of a positive number is not 0. -/
theorem exists_toDigits_pos (hone : 1 < base) (hn : 0 < n) :
    ∃ d ds, 0 < d ∧ d < base ∧ Nat.toDigits base n = d.digitChar :: ds := by
  induction n using Nat.base_induction base hone with
  | single m hm => exact ⟨m, [], hn, hm, Nat.toDigits_of_lt_base hm⟩
  | digit m k hk hm ih =>
    obtain ⟨d, ds, hpos, hd, hdigits⟩ := ih hm
    refine ⟨d, ds ++ Nat.toDigits base k, hpos, hd, ?_⟩
    rw [← Nat.toDigits_append_toDigits hone hm hk, hdigits, List.cons_append]

theorem scanDigits_text (hone : 1 < base) (hbase : base ≤ 16) (n : Nat) :
    scanDigits base 0 (Nat.toDigits base n) = (n, []) := by
  have h := scanDigits_toDigits hone hbase n []
  rwa [List.append_nil, scanDigits_delimited delimited_nil] at h

/-- `strtoul` takes a positive number as decimal. -/
theorem strtoulAny_toDigits (hn : 0 < n) (hlong : n < 2 ^ 64) :
    strtoulAny (Nat.toDigits 10 n) = n := by
  obtain ⟨d, ds, hpos, hd, hdigits⟩ := @exists_toDigits_pos 10 n (by decide) hn
  have hzero : d.digitChar ≠ '0' := by
    have hall : ∀ e < 10, 0 < e → e.digitChar ≠ '0' := by decide
    exact hall d hd hpos
  have hbase : findBase (d.digitChar :: ds) = (10, d.digitChar :: ds) := by
    rw [findBase.eq_def]
    split
    · rename_i heq
      exact absurd (List.cons.inj heq).1 hzero
    · rename_i heq
      exact absurd (List.cons.inj heq).1 hzero
    · rfl
  have hscan := @scanDigits_text 10 (by decide) (by decide) n
  have hd16 : d < 16 := by omega
  rw [hdigits] at hscan ⊢
  simp only [strtoulAny, skipSpace_digit hd16, scanSign_digit hd16, hbase, hscan, if_pos hlong]
  rfl

/-- What `%d` prints. -/
def decimal : Int → List Char
  | .ofNat n => Nat.toDigits 10 n
  | .negSucc n => '-' :: Nat.toDigits 10 (n + 1)

/-- A printed `int` is read back. -/
theorem atoi_decimal {t : Int} (hlow : -2 ^ 31 ≤ t) (hhigh : t < 2 ^ 31) :
    atoi (decimal t) = some t := by
  cases t with
  | ofNat n =>
    obtain ⟨d, ds, hd, hdigits⟩ := @exists_toDigits 10 (by decide) n
    have hscan := @scanDigits_text 10 (by decide) (by decide) n
    have hd16 : d < 16 := by omega
    rw [hdigits] at hscan
    simp only [decimal, hdigits, atoi, skipSpace_digit hd16, scanSign_digit hd16, hscan]
    exact if_pos ⟨hlow, hhigh⟩
  | negSucc n =>
    have hscan := @scanDigits_text 10 (by decide) (by decide) (n + 1)
    have hsign : scanSign (skipSpace ('-' :: Nat.toDigits 10 (n + 1))) =
        (true, Nat.toDigits 10 (n + 1)) := rfl
    simp only [decimal, atoi, hsign, hscan, if_true]
    exact if_pos ⟨hlow, hhigh⟩

end ECE3056.Scanf
