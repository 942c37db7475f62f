import Mathlib.Data.List.Basic

/-!
# AudioEngine.Lib.PyStr

The part of Python's `str` that the engine calls: `strip`, `splitlines`, `split(sep)` and the
`int(str)` conversion, over lists of characters; and that the decimals `str(int)` gives are
injective.

Which characters are whitespace and which end a line is a `Charset`; `python` is the one of the
interpreter (Unicode 15.1 tables). `splitlines` counts a CR LF pair as one boundary and gives no
empty last line.
-/

namespace PyStr

/-- The character classes `strip` and `splitlines` consult. -/
structure Charset where
  isSpace : Char → Bool
  isLineBreak : Char → Bool

/-- `str.isspace` and the boundaries of `str.splitlines`. -/
def python : Charset where
  isSpace c :=
    let n := c.toNat
    decide (0x09 ≤ n ∧ n ≤ 0x0D) || decide (0x1C ≤ n ∧ n ≤ 0x20) || n == 0x85 || n == 0xA0 ||
      n == 0x1680 || decide (0x2000 ≤ n ∧ n ≤ 0x200A) || n == 0x2028 || n == 0x2029 ||
      n == 0x202F || n == 0x205F || n == 0x3000
  isLineBreak c :=
    let n := c.toNat
    decide (0x0A ≤ n ∧ n ≤ 0x0D) || decide (0x1C ≤ n ∧ n ≤ 0x1E) || n == 0x85 ||
      n == 0x2028 || n == 0x2029

/-- `s.strip()`. -/
def strip (cs : Charset) (s : List Char) : List Char :=
  ((s.dropWhile cs.isSpace).reverse.dropWhile cs.isSpace).reverse

/-- The loop of `splitlines`: `cur` is the current line reversed, `cr` says that the character
before was a CR that ended a line, so that a following LF belongs to the same boundary. -/
def splitlinesAux (cs : Charset) (cr : Bool) (cur : List Char) : List Char → List (List Char)
  | [] => if cur.isEmpty then [] else [cur.reverse]
  | c :: rest =>
    if cr && c == '\n' then splitlinesAux cs false cur rest
    else if cs.isLineBreak c then cur.reverse :: splitlinesAux cs (c == '\r') [] rest
    else splitlinesAux cs false (c :: cur) rest

/-- `s.splitlines()`. -/
def splitlines (cs : Charset) (s : List Char) : List (List Char) := splitlinesAux cs false [] s

/-- `s.split(sep)` for a one-character separator. -/
def split (sep : Char) (s : List Char) : List (List Char) := s.splitOn sep

/-! ## `int(str)` -/

/-- The zeros of the decimal-digit runs (category `Nd`). -/
def decimalZeros : List Nat :=
  [0x30, 0x660, 0x6f0, 0x7c0, 0x966, 0x9e6, 0xa66, 0xae6, 0xb66, 0xbe6, 0xc66, 0xce6, 0xd66,
   0xde6, 0xe50, 0xed0, 0xf20, 0x1040, 0x1090, 0x17e0, 0x1810, 0x1946, 0x19d0, 0x1a80, 0x1a90,
   0x1b50, 0x1bb0, 0x1c40, 0x1c50, 0xa620, 0xa8d0, 0xa900, 0xa9d0, 0xa9f0, 0xaa50, 0xabf0,
   0xff10, 0x104a0, 0x10d30, 0x11066, 0x110f0, 0x11136, 0x111d0, 0x112f0, 0x11450, 0x114d0,
   0x11650, 0x116c0, 0x11730, 0x118e0, 0x11950, 0x11c50, 0x11d50, 0x11da0, 0x11f50, 0x16a60,
   0x16ac0, 0x16b50, 0x1d7ce, 0x1d7d8, 0x1d7e2, 0x1d7ec, 0x1d7f6, 0x1e140, 0x1e2f0, 0x1e4f0,
   0x1e950, 0x1fbf0]

def digitValue (c : Char) : Option Nat :=
  (decimalZeros.find? fun z => decide (z ≤ c.toNat ∧ c.toNat < z + 10)).map (c.toNat - ·)

/-- Digits with single underscores between them; `seen` says that the last character was a digit.
Returns the value and the number of digits. -/
def parseDigits (value count : Nat) (seen : Bool) : List Char → Option (Nat × Nat)
  | [] => if seen then some (value, count) else none
  | '_' :: rest => if seen then parseDigits value count false rest else none
  | c :: rest =>
    match digitValue c with
    | none => none
    | some d => parseDigits (10 * value + d) (count + 1) true rest

/-- The interpreter's default limit on the digits of a string it converts to `int`. -/
def maxStrDigits : Nat := 4300

/-- `int(s)`; `none` is `ValueError`. -/
def parseInt (s : List Char) : Option Int :=
  let unsigned (ds : List Char) : Option Nat :=
    match parseDigits 0 0 false ds with
    | none => none
    | some (v, n) => if n ≤ maxStrDigits then some v else none
  match strip python s with
  | '-' :: ds => (unsigned ds).map fun v => -(v : Int)
  | '+' :: ds => (unsigned ds).map fun v => (v : Int)
  | ds => (unsigned ds).map fun v => (v : Int)

/-! ## Decimals -/

theorem toString_nat_inj {i j : Nat} : toString i = toString j ↔ i = j := by
  constructor
  · intro h
    have := congrArg (fun s => Nat.ofDigitChars 10 s.toList 0) h
    simpa [Nat.repr] using this
  · rintro rfl; rfl

theorem dash_not_mem_toString (i : Nat) : '-' ∉ (toString i).toList := by
  intro h
  have : (toString i).toList = Nat.toDigits 10 i := by simp [Nat.repr]
  rw [this] at h
  have := Nat.isDigit_of_mem_toDigits (by decide) (by decide) h
  revert this; decide

theorem toString_int_inj {a b : Int} : toString a = toString b ↔ a = b := by
  constructor
  · intro h
    cases a with
    | ofNat i =>
      cases b with
      | ofNat j =>
        have hij : toString i = toString j := h
        rw [toString_nat_inj.mp hij]
      | negSucc j =>
        have hd := dash_not_mem_toString i
        have hij : toString i = "-" ++ toString (j + 1) := h
        rw [hij] at hd
        exact absurd (by simp) hd
    | negSucc i =>
      cases b with
      | ofNat j =>
        have hd := dash_not_mem_toString j
        have hij : "-" ++ toString (i + 1) = toString j := h
        rw [← hij] at hd
        exact absurd (by simp) hd
      | negSucc j =>
        have hij : "-" ++ toString (i + 1) = "-" ++ toString (j + 1) := h
        have hs : toString (i + 1) = toString (j + 1) := by simpa using hij
        have := toString_nat_inj.mp hs
        rw [Nat.succ.inj this]
  · rintro rfl; rfl

end PyStr
