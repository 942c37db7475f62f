import AudioEngine.Lib.PyStr

/-!
# AudioEngine.Lib.PyJson

Python's `json.loads` on bytes.

The bytes are decoded by the encoding that `detect_encoding` guesses, with the error handler
`surrogatepass`: text is a list of code points, lone surrogates included. The decoder is a machine
that reads one code point at a time and keeps the open arrays and objects on a stack, so it runs by
recursion on the text alone; the interpreter's recursion limit is the parameter `depth`.

It differs from RFC 8259 where Python does: `NaN`, `Infinity` and `-Infinity` are values, of several
fields of one name the last one counts, and an integer of more than 4300 digits raises. `none` is an
exception, whichever.
-/

namespace PyJson

/-- A value. A float keeps its literal. -/
inductive Json where
  | null
  | bool (b : Bool)
  | int (z : Int)
  | float (literal : List Nat)
  | str (s : List Nat)
  | arr (items : List Json)
  | obj (fields : List (List Nat × Json))

/-- The code points of a string. -/
def points (s : String) : List Nat := s.toList.map Char.toNat

theorem points_valid (s : String) : ∀ c ∈ points s, Nat.isValidChar c := by
  intro c hc
  obtain ⟨d, _, rfl⟩ := List.mem_map.mp hc
  exact d.valid

theorem points_injective : Function.Injective points := by
  intro s t h
  have hchar : Function.Injective Char.toNat := fun a b hab => Char.ext (UInt32.toNat_inj.mp hab)
  exact String.toList_inj.mp (List.map_injective_iff.mpr hchar h)

/-- `d.get(name)`, with `none` for a missing name. -/
def get (fields : List (List Nat × Json)) (name : String) : Option Json :=
  fields.reverse.lookup (points name)

/-! ## Bytes to text -/

inductive Encoding where
  | utf8
  | utf16 (big : Bool)
  | utf32 (big : Bool)
deriving DecidableEq, Repr

def starts (b bom : List Nat) : Bool := b.take bom.length == bom

/-- `detect_encoding(b)`, with the bytes after the byte order mark. -/
def detectEncoding (b : List Nat) : Encoding × List Nat :=
  if starts b [0x00, 0x00, 0xFE, 0xFF] then (.utf32 true, b.drop 4)
  else if starts b [0xFF, 0xFE, 0x00, 0x00] then (.utf32 false, b.drop 4)
  else if starts b [0xFE, 0xFF] then (.utf16 true, b.drop 2)
  else if starts b [0xFF, 0xFE] then (.utf16 false, b.drop 2)
  else if starts b [0xEF, 0xBB, 0xBF] then (.utf8, b.drop 3)
  else
    match b with
    | b0 :: b1 :: b2 :: b3 :: _ =>
      if b0 = 0 then (if b1 ≠ 0 then .utf16 true else .utf32 true, b)
      else if b1 = 0 then (if b2 ≠ 0 ∨ b3 ≠ 0 then .utf16 false else .utf32 false, b)
      else (.utf8, b)
    | [b0, b1] =>
      if b0 = 0 then (.utf16 true, b) else if b1 = 0 then (.utf16 false, b) else (.utf8, b)
    | _ => (.utf8, b)

def isTail (b : Nat) : Bool := 0x80 ≤ b && b < 0xC0

/-- UTF-8 with surrogates let through. -/
def decodeUtf8 : List Nat → Option (List Nat)
  | [] => some []
  | b0 :: rest =>
    if b0 < 0x80 then (decodeUtf8 rest).map (b0 :: ·)
    else
      match rest with
      | [] => none
      | b1 :: rest =>
        if !isTail b1 then none
        else if 0xC2 ≤ b0 ∧ b0 < 0xE0 then
          let c := (b0 - 0xC0) * 0x40 + (b1 - 0x80)
          (decodeUtf8 rest).map (c :: ·)
        else
          match rest with
          | [] => none
          | b2 :: rest =>
            if !isTail b2 then none
            else if 0xE0 ≤ b0 ∧ b0 < 0xF0 then
              let c := (b0 - 0xE0) * 0x1000 + (b1 - 0x80) * 0x40 + (b2 - 0x80)
              if 0x800 ≤ c then (decodeUtf8 rest).map (c :: ·) else none
            else
              match rest with
              | [] => none
              | b3 :: rest =>
                let c := (b0 - 0xF0) * 0x40000 + (b1 - 0x80) * 0x1000 + (b2 - 0x80) * 0x40 +
                  (b3 - 0x80)
                if isTail b3 ∧ 0xF0 ≤ b0 ∧ 0x10000 ≤ c ∧ c < 0x110000 then
                  (decodeUtf8 rest).map (c :: ·)
                else none

def isHigh (c : Nat) : Bool := 0xD800 ≤ c && c < 0xDC00

def isLow (c : Nat) : Bool := 0xDC00 ≤ c && c < 0xE000

def joinSurrogates (high low : Nat) : Nat := 0x10000 + (high - 0xD800) * 0x400 + (low - 0xDC00)

/-- UTF-16 with lone surrogates let through; `high` is the unit before. -/
def decodeUtf16 (big : Bool) (high : Option Nat) : List Nat → Option (List Nat)
  | [] => some high.toList
  | [_] => none
  | b0 :: b1 :: rest =>
    let c := if big then b0 * 0x100 + b1 else b1 * 0x100 + b0
    match high with
    | some h =>
      if isLow c then (decodeUtf16 big none rest).map (joinSurrogates h c :: ·)
      else if isHigh c then (decodeUtf16 big (some c) rest).map (h :: ·)
      else (decodeUtf16 big none rest).map (h :: c :: ·)
    | none =>
      if isHigh c then decodeUtf16 big (some c) rest
      else (decodeUtf16 big none rest).map (c :: ·)

def decodeUtf32 (big : Bool) : List Nat → Option (List Nat)
  | [] => some []
  | b0 :: b1 :: b2 :: b3 :: rest =>
    let c := if big then ((b0 * 0x100 + b1) * 0x100 + b2) * 0x100 + b3
      else ((b3 * 0x100 + b2) * 0x100 + b1) * 0x100 + b0
    if c < 0x110000 then (decodeUtf32 big rest).map (c :: ·) else none
  | _ => none

/-- `b.decode(detect_encoding(b), 'surrogatepass')`. -/
def decodeBytes (b : List UInt8) : Option (List Nat) :=
  match detectEncoding (b.map UInt8.toNat) with
  | (.utf8, rest) => decodeUtf8 rest
  | (.utf16 big, rest) => decodeUtf16 big none rest
  | (.utf32 big, rest) => decodeUtf32 big rest

theorem decodeUtf8_ascii {b : List Nat} (h : ∀ c ∈ b, c < 0x80) : decodeUtf8 b = some b := by
  induction b with
  | nil => rfl
  | cons c rest ih =>
    have hrest := ih fun d hd => h d (by simp [hd])
    rw [decodeUtf8.eq_def]
    simp only [if_pos (h c (by simp)), hrest, Option.map_some]

/-- Bytes of ASCII text, NUL apart, are taken for UTF-8. -/
theorem decodeBytes_ascii {b : List UInt8} (h : ∀ c ∈ b, 0 < c.toNat ∧ c.toNat < 0x80) :
    decodeBytes b = some (b.map UInt8.toNat) := by
  have hmem : ∀ c ∈ b.map UInt8.toNat, 0 < c ∧ c < 0x80 := by
    intro c hc
    obtain ⟨d, hd, rfl⟩ := List.mem_map.mp hc
    exact h d hd
  -- every byte order mark starts with a byte that is NUL or above ASCII
  have hstart : ∀ x bom, (x = 0 ∨ 0x80 ≤ x) → starts (b.map UInt8.toNat) (x :: bom) = false := by
    intro x bom hx
    cases hb : b.map UInt8.toNat with
    | nil => rfl
    | cons c rest =>
      have hc := hmem c (by simp [hb])
      have hne : (c == x) = false := beq_false_of_ne (by omega)
      simp [starts, hne]
  have hdetect : detectEncoding (b.map UInt8.toNat) = (.utf8, b.map UInt8.toNat) := by
    unfold detectEncoding
    rw [hstart _ _ (by omega), hstart _ _ (by omega), hstart _ _ (by omega), hstart _ _ (by omega),
      hstart _ _ (by omega)]
    simp only [Bool.false_eq_true, if_false]
    split
    · rename_i b0 b1 b2 b3 rest hb
      have h0 := hmem b0 (by simp [hb])
      have h1 := hmem b1 (by simp [hb])
      rw [if_neg (by omega), if_neg (by omega)]
    · rename_i b0 b1 hb
      have h0 := hmem b0 (by simp [hb])
      have h1 := hmem b1 (by simp [hb])
      rw [if_neg (by omega), if_neg (by omega)]
    · rfl
  rw [decodeBytes, hdetect]
  exact decodeUtf8_ascii fun c hc => (hmem c hc).2

/-! ## Text to values -/

/-- Inside a backslash escape. -/
inductive Escape where
  | none
  | slash
  | unicode (count value : Nat)
deriving DecidableEq, Repr

inductive NumState where
  | minus
  | zero
  | digits
  | dot
  | fraction
  | exponent
  | expSign
  | expDigits
deriving DecidableEq, Repr

/-- An array or object that is open; what it has so far stands newest first. -/
inductive Frame where
  | arr (items : List Json)
  | obj (fields : List (List Nat × Json)) (name : List Nat)

inductive Mode where
  /-- before a value; `closable` after an opening bracket -/
  | value (closable : Bool)
  /-- before a name; `closable` after an opening brace -/
  | name (closable : Bool)
  | colon
  /-- in a string, newest first; `high` is an escaped high surrogate just read -/
  | text (isName : Bool) (esc : Escape) (high : Bool) (acc : List Nat)
  | literal (rest : List Nat) (v : Json)
  | number (st : NumState) (acc : List Nat)
  /-- after a value -/
  | after

structure St where
  mode : Mode := .value false
  stack : List Frame := []
  result : Option Json := none

def isSpace (c : Nat) : Bool := c == 0x20 || c == 0x09 || c == 0x0A || c == 0x0D

def isDigit (c : Nat) : Bool := 0x30 ≤ c && c ≤ 0x39

def hexValue (c : Nat) : Option Nat :=
  if isDigit c then some (c - 0x30)
  else if 0x41 ≤ c ∧ c ≤ 0x46 then some (c - 0x37)
  else if 0x61 ≤ c ∧ c ≤ 0x66 then some (c - 0x57)
  else none

/-- A value is complete. -/
def complete (v : Json) : List Frame → St
  | [] => { mode := .after, result := some v }
  | .arr items :: rest => { mode := .after, stack := .arr (v :: items) :: rest }
  | .obj fields name :: rest => { mode := .after, stack := .obj ((name, v) :: fields) [] :: rest }

def stepAfter (s : St) (c : Nat) : Option St :=
  if isSpace c then some { s with mode := .after }
  else
    match s.stack with
    | [] => none
    | .arr items :: rest =>
      if c = 0x2C then some { s with mode := .value false }
      else if c = 0x5D then some (complete (.arr items.reverse) rest)
      else none
    | .obj fields _ :: rest =>
      if c = 0x2C then some { s with mode := .name false }
      else if c = 0x7D then some (complete (.obj fields.reverse) rest)
      else none

def stepValue (depth : Nat) (closable : Bool) (s : St) (c : Nat) : Option St :=
  let opens (f : Frame) (m : Mode) : Option St :=
    if s.stack.length < depth then some { mode := m, stack := f :: s.stack } else none
  if isSpace c then some s
  else if c = 0x22 then some { s with mode := .text false .none false [] }
  else if c = 0x7B then opens (.obj [] []) (.name true)
  else if c = 0x5B then opens (.arr []) (.value true)
  else if c = 0x5D ∧ closable then stepAfter s c
  else if c = 0x6E then some { s with mode := .literal (points "ull") .null }
  else if c = 0x74 then some { s with mode := .literal (points "rue") (.bool true) }
  else if c = 0x66 then some { s with mode := .literal (points "alse") (.bool false) }
  else if c = 0x4E then some { s with mode := .literal (points "aN") (.float (points "NaN")) }
  else if c = 0x49 then
    some { s with mode := .literal (points "nfinity") (.float (points "Infinity")) }
  else if c = 0x2D then some { s with mode := .number .minus [c] }
  else if c = 0x30 then some { s with mode := .number .zero [c] }
  else if isDigit c then some { s with mode := .number .digits [c] }
  else none

/-- The end of a string. -/
def completeText (isName : Bool) (text : List Nat) (s : St) : Option St :=
  if isName then
    match s.stack with
    | .obj fields _ :: rest => some { s with mode := .colon, stack := .obj fields text :: rest }
    | _ => none
  else some (complete (.str text) s.stack)

def stepText (isName : Bool) (esc : Escape) (high : Bool) (acc : List Nat) (s : St) (c : Nat) :
    Option St :=
  let goOn (esc : Escape) (high : Bool) (acc : List Nat) : Option St :=
    some { s with mode := .text isName esc high acc }
  match esc with
  | .none =>
    if c = 0x22 then completeText isName acc.reverse s
    else if c = 0x5C then goOn .slash high acc
    else if c < 0x20 then none
    else goOn .none false (c :: acc)
  | .slash =>
    if c = 0x22 ∨ c = 0x5C ∨ c = 0x2F then goOn .none false (c :: acc)
    else if c = 0x62 then goOn .none false (0x08 :: acc)
    else if c = 0x66 then goOn .none false (0x0C :: acc)
    else if c = 0x6E then goOn .none false (0x0A :: acc)
    else if c = 0x72 then goOn .none false (0x0D :: acc)
    else if c = 0x74 then goOn .none false (0x09 :: acc)
    else if c = 0x75 then goOn (.unicode 0 0) high acc
    else none
  | .unicode count value =>
    match hexValue c with
    | none => none
    | some d =>
      let value := value * 16 + d
      if count < 3 then goOn (.unicode (count + 1) value) high acc
      else
        match high, acc with
        | true, h :: acc' =>
          if isLow value then goOn .none false (joinSurrogates h value :: acc')
          else goOn .none (isHigh value) (value :: acc)
        | _, _ => goOn .none (isHigh value) (value :: acc)

/-- The value of a number literal, newest digit first; the conversion to `int` has a limit. -/
def numberValue (st : NumState) (acc : List Nat) : Option Json :=
  let digits := acc.reverse.filter isDigit
  let magnitude : Nat := digits.foldl (fun v c => 10 * v + (c - 0x30)) 0
  match st with
  | .zero => some (.int 0)
  | .digits =>
    if digits.length ≤ PyStr.maxStrDigits then
      some (.int (if acc.getLast? = some 0x2D then -(magnitude : Int) else magnitude))
    else none
  | .fraction => some (.float acc.reverse)
  | .expDigits => some (.float acc.reverse)
  | _ => none

/-- How a number literal goes on. -/
def nextNumState (st : NumState) (c : Nat) : Option NumState :=
  match st with
  | .minus => if c = 0x30 then some .zero else if isDigit c then some .digits else none
  | .zero => if c = 0x2E then some .dot else if c = 0x65 ∨ c = 0x45 then some .exponent else none
  | .digits =>
    if isDigit c then some .digits
    else if c = 0x2E then some .dot
    else if c = 0x65 ∨ c = 0x45 then some .exponent
    else none
  | .dot => if isDigit c then some .fraction else none
  | .fraction =>
    if isDigit c then some .fraction else if c = 0x65 ∨ c = 0x45 then some .exponent else none
  | .exponent =>
    if c = 0x2B ∨ c = 0x2D then some .expSign else if isDigit c then some .expDigits else none
  | .expSign => if isDigit c then some .expDigits else none
  | .expDigits => if isDigit c then some .expDigits else none

def stepNumber (st : NumState) (acc : List Nat) (s : St) (c : Nat) : Option St :=
  match nextNumState st c with
  | some st' => some { s with mode := .number st' (c :: acc) }
  | none =>
    if st = .minus ∧ c = 0x49 then
      some { s with mode := .literal (points "nfinity") (.float (points "-Infinity")) }
    else (numberValue st acc).bind fun v => stepAfter (complete v s.stack) c

def step (depth : Nat) (s : St) (c : Nat) : Option St :=
  match s.mode with
  | .value closable => stepValue depth closable s c
  | .name closable =>
    if isSpace c then some s
    else if c = 0x22 then some { s with mode := .text true .none false [] }
    else if c = 0x7D ∧ closable then stepAfter s c
    else none
  | .colon =>
    if isSpace c then some s
    else if c = 0x3A then some { s with mode := .value false }
    else none
  | .text isName esc high acc => stepText isName esc high acc s c
  | .literal [] v => stepAfter (complete v s.stack) c
  | .literal (x :: rest) v =>
    if c ≠ x then none
    else if rest = [] then some (complete v s.stack)
    else some { s with mode := .literal rest v }
  | .number st acc => stepNumber st acc s c
  | .after => stepAfter s c

/-- The end of the text. -/
def finish (s : St) : Option Json :=
  match s.mode, s.stack with
  | .after, [] => s.result
  | .number st acc, [] => numberValue st acc
  | _, _ => none

/-- `json.loads(s)` on a text. -/
def loadsText (depth : Nat) (text : List Nat) : Option Json := (text.foldlM (step depth) {}).bind finish

/-- `json.loads(b)`. -/
def loads (depth : Nat) (b : List UInt8) : Option Json :=
  match decodeBytes b with
  | none => none
  | some text => loadsText depth text

/-- `[1, -Infinity]` decodes, `[1,]` does not. -/
example : (loads 8 ("[1, -Infinity]".toList.map fun c => UInt8.ofNat c.toNat)).isSome = true ∧
    (loads 8 ("[1,]".toList.map fun c => UInt8.ofNat c.toNat)).isSome = false := by decide +kernel

end PyJson
