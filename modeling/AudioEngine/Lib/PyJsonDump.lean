import AudioEngine.Lib.PyJson
import Mathlib.Tactic.IntervalCases

/-!
# AudioEngine.Lib.PyJsonDump

The UTF-8 bytes of a JSON text, and compact JSON text of an object with string fields.

`loads_encodeUtf8` says that `json.loads` reads from the bytes of a text what it reads from the text,
whichever encodings `detect_encoding` knows.

Strings are written with the two-letter escapes where JSON has them and `\u00..` for the other
control characters; everything else stands as it is. `loadsText_dumpText` says that `json.loads`
reads the fields back, whatever their texts are.
-/

namespace PyJson

/-! ## Text to bytes -/

/-- The UTF-8 bytes of a code point. -/
def encodePoint (c : Nat) : List UInt8 :=
  if c < 0x80 then [UInt8.ofNat c]
  else if c < 0x800 then [UInt8.ofNat (0xC0 + c / 0x40), UInt8.ofNat (0x80 + c % 0x40)]
  else if c < 0x10000 then
    [UInt8.ofNat (0xE0 + c / 0x1000), UInt8.ofNat (0x80 + c / 0x40 % 0x40), UInt8.ofNat (0x80 + c % 0x40)]
  else
    [UInt8.ofNat (0xF0 + c / 0x40000), UInt8.ofNat (0x80 + c / 0x1000 % 0x40),
      UInt8.ofNat (0x80 + c / 0x40 % 0x40), UInt8.ofNat (0x80 + c % 0x40)]

/-- `text.encode()`. -/
def encodeUtf8 (text : List Nat) : List UInt8 := text.flatMap encodePoint

theorem toNat_byte {n : Nat} (h : n < 0x100) : (UInt8.ofNat n).toNat = n := by
  rw [UInt8.toNat_ofNat']
  exact Nat.mod_eq_of_lt h

theorem isTail_byte {n : Nat} : isTail (0x80 + n % 0x40) = true := by
  simp only [isTail, Bool.and_eq_true, decide_eq_true_eq]
  omega

theorem decodeUtf8_point {c : Nat} (hc : c < 0x110000) (rest : List Nat) :
    decodeUtf8 ((encodePoint c).map UInt8.toNat ++ rest) = (decodeUtf8 rest).map (c :: ·) := by
  unfold encodePoint
  split
  · rename_i h
    rw [List.map_singleton, toNat_byte (by omega), List.singleton_append, decodeUtf8.eq_def]
    simp [h]
  split
  · rename_i h1 h2
    have hval : (0xC0 + c / 0x40 - 0xC0) * 0x40 + (0x80 + c % 0x40 - 0x80) = c := by omega
    simp only [List.map_cons, List.map_nil, List.cons_append, List.nil_append]
    rw [toNat_byte (by omega), toNat_byte (by omega), decodeUtf8.eq_def]
    simp only [isTail_byte, Bool.not_true, Bool.false_eq_true, if_false, hval]
    rw [if_neg (by omega), if_pos (by omega)]
  split
  · rename_i h1 h2 h3
    have hval : (0xE0 + c / 0x1000 - 0xE0) * 0x1000 + (0x80 + c / 0x40 % 0x40 - 0x80) * 0x40 +
        (0x80 + c % 0x40 - 0x80) = c := by omega
    simp only [List.map_cons, List.map_nil, List.cons_append, List.nil_append]
    rw [toNat_byte (by omega), toNat_byte (by omega), toNat_byte (by omega), decodeUtf8.eq_def]
    simp only [isTail_byte, Bool.not_true, Bool.false_eq_true, if_false, hval]
    rw [if_neg (by omega), if_neg (by omega), if_pos (by omega), if_pos (by omega)]
  · rename_i h1 h2 h3
    have hval : (0xF0 + c / 0x40000 - 0xF0) * 0x40000 + (0x80 + c / 0x1000 % 0x40 - 0x80) * 0x1000 +
        (0x80 + c / 0x40 % 0x40 - 0x80) * 0x40 + (0x80 + c % 0x40 - 0x80) = c := by omega
    simp only [List.map_cons, List.map_nil, List.cons_append, List.nil_append]
    rw [toNat_byte (by omega), toNat_byte (by omega), toNat_byte (by omega), toNat_byte (by omega),
      decodeUtf8.eq_def]
    simp only [isTail_byte, Bool.not_true, Bool.false_eq_true, if_false, hval]
    rw [if_neg (by omega), if_neg (by omega), if_neg (by omega),
      if_pos ⟨trivial, by omega, by omega, by omega⟩]

theorem decodeUtf8_encodeUtf8 {text : List Nat} (h : ∀ c ∈ text, c < 0x110000) :
    decodeUtf8 ((encodeUtf8 text).map UInt8.toNat) = some text := by
  induction text with
  | nil => rfl
  | cons c text ih =>
    rw [encodeUtf8, List.flatMap_cons, List.map_append, decodeUtf8_point (h c (by simp))]
    rw [← encodeUtf8, ih fun d hd => h d (by simp [hd])]
    rfl

/-- Text that begins with two ASCII letters, NUL apart, is taken for UTF-8. -/
theorem detectEncoding_text {b0 b1 : Nat} {rest : List Nat} (h0 : 0 < b0) (h0' : b0 < 0x80)
    (h1 : 0 < b1) : detectEncoding (b0 :: b1 :: rest) = (.utf8, b0 :: b1 :: rest) := by
  -- every byte order mark starts with a byte that is NUL or above ASCII
  have hstart : ∀ x bom, (x = 0 ∨ 0x80 ≤ x) → starts (b0 :: b1 :: rest) (x :: bom) = false := by
    intro x bom hx
    have hne : (b0 == x) = false := beq_false_of_ne (by omega)
    simp [starts, hne]
  unfold detectEncoding
  rw [hstart _ _ (by omega), hstart _ _ (by omega), hstart _ _ (by omega), hstart _ _ (by omega),
    hstart _ _ (by omega)]
  simp only [Bool.false_eq_true, if_false]
  cases rest with
  | nil => simp only [if_neg (show ¬ b0 = 0 by omega), if_neg (show ¬ b1 = 0 by omega)]
  | cons b2 rest =>
    cases rest with
    | nil => rfl
    | cons b3 rest => simp only [if_neg (show ¬ b0 = 0 by omega), if_neg (show ¬ b1 = 0 by omega)]

/-! ## Reading a text from its bytes -/

/-- What a JSON text can start with. -/
theorem step_first {depth c : Nat} {s : St} (h : step depth {} c = some s) : 0 < c ∧ c < 0x80 := by
  by_contra hc
  have hne : c = 0 ∨ 0x80 ≤ c := by omega
  have hnone : step depth {} c = none := by
    have hspace : isSpace c = false := by
      simp only [isSpace, Bool.or_eq_false_iff, beq_eq_false_iff_ne]
      omega
    have hdigit : isDigit c = false := by
      simp only [isDigit, Bool.and_eq_false_iff, decide_eq_false_iff_not]
      omega
    simp only [step, stepValue, hspace, hdigit, Bool.false_eq_true, and_false, if_false]
    rw [if_neg (by omega), if_neg (by omega), if_neg (by omega), if_neg (by omega), if_neg (by omega),
      if_neg (by omega), if_neg (by omega), if_neg (by omega), if_neg (by omega), if_neg (by omega)]
  rw [hnone] at h
  cases h

/-- It does not go on with a NUL. -/
theorem step_second {depth c : Nat} {s : St} (h : step depth {} c = some s) :
    step depth s 0 = none := by
  obtain ⟨_, h80⟩ := step_first h
  have hall : ((step depth {} c).all fun s => (step depth s 0).isNone) = true := by
    interval_cases c <;> cases depth <;> rfl
  rw [h] at hall
  exact Option.isNone_iff_eq_none.mp hall

theorem encodePoint_head {c : Nat} (h0 : 0 < c) (hc : c < 0x110000) :
    ∃ b rest, encodePoint c = b :: rest ∧ 0 < b.toNat := by
  unfold encodePoint
  split_ifs
  · exact ⟨_, _, rfl, by rw [toNat_byte (by omega)]; exact h0⟩
  · exact ⟨_, _, rfl, by rw [toNat_byte (by omega)]; omega⟩
  · exact ⟨_, _, rfl, by rw [toNat_byte (by omega)]; omega⟩
  · exact ⟨_, _, rfl, by rw [toNat_byte (by omega)]; omega⟩

/-- The bytes of a JSON text are taken for UTF-8: a byte order mark or a NUL among the first two
bytes would be no JSON. -/
theorem decodeBytes_encodeUtf8 {depth : Nat} {text : List Nat} {v : Json}
    (hvalid : ∀ c ∈ text, c < 0x110000) (h : loadsText depth text = some v) :
    decodeBytes (encodeUtf8 text) = some text := by
  obtain ⟨s, hrun, _⟩ := Option.bind_eq_some_iff.mp h
  match text with
  | [] => rfl
  | [c] =>
    rw [List.foldlM_cons] at hrun
    obtain ⟨s₁, hfirst, _⟩ := Option.bind_eq_some_iff.mp hrun
    obtain ⟨h0, h80⟩ := step_first hfirst
    have hbyte : encodeUtf8 [c] = [UInt8.ofNat c] := by simp [encodeUtf8, encodePoint, h80]
    have hnat := toNat_byte (show c < 0x100 by omega)
    rw [hbyte, decodeBytes_ascii (by simp [hnat, h0, h80]), List.map_singleton, hnat]
  | c :: d :: rest =>
    rw [List.foldlM_cons] at hrun
    obtain ⟨s₁, hfirst, hrun⟩ := Option.bind_eq_some_iff.mp hrun
    rw [List.foldlM_cons] at hrun
    obtain ⟨s₂, hsecond, _⟩ := Option.bind_eq_some_iff.mp hrun
    obtain ⟨h0, h80⟩ := step_first hfirst
    have hd : 0 < d := by
      by_contra hd
      rw [Nat.eq_zero_of_not_pos hd, step_second hfirst] at hsecond
      cases hsecond
    obtain ⟨b, tail, hb, hb0⟩ := encodePoint_head hd (hvalid d (by simp))
    have hbytes : (encodeUtf8 (c :: d :: rest)).map UInt8.toNat =
        c :: b.toNat :: (tail ++ encodeUtf8 rest).map UInt8.toNat := by
      have hc : encodePoint c = [UInt8.ofNat c] := if_pos h80
      simp only [encodeUtf8, List.flatMap_cons, hc, hb, List.cons_append, List.nil_append,
        List.map_cons, toNat_byte (show c < 0x100 by omega)]
    rw [decodeBytes, hbytes, detectEncoding_text h0 h80 hb0, ← hbytes]
    exact decodeUtf8_encodeUtf8 hvalid

theorem lt_of_isValidChar {c : Nat} (h : Nat.isValidChar c) : c < 0x110000 := by
  rcases h with h | ⟨_, h⟩
  · exact Nat.lt_trans h (by decide)
  · exact h

/-- `json.loads` reads from the UTF-8 bytes of a string what it reads from the string. -/
theorem loads_encodeUtf8 {depth : Nat} {s : String} {v : Json}
    (h : loadsText depth (points s) = some v) : loads depth (encodeUtf8 (points s)) = some v := by
  have hvalid := fun c hc => lt_of_isValidChar (points_valid s c hc)
  rw [loads, decodeBytes_encodeUtf8 hvalid h]
  exact h

/-! ## Values to text -/

def hexDigit (d : Nat) : Nat := if d < 10 then 0x30 + d else 0x57 + d

/-- A character of a string. -/
def escape (c : Nat) : List Nat :=
  if c = 0x22 then [0x5C, 0x22]
  else if c = 0x5C then [0x5C, 0x5C]
  else if c = 0x08 then [0x5C, 0x62]
  else if c = 0x09 then [0x5C, 0x74]
  else if c = 0x0A then [0x5C, 0x6E]
  else if c = 0x0C then [0x5C, 0x66]
  else if c = 0x0D then [0x5C, 0x72]
  else if c < 0x20 then [0x5C, 0x75, 0x30, 0x30, hexDigit (c / 16), hexDigit (c % 16)]
  else [c]

theorem escape_plain {c : Nat} (hc : ¬ c < 0x20) (hquote : c ≠ 0x22) (hslash : c ≠ 0x5C) :
    escape c = [c] := by
  unfold escape
  rw [if_neg hquote, if_neg hslash, if_neg (by omega), if_neg (by omega), if_neg (by omega),
    if_neg (by omega), if_neg (by omega), if_neg hc]

def dumpStr (s : List Nat) : List Nat := 0x22 :: s.flatMap escape ++ [0x22]

def dumpField (f : List Nat × List Nat) : List Nat := dumpStr f.1 ++ 0x3A :: dumpStr f.2

def dumpFields : List (List Nat × List Nat) → List Nat
  | [] => []
  | [f] => dumpField f
  | f :: g :: rest => dumpField f ++ 0x2C :: dumpFields (g :: rest)

/-- An object whose fields are strings. -/
def dumpObj (fields : List (List Nat × List Nat)) : List Nat := 0x7B :: dumpFields fields ++ [0x7D]

/-! ## Reading it back -/

section Read

variable (depth : Nat) (stack : List Frame)

/-- The decoder over one character of a string. -/
theorem step_escape (isName : Bool) (c : Nat) (acc : List Nat) :
    (escape c).foldlM (step depth) { mode := .text isName .none false acc, stack := stack } =
      some { mode := .text isName .none false (c :: acc), stack := stack } := by
  by_cases hc : c < 0x20
  · interval_cases c <;> rfl
  by_cases hquote : c = 0x22
  · subst c; rfl
  by_cases hslash : c = 0x5C
  · subst c; rfl
  · have hplain : step depth { mode := .text isName .none false acc, stack := stack } c =
        some { mode := .text isName .none false (c :: acc), stack := stack } := by
      simp only [step, stepText]
      rw [if_neg hquote, if_neg hslash, if_neg hc]
    rw [escape_plain hc hquote hslash, List.foldlM_cons, hplain]
    rfl

/-- The decoder over the characters of a string. -/
theorem run_text (isName : Bool) (s acc : List Nat) :
    (s.flatMap escape).foldlM (step depth)
        { mode := .text isName .none false acc, stack := stack } =
      some { mode := .text isName .none false (s.reverse ++ acc), stack := stack } := by
  induction s generalizing acc with
  | nil => rfl
  | cons c s ih =>
    rw [List.flatMap_cons, List.foldlM_append, step_escape, Option.bind_eq_bind, Option.bind_some,
      ih]
    simp

/-- From inside the opening quote to behind the closing one. -/
theorem run_quoted (isName : Bool) (s : List Nat) :
    (s.flatMap escape ++ [0x22]).foldlM (step depth)
        { mode := .text isName .none false [], stack := stack } =
      completeText isName s { mode := .text isName .none false s.reverse, stack := stack } := by
  rw [List.foldlM_append, run_text, Option.bind_eq_bind, Option.bind_some, List.append_nil,
    List.foldlM_cons]
  simp only [step, stepText, if_true, List.reverse_reverse, List.foldlM_nil, Option.bind_eq_bind,
    Option.pure_def, Option.bind_fun_some]

/-- One field of an open object, behind the brace or a comma. -/
theorem run_field (closable : Bool) (fields : List (List Nat × Json)) (name : List Nat)
    (f : List Nat × List Nat) :
    (dumpField f).foldlM (step depth)
        { mode := .name closable, stack := .obj fields name :: stack } =
      some { mode := .after, stack := .obj ((f.1, .str f.2) :: fields) [] :: stack } := by
  have hname : (dumpStr f.1).foldlM (step depth)
      { mode := .name closable, stack := .obj fields name :: stack } =
      some { mode := .colon, stack := .obj fields f.1 :: stack } := by
    rw [dumpStr, List.cons_append, List.foldlM_cons]
    exact run_quoted depth (.obj fields name :: stack) true f.1
  rw [dumpField, List.foldlM_append, hname, Option.bind_eq_bind, Option.bind_some, dumpStr,
    List.cons_append]
  exact run_quoted depth (.obj fields f.1 :: stack) false f.2

/-- The fields of an object, at least one. -/
theorem run_fields (closable : Bool) (fields : List (List Nat × Json)) (name : List Nat)
    (f : List Nat × List Nat) (rest : List (List Nat × List Nat)) :
    (dumpFields (f :: rest)).foldlM (step depth)
        { mode := .name closable, stack := .obj fields name :: stack } =
      some { mode := .after
             stack := .obj (((f :: rest).map fun g => (g.1, Json.str g.2)).reverse ++ fields) [] ::
               stack } := by
  induction rest generalizing closable fields name f with
  | nil => exact run_field depth stack closable fields name f
  | cons g rest ih =>
    rw [dumpFields, List.foldlM_append, run_field, Option.bind_eq_bind, Option.bind_some,
      List.foldlM_cons]
    refine (ih false _ [] g).trans ?_
    simp

end Read

theorem loadsText_dumpObj {depth : Nat} (hdepth : 0 < depth) (fields : List (List Nat × List Nat)) :
    loadsText depth (dumpObj fields) = some (.obj (fields.map fun f => (f.1, .str f.2))) := by
  have hopen : step depth {} 0x7B = some { mode := .name true, stack := [.obj [] []] } := if_pos hdepth
  rw [loadsText, dumpObj, List.cons_append, List.foldlM_cons, hopen, Option.bind_eq_bind,
    Option.bind_some, List.foldlM_append]
  cases fields with
  | nil => rfl
  | cons f rest =>
    rw [run_fields, Option.bind_eq_bind, Option.bind_some, List.append_nil, List.foldlM_cons]
    change some (Json.obj (List.reverse (List.reverse _))) = _
    rw [List.reverse_reverse]

/-! ## The text is a string -/

theorem escape_valid {c : Nat} (hc : Nat.isValidChar c) : ∀ d ∈ escape c, Nat.isValidChar d := by
  by_cases h : c < 0x20
  · interval_cases c <;> decide
  · intro d hd
    have hascii : ∀ x < 0x80, Nat.isValidChar x := fun x hx => .inl (by omega)
    unfold escape at hd
    grind

theorem dumpStr_valid {s : List Nat} (hs : ∀ c ∈ s, Nat.isValidChar c) :
    ∀ d ∈ dumpStr s, Nat.isValidChar d := by
  intro d hd
  simp only [dumpStr, List.cons_append, List.mem_cons, List.mem_append, List.mem_flatMap,
    List.not_mem_nil, or_false] at hd
  obtain rfl | ⟨c, hc, hd⟩ | rfl := hd
  · decide
  · exact escape_valid (hs c hc) d hd
  · decide

theorem dumpField_valid {f : List Nat × List Nat} (hf : ∀ c ∈ f.1 ++ f.2, Nat.isValidChar c) :
    ∀ d ∈ dumpField f, Nat.isValidChar d := by
  intro d hd
  simp only [dumpField, List.mem_append, List.mem_cons] at hd
  obtain hd | rfl | hd := hd
  · exact dumpStr_valid (fun c hc => hf c (by simp [hc])) d hd
  · decide
  · exact dumpStr_valid (fun c hc => hf c (by simp [hc])) d hd

theorem dumpFields_valid {fields : List (List Nat × List Nat)}
    (hfields : ∀ f ∈ fields, ∀ c ∈ f.1 ++ f.2, Nat.isValidChar c) :
    ∀ d ∈ dumpFields fields, Nat.isValidChar d := by
  induction fields with
  | nil => simp [dumpFields]
  | cons f rest ih =>
    have hrest := ih fun g hg => hfields g (by simp [hg])
    have hfirst := dumpField_valid (hfields f (by simp))
    cases rest with
    | nil => exact hfirst
    | cons g rest =>
      intro d hd
      rw [dumpFields, List.mem_append, List.mem_cons] at hd
      obtain hd | rfl | hd := hd
      · exact hfirst d hd
      · decide
      · exact hrest d hd

theorem dumpObj_valid {fields : List (List Nat × List Nat)}
    (hfields : ∀ f ∈ fields, ∀ c ∈ f.1 ++ f.2, Nat.isValidChar c) :
    ∀ d ∈ dumpObj fields, Nat.isValidChar d := by
  intro d hd
  simp only [dumpObj, List.cons_append, List.mem_cons, List.mem_append, List.not_mem_nil,
    or_false] at hd
  obtain rfl | hd | rfl := hd
  · decide
  · exact dumpFields_valid hfields d hd
  · decide

/-- The object as a string. -/
def dumpText (fields : List (String × String)) : String :=
  String.ofList ((dumpObj (fields.map fun f => (points f.1, points f.2))).map Char.ofNat)

theorem points_ofNat {text : List Nat} (h : ∀ c ∈ text, Nat.isValidChar c) :
    points (String.ofList (text.map Char.ofNat)) = text := by
  rw [points, String.toList_ofList, List.map_map]
  refine (List.map_congr_left fun c hc => ?_).trans (List.map_id _)
  rw [Function.comp_apply, Char.ofNat, dif_pos (h c hc)]
  rfl

/-- `json.loads` reads the fields of `dumpText` back, in order. -/
theorem loadsText_dumpText {depth : Nat} (hdepth : 0 < depth) (fields : List (String × String)) :
    loadsText depth (points (dumpText fields)) =
      some (.obj (fields.map fun f => (points f.1, .str (points f.2)))) := by
  have hvalid : ∀ f ∈ fields.map fun f => (points f.1, points f.2),
      ∀ c ∈ f.1 ++ f.2, Nat.isValidChar c := by
    intro f hf c hc
    obtain ⟨g, _, rfl⟩ := List.mem_map.mp hf
    rcases List.mem_append.mp hc with hc | hc
    · exact points_valid _ c hc
    · exact points_valid _ c hc
  rw [dumpText, points_ofNat (dumpObj_valid hvalid), loadsText_dumpObj hdepth, List.map_map]
  rfl

end PyJson
