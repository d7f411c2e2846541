/-
# JSON text

The grammar of JSON read by a recursive-descent parser in the manner of `serde_json`:
`fromStr` reads one value between optional whitespace and fails on anything after it.  It fails
on a control character in a string, on an escape it does not know, on an unpaired surrogate, on
a number with a leading zero or without digits, on a trailing comma, and past a nesting of 127
arrays and objects (the recursion limit: the depth starts at 128 and an error is raised where it
would reach 0).  A number keeps its text.  An object keeps its members in order, and
`Value.get` finds the last member with a key, as inserting them one by one into a map leaves it.

The parser takes a fuel argument, spent one unit per call, so that it is structurally recursive;
`fromStr` gives it one unit more than the text has characters, which every call of the parser
consumes at least one of.

The second half reads back what a `format!` template writes: an object whose keys and strings
need no escape (`PlainString`), between `{` and `}`, with `": "` after a key and `", "` between
members (`renderObject`).  `parseValue_renderObject` reads such an object, given how each of its
values reads.  Nothing here names the program it is used for.
-/
import Mathlib.Data.List.Basic
import Mathlib.Order.Basic

namespace Sequencer.Json

/-! ## 1. The parser -/

/-- A JSON value, as `serde_json::Value` holds it, except that a number keeps its text. -/
inductive Value where
  | null
  | bool (b : Bool)
  | number (text : String)
  | string (s : String)
  | array (elements : List Value)
  | object (members : List (String × Value))

/-- The errors of `serde_json` that the parser raises; `outOfFuel` is the parser's own. -/
inductive Error where
  | eofWhileParsingList
  | eofWhileParsingObject
  | eofWhileParsingString
  | eofWhileParsingValue
  | expectedColon
  | expectedListCommaOrEnd
  | expectedObjectCommaOrEnd
  | expectedSomeIdent
  | expectedSomeValue
  | invalidEscape
  | invalidNumber
  | invalidUnicodeCodePoint
  | keyMustBeAString
  | loneLeadingSurrogateInHexEscape
  | trailingComma
  | trailingCharacters
  | recursionLimitExceeded
  | controlCharacterWhileParsingString
  | invalidType
  | outOfFuel
  deriving DecidableEq, Repr

/-- Whitespace between tokens: space, tab, line feed and carriage return. -/
def isWhitespace (c : Char) : Bool := c = ' ' ∨ c = '\t' ∨ c = '\n' ∨ c = '\r'

def skipWhitespace : List Char → List Char
  | [] => []
  | c :: cs => if isWhitespace c then skipWhitespace cs else c :: cs

/-- The rest of a literal `null`, `true` or `false`. -/
def parseIdent (expected rest : List Char) (v : Value) : Except Error (Value × List Char) :=
  if expected.isPrefixOf rest then .ok (v, rest.drop expected.length)
  else if rest.length < expected.length ∧ rest.isPrefixOf expected then .error .eofWhileParsingValue
  else .error .expectedSomeIdent

/-- The value of four hexadecimal digits. -/
def hex4 (a b c d : Char) : Option Nat := do
  let digit (x : Char) : Option Nat :=
    if x.isDigit then some (x.toNat - '0'.toNat)
    else if 'a' ≤ x ∧ x ≤ 'f' then some (x.toNat - 'a'.toNat + 10)
    else if 'A' ≤ x ∧ x ≤ 'F' then some (x.toNat - 'A'.toNat + 10)
    else none
  pure ((((← digit a) * 16 + (← digit b)) * 16 + (← digit c)) * 16 + (← digit d))

/-- The characters of a string after its opening quote, escapes decoded, and what follows the
closing quote. -/
def parseStringChars : List Char → Except Error (List Char × List Char)
  | [] => .error .eofWhileParsingString
  | '"' :: rest => .ok ([], rest)
  | '\\' :: rest =>
    match rest with
    | '"' :: rest => (parseStringChars rest).map fun (s, rest) => ('"' :: s, rest)
    | '\\' :: rest => (parseStringChars rest).map fun (s, rest) => ('\\' :: s, rest)
    | '/' :: rest => (parseStringChars rest).map fun (s, rest) => ('/' :: s, rest)
    | 'b' :: rest => (parseStringChars rest).map fun (s, rest) => ('\x08' :: s, rest)
    | 'f' :: rest => (parseStringChars rest).map fun (s, rest) => ('\x0c' :: s, rest)
    | 'n' :: rest => (parseStringChars rest).map fun (s, rest) => ('\n' :: s, rest)
    | 'r' :: rest => (parseStringChars rest).map fun (s, rest) => ('\r' :: s, rest)
    | 't' :: rest => (parseStringChars rest).map fun (s, rest) => ('\t' :: s, rest)
    | 'u' :: a :: b :: c :: d :: rest =>
      match hex4 a b c d with
      | none => .error .invalidEscape
      | some n =>
        if 0xD800 ≤ n ∧ n < 0xDC00 then
          -- a leading surrogate must be followed by an escaped trailing one
          match rest with
          | '\\' :: 'u' :: a :: b :: c :: d :: rest =>
            match hex4 a b c d with
            | some m =>
              if 0xDC00 ≤ m ∧ m < 0xE000 then
                (parseStringChars rest).map fun (s, rest) =>
                  (Char.ofNat (0x10000 + (n - 0xD800) * 0x400 + (m - 0xDC00)) :: s, rest)
              else .error .invalidUnicodeCodePoint
            | none => .error .invalidEscape
          | _ => .error .loneLeadingSurrogateInHexEscape
        else if 0xDC00 ≤ n ∧ n < 0xE000 then .error .invalidUnicodeCodePoint
        else (parseStringChars rest).map fun (s, rest) => (Char.ofNat n :: s, rest)
    | [] => .error .eofWhileParsingString
    | _ => .error .invalidEscape
  | c :: rest =>
    if c.toNat < 0x20 then .error .controlCharacterWhileParsingString
    else (parseStringChars rest).map fun (s, rest) => (c :: s, rest)

/-- The integer part of a number: `0`, or a digit from 1 to 9 and more digits. -/
def parseInteger : List Char → Except Error (List Char × List Char)
  | '0' :: rest =>
    if (rest.head?.map Char.isDigit).getD false then .error .invalidNumber else .ok (['0'], rest)
  | c :: rest =>
    if c.isDigit then .ok (c :: rest.takeWhile Char.isDigit, rest.dropWhile Char.isDigit)
    else .error .invalidNumber
  | [] => .error .eofWhileParsingValue

/-- A fraction, if a point follows: the point and at least one digit. -/
def parseFraction : List Char → Except Error (List Char × List Char)
  | '.' :: rest =>
    if (rest.takeWhile Char.isDigit).isEmpty then .error .invalidNumber
    else .ok ('.' :: rest.takeWhile Char.isDigit, rest.dropWhile Char.isDigit)
  | rest => .ok ([], rest)

/-- An exponent, if `e` or `E` follows: a sign perhaps, and at least one digit. -/
def parseExponent : List Char → Except Error (List Char × List Char)
  | e :: rest =>
    if e = 'e' ∨ e = 'E' then
      let (sign, rest) := match rest with
        | '+' :: rest => (['+'], rest)
        | '-' :: rest => (['-'], rest)
        | rest => ([], rest)
      if (rest.takeWhile Char.isDigit).isEmpty then .error .invalidNumber
      else .ok (e :: sign ++ rest.takeWhile Char.isDigit, rest.dropWhile Char.isDigit)
    else .ok ([], e :: rest)
  | [] => .ok ([], [])

/-- A number, from its sign or first digit. -/
def parseNumber (cs : List Char) : Except Error (Value × List Char) := do
  let (sign, cs) := match cs with
    | '-' :: cs => (['-'], cs)
    | cs => ([], cs)
  let (integer, cs) ← parseInteger cs
  let (fraction, cs) ← parseFraction cs
  let (exponent, cs) ← parseExponent cs
  pure (.number (String.ofList (sign ++ integer ++ fraction ++ exponent)), cs)

mutual

/-- A value, after whitespace; `depth` is what remains of the recursion limit. -/
def parseValue : Nat → Nat → List Char → Except Error (Value × List Char)
  | 0, _, _ => .error .outOfFuel
  | fuel + 1, depth, cs =>
    match skipWhitespace cs with
    | [] => .error .eofWhileParsingValue
    | 'n' :: rest => parseIdent ['u', 'l', 'l'] rest .null
    | 't' :: rest => parseIdent ['r', 'u', 'e'] rest (.bool true)
    | 'f' :: rest => parseIdent ['a', 'l', 's', 'e'] rest (.bool false)
    | '"' :: rest => (parseStringChars rest).map fun (s, rest) => (.string (String.ofList s), rest)
    | '[' :: rest =>
      if depth - 1 = 0 then .error .recursionLimitExceeded
      else (parseArray fuel (depth - 1) rest).map fun (vs, rest) => (.array vs, rest)
    | '{' :: rest =>
      if depth - 1 = 0 then .error .recursionLimitExceeded
      else (parseObject fuel (depth - 1) rest).map fun (ms, rest) => (.object ms, rest)
    | c :: rest =>
      if c = '-' ∨ c.isDigit then parseNumber (c :: rest) else .error .expectedSomeValue

/-- The elements of an array, after its opening bracket. -/
def parseArray : Nat → Nat → List Char → Except Error (List Value × List Char)
  | 0, _, _ => .error .outOfFuel
  | fuel + 1, depth, cs =>
    match skipWhitespace cs with
    | ']' :: rest => .ok ([], rest)
    | _ => do
      let (v, rest) ← parseValue fuel depth cs
      let (vs, rest) ← parseArrayRest fuel depth rest
      pure (v :: vs, rest)

/-- The elements of an array after one of them. -/
def parseArrayRest : Nat → Nat → List Char → Except Error (List Value × List Char)
  | 0, _, _ => .error .outOfFuel
  | fuel + 1, depth, cs =>
    match skipWhitespace cs with
    | [] => .error .eofWhileParsingList
    | ']' :: rest => .ok ([], rest)
    | ',' :: rest =>
      match skipWhitespace rest with
      | ']' :: _ => .error .trailingComma
      | _ => do
        let (v, rest) ← parseValue fuel depth rest
        let (vs, rest) ← parseArrayRest fuel depth rest
        pure (v :: vs, rest)
    | _ => .error .expectedListCommaOrEnd

/-- A member of an object: a key, a colon and a value. -/
def parseMember : Nat → Nat → List Char → Except Error ((String × Value) × List Char)
  | 0, _, _ => .error .outOfFuel
  | fuel + 1, depth, cs =>
    match skipWhitespace cs with
    | '"' :: rest => do
      let (key, rest) ← parseStringChars rest
      match skipWhitespace rest with
      | ':' :: rest => do
        let (v, rest) ← parseValue fuel depth rest
        pure ((String.ofList key, v), rest)
      | [] => .error .eofWhileParsingObject
      | _ => .error .expectedColon
    | [] => .error .eofWhileParsingObject
    | _ => .error .keyMustBeAString

/-- The members of an object, after its opening brace. -/
def parseObject : Nat → Nat → List Char → Except Error (List (String × Value) × List Char)
  | 0, _, _ => .error .outOfFuel
  | fuel + 1, depth, cs =>
    match skipWhitespace cs with
    | '}' :: rest => .ok ([], rest)
    | _ => do
      let (m, rest) ← parseMember fuel depth cs
      let (ms, rest) ← parseObjectRest fuel depth rest
      pure (m :: ms, rest)

/-- The members of an object after one of them. -/
def parseObjectRest : Nat → Nat → List Char → Except Error (List (String × Value) × List Char)
  | 0, _, _ => .error .outOfFuel
  | fuel + 1, depth, cs =>
    match skipWhitespace cs with
    | [] => .error .eofWhileParsingObject
    | '}' :: rest => .ok ([], rest)
    | ',' :: rest =>
      match skipWhitespace rest with
      | '}' :: _ => .error .trailingComma
      | _ => do
        let (m, rest) ← parseMember fuel depth rest
        let (ms, rest) ← parseObjectRest fuel depth rest
        pure (m :: ms, rest)
    | _ => .error .expectedObjectCommaOrEnd

end

/-- `serde_json::from_str::<Value>`: one value, then only whitespace. -/
def fromStr (s : String) : Except Error Value := do
  let (v, rest) ← parseValue (s.length + 1) 128 s.toList
  match skipWhitespace rest with
  | [] => pure v
  | _ => .error .trailingCharacters

/-- `Value::get` with a key: the value of the key's last member in an object. -/
def Value.get (v : Value) (key : String) : Option Value :=
  match v with
  | .object members => (members.reverse.find? (·.1 == key)).map (·.2)
  | _ => none

/-- `Value::as_str`. -/
def Value.asStr : Value → Option String
  | .string s => some s
  | _ => none

/-- A value read as a map from strings to strings (`serde_json::from_str::<HashMap<String,
String>>`): an object whose values are all strings. -/
def Value.toStringMap : Value → Except Error (List (String × String))
  | .object members =>
    members.mapM fun (key, v) =>
      match v with
      | .string s => .ok (key, s)
      | _ => .error .invalidType
  | _ => .error .invalidType

/-- The value of a key in such a map, the last one written. -/
def lookupLast (map : List (String × String)) (key : String) : Option String :=
  (map.reverse.find? (·.1 == key)).map (·.2)

/-! ## 2. Reading back an object a template writes -/

/-- A string that needs no escape between quotes. -/
def PlainString (s : String) : Prop :=
  ∀ c ∈ s.toList, c ≠ '"' ∧ c ≠ '\\' ∧ 0x20 ≤ c.toNat

-- the check runs over the characters of the string, not over every character there is
instance (s : String) : Decidable (PlainString s) := List.decidableBAll _ s.toList

/-- A string between quotes. -/
def renderString (s : String) : List Char := '"' :: s.toList ++ ['"']

/-- A member given as its key and the text of its value: `"key": value`. -/
def renderMember (member : String × List Char) : List Char :=
  renderString member.1 ++ ':' :: ' ' :: member.2

/-- The members after the first, each after `", "`. -/
def renderMembersTail : List (String × List Char) → List Char
  | [] => []
  | member :: members => ',' :: ' ' :: renderMember member ++ renderMembersTail members

def renderMembers : List (String × List Char) → List Char
  | [] => []
  | member :: members => renderMember member ++ renderMembersTail members

/-- An object between braces. -/
def renderObject (members : List (String × List Char)) : List Char :=
  '\x7b' :: renderMembers members ++ ['\x7d']

/-- What may follow a value inside an object: a comma or the closing brace. -/
def Delimits (rest : List Char) : Prop := rest.head? = some ',' ∨ rest.head? = some '\x7d'

/-- How the text of a value reads: with `fuel0` fuel or more, followed by a comma or a closing
brace, it reads as `v`. -/
def ReadsAs (fuel0 depth : Nat) (text : List Char) (v : Value) : Prop :=
  ∀ fuel, fuel0 ≤ fuel → ∀ rest, Delimits rest → parseValue fuel depth (text ++ rest) = .ok (v, rest)

section Lemmas

variable {fuel depth : Nat} {rest : List Char}

/-- A value that reads with some fuel reads with more. -/
theorem ReadsAs.mono {f f' : Nat} {text : List Char} {v : Value} (h : ReadsAs f depth text v)
    (hle : f ≤ f') : ReadsAs f' depth text v :=
  fun fuel hfuel => h fuel (Nat.le_trans hle hfuel)

@[simp] theorem skipWhitespace_space (cs : List Char) : skipWhitespace (' ' :: cs) = skipWhitespace cs :=
  if_pos (by decide)

theorem skipWhitespace_of_not {c : Char} (hc : isWhitespace c = false) (cs : List Char) :
    skipWhitespace (c :: cs) = c :: cs := if_neg (by simp [hc])

/-- A plain string reads back up to its closing quote. -/
theorem parseStringChars_plain {s : List Char} (hs : ∀ c ∈ s, c ≠ '"' ∧ c ≠ '\\' ∧ 0x20 ≤ c.toNat)
    (rest : List Char) : parseStringChars (s ++ '"' :: rest) = .ok (s, rest) := by
  induction s with
  | nil => rfl
  | cons c s ih =>
    obtain ⟨hquote, hback, hctrl⟩ := hs c (.head _)
    have ih' := ih fun c hc => hs c (.tail _ hc)
    rw [List.cons_append]
    -- an ordinary character is copied, whatever its value
    have hc : parseStringChars (c :: (s ++ '"' :: rest)) =
        (parseStringChars (s ++ '"' :: rest)).map fun (s, rest) => (c :: s, rest) := by
      rw [parseStringChars.eq_def]
      split
      · rename_i h; cases h
      · rename_i h; exact absurd (List.cons.inj h).1 hquote
      · rename_i h; exact absurd (List.cons.inj h).1 hback
      · rename_i h
        obtain ⟨rfl, rfl⟩ := List.cons.inj h
        rw [if_neg (by omega)]
    rw [hc, ih']
    rfl

theorem parseValue_string {s : String} (hs : PlainString s) :
    parseValue (fuel + 1) depth (renderString s ++ rest) = .ok (.string s, rest) := by
  have htext : renderString s ++ rest = '"' :: (s.toList ++ '"' :: rest) := by
    simp [renderString]
  rw [htext, parseValue, skipWhitespace_of_not (by decide)]
  simp only [parseStringChars_plain hs, Except.map, String.ofList_toList]

theorem readsAs_string {s : String} (hs : PlainString s) :
    ReadsAs 1 depth (renderString s) (.string s) := by
  intro fuel hfuel rest _
  obtain ⟨fuel, rfl⟩ := Nat.exists_eq_add_of_le' hfuel
  exact parseValue_string hs

/-- A digit opens a number. -/
theorem parseValue_digit {d : Char} (hd : d.isDigit = true) (cs : List Char) :
    parseValue (fuel + 1) depth (d :: cs) = parseNumber (d :: cs) := by
  have hws : isWhitespace d = false := by
    simp only [isWhitespace, decide_eq_false_iff_not]
    rintro (rfl | rfl | rfl | rfl) <;> simp at hd
  rw [parseValue, skipWhitespace_of_not hws]
  -- a digit is none of the characters that open another kind of value
  split
  all_goals first
    | (rename_i h; cases h; done)
    | (rename_i h; obtain ⟨rfl, -⟩ := List.cons.inj h; simp at hd)
    | (rename_i h; obtain ⟨rfl, rfl⟩ := List.cons.inj h; exact if_pos (Or.inr hd))

/-- Digits without a leading zero, before a comma or a brace, read as a number. -/
theorem parseNumber_digits {d c : Char} {ds r : List Char} (hd : d.isDigit = true) (hd0 : d ≠ '0')
    (hds : ∀ c ∈ ds, c.isDigit = true) (hc : c = ',' ∨ c = '\x7d') :
    parseNumber (d :: (ds ++ c :: r)) = .ok (.number (String.ofList (d :: ds)), c :: r) := by
  have hminus : d ≠ '-' := by
    rintro rfl
    simp at hd
  have hcd : c.isDigit = false := by
    rcases hc with rfl | rfl <;> rfl
  have htake : (ds ++ c :: r).takeWhile Char.isDigit = ds := by
    rw [List.takeWhile_append_of_pos hds, List.takeWhile_cons_of_neg (by simp [hcd]),
      List.append_nil]
  have hdrop : (ds ++ c :: r).dropWhile Char.isDigit = c :: r := by
    rw [List.dropWhile_append_of_pos hds, List.dropWhile_cons_of_neg (by simp [hcd])]
  have hinteger : parseInteger (d :: (ds ++ c :: r)) = .ok (d :: ds, c :: r) := by
    rw [parseInteger.eq_def]
    split
    · rename_i h
      exact absurd (List.cons.inj h).1 hd0
    · rename_i h
      obtain ⟨rfl, rfl⟩ := List.cons.inj h
      rw [if_pos hd, htake, hdrop]
    · rename_i h
      cases h
  have hfraction : parseFraction (c :: r) = .ok ([], c :: r) := by
    rcases hc with rfl | rfl <;> rfl
  have hexponent : parseExponent (c :: r) = .ok ([], c :: r) := by
    rcases hc with rfl | rfl <;> rfl
  rw [parseNumber]
  swap
  · exact fun cs h => hminus (List.cons.inj h).1
  simp only [hinteger, hfraction, hexponent, bind, Except.bind, pure, Except.pure, List.nil_append,
    List.append_nil]

/-- A number of digits without a leading zero reads as itself. -/
theorem readsAs_digits {d : Char} {ds : List Char} (hd : d.isDigit = true) (hd0 : d ≠ '0')
    (hds : ∀ c ∈ ds, c.isDigit = true) :
    ReadsAs 1 depth (d :: ds) (.number (String.ofList (d :: ds))) := by
  intro fuel hfuel rest hrest
  obtain ⟨fuel, rfl⟩ := Nat.exists_eq_add_of_le' hfuel
  obtain ⟨c, r, rfl, hc⟩ : ∃ c r, rest = c :: r ∧ (c = ',' ∨ c = '\x7d') := by
    rcases hrest with h | h <;> obtain ⟨r, rfl⟩ := List.head?_eq_some_iff.mp h
    · exact ⟨_, r, rfl, .inl rfl⟩
    · exact ⟨_, r, rfl, .inr rfl⟩
  rw [List.cons_append, parseValue_digit hd, parseNumber_digits hd hd0 hds hc]

/-- Whitespace before a value is skipped. -/
theorem parseValue_cons_space (fuel depth : Nat) (cs : List Char) :
    parseValue fuel depth (' ' :: cs) = parseValue fuel depth cs := by
  cases fuel <;> simp only [parseValue, skipWhitespace_space]

theorem parseMember_cons_space (fuel depth : Nat) (cs : List Char) :
    parseMember fuel depth (' ' :: cs) = parseMember fuel depth cs := by
  cases fuel <;> simp only [parseMember, skipWhitespace_space]

theorem renderMember_append (member : String × List Char) (rest : List Char) :
    renderMember member ++ rest = '"' :: (member.1.toList ++ '"' :: ':' :: ' ' :: (member.2 ++ rest)) := by
  simp [renderMember, renderString]

/-- A member reads as its key and the value its text reads as. -/
theorem parseMember_renderMember {f : Nat} {key : String} {text : List Char} {v : Value}
    (hkey : PlainString key) (hv : ReadsAs f depth text v) (hfuel : f ≤ fuel) (hrest : Delimits rest) :
    parseMember (fuel + 1) depth (renderMember (key, text) ++ rest) = .ok ((key, v), rest) := by
  rw [renderMember_append, parseMember, skipWhitespace_of_not (by decide)]
  simp only [parseStringChars_plain hkey, bind, Except.bind]
  rw [skipWhitespace_of_not (by decide)]
  simp only [parseValue_cons_space, hv fuel hfuel rest hrest, String.ofList_toList]
  rfl

theorem delimits_renderMembersTail (members : List (String × List Char)) (rest : List Char) :
    Delimits (renderMembersTail members ++ '\x7d' :: rest) := by
  cases members with
  | nil => exact .inr rfl
  | cons member members => exact .inl rfl

section Members

variable {f : Nat} {members : List (String × List Char × Value)}

/-- The keys and texts of members given with their values. -/
def texts (members : List (String × List Char × Value)) : List (String × List Char) :=
  members.map fun m => (m.1, m.2.1)

/-- The keys and values of members given with their texts. -/
def values (members : List (String × List Char × Value)) : List (String × Value) :=
  members.map fun m => (m.1, m.2.2)

@[simp] theorem texts_nil : texts [] = [] := rfl

@[simp] theorem texts_cons (m : String × List Char × Value) (members : List (String × List Char × Value)) :
    texts (m :: members) = (m.1, m.2.1) :: texts members := rfl

@[simp] theorem values_nil : values [] = [] := rfl

@[simp] theorem values_cons (m : String × List Char × Value) (members : List (String × List Char × Value)) :
    values (m :: members) = (m.1, m.2.2) :: values members := rfl

/-- The members after the first read one by one, up to the closing brace; each spends one unit
of fuel. -/
theorem parseObjectRest_renderMembersTail (hkeys : ∀ m ∈ members, PlainString m.1)
    (hvals : ∀ m ∈ members, ReadsAs f depth m.2.1 m.2.2) (hfuel : f + members.length ≤ fuel) :
    parseObjectRest (fuel + 1) depth (renderMembersTail (texts members) ++ '\x7d' :: rest) =
      .ok (values members, rest) := by
  induction members generalizing fuel with
  | nil =>
    simp only [texts_nil, values_nil, renderMembersTail, List.nil_append, parseObjectRest]
    rw [skipWhitespace_of_not (by decide)]
    rfl
  | cons m members ih =>
    obtain ⟨fuel, rfl⟩ : ∃ f', fuel = f' + 1 := ⟨fuel - 1, by simp at hfuel; omega⟩
    have hmember := parseMember_renderMember (hkeys m (.head _)) (hvals m (.head _))
      (by simp at hfuel; omega : f ≤ fuel) (delimits_renderMembersTail (texts members) rest)
    simp only [texts_cons, values_cons, renderMembersTail, List.cons_append, List.append_assoc]
    rw [parseObjectRest, skipWhitespace_of_not (by decide)]
    simp only [skipWhitespace_space, parseMember_cons_space, hmember]
    rw [renderMember_append, skipWhitespace_of_not (by decide)]
    -- the next member opens with a quote, not with the closing brace
    split
    · rename_i h
      cases (List.cons.inj h).1
    · simp only [bind, Except.bind]
      rw [ih (fun m hm => hkeys m (.tail _ hm)) (fun m hm => hvals m (.tail _ hm))
        (by simp at hfuel; omega)]
      rfl

/-- The members of an object read up to its closing brace. -/
theorem parseObject_renderMembers (hkeys : ∀ m ∈ members, PlainString m.1)
    (hvals : ∀ m ∈ members, ReadsAs f depth m.2.1 m.2.2) (hfuel : f + members.length ≤ fuel) :
    parseObject (fuel + 1) depth (renderMembers (texts members) ++ '\x7d' :: rest) =
      .ok (values members, rest) := by
  cases members with
  | nil =>
    simp only [texts_nil, values_nil, renderMembers, List.nil_append, parseObject]
    rw [skipWhitespace_of_not (by decide)]
    rfl
  | cons m members =>
    obtain ⟨fuel, rfl⟩ : ∃ f', fuel = f' + 1 := ⟨fuel - 1, by simp at hfuel; omega⟩
    have hmember := parseMember_renderMember (hkeys m (.head _)) (hvals m (.head _))
      (by simp at hfuel; omega : f ≤ fuel) (delimits_renderMembersTail (texts members) rest)
    simp only [texts_cons, values_cons, renderMembers, List.append_assoc]
    rw [parseObject, hmember, renderMember_append, skipWhitespace_of_not (by decide)]
    -- the first member opens with a quote, not with the closing brace
    split
    · rename_i h
      cases (List.cons.inj h).1
    · simp only [bind, Except.bind]
      rw [parseObjectRest_renderMembersTail (fun m hm => hkeys m (.tail _ hm))
        (fun m hm => hvals m (.tail _ hm)) (by simp at hfuel; omega)]
      rfl

/-- An opening brace enters an object, one level deeper. -/
theorem parseValue_openBrace (fuel depth : Nat) (cs : List Char) :
    parseValue (fuel + 1) (depth + 1) ('\x7b' :: cs) =
      if depth = 0 then .error .recursionLimitExceeded
      else (parseObject fuel depth cs).map fun (ms, rest) => (.object ms, rest) := by
  rw [parseValue, skipWhitespace_of_not (by decide), Nat.add_sub_cancel]
  rfl

/-- **An object a template writes reads back**, given how the texts of its values read: with
enough fuel, and below the recursion limit. -/
theorem parseValue_renderObject (hkeys : ∀ m ∈ members, PlainString m.1)
    (hvals : ∀ m ∈ members, ReadsAs f depth m.2.1 m.2.2) (hdepth : 0 < depth)
    (hfuel : f + members.length + 2 ≤ fuel) (rest : List Char) :
    parseValue fuel (depth + 1) (renderObject (texts members) ++ rest) =
      .ok (.object (values members), rest) := by
  obtain ⟨fuel, rfl⟩ : ∃ f', fuel = f' + 1 + 1 := ⟨fuel - 2, by omega⟩
  simp only [renderObject, List.cons_append, List.append_assoc, List.nil_append]
  rw [parseValue_openBrace, if_neg (by omega), parseObject_renderMembers hkeys hvals (by omega)]
  rfl

theorem readsAs_renderObject (hkeys : ∀ m ∈ members, PlainString m.1)
    (hvals : ∀ m ∈ members, ReadsAs f depth m.2.1 m.2.2) (hdepth : 0 < depth) :
    ReadsAs (f + members.length + 2) (depth + 1) (renderObject (texts members))
      (.object (values members)) :=
  fun _ hfuel rest _ => parseValue_renderObject hkeys hvals hdepth hfuel rest

/-- `from_str` of an object a template writes, whose values read at the depth of its members. -/
theorem fromStr_renderObject (hkeys : ∀ m ∈ members, PlainString m.1)
    (hvals : ∀ m ∈ members, ReadsAs f 127 m.2.1 m.2.2)
    (hfuel : f + members.length + 2 ≤ (renderObject (texts members)).length + 1) :
    fromStr (String.ofList (renderObject (texts members))) = .ok (.object (values members)) := by
  have hparse := parseValue_renderObject hkeys hvals (by decide) hfuel []
  rw [List.append_nil] at hparse
  simp only [fromStr, String.length_ofList, String.toList_ofList, hparse, bind, Except.bind]
  rfl

end Members

end Lemmas

end Sequencer.Json
