import MeleeHarness.Lib.Text

/-!
# JSON

`json.dumps(value, indent=2)` and `json.loads`, over text of Unicode characters.
A fractional number keeps its spelling. An escape that stands for a lone
surrogate has no character here, and `loads` refuses it.

* `Json.get?_of_mem`: the member with a key, where the keys are distinct.
-/

namespace MeleeHarness.Lib

inductive Json where
  | null
  | bool (b : Bool)
  | int (n : Int)
  | float (lexeme : Text)
  | str (s : Text)
  | arr (items : List Json)
  | obj (members : List (Text × Json))

/-- `dict.get`: of two members with one key the later counts. -/
def Json.get? (key : Text) : Json → Option Json
  | .obj members => members.reverse.lookup key
  | _ => none

theorem Json.get?_of_mem {members : List (Text × Json)} {key : Text} {value : Json}
    (distinct : (members.map Prod.fst).Nodup) (mem : (key, value) ∈ members) :
    (Json.obj members).get? key = some value := by
  obtain ⟨before, after, rfl⟩ := List.append_of_mem mem
  rw [Json.get?, List.lookup_eq_some_iff]
  refine ⟨after.reverse, before.reverse, by simp, fun p hp => ?_⟩
  have hafter : p.1 ∈ after.map Prod.fst := List.mem_map_of_mem (List.mem_reverse.mp hp)
  simp only [List.map_append, List.map_cons, List.nodup_append, List.nodup_cons] at distinct
  have hne : key ≠ p.1 := fun h => distinct.2.1.1 (h ▸ hafter)
  simpa using hne

/-! ## Writing -/

/-- `{0:04x}` of a number below 65536. -/
def hex4 (n : Nat) : Text :=
  [(n / 4096 % 16).digitChar, (n / 256 % 16).digitChar, (n / 16 % 16).digitChar,
    (n % 16).digitChar]

def unicodeEscape (n : Nat) : Text := '\\' :: 'u' :: hex4 n

/-- The escapes of one letter. -/
def escapeTable : List (Char × Char) :=
  [('\\', '\\'), ('"', '"'), (Char.ofNat 8, 'b'), (Char.ofNat 12, 'f'), ('\n', 'n'), ('\r', 'r'),
    ('\t', 't')]

/-- A character inside an ASCII string. -/
def escapeChar (c : Char) : Text :=
  match escapeTable.lookup c with
  | some e => ['\\', e]
  | none =>
    if 32 ≤ c.toNat ∧ c.toNat ≤ 126 then [c]
    else if c.toNat < 0x10000 then unicodeEscape c.toNat
    else
      unicodeEscape (0xd800 + (c.toNat - 0x10000) / 0x400) ++
        unicodeEscape (0xdc00 + (c.toNat - 0x10000) % 0x400)

def escape (s : Text) : Text := s.flatMap escapeChar

def quoted (s : Text) : Text := '"' :: (escape s ++ ['"'])

def decimal : Int → Text
  | .ofNat n => Nat.toDigits 10 n
  | .negSucc n => '-' :: Nat.toDigits 10 (n + 1)

/-- A new line, indented by two spaces a level. -/
def newline (level : Nat) : Text := '\n' :: List.replicate (2 * level) ' '

mutual

def dumpsAt (level : Nat) : Json → Text
  | .null => ['n', 'u', 'l', 'l']
  | .bool true => ['t', 'r', 'u', 'e']
  | .bool false => ['f', 'a', 'l', 's', 'e']
  | .int n => decimal n
  | .float lexeme => lexeme
  | .str s => quoted s
  | .arr [] => ['[', ']']
  | .arr (item :: items) =>
    '[' :: (newline (level + 1) ++ dumpsAt (level + 1) item ++ dumpsItems level items)
  | .obj [] => ['{', '}']
  | .obj ((key, value) :: members) =>
    '{' :: (newline (level + 1) ++ quoted key ++ [':', ' '] ++ dumpsAt (level + 1) value ++
      dumpsMembers level members)

/-- The items after the first, up to the closing bracket. -/
def dumpsItems (level : Nat) : List Json → Text
  | [] => newline level ++ [']']
  | item :: items =>
    ',' :: (newline (level + 1) ++ dumpsAt (level + 1) item ++ dumpsItems level items)

/-- The members after the first, up to the closing brace. -/
def dumpsMembers (level : Nat) : List (Text × Json) → Text
  | [] => newline level ++ ['}']
  | (key, value) :: members =>
    ',' :: (newline (level + 1) ++ quoted key ++ [':', ' '] ++ dumpsAt (level + 1) value ++
      dumpsMembers level members)

end

/-- `json.dumps(value, indent=2)` -/
def dumps (value : Json) : Text := dumpsAt 0 value

/-! ## Reading -/

def isJsonSpace (c : Char) : Bool := c ∈ [' ', '\t', '\n', '\r']

def skipSpace (t : Text) : Text := t.dropWhile isJsonSpace

def simpleEscape : Char → Option Char
  | '"' => some '"'
  | '\\' => some '\\'
  | '/' => some '/'
  | 'b' => some (Char.ofNat 8)
  | 'f' => some (Char.ofNat 12)
  | 'n' => some '\n'
  | 'r' => some '\r'
  | 't' => some '\t'
  | _ => none

def readHex4 : Text → Option (Nat × Text)
  | a :: b :: c :: d :: rest =>
    match hexDigit a, hexDigit b, hexDigit c, hexDigit d with
    | some a, some b, some c, some d => some (4096 * a + 256 * b + 16 * c + d, rest)
    | _, _, _, _ => none
  | _ => none

def charOf (n : Nat) : Option Char := if n.isValidChar then some (Char.ofNat n) else none

/-- What follows `\u`: four digits, and four more after a high surrogate. -/
def scanUnicode (t : Text) : Option (Char × Text) :=
  (readHex4 t).bind fun (uni, rest) =>
    match rest with
    | '\\' :: 'u' :: more =>
      if 0xd800 ≤ uni ∧ uni ≤ 0xdbff then
        (readHex4 more).bind fun (uni2, rest2) =>
          if 0xdc00 ≤ uni2 ∧ uni2 ≤ 0xdfff then
            (charOf (0x10000 + (uni - 0xd800) * 0x400 + (uni2 - 0xdc00))).map (·, rest2)
          else (charOf uni).map (·, rest)
      else (charOf uni).map (·, rest)
    | _ => (charOf uni).map (·, rest)

/-- The next character of a string, or `none` at its closing quote. -/
def scanChar : Text → Option (Option Char × Text)
  | '"' :: rest => some (none, rest)
  | '\\' :: 'u' :: rest => (scanUnicode rest).map fun (c, rest) => (some c, rest)
  | '\\' :: c :: rest => (simpleEscape c).map fun c => (some c, rest)
  | c :: rest => if c.toNat < 32 ∨ c = '\\' then none else some (some c, rest)
  | [] => none

/-- The rest of a string, after its opening quote. -/
def scanString : Nat → Text → Option (Text × Text)
  | 0, _ => none
  | fuel + 1, t =>
    (scanChar t).bind fun (c, rest) =>
      match c with
      | none => some ([], rest)
      | some c => (scanString fuel rest).map fun (s, rest) => (c :: s, rest)

/-- `(0|[1-9][0-9]*)` -/
def scanDigits : Text → Option (Text × Text)
  | '0' :: rest => some (['0'], rest)
  | t =>
    if t.takeWhile Char.isDigit = [] then none
    else some (t.takeWhile Char.isDigit, t.dropWhile Char.isDigit)

/-- `(\.[0-9]+)?` -/
def scanFraction : Text → Text × Text
  | '.' :: t =>
    if t.takeWhile Char.isDigit = [] then ([], '.' :: t)
    else ('.' :: t.takeWhile Char.isDigit, t.dropWhile Char.isDigit)
  | t => ([], t)

/-- `([eE][-+]?[0-9]+)?` -/
def scanExponent (t : Text) : Text × Text :=
  match t with
  | c :: rest =>
    if c = 'e' ∨ c = 'E' then
      let sign := (rest.take 1).filter fun s => s = '-' ∨ s = '+'
      let digits := rest.drop sign.length
      if digits.takeWhile Char.isDigit = [] then ([], t)
      else (c :: sign ++ digits.takeWhile Char.isDigit, digits.dropWhile Char.isDigit)
    else ([], t)
  | [] => ([], t)

def scanUnsigned (negative : Bool) (t : Text) : Option (Json × Text) :=
  (scanDigits t).map fun (digits, rest) =>
    let (fraction, rest) := scanFraction rest
    let (exponent, rest) := scanExponent rest
    let n := Nat.ofDigitChars 10 digits 0
    if fraction = [] ∧ exponent = [] then (.int (if negative then -n else n), rest)
    else (.float ((if negative then ['-'] else []) ++ digits ++ fraction ++ exponent), rest)

def scanNumber : Text → Option (Json × Text)
  | '-' :: t => scanUnsigned true t
  | t => scanUnsigned false t

def literals : List (Text × Json) :=
  [(['n', 'u', 'l', 'l'], .null), (['t', 'r', 'u', 'e'], .bool true),
    (['f', 'a', 'l', 's', 'e'], .bool false), (['N', 'a', 'N'], .float ['N', 'a', 'N']),
    (['I', 'n', 'f', 'i', 'n', 'i', 't', 'y'], .float ['I', 'n', 'f', 'i', 'n', 'i', 't', 'y']),
    (['-', 'I', 'n', 'f', 'i', 'n', 'i', 't', 'y'],
      .float ['-', 'I', 'n', 'f', 'i', 'n', 'i', 't', 'y'])]

/-- A literal or a number. -/
def scanAtom (t : Text) : Option (Json × Text) :=
  match literals.find? fun l => l.1.isPrefixOf t with
  | some (word, value) => some (value, t.drop word.length)
  | none => scanNumber t

mutual

def scanValue : Nat → Text → Option (Json × Text)
  | 0, _ => none
  | fuel + 1, t =>
    match t with
    | '"' :: rest => (scanString (rest.length + 1) rest).map fun (s, rest) => (.str s, rest)
    | '{' :: rest =>
      match skipSpace rest with
      | '}' :: rest => some (.obj [], rest)
      | '"' :: rest => (scanMembers fuel rest).map fun (members, rest) => (.obj members, rest)
      | _ => none
    | '[' :: rest =>
      match skipSpace rest with
      | ']' :: rest => some (.arr [], rest)
      | rest => (scanItems fuel rest).map fun (items, rest) => (.arr items, rest)
    | t => scanAtom t

/-- The items of a non-empty list. -/
def scanItems : Nat → Text → Option (List Json × Text)
  | 0, _ => none
  | fuel + 1, t =>
    (scanValue fuel t).bind fun (item, rest) =>
      match skipSpace rest with
      | ']' :: rest => some ([item], rest)
      | ',' :: rest =>
        (scanItems fuel (skipSpace rest)).map fun (items, rest) => (item :: items, rest)
      | _ => none

/-- The members of a non-empty object, after the first opening quote. -/
def scanMembers : Nat → Text → Option (List (Text × Json) × Text)
  | 0, _ => none
  | fuel + 1, t =>
    (scanString (t.length + 1) t).bind fun (key, rest) =>
      match skipSpace rest with
      | ':' :: rest =>
        (scanValue fuel (skipSpace rest)).bind fun (value, rest) =>
          match skipSpace rest with
          | '}' :: rest => some ([(key, value)], rest)
          | ',' :: rest =>
            match skipSpace rest with
            | '"' :: rest =>
              (scanMembers fuel rest).map fun (members, rest) => ((key, value) :: members, rest)
            | _ => none
          | _ => none
      | _ => none

end

/-- `json.loads(text)`, `none` where it raises `JSONDecodeError`. -/
def loads (t : Text) : Option Json :=
  (scanValue (t.length + 1) (skipSpace t)).bind fun (value, rest) =>
    if skipSpace rest = [] then some value else none

end MeleeHarness.Lib
