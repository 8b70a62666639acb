import MeleeHarness.Lib.Text

/-!
# Words of a shell command

`shlex.split` of Python, which reads quotes and backslashes as a POSIX shell does.
-/

namespace MeleeHarness.Lib.Shlex

/-- Where the next character stands: in no quotes, in quotes, or behind a backslash, which
may be in double quotes. -/
inductive State where
  | plain
  | quotes (q : Char)
  | escape (quoted : Bool)
  deriving DecidableEq, Repr

def blank (c : Char) : Bool := c = ' ' || c = '\t' || c = '\r' || c = '\n'

/-- A word has characters or has had quotes. -/
def emit (token : Text) (quoted : Bool) : List Text := if token ≠ [] ∨ quoted then [token] else []

/-- `none` where it raises `ValueError`. -/
def go : State → Text → Bool → Text → Option (List Text)
  | .plain, token, quoted, [] => some (emit token quoted)
  | .quotes _, _, _, [] => none
  | .escape _, _, _, [] => none
  | .plain, token, quoted, c :: rest =>
    if blank c then (go .plain [] false rest).map (emit token quoted ++ ·)
    else if c = '\\' then go (.escape false) token quoted rest
    else if c = '"' ∨ c = '\'' then go (.quotes c) token quoted rest
    else go .plain (token ++ [c]) quoted rest
  | .quotes q, token, _, c :: rest =>
    if c = q then go .plain token true rest
    else if c = '\\' ∧ q = '"' then go (.escape true) token true rest
    else go (.quotes q) (token ++ [c]) true rest
  | .escape quoted, token, wasQuoted, c :: rest =>
    let kept := if quoted ∧ c ≠ '\\' ∧ c ≠ '"' then ['\\'] else []
    go (if quoted then .quotes '"' else .plain) (token ++ kept ++ [c]) wasQuoted rest

def split (t : Text) : Option (List Text) := go .plain [] false t

end MeleeHarness.Lib.Shlex
