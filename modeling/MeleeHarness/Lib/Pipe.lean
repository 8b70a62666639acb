import MeleeHarness.Lib.Text

/-!
# Pipes of characters

A pipe delivers what is written to it in order, in pieces of any size. Its reader
takes lines: up to the newline (`read_line`), or with universal newlines, where a
carriage return ends a line too.

* `deliver_content`: delivery changes nothing of what is still to be read;
* `readLine_carries`: the one line a pipe carries is read as a whole, once it has
  been delivered as a whole, and leaves the pipe empty.
-/

namespace MeleeHarness.Lib

/-- What has reached the reader's buffer, what is still under way, and whether the
writer has closed its end. -/
structure Pipe where
  arrived : Text
  inFlight : Text
  closed : Bool
  deriving DecidableEq, Repr

namespace Pipe

def empty : Pipe := ⟨[], [], false⟩

/-- What has been written and not been read. -/
def content (p : Pipe) : Text := p.arrived ++ p.inFlight

def write (p : Pipe) (t : Text) : Pipe := { p with inFlight := p.inFlight ++ t }

def close (p : Pipe) : Pipe := { p with closed := true }

/-- The next character reaches the reader. -/
def deliver (p : Pipe) : Option Pipe :=
  match p.inFlight with
  | [] => none
  | c :: rest => some { p with arrived := p.arrived ++ [c], inFlight := rest }

/-- No more characters will reach the reader. -/
def ended (p : Pipe) : Bool := p.closed && p.inFlight.isEmpty

@[simp] theorem content_write (p : Pipe) (t : Text) : (p.write t).content = p.content ++ t := by
  simp [content, write]

@[simp] theorem closed_write (p : Pipe) (t : Text) : (p.write t).closed = p.closed := rfl

@[simp] theorem content_close (p : Pipe) : p.close.content = p.content := rfl

theorem deliver_eq_some {p q : Pipe} (h : p.deliver = some q) :
    ∃ c rest, p.inFlight = c :: rest ∧
      q = { p with arrived := p.arrived ++ [c], inFlight := rest } := by
  unfold deliver at h
  split at h
  · cases h
  · rename_i c rest hrest
    cases h
    exact ⟨c, rest, hrest, rfl⟩

theorem deliver_content {p q : Pipe} (h : p.deliver = some q) :
    q.content = p.content ∧ q.closed = p.closed ∧ p.inFlight.length = q.inFlight.length + 1 := by
  obtain ⟨c, rest, hrest, rfl⟩ := deliver_eq_some h
  refine ⟨?_, rfl, ?_⟩
  · simp [content, hrest]
  · simp [hrest]

theorem deliver_of_inFlight {p : Pipe} (h : p.inFlight ≠ []) : ∃ q, p.deliver = some q := by
  unfold deliver
  split
  · contradiction
  · exact ⟨_, rfl⟩

end Pipe

/-! ## Lines -/

/-- The text up to and with its first newline, and the rest. -/
def takeLine : Text → Option (Text × Text)
  | [] => none
  | c :: rest =>
    if c = '\n' then some (['\n'], rest) else (takeLine rest).map fun (line, t) => (c :: line, t)

/-- The same with universal newlines: a carriage return, with the newline behind it
if there is one, reads as a newline. One at the end of the text may still get its
newline. -/
def takeUniversalLine : Text → Option (Text × Text)
  | [] => none
  | '\n' :: rest => some (['\n'], rest)
  | ['\r'] => none
  | '\r' :: '\n' :: rest => some (['\n'], rest)
  | '\r' :: rest => some (['\n'], rest)
  | c :: rest => (takeUniversalLine rest).map fun (line, t) => (c :: line, t)

/-- What is left at the end of the file, as universal newlines read it. -/
def universalRest (t : Text) : Text :=
  if t.getLast? = some '\r' then t.dropLast ++ ['\n'] else t

/-- A line is at hand, or else all the rest at the end of the file; `none` blocks. -/
def Pipe.readWith (take : Text → Option (Text × Text)) (atEnd : Text → Text) (p : Pipe) :
    Option (Text × Pipe) :=
  match take p.arrived with
  | some (line, rest) => some (line, { p with arrived := rest })
  | none => if p.ended then some (atEnd p.arrived, { p with arrived := [] }) else none

/-- `BufRead::read_line`. -/
def Pipe.readLine (p : Pipe) : Option (Text × Pipe) := p.readWith takeLine id

/-- `readline()` of a file opened as text. -/
def Pipe.readline (p : Pipe) : Option (Text × Pipe) := p.readWith takeUniversalLine universalRest

theorem takeLine_eq_some {t line rest : Text} (h : takeLine t = some (line, rest)) :
    ∃ u, '\n' ∉ u ∧ line = u ++ ['\n'] ∧ t = u ++ '\n' :: rest := by
  induction t generalizing line with
  | nil => cases h
  | cons c t ih =>
    rw [takeLine] at h
    split at h
    · rename_i hc
      cases h
      exact ⟨[], by simp, rfl, by simp [hc]⟩
    · rename_i hc
      obtain ⟨⟨l, r⟩, hl, h⟩ := Option.map_eq_some_iff.mp h
      cases h
      obtain ⟨u, hu, rfl, rfl⟩ := ih hl
      refine ⟨c :: u, ?_, rfl, rfl⟩
      simp only [List.mem_cons, not_or]
      exact ⟨Ne.symm hc, hu⟩

theorem takeLine_append {u : Text} (hu : '\n' ∉ u) (rest : Text) :
    takeLine (u ++ '\n' :: rest) = some (u ++ ['\n'], rest) := by
  induction u with
  | nil => simp [takeLine]
  | cons c u ih =>
    simp only [List.mem_cons, not_or] at hu
    rw [List.cons_append, takeLine, if_neg (Ne.symm hu.1), ih hu.2]
    rfl

/-- Without carriage returns universal newlines make no difference. -/
theorem takeUniversalLine_eq {t : Text} (h : '\r' ∉ t) : takeUniversalLine t = takeLine t := by
  induction t with
  | nil => rfl
  | cons c t ih =>
    simp only [List.mem_cons, not_or] at h
    by_cases hc : c = '\n'
    · subst hc
      simp [takeUniversalLine, takeLine]
    · rw [takeLine, if_neg hc, ← ih h.2]
      rw [takeUniversalLine]
      · exact hc
      · rintro rfl
        exact absurd rfl h.1
      · rintro _ rfl
        exact absurd rfl h.1
      · rintro rfl
        exact absurd rfl h.1

/-! ## Open pipes -/

namespace Pipe

/-- An open pipe with `t` to be read. -/
structure Carries (p : Pipe) (t : Text) : Prop where
  content : p.content = t
  opened : p.closed = false

variable {p q : Pipe} {t line : Text}

theorem empty_carries : empty.Carries [] := ⟨rfl, rfl⟩

theorem Carries.write (h : p.Carries t) (u : Text) : (p.write u).Carries (t ++ u) := by
  refine ⟨?_, h.opened⟩
  rw [content_write, h.content]

/-- Reading an open pipe takes a line that has arrived. -/
theorem Carries.readWith_eq (h : p.Carries t) (take : Text → Option (Text × Text))
    (atEnd : Text → Text) :
    p.readWith take atEnd =
      (take p.arrived).map fun (line, rest) => (line, { p with arrived := rest }) := by
  unfold readWith
  cases take p.arrived with
  | some => rfl
  | none => simp [ended, h.opened]

/-- From an empty pipe there is nothing to read. -/
theorem Carries.blocked (h : p.Carries []) : p.readLine = none ∧ p.readline = none := by
  have harrived : p.arrived = [] := (List.append_eq_nil_iff.mp h.content).1
  rw [readLine, readline, h.readWith_eq, h.readWith_eq, harrived]
  exact ⟨rfl, rfl⟩

/-- What is read is the line that the pipe carries, and nothing is left of it. -/
theorem Carries.readLine (h : p.Carries (line ++ ['\n'])) (hline : '\n' ∉ line) {got : Text}
    (hread : p.readLine = some (got, q)) : got = line ++ ['\n'] ∧ q.Carries [] := by
  rw [Pipe.readLine, h.readWith_eq] at hread
  obtain ⟨⟨l, rest⟩, htake, hgot⟩ := Option.map_eq_some_iff.mp hread
  obtain ⟨rfl, rfl⟩ := Prod.mk.inj hgot
  obtain ⟨u, hu, rfl, harrived⟩ := takeLine_eq_some htake
  have hcontent : u ++ '\n' :: (rest ++ p.inFlight) = line ++ '\n' :: [] := by
    rw [← h.content, Pipe.content, harrived]
    simp
  have hsplit := congrArg (splitOnce '\n') hcontent
  rw [splitOnce_append hu, splitOnce_append hline] at hsplit
  obtain ⟨rfl, hrest⟩ := Prod.mk.inj hsplit
  exact ⟨rfl, hrest, h.opened⟩

/-- A line that has arrived as a whole can be read. -/
theorem Carries.readable (h : p.Carries (line ++ ['\n'])) (hline : '\n' ∉ line)
    (harrived : p.inFlight = []) : ∃ r, p.readLine = some r := by
  have hcontent := h.content
  rw [Pipe.content, harrived, List.append_nil] at hcontent
  rw [Pipe.readLine, h.readWith_eq, hcontent, takeLine_append hline]
  exact ⟨_, rfl⟩

/-- Without carriage returns both ends read the same lines. -/
theorem Carries.readline_eq (h : p.Carries t) (ht : '\r' ∉ t) : p.readline = p.readLine := by
  have harrived : '\r' ∉ p.arrived := by
    intro hr
    apply ht
    rw [← h.content]
    exact List.mem_append_left _ hr
  rw [Pipe.readLine, readline, h.readWith_eq, h.readWith_eq, takeUniversalLine_eq harrived]

end Pipe

end MeleeHarness.Lib
