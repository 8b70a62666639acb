import MeleeHarness.Lib.Lines
import MeleeHarness.Lib.Pipe
import MeleeHarness.Objdiff.Score
import MeleeHarness.Permute.ScoreKey
import Mathlib.Order.WellFounded

/-!
# The score server and its client

A worker's `ObjdiffScorer` asks its own `objdiff-cli score` process for the score
of one object after the other, over two pipes: a path a line, and a line of reply.
The server, the client and the pipes take their steps in any order.

* `decodeReply_reply`: a reply decodes to what it says;
* `agreed_step`: both ends agree on which call is under way;
* `scorer_lockstep`: the k-th call gets the reply for the k-th path.
-/

namespace MeleeHarness.Permute

open MeleeHarness.Lib MeleeHarness.Objdiff

/-! ## Replies -/

/-- What `score_one` returns, or the text of its error. -/
abbrev Scored := Except Text (Nat × UInt64 × ScoreBreakdown)

/-- `{:016x}`. -/
def hex016 (n : Nat) : Text := List.replicate (16 - (hex n).length) '0' ++ hex n

/-- The line that the server writes, without its newline. -/
def reply : Scored → Text
  | .ok (score, hash, breakdown) =>
    Nat.toDigits 10 score ++ ' ' :: (hex016 hash.toNat ++ ' ' :: (Nat.toDigits 10 breakdown.hard ++
      ' ' :: (Nat.toDigits 10 breakdown.regswap ++ ' ' :: Nat.toDigits 10 breakdown.stack)))
  | .error e => "ERR ".toList ++ e.map fun c => if c = '\n' then ' ' else c

/-- What a call of `score` raises: `ScoreError` with the line, `OSError` if the
server has closed its pipe, and what a malformed reply makes of it. -/
inductive ScoreFailure where
  | scoreError (line : Text)
  | osError
  | valueError
  | indexError
  deriving DecidableEq, Repr

abbrev ScoreResult := Except ScoreFailure (ScoreKey × Text)

/-- `int(part)`; the server prints no signs. -/
def count (part : Text) : Except ScoreFailure Nat :=
  match intBase10 part with
  | some n => .ok n.toNat
  | none => .error .valueError

/-- What `score` makes of the line it has read. -/
def decodeReply (line : Text) : ScoreResult :=
  if line = [] then .error .osError
  else
    match words line with
    | [] => .error (.scoreError (strip line))
    | first :: rest =>
      if first = "ERR".toList then .error (.scoreError (strip line))
      else do
        let raw ← count first
        let key ← match rest with
          | _ :: hard :: regswap :: stack :: _ => do
            let hard ← count hard
            let regswap ← count regswap
            let stack ← count stack
            pure ⟨hard, regswap, stack, raw, true⟩
          | _ => pure (ScoreKey.fromRaw raw)
        match rest with
        | hash :: _ => pure (key, hash)
        | [] => .error .indexError

/-- What a call for a candidate should give: its score, breakdown and hash, or a
`ScoreError`. -/
def resultOf : Scored → ScoreResult
  | .ok (score, hash, breakdown) =>
    .ok (⟨breakdown.hard, breakdown.regswap, breakdown.stack, score, true⟩, hex016 hash.toNat)
  | .error e => .error (.scoreError (strip (reply (.error e))))

theorem count_decimal (n : Nat) : count (Nat.toDigits 10 n) = .ok n := by
  simp [count, intBase10_decimal]

theorem mem_hex016 {c : Char} {n : Nat} (h : c ∈ hex016 n) : c ∈ hexAlphabet := by
  rcases List.mem_append.mp h with h | h
  · rw [List.eq_of_mem_replicate h]
    decide
  · exact mem_hex h

theorem words_decimal (n : Nat) : words (Nat.toDigits 10 n) = [Nat.toDigits 10 n] :=
  words_token Nat.toDigits_ne_nil fun _ hc => (decimalAlphabet_plain (mem_decimal hc)).1

theorem words_hex016 (n : Nat) : words (hex016 n) = [hex016 n] := by
  refine words_token ?_ fun _ hc => (hexAlphabet_plain (mem_hex016 hc)).1
  simp [hex016, hex_ne_nil]

theorem decodeReply_reply (s : Scored) : decodeReply (reply s ++ ['\n']) = resultOf s := by
  have hne : reply s ++ ['\n'] ≠ [] := by simp
  have hwords : words (reply s ++ ['\n']) = words (reply s) := by
    rw [words_append_whitespace (by decide)]
    simp [words]
  rw [decodeReply, if_neg hne, hwords]
  cases s with
  | ok scored =>
    obtain ⟨score, hash, breakdown⟩ := scored
    have hparts : words (reply (.ok (score, hash, breakdown))) =
        [Nat.toDigits 10 score, hex016 hash.toNat, Nat.toDigits 10 breakdown.hard,
          Nat.toDigits 10 breakdown.regswap, Nat.toDigits 10 breakdown.stack] := by
      simp [reply, words_append_space, words_decimal, words_hex016]
    have herr : Nat.toDigits 10 score ≠ "ERR".toList := by
      intro h
      have hmem : 'E' ∈ Nat.toDigits 10 score := by
        rw [h]
        decide
      exact absurd (mem_decimal hmem) (by decide)
    rw [hparts]
    simp only [if_neg herr, count_decimal, ok_bind]
    rfl
  | error e =>
    have hfirst : ∃ rest, words (reply (.error e)) = "ERR".toList :: rest := by
      refine ⟨words (e.map fun c => if c = '\n' then ' ' else c), ?_⟩
      have herr : words "ERR".toList = ["ERR".toList] := by decide
      have h := words_append_space "ERR".toList (e.map fun c => if c = '\n' then ' ' else c)
      rw [herr] at h
      exact h
    obtain ⟨rest, hrest⟩ := hfirst
    rw [hrest]
    simp only [↓reduceIte, resultOf]
    rw [strip_append_space (by decide)]

theorem reply_plain {s : Scored} (h : ∀ e, s = .error e → '\r' ∉ e) :
    '\n' ∉ reply s ∧ '\r' ∉ reply s := by
  have hdec {c : Char} {n : Nat} (hc : c ∈ Nat.toDigits 10 n) : c ≠ '\n' ∧ c ≠ '\r' :=
    (decimalAlphabet_plain (mem_decimal hc)).2.2.2.2
  have hhex {c : Char} {n : Nat} (hc : c ∈ hex016 n) : c ≠ '\n' ∧ c ≠ '\r' := by
    have := mem_hex016 hc
    constructor
    · rintro rfl
      exact absurd this (by decide)
    · rintro rfl
      exact absurd this (by decide)
  have hall : ∀ c ∈ reply s, c ≠ '\n' ∧ c ≠ '\r' := by
    intro c hc
    match s with
    | .ok (score, hash, breakdown) =>
      simp only [reply, List.mem_append, List.mem_cons] at hc
      rcases hc with hc | rfl | hc | rfl | hc | rfl | hc | rfl | hc
      all_goals first
        | exact hdec hc
        | exact hhex hc
        | decide
    | .error e =>
      have herr : ∀ c ∈ "ERR ".toList, c ≠ '\n' ∧ c ≠ '\r' := by decide
      rcases List.mem_append.mp hc with hc | hc
      · exact herr c hc
      · obtain ⟨d, hd, rfl⟩ := List.mem_map.mp hc
        split
        · decide
        · rename_i hn
          refine ⟨hn, ?_⟩
          rintro rfl
          exact h e rfl hd
  exact ⟨fun hn => (hall _ hn).1 rfl, fun hr => (hall _ hr).2 rfl⟩

/-! ## A session -/

inductive ServerPhase where
  | starting
  | reading
  | scoring (path : Text)
  | exited
  deriving DecidableEq, Repr

/-- `failed` is the `RuntimeError` of a server that did not start; after `closed`
the client makes no more calls. -/
inductive ClientPhase where
  | starting
  | idle
  | waiting
  | failed
  | closed
  deriving DecidableEq, Repr

/-- Both processes and their pipes, which carry the characters of the text. -/
structure Session where
  requests : Pipe
  replies : Pipe
  server : ServerPhase
  served : Nat
  client : ClientPhase
  todo : List Text
  results : List ScoreResult
  deriving DecidableEq

inductive Actor where
  | client
  | server
  | requestPipe
  | replyPipe
  deriving DecidableEq, Repr

section
variable (scoreOne : Nat → Text → Scored)

/-- The loop of `run`. What `score_one` finds for a path is up to the file that is
there at the time, hence up to how many were scored before. -/
def Session.serverStep (st : Session) : Option Session :=
  match st.server with
  | .starting =>
    some { st with replies := st.replies.write "READY\n".toList, server := .reading }
  | .reading =>
    st.requests.readLine.map fun (line, requests) =>
      if line = [] then { st with requests, replies := st.replies.close, server := .exited }
      else if trim line = [] then { st with requests }
      else { st with requests, server := .scoring (trim line) }
  | .scoring path =>
    some { st with
      replies := st.replies.write (reply (scoreOne st.served path) ++ ['\n'])
      server := .reading
      served := st.served + 1 }
  | .exited => none

/-- The constructor of `ObjdiffScorer`, then a call of `score` for each path, and
`close`. A caller that gets an `OSError` makes no more calls. -/
def Session.clientStep (st : Session) : Option Session :=
  match st.client with
  | .starting =>
    st.replies.readline.map fun (ready, replies) =>
      { st with replies, client := if strip ready = "READY".toList then .idle else .failed }
  | .idle =>
    match st.todo with
    | path :: todo =>
      some { st with requests := st.requests.write (path ++ ['\n']), client := .waiting, todo }
    | [] => some { st with requests := st.requests.close, client := .closed }
  | .waiting =>
    st.replies.readline.map fun (line, replies) =>
      { st with
        replies
        client := if decodeReply line = .error .osError then .closed else .idle
        results := st.results ++ [decodeReply line] }
  | .failed | .closed => none

def Session.step (st : Session) : Actor → Option Session
  | .client => st.clientStep
  | .server => st.serverStep scoreOne
  | .requestPipe => st.requests.deliver.map fun requests => { st with requests }
  | .replyPipe => st.replies.deliver.map fun replies => { st with replies }

def Session.start (paths : List Text) : Session :=
  ⟨.empty, .empty, .starting, 0, .starting, paths, []⟩

/-- The states that a session for `paths` reaches, whoever steps when. -/
inductive Session.Reached (paths : List Text) : Session → Prop
  | start : Reached paths (.start paths)
  | step {st st' : Session} (a : Actor) :
      Reached paths st → st.step scoreOne a = some st' → Reached paths st'

/-- A path the server can read back: not empty, with no white space around it and
no newline in it. -/
structure Sendable (path : Text) : Prop where
  nonempty : path ≠ []
  trimmed : trim path = path
  oneLine : '\n' ∉ path

/-- What the calls for `paths` should give, in order. -/
def resultsOf (paths : List Text) : List ScoreResult :=
  paths.mapIdx fun k path => resultOf (scoreOne k path)

/-- Where a session stands, with `done` the paths whose calls have returned. -/
inductive Agreed (paths : List Text) : Session → Prop
  | opening {requests replies : Pipe} (hq : requests.Carries []) (hr : replies.Carries []) :
      Agreed paths ⟨requests, replies, .starting, 0, .starting, paths, []⟩
  | ready {requests replies : Pipe} (hq : requests.Carries [])
      (hr : replies.Carries "READY\n".toList) :
      Agreed paths ⟨requests, replies, .reading, 0, .starting, paths, []⟩
  | between {requests replies : Pipe} (done todo : List Text) (hpaths : paths = done ++ todo)
      (hq : requests.Carries []) (hr : replies.Carries []) :
      Agreed paths
        ⟨requests, replies, .reading, done.length, .idle, todo, resultsOf scoreOne done⟩
  | asked {requests replies : Pipe} (done : List Text) (path : Text) (todo : List Text)
      (hpaths : paths = done ++ path :: todo) (hq : requests.Carries (path ++ ['\n']))
      (hr : replies.Carries []) :
      Agreed paths
        ⟨requests, replies, .reading, done.length, .waiting, todo, resultsOf scoreOne done⟩
  | scoring {requests replies : Pipe} (done : List Text) (path : Text) (todo : List Text)
      (hpaths : paths = done ++ path :: todo) (hq : requests.Carries []) (hr : replies.Carries []) :
      Agreed paths
        ⟨requests, replies, .scoring path, done.length, .waiting, todo, resultsOf scoreOne done⟩
  | answered {requests replies : Pipe} (done : List Text) (path : Text) (todo : List Text)
      (hpaths : paths = done ++ path :: todo) (hq : requests.Carries [])
      (hr : replies.Carries (reply (scoreOne done.length path) ++ ['\n'])) :
      Agreed paths
        ⟨requests, replies, .reading, done.length + 1, .waiting, todo, resultsOf scoreOne done⟩
  | closing {requests replies : Pipe} (hq : requests.content = []) (hclosed : requests.closed = true)
      (hr : replies.Carries []) :
      Agreed paths
        ⟨requests, replies, .reading, paths.length, .closed, [], resultsOf scoreOne paths⟩
  | ended {requests replies : Pipe} (hq : requests.content = []) (hr : replies.content = []) :
      Agreed paths
        ⟨requests, replies, .exited, paths.length, .closed, [], resultsOf scoreOne paths⟩

/-! ## Steps towards the end -/

/-- How many steps of the two processes are left at most. -/
def Session.rank (st : Session) : Nat :=
  (match st.client with
    | .starting | .waiting => 4 * st.todo.length + 5
    | .idle => 4 * st.todo.length + 4
    | .failed | .closed => 0) +
  match st.server with
  | .starting | .scoring _ => 2
  | .reading => if st.requests.content = [] then 1 else 3
  | .exited => 0

def Session.inFlight (st : Session) : Nat :=
  st.requests.inFlight.length + st.replies.inFlight.length

/-- A process has stepped, or a character has been delivered. -/
def Session.Nearer (st' st : Session) : Prop :=
  Prod.Lex (· < ·) (· < ·) (st'.rank, st'.inFlight) (st.rank, st.inFlight)

theorem nearer_wf : WellFounded Session.Nearer :=
  InvImage.wf (fun st : Session => (st.rank, st.inFlight))
    (WellFounded.prod_lex Nat.lt_wfRel.wf Nat.lt_wfRel.wf)

theorem Session.Nearer.rank {st' st : Session} (h : st'.rank < st.rank) : st'.Nearer st :=
  .left _ _ h

theorem Session.Nearer.delivery {st' st : Session} (hrank : st'.rank = st.rank)
    (h : st'.inFlight < st.inFlight) : st'.Nearer st := by
  unfold Session.Nearer
  rw [hrank]
  exact .right _ h

variable {scoreOne} {paths : List Text} {st st' : Session}

/-- The same characters are still to be read, wherever they are. -/
theorem Agreed.delivered (h : Agreed scoreOne paths st) {requests replies : Pipe}
    (hq : requests.content = st.requests.content) (hqc : requests.closed = st.requests.closed)
    (hr : replies.content = st.replies.content) (hrc : replies.closed = st.replies.closed) :
    Agreed scoreOne paths { st with requests, replies } := by
  have carries {p q : Pipe} {t : Text} (hp : q.content = p.content) (hc : q.closed = p.closed)
      (h : p.Carries t) : q.Carries t := ⟨hp.trans h.content, hc.trans h.opened⟩
  cases h with
  | opening hq' hr' => exact .opening (carries hq hqc hq') (carries hr hrc hr')
  | ready hq' hr' => exact .ready (carries hq hqc hq') (carries hr hrc hr')
  | between done todo hpaths hq' hr' =>
    exact .between done todo hpaths (carries hq hqc hq') (carries hr hrc hr')
  | asked done path todo hpaths hq' hr' =>
    exact .asked done path todo hpaths (carries hq hqc hq') (carries hr hrc hr')
  | scoring done path todo hpaths hq' hr' =>
    exact .scoring done path todo hpaths (carries hq hqc hq') (carries hr hrc hr')
  | answered done path todo hpaths hq' hr' =>
    exact .answered done path todo hpaths (carries hq hqc hq') (carries hr hrc hr')
  | closing hq' hclosed hr' =>
    exact .closing (hq.trans hq') (hqc.trans hclosed) (carries hr hrc hr')
  | ended hq' hr' => exact .ended (hq.trans hq') (hr.trans hr')

theorem Agreed.deliver (h : Agreed scoreOne paths st) :
    (st.step scoreOne .requestPipe = some st' → Agreed scoreOne paths st' ∧ st'.Nearer st) ∧
      (st.step scoreOne .replyPipe = some st' → Agreed scoreOne paths st' ∧ st'.Nearer st) := by
  constructor
  · intro hstep
    obtain ⟨requests, hq, rfl⟩ := Option.map_eq_some_iff.mp hstep
    obtain ⟨hcontent, hclosed, hlen⟩ := Pipe.deliver_content hq
    refine ⟨h.delivered hcontent hclosed rfl rfl, .delivery ?_ ?_⟩
    · simp only [Session.rank, hcontent]
    · simp only [Session.inFlight]
      omega
  · intro hstep
    obtain ⟨replies, hr, rfl⟩ := Option.map_eq_some_iff.mp hstep
    obtain ⟨hcontent, hclosed, hlen⟩ := Pipe.deliver_content hr
    refine ⟨h.delivered rfl rfl hcontent hclosed, .delivery rfl ?_⟩
    simp only [Session.inFlight]
    omega

section
variable (hpaths : ∀ path ∈ paths, Sendable path)
  (hmessages : ∀ k path e, scoreOne k path = .error e → '\r' ∉ e)

include hpaths in
theorem Agreed.serverStep (h : Agreed scoreOne paths st)
    (hstep : st.serverStep scoreOne = some st') :
    Agreed scoreOne paths st' ∧ st'.Nearer st := by
  cases h with
  | opening hq hr =>
    cases hstep
    refine ⟨.ready hq (hr.write _), .rank ?_⟩
    simp [Session.rank, hq.content]
  | ready hq hr =>
    simp [Session.serverStep, hq.blocked.1] at hstep
  | between done todo hp hq hr =>
    simp [Session.serverStep, hq.blocked.1] at hstep
  | asked done path todo hp hq hr =>
    obtain ⟨hne, htrim, hline⟩ := hpaths path (by simp [hp])
    obtain ⟨⟨line, requests⟩, hread, rfl⟩ := Option.map_eq_some_iff.mp hstep
    obtain ⟨rfl, hq'⟩ := hq.readLine hline hread
    have hnil : path ++ ['\n'] ≠ [] := by simp
    simp only [hnil, trim_newline, htrim, hne, ↓reduceIte]
    refine ⟨.scoring done path todo hp hq' hr, .rank ?_⟩
    simp [Session.rank, hq.content]
  | scoring done path todo hp hq hr =>
    cases hstep
    refine ⟨.answered done path todo hp hq (hr.write _), .rank ?_⟩
    simp [Session.rank, hq.content]
  | answered done path todo hp hq hr =>
    simp [Session.serverStep, hq.blocked.1] at hstep
  | @closing requests replies hq hclosed hr =>
    -- the end of the file
    obtain ⟨⟨line, after⟩, hread, rfl⟩ := Option.map_eq_some_iff.mp hstep
    obtain ⟨harrived, hflight⟩ := List.append_eq_nil_iff.mp hq
    have hended : requests.ended = true := by simp [Pipe.ended, hclosed, hflight]
    simp only [Pipe.readLine, Pipe.readWith, harrived, takeLine, hended, ↓reduceIte, id_eq,
      Option.some.injEq, Prod.mk.injEq] at hread
    obtain ⟨rfl, rfl⟩ := hread
    refine ⟨.ended ?_ hr.content, .rank ?_⟩
    · simp [Pipe.content, hflight]
    · simp [Session.rank, hq]
  | ended => cases hstep

omit hpaths in
theorem resultsOf_concat (done : List Text) (path : Text) :
    resultsOf scoreOne (done ++ [path]) =
      resultsOf scoreOne done ++ [resultOf (scoreOne done.length path)] := by
  rw [resultsOf, List.mapIdx_concat]
  rfl

include hmessages in
theorem Agreed.clientStep (h : Agreed scoreOne paths st) (hstep : st.clientStep = some st') :
    Agreed scoreOne paths st' ∧ st'.Nearer st := by
  cases h with
  | opening hq hr =>
    simp [Session.clientStep, hr.blocked.2] at hstep
  | @ready requests replies hq hr =>
    have hline : replies.Carries ("READY".toList ++ ['\n']) := hr
    obtain ⟨⟨line, after⟩, hread, rfl⟩ := Option.map_eq_some_iff.mp hstep
    rw [hline.readline_eq (by decide)] at hread
    obtain ⟨rfl, hr'⟩ := hline.readLine (by decide) hread
    have hready : strip ("READY".toList ++ ['\n']) = "READY".toList := by decide
    simp only [hready, ↓reduceIte]
    refine ⟨.between [] paths rfl hq hr', .rank ?_⟩
    simp [Session.rank, hq.content]
  | between done todo hp hq hr =>
    cases todo with
    | nil =>
      cases hstep
      rw [List.append_nil] at hp
      subst hp
      refine ⟨.closing hq.content rfl hr, .rank ?_⟩
      simp [Session.rank, hq.content]
    | cons path todo =>
      cases hstep
      refine ⟨.asked done path todo hp (hq.write _) hr, .rank ?_⟩
      simp [Session.rank, hq.content]
      omega
  | asked done path todo hp hq hr =>
    simp [Session.clientStep, hr.blocked.2] at hstep
  | scoring done path todo hp hq hr =>
    simp [Session.clientStep, hr.blocked.2] at hstep
  | answered done path todo hp hq hr =>
    obtain ⟨hn, hcr⟩ := reply_plain (hmessages done.length path)
    obtain ⟨⟨line, replies⟩, hread, rfl⟩ := Option.map_eq_some_iff.mp hstep
    rw [hr.readline_eq (by simp [hcr])] at hread
    obtain ⟨rfl, hr'⟩ := hr.readLine hn hread
    have hgood : resultOf (scoreOne done.length path) ≠ .error .osError := by
      cases scoreOne done.length path with
      | ok => simp [resultOf]
      | error => simp [resultOf]
    simp only [decodeReply_reply, hgood, ↓reduceIte, ← resultsOf_concat]
    have hlen : done.length + 1 = (done ++ [path]).length := by simp
    rw [hlen]
    refine ⟨.between (done ++ [path]) todo (by simp [hp]) hq hr', .rank ?_⟩
    simp [Session.rank, hq.content]
  | closing => cases hstep
  | ended => cases hstep

include hpaths hmessages in
theorem agreed_step (h : Agreed scoreOne paths st) {a : Actor}
    (hstep : st.step scoreOne a = some st') : Agreed scoreOne paths st' ∧ st'.Nearer st := by
  cases a with
  | client => exact h.clientStep hmessages hstep
  | server => exact h.serverStep hpaths hstep
  | requestPipe => exact h.deliver.1 hstep
  | replyPipe => exact h.deliver.2 hstep

include hpaths hmessages in
theorem reached_agreed (h : Session.Reached scoreOne paths st) : Agreed scoreOne paths st := by
  induction h with
  | start => exact .opening Pipe.empty_carries Pipe.empty_carries
  | step a _ hstep ih => exact (agreed_step hpaths hmessages ih hstep).1

/-- A line under way is delivered, and then read. -/
theorem line_progress {p : Pipe} {line : Text} (h : p.Carries (line ++ ['\n']))
    (hline : '\n' ∉ line) : (∃ q, p.deliver = some q) ∨ ∃ r, p.readLine = some r := by
  by_cases harrived : p.inFlight = []
  · exact .inr (h.readable hline harrived)
  · exact .inl (Pipe.deliver_of_inFlight harrived)

include hpaths hmessages in
/-- Someone can step until both processes are through. -/
theorem agreed_progress (h : Agreed scoreOne paths st) :
    (∃ a st', st.step scoreOne a = some st') ∨ st.client = .closed ∧ st.server = .exited := by
  cases h with
  | opening => exact .inl ⟨.server, _, rfl⟩
  | @ready requests replies hq hr =>
    have hline : replies.Carries ("READY".toList ++ ['\n']) := hr
    rcases line_progress hline (by decide) with ⟨q, hq⟩ | ⟨r, hread⟩
    · exact .inl ⟨.replyPipe, _, by simp [Session.step, hq]; rfl⟩
    · rw [← hline.readline_eq (by decide)] at hread
      exact .inl ⟨.client, _, by simp [Session.step, Session.clientStep, hread]; rfl⟩
  | between done todo =>
    cases todo with
    | nil => exact .inl ⟨.client, _, rfl⟩
    | cons => exact .inl ⟨.client, _, rfl⟩
  | asked done path todo hp hq hr =>
    rcases line_progress hq (hpaths path (by simp [hp])).oneLine with ⟨q, hq⟩ | ⟨r, hread⟩
    · exact .inl ⟨.requestPipe, _, by simp [Session.step, hq]; rfl⟩
    · exact .inl ⟨.server, _, by simp [Session.step, Session.serverStep, hread]; rfl⟩
  | scoring => exact .inl ⟨.server, _, rfl⟩
  | answered done path todo hp hq hr =>
    obtain ⟨hn, hcr⟩ := reply_plain (hmessages done.length path)
    rcases line_progress hr hn with ⟨q, hq⟩ | ⟨r, hread⟩
    · exact .inl ⟨.replyPipe, _, by simp [Session.step, hq]; rfl⟩
    · rw [← hr.readline_eq (by simp [hcr])] at hread
      exact .inl ⟨.client, _, by simp [Session.step, Session.clientStep, hread]; rfl⟩
  | @closing requests replies hq hclosed hr =>
    obtain ⟨harrived, hflight⟩ := List.append_eq_nil_iff.mp hq
    have hread : requests.readLine = some ([], { requests with arrived := [] }) := by
      simp [Pipe.readLine, Pipe.readWith, harrived, takeLine, Pipe.ended, hclosed, hflight]
    exact .inl ⟨.server, _, by simp [Session.step, Session.serverStep, hread]; rfl⟩
  | ended => exact .inr ⟨rfl, rfl⟩

include hpaths hmessages in
/-- Every session comes to its end. -/
theorem session_ends (h : Session.Reached scoreOne paths st) :
    ∃ last, Session.Reached scoreOne paths last ∧ last.client = .closed := by
  induction st using nearer_wf.induction with
  | _ st ih =>
    have hagreed := reached_agreed hpaths hmessages h
    rcases agreed_progress hpaths hmessages hagreed with ⟨a, st', hstep⟩ | ⟨hclosed, -⟩
    · exact ih st' (agreed_step hpaths hmessages hagreed hstep).2 (.step a h hstep)
    · exact ⟨st, h, hclosed⟩

/-- What both ends agree on, read off. -/
theorem Agreed.results (h : Agreed scoreOne paths st) :
    st.results <+: resultsOf scoreOne paths ∧
      (st.client = .idle → st.requests.content = [] ∧ st.replies.content = []) ∧
      (st.client = .closed → st.results = resultsOf scoreOne paths) ∧ st.client ≠ .failed := by
  have hbegins (done todo : List Text) :
      resultsOf scoreOne done <+: resultsOf scoreOne (done ++ todo) := by
    simp [resultsOf, List.mapIdx_append]
  cases h with
  | opening | ready => simp
  | between done todo hp hq hr =>
    subst hp
    exact ⟨hbegins done todo, fun _ => ⟨hq.content, hr.content⟩, by simp, by simp⟩
  | asked done path todo hp | scoring done path todo hp | answered done path todo hp =>
    subst hp
    exact ⟨hbegins done (path :: todo), by simp, by simp, by simp⟩
  | closing | ended => simp

end

/-- **Lock-step.** In every state of every session the calls that have returned have
the replies for their own paths, and between two calls nothing is left in either
pipe. A session goes on until every call has returned. -/
theorem scorer_lockstep (scoreOne : Nat → Text → Scored) (paths : List Text)
    (hpaths : ∀ path ∈ paths, Sendable path)
    (hmessages : ∀ k path e, scoreOne k path = .error e → '\r' ∉ e) :
    (∀ st, Session.Reached scoreOne paths st →
      st.results <+: resultsOf scoreOne paths ∧
      (st.client = .idle → st.requests.content = [] ∧ st.replies.content = []) ∧
      (st.client = .closed → st.results = resultsOf scoreOne paths) ∧ st.client ≠ .failed ∧
      ((∃ a st', st.step scoreOne a = some st') ∨ st.client = .closed ∧ st.server = .exited)) ∧
    ¬∃ run : Nat → Session, run 0 = .start paths ∧
      ∀ n, ∃ a, (run n).step scoreOne a = some (run (n + 1)) := by
  refine ⟨?_, ?_⟩
  · intro st h
    have hagreed := reached_agreed hpaths hmessages h
    obtain ⟨hresults, hidle, hclosed, hfailed⟩ := hagreed.results
    exact ⟨hresults, hidle, hclosed, hfailed, agreed_progress hpaths hmessages hagreed⟩
  · rintro ⟨run, hstart, hsteps⟩
    have hreached : ∀ n, Session.Reached scoreOne paths (run n) := by
      intro n
      induction n with
      | zero =>
        rw [hstart]
        exact .start
      | succ n ih =>
        obtain ⟨a, hstep⟩ := hsteps n
        exact .step a ih hstep
    have hnearer : ∀ n, (run (n + 1)).Nearer (run n) := by
      intro n
      obtain ⟨a, hstep⟩ := hsteps n
      exact (agreed_step hpaths hmessages (reached_agreed hpaths hmessages (hreached n)) hstep).2
    exact (wellFounded_iff_isEmpty_descending_chain.mp nearer_wf).false ⟨run, hnearer⟩

end

/-! ## A failure between two scores -/

def mixedPaths : List Text :=
  ["/tmp/mwcc_a/cand.o".toList, "/tmp/mwcc_b/cand.o".toList, "/tmp/mwcc_c/cand.o".toList]

def mixedScores : Nat → Text → Scored
  | 0, _ => .ok (145, 0xcbf29ce484222325, ⟨1, 2, 0⟩)
  | 1, _ => .error "12 errors:\nsymbol gm_801 not found".toList
  | _, _ => .ok (0, 0xab, ⟨0, 0, 0⟩)

theorem mixed_session : ∃ st, Session.Reached mixedScores mixedPaths st ∧ st.client = .closed ∧
    st.results = [.ok (⟨1, 2, 0, 145, true⟩, "cbf29ce484222325".toList),
      .error (.scoreError "ERR 12 errors: symbol gm_801 not found".toList),
      .ok (⟨0, 0, 0, 0, true⟩, "00000000000000ab".toList)] := by
  have hpaths : ∀ path ∈ mixedPaths, Sendable path := by
    intro path hpath
    simp only [mixedPaths, List.mem_cons, List.not_mem_nil, or_false] at hpath
    rcases hpath with rfl | rfl | rfl
    all_goals exact ⟨by decide, by decide, by decide⟩
  have hmessages : ∀ k path e, mixedScores k path = .error e → '\r' ∉ e := by
    intro k path e h
    match k with
    | 0 => cases h
    | 1 =>
      cases h
      decide
    | k + 2 => cases h
  obtain ⟨st, hreached, hclosed⟩ := session_ends hpaths hmessages .start
  refine ⟨st, hreached, hclosed, ?_⟩
  rw [((scorer_lockstep mixedScores mixedPaths hpaths hmessages).1 st hreached).2.2.1 hclosed]
  decide

end MeleeHarness.Permute
