import MeleeHarness.Lib.C.Grammar

/-!
# A subset of C: parsing

A parser that climbs the precedence levels. It finds every written tree in its tokens,
so tokens have one written tree at most.

* `written_resumes`: reading the tokens of a tree comes down to going on from it;
* `print_inj`: two written trees differ in their tokens.
-/

namespace MeleeHarness.Lib.C

/-- The level at which a token goes on with an expression, 0 if it ends one. -/
def Token.joins : Token → Nat
  | .binary op => op.level
  | .assign _ => Level.assignment
  | .comma => Level.comma
  | .question => Level.conditional
  | .update _ | .dot | .arrow | .lbracket | .lparen => Level.postfixed
  | _ => 0

def expect (t : Token) : List Token → Option (List Token)
  | [] => none
  | u :: ts => if u = t then some ts else none

mutual

/-- An expression of level `p` at least, and what follows it. -/
def parseExpr : Nat → Nat → List Token → Option (Expr × List Token)
  | 0, _, _ => none
  | f + 1, p, ts => do
    let (e, ts) ← parseFirst f ts
    parseRest f p e ts

def parseFirst : Nat → List Token → Option (Expr × List Token)
  | 0, _ | _, [] => none
  | _ + 1, .literal v :: ts => some (.val v, ts)
  | _ + 1, .name x :: ts => some (.ident x, ts)
  | _ + 1, .sizeofType size :: ts => some (.node (.sizeof size) [], ts)
  | f + 1, .lparen :: .type ty :: ts => do
    let ts ← expect .rparen ts
    let (e, ts) ← parseExpr f Level.cast ts
    return (.node (.cast ty) [e], ts)
  | f + 1, .lparen :: ts => do
    let (e, ts) ← parseExpr f Level.comma ts
    let ts ← expect .rparen ts
    return (.node .parenthesized [e], ts)
  | f + 1, t :: ts => do
    let k ← t.prefixes
    let (e, ts) ← parseExpr f (k.demands 0) ts
    return (.node k [e], ts)

/-- What an expression goes on to, as long as tokens join it at level `p` or above. -/
def parseRest : Nat → Nat → Expr → List Token → Option (Expr × List Token)
  | 0, _, _, _ => none
  | _ + 1, _, e, [] => some (e, [])
  | f + 1, p, e, t :: ts =>
    if t.joins < p then some (e, t :: ts) else do
      let (e, ts) ← parseJoin f e t ts
      parseRest f p e ts

def parseJoin : Nat → Expr → Token → List Token → Option (Expr × List Token)
  | 0, _, _, _ => none
  | _ + 1, e, .dot, .name x :: ts => some (.node (.field x) [e], ts)
  | _ + 1, e, .arrow, .name x :: ts => some (.node (.arrow x) [e], ts)
  | _ + 1, e, .update op, ts => some (.node (.update false op) [e], ts)
  | f + 1, e, .lbracket, ts => do
    let (i, ts) ← parseExpr f Level.comma ts
    let ts ← expect .rbracket ts
    return (.node .subscript [e, i], ts)
  | f + 1, e, .lparen, ts => do
    let (args, ts) ← parseArgs f ts
    return (.node .call (e :: args), ts)
  | f + 1, e, .question, ts => do
    let (a, ts) ← parseExpr f Level.comma ts
    let ts ← expect .colon ts
    let (b, ts) ← parseExpr f Level.conditional ts
    return (.node .conditional [e, a, b], ts)
  | f + 1, e, t, ts => do
    let k ← t.infixes
    let (b, ts) ← parseExpr f (k.demands 1) ts
    return (.node k [e, b], ts)

def parseArgs : Nat → List Token → Option (List Expr × List Token)
  | 0, _ => none
  | _ + 1, .rparen :: ts => some ([], ts)
  | f + 1, ts => do
    let (a, ts) ← parseExpr f Level.assignment ts
    match ts with
    | .comma :: ts =>
      let (args, ts) ← parseArgs f ts
      return (a :: args, ts)
    | .rparen :: ts => return ([a], ts)
    | _ => none

end

/-! ## The parser finds the tree of its tokens -/

/-- With enough fuel the outcome is `r`. -/
def Settles {α : Type} (g : Nat → Option α) (r : α) : Prop := ∃ n, ∀ f, n ≤ f → g f = some r

theorem Settles.unique {α : Type} {g : Nat → Option α} {r r' : α} (h : Settles g r)
    (h' : Settles g r') : r = r' := by
  obtain ⟨n, hn⟩ := h
  obtain ⟨n', hn'⟩ := h'
  have hr := hn (max n n') (le_max_left _ _)
  rw [hn' (max n n') (le_max_right _ _)] at hr
  exact (Option.some.inj hr).symm

theorem settles_succ {α : Type} {g : Nat → Option α} {r : α} (h : Settles (fun f => g (f + 1)) r) :
    Settles g r := by
  obtain ⟨n, hn⟩ := h
  refine ⟨n + 1, ?_⟩
  intro f hf
  obtain ⟨f, rfl⟩ : ∃ f', f = f' + 1 := ⟨f - 1, by omega⟩
  exact hn f (by omega)

theorem settles_const {α : Type} (r : α) : Settles (fun _ => some r) r := ⟨0, fun _ _ => rfl⟩

theorem settles_bind {α β : Type} {g : Nat → Option α} {h : Nat → α → Option β} {a : α} {b : β}
    (hg : Settles g a) (hh : Settles (fun f => h f a) b) : Settles (fun f => (g f).bind (h f)) b := by
  obtain ⟨n, hn⟩ := hg
  obtain ⟨m, hm⟩ := hh
  refine ⟨max n m, ?_⟩
  intro f hf
  change (g f).bind (h f) = some b
  rw [hn f (le_trans (le_max_left _ _) hf), Option.bind_some]
  exact hm f (le_trans (le_max_right _ _) hf)

/-- An expression of a level goes on with any token that joins at this level or above. -/
def closesAt (level : Nat) : Nat :=
  if level ≤ Level.comma then Level.assignment
  else if level ≤ Level.conditional then level
  else if level < Level.cast then level + 1
  else if level ≤ Level.unary then Level.cast
  else Level.primary

theorem le_closesAt {m level : Nat} (hle : m ≤ level) (hcast : m ≤ Level.cast) :
    m ≤ closesAt level := by
  unfold closesAt Level.comma Level.assignment Level.conditional Level.unary Level.primary
  unfold Level.cast at *
  split_ifs <;> omega

theorem comma_lt_closesAt (level : Nat) : Level.comma < closesAt level := by
  unfold closesAt Level.comma Level.assignment Level.conditional Level.cast Level.unary Level.primary
  split_ifs <;> omega

/-- A binary operator never joins what stands on its left at a higher level. -/
theorem lt_closesAt {m level : Nat} (hle : m ≤ level) (hcast : m < Level.cast)
    (hbinary : Level.conditional < m) : m < closesAt level := by
  unfold closesAt Level.comma Level.assignment Level.unary Level.primary
  unfold Level.cast Level.conditional at *
  split_ifs <;> omega

/-- The level at which the next token goes on with what stands before it. -/
def joinsHead : List Token → Nat
  | [] => 0
  | t :: _ => t.joins

theorem settles_stop {p : Nat} {e : Expr} {ts : List Token} (h : joinsHead ts < p) :
    Settles (fun f => parseRest f p e ts) (e, ts) := by
  apply settles_succ
  cases ts with
  | nil => exact settles_const _
  | cons t ts =>
    refine ⟨0, ?_⟩
    intro f _
    change parseRest (f + 1) p e (t :: ts) = _
    rw [parseRest]
    exact if_pos h

theorem settles_first {p : Nat} {us ts : List Token} {e : Expr} {r : Expr × List Token}
    (hfirst : Settles (fun f => parseFirst f us) (e, ts))
    (hrest : Settles (fun f => parseRest f p e ts) r) : Settles (fun f => parseExpr f p us) r := by
  apply settles_succ
  simp only [parseExpr]
  exact settles_bind hfirst hrest

theorem settles_join {p : Nat} {t : Token} {us ts : List Token} {e e' : Expr}
    {r : Expr × List Token} (hp : p ≤ t.joins)
    (hjoin : Settles (fun f => parseJoin f e t us) (e', ts))
    (hrest : Settles (fun f => parseRest f p e' ts) r) :
    Settles (fun f => parseRest f p e (t :: us)) r := by
  apply settles_succ
  simp only [parseRest, if_neg (Nat.not_lt.mpr hp)]
  exact settles_bind hjoin hrest

theorem settles_expect {t : Token} {ts : List Token} : Settles (fun _ => expect t (t :: ts)) ts :=
  ⟨0, fun _ _ => if_pos rfl⟩

/-- Reading the tokens of `e` comes down to going on from `e`. -/
def Resumes (e : Expr) : Prop :=
  ∀ p ts r, p ≤ e.level → joinsHead ts < closesAt e.level →
    Settles (fun f => parseRest f p e ts) r → Settles (fun f => parseExpr f p (e.print ++ ts)) r

/-- An operand is read to its end if nothing that follows joins it. -/
theorem Resumes.operand {e : Expr} (h : Resumes e) {p : Nat} {ts : List Token} (hp : p ≤ e.level)
    (hjoins : joinsHead ts < p) (hcast : joinsHead ts < Level.cast) :
    Settles (fun f => parseExpr f p (e.print ++ ts)) (e, ts) := by
  apply h p ts (e, ts) hp
  · have hle := le_closesAt (m := min p Level.cast) (le_trans (min_le_left _ _) hp) (min_le_right _ _)
    exact lt_of_lt_of_le (lt_min hjoins hcast) hle
  · exact settles_stop hjoins

/-- An operand is read to a token that ends every expression. -/
theorem Resumes.closed {e : Expr} (h : Resumes e) {p : Nat} {t : Token} {ts : List Token}
    (hp : p ≤ e.level) (ht : t.joins = 0) (hpos : 0 < p) :
    Settles (fun f => parseExpr f p (e.print ++ t :: ts)) (e, t :: ts) := by
  have hjoins : joinsHead (t :: ts) = 0 := ht
  exact h.operand hp (hjoins ▸ hpos) (hjoins ▸ (by decide))

section
variable {t : Token} {k : Kind} {us : List Token}

theorem parseFirst_prefixed (h : t.prefixes = some k) (f : Nat) (ts : List Token) :
    parseFirst (f + 1) (t :: ts) =
      (parseExpr f (k.demands 0) ts).bind fun (e, ts) => some (.node k [e], ts) := by
  unfold Token.prefixes at h
  split at h <;> cases h <;> rfl

theorem joins_postfixed (ht : t.joins = Level.postfixed) {level : Nat}
    (hlevel : Level.postfixed ≤ level) : t.joins < closesAt level := by
  rw [ht]
  unfold closesAt Level.comma Level.assignment Level.conditional Level.cast Level.unary
    Level.primary Level.postfixed at *
  split_ifs <;> omega

theorem parseJoin_suffixed (h : k.suffix = some us) : ∃ t us', us = t :: us' ∧
    t.joins = Level.postfixed ∧
    ∀ f e ts, parseJoin (f + 1) e t (us' ++ ts) = some (.node k [e], ts) := by
  unfold Kind.suffix at h
  split at h <;> cases h <;> exact ⟨_, _, rfl, rfl, fun _ _ _ => rfl⟩

theorem level_joined (h : t.infixes = some k) : k.level = t.joins := by
  unfold Token.infixes at h
  split at h <;> cases h <;> rfl

/-- The right operand takes what joins it, and nothing that joins the whole. -/
theorem demands_joined (h : t.infixes = some k) :
    k.demands 1 = closesAt k.level ∧ k.demands 1 ≤ Level.cast := by
  unfold Token.infixes at h
  split at h
  · rename_i op
    cases h
    cases op with
    | arith op => cases op <;> decide
    | logAnd | logOr => decide
  · cases h
    exact ⟨rfl, (by decide : Level.assignment ≤ Level.cast)⟩
  · cases h
    decide
  · cases h

theorem joins_left (h : t.infixes = some k) {level : Nat} (hlevel : k.demands 0 ≤ level) :
    t.joins < closesAt level := by
  unfold Token.infixes at h
  split at h
  · rename_i op
    cases h
    have hop := binary_level_bounds op
    exact lt_closesAt hlevel hop.2 hop.1
  · cases h
    have hcast : Level.cast ≤ Level.unary := by decide
    have hassign : Level.assignment < Level.cast := by decide
    exact lt_of_lt_of_le hassign (le_closesAt (hcast.trans hlevel) le_rfl)
  · cases h
    exact comma_lt_closesAt level
  · cases h

theorem parseJoin_joined (h : t.infixes = some k) (f : Nat) (e : Expr) (ts : List Token) :
    parseJoin (f + 1) e t ts =
      (parseExpr f (k.demands 1) ts).bind fun (b, ts) => some (.node k [e, b], ts) := by
  unfold Token.infixes at h
  split at h <;> cases h <;> rfl

end

theorem resumes_prefixed {t : Token} {k : Kind} {a : Expr} (ht : t.prefixes = some k)
    (ha : k.demands 0 ≤ a.level) (ih : Resumes a) : Resumes (.node k [a]) := by
  intro p ts r _ hjoins hrest
  have hprint : (Expr.node k [a]).print = t :: a.print := arrange_prefixed ht a.print
  have hcast : joinsHead ts < Level.cast := by
    rw [Expr.level, level_prefixed ht] at hjoins
    exact hjoins
  rw [hprint, List.cons_append]
  refine settles_first ?_ hrest
  apply settles_succ
  simp only [parseFirst_prefixed ht]
  exact settles_bind (ih.operand ha (lt_of_lt_of_le hcast (demands_prefixed ht)) hcast)
    (settles_const _)

theorem resumes_cast {ty : Text} {a : Expr} (ha : Level.cast ≤ a.level) (ih : Resumes a) :
    Resumes (.node (.cast ty) [a]) := by
  intro p ts r _ hjoins hrest
  have hprint : (Expr.node (.cast ty) [a]).print = .lparen :: .type ty :: .rparen :: a.print := rfl
  have hcast : joinsHead ts < Level.cast := hjoins
  have hfirst : ∀ f, parseFirst (f + 1) (.lparen :: .type ty :: .rparen :: (a.print ++ ts)) =
      (parseExpr f Level.cast (a.print ++ ts)).bind fun (e, ts) => some (.node (.cast ty) [e], ts) :=
    fun _ => rfl
  rw [hprint, List.cons_append, List.cons_append, List.cons_append]
  refine settles_first ?_ hrest
  apply settles_succ
  simp only [hfirst]
  exact settles_bind (ih.operand ha hcast hcast) (settles_const _)

theorem resumes_parenthesized {a : Expr} (ha : Level.comma ≤ a.level) (hwritten : a.written = true)
    (ih : Resumes a) : Resumes (.node .parenthesized [a]) := by
  intro p ts r _ _ hrest
  have hprint : (Expr.node .parenthesized [a]).print ++ ts = .lparen :: (a.print ++ .rparen :: ts) := by
    simp [Expr.print, Expr.printAll, Kind.arrange]
  rw [hprint]
  refine settles_first ?_ hrest
  apply settles_succ
  obtain ⟨t, us, hstart, ht⟩ := print_starts hwritten
  have hoperand : Settles (fun f => parseExpr f Level.comma (a.print ++ .rparen :: ts))
      (a, .rparen :: ts) := ih.closed ha rfl (by decide)
  have hfirst : ∀ f, parseFirst (f + 1) (.lparen :: (a.print ++ .rparen :: ts)) =
      (parseExpr f Level.comma (a.print ++ .rparen :: ts)).bind fun (e, ts) =>
        (expect .rparen ts).bind fun ts => some (.node .parenthesized [e], ts) := by
    intro f
    rw [hstart]
    cases t <;> first | rfl | cases ht
  simp only [hfirst]
  exact settles_bind hoperand (settles_bind settles_expect (settles_const _))

theorem resumes_suffixed {k : Kind} {us : List Token} {a : Expr} (hk : k.suffix = some us)
    (ha : Level.postfixed ≤ a.level) (ih : Resumes a) : Resumes (.node k [a]) := by
  intro p ts r hp _ hrest
  obtain ⟨t, us', rfl, ht, hjoin⟩ := parseJoin_suffixed hk
  rw [Expr.level, level_suffixed hk, ← ht] at hp
  have hprint : (Expr.node k [a]).print = a.print ++ t :: us' := arrange_suffixed hk a.print
  rw [hprint, List.append_assoc, List.cons_append]
  refine ih p _ r (hp.trans (ht ▸ ha)) (joins_postfixed ht ha) (settles_join hp ?_ hrest)
  exact settles_succ ⟨0, fun f _ => hjoin f a ts⟩

theorem resumes_subscript {a i : Expr} (ha : Level.postfixed ≤ a.level)
    (hi : Level.comma ≤ i.level) (iha : Resumes a) (ihi : Resumes i) :
    Resumes (.node .subscript [a, i]) := by
  intro p ts r hp _ hrest
  have hprint : (Expr.node .subscript [a, i]).print ++ ts =
      a.print ++ .lbracket :: (i.print ++ .rbracket :: ts) := by
    simp [Expr.print, Expr.printAll, Kind.arrange]
  have hjoin : ∀ f, parseJoin (f + 1) a .lbracket (i.print ++ .rbracket :: ts) =
      (parseExpr f Level.comma (i.print ++ .rbracket :: ts)).bind fun (i, ts) =>
        (expect .rbracket ts).bind fun ts => some (.node .subscript [a, i], ts) := fun _ => rfl
  rw [hprint]
  refine iha p _ r (le_trans hp ha) (joins_postfixed (t := .lbracket) rfl ha)
    (settles_join hp ?_ hrest)
  apply settles_succ
  simp only [hjoin]
  exact settles_bind (ihi.closed hi rfl (by decide)) (settles_bind settles_expect (settles_const _))

theorem settles_args {args : List Expr} {ts : List Token}
    (h : ∀ a ∈ args, Level.assignment ≤ a.level ∧ a.written = true ∧ Resumes a) :
    Settles (fun f => parseArgs f (commaSeparated (Expr.printAll args) ++ .rparen :: ts))
      (args, ts) := by
  induction args with
  | nil => exact settles_succ (settles_const _)
  | cons a rest ih =>
    obtain ⟨ha, hwritten, hresumes⟩ := h a List.mem_cons_self
    have hargs : ∀ f us, parseArgs (f + 1) (a.print ++ us) =
        (parseExpr f Level.assignment (a.print ++ us)).bind fun (a, ts) =>
          match ts with
          | .comma :: ts => (parseArgs f ts).bind fun (args, ts) => some (a :: args, ts)
          | .rparen :: ts => some ([a], ts)
          | _ => none := by
      intro f us
      obtain ⟨t, ts, hstart, ht⟩ := print_starts hwritten
      rw [hstart]
      cases t <;> first | rfl | cases ht
    apply settles_succ
    cases rest with
    | nil =>
      simp only [Expr.printAll, commaSeparated, hargs]
      exact settles_bind (hresumes.closed ha rfl (by decide)) (settles_const _)
    | cons b rest =>
      have hrest := ih fun c hc => h c (List.mem_cons_of_mem _ hc)
      simp only [Expr.printAll, commaSeparated, List.append_assoc, List.cons_append] at hrest ⊢
      simp only [hargs]
      refine settles_bind (hresumes.operand ha ?_ ?_) (settles_bind hrest (settles_const _))
      · exact (by decide : Level.comma < Level.assignment)
      · exact (by decide : Level.comma < Level.cast)

theorem resumes_call {g : Expr} {args : List Expr} (hg : Level.postfixed ≤ g.level)
    (ih : Resumes g)
    (h : ∀ a ∈ args, Level.assignment ≤ a.level ∧ a.written = true ∧ Resumes a) :
    Resumes (.node .call (g :: args)) := by
  intro p ts r hp _ hrest
  have hprint : (Expr.node .call (g :: args)).print ++ ts =
      g.print ++ .lparen :: (commaSeparated (Expr.printAll args) ++ .rparen :: ts) := by
    simp [Expr.print, Expr.printAll, Kind.arrange]
  rw [hprint]
  refine ih p _ r (le_trans hp hg) (joins_postfixed (t := .lparen) rfl hg) (settles_join hp ?_ hrest)
  apply settles_succ
  simp only [parseJoin]
  exact settles_bind (settles_args h) (settles_const _)

theorem resumes_joined {t : Token} {k : Kind} {a b : Expr} (ht : t.infixes = some k)
    (ha : k.demands 0 ≤ a.level) (hb : k.demands 1 ≤ b.level) (iha : Resumes a) (ihb : Resumes b) :
    Resumes (.node k [a, b]) := by
  intro p ts r hp hjoins hrest
  obtain ⟨hcloses, hcast⟩ := demands_joined ht
  have hprint : (Expr.node k [a, b]).print = a.print ++ t :: b.print :=
    arrange_joined ht a.print b.print
  rw [Expr.level] at hp hjoins
  rw [← hcloses] at hjoins
  rw [hprint, List.append_assoc, List.cons_append]
  refine iha p _ r (hp.trans ((level_le_demands ht).trans ha)) (joins_left ht ha)
    (settles_join (level_joined ht ▸ hp) ?_ hrest)
  apply settles_succ
  simp only [parseJoin_joined ht]
  exact settles_bind (ihb.operand hb hjoins (hjoins.trans_le hcast)) (settles_const _)

theorem resumes_conditional {c a b : Expr} (hc : Level.conditional < c.level)
    (ha : Level.comma ≤ a.level) (hb : Level.conditional ≤ b.level) (ihc : Resumes c)
    (iha : Resumes a) (ihb : Resumes b) : Resumes (.node .conditional [c, a, b]) := by
  intro p ts r hp hjoins hrest
  have hprint : (Expr.node .conditional [c, a, b]).print ++ ts =
      c.print ++ .question :: (a.print ++ .colon :: (b.print ++ ts)) := by
    simp [Expr.print, Expr.printAll, Kind.arrange]
  have hjoin : ∀ f, parseJoin (f + 1) c .question (a.print ++ .colon :: (b.print ++ ts)) =
      (parseExpr f Level.comma (a.print ++ .colon :: (b.print ++ ts))).bind fun (a, ts) =>
        (expect .colon ts).bind fun ts =>
          (parseExpr f Level.conditional ts).bind fun (b, ts) =>
            some (.node .conditional [c, a, b], ts) := fun _ => rfl
  have hquestion : Token.question.joins < closesAt c.level :=
    le_closesAt (Nat.succ_le_of_lt hc) (by decide)
  have hcast : Level.conditional < Level.cast := by decide
  have hb' := ihb.operand hb hjoins (lt_trans hjoins hcast)
  rw [hprint]
  refine ihc p _ r (le_trans hp hc.le) hquestion (settles_join hp ?_ hrest)
  apply settles_succ
  simp only [hjoin]
  exact settles_bind (iha.closed ha rfl (by decide))
    (settles_bind settles_expect (settles_bind hb' (settles_const _)))

theorem written_resumes {e : Expr} (h : e.written = true) : Resumes e := by
  refine written_induct (motive := Resumes) ?_ ?_ ?_ ?_ ?_ ?_ ?_ ?_ ?_ ?_ ?_ e h
  · exact fun v _ p ts r _ _ hrest => settles_first (settles_succ (settles_const _)) hrest
  · exact fun x p ts r _ _ hrest => settles_first (settles_succ (settles_const _)) hrest
  · exact fun size p ts r _ _ hrest => settles_first (settles_succ (settles_const _)) hrest
  · exact fun t k a => resumes_prefixed
  · exact fun ty a => resumes_cast
  · exact fun a => resumes_parenthesized
  · exact fun k us a => resumes_suffixed
  · exact fun a i => resumes_subscript
  · exact fun g args => resumes_call
  · exact fun t k a b => resumes_joined
  · exact fun c a b => resumes_conditional

/-- The parser finds a written tree in its tokens. -/
theorem parse_print {e : Expr} (h : e.written = true) :
    Settles (fun f => parseExpr f Level.comma e.print) (e, []) := by
  have hlevel := comma_le_level e
  have hparse : Settles (fun f => parseExpr f Level.comma (e.print ++ [])) (e, []) :=
    (written_resumes h).operand hlevel (by decide) (by decide)
  rwa [List.append_nil] at hparse

/-- Tokens have one written tree at most. -/
theorem print_inj {e e' : Expr} (h : e.written = true) (h' : e'.written = true)
    (hprint : e.print = e'.print) : e = e' := by
  have hsame := parse_print h'
  rw [← hprint] at hsame
  exact congrArg Prod.fst ((parse_print h).unique hsame)

end MeleeHarness.Lib.C
