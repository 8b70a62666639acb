import MeleeHarness.Lib.C.Call
import MeleeHarness.Lib.C.Evaluate

/-!
# The value of an expression without effects

In whatever order its operands are evaluated, such an expression has one value, or is one
place.

* `view`: the value or the place, as it is used;
* `step_view`, `steps_value_iff`, `denotes_iff`: it is what the machine arrives at.
-/

namespace MeleeHarness.Lib.C

abbrev Result := Val ⊕ Place

def Result.val? : Result → Option Val := Sum.getLeft?

/-- A node of the kind is read at its place. -/
def Kind.isRead : Kind → Bool
  | .field _ | .arrow _ | .deref | .subscript => true
  | _ => false

namespace Machine
variable (M : Machine)

/-- The place of a node, from what its operands are. -/
def locate : Kind → List (Option Result) → Option Place
  | .field f, [some (.inr p)] => some (p.shift (M.offset f))
  | .parenthesized, [some (.inr p)] => some p
  | .deref, [some (.inl v)] => v.target 0
  | .arrow f, [some (.inl v)] => v.target (M.offset f)
  | .subscript, [some (.inl v), some (.inl i)] => i.index.bind fun d => v.target d
  | _, _ => none

/-- A value as a flag. -/
def flag (r : Option Result) : Option Val :=
  ((r.bind Result.val?).bind M.truth).map fun t => .int (if t then 1 else 0)

/-- The value of a node that is not read, from what its operands are. -/
def apply : Kind → List (Option Result) → Option Val
  | .unary op, [some (.inl v)] => M.unary op v
  | .binary (.arith op), [some (.inl v), some (.inl w)] => M.binary op v w
  | .binary .logAnd, [some (.inl v), b] =>
    (M.truth v).bind fun t => if t then M.flag b else some (.int 0)
  | .binary .logOr, [some (.inl v), b] =>
    (M.truth v).bind fun t => if t then some (.int 1) else M.flag b
  | .conditional, [some (.inl v), a, b] =>
    (M.truth v).bind fun t => (if t then a else b).bind Result.val?
  | .comma, [some (.inl _), b] => b.bind Result.val?
  | .addressOf, [some (.inr p)] => p.address
  | .cast ty, [some (.inl v)] => M.convert ty v
  | .sizeof size, _ => some size
  | .parenthesized, [some (.inl v)] => some v
  | _, _ => none

def compute (s : State) (k : Kind) (vs : List (Option Result)) : Option Val :=
  if k.isRead then (M.locate k vs).bind (M.load s) else M.apply k vs

def combine (s : State) (μ : Mode) (k : Kind) (vs : List (Option Result)) : Option Result :=
  match μ with
  | .value => (M.compute s k vs).map .inl
  | .place => (M.locate k vs).map .inr

mutual

/-- What an expression is in a state, as it is used. -/
def view (s : State) (μ : Mode) : Expr → Option Result
  | .val v =>
    match μ with
    | .value => some (.inl v)
    | .place => none
  | .ident x =>
    match μ with
    | .value => ((M.placeOf s.locals (.ident x)).bind (M.load s)).map .inl
    | .place => (M.placeOf s.locals (.ident x)).map .inr
  | .node k children => M.combine s μ k (viewAll s μ k 0 children)

def viewAll (s : State) (μ : Mode) (k : Kind) (i : Nat) : List Expr → List (Option Result)
  | [] => []
  | e :: rest => view s (k.use μ i) e :: viewAll s μ k (i + 1) rest

end

end Machine

section
variable {M : Machine} {s s' t : State} {μ : Mode} {e e' : Expr} {k : Kind}

theorem viewAll_congr {i : Nat} {pre post : List Expr}
    (h : M.view s (k.use μ (i + pre.length)) e' = M.view s (k.use μ (i + pre.length)) e) :
    M.viewAll s μ k i (pre ++ e' :: post) = M.viewAll s μ k i (pre ++ e :: post) := by
  induction pre generalizing i with
  | nil =>
    rw [List.nil_append, List.nil_append, Machine.viewAll, Machine.viewAll]
    congr 1
  | cons c pre ih =>
    rw [List.cons_append, List.cons_append, Machine.viewAll, Machine.viewAll]
    congr 1
    apply ih
    have hlength : i + 1 + pre.length = i + (c :: pre).length := by
      rw [List.length_cons]
      omega
    rw [hlength]
    exact h

/-- An expression that denotes a place is that place. -/
theorem placeOf_view {p : Place} (h : M.placeOf s.locals e = some p) :
    M.view s .place e = some (.inr p) := by
  fun_induction Machine.placeOf M s.locals e generalizing p with
  | case1 x o hlook | case2 x b hlook | case3 x v hlook =>
    rw [Machine.view, Machine.placeOf, hlook]
    exact congrArg (Option.map Sum.inr) h
  | case4 | case10 => cases h
  | case5 f e ih =>
    obtain ⟨q, hq, rfl⟩ := Option.map_eq_some_iff.mp h
    rw [Machine.view, Machine.viewAll, Kind.use, ih hq]
    rfl
  | case6 e ih =>
    rw [Machine.view, Machine.viewAll, Kind.use, ih h]
    rfl
  | case7 e =>
    obtain ⟨v, hv, htarget⟩ := Option.bind_eq_some_iff.mp h
    obtain rfl := val?_eq_some.mp hv
    exact congrArg (Option.map Sum.inr) htarget
  | case8 f e =>
    obtain ⟨v, hv, htarget⟩ := Option.bind_eq_some_iff.mp h
    obtain rfl := val?_eq_some.mp hv
    exact congrArg (Option.map Sum.inr) htarget
  | case9 e i =>
    obtain ⟨d, hd, hp⟩ := Option.bind_eq_some_iff.mp h
    obtain ⟨w, hw, hindex⟩ := Option.bind_eq_some_iff.mp hd
    obtain ⟨v, hv, htarget⟩ := Option.bind_eq_some_iff.mp hp
    obtain rfl := val?_eq_some.mp hv
    obtain rfl := val?_eq_some.mp hw
    change (w.index.bind fun d => v.target d).map Sum.inr = _
    rw [hindex, Option.bind_some, htarget]
    rfl

/-- What is read at an expression is its value. -/
theorem read_view {p : Place} {v : Val} (hp : M.placeOf s.locals e = some p)
    (hv : M.load s p = some v) : M.view s .value e = some (.inl v) := by
  fun_induction Machine.placeOf M s.locals e generalizing p with
  | case1 x o hlook | case2 x b hlook | case3 x w hlook =>
    rw [Machine.view, Machine.placeOf, hlook]
    cases hp
    exact congrArg (Option.map Sum.inl) hv
  | case4 | case10 => cases hp
  | case6 e ih =>
    rw [Machine.view, Machine.viewAll, Kind.use, ih hp hv]
    rfl
  | case5 f e ih =>
    obtain ⟨q, hq, rfl⟩ := Option.map_eq_some_iff.mp hp
    have hplace := placeOf_view hq
    rw [Machine.view, Machine.viewAll, Kind.use, hplace]
    exact congrArg (Option.map Sum.inl) hv
  | case7 e =>
    obtain ⟨w, hw, htarget⟩ := Option.bind_eq_some_iff.mp hp
    obtain rfl := val?_eq_some.mp hw
    change ((w.target 0).bind (M.load s)).map Sum.inl = _
    rw [htarget, Option.bind_some, hv]
    rfl
  | case8 f e =>
    obtain ⟨w, hw, htarget⟩ := Option.bind_eq_some_iff.mp hp
    obtain rfl := val?_eq_some.mp hw
    change ((w.target (M.offset f)).bind (M.load s)).map Sum.inl = _
    rw [htarget, Option.bind_some, hv]
    rfl
  | case9 e i =>
    obtain ⟨d, hd, hp⟩ := Option.bind_eq_some_iff.mp hp
    obtain ⟨w, hw, hindex⟩ := Option.bind_eq_some_iff.mp hd
    obtain ⟨u, hu, htarget⟩ := Option.bind_eq_some_iff.mp hp
    obtain rfl := val?_eq_some.mp hu
    obtain rfl := val?_eq_some.mp hw
    change ((w.index.bind fun d => u.target d).bind (M.load s)).map Sum.inl = _
    rw [hindex, Option.bind_some, htarget, Option.bind_some, hv]
    rfl

theorem view_val (v : Val) : M.view s .value (.val v) = some (.inl v) := by
  rw [Machine.view]

theorem view_flag (b : Expr) :
    M.view s .value (.node .conditional [b, .val (.int 1), .val (.int 0)]) =
      (M.flag (M.view s .value b)).map .inl := by
  change (M.compute s .conditional [M.view s .value b, some (.inl (.int 1)), some (.inl (.int 0))]).map
    Sum.inl = _
  cases M.view s .value b with
  | none => rfl
  | some r =>
    cases r with
    | inr p => rfl
    | inl v =>
      change ((M.truth v).bind fun t => _).map _ = (((M.truth v)).map _).map _
      cases M.truth v with
      | none => rfl
      | some t => cases t <;> rfl

theorem view_getLeft (e : Expr) : ((M.view s .value e).bind Result.val?).map Sum.inl =
    M.view s .value e := by
  cases e with
  | val v => rfl
  | ident x =>
    rw [Machine.view]
    cases (M.placeOf s.locals (.ident x)).bind (M.load s) with
    | none => rfl
    | some v => rfl
  | node k children =>
    rw [Machine.view, Machine.combine]
    cases M.compute s k (M.viewAll s .value k 0 children) with
    | none => rfl
    | some v => rfl

/-- The evaluation of a node keeps its value. -/
theorem reduce_view {children : List Expr} (hk : k.quiet = true)
    (h : M.reduce s k children = some (e, s')) :
    M.view s .value e = M.view s .value (.node k children) := by
  unfold Machine.reduce at h
  split at h
  case h_7 | h_8 | h_9 => cases hk
  case h_12 =>
    cases h
    rfl
  case h_14 => cases h
  all_goals
    simp only [Option.bind_eq_bind, Option.bind_eq_some_iff, Option.pure_def, Option.some.injEq,
      Prod.mk.injEq, val?_eq_some] at h
  case h_1 op a =>
    obtain ⟨v, rfl, w, hw, rfl, rfl⟩ := h
    exact (congrArg (Option.map Sum.inl) hw).symm
  case h_2 op a b =>
    obtain ⟨v, rfl, w, rfl, u, hu, rfl, rfl⟩ := h
    exact (congrArg (Option.map Sum.inl) hu).symm
  case h_3 a b =>
    obtain ⟨v, rfl, t, ht, rfl, rfl⟩ := h
    change _ = ((M.truth v).bind fun t => if t then M.flag (M.view s .value b) else _).map Sum.inl
    rw [ht, Option.bind_some]
    cases t with
    | true => exact view_flag b
    | false => rfl
  case h_4 a b =>
    obtain ⟨v, rfl, t, ht, rfl, rfl⟩ := h
    change _ = ((M.truth v).bind fun t => if t then _ else M.flag (M.view s .value b)).map Sum.inl
    rw [ht, Option.bind_some]
    cases t with
    | true => rfl
    | false => exact view_flag b
  case h_5 c a b =>
    obtain ⟨v, rfl, t, ht, rfl, rfl⟩ := h
    change _ = ((M.truth v).bind fun t =>
      (if t then M.view s .value a else M.view s .value b).bind Result.val?).map Sum.inl
    rw [ht, Option.bind_some]
    cases t with
    | true => exact (view_getLeft a).symm
    | false => exact (view_getLeft b).symm
  case h_6 a b =>
    obtain ⟨v, rfl, rfl, rfl⟩ := h
    exact (view_getLeft b).symm
  case h_10 l =>
    obtain ⟨p, hp, w, hw, rfl, rfl⟩ := h
    rw [Machine.view, Machine.view, Machine.viewAll, Kind.use, placeOf_view hp]
    exact (congrArg (Option.map Sum.inl) hw).symm
  case h_11 ty a =>
    obtain ⟨v, rfl, w, hw, rfl, rfl⟩ := h
    exact (congrArg (Option.map Sum.inl) hw).symm
  case h_13 a =>
    obtain ⟨v, rfl, rfl, rfl⟩ := h
    rfl

/-- A step keeps what the expression is. -/
theorem step_view (h : Step M μ e s e' s') (hquiet : e.Quiet) : M.view s μ e' = M.view s μ e := by
  induction h with
  | read hp hv => rw [view_val, read_view hp hv]
  | reduce hred =>
    cases hquiet with
    | node hk => exact reduce_view hk hred
  | call =>
    cases hquiet with
    | node hk => cases hk
  | @inside μ k pre post e e' s s' _ _ ih =>
    cases hquiet with
    | node hk hchildren =>
      have hchild := ih (hchildren e (by simp))
      rw [Machine.view, Machine.view, viewAll_congr]
      rw [Nat.zero_add]
      exact hchild

theorem steps_view (h : Steps M μ e s e' s') (hquiet : e.Quiet) : M.view s μ e' = M.view s μ e := by
  induction h using steps_induct with
  | refl => rfl
  | tail hsteps hstep ih =>
    obtain ⟨rfl, hquiet'⟩ := quiet_steps hsteps hquiet
    rw [step_view hstep hquiet', ih]

/-! ## Arriving at it -/

/-- An expression that is evaluated as far as its use needs. -/
def Final (M : Machine) (s : State) : Mode → Expr → Result → Prop
  | .value, e, .inl v => e = .val v
  | .place, e, .inr p => M.placeOf s.locals e = some p
  | _, _, _ => False

/-- The machine arrives at what the expression is. -/
def Arrives (M : Machine) (s : State) (μ : Mode) (e : Expr) : Prop :=
  ∀ r, M.view s μ e = some r → ∃ e', Steps M μ e s e' s ∧ Final M s μ e' r

theorem Arrives.value {v : Val} (h : Arrives M s .value e) (hv : M.view s .value e = some (.inl v)) :
    Steps M .value e s (.val v) s := by
  obtain ⟨e', hsteps, rfl⟩ := h _ hv
  exact hsteps

theorem Arrives.place {p : Place} (h : Arrives M s .place e)
    (hp : M.view s .place e = some (.inr p)) : Denotes M e s p s := by
  obtain ⟨e', hsteps, hplace⟩ := h _ hp
  exact ⟨e', hsteps, hplace⟩

theorem viewAll_one {i : Nat} {children : List Expr} {x : Option Result}
    (h : M.viewAll s μ k i children = [x]) : ∃ a, children = [a] ∧ M.view s (k.use μ i) a = x := by
  match children, h with
  | [a], h => exact ⟨a, rfl, (List.cons.inj h).1⟩

theorem viewAll_two {i : Nat} {children : List Expr} {x y : Option Result}
    (h : M.viewAll s μ k i children = [x, y]) : ∃ a b, children = [a, b] ∧
      M.view s (k.use μ i) a = x ∧ M.view s (k.use μ (i + 1)) b = y := by
  match children, h with
  | a :: rest, h =>
    obtain ⟨ha, hrest⟩ := List.cons.inj h
    obtain ⟨b, rfl, hb⟩ := viewAll_one hrest
    exact ⟨a, b, rfl, ha, hb⟩

theorem viewAll_three {i : Nat} {children : List Expr} {x y z : Option Result}
    (h : M.viewAll s μ k i children = [x, y, z]) : ∃ a b c, children = [a, b, c] ∧
      M.view s (k.use μ i) a = x ∧ M.view s (k.use μ (i + 1)) b = y ∧
      M.view s (k.use μ (i + 2)) c = z := by
  match children, h with
  | a :: rest, h =>
    obtain ⟨ha, hrest⟩ := List.cons.inj h
    obtain ⟨b, c, rfl, hb, hc⟩ := viewAll_two hrest
    exact ⟨a, b, c, rfl, ha, hb, hc⟩

theorem steps_one {a a' : Expr} (hdue : k.evaluates 0 = true)
    (ha : Steps M (k.use μ 0) a s a' s') : Steps M μ (.node k [a]) s (.node k [a']) s' :=
  @steps_inside M μ k a a' s s' [] [] hdue ha

theorem steps_two {a a' b b' : Expr} {s₁ : State} (hdue : k.evaluates 0 = true)
    (hdue' : k.evaluates 1 = true) (ha : Steps M (k.use μ 0) a s a' s₁)
    (hb : Steps M (k.use μ 1) b s₁ b' s') : Steps M μ (.node k [a, b]) s (.node k [a', b']) s' :=
  (@steps_inside M μ k a a' s s₁ [] [b] hdue ha).trans
    (@steps_inside M μ k b b' s₁ s' [a'] [] hdue' hb)

/-- A node that is a place, with its operands evaluated. -/
theorem locate_steps {children : List Expr} {p : Place}
    (ih : ∀ c ∈ children, ∀ μ, Arrives M s μ c) (hparen : k = .parenthesized → μ = .place)
    (h : M.locate k (M.viewAll s μ k 0 children) = some p) :
    ∃ children', Steps M μ (.node k children) s (.node k children') s ∧
      M.placeOf s.locals (.node k children') = some p := by
  generalize hvs : M.viewAll s μ k 0 children = vs at h
  unfold Machine.locate at h
  split at h
  · obtain ⟨a, rfl, ha⟩ := viewAll_one hvs
    obtain ⟨a', hsteps, hplace⟩ := (ih a (by simp) _).place ha
    refine ⟨[a'], steps_one rfl hsteps, ?_⟩
    rw [Machine.placeOf, hplace]
    exact h
  · obtain ⟨a, rfl, ha⟩ := viewAll_one hvs
    cases hparen rfl
    obtain ⟨a', hsteps, hplace⟩ := (ih a (by simp) _).place ha
    refine ⟨[a'], steps_one rfl hsteps, ?_⟩
    rw [Machine.placeOf, hplace]
    exact h
  · obtain ⟨a, rfl, ha⟩ := viewAll_one hvs
    exact ⟨_, steps_one rfl ((ih a (by simp) _).value ha), h⟩
  · obtain ⟨a, rfl, ha⟩ := viewAll_one hvs
    exact ⟨_, steps_one rfl ((ih a (by simp) _).value ha), h⟩
  · obtain ⟨a, b, rfl, ha, hb⟩ := viewAll_two hvs
    exact ⟨_, steps_two rfl rfl ((ih a (by simp) _).value ha) ((ih b (by simp) _).value hb), h⟩
  · cases h

theorem result_val? {r : Option Result} {v : Val} (h : r.bind Result.val? = some v) :
    r = some (.inl v) := by
  obtain ⟨r, rfl, hr⟩ := Option.bind_eq_some_iff.mp h
  cases r with
  | inl w =>
    cases hr
    rfl
  | inr p => cases hr

theorem flag_steps {b : Expr} {u : Val} (ih : Arrives M s .value b)
    (h : M.flag (M.view s .value b) = some u) :
    Steps M .value (.node .conditional [b, .val (.int 1), .val (.int 0)]) s (.val u) s := by
  obtain ⟨t, ht, rfl⟩ := Option.map_eq_some_iff.mp h
  obtain ⟨v, hv, ht⟩ := Option.bind_eq_some_iff.mp ht
  refine steps_conditional_iff.mpr ⟨v, s, t, ih.value (result_val? hv), ht, ?_⟩
  cases t with
  | true => exact .refl
  | false => exact .refl

/-- A node that is a place is read there. -/
theorem locate_value {children : List Expr} {v : Val}
    (ih : ∀ c ∈ children, ∀ μ, Arrives M s μ c) (hparen : k ≠ .parenthesized)
    (h : (M.locate k (M.viewAll s .value k 0 children)).bind (M.load s) = some v) :
    Steps M .value (.node k children) s (.val v) s := by
  obtain ⟨p, hp, hv⟩ := Option.bind_eq_some_iff.mp h
  obtain ⟨children', hsteps, hplace⟩ := locate_steps ih (fun hk => absurd hk hparen) hp
  exact hsteps.tail (.read hplace hv)

theorem compute_steps {children : List Expr} {v : Val}
    (ih : ∀ c ∈ children, ∀ μ, Arrives M s μ c)
    (h : M.compute s k (M.viewAll s .value k 0 children) = some v) :
    Steps M .value (.node k children) s (.val v) s := by
  rw [Machine.compute] at h
  by_cases hk : k.isRead = true
  · rw [if_pos hk] at h
    refine locate_value ih ?_ h
    rintro rfl
    cases hk
  rw [if_neg hk] at h
  generalize hvs : M.viewAll s .value k 0 children = vs at h
  unfold Machine.apply at h
  split at h
  case h_1 =>
    obtain ⟨a, rfl, ha⟩ := viewAll_one hvs
    exact steps_unary_iff.mpr ⟨_, (ih a (by simp) _).value ha, h⟩
  case h_2 =>
    obtain ⟨a, b, rfl, ha, hb⟩ := viewAll_two hvs
    refine (steps_two rfl rfl ((ih a (by simp) _).value ha) ((ih b (by simp) _).value hb)).tail
      (.reduce ?_)
    simp [Machine.reduce, Expr.val?, h]
  case h_3 =>
    obtain ⟨a, b, rfl, ha, rfl⟩ := viewAll_two hvs
    obtain ⟨t, ht, h⟩ := Option.bind_eq_some_iff.mp h
    refine steps_logAnd_iff.mpr ⟨_, s, t, (ih a (by simp) _).value ha, ht, ?_⟩
    cases t with
    | true => exact flag_steps (ih b (by simp) _) h
    | false =>
      cases h
      exact .refl
  case h_4 =>
    obtain ⟨a, b, rfl, ha, rfl⟩ := viewAll_two hvs
    obtain ⟨t, ht, h⟩ := Option.bind_eq_some_iff.mp h
    refine steps_logOr_iff.mpr ⟨_, s, t, (ih a (by simp) _).value ha, ht, ?_⟩
    cases t with
    | false => exact flag_steps (ih b (by simp) _) h
    | true =>
      cases h
      exact .refl
  case h_5 =>
    obtain ⟨c, a, b, rfl, hc, rfl, rfl⟩ := viewAll_three hvs
    obtain ⟨t, ht, h⟩ := Option.bind_eq_some_iff.mp h
    refine steps_conditional_iff.mpr ⟨_, s, t, (ih c (by simp) _).value hc, ht, ?_⟩
    cases t with
    | true => exact (ih a (by simp) _).value (result_val? h)
    | false => exact (ih b (by simp) _).value (result_val? h)
  case h_6 =>
    obtain ⟨a, b, rfl, ha, rfl⟩ := viewAll_two hvs
    exact steps_comma_iff.mpr ⟨_, s, (ih a (by simp) _).value ha,
      (ih b (by simp) _).value (result_val? h)⟩
  case h_7 =>
    obtain ⟨a, rfl, ha⟩ := viewAll_one hvs
    obtain ⟨a', hsteps, hplace⟩ := (ih a (by simp) _).place ha
    refine (steps_one rfl hsteps).tail (.reduce ?_)
    simp [Machine.reduce, hplace, h]
  case h_8 =>
    obtain ⟨a, rfl, ha⟩ := viewAll_one hvs
    refine (steps_one rfl ((ih a (by simp) _).value ha)).tail (.reduce ?_)
    simp [Machine.reduce, Expr.val?, h]
  case h_9 =>
    cases h
    exact .single (.reduce (by simp [Machine.reduce]))
  case h_10 =>
    obtain ⟨a, rfl, ha⟩ := viewAll_one hvs
    cases h
    exact steps_parenthesized_iff.mpr ((ih a (by simp) _).value ha)
  case h_11 => cases h

/-- The machine arrives at what an expression is. -/
theorem arrives (e : Expr) (μ : Mode) : Arrives M s μ e := by
  induction e generalizing μ with
  | val v =>
    intro r hr
    cases μ with
    | value =>
      cases hr
      exact ⟨.val v, .refl, rfl⟩
    | place => cases hr
  | ident x =>
    intro r hr
    cases μ with
    | value =>
      rw [Machine.view] at hr
      obtain ⟨v, hv, rfl⟩ := Option.map_eq_some_iff.mp hr
      obtain ⟨p, hp, hv⟩ := Option.bind_eq_some_iff.mp hv
      exact ⟨.val v, .single (.read hp hv), rfl⟩
    | place =>
      rw [Machine.view] at hr
      obtain ⟨p, hp, rfl⟩ := Option.map_eq_some_iff.mp hr
      exact ⟨.ident x, .refl, hp⟩
  | node k children ih =>
    intro r hr
    cases μ with
    | value =>
      rw [Machine.view, Machine.combine] at hr
      obtain ⟨v, hv, rfl⟩ := Option.map_eq_some_iff.mp hr
      exact ⟨.val v, compute_steps ih hv, rfl⟩
    | place =>
      rw [Machine.view, Machine.combine] at hr
      obtain ⟨p, hp, rfl⟩ := Option.map_eq_some_iff.mp hr
      obtain ⟨children', hsteps, hplace⟩ := locate_steps ih (fun _ => rfl) hp
      exact ⟨_, hsteps, hplace⟩

/-- An expression without effects evaluates to its value, and to no other. -/
theorem steps_value_iff {v : Val} (hquiet : e.Quiet) : Steps M .value e s (.val v) s' ↔
    s' = s ∧ M.view s .value e = some (.inl v) := by
  constructor
  · intro h
    refine ⟨(quiet_steps h hquiet).1, ?_⟩
    rw [← steps_view h hquiet, view_val]
  · rintro ⟨rfl, hv⟩
    exact (arrives e .value).value hv

theorem denotes_iff {p : Place} (hquiet : e.Quiet) : Denotes M e s p s' ↔
    s' = s ∧ M.view s .place e = some (.inr p) := by
  constructor
  · rintro ⟨e', hsteps, hplace⟩
    obtain ⟨rfl, -⟩ := quiet_steps hsteps hquiet
    exact ⟨rfl, steps_view hsteps hquiet ▸ placeOf_view hplace⟩
  · rintro ⟨rfl, hp⟩
    exact (arrives e .place).place hp

end

end MeleeHarness.Lib.C
