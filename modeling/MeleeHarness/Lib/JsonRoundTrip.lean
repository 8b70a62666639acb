import MeleeHarness.Lib.Json

/-!
# JSON reads back

* `scanChar_escape`: an escaped character reads back as itself;
* `scanNumber_decimal`: so does a number, before anything that cannot go on with it;
* `scanValue_dumps`: so does a written value, whatever follows it;
* `loads_dumps`: `loads` inverts `dumps`.
-/

namespace MeleeHarness.Lib

/-! ## Strings read back -/

theorem readHex4_hex4 {n : Nat} (h : n < 0x10000) (rest : Text) :
    readHex4 (hex4 n ++ rest) = some (n, rest) := by
  have digit : ∀ k, hexDigit (k % 16).digitChar = some (k % 16) := fun k =>
    (digitChar_hex (Nat.mod_lt k (by decide))).2
  simp only [hex4, List.cons_append, List.nil_append, readHex4, digit, Option.some.injEq,
    Prod.mk.injEq, and_true]
  omega

theorem charOf_toNat (c : Char) : charOf c.toNat = some c := by
  have hvalid : c.toNat.isValidChar := c.valid
  simp [charOf, hvalid]

theorem not_surrogate (c : Char) : c.toNat < 0xd800 ∨ 0xdfff < c.toNat := by
  have hvalid : c.toNat.isValidChar := c.valid
  simp only [Nat.isValidChar] at hvalid
  omega

theorem toNat_lt (c : Char) : c.toNat < 0x110000 := by
  have hvalid : c.toNat.isValidChar := c.valid
  simp only [Nat.isValidChar] at hvalid
  omega

theorem scanUnicode_basic {c : Char} (h : c.toNat < 0x10000) (rest : Text) :
    scanUnicode (hex4 c.toNat ++ rest) = some (c, rest) := by
  have hplain : ¬(0xd800 ≤ c.toNat ∧ c.toNat ≤ 0xdbff) := by
    have := not_surrogate c
    omega
  simp only [scanUnicode, readHex4_hex4 h, Option.bind_some, hplain, ↓reduceIte, charOf_toNat,
    Option.map_some]
  split
  · rfl
  · rfl

theorem scanUnicode_pair (c : Char) {high low : Nat} (hhigh : 0xd800 ≤ high ∧ high ≤ 0xdbff)
    (hlow : 0xdc00 ≤ low ∧ low ≤ 0xdfff)
    (hc : 0x10000 + (high - 0xd800) * 0x400 + (low - 0xdc00) = c.toNat) (rest : Text) :
    scanUnicode (hex4 high ++ (unicodeEscape low ++ rest)) = some (c, rest) := by
  have hhigh' : high < 0x10000 := by omega
  have hlow' : low < 0x10000 := by omega
  rw [scanUnicode, readHex4_hex4 hhigh']
  simp only [Option.bind_some, unicodeEscape, List.cons_append, hhigh, and_self, ↓reduceIte,
    readHex4_hex4 hlow', hlow, hc, charOf_toNat, Option.map_some]

/-- A character that needs no escape. -/
theorem scanChar_plain {c : Char} (hquote : c ≠ '"') (hslash : c ≠ '\\') (h : 32 ≤ c.toNat)
    (rest : Text) : scanChar (c :: rest) = some (some c, rest) := by
  unfold scanChar
  split
  · simp_all
  · simp_all
  · simp_all
  · next heq =>
    obtain ⟨rfl, rfl⟩ := List.cons.inj heq
    have hlarge : ¬(c.toNat < 32 ∨ c = '\\') := by
      rintro (hsmall | heq)
      · omega
      · exact hslash heq
    rw [if_neg hlarge]
  · simp_all

theorem escapeTable_simple : ∀ p ∈ escapeTable, p.2 ≠ 'u' ∧ simpleEscape p.2 = some p.1 := by
  decide

theorem scanChar_table {c e : Char} (h : escapeTable.lookup c = some e) (rest : Text) :
    scanChar ('\\' :: e :: rest) = some (some c, rest) := by
  obtain ⟨before, after, htable, -⟩ := List.lookup_eq_some_iff.mp h
  have hmem : (c, e) ∈ escapeTable := by simp [htable]
  obtain ⟨hu, hsimple⟩ := escapeTable_simple (c, e) hmem
  rw [scanChar]
  · rw [hsimple]
    rfl
  · rintro rfl
    exact hu rfl

theorem scanChar_escape (c : Char) (rest : Text) :
    scanChar (escapeChar c ++ rest) = some (some c, rest) := by
  unfold escapeChar
  cases hlookup : escapeTable.lookup c with
  | some e => exact scanChar_table hlookup rest
  | none =>
    have hne : ∀ p ∈ escapeTable, c ≠ p.1 := by
      simpa using List.lookup_eq_none_iff.mp hlookup
    by_cases hplain : 32 ≤ c.toNat ∧ c.toNat ≤ 126
    · simp only [hplain, and_self, ↓reduceIte]
      exact scanChar_plain (hne ('"', '"') (by decide)) (hne ('\\', '\\') (by decide)) hplain.1 rest
    · by_cases hbasic : c.toNat < 0x10000
      · simp only [hplain, hbasic, ↓reduceIte, unicodeEscape, List.cons_append, scanChar,
          scanUnicode_basic hbasic, Option.map_some]
      · have hlt := toNat_lt c
        simp only [hplain, hbasic, ↓reduceIte]
        rw [unicodeEscape, List.append_assoc, List.cons_append, List.cons_append, scanChar,
          scanUnicode_pair c (by omega) (by omega) (by omega)]
        rfl

theorem scanString_escape (s rest : Text) {fuel : Nat} (h : s.length < fuel) :
    scanString fuel (escape s ++ '"' :: rest) = some (s, rest) := by
  induction s generalizing fuel with
  | nil =>
    cases fuel with
    | zero => omega
    | succ fuel => rfl
  | cons c s ih =>
    cases fuel with
    | zero => omega
    | succ fuel =>
      have hs : s.length < fuel := by simpa using h
      rw [escape, List.flatMap_cons, List.append_assoc, scanString, scanChar_escape]
      change (scanString fuel (escape s ++ '"' :: rest)).map _ = _
      rw [ih hs]
      rfl

theorem escapeChar_ne_nil (c : Char) : escapeChar c ≠ [] := by
  intro h
  have hscan := scanChar_escape c []
  rw [h] at hscan
  cases hscan

theorem length_le_escape (s : Text) : s.length ≤ (escape s).length := by
  induction s with
  | nil => simp
  | cons c s ih =>
    have hc : 1 ≤ (escapeChar c).length := List.length_pos_iff.mpr (escapeChar_ne_nil c)
    simp only [escape, List.flatMap_cons, List.length_append, List.length_cons] at ih ⊢
    omega

theorem scanString_quoted (s rest : Text) :
    scanString ((escape s ++ '"' :: rest).length + 1) (escape s ++ '"' :: rest) =
      some (s, rest) := by
  apply scanString_escape
  have := length_le_escape s
  simp only [List.length_append]
  omega

/-! ## Numbers read back -/

/-- What may follow a number without becoming part of it. -/
def EndsNumber (rest : Text) : Prop :=
  ∀ c ∈ rest.head?, c.isDigit = false ∧ c ≠ '.' ∧ c ≠ 'e' ∧ c ≠ 'E'

theorem toDigits_head {n : Nat} (h : n ≠ 0) : ∃ c cs, Nat.toDigits 10 n = c :: cs ∧ c ≠ '0' := by
  induction n using Nat.strongRecOn with
  | ind n ih =>
    by_cases hn : n < 10
    · exact ⟨n.digitChar, [], Nat.toDigits_of_lt_base hn, by simpa using h⟩
    · obtain ⟨c, cs, hcs, hc⟩ := ih (n / 10) (by omega) (by omega)
      rw [Nat.toDigits_of_base_le (by decide) (by omega), hcs]
      exact ⟨c, _, rfl, hc⟩

theorem takeWhile_digits {digits rest : Text} (hd : ∀ c ∈ digits, c.isDigit = true)
    (hr : EndsNumber rest) :
    (digits ++ rest).takeWhile Char.isDigit = digits ∧
      (digits ++ rest).dropWhile Char.isDigit = rest := by
  have hstop : rest.takeWhile Char.isDigit = [] ∧ rest.dropWhile Char.isDigit = rest := by
    cases rest with
    | nil => exact ⟨rfl, rfl⟩
    | cons c rest => simp [(hr c rfl).1]
  rw [List.takeWhile_append_of_pos hd, List.dropWhile_append_of_pos hd, hstop.1, hstop.2]
  simp

theorem scanDigits_decimal (n : Nat) {rest : Text} (hr : EndsNumber rest) :
    scanDigits (Nat.toDigits 10 n ++ rest) = some (Nat.toDigits 10 n, rest) := by
  by_cases hn : n = 0
  · subst hn
    rfl
  · have hd : ∀ c ∈ Nat.toDigits 10 n, c.isDigit = true := fun c hc =>
      Nat.isDigit_of_mem_toDigits (by decide) (by decide) hc
    obtain ⟨htake, hdrop⟩ := takeWhile_digits hd hr
    obtain ⟨c, cs, hcs, hc⟩ := toDigits_head hn
    rw [hcs] at htake hdrop ⊢
    rw [scanDigits, htake, hdrop]
    · simp
    · rintro t heq
      exact hc (List.cons.inj heq).1

theorem scanFraction_end {rest : Text} (hr : EndsNumber rest) : scanFraction rest = ([], rest) := by
  unfold scanFraction
  split
  · exact absurd rfl (hr '.' rfl).2.1
  · rfl

theorem scanExponent_end {rest : Text} (hr : EndsNumber rest) : scanExponent rest = ([], rest) := by
  cases rest with
  | nil => rfl
  | cons c rest =>
    obtain ⟨-, -, he, hE⟩ := hr c rfl
    simp [scanExponent, he, hE]

theorem scanUnsigned_decimal (negative : Bool) (n : Nat) {rest : Text} (hr : EndsNumber rest) :
    scanUnsigned negative (Nat.toDigits 10 n ++ rest) =
      some (.int (if negative then -n else n), rest) := by
  simp [scanUnsigned, scanDigits_decimal n hr, scanFraction_end hr, scanExponent_end hr]

theorem scanNumber_decimal (n : Int) {rest : Text} (hr : EndsNumber rest) :
    scanNumber (decimal n ++ rest) = some (.int n, rest) := by
  cases n with
  | ofNat n =>
    have hsign : ∀ t, Nat.toDigits 10 n ++ rest ≠ '-' :: t := by
      intro t heq
      cases hcs : Nat.toDigits 10 n with
      | nil => exact Nat.toDigits_ne_nil hcs
      | cons c cs =>
        have hdigit : c.isDigit = true :=
          Nat.isDigit_of_mem_toDigits (by decide) (by decide) (hcs ▸ List.mem_cons_self)
        rw [hcs, List.cons_append] at heq
        rw [(List.cons.inj heq).1] at hdigit
        exact absurd hdigit (by decide)
    rw [decimal, scanNumber, scanUnsigned_decimal false n hr]
    · rfl
    · exact hsign
  | negSucc n =>
    rw [decimal, List.cons_append, scanNumber, scanUnsigned_decimal true (n + 1) hr]
    rfl

/-! ## Values read back -/

mutual

/-- No number in it is fractional. -/
def Json.Whole : Json → Prop
  | .float _ => False
  | .arr items => WholeItems items
  | .obj members => WholeMembers members
  | .null | .bool _ | .int _ | .str _ => True

def WholeItems : List Json → Prop
  | [] => True
  | item :: items => item.Whole ∧ WholeItems items

def WholeMembers : List (Text × Json) → Prop
  | [] => True
  | (_, value) :: members => value.Whole ∧ WholeMembers members

end

theorem skipSpace_newline (level : Nat) (t : Text) : skipSpace (newline level ++ t) = skipSpace t := by
  have hspace : ∀ c ∈ newline level, isJsonSpace c = true := by
    intro c hc
    rcases List.mem_cons.mp hc with rfl | hc
    · rfl
    · rw [List.eq_of_mem_replicate hc]
      rfl
  exact List.dropWhile_append_of_pos hspace

theorem skipSpace_space (t : Text) : skipSpace (' ' :: t) = skipSpace t := rfl

theorem skipSpace_cons {c : Char} (h : isJsonSpace c = false) (t : Text) :
    skipSpace (c :: t) = c :: t := by
  rw [skipSpace, List.dropWhile_cons_of_neg]
  simp [h]

/-- A character a value may start with: no space, and no closing bracket. -/
def opensValue (c : Char) : Bool := !isJsonSpace c && c ≠ ']'

theorem digit_opens {c : Char} (h : c.isDigit = true) :
    opensValue c = true ∧ c ∉ ['"', '{', '[', 'n', 't', 'f', 'N', 'I', '-'] := by
  have hall : ∀ c ∈ decimalAlphabet,
      opensValue c = true ∧ c ∉ ['"', '{', '[', 'n', 't', 'f', 'N', 'I', '-'] := by decide
  exact hall c (mem_decimalAlphabet h)

theorem toDigits_cons (n : Nat) : ∃ c cs, Nat.toDigits 10 n = c :: cs ∧ c.isDigit = true := by
  cases hcs : Nat.toDigits 10 n with
  | nil => exact absurd hcs Nat.toDigits_ne_nil
  | cons c cs =>
    exact ⟨c, cs, rfl, Nat.isDigit_of_mem_toDigits (by decide) (by decide)
      (hcs ▸ List.mem_cons_self)⟩

theorem literals_head : ∀ l ∈ literals, ∃ d w, l.1 = d :: w ∧
    (d ∈ ['n', 't', 'f', 'N', 'I'] ∨ d = '-' ∧ ∃ v, w = 'I' :: v) := by
  simp [literals]

theorem scanAtom_decimal (n : Int) {rest : Text} (hr : EndsNumber rest) :
    scanAtom (decimal n ++ rest) = some (.int n, rest) := by
  have hfind : literals.find? (fun l => l.1.isPrefixOf (decimal n ++ rest)) = none := by
    rw [List.find?_eq_none]
    intro l hl
    obtain ⟨d, w, hword, hd⟩ := literals_head l hl
    cases n with
    | ofNat n =>
      obtain ⟨c, cs, hcs, hc⟩ := toDigits_cons n
      have hne : d ≠ c := by
        rintro rfl
        rcases hd with hd | ⟨rfl, -⟩
        · apply (digit_opens hc).2
          simp only [List.mem_cons] at hd ⊢
          tauto
        · cases hc
      simp [hword, decimal, hcs, hne]
    | negSucc n =>
      obtain ⟨c, cs, hcs, hc⟩ := toDigits_cons (n + 1)
      rcases hd with hd | ⟨rfl, v, rfl⟩
      · have hne : d ≠ '-' := by
          rintro rfl
          simp at hd
        simp [hword, decimal, hne]
      · have hne : 'I' ≠ c := by
          rintro rfl
          cases hc
        simp [hword, decimal, hcs, hne]
  rw [scanAtom, hfind]
  exact scanNumber_decimal n hr

theorem scanValue_decimal (n : Int) (fuel : Nat) {rest : Text} (hr : EndsNumber rest) :
    scanValue (fuel + 1) (decimal n ++ rest) = some (.int n, rest) := by
  rw [← scanAtom_decimal n hr]
  obtain ⟨c, cs, hcs, hc⟩ : ∃ c cs, decimal n = c :: cs ∧ c ∉ ['"', '{', '['] := by
    cases n with
    | ofNat n =>
      obtain ⟨c, cs, hcs, hc⟩ := toDigits_cons n
      have hplain := (digit_opens hc).2
      simp only [List.mem_cons, not_or] at hplain
      exact ⟨c, cs, hcs, by simp [hplain]⟩
    | negSucc n => exact ⟨'-', _, rfl, by decide⟩
  simp only [List.mem_cons, not_or] at hc
  rw [hcs, List.cons_append, scanValue]
  · rintro r heq
    exact hc.1 (List.cons.inj heq).1
  · rintro r heq
    exact hc.2.1 (List.cons.inj heq).1
  · rintro r heq
    exact hc.2.2.1 (List.cons.inj heq).1

theorem dumpsAt_head (level : Nat) {value : Json} (h : value.Whole) :
    ∃ c cs, dumpsAt level value = c :: cs ∧ opensValue c = true := by
  cases value with
  | null => exact ⟨'n', _, by rw [dumpsAt], rfl⟩
  | bool b => cases b <;> exact ⟨_, _, by rw [dumpsAt], rfl⟩
  | int n =>
    cases n with
    | ofNat n =>
      obtain ⟨c, cs, hcs, hc⟩ := toDigits_cons n
      exact ⟨c, cs, by rw [dumpsAt, decimal, hcs], (digit_opens hc).1⟩
    | negSucc n => exact ⟨'-', _, by rw [dumpsAt, decimal], rfl⟩
  | float lexeme => exact h.elim
  | str s => exact ⟨'"', _, by rw [dumpsAt, quoted], rfl⟩
  | arr items => cases items <;> exact ⟨'[', _, by rw [dumpsAt], rfl⟩
  | obj members => cases members <;> exact ⟨'{', _, by rw [dumpsAt], rfl⟩

theorem skipSpace_dumpsAt (level : Nat) {value : Json} (h : value.Whole) (rest : Text) :
    skipSpace (dumpsAt level value ++ rest) = dumpsAt level value ++ rest := by
  obtain ⟨c, cs, hcs, hc⟩ := dumpsAt_head level h
  have hspace : isJsonSpace c = false := by
    simp only [opensValue, Bool.and_eq_true, Bool.not_eq_true'] at hc
    exact hc.1
  rw [hcs, List.cons_append, skipSpace_cons hspace]

theorem endsNumber_cons {c : Char} (h : c = ',' ∨ c = '\n') (rest : Text) :
    EndsNumber (c :: rest) := by
  intro d hd
  cases hd
  rcases h with rfl | rfl <;> decide

theorem endsNumber_items (level : Nat) (items : List Json) (rest : Text) :
    EndsNumber (dumpsItems level items ++ rest) := by
  cases items with
  | nil => exact endsNumber_cons (.inr rfl) _
  | cons item items =>
    rw [dumpsItems, List.cons_append]
    exact endsNumber_cons (.inl rfl) _

theorem endsNumber_members (level : Nat) (members : List (Text × Json)) (rest : Text) :
    EndsNumber (dumpsMembers level members ++ rest) := by
  cases members with
  | nil => exact endsNumber_cons (.inr rfl) _
  | cons member members =>
    rw [dumpsMembers, List.cons_append]
    exact endsNumber_cons (.inl rfl) _

theorem dumpsItems_pos (level : Nat) (items : List Json) : 0 < (dumpsItems level items).length := by
  cases items <;> simp [dumpsItems]

theorem dumpsMembers_pos (level : Nat) (members : List (Text × Json)) :
    0 < (dumpsMembers level members).length := by
  cases members <;> simp [dumpsMembers]

/-- The items of a list do not start with its closing bracket. -/
theorem scanValue_list {c : Char} {cs rest t : Text} {items : List Json} (fuel : Nat)
    (hc : opensValue c = true) (hskip : skipSpace t = c :: cs)
    (hscan : scanItems fuel (c :: cs) = some (items, rest)) :
    scanValue (fuel + 1) ('[' :: t) = some (.arr items, rest) := by
  have hclose : c ≠ ']' := by
    simp only [opensValue, Bool.and_eq_true, decide_eq_true_eq] at hc
    exact hc.2
  rw [scanValue, hskip]
  split
  · next heq => exact absurd (List.cons.inj heq).1 hclose
  · rw [hscan]
    rfl

mutual

theorem scanValue_dumps : ∀ (value : Json) (level fuel : Nat) (rest : Text), value.Whole →
    EndsNumber rest → (dumpsAt level value).length < fuel →
    scanValue fuel (dumpsAt level value ++ rest) = some (value, rest)
  | value, level, 0, rest, _, _, hfuel => absurd hfuel (by omega)
  | .null, level, fuel + 1, rest, _, _, _ => by rw [dumpsAt]; rfl
  | .bool true, level, fuel + 1, rest, _, _, _ => by rw [dumpsAt]; rfl
  | .bool false, level, fuel + 1, rest, _, _, _ => by rw [dumpsAt]; rfl
  | .int n, level, fuel + 1, rest, _, hr, _ => by
    rw [dumpsAt]
    exact scanValue_decimal n fuel hr
  | .float _, level, fuel + 1, rest, h, _, _ => h.elim
  | .str s, level, fuel + 1, rest, _, _, _ => by
    rw [dumpsAt, quoted, List.cons_append, List.append_assoc, scanValue]
    simp only [List.cons_append, List.nil_append, scanString_quoted, Option.map_some]
  | .arr [], level, fuel + 1, rest, _, _, _ => by rw [dumpsAt]; rfl
  | .arr (item :: items), level, fuel + 1, rest, h, _, hfuel => by
    obtain ⟨hitem, hitems⟩ := h
    obtain ⟨c, cs, hcs, hc⟩ := dumpsAt_head (level + 1) hitem
    have hlength : (dumpsAt (level + 1) item ++ dumpsItems level items).length < fuel := by
      simp only [dumpsAt, List.length_cons, List.length_append] at hfuel ⊢
      omega
    have hscan := scanItems_dumps item items level fuel rest hitem hitems hlength
    have hskip : skipSpace (newline (level + 1) ++ (dumpsAt (level + 1) item ++
        (dumpsItems level items ++ rest))) = c :: (cs ++ (dumpsItems level items ++ rest)) := by
      rw [skipSpace_newline, skipSpace_dumpsAt _ hitem, hcs, List.cons_append]
    rw [hcs, List.cons_append] at hscan
    rw [dumpsAt, List.cons_append, List.append_assoc, List.append_assoc]
    exact scanValue_list fuel hc hskip hscan
  | .obj [], level, fuel + 1, rest, _, _, _ => by rw [dumpsAt]; rfl
  | .obj ((key, value) :: members), level, fuel + 1, rest, h, _, hfuel => by
    have hlength : (escape key ++ ('"' :: ':' :: ' ' :: dumpsAt (level + 1) value) ++
        dumpsMembers level members).length < fuel := by
      simp only [dumpsAt, quoted, List.length_cons, List.length_append, List.length_nil] at hfuel ⊢
      omega
    have hscan := scanMembers_dumps key value members level fuel rest h.1 h.2 hlength
    simp only [dumpsAt, quoted, List.cons_append, List.append_assoc, List.nil_append] at hscan ⊢
    rw [scanValue, skipSpace_newline, skipSpace_cons rfl]
    simp only [hscan, Option.map_some]

theorem scanItems_dumps : ∀ (item : Json) (items : List Json) (level fuel : Nat) (rest : Text),
    item.Whole → WholeItems items →
    (dumpsAt (level + 1) item ++ dumpsItems level items).length < fuel →
    scanItems fuel (dumpsAt (level + 1) item ++ (dumpsItems level items ++ rest)) =
      some (item :: items, rest)
  | item, items, level, 0, rest, _, _, hfuel => absurd hfuel (by omega)
  | item, [], level, fuel + 1, rest, hitem, _, hfuel => by
    have hpos := dumpsItems_pos level []
    rw [List.length_append] at hfuel
    rw [scanItems, scanValue_dumps item (level + 1) fuel _ hitem (endsNumber_items level [] rest)
      (by omega), Option.bind_some]
    simp only [dumpsItems, List.append_assoc, skipSpace_newline]
    rfl
  | item, next :: items, level, fuel + 1, rest, hitem, hitems, hfuel => by
    have hpos := dumpsItems_pos level (next :: items)
    rw [List.length_append] at hfuel
    have hlength : (dumpsAt (level + 1) next ++ dumpsItems level items).length < fuel := by
      simp only [dumpsItems, List.length_cons, List.length_append] at hfuel ⊢
      omega
    have hscan := scanItems_dumps next items level fuel rest hitems.1 hitems.2 hlength
    rw [scanItems, scanValue_dumps item (level + 1) fuel _ hitem
      (endsNumber_items level (next :: items) rest) (by omega), Option.bind_some]
    simp only [dumpsItems, List.cons_append, List.append_assoc, skipSpace_cons (c := ',') rfl,
      skipSpace_newline, skipSpace_dumpsAt _ hitems.1, hscan, Option.map_some]

theorem scanMembers_dumps : ∀ (key : Text) (value : Json) (members : List (Text × Json))
    (level fuel : Nat) (rest : Text), value.Whole → WholeMembers members →
    (escape key ++ ('"' :: ':' :: ' ' :: dumpsAt (level + 1) value) ++
      dumpsMembers level members).length < fuel →
    scanMembers fuel (escape key ++ ('"' :: ':' :: ' ' :: (dumpsAt (level + 1) value ++
      (dumpsMembers level members ++ rest)))) = some ((key, value) :: members, rest)
  | key, value, members, level, 0, rest, _, _, hfuel => absurd hfuel (by omega)
  | key, value, [], level, fuel + 1, rest, hvalue, _, hfuel => by
    have hpos := dumpsMembers_pos level []
    simp only [List.length_append, List.length_cons] at hfuel
    have hscan := scanValue_dumps value (level + 1) fuel _ hvalue
      (endsNumber_members level [] rest) (by omega)
    rw [scanMembers, scanString_quoted, Option.bind_some]
    simp only [skipSpace_cons (c := ':') rfl, skipSpace_space, skipSpace_dumpsAt _ hvalue, hscan,
      Option.bind_some]
    simp only [dumpsMembers, List.append_assoc, skipSpace_newline]
    rfl
  | key, value, (key', next) :: members, level, fuel + 1, rest, hvalue, hmembers, hfuel => by
    have hpos := dumpsMembers_pos level ((key', next) :: members)
    simp only [List.length_append, List.length_cons] at hfuel
    have hscan := scanValue_dumps value (level + 1) fuel _ hvalue
      (endsNumber_members level ((key', next) :: members) rest) (by omega)
    have hlength : (escape key' ++ ('"' :: ':' :: ' ' :: dumpsAt (level + 1) next) ++
        dumpsMembers level members).length < fuel := by
      simp only [dumpsMembers, quoted, List.length_cons, List.length_append, List.length_nil]
        at hfuel ⊢
      omega
    have hrest := scanMembers_dumps key' next members level fuel rest hmembers.1 hmembers.2 hlength
    rw [scanMembers, scanString_quoted, Option.bind_some]
    simp only [skipSpace_cons (c := ':') rfl, skipSpace_space, skipSpace_dumpsAt _ hvalue, hscan,
      Option.bind_some]
    simp only [dumpsMembers, quoted, List.cons_append, List.append_assoc, List.nil_append,
      skipSpace_cons (c := ',') rfl, skipSpace_newline, skipSpace_cons (c := '"') rfl, hrest,
      Option.map_some]

end

/-- **Round trip.** Written with a line end after it, a value reads back as itself. -/
theorem loads_dumps {value : Json} (h : value.Whole) : loads (dumps value ++ ['\n']) = some value := by
  have hfuel : (dumpsAt 0 value).length < (dumps value ++ ['\n']).length + 1 := by
    simp only [dumps, List.length_append]
    omega
  have hscan := scanValue_dumps value 0 _ ['\n'] h (endsNumber_cons (.inr rfl) []) hfuel
  have hskip : skipSpace (dumps value ++ ['\n']) = dumpsAt 0 value ++ ['\n'] :=
    skipSpace_dumpsAt 0 h _
  rw [loads, hskip, hscan]
  rfl

end MeleeHarness.Lib
