import MeleeHarness.Diagnose.ScheduledBlocks

/-!
# A listing is read back

What `list_block` prints, `parse_scheduled_blocks` reads, block for block and instruction for
instruction, exactly if each instruction has a line that is read.

* `parseInst_line`: which lines of instructions are read;
* `parse_lines`: what is read of blocks whose headers are read;
* `listing_readsBack_iff`: when a listing is read back as a whole.
-/

namespace MeleeHarness.Diagnose

open Lib Regex

/-! ## Characters -/

theorem digit_plain {c : Char} {n : Nat} (h : c ∈ Nat.toDigits 10 n) :
    c.isDigit = true ∧ isLineBoundary c = false ∧ wordChar c = true ∧ c ≠ '\x7d' := by
  have hall : ∀ d ∈ decimalAlphabet,
      d.isDigit = true ∧ isLineBoundary d = false ∧ wordChar d = true ∧ d ≠ '\x7d' := by decide
  exact hall c (mem_decimal h)

theorem hex_unbroken (n : Nat) : Unbroken (hex n) := by
  have hall : ∀ d ∈ hexAlphabet, isLineBoundary d = false := by decide
  exact fun c hc => hall c (mem_hex hc)

theorem toDigits_unbroken (n : Nat) : Unbroken (Nat.toDigits 10 n) := fun _ hc => (digit_plain hc).2.1

theorem printInt_unbroken (n : Int) : Unbroken (printInt n) := by
  rw [printInt]
  split
  · exact Unbroken.append (a := ['-']) (by decide) (toDigits_unbroken _)
  · exact toDigits_unbroken _

theorem blockName_unbroken (n : Int) : Unbroken (blockName n) :=
  Unbroken.append (a := ['B']) (by decide) (printInt_unbroken n)

theorem unbroken_flatMap {α : Type} {xs : List α} {f : α → Text} (h : ∀ x ∈ xs, Unbroken (f x)) :
    Unbroken (xs.flatMap f) := by
  intro c hc
  obtain ⟨x, hx, hmem⟩ := List.mem_flatMap.mp hc
  exact h x hx c hmem

theorem listLinks_unbroken (links : List (Option Int)) : Unbroken (listLinks links) :=
  unbroken_flatMap fun n _ => (blockName_unbroken n).append (by decide)

/-! ## Headers -/

theorem takeWhile_toDigits (n : Nat) {c : Char} (hc : c.isDigit = false) (rest : Text) :
    (Nat.toDigits 10 n ++ c :: rest).takeWhile Char.isDigit = Nat.toDigits 10 n ∧
      (Nat.toDigits 10 n ++ c :: rest).dropWhile Char.isDigit = c :: rest := by
  have hall : ∀ d ∈ Nat.toDigits 10 n, d.isDigit = true := fun d hd => (digit_plain hd).1
  constructor
  · rw [List.takeWhile_append_of_pos hall]
    simp [hc]
  · rw [List.dropWhile_append_of_pos hall]
    simp [hc]

theorem printInt_nonneg {n : Int} (h : 0 ≤ n) : printInt n = Nat.toDigits 10 n.natAbs := if_neg (by omega)

theorem blockNameAt_name {n : Int} (h : 0 ≤ n) {c : Char} (hc : c.isDigit = false) (rest : Text) :
    blockNameAt (blockName n ++ c :: rest) = some (blockName n, c :: rest) := by
  rw [blockName, printInt_nonneg h, List.cons_append, blockNameAt, (takeWhile_toDigits _ hc rest).1,
    (takeWhile_toDigits _ hc rest).2, if_neg Nat.toDigits_ne_nil]

theorem blockNameAt_negative {n : Int} (h : n < 0) (rest : Text) :
    blockNameAt (blockName n ++ rest) = none := by
  rw [blockName, printInt, if_pos h]
  rfl

theorem listLinks_notClosed (links : List (Option Int)) : ∀ c ∈ listLinks links, c ≠ '\x7d' := by
  intro c hc
  obtain ⟨n, -, hmem⟩ := List.mem_flatMap.mp hc
  rw [blockName, printInt] at hmem
  split at hmem
  · simp only [List.cons_append, List.mem_cons, List.mem_append, List.not_mem_nil, or_false] at hmem
    rcases hmem with rfl | rfl | hmem | rfl
    · decide
    · decide
    · exact (digit_plain hmem).2.2.2
    · decide
  · simp only [List.cons_append, List.mem_cons, List.mem_append, List.not_mem_nil, or_false] at hmem
    rcases hmem with rfl | hmem | rfl
    · decide
    · exact (digit_plain hmem).2.2.2
    · decide

theorem bracedAt_links (tag : String) (links : List (Option Int)) (rest : Text) :
    bracedAt tag (tag.toList ++ ['=', '\x7b'] ++ (listLinks links ++ '\x7d' :: rest)) =
      some (listLinks links, rest) := by
  have hall : ∀ c ∈ listLinks links, (decide (c ≠ '\x7d')) = true :=
    fun c hc => decide_eq_true (listLinks_notClosed links c hc)
  rw [bracedAt, if_pos (by simp), List.drop_left]
  simp only [List.dropWhile_append_of_pos hall, List.takeWhile_append_of_pos hall]
  simp

/-- What follows the predecessors is not read. -/
theorem closing (b : PCodeBlock) : ∃ rest, b.listLabels ++ ['\x7d'] = '\x7d' :: rest := by
  rw [PCodeBlock.listLabels]
  split
  · exact ⟨[], rfl⟩
  · exact ⟨_, rfl⟩

theorem headerLine_eq (b : PCodeBlock) : ∃ rest, b.headerLine = blockName b.blockIndex ++ ':' :: ' ' ::
    ("Succ".toList ++ ['=', '\x7b'] ++ (listLinks b.successors ++ '\x7d' :: ' ' ::
      ("Pred".toList ++ ['=', '\x7b'] ++ (listLinks b.predecessors ++ '\x7d' :: rest)))) := by
  obtain ⟨rest, hrest⟩ := closing b
  refine ⟨rest, ?_⟩
  rw [PCodeBlock.headerLine, List.append_assoc _ b.listLabels, hrest]
  simp

theorem blockName_head (n : Int) (rest : Text) :
    (blockName n ++ rest).dropWhile isSpace = blockName n ++ rest := rfl

theorem blockHeader_read (b : PCodeBlock) (h : 0 ≤ b.blockIndex) : blockHeader b.headerLine =
    some (blockName b.blockIndex, listLinks b.successors, listLinks b.predecessors) := by
  obtain ⟨rest, hline⟩ := headerLine_eq b
  rw [hline, blockHeader, blockName_head, blockNameAt_name h (by decide)]
  simp only [List.tail_cons, List.head?_cons, guard, if_true, Option.bind_eq_bind,
    Option.pure_def, Option.bind_some]
  have hsucc : ∀ t, spacesAt (' ' :: ("Succ".toList ++ t)) = some ("Succ".toList ++ t) := fun t => rfl
  have hpred : ∀ t, spacesAt (' ' :: ("Pred".toList ++ t)) = some ("Pred".toList ++ t) := fun t => rfl
  rw [List.append_assoc, hsucc, Option.bind_some, ← List.append_assoc, bracedAt_links, Option.bind_some]
  dsimp only
  rw [List.append_assoc, hpred, Option.bind_some, ← List.append_assoc, bracedAt_links]
  rfl

theorem blockHeader_negative (b : PCodeBlock) (h : b.blockIndex < 0) : blockHeader b.headerLine = none := by
  obtain ⟨rest, hline⟩ := headerLine_eq b
  rw [hline, blockHeader, blockName_head, blockNameAt_negative h]
  rfl

/-! ## Links -/

theorem wordRuns_run {run : Text} (hne : run ≠ []) (hrun : ∀ d ∈ run, wordChar d = true) {c : Char}
    (hc : wordChar c = false) (rest : Text) : wordRuns (run ++ c :: rest) = run :: wordRuns rest := by
  induction run with
  | nil => exact absurd rfl hne
  | cons d run ih =>
    have hd := hrun d List.mem_cons_self
    cases run with
    | nil => simp [wordRuns, hd, hc]
    | cons e run =>
      have he := hrun e (by simp)
      have htail := ih (by simp) fun x hx => hrun x (List.mem_cons_of_mem d hx)
      rw [List.cons_append] at htail
      rw [List.cons_append, List.cons_append, wordRuns, if_pos hd]
      simp [he, htail]

/-- Only the names of blocks with an index are read. -/
theorem parseBlockRefs_links (links : List (Option Int)) : parseBlockRefs (listLinks links) =
    ((links.filterMap id).filter (0 ≤ ·)).map blockName := by
  rw [listLinks]
  induction links.filterMap id with
  | nil => rfl
  | cons n ns ih =>
    rw [parseBlockRefs] at ih
    rw [parseBlockRefs, List.flatMap_cons, List.append_assoc, List.singleton_append]
    by_cases hn : 0 ≤ n
    · have hname : ∀ d ∈ blockName n, wordChar d = true := by
        rw [blockName, printInt_nonneg hn]
        intro d hd
        rcases List.mem_cons.mp hd with rfl | hd
        · decide
        · exact (digit_plain hd).2.2.1
      have hread : isBlockRef (blockName n) = true := by
        have hall : ∀ d ∈ Nat.toDigits 10 n.natAbs, d.isDigit = true := fun d hd => (digit_plain hd).1
        rw [isBlockRef, blockName, printInt_nonneg hn, blockNameAt, List.takeWhile_eq_self_iff.mpr hall,
          List.dropWhile_eq_nil_iff.mpr hall, if_neg Nat.toDigits_ne_nil]
        rfl
      rw [wordRuns_run (by simp [blockName]) hname (by decide), List.filter_cons_of_pos hread,
        List.filter_cons_of_pos (p := fun x : Int => decide (0 ≤ x)) (decide_eq_true hn), List.map_cons, ih]
    · have hneg : blockName n = ['B', '-'] ++ Nat.toDigits 10 n.natAbs := by
        rw [blockName, printInt, if_pos (by omega)]
        rfl
      have hdigits : ∀ d ∈ Nat.toDigits 10 n.natAbs, wordChar d = true := fun d hd => (digit_plain hd).2.2.1
      have hnot : ¬isBlockRef (Nat.toDigits 10 n.natAbs) = true := by
        cases hd : Nat.toDigits 10 n.natAbs with
        | nil => exact Bool.false_ne_true
        | cons d ds =>
          have hdigit := (digit_plain (hd ▸ List.mem_cons_self : d ∈ Nat.toDigits 10 n.natAbs)).1
          rw [isBlockRef, blockNameAt]
          · exact Bool.false_ne_true
          · rintro rest hB
            obtain ⟨rfl, -⟩ := List.cons.inj hB
            cases hdigit
      rw [hneg, List.filter_cons_of_neg (by simpa using hn), ← ih, List.append_assoc]
      change List.filter _ (wordRuns (['B'] ++ '-' :: (Nat.toDigits 10 n.natAbs ++ _))) = _
      rw [wordRuns_run (by simp) (by decide) (by decide), wordRuns_run Nat.toDigits_ne_nil hdigits (by decide),
        List.filter_cons_of_neg (by decide), List.filter_cons_of_neg hnot]

/-! ## Instructions -/

/-- One line of text without a semicolon, as `formatoperands` writes it. -/
def PCode.OneLine (p : PCode) : Prop := Unbroken p.operands ∧ ';' ∉ p.operands

/-- The opcode has a name, and the name leaves a second blank where there are no operands. -/
def PCode.Readable (p : PCode) : Prop :=
  ∃ name, p.name = some name ∧ (p.operands = [] → name.length < 7)

instance PCode.decidableReadable (p : PCode) : Decidable p.Readable :=
  match h : p.name with
  | some name =>
    decidable_of_iff (p.operands = [] → name.length < 7)
      ⟨fun hlen => ⟨name, h, hlen⟩, fun ⟨_, hname, hlen⟩ => by
        rw [h] at hname
        exact Option.some.inj hname ▸ hlen⟩
  | none => .isFalse fun ⟨_, hname, _⟩ => by
    rw [h] at hname
    cases hname

/-- What the name of an opcode looks like. -/
def Mnemonic (name : Text) : Prop := name ≠ [] ∧ name.head?.any Char.isLower = true ∧
  ∀ c ∈ name, MwccDump.opChar c = true ∧ isSpace c = false ∧ isLineBoundary c = false ∧ c ≠ ';'

instance : DecidablePred Mnemonic := fun _ => inferInstanceAs (Decidable (_ ∧ _))

theorem opcodes_plain : ∀ s ∈ opcodes, Mnemonic s.toList := by
  dsimp only [opcodes]
  repeat refine forall_literal_cons rfl (by decide) ?_
  exact fun s hs => absurd hs List.not_mem_nil

theorem PCode.name_plain {p : PCode} {name : Text} (h : p.name = some name) : name ≠ [] ∧
    name.head?.any Char.isLower = true ∧
    ∀ c ∈ name, MwccDump.opChar c = true ∧ isSpace c = false ∧ isLineBoundary c = false ∧ c ≠ ';' := by
  rw [PCode.name] at h
  split at h
  · cases h
  · obtain ⟨s, hs, rfl⟩ := Option.map_eq_some_iff.mp h
    exact opcodes_plain s (List.mem_of_getElem? hs)

theorem PCode.line_unbroken {p : PCode} (h : p.OneLine) : Unbroken p.line := by
  have hoperands : Unbroken (' ' :: p.operands) := Unbroken.append (a := [' ']) (by decide) h.1
  rw [PCode.line]
  split
  · rename_i name hname
    have hplain : Unbroken name := fun c hc => ((PCode.name_plain hname).2.2 c hc).2.2.1
    exact ((Unbroken.append (by decide) (hplain.append (unbroken_replicate_space _)))).append hoperands
  · exact (Unbroken.append (by decide) (hex_unbroken _)).append hoperands

/-- A line that begins with blanks and a small letter is no header. -/
theorem blockHeader_line (p : PCode) : blockHeader p.line = none := by
  have hnot : ∀ t : Text, t.head? ≠ some 'B' → blockNameAt t = none := by
    intro t ht
    cases t with
    | nil => rfl
    | cons c t =>
      rw [blockNameAt]
      rintro rest hB
      obtain ⟨rfl, -⟩ := List.cons.inj hB
      exact ht rfl
  have hhead : (p.line.dropWhile isSpace).head? ≠ some 'B' := by
    rw [PCode.line]
    split
    · rename_i name hname
      obtain ⟨hne, hlower, hall⟩ := PCode.name_plain hname
      cases name with
      | nil => exact absurd rfl hne
      | cons c name =>
        have hspace := (hall c List.mem_cons_self).2.1
        have hdrop : (("    ".toList ++ padRight 7 (c :: name) ++ ' ' :: p.operands).dropWhile isSpace).head? =
            some c := by
          change ((c :: (name ++ _ ++ ' ' :: p.operands)).dropWhile isSpace).head? = _
          rw [List.dropWhile_cons_of_neg (by simp [hspace])]
          rfl
        rw [hdrop]
        rintro hB
        obtain rfl := Option.some.inj hB
        cases hlower
    · change some 'o' ≠ some 'B'
      decide
  rw [blockHeader, hnot _ hhead]
  rfl

theorem mnemonic_line {p : PCode} {name : Text} (h : p.name = some name) :
    MwccDump.mnemonic p.line = some (name, List.replicate (7 - name.length) ' ' ++ ' ' :: p.operands) := by
  obtain ⟨hne, hlower, hall⟩ := PCode.name_plain h
  have hline : p.line = "    ".toList ++
      (name ++ (List.replicate (7 - name.length) ' ' ++ ' ' :: p.operands)) := by
    rw [PCode.line, h]
    simp [padRight]
  have hspace : ∃ c rest, List.replicate (7 - name.length) ' ' ++ ' ' :: p.operands = c :: rest ∧ c = ' ' := by
    cases 7 - name.length with
    | zero => exact ⟨' ', _, rfl, rfl⟩
    | succ k => exact ⟨' ', _, rfl, rfl⟩
  have hbody : p.line.dropWhile isSpace =
      name ++ (List.replicate (7 - name.length) ' ' ++ ' ' :: p.operands) := by
    rw [hline]
    cases name with
    | nil => exact absurd rfl hne
    | cons c name =>
      change (c :: _).dropWhile isSpace = _
      rw [List.dropWhile_cons_of_neg (by simp [(hall c List.mem_cons_self).2.1])]
      rfl
  have hop : ∀ c ∈ name, MwccDump.opChar c = true := fun c hc => (hall c hc).1
  obtain ⟨c, rest, hrest, rfl⟩ := hspace
  have hfirst : p.line.head?.any isSpace = true := by
    rw [hline]
    rfl
  have hletter : (p.line.dropWhile isSpace).head?.any Char.isLower = true := by
    rw [hbody, List.head?_append_of_ne_nil _ hne]
    exact hlower
  rw [MwccDump.mnemonic]
  simp only [hfirst, hletter, and_self, if_true]
  rw [hbody, List.takeWhile_append_of_pos hop, List.dropWhile_append_of_pos hop, hrest]
  have hblank : ¬MwccDump.opChar ' ' = true := by decide
  rw [List.takeWhile_cons_of_neg hblank, List.dropWhile_cons_of_neg hblank, List.append_nil]

theorem PCode.line_noSemicolon {p : PCode} (h : p.OneLine) : ';' ∉ p.line := by
  have hhex : ∀ n, ';' ∉ hex n := by
    intro n hmem
    have hall : ';' ∉ hexAlphabet := by decide
    exact hall (mem_hex hmem)
  rw [PCode.line]
  split
  · rename_i name hname
    have hplain : ';' ∉ name := fun hmem => ((PCode.name_plain hname).2.2 _ hmem).2.2.2 rfl
    simp [padRight, hplain, h.2]
  · simp [hhex, h.2]

/-- `\s+([^;]+)` behind a mnemonic: blanks and text without a semicolon. -/
theorem parseInst_rest {line op rest : Text} (hm : MwccDump.mnemonic line = some (op, ' ' :: rest))
    (hsemi : ';' ∉ rest) : MwccDump.parseInst line = none ↔ rest = [] := by
  have hgap : (' ' :: rest).takeWhile isSpace ≠ [] := by
    rw [List.takeWhile_cons_of_pos (by decide)]
    simp
  have hgroup : ((' ' :: rest).dropWhile isSpace).takeWhile (· ≠ ';') = (' ' :: rest).dropWhile isSpace := by
    apply List.takeWhile_eq_self_iff.mpr
    intro c hc
    have hmem := (List.dropWhile_sublist isSpace).subset hc
    refine decide_eq_true ?_
    rintro rfl
    simp [hsemi] at hmem
  simp only [MwccDump.parseInst, hm, Option.bind_eq_bind, Option.bind_some]
  rw [if_neg hgap, hgroup]
  by_cases hblank : (' ' :: rest).dropWhile isSpace = []
  · have hall := List.dropWhile_eq_nil_iff.mp hblank
    rw [if_pos hblank, List.takeWhile_eq_self_iff.mpr hall, List.length_cons]
    by_cases hrest : rest = []
    · simp [hrest]
    · have hlen := List.length_pos_iff.mpr hrest
      rw [if_neg (by omega)]
      simp [hrest]
  · rw [if_neg hblank]
    constructor
    · intro hnone
      cases hnone
    · rintro rfl
      exact absurd rfl hblank

theorem parseInst_text {line op text : Text} {operands : List Text}
    (h : MwccDump.parseInst line = some (op, operands, text)) : text = MwccDump.cleanInst line := by
  simp only [MwccDump.parseInst, Option.bind_eq_bind, Option.bind_eq_some_iff] at h
  obtain ⟨⟨op', rest⟩, -, h⟩ := h
  dsimp only at h
  split_ifs at h
  · cases h
    rfl
  · cases h
    rfl

theorem cleanInst_line {p : PCode} (h : p.OneLine) : MwccDump.cleanInst p.line = strip p.line := by
  rw [MwccDump.cleanInst, List.takeWhile_eq_self_iff.mpr]
  intro c hc
  refine decide_eq_true ?_
  rintro rfl
  exact PCode.line_noSemicolon h hc

/-- The line of an instruction is read exactly if it is readable. -/
theorem parseInst_line {p : PCode} (h : p.OneLine) : MwccDump.parseInst p.line = none ↔ ¬p.Readable := by
  cases hname : p.name with
  | none =>
    have hnot : ¬p.Readable := by
      rintro ⟨name, hsome, -⟩
      rw [hname] at hsome
      cases hsome
    have hm : MwccDump.mnemonic p.line = some ("op".toList,
        "=0x".toList ++ hex (p.op % 2 ^ 32).toNat ++ ' ' :: p.operands) := by
      rw [PCode.line, hname]
      rfl
    simp only [hnot, not_false_eq_true, iff_true]
    simp only [MwccDump.parseInst, hm, Option.bind_eq_bind, Option.bind_some]
    rfl
  | some name =>
    have hreadable : p.Readable ↔ (p.operands = [] → name.length < 7) := by
      constructor
      · rintro ⟨other, hsome, hlen⟩
        rw [hname] at hsome
        exact Option.some.inj hsome ▸ hlen
      · exact fun hlen => ⟨name, hname, hlen⟩
    have hm := mnemonic_line hname
    -- one of the blanks comes first
    have hshift : List.replicate (7 - name.length) ' ' ++ ' ' :: p.operands =
        ' ' :: (List.replicate (7 - name.length) ' ' ++ p.operands) := by
      rw [← List.cons_append, ← List.replicate_succ, List.replicate_succ', List.append_assoc]
      rfl
    rw [hshift] at hm
    rw [parseInst_rest hm (by simp [h.2]), hreadable, List.append_eq_nil_iff, List.replicate_eq_nil_iff]
    constructor
    · rintro ⟨hlen, hnil⟩ hreads
      have hlt := hreads hnil
      omega
    · intro hnot
      rw [Classical.not_imp] at hnot
      exact ⟨by omega, hnot.1⟩

/-! ## Blocks -/

/-- The instructions that are read, numbered in the listing and in their block. -/
def readInsts (name : Text) (index : Nat) : Nat → Nat → List PCode → List ScheduledInst
  | _, _, [] => []
  | n, m, p :: ps =>
    match MwccDump.parseInst p.line with
    | none => readInsts name index n m ps
    | some (op, operands, text) =>
      ⟨name, index, n, m, op, operands, text⟩ :: readInsts name index (n + 1) (m + 1) ps

def readBlock (index n : Nat) (b : PCodeBlock) : ScheduledBlock where
  name := blockName b.blockIndex
  index := index
  preds := parseBlockRefs (listLinks b.predecessors)
  succs := parseBlockRefs (listLinks b.successors)
  insts := readInsts (blockName b.blockIndex) index n 0 b.pcodes

def readBlocks : Nat → Nat → List PCodeBlock → List ScheduledBlock
  | _, _, [] => []
  | index, n, b :: bs =>
    readBlock index n b :: readBlocks (index + 1) (n + (readBlock index n b).insts.length) bs

theorem skip_line {line : Text} (hheader : blockHeader line = none)
    (hinst : MwccDump.parseInst line = none) (st : BlockParse) : parseBlockLine st line = st := by
  rw [parseBlockLine, hheader]
  dsimp only
  split
  · rfl
  · rw [hinst]

theorem skip_unindented {c : Char} (hc : isSpace c = false) (hB : c ≠ 'B') (line : Text)
    (st : BlockParse) : parseBlockLine st (c :: line) = st := by
  apply skip_line
  · have hnot : blockNameAt (c :: line) = none := by
      rw [blockNameAt]
      rintro rest h
      exact hB (List.cons.inj h).1
    rw [blockHeader, List.dropWhile_cons_of_neg (by simp [hc]), hnot]
    rfl
  · simp [MwccDump.parseInst, MwccDump.mnemonic, hc]

theorem parse_insts (pcodes : List PCode) : ∀ (st : BlockParse) (cur : ScheduledBlock),
    st.current = some cur → (pcodes.map PCode.line).foldl parseBlockLine st =
      { st with
        current := some { cur with
          insts := cur.insts ++ readInsts cur.name cur.index st.instIndex cur.insts.length pcodes }
        instIndex := st.instIndex +
          (readInsts cur.name cur.index st.instIndex cur.insts.length pcodes).length } := by
  induction pcodes with
  | nil =>
    intro st cur hcur
    obtain ⟨done, current, n⟩ := st
    obtain rfl : current = some cur := hcur
    simp [readInsts]
  | cons p ps ih =>
    intro st cur hcur
    obtain ⟨done, current, n⟩ := st
    obtain rfl : current = some cur := hcur
    rw [List.map_cons, List.foldl_cons, parseBlockLine, blockHeader_line, readInsts]
    dsimp only
    cases MwccDump.parseInst p.line with
    | none => exact ih _ cur rfl
    | some inst =>
      obtain ⟨op, operands, text⟩ := inst
      dsimp only
      rw [ih _ (cur.addInst n op operands text) rfl]
      simp [ScheduledBlock.addInst]
      omega

theorem weightLine_eq (b : PCodeBlock) : ∃ rest, b.weightLine = ':' :: rest := ⟨_, rfl⟩

/-- What is read of a block whose header is read. -/
theorem parse_block (b : PCodeBlock) (h : 0 ≤ b.blockIndex) (st : BlockParse) :
    b.lines.foldl parseBlockLine st = ⟨st.blocks, some (readBlock st.blocks.length st.instIndex b),
      st.instIndex + (readBlock st.blocks.length st.instIndex b).insts.length⟩ := by
  obtain ⟨rest, hweight⟩ := weightLine_eq b
  rw [PCodeBlock.lines, List.foldl_append]
  simp only [List.foldl_cons, List.foldl_nil]
  rw [hweight, skip_unindented (by decide) (by decide), @skip_line [] rfl rfl, parseBlockLine,
    blockHeader_read b h]
  dsimp only
  rw [parse_insts b.pcodes _ _ rfl]
  rfl

theorem parse_blocks (blocks : List PCodeBlock) (h : ∀ b ∈ blocks, 0 ≤ b.blockIndex) (st : BlockParse) :
    ((blocks.flatMap PCodeBlock.lines).foldl parseBlockLine st).blocks =
      st.blocks ++ readBlocks st.blocks.length st.instIndex blocks := by
  induction blocks generalizing st with
  | nil => simp [readBlocks]
  | cons b bs ih =>
    rw [List.flatMap_cons, List.foldl_append, parse_block b (h b List.mem_cons_self),
      ih (fun c hc => h c (List.mem_cons_of_mem b hc))]
    simp [BlockParse.blocks, readBlocks, Nat.add_assoc]

theorem length_line {line : Text} (h : blockHeader line = none) (st : BlockParse) :
    (parseBlockLine st line).blocks.length = st.blocks.length := by
  rw [parseBlockLine, h]
  dsimp only
  split
  · rfl
  · rename_i cur hcur
    split
    · rfl
    · simp [BlockParse.blocks, hcur]

theorem length_insts (pcodes : List PCode) (st : BlockParse) :
    ((pcodes.map PCode.line).foldl parseBlockLine st).blocks.length = st.blocks.length := by
  induction pcodes generalizing st with
  | nil => rfl
  | cons p ps ih => rw [List.map_cons, List.foldl_cons, ih, length_line (blockHeader_line p)]

/-- Only a header begins a block. -/
theorem parse_length (blocks : List PCodeBlock) (st : BlockParse) :
    ((blocks.flatMap PCodeBlock.lines).foldl parseBlockLine st).blocks.length =
      st.blocks.length + blocks.countP (0 ≤ ·.blockIndex) := by
  induction blocks generalizing st with
  | nil => rfl
  | cons b bs ih =>
    rw [List.flatMap_cons, List.foldl_append, ih, List.countP_cons]
    obtain ⟨rest, hweight⟩ := weightLine_eq b
    have hblock : (b.lines.foldl parseBlockLine st).blocks.length =
        st.blocks.length + if decide (0 ≤ b.blockIndex) = true then 1 else 0 := by
      by_cases hindex : 0 ≤ b.blockIndex
      · rw [parse_block b hindex, decide_eq_true hindex]
        simp [BlockParse.blocks, Nat.add_assoc]
      · rw [decide_eq_false hindex, PCodeBlock.lines, List.foldl_append, length_insts]
        simp only [List.foldl_cons, List.foldl_nil]
        rw [@skip_line [] rfl rfl, length_line (blockHeader_negative b (by omega)), hweight,
          skip_unindented (by decide) (by decide)]
        rfl
    omega

/-! ## The text -/

/-- Lines that are written with a newline each are split as they were. -/
theorem splitlines_lines {lines : List Text} (h : ∀ l ∈ lines, Unbroken l) :
    splitlines (lines.flatMap (· ++ ['\n'])) = lines := by
  induction lines with
  | nil => rfl
  | cons l ls ih =>
    rw [List.flatMap_cons, List.append_assoc, List.singleton_append,
      splitlines_unbroken_newline (h l List.mem_cons_self), ih fun m hm => h m (List.mem_cons_of_mem l hm)]

theorem lines_unbroken {b : PCodeBlock} (h : ∀ p ∈ b.pcodes, p.OneLine) : ∀ l ∈ b.lines, Unbroken l := by
  intro l hl
  simp only [PCodeBlock.lines, List.cons_append, List.nil_append, List.mem_cons, List.mem_map] at hl
  rcases hl with rfl | rfl | rfl | ⟨p, hp, rfl⟩
  · have hhex : Unbroken (hex4 b.flags) := by
      refine Unbroken.append ?_ (hex_unbroken _)
      intro c hc
      rw [List.eq_of_mem_replicate hc]
      decide
    exact ((Unbroken.append (by decide) hhex).append (by decide)).append (printInt_unbroken _)
  · have hlabels : Unbroken b.listLabels := by
      rw [PCodeBlock.listLabels]
      split
      · exact fun _ hc => nomatch hc
      · refine Unbroken.append (by decide) (unbroken_flatMap fun n _ => ?_)
        exact (Unbroken.append (a := ['L']) (by decide) (toDigits_unbroken n)).append (by decide)
    exact (((((blockName_unbroken _).append (by decide)).append (listLinks_unbroken _)).append
      (by decide)).append (listLinks_unbroken _)).append hlabels |>.append (by decide)
  · exact fun _ hc => nomatch hc
  · exact PCode.line_unbroken (h p hp)

theorem splitlines_listing {blocks : List PCodeBlock} (h : ∀ b ∈ blocks, ∀ p ∈ b.pcodes, p.OneLine) :
    splitlines (blocks.flatMap listBlock) = blocks.flatMap PCodeBlock.lines := by
  have hall : ∀ l ∈ blocks.flatMap PCodeBlock.lines, Unbroken l := by
    intro l hl
    obtain ⟨b, hb, hmem⟩ := List.mem_flatMap.mp hl
    exact lines_unbroken (h b hb) l hmem
  have htext : blocks.flatMap listBlock = (blocks.flatMap PCodeBlock.lines).flatMap (· ++ ['\n']) := by
    rw [List.flatMap_assoc]
    rfl
  rw [htext, splitlines_lines hall]

/-! ## Reading back -/

def SameBlock (b : PCodeBlock) (s : ScheduledBlock) : Prop :=
  s.name = blockName b.blockIndex ∧ s.succs = (b.successors.filterMap id).map blockName ∧
    s.preds = (b.predecessors.filterMap id).map blockName ∧
    List.Forall₂ (fun (p : PCode) (i : ScheduledInst) => i.text = strip p.line) b.pcodes s.insts

/-- The same blocks in the same order, with an instruction for each one that was listed. -/
structure ReadsBack (blocks : List PCodeBlock) (parsed : List ScheduledBlock) : Prop where
  same : List.Forall₂ SameBlock blocks parsed
  numbered : (parsed.flatMap ScheduledBlock.insts).map ScheduledInst.instIndex =
    List.range (blocks.flatMap PCodeBlock.pcodes).length

/-- Every number of a block can be read, and every instruction. -/
structure PCodeBlock.Readable (b : PCodeBlock) : Prop where
  index : 0 ≤ b.blockIndex
  successors : ∀ n ∈ b.successors.filterMap id, 0 ≤ n
  predecessors : ∀ n ∈ b.predecessors.filterMap id, 0 ≤ n
  pcodes : ∀ p ∈ b.pcodes, p.Readable

theorem readInsts_same {pcodes : List PCode} (h : ∀ p ∈ pcodes, p.OneLine)
    (hread : ∀ p ∈ pcodes, p.Readable) (name : Text) (index n m : Nat) :
    List.Forall₂ (fun (p : PCode) (i : ScheduledInst) => i.text = strip p.line) pcodes
      (readInsts name index n m pcodes) := by
  induction pcodes generalizing n m with
  | nil => exact .nil
  | cons p ps ih =>
    have hp := h p List.mem_cons_self
    rw [readInsts]
    cases hinst : MwccDump.parseInst p.line with
    | none => exact absurd (hread p List.mem_cons_self) ((parseInst_line hp).mp hinst)
    | some inst =>
      obtain ⟨op, operands, text⟩ := inst
      refine .cons ?_ (ih (fun q hq => h q (List.mem_cons_of_mem p hq))
        (fun q hq => hread q (List.mem_cons_of_mem p hq)) _ _)
      exact (parseInst_text hinst).trans (cleanInst_line hp)

theorem readInsts_length {pcodes : List PCode} (h : ∀ p ∈ pcodes, p.OneLine) (name : Text)
    (index n m : Nat) : (readInsts name index n m pcodes).length = pcodes.countP (·.Readable) := by
  induction pcodes generalizing n m with
  | nil => rfl
  | cons p ps ih =>
    have hp := h p List.mem_cons_self
    have hps := fun q hq => h q (List.mem_cons_of_mem p hq)
    rw [readInsts, List.countP_cons]
    cases hinst : MwccDump.parseInst p.line with
    | none => simp [(parseInst_line hp).mp hinst, ih hps]
    | some inst =>
      have hread : p.Readable := by
        by_contra hnot
        rw [(parseInst_line hp).mpr hnot] at hinst
        cases hinst
      simp [hread, ih hps]

theorem readInsts_numbered (name : Text) (index n m : Nat) (pcodes : List PCode) :
    (readInsts name index n m pcodes).map ScheduledInst.instIndex =
      List.range' n (readInsts name index n m pcodes).length := by
  induction pcodes generalizing n m with
  | nil => rfl
  | cons p ps ih =>
    rw [readInsts]
    cases MwccDump.parseInst p.line with
    | none => exact ih n m
    | some inst => exact congrArg (n :: ·) (ih (n + 1) (m + 1))

theorem readBlocks_numbered (blocks : List PCodeBlock) (index n : Nat) :
    ((readBlocks index n blocks).flatMap ScheduledBlock.insts).map ScheduledInst.instIndex =
      List.range' n ((readBlocks index n blocks).flatMap ScheduledBlock.insts).length := by
  induction blocks generalizing index n with
  | nil => rfl
  | cons b bs ih =>
    rw [readBlocks, List.flatMap_cons, List.map_append, ih, List.length_append, ← List.range'_append_1]
    exact congrArg (· ++ _) (readInsts_numbered _ _ _ _ _)

/-- Names of blocks are read back exactly if all have an index. -/
theorem links_same (links : List (Option Int)) :
    parseBlockRefs (listLinks links) = (links.filterMap id).map blockName ↔
      ∀ n ∈ links.filterMap id, 0 ≤ n := by
  rw [parseBlockRefs_links]
  constructor
  · intro h
    have hlen := congrArg List.length h
    rw [List.length_map, List.length_map] at hlen
    exact fun n hn => of_decide_eq_true (List.length_filter_eq_length_iff.mp hlen n hn)
  · intro h
    rw [List.filter_eq_self.mpr fun n hn => decide_eq_true (h n hn)]

theorem readBlock_same {b : PCodeBlock} (h : ∀ p ∈ b.pcodes, p.OneLine) (hindex : 0 ≤ b.blockIndex)
    (index n : Nat) : SameBlock b (readBlock index n b) ↔ b.Readable := by
  constructor
  · rintro ⟨-, hsuccs, hpreds, hinsts⟩
    refine ⟨hindex, (links_same _).mp hsuccs, (links_same _).mp hpreds, ?_⟩
    have hlen : _ = (readInsts _ _ _ _ _).length := hinsts.length_eq
    rw [readInsts_length h] at hlen
    exact fun p hp => of_decide_eq_true (List.countP_eq_length.mp hlen.symm p hp)
  · intro hb
    exact ⟨rfl, (links_same _).mpr hb.successors, (links_same _).mpr hb.predecessors,
      readInsts_same h hb.pcodes _ _ _ _⟩

theorem readBlocks_same {blocks : List PCodeBlock} (h : ∀ b ∈ blocks, ∀ p ∈ b.pcodes, p.OneLine)
    (hindex : ∀ b ∈ blocks, 0 ≤ b.blockIndex) (index n : Nat) :
    List.Forall₂ SameBlock blocks (readBlocks index n blocks) ↔ ∀ b ∈ blocks, b.Readable := by
  induction blocks generalizing index n with
  | nil => simp [readBlocks]
  | cons b bs ih =>
    rw [readBlocks, List.forall₂_cons, List.forall_mem_cons,
      readBlock_same (h b List.mem_cons_self) (hindex b List.mem_cons_self),
      ih (fun c hc => h c (List.mem_cons_of_mem b hc)) fun c hc => hindex c (List.mem_cons_of_mem b hc)]

theorem same_length {blocks : List PCodeBlock} {parsed : List ScheduledBlock}
    (h : List.Forall₂ SameBlock blocks parsed) :
    (parsed.flatMap ScheduledBlock.insts).length = (blocks.flatMap PCodeBlock.pcodes).length := by
  induction h with
  | nil => rfl
  | cons hfirst _ ih =>
    rw [List.flatMap_cons, List.flatMap_cons, List.length_append, List.length_append, ih,
      hfirst.2.2.2.length_eq]

/-- A listing is read back exactly if each block and each instruction in it can be read. -/
theorem listing_readsBack_iff (blocks : List PCodeBlock)
    (h : ∀ b ∈ blocks, ∀ p ∈ b.pcodes, p.OneLine) :
    ReadsBack blocks (parseScheduledBlocks (splitlines (blocks.flatMap listBlock))) ↔
      ∀ b ∈ blocks, b.Readable := by
  rw [splitlines_listing h, parseScheduledBlocks]
  constructor
  · intro hback
    have hlen := hback.same.length_eq
    rw [parse_length] at hlen
    have hindex : ∀ b ∈ blocks, 0 ≤ b.blockIndex := by
      have hcount : blocks.countP (0 ≤ ·.blockIndex) = blocks.length := by
        simpa [BlockParse.blocks] using hlen.symm
      exact fun b hb => of_decide_eq_true (List.countP_eq_length.mp hcount b hb)
    have hsame := hback.same
    rw [parse_blocks blocks hindex] at hsame
    exact (readBlocks_same h hindex _ _).mp hsame
  · intro hread
    have hindex : ∀ b ∈ blocks, 0 ≤ b.blockIndex := fun b hb => (hread b hb).index
    rw [parse_blocks blocks hindex]
    have hsame := (readBlocks_same h hindex 0 0).mpr hread
    refine ⟨hsame, ?_⟩
    have hnumbered := readBlocks_numbered blocks 0 0
    rw [same_length hsame, ← List.range_eq_range'] at hnumbered
    exact hnumbered

theorem branch_readsBack : ReadsBack
    [⟨0, 1, 0, [some 1, none, some 2], [], [], [⟨34, "r3,44(r4)".toList⟩, ⟨5, "B2".toList⟩]⟩,
      ⟨0, 1, 1, [some 2], [some 0], [7], [⟨142, []⟩]⟩, ⟨0, 1, 2, [], [some 0, some 1], [], [⟨17, []⟩]⟩]
    (parseScheduledBlocks (splitlines (List.flatMap listBlock
      [⟨0, 1, 0, [some 1, none, some 2], [], [], [⟨34, "r3,44(r4)".toList⟩, ⟨5, "B2".toList⟩]⟩,
        ⟨0, 1, 1, [some 2], [some 0], [7], [⟨142, []⟩]⟩,
        ⟨0, 1, 2, [], [some 0, some 1], [], [⟨17, []⟩]⟩]))) := by
  refine (listing_readsBack_iff _ ?_).mpr ?_
  · simp only [List.forall_mem_cons, List.not_mem_nil, false_imp_iff, implies_true, and_true]
    exact ⟨⟨⟨by decide, by decide⟩, by decide, by decide⟩, ⟨by decide, by decide⟩, by decide, by decide⟩
  · simp only [List.forall_mem_cons, List.not_mem_nil, false_imp_iff, implies_true, and_true]
    exact ⟨⟨by decide, by decide, by decide, by decide⟩, ⟨by decide, by decide, by decide, by decide⟩,
      by decide, by decide, by decide, by decide⟩

/-- The line `    op=0x12c r3` is not read. -/
theorem unknown_opcode_lost : ∃ blocks : List PCodeBlock, (∀ b ∈ blocks, ∀ p ∈ b.pcodes, p.OneLine) ∧
    ¬ReadsBack blocks (parseScheduledBlocks (splitlines (blocks.flatMap listBlock))) := by
  refine ⟨[⟨0, 1, 0, [], [], [], [⟨300, ['r', '3']⟩, ⟨17, []⟩]⟩], ?_, ?_⟩
  · simp only [List.forall_mem_cons, List.not_mem_nil, false_imp_iff, implies_true, and_true]
    exact ⟨⟨by decide, by decide⟩, by decide, by decide⟩
  · intro hback
    exact absurd hback.numbered (by decide +kernel)

end MeleeHarness.Diagnose
