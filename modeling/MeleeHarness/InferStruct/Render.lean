import MeleeHarness.Lib.Run
import MeleeHarness.Lib.Splice
import MeleeHarness.Lib.Text

/-!
# The struct that is printed for the accesses

`coalesce` has one field for each offset, and `render_struct` prints the fields with
padding between them. A reader of the text lays its members out from offset 0.

* `coalesce_covers`: the field of an access;
* `splitlines_structText`: the text is read back line by line;
* `rendered_laid`: when every member then stands where it was observed.
-/

namespace MeleeHarness.InferStruct

open Lib

/-! ## Fields -/

inductive AccessKind where
  | f64 | f32x2 | f32 | s16 | u32 | u16 | u8
  deriving DecidableEq, Repr

structure Access where
  offset : Int
  size : Nat
  kind : AccessKind
  isLoad : Bool
  addr : Text
  deriving DecidableEq, Repr

structure Field where
  offset : Int
  size : Nat
  kinds : List AccessKind
  deriving DecidableEq, Repr

def Field.stop (f : Field) : Int := f.offset + f.size

/-- The spellings of types that are printed. -/
inductive CType where
  | f64 | f32 | f32Lanes | u32 | u16 | s16 | u8
  deriving DecidableEq, Repr

def CType.text : CType → Text
  | .f64 => "f64".toList
  | .f32 => "f32".toList
  | .f32Lanes => "f32 /*[2]*/".toList
  | .u32 => "u32".toList
  | .u16 => "u16".toList
  | .s16 => "s16".toList
  | .u8 => "u8".toList

/-- What a member of the type takes; the lanes are in a comment. -/
def CType.size : CType → Nat
  | .f64 => 8
  | .f32 | .f32Lanes | .u32 => 4
  | .u16 | .s16 => 2
  | .u8 => 1

def AccessKind.cType : AccessKind → CType
  | .f64 => .f64
  | .f32 => .f32
  | .f32x2 => .f32Lanes
  | .u32 => .u32
  | .u16 => .u16
  | .s16 => .s16
  | .u8 => .u8

def priority : List AccessKind := [.f64, .f32x2, .f32, .s16, .u32, .u16, .u8]

def Field.cType (f : Field) : CType :=
  ((priority.find? (· ∈ f.kinds)).map AccessKind.cType).getD .u8

def Field.add (f : Field) (a : Access) : Field where
  offset := f.offset
  size := max f.size a.size
  kinds := if a.kind ∈ f.kinds then f.kinds else f.kinds ++ [a.kind]

def addAccess (fields : List Field) (a : Access) : List Field :=
  if fields.any (·.offset = a.offset) then
    fields.map fun f => if f.offset = a.offset then f.add a else f
  else fields ++ [⟨a.offset, a.size, [a.kind]⟩]

def coalesce (accesses : List Access) : List Field :=
  stableSort Field.offset (accesses.foldl addAccess [])

/-! ## The text -/

inductive Line where
  | opening (name : Text)
  | unobserved
  | ending
  | negativeOffsets (least : Int)
  | pad (idx : Nat) (gap cur : Int)
  | overlap (offset cur : Int)
  | member (offset : Int) (ty : CType)
  | padEnd (gap cur stride : Int)
  | pastStride (stride cur : Int)
  | closing (size : Int)
  deriving DecidableEq, Repr

def sign (n : Int) : Text := if n < 0 then ['-'] else []

def zeroPad (width : Nat) (t : Text) : Text := List.replicate (width - t.length) '0' ++ t

/-- `{:#x}` -/
def hexInt (n : Int) : Text := sign n ++ "0x".toList ++ hex n.natAbs

/-- `{:#04x}` -/
def hexInt4 (n : Int) : Text :=
  sign n ++ "0x".toList ++ zeroPad (2 - (sign n).length) (hex n.natAbs)

/-- `{:X}` -/
def upperHex (n : Int) : Text := sign n ++ (hex n.natAbs).map Char.toUpper

def decimalInt (n : Int) : Text := sign n ++ Nat.toDigits 10 n.natAbs

def Line.text : Line → Text
  | .opening name => "struct ".toList ++ name ++ " \x7b".toList
  | .unobserved => "    /* no accesses observed */".toList
  | .ending => "\x7d;".toList
  | .negativeOffsets least =>
    "    /* WARNING: negative offsets observed (min=".toList ++ hexInt least ++ ") */".toList
  | .pad idx gap cur =>
    "    char pad_".toList ++ zeroPad 2 (hex idx) ++ "[".toList ++ hexInt gap ++ "]; /* +".toList ++
      hexInt cur ++ " */".toList
  | .overlap offset cur =>
    "    /* OVERLAP at +".toList ++ hexInt offset ++ " (prev field ended at +".toList ++ hexInt cur ++
      ") */".toList
  | .member offset ty =>
    "    /* +".toList ++ hexInt4 offset ++ " */ ".toList ++ padRight 14 ty.text ++ " x".toList ++
      upperHex offset ++ ";".toList
  | .padEnd gap cur stride =>
    "    char pad_end[".toList ++ hexInt gap ++ "]; /* +".toList ++ hexInt cur ++
      ", pads to stride ".toList ++ hexInt stride ++ " */".toList
  | .pastStride stride cur =>
    "    /* WARNING: observed accesses extend past stride ".toList ++ hexInt stride ++
      " (last end +".toList ++ hexInt cur ++ ") */".toList
  | .closing size =>
    "\x7d; /* size ".toList ++ hexInt size ++ " (".toList ++ decimalInt size ++ " bytes) */".toList

/-- What is printed before a field. -/
def fieldGap (cur : Int) (padIdx : Nat) (f : Field) : List Line :=
  if f.offset > cur then [.pad padIdx (f.offset - cur) cur]
  else if f.offset < cur then [.overlap f.offset cur]
  else []

def renderFields (cur : Int) (padIdx : Nat) : List Field → List Line
  | [] => []
  | f :: rest =>
    fieldGap cur padIdx f ++ .member f.offset f.cType ::
      renderFields f.stop (if f.offset > cur then padIdx + 1 else padIdx) rest

/-- Where the last field ends. -/
def fieldsEnd (cur : Int) : List Field → Int
  | [] => cur
  | f :: rest => fieldsEnd f.stop rest

def strideLines (cur : Int) : Option Int → List Line × Int
  | none => ([], cur)
  | some stride =>
    if stride > cur then ([.padEnd (stride - cur) cur stride], stride)
    else if stride < cur then ([.pastStride stride cur], cur)
    else ([], cur)

/-- The least offset, of fields in their order. -/
def leastOffset (first : Field) (rest : List Field) : Int :=
  (rest.map Field.offset).foldl min first.offset

def renderStruct (name : Text) (fields : List Field) (stride : Option Int) : List Line :=
  match fields with
  | [] => [.opening name, .unobserved, .ending]
  | first :: rest =>
    let least := leastOffset first rest
    let cur := if least < 0 then 0 else least
    let after := strideLines (fieldsEnd cur fields) stride
    .opening name :: ((if least < 0 then [.negativeOffsets least] else []) ++
      renderFields cur 0 fields ++ after.1) ++ [.closing after.2]

def structText (lines : List Line) : Text := (lines.flatMap fun line => line.text ++ ['\n'])

/-! ## The lines of the text -/

theorem sign_unbroken (n : Int) : Unbroken (sign n) := by
  rw [sign]
  split <;> decide

theorem hex_unbroken (n : Nat) : Unbroken (hex n) := by
  have hall : ∀ c ∈ hexAlphabet, isLineBoundary c = false := by decide
  exact fun c hc => hall c (mem_hex hc)

theorem zeroPad_unbroken {t : Text} (ht : Unbroken t) (width : Nat) : Unbroken (zeroPad width t) := by
  apply Unbroken.append _ ht
  intro c hc
  rw [List.eq_of_mem_replicate hc]
  decide

theorem hexInt_unbroken (n : Int) : Unbroken (hexInt n) :=
  ((sign_unbroken n).append (by decide)).append (hex_unbroken _)

theorem hexInt4_unbroken (n : Int) : Unbroken (hexInt4 n) :=
  ((sign_unbroken n).append (by decide)).append (zeroPad_unbroken (hex_unbroken _) _)

theorem upperHex_unbroken (n : Int) : Unbroken (upperHex n) := by
  apply (sign_unbroken n).append
  have hall : ∀ c ∈ hexAlphabet, isLineBoundary c.toUpper = false := by decide
  intro c hc
  obtain ⟨d, hd, rfl⟩ := List.mem_map.mp hc
  exact hall d (mem_hex hd)

theorem decimalInt_unbroken (n : Int) : Unbroken (decimalInt n) := by
  apply (sign_unbroken n).append
  have hall : ∀ c ∈ decimalAlphabet, isLineBoundary c = false := by decide
  exact fun c hc => hall c (mem_decimal hc)

theorem cType_unbroken (ty : CType) : Unbroken (padRight 14 ty.text) := by
  cases ty <;> decide

theorem Line.text_unbroken {l : Line} (h : ∀ name, l = .opening name → Unbroken name) :
    Unbroken l.text := by
  cases l with
  | opening name => exact (Unbroken.append (by decide) (h name rfl)).append (by decide)
  | unobserved => decide
  | ending => decide
  | negativeOffsets least => exact (Unbroken.append (by decide) (hexInt_unbroken _)).append (by decide)
  | pad idx gap cur =>
    apply Unbroken.append _ (by decide)
    apply Unbroken.append _ (hexInt_unbroken _)
    apply Unbroken.append _ (by decide)
    apply Unbroken.append _ (hexInt_unbroken _)
    apply Unbroken.append _ (by decide)
    exact Unbroken.append (by decide) (zeroPad_unbroken (hex_unbroken _) _)
  | overlap offset cur =>
    apply Unbroken.append _ (by decide)
    apply Unbroken.append _ (hexInt_unbroken _)
    apply Unbroken.append _ (by decide)
    exact Unbroken.append (by decide) (hexInt_unbroken _)
  | member offset ty =>
    apply Unbroken.append _ (by decide)
    apply Unbroken.append _ (upperHex_unbroken _)
    apply Unbroken.append _ (by decide)
    apply Unbroken.append _ (cType_unbroken _)
    apply Unbroken.append _ (by decide)
    exact Unbroken.append (by decide) (hexInt4_unbroken _)
  | padEnd gap cur stride =>
    apply Unbroken.append _ (by decide)
    apply Unbroken.append _ (hexInt_unbroken _)
    apply Unbroken.append _ (by decide)
    apply Unbroken.append _ (hexInt_unbroken _)
    apply Unbroken.append _ (by decide)
    exact Unbroken.append (by decide) (hexInt_unbroken _)
  | pastStride stride cur =>
    apply Unbroken.append _ (by decide)
    apply Unbroken.append _ (hexInt_unbroken _)
    apply Unbroken.append _ (by decide)
    exact Unbroken.append (by decide) (hexInt_unbroken _)
  | closing size =>
    apply Unbroken.append _ (by decide)
    apply Unbroken.append _ (decimalInt_unbroken _)
    apply Unbroken.append _ (by decide)
    exact Unbroken.append (by decide) (hexInt_unbroken _)

theorem renderStruct_opening {name name' : Text} {fields : List Field} {stride : Option Int}
    (h : .opening name' ∈ renderStruct name fields stride) : name' = name := by
  have hfields : ∀ (fields : List Field) (cur : Int) (padIdx : Nat),
      .opening name' ∉ renderFields cur padIdx fields := by
    intro fields
    induction fields with
    | nil => simp [renderFields]
    | cons f rest ih =>
      intro cur padIdx
      rw [renderFields, fieldGap]
      split_ifs <;> simp [ih]
  have hstride (cur : Int) : .opening name' ∉ (strideLines cur stride).1 := by
    cases stride with
    | none => exact List.not_mem_nil
    | some n =>
      rw [strideLines]
      split_ifs <;> simp
  cases fields with
  | nil => simpa [renderStruct] using h
  | cons first rest =>
    simp only [renderStruct] at h
    split_ifs at h <;> simpa [hfields, hstride] using h

/-- A reader of the text finds the lines again. -/
theorem splitlines_structText {name : Text} (hname : Unbroken name) (fields : List Field)
    (stride : Option Int) : splitlines (structText (renderStruct name fields stride)) =
      (renderStruct name fields stride).map Line.text := by
  have hlines : ∀ l ∈ renderStruct name fields stride, Unbroken l.text := by
    intro l hl
    apply Line.text_unbroken
    rintro name' rfl
    rw [renderStruct_opening hl]
    exact hname
  generalize renderStruct name fields stride = lines at hlines ⊢
  induction lines with
  | nil => rfl
  | cons l rest ih =>
    rw [List.forall_mem_cons] at hlines
    have htext : structText (l :: rest) = l.text ++ '\n' :: structText rest := by
      simp [structText]
    rw [htext, splitlines_unbroken_newline hlines.1, ih hlines.2, List.map_cons]

/-! ## The layout -/

/-- What a line adds to the struct. -/
def Line.extent : Line → Int
  | .pad _ gap _ | .padEnd gap _ _ => gap
  | .member _ ty => ty.size
  | _ => 0

/-- The members by the offset in their name, with the place where they come to stand. -/
def placed (pos : Int) : List Line → List (Int × Int)
  | [] => []
  | line :: rest =>
    match line with
    | .member offset _ => (offset, pos) :: placed (pos + line.extent) rest
    | _ => placed (pos + line.extent) rest

def total (pos : Int) (lines : List Line) : Int := lines.foldl (fun pos line => pos + line.extent) pos

/-- Every member stands at its offset, and the size that is printed is that of the layout
and covers the accesses. -/
structure Laid (lines : List Line) (accesses : List Access) : Prop where
  members : ∀ m ∈ placed 0 lines, m.2 = m.1
  size : ∃ size, lines.getLast? = some (.closing size) ∧ size = total 0 lines ∧
    ∀ a ∈ accesses, a.offset + a.size ≤ size

/-- No field begins before the one before it ends. -/
def Separate (fields : List Field) : Prop := fields.Pairwise fun f g => f.stop ≤ g.offset

/-! ## What coalesces -/

theorem mem_addAccess {fields : List Field} {a : Access} {f : Field} (h : f ∈ addAccess fields a) :
    f.offset = a.offset ∨ f ∈ fields := by
  rw [addAccess] at h
  split at h
  · obtain ⟨g, hg, rfl⟩ := List.mem_map.mp h
    by_cases hoffset : g.offset = a.offset
    · rw [if_pos hoffset]
      exact .inl hoffset
    · rw [if_neg hoffset]
      exact .inr hg
  · rcases List.mem_append.mp h with h | h
    · exact .inr h
    · rw [List.mem_singleton.mp h]
      exact .inl rfl

/-- Fields only grow. -/
theorem addAccess_keeps {fields : List Field} {f : Field} (h : f ∈ fields) (a : Access) :
    ∃ g ∈ addAccess fields a, g.offset = f.offset ∧ f.size ≤ g.size := by
  rw [addAccess]
  split
  · refine ⟨_, List.mem_map_of_mem h, ?_⟩
    by_cases hoffset : f.offset = a.offset
    · rw [if_pos hoffset]
      exact ⟨rfl, Nat.le_max_left _ _⟩
    · rw [if_neg hoffset]
      exact ⟨rfl, Nat.le_refl _⟩
  · exact ⟨f, List.mem_append_left _ h, rfl, Nat.le_refl _⟩

theorem addAccess_takes (fields : List Field) (a : Access) :
    ∃ f ∈ addAccess fields a, f.offset = a.offset ∧ a.size ≤ f.size := by
  rw [addAccess]
  split
  · rename_i hany
    obtain ⟨f, hf, hoffset⟩ := List.any_eq_true.mp hany
    have hoffset : f.offset = a.offset := of_decide_eq_true hoffset
    refine ⟨_, List.mem_map_of_mem hf, ?_⟩
    rw [if_pos hoffset]
    exact ⟨hoffset, Nat.le_max_right _ _⟩
  · exact ⟨_, List.mem_append_right _ (List.mem_singleton_self _), rfl, Nat.le_refl _⟩

/-- The fields that have been collected are those of the accesses so far. -/
structure Collected (accesses : List Access) (fields : List Field) : Prop where
  covers : ∀ a ∈ accesses, ∃ f ∈ fields, f.offset = a.offset ∧ a.size ≤ f.size
  offsets : ∀ f ∈ fields, ∃ a ∈ accesses, a.offset = f.offset

theorem collected (accesses : List Access) : Collected accesses (accesses.foldl addAccess []) := by
  apply foldl_invariant Collected
  · exact ⟨by simp, by simp⟩
  · intro seen fields a hseen
    refine ⟨?_, ?_⟩
    · intro b hb
      rcases List.mem_append.mp hb with hb | hb
      · obtain ⟨f, hf, hoffset, hsize⟩ := hseen.covers b hb
        obtain ⟨g, hg, hgoffset, hgsize⟩ := addAccess_keeps hf a
        exact ⟨g, hg, hgoffset.trans hoffset, hsize.trans hgsize⟩
      · rw [List.mem_singleton.mp hb]
        exact addAccess_takes fields a
    · intro f hf
      rcases mem_addAccess hf with hoffset | hf
      · exact ⟨a, by simp, hoffset.symm⟩
      · obtain ⟨b, hb, hoffset⟩ := hseen.offsets f hf
        exact ⟨b, List.mem_append_left _ hb, hoffset⟩

theorem mem_coalesce {accesses : List Access} {f : Field} :
    f ∈ coalesce accesses ↔ f ∈ accesses.foldl addAccess [] :=
  (List.perm_insertionSort _ _).mem_iff

/-- The field of an access holds it. -/
theorem coalesce_covers {accesses : List Access} {a : Access} (h : a ∈ accesses) :
    ∃ f ∈ coalesce accesses, f.offset = a.offset ∧ a.size ≤ f.size := by
  obtain ⟨f, hf, hfield⟩ := (collected accesses).covers a h
  exact ⟨f, mem_coalesce.mpr hf, hfield⟩

theorem coalesce_offset {accesses : List Access} {f : Field} (h : f ∈ coalesce accesses) :
    ∃ a ∈ accesses, a.offset = f.offset :=
  (collected accesses).offsets f (mem_coalesce.mp h)

/-! ## Where members come to stand -/

theorem placed_append (pos : Int) (a b : List Line) :
    placed pos (a ++ b) = placed pos a ++ placed (total pos a) b := by
  induction a generalizing pos with
  | nil => rfl
  | cons line a ih =>
    cases line with
    | member offset ty =>
      simp only [List.cons_append, placed, ih]
      rfl
    | _ =>
      simp only [List.cons_append, placed, ih]
      rfl

theorem total_append (pos : Int) (a b : List Line) : total pos (a ++ b) = total (total pos a) b :=
  List.foldl_append

/-- Padding brings the next member to its offset, as far as the cursor is right. -/
theorem fieldGap_total {cur : Int} {f : Field} (h : cur ≤ f.offset) (pos : Int) (padIdx : Nat) :
    placed pos (fieldGap cur padIdx f) = [] ∧
      total pos (fieldGap cur padIdx f) = pos + (f.offset - cur) := by
  rw [fieldGap]
  by_cases hgap : f.offset > cur
  · rw [if_pos hgap]
    exact ⟨rfl, rfl⟩
  · have heq : f.offset = cur := by omega
    rw [if_neg hgap, if_neg (by omega), heq, Int.sub_self, Int.add_zero]
    exact ⟨rfl, rfl⟩

theorem placed_renderFields {cur : Int} {f : Field} {rest : List Field} (h : cur ≤ f.offset)
    (pos : Int) (padIdx : Nat) :
    placed pos (renderFields cur padIdx (f :: rest)) =
      (f.offset, pos + (f.offset - cur)) ::
        placed (pos + (f.offset - cur) + f.cType.size)
          (renderFields f.stop (if f.offset > cur then padIdx + 1 else padIdx) rest) := by
  obtain ⟨hplaced, htotal⟩ := fieldGap_total h pos padIdx
  rw [renderFields, placed_append, hplaced, htotal]
  rfl

theorem total_renderFields {cur : Int} {f : Field} {rest : List Field} (h : cur ≤ f.offset)
    (pos : Int) (padIdx : Nat) :
    total pos (renderFields cur padIdx (f :: rest)) =
      total (pos + (f.offset - cur) + f.cType.size)
        (renderFields f.stop (if f.offset > cur then padIdx + 1 else padIdx) rest) := by
  obtain ⟨-, htotal⟩ := fieldGap_total h pos padIdx
  rw [renderFields, total_append, htotal]
  rfl

theorem Separate.le {f g : Field} {rest : List Field} (h : Separate (f :: rest)) (hg : g ∈ rest) :
    f.stop ≤ g.offset :=
  List.rel_of_pairwise_cons h hg

/-- Members stand at their offsets and the cursor ends where they do, if and only if it
starts where they do and each takes what was observed. -/
theorem renderFields_laid {cur pos : Int} {fields : List Field} (hseparate : Separate fields)
    (hcur : ∀ f ∈ fields, cur ≤ f.offset) (padIdx : Nat) :
    ((∀ m ∈ placed pos (renderFields cur padIdx fields), m.2 = m.1) ∧
        total pos (renderFields cur padIdx fields) = fieldsEnd cur fields) ↔
      pos = cur ∧ ∀ f ∈ fields, f.cType.size = f.size := by
  induction fields generalizing cur pos padIdx with
  | nil => simp [renderFields, placed, total, fieldsEnd]
  | cons f rest ih =>
    have hf : cur ≤ f.offset := hcur f List.mem_cons_self
    rw [placed_renderFields hf, total_renderFields hf, List.forall_mem_cons, List.forall_mem_cons,
      fieldsEnd, and_assoc, ih (List.Pairwise.of_cons hseparate) fun g hg => hseparate.le hg]
    rw [Field.stop]
    constructor
    · rintro ⟨hplace, hcursor, hrest⟩
      exact ⟨by omega, by omega, hrest⟩
    · rintro ⟨rfl, hsize, hrest⟩
      exact ⟨by omega, by omega, hrest⟩

/-- Padding to the stride moves the cursor and the members' end alike. -/
theorem strideLines_total (pos cur : Int) (stride : Option Int) :
    placed pos (strideLines cur stride).1 = [] ∧
      (total pos (strideLines cur stride).1 = (strideLines cur stride).2 ↔ pos = cur) ∧
      cur ≤ (strideLines cur stride).2 := by
  cases stride with
  | none => exact ⟨rfl, Iff.rfl, le_refl _⟩
  | some stride =>
    rw [strideLines]
    by_cases hgap : stride > cur
    · rw [if_pos hgap]
      refine ⟨rfl, ?_, by omega⟩
      change pos + (stride - cur) = stride ↔ _
      constructor <;> intro h <;> omega
    · rw [if_neg hgap]
      by_cases hpast : stride < cur
      · rw [if_pos hpast]
        refine ⟨rfl, ?_, le_refl _⟩
        change pos + 0 = cur ↔ _
        rw [Int.add_zero]
      · rw [if_neg hpast]
        exact ⟨rfl, Iff.rfl, le_refl _⟩

theorem leastOffset_eq {f : Field} {rest : List Field} (h : Separate (f :: rest)) :
    leastOffset f rest = f.offset := by
  have hall : ∀ x ∈ rest.map Field.offset, f.offset ≤ x := by
    intro x hx
    obtain ⟨g, hg, rfl⟩ := List.mem_map.mp hx
    have hstop := h.le hg
    rw [Field.stop] at hstop
    omega
  rw [leastOffset]
  generalize rest.map Field.offset = xs at hall
  induction xs with
  | nil => rfl
  | cons x xs ih =>
    rw [List.foldl_cons, min_eq_left (hall x List.mem_cons_self)]
    exact ih fun y hy => hall y (List.mem_cons_of_mem _ hy)

theorem le_fieldsEnd {cur : Int} {fields : List Field} (h : Separate fields)
    (hcur : ∀ f ∈ fields, cur ≤ f.offset) : cur ≤ fieldsEnd cur fields := by
  induction fields generalizing cur with
  | nil => exact le_refl _
  | cons f rest ih =>
    have hstop := ih (List.Pairwise.of_cons h) fun g hg => h.le hg
    have hf := hcur f List.mem_cons_self
    rw [fieldsEnd]
    rw [Field.stop] at hstop ⊢
    omega

theorem stop_le_fieldsEnd {cur : Int} {fields : List Field} (h : Separate fields) {f : Field}
    (hf : f ∈ fields) : f.stop ≤ fieldsEnd cur fields := by
  induction fields generalizing cur with
  | nil => cases hf
  | cons g rest ih =>
    rw [fieldsEnd]
    rcases List.mem_cons.mp hf with rfl | hf
    · exact le_fieldsEnd (List.Pairwise.of_cons h) fun g hg => h.le hg
    · exact ih (List.Pairwise.of_cons h) hf

/-- The accesses end before the size that is printed. -/
theorem access_le_end {accesses : List Access} (h : Separate (coalesce accesses)) (cur : Int)
    (stride : Option Int) {a : Access} (ha : a ∈ accesses) :
    a.offset + a.size ≤ (strideLines (fieldsEnd cur (coalesce accesses)) stride).2 := by
  obtain ⟨f, hf, hoffset, hsize⟩ := coalesce_covers ha
  have hstop : f.stop ≤ fieldsEnd cur (coalesce accesses) := stop_le_fieldsEnd h hf
  have hstride := (strideLines_total 0 (fieldsEnd cur (coalesce accesses)) stride).2.2
  rw [Field.stop] at hstop
  omega

/-- The lines of a struct whose offsets are not negative. -/
theorem renderStruct_eq {f : Field} {rest : List Field} (hseparate : Separate (f :: rest))
    (hf : 0 ≤ f.offset) (name : Text) (stride : Option Int) :
    renderStruct name (f :: rest) stride =
      [.opening name] ++ (renderFields f.offset 0 (f :: rest) ++
        (strideLines (fieldsEnd f.offset (f :: rest)) stride).1) ++
        [.closing (strideLines (fieldsEnd f.offset (f :: rest)) stride).2] := by
  have hleast : ¬f.offset < 0 := by omega
  simp only [renderStruct, leastOffset_eq hseparate, if_neg hleast]
  rfl

/-- **The layout.** The members of the struct stand where they were observed, and its size
is the one that is printed, if and only if offset 0 was observed and every field takes
what its type takes. -/
theorem rendered_laid {accesses : List Access} (hne : accesses ≠ [])
    (hoffsets : ∀ a ∈ accesses, 0 ≤ a.offset) (hseparate : Separate (coalesce accesses))
    (name : Text) (stride : Option Int) :
    Laid (renderStruct name (coalesce accesses) stride) accesses ↔
      (∃ a ∈ accesses, a.offset = 0) ∧ ∀ f ∈ coalesce accesses, f.cType.size = f.size := by
  have hend : ∀ cur, ∀ a ∈ accesses, a.offset + a.size ≤ _ :=
    fun cur a ha => access_le_end hseparate cur stride ha
  have hfields : ∀ f ∈ coalesce accesses, ∃ a ∈ accesses, a.offset = f.offset := fun f => coalesce_offset
  have hcovers : ∀ a ∈ accesses, ∃ f ∈ coalesce accesses, f.offset = a.offset ∧ a.size ≤ f.size :=
    fun a => coalesce_covers
  generalize coalesce accesses = fields at hseparate hend hfields hcovers
  cases fields with
  | nil =>
    obtain ⟨a, ha⟩ := List.exists_mem_of_ne_nil _ hne
    obtain ⟨f, hf, -⟩ := hcovers a ha
    cases hf
  | cons f rest =>
    obtain ⟨a, ha, hoffset⟩ := hfields f List.mem_cons_self
    have hf : 0 ≤ f.offset := hoffset ▸ hoffsets a ha
    have hleast : ∀ g ∈ f :: rest, f.offset ≤ g.offset := by
      intro g hg
      rcases List.mem_cons.mp hg with rfl | hg
      · exact le_refl _
      · have hstop := hseparate.le hg
        rw [Field.stop] at hstop
        omega
    have hzero : (∃ a ∈ accesses, a.offset = 0) ↔ 0 = f.offset := by
      constructor
      · rintro ⟨b, hb, hbzero⟩
        obtain ⟨g, hg, hgoffset, -⟩ := hcovers b hb
        have hle := hleast g hg
        omega
      · intro hzero
        exact ⟨a, ha, by omega⟩
    have hlaid := @renderFields_laid f.offset 0 (f :: rest) hseparate hleast 0
    obtain ⟨hnone, htotal, -⟩ := strideLines_total (total 0 (renderFields f.offset 0 (f :: rest)))
      (fieldsEnd f.offset (f :: rest)) stride
    have hplaced : placed 0 (renderStruct name (f :: rest) stride) =
        placed 0 (renderFields f.offset 0 (f :: rest)) := by
      rw [renderStruct_eq hseparate hf, placed_append, placed_append, placed_append]
      change placed 0 _ ++ placed (total 0 _) _ ++ [] = _
      rw [hnone, List.append_nil, List.append_nil]
    have hsize : total 0 (renderStruct name (f :: rest) stride) =
        total (total 0 (renderFields f.offset 0 (f :: rest)))
          (strideLines (fieldsEnd f.offset (f :: rest)) stride).1 := by
      rw [renderStruct_eq hseparate hf, total_append, total_append, total_append]
      exact Int.add_zero _
    have hlast : (renderStruct name (f :: rest) stride).getLast? =
        some (.closing (strideLines (fieldsEnd f.offset (f :: rest)) stride).2) := by
      rw [renderStruct_eq hseparate hf, List.getLast?_concat]
    rw [hzero, ← hlaid, ← htotal, ← hsize, ← hplaced]
    constructor
    · rintro ⟨hmembers, size, hclosing, hequal, -⟩
      rw [hlast] at hclosing
      cases hclosing
      exact ⟨hmembers, hequal.symm⟩
    · rintro ⟨hmembers, hequal⟩
      exact ⟨hmembers, _, hlast, hequal.symm, hend f.offset⟩

/-- A word at 0 and a float behind it. -/
theorem word_and_float_laid :
    Laid (renderStruct "S".toList (coalesce [⟨0, 4, .u32, true, []⟩, ⟨4, 4, .f32, true, []⟩]) none)
      [⟨0, 4, .u32, true, []⟩, ⟨4, 4, .f32, true, []⟩] := by
  refine (rendered_laid (by simp) (by decide) ?_ _ _).mpr ⟨⟨_, List.mem_cons_self, rfl⟩, ?_⟩
  · exact .cons (by decide) (.cons (by decide) .nil)
  · decide

/-- A half word and a word at 0: the type is that of the half word, and the word behind
them comes to stand at 2. -/
theorem halfword_and_word_misplaced :
    Separate (coalesce [⟨0, 2, .s16, true, []⟩, ⟨0, 4, .u32, true, []⟩, ⟨4, 4, .u32, true, []⟩]) ∧
      ¬Laid (renderStruct "S".toList
        (coalesce [⟨0, 2, .s16, true, []⟩, ⟨0, 4, .u32, true, []⟩, ⟨4, 4, .u32, true, []⟩]) none)
        [⟨0, 2, .s16, true, []⟩, ⟨0, 4, .u32, true, []⟩, ⟨4, 4, .u32, true, []⟩] := by
  refine ⟨.cons (by decide) (.cons (by decide) .nil), ?_⟩
  intro h
  have hword := h.members (4, 2) (by decide)
  cases hword

end MeleeHarness.InferStruct
