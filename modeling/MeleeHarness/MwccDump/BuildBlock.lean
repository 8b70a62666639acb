import MeleeHarness.Lib.Regex
import MeleeHarness.NinjaCompile.BuildEdge

/-!
# The flags of an instrumented compilation

`mwcc_dump` has a `find_build_block` of its own. It cuts `build.ninja` as the one of
`ninja_compile` does, but takes the first place where a name is set instead of the last line
that binds it.

* `findBuildBlock_same_iff`: when both return the same flags and compiler.
-/

namespace MeleeHarness.MwccDump

open Lib NinjaCompile

/-- What a search finds at the first place where a word can start. -/
def searchWord (found : Text → Option Text) : Bool → Text → Option Text
  | _, [] => none
  | inWord, c :: rest =>
    match if inWord then none else found (c :: rest) with
    | some group => some group
    | none => searchWord found (Regex.wordChar c) rest

/-- `name = (.*)` -/
def settingAt (name t : Text) : Option Text :=
  if (name ++ " = ".toList).isPrefixOf t then some (t.drop (name.length + 3)) else none

/-- `name = (\S+)` -/
def tokenAt (name t : Text) : Option Text :=
  match settingAt name t with
  | some rest => if rest.takeWhile (!isSpace ·) = [] then none else some (rest.takeWhile (!isSpace ·))
  | none => none

/-- `re.search(r"\bname = (.*)", block)` -/
def firstSetting (name : Text) (block : List Text) : Option Text :=
  block.findSome? (searchWord (settingAt name) false)

/-- `re.search(r"\bname = (\S+)", block)` -/
def firstToken (name : Text) (block : List Text) : Option Text :=
  block.findSome? (searchWord (tokenAt name) false)

inductive DumpError where
  | systemExit
  /-- `AttributeError`: the search found nothing -/
  | attribute
  deriving DecidableEq, Repr

/-- `f"build/GALE01/{src[:-2]}.o"` -/
def dumpTarget (src : Text) : Text :=
  "build/GALE01/".toList ++ src.take (src.length - 2) ++ ".o".toList

def findBuildBlock (text src : Text) : Except DumpError (Text × Text) :=
  match edgeBlock (dumpTarget src) ((unfoldContinuations text).splitOn '\n') with
  | none => .error .systemExit
  | some block =>
    match firstSetting cflagsName block, firstToken mwVersionName block with
    | some cflags, some mw => .ok (strip cflags, strip mw)
    | _, _ => .error .attribute

/-- The path of a unit's source. -/
def unitSource (unit : Text) : Text := "src/".toList ++ unit ++ ".c".toList

theorem dumpTarget_unitSource (unit : Text) : dumpTarget (unitSource unit) = objTarget unit := by
  have htake : (unitSource unit).take ((unitSource unit).length - 2) = "src/".toList ++ unit := by
    have hlen : (unitSource unit).length - 2 = ("src/".toList ++ unit).length := by
      unfold unitSource
      simp
    rw [hlen]
    unfold unitSource
    rw [List.take_left]
  have hpath : "build/GALE01/src/".toList = "build/GALE01/".toList ++ "src/".toList := by decide
  unfold dumpTarget objTarget
  rw [htake, hpath, List.append_assoc "build/GALE01/".toList "src/".toList unit]

/-! ## The first setting of a word -/

/-- On the line, `name = ` stands at a word boundary between `front` and `rest`. -/
def SetAt (name front rest line : Text) : Prop :=
  line = front ++ name ++ " = ".toList ++ rest ∧ front.getLast?.any Regex.wordChar = false

/-- The first such place on the line whose rest counts. -/
def FirstSet (counts : Text → Text → Prop) (name line value : Text) : Prop :=
  ∃ front rest, SetAt name front rest line ∧ counts rest value ∧
    ∀ front' rest' value', SetAt name front' rest' line → front'.length < front.length →
      ¬counts rest' value'

/-- The word at the start. -/
def FirstWord (rest word : Text) : Prop := word = rest.takeWhile (!isSpace ·) ∧ word ≠ []

/-- In the text of an edge, the first place where a word `cflags` is set has the value of the
last line that binds `cflags`, and the first such place of `mw_version` that a word follows has
just the value of the last line that binds it. -/
structure SameSettings (block : List Text) : Prop where
  cflags : ∃ rest, FirstHit (fun _ => FirstSet (· = ·) cflagsName) block rest ∧
    LastHit (Sets cflagsName) block (strip rest)
  mwVersion : ∃ word, FirstHit (fun _ => FirstSet FirstWord mwVersionName) block word ∧
    LastHit (Sets mwVersionName) block word

theorem searchWord_iff {found : Text → Option Text} {inWord : Bool} {t group : Text} (hnil : found [] = none) :
    searchWord found inWord t = some group ↔ ∃ front back, t = front ++ back ∧
      (front.getLast?.map Regex.wordChar).getD inWord = false ∧ found back = some group ∧
        ∀ front' back', t = front' ++ back' → front'.length < front.length →
          (front'.getLast?.map Regex.wordChar).getD inWord = false → found back' = none := by
  induction t generalizing inWord with
  | nil =>
    refine iff_of_false (by simp [searchWord]) ?_
    rintro ⟨front, back, h, -, hfound, -⟩
    obtain ⟨-, rfl⟩ := List.append_eq_nil_iff.mp h.symm
    rw [hnil] at hfound
    cases hfound
  | cons c rest ih =>
    have hlast (front : Text) : ((c :: front).getLast?.map Regex.wordChar).getD inWord =
        (front.getLast?.map Regex.wordChar).getD (Regex.wordChar c) := by
      rw [List.getLast?_cons]
      cases front.getLast? <;> rfl
    rw [searchWord]
    cases hhere : (if inWord = true then none else found (c :: rest)) with
    | some here =>
      have hword : inWord = false ∧ found (c :: rest) = some here := by
        cases inWord <;> simp_all
      constructor
      · intro h
        obtain rfl := Option.some.inj h
        exact ⟨[], c :: rest, rfl, hword.1, hword.2, by simp⟩
      · rintro ⟨front, back, hsplit, -, hfound, hearlier⟩
        cases front with
        | nil =>
          obtain rfl : c :: rest = back := hsplit
          rw [← hfound, hword.2]
        | cons d front =>
          have hnone := hearlier [] (c :: rest) rfl (by simp) hword.1
          rw [hword.2] at hnone
          cases hnone
    | none =>
      simp only [ih]
      constructor
      · rintro ⟨front, back, rfl, hedge, hfound, hearlier⟩
        refine ⟨c :: front, back, rfl, (hlast front).trans hedge, hfound, ?_⟩
        intro front' back' hsplit hlength hedge'
        cases front' with
        | nil =>
          obtain rfl : c :: (front ++ back) = back' := hsplit
          obtain rfl : inWord = false := hedge'
          exact hhere
        | cons d front' =>
          obtain ⟨rfl, hrest⟩ := List.cons.inj hsplit
          exact hearlier front' back' hrest (Nat.lt_of_succ_lt_succ hlength) ((hlast front').symm.trans hedge')
      · rintro ⟨front, back, hsplit, hedge, hfound, hearlier⟩
        cases front with
        | nil =>
          obtain rfl : c :: rest = back := hsplit
          obtain rfl : inWord = false := hedge
          rw [if_neg (by decide), hfound] at hhere
          cases hhere
        | cons d front =>
          obtain ⟨rfl, rfl⟩ := List.cons.inj hsplit
          refine ⟨front, back, rfl, (hlast front).symm.trans hedge, hfound, ?_⟩
          intro front' back' hsplit' hlength hedge'
          apply hearlier (c :: front') back' (by rw [hsplit']; rfl) (Nat.succ_lt_succ hlength)
          exact (hlast front').trans hedge'

/-- A search finds the first place that counts. -/
theorem firstSet_iff {counts : Text → Text → Prop} {name : Text} {found : Text → Option Text}
    (hname : name ≠ []) (hfound : ∀ t value, found t = some value ↔
      ∃ rest, t = name ++ " = ".toList ++ rest ∧ counts rest value) (line value : Text) :
    searchWord found false line = some value ↔ FirstSet counts name line value := by
  have hnil : found [] = none := by
    rw [Option.eq_none_iff_forall_ne_some]
    intro value h
    obtain ⟨rest, hsplit, -⟩ := (hfound [] value).mp h
    simp [hname] at hsplit
  have hedge (front : Text) : (front.getLast?.map Regex.wordChar).getD false =
      front.getLast?.any Regex.wordChar := by
    cases front.getLast? <;> rfl
  rw [searchWord_iff hnil]
  constructor
  · rintro ⟨front, back, rfl, hfront, hback, hearlier⟩
    obtain ⟨rest, rfl, hcounts⟩ := (hfound back value).mp hback
    refine ⟨front, rest, ⟨by simp, (hedge front).symm.trans hfront⟩, hcounts, ?_⟩
    rintro front' rest' value' ⟨hsplit, hfront'⟩ hlength hcounts'
    have hnone := hearlier front' (name ++ " = ".toList ++ rest') (by rw [hsplit]; simp) hlength
      ((hedge front').trans hfront')
    rw [(hfound _ value').mpr ⟨rest', rfl, hcounts'⟩] at hnone
    cases hnone
  · rintro ⟨front, rest, ⟨rfl, hfront⟩, hcounts, hearlier⟩
    refine ⟨front, name ++ " = ".toList ++ rest, by simp, (hedge front).trans hfront,
      (hfound _ value).mpr ⟨rest, rfl, hcounts⟩, ?_⟩
    intro front' back' hsplit hlength hfront'
    rw [Option.eq_none_iff_forall_ne_some]
    intro value' h
    obtain ⟨rest', rfl, hcounts'⟩ := (hfound back' value').mp h
    have hat : SetAt name front' rest' (front ++ name ++ " = ".toList ++ rest) :=
      ⟨by rw [hsplit]; simp, (hedge front').symm.trans hfront'⟩
    exact hearlier front' rest' value' hat hlength hcounts'

theorem settingAt_iff (name t value : Text) :
    settingAt name t = some value ↔ ∃ rest, t = name ++ " = ".toList ++ rest ∧ rest = value := by
  rw [settingAt]
  constructor
  · intro h
    split at h
    · rename_i hprefix
      obtain ⟨rest, rfl⟩ := List.isPrefixOf_iff_prefix.mp hprefix
      have hdrop : (name ++ " = ".toList ++ rest).drop (name.length + 3) = rest :=
        List.drop_left' (by simp)
      rw [hdrop] at h
      exact ⟨rest, rfl, Option.some.inj h⟩
    · cases h
  · rintro ⟨rest, rfl, rfl⟩
    have hdrop : (name ++ " = ".toList ++ rest).drop (name.length + 3) = rest :=
      List.drop_left' (by simp)
    rw [if_pos (List.isPrefixOf_iff_prefix.mpr (List.prefix_append _ _)), hdrop]

theorem tokenAt_iff (name t value : Text) :
    tokenAt name t = some value ↔ ∃ rest, t = name ++ " = ".toList ++ rest ∧ FirstWord rest value := by
  rw [tokenAt]
  cases hsetting : settingAt name t with
  | none =>
    refine iff_of_false (by simp) ?_
    rintro ⟨rest, hsplit, -⟩
    rw [(settingAt_iff name t rest).mpr ⟨rest, hsplit, rfl⟩] at hsetting
    cases hsetting
  | some rest =>
    obtain ⟨_, rfl, rfl⟩ := (settingAt_iff name t rest).mp hsetting
    simp only [List.append_cancel_left_eq, exists_eq_left', FirstWord]
    split_ifs with hword
    · simp [hword]
    · rw [Option.some.injEq]
      exact ⟨fun h => h ▸ ⟨rfl, hword⟩, fun h => h.1.symm⟩

theorem firstSetting_iff {name : Text} (hname : name ≠ []) (block : List Text) (rest : Text) :
    firstSetting name block = some rest ↔ FirstHit (fun _ => FirstSet (· = ·) name) block rest :=
  (firstHit_iff (firstSet_iff hname (settingAt_iff name))).symm

theorem firstToken_iff {name : Text} (hname : name ≠ []) (block : List Text) (word : Text) :
    firstToken name block = some word ↔ FirstHit (fun _ => FirstSet FirstWord name) block word :=
  (firstHit_iff (firstSet_iff hname (tokenAt_iff name))).symm

/-- A word has no white space to strip. -/
theorem strip_firstWord {rest word : Text} (h : FirstWord rest word) : strip word = word := by
  have hsolid : ∀ c ∈ word, isSpace c = false := by
    intro c hc
    rw [h.1] at hc
    simpa using List.mem_takeWhile_imp hc
  have hr : rstrip word = word := by
    rw [rstrip, List.rdropWhile_eq_self_iff]
    intro hne
    rw [hsolid _ (List.getLast_mem hne)]
    decide
  rw [strip, hr, lstrip]
  cases word with
  | nil => rfl
  | cons c word => simp [hsolid c List.mem_cons_self]

theorem strip_firstToken {name word : Text} {block : List Text}
    (h : FirstHit (fun _ => FirstSet FirstWord name) block word) : strip word = word := by
  obtain ⟨-, line, -, -, hset, -⟩ := h
  obtain ⟨-, rest, -, hword, -⟩ := hset
  exact strip_firstWord hword

/-! ## The same flags -/

theorem vars_of_ok {text objPath : Text} {found : FoundBlock}
    (h : NinjaCompile.findBuildBlock text objPath = .ok found) :
    ∃ block, edgeBlock (objTarget objPath) ((unfoldContinuations text).splitOn '\n') = some block ∧
      lookupLast mwVersionName (assignments false block) = some found.mwVersion ∧
      lookupLast cflagsName (assignments false block) = some found.cflags := by
  rw [NinjaCompile.findBuildBlock] at h
  split at h
  · cases h
  · rename_i block hblock
    refine ⟨block, hblock, ?_⟩
    rw [readBlock] at h
    split at h
    · cases h
    · split at h
      · cases h
      · cases h
      · rw [readVars] at h
        split at h
        · cases h
        · cases h
        · rename_i hmw hcflags
          cases h
          exact ⟨hmw, hcflags⟩

/-- Both tools compile a unit with the same flags exactly if the first settings are the last. -/
theorem findBuildBlock_same_iff {text unit : Text} {found : FoundBlock}
    (h : NinjaCompile.findBuildBlock text unit = .ok found) :
    findBuildBlock text (unitSource unit) = .ok (found.cflags, found.mwVersion) ↔
      ∃ block, edgeBlock (objTarget unit) ((unfoldContinuations text).splitOn '\n') = some block ∧
        SameSettings block := by
  obtain ⟨block, hblock, hmw, hcflags⟩ := vars_of_ok h
  have hlastMw (value : Text) : LastHit (Sets mwVersionName) block value ↔ found.mwVersion = value := by
    rw [← lookupLast_some_iff Ninja.isIdent_mwVersion, hmw, Option.some.injEq]
  have hlastCflags (value : Text) : LastHit (Sets cflagsName) block value ↔ found.cflags = value := by
    rw [← lookupLast_some_iff Ninja.isIdent_cflags, hcflags, Option.some.injEq]
  rw [findBuildBlock, dumpTarget_unitSource, hblock]
  simp only [Option.some.injEq, exists_eq_left']
  constructor
  · intro hsame
    split at hsame
    · rename_i rest word hrest hword
      obtain ⟨hc, hm⟩ := Prod.mk.inj (Except.ok.inj hsame)
      have hfirst := (firstToken_iff (by decide) block word).mp hword
      rw [strip_firstToken hfirst] at hm
      constructor
      · exact ⟨rest, (firstSetting_iff (by decide) block rest).mp hrest, (hlastCflags _).mpr hc.symm⟩
      · exact ⟨word, hfirst, (hlastMw _).mpr hm.symm⟩
    · cases hsame
  · rintro ⟨⟨rest, hrest, hc⟩, word, hword, hm⟩
    rw [(firstSetting_iff (by decide) block rest).mpr hrest,
      (firstToken_iff (by decide) block word).mpr hword]
    simp only [strip_firstToken hword, (hlastCflags _).mp hc, (hlastMw _).mp hm]

/-- An edge whose settings stand once each. -/
def plainBlock : FoundBlock :=
  ⟨⟨"mwcc".toList, "GC/1.2.5n".toList, "-O4,p -inline auto".toList, none⟩, "src/a.c".toList⟩

def plainLines : List Text :=
  ["build/GALE01/src/a.o: mwcc src/a.c |      t.h".toList, "  mw_version = GC/1.2.5n".toList,
    "  # flags".toList, "  cflags = -O4,p -inline auto".toList, []]

theorem plainText_same :
    NinjaCompile.findBuildBlock Ninja.plainText "a".toList = .ok plainBlock ∧
      findBuildBlock Ninja.plainText (unitSource "a".toList) =
        .ok (plainBlock.cflags, plainBlock.mwVersion) := by
  have hfound : NinjaCompile.findBuildBlock Ninja.plainText "a".toList = .ok plainBlock := by
    unfold Ninja.plainText
    rw [String.toList_append, toList_literal rfl, toList_literal rfl]
    decide +kernel
  refine ⟨hfound, (findBuildBlock_same_iff hfound).mpr ?_⟩
  refine ⟨plainLines, ?_, ⟨plainBlock.cflags, ?_, ?_⟩, plainBlock.mwVersion, ?_, ?_⟩
  · unfold Ninja.plainText
    rw [String.toList_append, toList_literal rfl, toList_literal rfl]
    decide +kernel
  · exact (firstSetting_iff (by decide) plainLines _).mp (by decide +kernel)
  · exact (lookupLast_some_iff Ninja.isIdent_cflags).mp (by decide +kernel)
  · exact (firstToken_iff (by decide) plainLines _).mp (by decide +kernel)
  · exact (lookupLast_some_iff Ninja.isIdent_mwVersion).mp (by decide +kernel)

/-- A variable whose name ends in a word `cflags`, above the flags. -/
def hostFlagsText : Text :=
  ("build build/GALE01/src/a.o: mwcc src/a.c\n" ++
    "  mw_version = GC/1.2.5n\n  host-cflags = -g\n  cflags = -O4,p\n").toList

theorem host_flags_taken :
    (NinjaCompile.findBuildBlock hostFlagsText "a".toList).toOption.map (·.cflags) =
        some "-O4,p".toList ∧
      findBuildBlock hostFlagsText (unitSource "a".toList) =
        .ok ("-g".toList, "GC/1.2.5n".toList) := by
  unfold hostFlagsText
  rw [String.toList_append, toList_literal rfl, toList_literal rfl]
  decide +kernel

end MeleeHarness.MwccDump
