/-
# Locations

The location of a token against the place where the token stands (`trueLocation`): line and column
of its first byte, and of the byte behind its last.

The code loses the place in two ways.  The rule of the block comments sets the column back at every
newline of the comment, but does not count what stands behind the last one, so columns are too
small up to the next newline.  The rules of the strings count no lines, so lines are too small
from there on.  A byte that the default rule drops does not end a step, so a token behind it
begins too early.  `locations_exact_iff` says that these are all the ways.
-/
import Mathlib.Data.List.Induction
import JitFusion.LexerComments

namespace JitFusion

namespace Athena

namespace Lexer

open Flex (Rules Lexeme Lexes ruleOf)

/-! ## 1. Places -/

/-- Line and column behind a byte. -/
def nextPosition (p : Int × Int) (c : UInt8) : Int × Int :=
  if c = newline then (p.1 + 1, 1) else (p.1, p.2 + 1)

/-- Line and column behind a text. -/
def position (s : Bytes) : Int × Int := s.foldl nextPosition (1, 1)

/-- Where a text stands behind another. -/
def trueLocation (before s : Bytes) : Location where
  beginLine := (position before).1
  beginCol := (position before).2
  endLine := (position (before ++ s)).1
  endCol := (position (before ++ s)).2

theorem foldl_nextPosition {s : Bytes} : ∀ {p : Int × Int}, newline ∉ s →
    s.foldl nextPosition p = (p.1, p.2 + s.length) := by
  induction s with
  | nil => simp
  | cons c s ih =>
    intro p h
    rw [List.mem_cons, not_or] at h
    have hc : nextPosition p c = (p.1, p.2 + 1) := by simp [nextPosition, Ne.symm h.1]
    rw [List.foldl_cons, hc, ih h.2, List.length_cons]
    simp
    omega

theorem foldl_nextPosition_line (s : Bytes) : ∀ p : Int × Int,
    (s.foldl nextPosition p).1 = p.1 + s.count newline := by
  induction s with
  | nil => simp
  | cons c s ih =>
    intro p
    rw [List.foldl_cons, ih, List.count_cons, nextPosition]
    by_cases hc : c = newline
    · simp [hc]
      omega
    · simp [hc]

/-- Behind a text with a newline, the column is that behind its last line. -/
theorem foldl_nextPosition_col {a b : Bytes} (hb : newline ∉ b) (p : Int × Int) :
    ((a ++ newline :: b).foldl nextPosition p).2 = 1 + b.length := by
  rw [List.foldl_append, List.foldl_cons, foldl_nextPosition hb, nextPosition, if_pos rfl]

/-- The last line of a text. -/
theorem exists_last_line {s : Bytes} (h : newline ∈ s) : ∃ a b, s = a ++ newline :: b ∧
    newline ∉ b := by
  induction s with
  | nil => cases h
  | cons c s ih =>
    by_cases hs : newline ∈ s
    · rcases ih hs with ⟨a, b, rfl, hb⟩
      exact ⟨c :: a, b, rfl, hb⟩
    · rcases List.mem_cons.mp h with rfl | h
      · exact ⟨[], s, rfl, hs⟩
      · exact absurd h hs

/-! ## 2. What the lexemes do to the location -/

/-- The location before the lexeme behind these. -/
def locationAfter (lib : Conversions) (pre : List (Lexeme UInt8 Action)) : Location :=
  pre.foldl (afterLexeme lib) {}

/-- No string among the lexemes has a newline in it. -/
def StringsInLines (pre : List (Lexeme UInt8 Action)) : Prop :=
  ∀ l ∈ pre, l.action = some .string → newline ∉ l.text

/-- Behind every block comment with a newline there is a newline of the layout. -/
def ColumnsRestart (pre : List (Lexeme UInt8 Action)) : Prop :=
  ∀ a c b, pre = a ++ c :: b → c.action = some .blockComment → newline ∈ c.text →
    ∃ l ∈ b, l.action = some .newlines

/-- The last lexeme is not a byte of the default rule. -/
def LastCovered (pre : List (Lexeme UInt8 Action)) : Prop :=
  ∀ l, pre.getLast? = some l → l.action ≠ none

theorem columnsRestart_concat {pre : List (Lexeme UInt8 Action)} {l : Lexeme UInt8 Action} :
    ColumnsRestart (pre ++ [l]) ↔ l.action = some .newlines ∨
      (ColumnsRestart pre ∧ ¬ (l.action = some .blockComment ∧ newline ∈ l.text)) := by
  constructor
  · intro h
    by_cases hl : l.action = some .newlines
    · exact .inl hl
    · refine .inr ⟨fun a c b heq hc hn => ?_, fun hb => ?_⟩
      · rcases h a c (b ++ [l]) (by rw [heq]; simp) hc hn with ⟨d, hd, hnl⟩
        rcases List.mem_append.mp hd with hd | hd
        · exact ⟨d, hd, hnl⟩
        · rw [List.mem_singleton.mp hd] at hnl
          exact absurd hnl hl
      · rcases h pre l [] rfl hb.1 hb.2 with ⟨d, hd, -⟩
        cases hd
  · intro h a c b heq hc hn
    rcases List.eq_nil_or_concat b with rfl | ⟨b', d, rfl⟩
    · rcases List.append_inj' heq rfl with ⟨-, hcl⟩
      cases hcl
      rcases h with h | h
      · exact nomatch h.symm.trans hc
      · exact absurd ⟨hc, hn⟩ h.2
    · rw [List.concat_eq_append, ← List.cons_append, ← List.append_assoc] at heq
      rcases List.append_inj' heq rfl with ⟨hpre, hdl⟩
      cases hdl
      rcases h with h | h
      · exact ⟨l, by simp, h⟩
      · rcases h.1 a c b' hpre hc hn with ⟨e, he, hnl⟩
        exact ⟨e, by simp [he], hnl⟩

theorem stringsInLines_concat {pre : List (Lexeme UInt8 Action)} {l : Lexeme UInt8 Action} :
    StringsInLines (pre ++ [l]) ↔
      StringsInLines pre ∧ (l.action = some .string → newline ∉ l.text) := by
  simp [StringsInLines, or_imp, forall_and]

theorem lastCovered_concat {pre : List (Lexeme UInt8 Action)} {l : Lexeme UInt8 Action} :
    LastCovered (pre ++ [l]) ↔ l.action ≠ none := by
  simp [LastCovered]

theorem commentLines_eq (s : Bytes) : ∀ loc : Location, commentLines s loc =
    { loc with
      endLine := loc.endLine + s.count newline
      endCol := if newline ∈ s then 1 else loc.endCol } := by
  induction s with
  | nil => simp [commentLines]
  | cons c s ih =>
    intro loc
    rw [commentLines, List.foldl_cons, ← commentLines, ih]
    by_cases hc : c = newline
    · subst hc
      rw [if_pos (by decide)]
      simp [Location.lines]
      omega
    · have hn : isNewline c = false := by simpa [isNewline, newline] using hc
      rw [hn, if_neg (by simp)]
      simp [hc, Ne.symm hc]

/-- Where the location is behind some lexemes, against the place. -/
structure Tracks (loc : Location) (pre : List (Lexeme UInt8 Action)) (p : Int × Int) : Prop where
  line : loc.endLine ≤ p.1
  line_iff : loc.endLine = p.1 ↔ StringsInLines pre
  col : StringsInLines pre → loc.endCol ≤ p.2
  col_iff : StringsInLines pre → (loc.endCol = p.2 ↔ ColumnsRestart pre)
  beginLine : loc.beginLine = loc.endLine
  beginCol : loc.beginCol ≤ loc.endCol
  beginCol_iff : loc.beginCol = loc.endCol ↔ LastCovered pre

/-- The texts with a newline, by the rule that has found them. -/
theorem newline_not_mem {l : Lexeme UInt8 Action} (h : l.Sound rules)
    (h₁ : l.action ≠ some .newlines) (h₂ : l.action ≠ some .blockComment)
    (h₃ : l.action ≠ some .string) : newline ∉ l.text := by
  rcases l with ⟨k, w⟩
  cases k with
  | none =>
    rcases h with ⟨c, rfl, hc⟩
    intro hmem
    rw [← List.mem_singleton.mp hmem] at hc
    exact absurd hc (by decide +kernel)
  | some k =>
    intro hmem
    by_cases hk : k.plain = true
    · exact not_special_of_plain h hk newline hmem (by decide)
    · rcases rule_of_ruleOf h with ⟨r, -, hm, hr⟩
      cases k with
      | blank =>
        obtain rfl : r = blank.plus := hr
        exact absurd ((Flex.Regex.matches_plus_cls.mp hm).2 newline hmem) (by decide)
      | lineComment =>
        obtain rfl : r = Lexer.lineComment := hr
        rcases matches_lineComment.mp hm with ⟨v, rfl, hv⟩
        rcases List.mem_cons.mp hmem with h | hmem
        · exact absurd h (by decide)
        · rcases List.mem_cons.mp hmem with h | hmem
          · exact absurd h (by decide)
          · exact hv hmem
      | sym s =>
        obtain rfl : s = .slash := by simpa [Action.plain] using hk
        obtain rfl : r = word "/" := hr
        rw [matches_word.mp hm] at hmem
        exact absurd hmem (by decide)
      | newlines => exact h₁ rfl
      | blockComment => exact h₂ rfl
      | string => exact h₃ rfl
      | identifier | int | f32 | f64 => exact hk rfl

/-- A run of newlines. -/
theorem newlines_text {l : Lexeme UInt8 Action} (h : l.Sound rules)
    (hl : l.action = some .newlines) : l.text ≠ [] ∧ ∀ c ∈ l.text, c = newline := by
  rcases l with ⟨k, w⟩
  cases hl
  rcases rule_of_ruleOf h with ⟨r, -, hm, hr⟩
  rw [newlineRule.pattern r hr] at hm
  rcases Flex.Regex.matches_plus_cls.mp hm with ⟨hne, hall⟩
  exact ⟨hne, fun c hc => eq_of_beq (hall c hc)⟩

/-- The last line of a block comment is not empty. -/
theorem blockComment_lastLine {l : Lexeme UInt8 Action} (h : l.Sound rules)
    (hl : l.action = some .blockComment) {a b : Bytes} (heq : l.text = a ++ newline :: b) :
    b ≠ [] := by
  rcases l with ⟨k, w⟩
  cases hl
  rcases rule_of_ruleOf h with ⟨r, -, hm, rfl⟩
  rcases Flex.Regex.matches_seq.mp hm with ⟨u, v, rfl, -, hv⟩
  rcases Flex.Regex.matches_seq.mp hv with ⟨body, e, rfl, -, he⟩
  rcases Flex.Regex.matches_seq.mp he with ⟨stars, s, rfl, -, hs⟩
  rw [matches_word.mp hs] at heq
  rintro rfl
  have hlast : some slash = some newline := by
    have hend := congrArg List.getLast? heq
    simp only [← List.append_assoc, List.getLast?_append] at hend
    exact hend
  exact absurd hlast (by decide)

/-- The location behind a lexeme, after the step of the next call. -/
theorem afterLexeme_eq (lib : Conversions) (loc : Location) (l : Lexeme UInt8 Action) :
    afterLexeme lib loc l = match l.action with
      | none => loc.columns l.text.length
      | some .newlines => ((loc.columns l.text.length).lines l.text.length).step
      | some .blockComment => (commentLines l.text (loc.columns l.text.length)).step
      | some _ => (loc.columns l.text.length).step := by
  have hconst : ∀ v : Option ConstantValueType, Result.ofConstant v ≠ .skip := by
    rintro (_ | v) <;> nofun
  rcases l with ⟨k, w⟩
  cases k with
  | none => rfl
  | some k =>
    cases k with
    | int t =>
      have h := hconst ((stoull w).map fun n => t.narrow n)
      simp only [afterLexeme, result, Action.result]
      rfl
    | f32 =>
      have h := hconst ((lib.stof w).map .f32)
      simp only [afterLexeme, result, Action.result]
      rfl
    | f64 =>
      have h := hconst ((lib.stod w).map .f64)
      simp only [afterLexeme, result, Action.result]
      rfl
    | blank | newlines | lineComment | blockComment | sym | identifier | string => rfl

/-- What is to be shown of one more lexeme. -/
theorem Tracks.next {loc loc' : Location} {pre : List (Lexeme UInt8 Action)} {p p' : Int × Int}
    {l : Lexeme UInt8 Action} (h : Tracks loc pre p) (hline : loc'.endLine ≤ p'.1)
    (hline_iff : loc'.endLine = p'.1 ↔
      loc.endLine = p.1 ∧ (l.action = some .string → newline ∉ l.text))
    (hcol : loc.endCol ≤ p.2 → (l.action = some .string → newline ∉ l.text) →
      loc'.endCol ≤ p'.2 ∧ (loc'.endCol = p'.2 ↔ l.action = some .newlines ∨
        (loc.endCol = p.2 ∧ ¬ (l.action = some .blockComment ∧ newline ∈ l.text))))
    (hbeginLine : loc'.beginLine = loc'.endLine) (hbeginCol : loc'.beginCol ≤ loc'.endCol)
    (hbegin_iff : loc'.beginCol = loc'.endCol ↔ l.action ≠ none) :
    Tracks loc' (pre ++ [l]) p' where
  line := hline
  line_iff := by rw [hline_iff, stringsInLines_concat, h.line_iff]
  col hs := by
    rw [stringsInLines_concat] at hs
    exact (hcol (h.col hs.1) hs.2).1
  col_iff hs := by
    rw [stringsInLines_concat] at hs
    rw [(hcol (h.col hs.1) hs.2).2, columnsRestart_concat, h.col_iff hs.1]
  beginLine := hbeginLine
  beginCol := hbeginCol
  beginCol_iff := by rw [hbegin_iff, lastCovered_concat]

/-- **One lexeme.**  What it does to the line and the column, against the place. -/
theorem Tracks.concat {loc : Location} {pre : List (Lexeme UInt8 Action)} {p : Int × Int}
    (h : Tracks loc pre p) {l : Lexeme UInt8 Action} (hl : l.Sound rules) (lib : Conversions) :
    Tracks (afterLexeme lib loc l) (pre ++ [l]) (l.text.foldl nextPosition p) := by
  have hline := h.line
  have hbeginLine := h.beginLine
  have hbeginCol := h.beginCol
  have hp := foldl_nextPosition_line l.text p
  rw [afterLexeme_eq]
  by_cases hn : newline ∈ l.text
  · rcases exists_last_line hn with ⟨a, b, hab, hb⟩
    have hcol : (l.text.foldl nextPosition p).2 = 1 + b.length := by
      rw [hab]
      exact foldl_nextPosition_col hb p
    have hpos : 0 < l.text.count newline := List.count_pos_iff.mpr hn
    by_cases h₁ : l.action = some .newlines
    · -- all newlines: the last line is empty
      have hall := (newlines_text hl h₁).2
      have hcount : l.text.count newline = l.text.length :=
        List.count_eq_length.mpr fun c hc => (hall c hc).symm
      have hb0 : b = [] := by
        cases b with
        | nil => rfl
        | cons c b =>
          have hc := hall c (by simp [hab])
          exact absurd (by simp [hc]) hb
      subst hb0
      rw [h₁]
      apply h.next <;>
        simp [Location.step, Location.lines, Location.columns, h₁, hp, hcol, hcount]
      omega
    · by_cases h₂ : l.action = some .blockComment
      · have hb0 := blockComment_lastLine hl h₂ hab
        have hlen : 0 < b.length := List.length_pos_iff.mpr hb0
        have hshort : ¬ (1 : Int) = 1 + b.length := by omega
        rw [h₂]
        apply h.next <;>
          simp [Location.step, commentLines_eq, Location.columns, h₂, hp, hcol, hn, hshort] <;>
          omega
      · have h₃ : l.action = some .string := by
          by_contra h₃
          exact newline_not_mem hl h₁ h₂ h₃ hn
        rw [h₃]
        apply h.next <;>
          simp [Location.step, Location.columns, h₃, hp, hcol, hn] <;> omega
  · have hcount : l.text.count newline = 0 := List.count_eq_zero.mpr hn
    have hfold : l.text.foldl nextPosition p = (p.1, p.2 + l.text.length) := foldl_nextPosition hn
    rw [hfold]
    rcases l with ⟨k, w⟩
    cases k with
    | none =>
      rcases hl with ⟨c, hc, -⟩
      obtain rfl : w = [c] := hc
      apply h.next <;> simp [Location.columns] <;> omega
    | some k =>
      by_cases h₁ : k = .newlines
      · subst h₁
        have htext := newlines_text hl rfl
        cases w with
        | nil => exact absurd rfl htext.1
        | cons c w => exact absurd (List.mem_cons.mpr (.inl (htext.2 c (by simp)).symm)) hn
      · by_cases h₂ : k = .blockComment
        · subst h₂
          apply h.next <;>
            simp [Location.step, commentLines_eq, Location.columns, hn, hcount]
          omega
        · have hplain : afterLexeme lib loc ⟨some k, w⟩ = (loc.columns w.length).step := by
            rw [afterLexeme_eq]
            cases k with
            | newlines => exact absurd rfl h₁
            | blockComment => exact absurd rfl h₂
            | blank | lineComment | sym | identifier | int | f32 | f64 | string => rfl
          rw [← afterLexeme_eq lib, hplain]
          apply h.next <;>
            simp [Location.step, Location.columns, h₁, h₂, hn]
          omega

/-- **All lexemes.**  By induction from the end of the text. -/
theorem tracks_locationAfter (lib : Conversions) {pre : List (Lexeme UInt8 Action)}
    (hpre : ∀ l ∈ pre, l.Sound rules) :
    Tracks (locationAfter lib pre) pre (position (pre.flatMap Lexeme.text)) := by
  induction pre using List.reverseRecOn with
  | nil =>
    exact {
      line := Int.le_refl 1
      line_iff := by simp [locationAfter, position, StringsInLines]
      col := fun _ => Int.le_refl 1
      col_iff := fun _ => by simp [locationAfter, position, ColumnsRestart]
      beginLine := rfl
      beginCol := Int.le_refl 1
      beginCol_iff := by simp [locationAfter, LastCovered] }
  | append_singleton pre l ih =>
    have hpre' : ∀ l ∈ pre, l.Sound rules := fun l' hl' => hpre l' (List.mem_append_left _ hl')
    have h := (ih hpre').concat (hpre l (by simp)) lib
    rw [locationAfter, List.foldl_append, List.flatMap_append, position, List.foldl_append]
    simpa [locationAfter, position] using h

/-! ## 3. Tokens -/

/-- The text of a token and all before it keeps the place. -/
def KeepsPlace (pre : List (Lexeme UInt8 Action)) (s : Bytes) : Prop :=
  StringsInLines pre ∧ newline ∉ s ∧ ColumnsRestart pre ∧ LastCovered pre

/-- The location a token is given is where it stands exactly when the place has been kept. -/
theorem columns_eq_trueLocation_iff (lib : Conversions) {pre : List (Lexeme UInt8 Action)}
    (hpre : ∀ l ∈ pre, l.Sound rules) (s : Bytes) :
    (locationAfter lib pre).columns s.length = trueLocation (pre.flatMap Lexeme.text) s ↔
      KeepsPlace pre s := by
  have h := tracks_locationAfter lib hpre
  have hend : position (pre.flatMap Lexeme.text ++ s) =
      s.foldl nextPosition (position (pre.flatMap Lexeme.text)) := by
    rw [position, List.foldl_append, ← position]
  have hline := foldl_nextPosition_line s (position (pre.flatMap Lexeme.text))
  have hle := h.line
  have hbeginLine := h.beginLine
  rw [trueLocation, hend, Location.columns, Location.mk.injEq]
  generalize position (pre.flatMap Lexeme.text) = p at *
  by_cases hn : newline ∈ s
  · -- the line of the end is too small
    have hpos : 0 < s.count newline := List.count_pos_iff.mpr hn
    constructor
    · rintro ⟨-, -, hl, -⟩
      omega
    · rintro ⟨-, hs, -⟩
      exact absurd hn hs
  · rw [foldl_nextPosition hn]
    constructor
    · rintro ⟨hbl, hbc, hel, hec⟩
      have hs := h.line_iff.mp hel
      have hcol : (locationAfter lib pre).endCol = p.2 := by
        simp only at hec
        omega
      exact ⟨hs, hn, (h.col_iff hs).mp hcol, h.beginCol_iff.mp (by rw [hbc, hcol])⟩
    · rintro ⟨hs, -, hc, hlast⟩
      have hel := h.line_iff.mpr hs
      have hec := (h.col_iff hs).mpr hc
      have hbc := h.beginCol_iff.mpr hlast
      simp only
      omega

/-- Whether a call of `yylex` returns at the lexeme. -/
def isToken (lib : Conversions) (l : Lexeme UInt8 Action) : Bool :=
  match result lib l with
  | .token _ => true
  | _ => false

theorem advance_of_token {lib : Conversions} {l : Lexeme UInt8 Action} {t : Token}
    (h : result lib l = .token t) (loc : Location) : advance loc l = loc.columns l.text.length := by
  rcases l with ⟨k, w⟩
  cases k with
  | none => rfl
  | some k =>
    cases k with
    | blank | newlines | lineComment | blockComment => cases h
    | sym | identifier | int | f32 | f64 | string => rfl

/-- Every token comes from a lexeme, with the location the lexemes before it lead to. -/
theorem deliver_tokens (lib : Conversions) (ls : List (Lexeme UInt8 Action)) :
    ∀ {loc loc' : Location} {i : Nat} {t : Token},
      (deliver lib loc ls).tokens[i]? = some (t, loc') →
      ∃ pre l post, ls = pre ++ l :: post ∧ result lib l = .token t ∧
        (pre.filter (isToken lib)).length = i ∧
        loc' = (pre.foldl (afterLexeme lib) loc).columns l.text.length := by
  induction ls with
  | nil =>
    intro loc loc' i t h
    cases h
  | cons l ls ih =>
    intro loc loc' i t h
    -- the token comes from a lexeme behind this one
    have hlater : ∀ {j}, (deliver lib (afterLexeme lib loc l) ls).tokens[j]? = some (t, loc') →
        j + (if isToken lib l then 1 else 0) = i →
        ∃ pre l' post, l :: ls = pre ++ l' :: post ∧ result lib l' = .token t ∧
          (pre.filter (isToken lib)).length = i ∧
          loc' = (pre.foldl (afterLexeme lib) loc).columns l'.text.length := by
      intro j hj hi
      rcases ih hj with ⟨pre, l', post, rfl, ht, hlen, hloc⟩
      refine ⟨l :: pre, l', post, rfl, ht, ?_, hloc⟩
      rw [List.filter_cons]
      split at hi
      · rename_i hl
        rw [if_pos hl, List.length_cons, hlen, hi]
      · rename_i hl
        rw [if_neg hl, hlen]
        exact hi
    rw [deliver] at h
    cases hr : result lib l with
    | skip =>
      rw [hr] at h
      exact hlater h (by simp [isToken, hr])
    | throws =>
      rw [hr] at h
      cases h
    | token t' =>
      rw [hr] at h
      cases i with
      | zero =>
        cases h
        exact ⟨[], l, ls, rfl, hr, rfl, advance_of_token hr loc⟩
      | succ i => exact hlater h (by simp [isToken, hr])

theorem deliver_eof (lib : Conversions) (ls : List (Lexeme UInt8 Action)) : ∀ {loc : Location},
    (deliver lib loc ls).throws = false →
      (deliver lib loc ls).eof = ls.foldl (afterLexeme lib) loc := by
  induction ls with
  | nil => exact fun _ => rfl
  | cons l ls ih =>
    intro loc h
    rw [deliver] at h ⊢
    cases hr : result lib l with
    | skip =>
      rw [hr] at h
      exact ih h
    | throws =>
      rw [hr] at h
      cases h
    | token t =>
      rw [hr] at h
      exact ih h

/-- **Locations.**  The location of a token, and that of the end of the text, is where it stands
exactly when no string up to there has a newline in it, a newline of the layout follows every
block comment over several lines, and the byte before it is not left to the default rule. -/
theorem locations_exact_iff (lib : Conversions) (code : Bytes) :
    (∀ i t loc, (stream lib code).tokens[i]? = some (t, loc) →
      ∃ pre l post, lexemes code = pre ++ l :: post ∧ result lib l = .token t ∧
        (pre.filter (isToken lib)).length = i ∧
        (loc = trueLocation (pre.flatMap Lexeme.text) l.text ↔ KeepsPlace pre l.text)) ∧
      ((stream lib code).throws = false →
        ((stream lib code).eof = trueLocation (cString code) [] ↔
          KeepsPlace (lexemes code) [])) := by
  have hlex := Flex.lexes_iff.mpr (rfl : lexemes code = _)
  constructor
  · intro i t loc h
    rcases deliver_tokens lib _ h with ⟨pre, l, post, hcode, ht, hi, rfl⟩
    refine ⟨pre, l, post, hcode, ht, hi, columns_eq_trueLocation_iff lib (fun l' hl' => ?_) l.text⟩
    exact hlex.sound l' (hcode ▸ List.mem_append_left _ hl')
  · intro h
    rw [stream, deliver_eof lib _ h, ← hlex.flatMap_text]
    have hzero : (locationAfter lib (lexemes code)).columns (List.length ([] : Bytes)) =
        locationAfter lib (lexemes code) := by
      simp [Location.columns]
    rw [← columns_eq_trueLocation_iff lib hlex.sound [], hzero]
    rfl

/-- An identifier behind a block comment of two lines: the code says it is at column 1, and it is
at column 3. -/
theorem location_behind_comment :
    lexemes (text "/*\n*/a;") = [⟨some .blockComment, text "/*\n*/"⟩, ⟨some .identifier, text "a"⟩,
        ⟨some (.sym .semi), text ";"⟩] ∧
      (stream noConversions (text "/*\n*/a;")).tokens[0]? =
        some (.identifier "a", ⟨2, 1, 2, 2⟩) ∧
      trueLocation (text "/*\n*/") (text "a") = ⟨2, 3, 2, 4⟩ := by
  decide +kernel

end Lexer

end Athena

end JitFusion
