/-
# Builds of a text

`BuildExpression` and `BuildPipeline` from the bytes of the text on: the lexer, the parser and the
builder.  A build ignores a byte when its lexer leaves it to the default rule, and all bytes from
the first zero byte on.  `nothingIgnored_iff` says when this does no harm: where the rest of the
text is rejected anyway.
-/
import JitFusion.AstBuild
import JitFusion.Grammar
import JitFusion.LexerLocations

namespace JitFusion

namespace Athena

open Flex (Lexeme)
open Lexer (Conversions Stream Covered lexemes stream result shown isToken nameOf)

/-! ## 1. Outcomes -/

/-- What the builder returns for the text. -/
def outcome (mode : BuildMode) (code : Bytes) (parse : Parse) (b : Builder) :
    Except Abort NodePtr :=
  ((build mode (nameOf code) parse).run ⟨b, none⟩).1

def IsParseError (r : Except Abort NodePtr) : Prop :=
  ∃ message, r = .error (.status (.parseError message))

/-- The text is rejected: it is not grammatical as far as the parser reads it, or it ends and has
an undefined identifier. -/
def Rejected (mode : BuildMode) (parse : Parse) : Prop :=
  match verdict mode parse with
  | some (.stopped (.syntaxError _)) | some .whenBlock => True
  | some (.stopped .exception) | some .derefs => False
  | none => parse.program.undefinedRefs ≠ []

section Outcomes

variable {mode : BuildMode} {parse : Parse} {b : Builder}

theorem outcome_verdict (code : Bytes) (hb : b.Clear) {v : Verdict}
    (hv : verdict mode parse = some v) :
    ∃ abort, outcome mode code parse b = .error abort ∧ v.Aborts abort := by
  rcases build_verdict (p := ⟨b, none⟩) (nameOf code) hb hv with ⟨abort, p, hrun, h⟩
  exact ⟨abort, by rw [outcome, hrun], h⟩

theorem outcome_ok (code : Bytes) (hb : b.Clear) (hv : verdict mode parse = none)
    (hrefs : parse.program.undefinedRefs = []) :
    ∃ n e, outcome mode code parse b = .ok n ∧ n.toExecNode = some e ∧
      parse.program.tree mode (nameOf code) = some e := by
  rcases build_ok (p := ⟨b, none⟩) (nameOf code) hb hv hrefs with
    ⟨n, p, e, hrun, hn, he, -⟩
  exact ⟨n, e, by rw [outcome, hrun], hn, he⟩

/-- **The builds that end with a parse error.** -/
theorem isParseError_iff (code : Bytes) (hb : b.Clear) :
    IsParseError (outcome mode code parse b) ↔ Rejected mode parse := by
  unfold Rejected
  cases hv : verdict mode parse with
  | none =>
    cases href : parse.program.undefinedRefs.getLast? with
    | none =>
      have hnil : parse.program.undefinedRefs = [] := List.getLast?_eq_none_iff.mp href
      rcases outcome_ok code hb hv hnil with ⟨n, e, hout, -⟩
      refine iff_of_false ?_ (by simp [hnil])
      rintro ⟨message, h⟩
      exact nomatch hout.symm.trans h
    | some ref =>
      rcases build_undefined (p := ⟨b, none⟩) (nameOf code) hb hv href with ⟨p, hrun, -⟩
      refine iff_of_true ⟨_, by rw [outcome, hrun]; rfl⟩ ?_
      simp only
      intro hnil
      rw [hnil] at href
      exact nomatch href
  | some v =>
    rcases outcome_verdict code hb hv with ⟨abort, hout, habort⟩
    rw [hout]
    cases v with
    | derefs =>
      refine iff_of_false ?_ id
      rintro ⟨message, h⟩
      rw [show abort = .nullDeref from habort] at h
      exact nomatch h
    | whenBlock =>
      rcases habort with ⟨message, rfl⟩
      exact iff_of_true ⟨message, rfl⟩ trivial
    | stopped why =>
      cases why with
      | syntaxError message =>
        rw [show abort = _ from habort]
        exact iff_of_true ⟨message, rfl⟩ trivial
      | exception =>
        refine iff_of_false ?_ id
        rintro ⟨message, h⟩
        rw [show abort = .exception from habort] at h
        exact nomatch h

/-- A build that ends well has read the whole text. -/
theorem outcome_ok_iff (code : Bytes) (hb : b.Clear) :
    (∃ n, outcome mode code parse b = .ok n) ↔
    verdict mode parse = none ∧ parse.program.undefinedRefs = [] := by
  constructor
  · rintro ⟨n, hn⟩
    cases hv : verdict mode parse with
    | some v =>
      rcases outcome_verdict code hb hv with ⟨abort, hout, -⟩
      exact nomatch hn.symm.trans hout
    | none =>
      refine ⟨rfl, ?_⟩
      by_contra hrefs
      have hrej : Rejected mode parse := by
        unfold Rejected
        rw [hv]
        exact hrefs
      rcases (isParseError_iff code hb).mpr hrej with ⟨message, h⟩
      exact nomatch hn.symm.trans h
  · rintro ⟨hv, hrefs⟩
    rcases outcome_ok code hb hv hrefs with ⟨n, -, hout, -⟩
    exact ⟨n, hout⟩

/-- It has handed all tokens to the parser. -/
theorem yields_of_ok {lib : Conversions} {code : Bytes} {n : NodePtr} (hb : b.Clear)
    (hparse : Parses (stream lib code) parse) (hn : outcome mode code parse b = .ok n) :
    (stream lib code).throws = false ∧ parse.program.Yields (stream lib code).tokens := by
  have hstop := (verdict_none ((outcome_ok_iff code hb).mp ⟨n, hn⟩).1).1
  rw [Parses, hstop] at hparse
  exact hparse

end Outcomes

/-! ## 2. Coverage -/

/-- No byte is ignored in silence.  If the build ends well, every byte is in a lexeme of the
layout, in a comment or in a token, and the parser has read all tokens; and a text with a byte
that no rule covers, or with a zero byte, is a parse error. -/
structure NothingIgnored (lib : Conversions) (mode : BuildMode) (code : Bytes) (parse : Parse)
    (b : Builder) : Prop where
  ok : ∀ n, outcome mode code parse b = .ok n → (lexemes code).flatMap Lexeme.text = code ∧
    (∀ l ∈ lexemes code, shown l = false ∨ isToken lib l = true) ∧
    parse.program.Yields (stream lib code).tokens
  error : ¬ Covered code → IsParseError (outcome mode code parse b)

/-- Where no conversion throws, every lexeme that is covered and shown is a token. -/
theorem isToken_of_stream {lib : Conversions} (ls : List (Lexeme UInt8 Lexer.Action)) :
    ∀ {loc : Location}, (Lexer.deliver lib loc ls).throws = false →
      ∀ l ∈ ls, l.action ≠ none → shown l = false ∨ isToken lib l = true := by
  induction ls with
  | nil => simp
  | cons l ls ih =>
    intro loc h
    rw [Lexer.deliver] at h
    cases hr : result lib l with
    | throws =>
      rw [hr] at h
      cases h
    | token t =>
      rw [hr] at h
      refine List.forall_mem_cons.mpr ⟨fun _ => .inr (by simp [isToken, hr]), ih h⟩
    | skip =>
      rw [hr] at h
      refine List.forall_mem_cons.mpr ⟨fun hne => .inl ?_, ih h⟩
      exact Lexer.shown_of_skip hr hne

/-- **Bytes are ignored in silence exactly where the text is uncovered and not rejected.** -/
theorem nothingIgnored_iff (lib : Conversions) (mode : BuildMode) (code : Bytes) (parse : Parse)
    (b : Builder) (hb : b.Clear) (hparse : Parses (stream lib code) parse) :
    NothingIgnored lib mode code parse b ↔ Covered code ∨ Rejected mode parse := by
  constructor
  · intro h
    by_cases hcov : Covered code
    · exact .inl hcov
    · exact .inr ((isParseError_iff code hb).mp (h.error hcov))
  · intro h
    refine ⟨fun n hn => ?_, fun hcov => ?_⟩
    · rcases yields_of_ok hb hparse hn with ⟨hthrows, hyields⟩
      have hcov : Covered code := by
        refine h.resolve_right fun hrej => ?_
        rcases (isParseError_iff code hb).mpr hrej with ⟨message, herr⟩
        exact nomatch hn.symm.trans herr
      have hlex := Flex.lexes_iff.mpr (rfl : lexemes code = _)
      refine ⟨?_, fun l hl => ?_, hyields⟩
      · rw [hlex.flatMap_text, Lexer.cString_eq hcov.1]
      · exact isToken_of_stream _ hthrows l hl (hcov.2 l hl)
    · exact (isParseError_iff code hb).mpr (h.resolve_left hcov)

/-- `r=1$;`, and `r=1;` before a zero byte. -/
def strayByte : Parse where
  program := {
    statements := [.assign "r" (.literal ⟨1, 3, 1, 4⟩ (.i32 1))]
    nonempty := by simp }

theorem strayByte_parses :
    Parses (stream Lexer.noConversions (text "r=1$;")) strayByte ∧
      Parses (stream Lexer.noConversions (text "r=1;\x00$")) strayByte := by
  have htokens : (stream Lexer.noConversions (text "r=1$;")).tokens =
      [(.identifier "r", ⟨1, 1, 1, 2⟩), (.sym .assignment, ⟨1, 2, 1, 3⟩),
        (.constant (.i32 1), ⟨1, 3, 1, 4⟩), (.sym .semi, ⟨1, 4, 1, 6⟩)] := by
    decide +kernel
  have htokens' : (stream Lexer.noConversions (text "r=1;\x00$")).tokens =
      [(.identifier "r", ⟨1, 1, 1, 2⟩), (.sym .assignment, ⟨1, 2, 1, 3⟩),
        (.constant (.i32 1), ⟨1, 3, 1, 4⟩), (.sym .semi, ⟨1, 4, 1, 5⟩)] := by
    decide +kernel
  refine ⟨⟨by decide +kernel, ?_⟩, ⟨by decide +kernel, ?_⟩⟩
  · rw [htokens]
    exact .one (.assign .constant)
  · rw [htokens']
    exact .one (.assign .constant)

/-- The stray byte is ignored, and so is what stands behind the zero byte. -/
theorem strayByte_ignored :
    ¬ NothingIgnored Lexer.noConversions .kExpression (text "r=1$;") strayByte {} ∧
      ¬ NothingIgnored Lexer.noConversions .kExpression (text "r=1;\x00$") strayByte {} := by
  have hrej : ¬ Rejected .kExpression strayByte := by
    have hv : verdict .kExpression strayByte = none := by rfl
    unfold Rejected
    rw [hv]
    intro h
    exact h rfl
  constructor
  · intro h
    exact hrej ((isParseError_iff (text "r=1$;") (.of_nil rfl)).mp (h.error (by decide +kernel)))
  · intro h
    exact hrej ((isParseError_iff (text "r=1;\x00$") (.of_nil rfl)).mp
      (h.error (by decide +kernel)))

/-- The general statement at the stray byte. -/
theorem nothingIgnored_iff_strayByte :
    NothingIgnored Lexer.noConversions .kExpression (text "r=1$;") strayByte {} ↔
      Covered (text "r=1$;") ∨ Rejected .kExpression strayByte :=
  nothingIgnored_iff _ _ _ _ _ (.of_nil rfl) strayByte_parses.1

end Athena

end JitFusion
