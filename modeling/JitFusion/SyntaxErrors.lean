/-
# What a syntax error says

Where the parser stops it reports the place and the token, and up to four tokens that it expects
instead: those that `yy_lac_check_` lets through (`expected_tokens`).  Then it looks for a state
that shifts the error token; the grammar has none, so that it gives up.

* `token_checks`: the check lets a token through exactly if some text of the grammar has it there.
* `syntax_errors_exact`: so the report names the tokens that the grammar expects, all of them or
  none.
-/
import JitFusion.ParserSimulation

namespace JitFusion

namespace Athena

namespace Bison

open Lalr (Checks expectedTokens errorState)

/-! ## 1. The report -/

/-- `symbol_name`, for the tokens. -/
def symbolNames : List String := [
  "end of file", "error", "invalid token", "let", "when", "if", "elif", "else", "switch", "in",
  "not", "and", "or", "true", "false", "-", "+", "*", "/", "(", ")", "%", "|", "^", "&", "~", "<<",
  ">>", "==", "=", "!=", "<", "<=", ">", ">=", ",", "[", "]", ";", "\x7b", "\x7d", "entry_arg",
  "exec_ctx", "output", "identifier", "int8", "int16", "int32", "int64", "uint8", "uint16",
  "uint32", "uint64", "float", "double", "string", "NEG"]

def symbolName (kind : Nat) : String := symbolNames.getD kind ""

/-- `YYARGS_MAX`, less the token that is unexpected. -/
def yyargn : Nat := 4

/-- The `yyformat` of `yysyntax_error_`, by `yycount`. -/
def yyformat : Nat → String
  | 1 => "syntax error, unexpected %s"
  | 2 => "syntax error, unexpected %s, expecting %s"
  | 3 => "syntax error, unexpected %s, expecting %s or %s"
  | 4 => "syntax error, unexpected %s, expecting %s or %s or %s"
  | 5 => "syntax error, unexpected %s, expecting %s or %s or %s or %s"
  | _ => "syntax error"

/-- The loop of `yysyntax_error_` over the format. -/
def fillIn : List Char → List String → List Char
  | '%' :: 's' :: format, arg :: args => arg.toList ++ fillIn format args
  | c :: format, args => c :: fillIn format args
  | [], _ => []

/-- `yysyntax_error_`, on a token of the kind. -/
def yysyntaxError (fuel : Nat) (states : List Nat) (kind : Nat) : Option String :=
  (expectedTokens yytables states yyargn fuel (List.range yytables.yyntokens) []).map
    fun expected =>
      let yyarg := kind :: expected
      String.ofList (fillIn (yyformat yyarg.length).toList (yyarg.map symbolName))

/-- The location of the token, or of the end of the text. -/
def lookaheadLoc (s : Lexer.Stream) : Option Located → Location
  | none => s.eof
  | some (_, loc) => loc

/-- `error`, of a syntax error at the token. -/
def report (fuel : Nat) (source : String) (s : Lexer.Stream) (st : Stack) (t : Option Located) :
    Option String :=
  (yysyntaxError fuel (st.map Prod.fst) (kind t)).map fun message =>
    (lookaheadLoc s t).toString source ++ ": " ++ message

/-- What the report comes to. -/
def errorText (unexpected : String) (expected : List String) : String :=
  "syntax error, unexpected " ++ (unexpected ++
    if expected = [] then "" else ", expecting " ++ " or ".intercalate expected)

theorem fillIn_text {text : List Char} (h : '%' ∉ text) (format : List Char)
    (args : List String) : fillIn (text ++ format) args = text ++ fillIn format args := by
  induction text with
  | nil => rfl
  | cons c text ih =>
    obtain ⟨hc, htext⟩ := not_or.mp (mt List.mem_cons.mpr h)
    rw [List.cons_append, fillIn, ih htext, List.cons_append]
    rintro _ _ _ rfl
    exact fun heq => absurd heq.symm hc

theorem fillIn_arg (format : List Char) (arg : String) (args : List String) :
    fillIn ('%' :: 's' :: format) (arg :: args) = arg.toList ++ fillIn format args := rfl

/-- The formats, cut at their places. -/
theorem yyformat_places (n : Nat) (hn : n < 4) : (yyformat (n + 2)).toList =
    "syntax error, unexpected ".toList ++ '%' :: 's' :: (", expecting ".toList ++ '%' :: 's' ::
      (List.replicate n (" or ".toList ++ ['%', 's'])).flatten) := by
  match n, hn with
  | 0, _ => decide
  | 1, _ => decide
  | 2, _ => decide
  | 3, _ => decide

theorem texts_plain : '%' ∉ "syntax error, unexpected ".toList ∧ '%' ∉ ", expecting ".toList ∧
    '%' ∉ " or ".toList := by
  decide

theorem fillIn_or (e : String) (es : List String) :
    String.ofList (e.toList ++
      fillIn (List.replicate es.length (" or ".toList ++ ['%', 's'])).flatten es) =
        " or ".intercalate (e :: es) := by
  induction es generalizing e with
  | nil =>
    rw [String.intercalate_singleton, List.length_nil, List.replicate_zero, List.flatten_nil,
      fillIn, List.append_nil, String.ofList_toList]
  | cons e' es ih =>
    rw [List.length_cons, List.replicate_succ, List.flatten_cons, List.append_assoc,
      fillIn_text texts_plain.2.2, List.cons_append, List.singleton_append, fillIn_arg,
      String.ofList_append, String.ofList_append, ih, String.ofList_toList, String.ofList_toList,
      String.intercalate_cons_cons, String.append_assoc]

/-- The report for as many tokens as the formats have places for. -/
theorem yyformat_fill (unexpected : String) {expected : List String}
    (hlen : expected.length ≤ yyargn) :
    String.ofList (fillIn (yyformat (unexpected :: expected).length).toList
      (unexpected :: expected)) = errorText unexpected expected := by
  obtain ⟨hunexpected, hexpecting, -⟩ := texts_plain
  cases expected with
  | nil =>
    have hformat : (yyformat 1).toList = "syntax error, unexpected ".toList ++ ['%', 's'] := by
      decide
    have hfill := fillIn_text hunexpected ['%', 's'] [unexpected]
    rw [fillIn_arg, fillIn, List.append_nil] at hfill
    rw [List.length_singleton, hformat, hfill, String.ofList_append, String.ofList_toList,
      String.ofList_toList]
    unfold errorText
    rw [if_pos rfl, String.append_empty]
  | cons e es =>
    have hes : es.length < 4 := hlen
    rw [List.length_cons, List.length_cons, yyformat_places es.length hes,
      fillIn_text hunexpected, fillIn_arg, fillIn_text hexpecting, fillIn_arg,
      String.ofList_append, String.ofList_append, String.ofList_append, fillIn_or,
      String.ofList_toList, String.ofList_toList, String.ofList_toList]
    unfold errorText
    rw [if_neg (List.cons_ne_nil e es)]

/-! ## 2. The check -/

variable {r : Reader} {st₁ st : Stack} {read : List Located} {t : Option Located} {k : Nat}

/-- **The check lets a token through exactly if the grammar has it there.** -/
theorem token_checks (hrun : read.foldlM stepReader {} = some r) (h : ReaderModels r st₁)
    (hsettles : Settles st₁ st) (t : Option Located) :
    ∃ b, Checks yytables (st.map Prod.fst) (kind t) b ∧ (b = true ↔ ¬ Unexpected read t) := by
  have hrefused (hstuck : ∀ tok, t = some tok → stepReader r tok = none)
      (hend : t = none → finishReader r = none) :
      ∃ b, Checks yytables (st.map Prod.fst) (kind t) b ∧ (b = true ↔ ¬ Unexpected read t) := by
    have herrs : Errs (kind t) st := (h.errs hstuck hend).of_settles hsettles
    exact ⟨false, herrs.lacCheck, by simpa using unexpected_of_stuck hrun hstuck hend⟩
  cases t with
  | none =>
    cases hfin : finishReader r with
    | none => exact hrefused (fun tok htok => by cases htok) fun _ => hfin
    | some p =>
      obtain ⟨l, hleads⟩ := h.finish hfin
      have hp : parseProgram read = some p := Option.bind_eq_some_iff.mpr ⟨r, hrun, hfin⟩
      have htakes := (finish_takes hleads).of_settles hsettles
      refine ⟨true, htakes.lacCheck, ?_⟩
      simpa [Unexpected] using ⟨p, (parseProgram_eq_some.mp hp).1⟩
  | some tok =>
    cases hstep : stepReader r tok with
    | none =>
      refine hrefused ?_ fun ht => by cases ht
      rintro tok' ⟨⟩
      exact hstep
    | some r' =>
      obtain ⟨st₂, st₃, htakes, -, -⟩ := h.step hstep
      have hrun' : (read ++ [tok]).foldlM stepReader {} = some r' := by
        rw [reader_append hrun, reader_cons hstep]
        rfl
      have htakes : Takes (some tok) st st₂ := htakes.of_settles hsettles
      refine ⟨true, htakes.lacCheck, ?_⟩
      simpa [Unexpected, Viable] using reads_iff_viable.mp ⟨r', hrun'⟩

/-! ### The kind of no token -/

theorem neg_entries : ∀ p ∈ yytables.yytable.zip yytables.yycheck,
    p.2 ≠ 56 ∧ p.2 ≠ 1 ∧ (p.2 = 0 → p.1 = 73) := by
  decide +kernel

/-- `NEG` has no entries of its own, and the end of the text has only that which accepts. -/
theorem neg_action {state : Nat} (h : ∀ s, yytables.action state 0 ≠ .shift s) :
    yytables.action state 56 = yytables.action state 0 := by
  cases hc : yytables.consistent state with
  | true => rw [Lalr.action_of_consistent hc, Lalr.action_of_consistent hc]
  | false =>
    have hneg : yytables.entry (yytables.yypact.getD state 0 + 56) 56 = none := by
      cases hentry : yytables.entry (yytables.yypact.getD state 0 + 56) 56 with
      | none => rfl
      | some yyn => exact absurd rfl (neg_entries _ (Lalr.Tables.entry_mem wellFormed hentry)).1
    have hzero : yytables.entry (yytables.yypact.getD state 0 + 0) 0 = none := by
      cases hentry : yytables.entry (yytables.yypact.getD state 0 + 0) 0 with
      | none => rfl
      | some yyn =>
        have hyyn : yyn = 73 :=
          (neg_entries _ (Lalr.Tables.entry_mem wellFormed hentry)).2.2 rfl
        subst hyyn
        refine absurd ?_ (h 73)
        simp only [Lalr.Tables.action, hc, Bool.false_eq_true, if_false, Nat.cast_zero, hentry]
        rfl
    simp only [Lalr.Tables.action, hc, Bool.false_eq_true, if_false, Nat.cast_zero,
      Nat.cast_ofNat, hneg, hzero]

theorem neg_leads (h : Leads 0 st st₁) : Leads 56 st st₁ := by
  induction h with
  | refl => exact .refl
  | @reduce st st₁ rule h _ ih =>
    have hneg : yytables.action st.top 56 = yytables.action st.top 0 :=
      neg_action fun s hs => by rw [h] at hs; cases hs
    exact .reduce (hneg.trans h) ih

theorem neg_errs (h : ReaderModels r st) : Errs 56 st := by
  cases hfin : finishReader r with
  | some p =>
    obtain ⟨l, hleads⟩ := h.finish hfin
    exact (neg_leads hleads).errs (errs_at (by decide) (by decide) _ _)
  | none =>
    have herrs : Errs 0 st := h.errs (t := none) (fun tok htok => by cases htok) fun _ => hfin
    obtain ⟨st₁, hleads, hc, herr⟩ := herrs
    have hneg : yytables.action st₁.top 56 = yytables.action st₁.top 0 :=
      neg_action fun s hs => by rw [herr] at hs; cases hs
    exact ⟨st₁, neg_leads hleads, hc, hneg.trans herr⟩

/-! ### All kinds -/

/-- A token of each kind. -/
def samples : List Token :=
  symbols.map Token.sym ++ [.identifier "", .constant (.i8 0), .constant (.i16 0),
    .constant (.i32 0), .constant (.i64 0), .constant (.u8 0), .constant (.u16 0),
    .constant (.u32 0), .constant (.u64 0), .constant (.f32 0), .constant (.f64 0),
    .constant (.string [])]

theorem samples_kind : ∀ k ∈ List.range 56, k ≠ Lalr.yyerror → k ≠ Lalr.yyundef →
    ∃ t ∈ none :: samples.map (fun tok => some (tok, ({} : Location))), kind t = k := by
  decide

theorem kind_reserved (t : Option Located) :
    kind t ≠ Lalr.yyerror ∧ kind t ≠ Lalr.yyundef := by
  rcases t with _ | ⟨tok, loc⟩
  · decide
  · cases tok with
    | constant v =>
      have hv := List.mem_range'_1.mp (constantKind_mem v)
      have h : constantKind v ≠ 1 ∧ constantKind v ≠ 2 := by omega
      exact h
    | identifier name => exact (by decide : 44 ≠ 1 ∧ 44 ≠ 2)
    | sym s =>
      have hs := symKind_bounds s
      have h : symKind s ≠ 1 ∧ symKind s ≠ 2 := by omega
      exact h

/-- A token of the kind, or the end of the text, is in a text of the grammar behind what has been
read. -/
def Expected (read : List Located) (k : Nat) : Prop := ∃ t, kind t = k ∧ ¬ Unexpected read t

theorem kind_checks (hrun : read.foldlM stepReader {} = some r) (h : ReaderModels r st₁)
    (hsettles : Settles st₁ st) (hk : k < 57) (hk₁ : k ≠ Lalr.yyerror) (hk₂ : k ≠ Lalr.yyundef) :
    ∃ b, Checks yytables (st.map Prod.fst) k b ∧ (b = true ↔ Expected read k) := by
  by_cases hneg : k = 56
  · subst hneg
    refine ⟨false, ((neg_errs h).of_settles hsettles).lacCheck, ?_⟩
    refine iff_of_false Bool.false_ne_true ?_
    rintro ⟨t, ht, -⟩
    have hlt := kind_lt t
    omega
  · obtain ⟨t, -, rfl⟩ := samples_kind k (List.mem_range.mpr (by omega)) hk₁ hk₂
    obtain ⟨b, hb, hiff⟩ := token_checks hrun h hsettles t
    refine ⟨b, hb, hiff.trans ⟨fun ht => ⟨t, rfl, ht⟩, ?_⟩⟩
    -- the check does not tell the tokens of a kind apart
    rintro ⟨t', hkind, ht'⟩
    obtain ⟨b', hb', hiff'⟩ := token_checks hrun h hsettles t'
    rw [hkind] at hb'
    exact hiff.mp ((hb.unique hb').trans (hiff'.mpr ht'))

/-! ## 3. Reports -/

/-- Something is expected behind what can be completed. -/
theorem expected_exists (h : Viable read) : ∃ k, Expected read k := by
  obtain ⟨p, ts, hp, more, rfl⟩ := h
  cases more with
  | nil =>
    rw [List.append_nil] at hp
    exact ⟨0, none, rfl, fun hnone => hnone p hp⟩
  | cons tok more =>
    exact ⟨_, some tok, rfl, fun hnone => hnone ⟨p, _, hp, more, by simp⟩⟩

/-- The kinds are tried in their order. -/
theorem range_filter {n : Nat} {ks : List Nat} (hsorted : ks.Pairwise (· < ·))
    (hlt : ∀ k ∈ ks, k < n) : (List.range n).filter (fun k => decide (k ∈ ks)) = ks := by
  refine List.Perm.eq_of_pairwise (fun a b _ _ hab hba => absurd hab (Nat.lt_asymm hba))
    (List.pairwise_lt_range.filter _) hsorted ?_
  refine (List.perm_ext_iff_of_nodup (List.nodup_range.filter _)
    (hsorted.imp fun h => Nat.ne_of_lt h)).mpr fun k => ?_
  rw [List.mem_filter, List.mem_range, decide_eq_true_iff]
  exact ⟨And.right, fun hk => ⟨hlt k hk, hk⟩⟩

/-- The report on a token at which the parser stops. -/
theorem report_eq (hrun : read.foldlM stepReader {} = some r) (h : ReaderModels r st₁)
    (hsettles : Settles st₁ st) (source : String) (s : Lexer.Stream) {expected : List Nat}
    (hsorted : expected.Pairwise (· < ·)) (hexpected : ∀ k, k ∈ expected ↔ Expected read k) :
    ∃ n, ∀ fuel, n ≤ fuel → report fuel source s st t =
      some ((lookaheadLoc s t).toString source ++ ": " ++ errorText (symbolName (kind t))
        (if expected.length ≤ yyargn then expected.map symbolName else [])) := by
  have hlt {k : Nat} (hk : k ∈ expected) : k < 57 := by
    obtain ⟨t, rfl, -⟩ := (hexpected k).mp hk
    exact kind_lt' t
  have hskipped {k : Nat} (hk : k ∈ expected) : k ≠ Lalr.yyerror ∧ k ≠ Lalr.yyundef := by
    obtain ⟨t, rfl, -⟩ := (hexpected k).mp hk
    exact kind_reserved t
  have hchecks : ∀ k ∈ List.range 57, k ≠ Lalr.yyerror → k ≠ Lalr.yyundef →
      Checks yytables (st.map Prod.fst) k (decide (k ∈ expected)) := by
    intro k hk hk₁ hk₂
    obtain ⟨b, hb, hiff⟩ := kind_checks hrun h hsettles (List.mem_range.mp hk) hk₁ hk₂
    rwa [Bool.eq_iff_iff.mpr (hiff.trans ((hexpected k).symm.trans decide_eq_true_iff.symm))] at hb
  have hfilter : (List.range 57).filter (fun k => decide (k ∈ expected)) = expected :=
    range_filter hsorted fun k hk => hlt hk
  have hnone : ([] : List Nat).length ≤ yyargn := Nat.zero_le _
  obtain ⟨n, hn⟩ := Lalr.expectedTokens_eq hchecks
    (decide_eq_false fun hk => (hskipped hk).1 rfl) (decide_eq_false fun hk => (hskipped hk).2 rfl)
    hnone
  rw [List.nil_append, hfilter] at hn
  refine ⟨n, fun fuel hfuel => ?_⟩
  have hn : expectedTokens yytables (st.map Prod.fst) yyargn fuel
      (List.range yytables.yyntokens) [] = _ := hn fuel hfuel
  rw [report, yysyntaxError, hn, Option.map_some, Option.map_some]
  congr 2
  by_cases hlen : expected.length ≤ yyargn
  · have hnames : (expected.map symbolName).length ≤ yyargn := by rwa [List.length_map]
    have hfill := yyformat_fill (symbolName (kind t)) hnames
    rw [List.length_cons, List.length_map] at hfill
    rw [if_pos hlen, if_pos hlen]
    exact hfill
  · have hnames : ([] : List String).length ≤ yyargn := Nat.zero_le _
    have hfill := yyformat_fill (symbolName (kind t)) hnames
    rw [List.length_singleton] at hfill
    simp only [if_neg hlen, List.map_cons, List.map_nil, List.length_singleton]
    exact hfill

/-- **A syntax error names what the grammar expects.**  The parser stops at the first token that no
text of the grammar has at its place, and says where that is and what it is; it lists the tokens,
maybe with the end of the text, that some text of the grammar has there, in the order of their
kinds, if there are at most four of them.  Then it gives up. -/
theorem syntax_errors_exact {s : Lexer.Stream} {fuel : Nat} {st : Stack}
    {rest : List (Option Located)} (h : parse fuel s = some (.syntaxError st rest))
    (source : String) :
    ∃ read t more expected, input s = read.map some ++ rest ∧ rest = t :: more ∧
      Viable read ∧ Unexpected read t ∧
      expected.Pairwise (· < ·) ∧ (∀ k, k ∈ expected ↔ Expected read k) ∧ expected ≠ [] ∧
      kind t ∉ expected ∧
      (∃ n, ∀ fuel, n ≤ fuel → report fuel source s st t =
        some ((lookaheadLoc s t).toString source ++ ": " ++ errorText (symbolName (kind t))
          (if expected.length ≤ yyargn then expected.map symbolName else []))) ∧
      errorState yytables (st.map Prod.fst) = none := by
  classical
  obtain ⟨outcome, ⟨n, hn⟩, hstops⟩ := parse_stops s
  cases (Lalr.Returns.of_run h).unique ⟨n, hn⟩
  cases hstops with
  | @error read t more r st₁ st hinput hrun hstuck hend hmodels hsettles hc hreaches =>
    have hviable : Viable read := reads_iff_viable.mp ⟨r, hrun⟩
    have hunexpected := unexpected_of_stuck hrun hstuck hend
    have hsorted : ((List.range 57).filter fun k => decide (Expected read k)).Pairwise (· < ·) :=
      List.pairwise_lt_range.filter _
    have hexpected (k : Nat) :
        k ∈ (List.range 57).filter (fun k => decide (Expected read k)) ↔ Expected read k := by
      rw [List.mem_filter, List.mem_range, decide_eq_true_iff]
      refine ⟨And.right, fun hk => ⟨?_, hk⟩⟩
      obtain ⟨t, rfl, -⟩ := hk
      exact kind_lt' t
    refine ⟨read, t, more, _, hinput, rfl, hviable, hunexpected, hsorted, hexpected, ?_, ?_,
      report_eq hrun hmodels hsettles source s hsorted hexpected,
      Lalr.errorState_eq_none wellFormed (fun p hp => (neg_entries p hp).2.1) _⟩
    · obtain ⟨k, hk⟩ := expected_exists hviable
      exact List.ne_nil_of_mem ((hexpected k).mpr hk)
    · rw [hexpected]
      obtain ⟨b, hb, hiff⟩ := token_checks hrun hmodels hsettles t
      obtain ⟨b', hb', hiff'⟩ := kind_checks hrun hmodels hsettles (kind_lt' t)
        (kind_reserved t).1 (kind_reserved t).2
      rw [← hiff', ← hb.unique hb', hiff]
      exact not_not_intro hunexpected

example : yysyntaxError 9 [1, 0] (kind none) =
    some "syntax error, unexpected end of file, expecting identifier" := by
  decide +kernel

/-- The text `let`. -/
def unfinishedLet : Lexer.Stream := ⟨[(.sym .let_, {})], false, {}⟩

theorem unfinishedLet_reported : ∃ st read t expected, parse 2 unfinishedLet =
    some (.syntaxError st [t]) ∧ input unfinishedLet = read.map some ++ [t] ∧ Unexpected read t ∧
    expected.Pairwise (· < ·) ∧ (∀ k, k ∈ expected ↔ Expected read k) ∧ expected ≠ [] ∧
    kind t ∉ expected ∧
    (∃ n, ∀ fuel, n ≤ fuel → report fuel "let" unfinishedLet st t =
      some ((lookaheadLoc unfinishedLet t).toString "let" ++ ": " ++ errorText (symbolName (kind t))
        (if expected.length ≤ yyargn then expected.map symbolName else []))) ∧
    errorState yytables (st.map Prod.fst) = none := by
  have hparse : parse 2 unfinishedLet =
      some (.syntaxError [(1, shift (some (.sym .let_, {}))), (0, {})] [none]) := rfl
  obtain ⟨read, t, more, expected, hinput, hrest, -, hunexpected, hsorted, hexpected, hne, hkind,
    hreport, herror⟩ := syntax_errors_exact hparse "let"
  obtain ⟨rfl, rfl⟩ := List.cons.inj hrest
  exact ⟨_, read, none, expected, hparse, hinput, hunexpected, hsorted, hexpected, hne, hkind,
    hreport, herror⟩

end Bison

end Athena

end JitFusion
