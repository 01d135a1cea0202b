/-
# Comments

An independent scanner finds the comments of a text: it reads from left to right and knows only
strings and comments.  Replacing each comment by a blank leaves what the lexer reads unchanged
(`comments_transparent`), where the rules of the lexer cover the text.

The lexer finds the same comments because no token but a string has a quote, a blank or a newline
in it, and none but the division and the strings has a slash (`plain_reads`).  Where it reads such
a token, it reads the same one before the rest of the stripped text (`wins_strip`).
-/
import JitFusion.Lexer

namespace JitFusion

namespace Athena

namespace Lexer

open Flex (Rules Lexeme Wins Lexes ruleOf)
open Flex.Regex (Matches)

/-! ## 1. The scanner -/

def space : UInt8 := ' '.toUInt8
def newline : UInt8 := '\n'.toUInt8
def slash : UInt8 := '/'.toUInt8
def asterisk : UInt8 := '*'.toUInt8
def backslash : UInt8 := '\\'.toUInt8

def isQuote (c : UInt8) : Bool := c == '"'.toUInt8 || c == '\''.toUInt8

/-- There is a terminator of a block comment in the text. -/
def closes : Bytes → Bool
  | [] => false
  | c :: s => (c == asterisk && s.head? == some slash) || closes s

/-- Where the scanner is: outside, in a string with the quote, in a line comment, before the second
character of the opener of a block comment, or in a block comment. -/
inductive Mode
  | code
  | string (quote : UInt8) (escaped : Bool)
  | line
  | opener
  | block (star : Bool)

/-- The mode after a character of a string. -/
def afterStringChar (quote : UInt8) (escaped : Bool) (c : UInt8) : Mode :=
  if escaped then .string quote false
  else if c = backslash then .string quote true
  else if c = quote then .code
  else .string quote false

/-- The text with a blank in the place of each comment.  An opener without a terminator is not a
comment. -/
def stripFrom : Mode → Bytes → Bytes
  | _, [] => []
  | .code, c :: s =>
    if isQuote c then c :: stripFrom (.string c false) s
    else if c = slash ∧ s.head? = some slash then space :: stripFrom .line s
    else if c = slash ∧ s.head? = some asterisk ∧ closes s.tail then space :: stripFrom .opener s
    else c :: stripFrom .code s
  | .string quote escaped, c :: s => c :: stripFrom (afterStringChar quote escaped c) s
  | .line, c :: s => if c = newline then c :: stripFrom .code s else stripFrom .line s
  | .opener, _ :: s => stripFrom (.block false) s
  | .block star, c :: s =>
    if star ∧ c = slash then stripFrom .code s else stripFrom (.block (c == asterisk)) s

def strip (s : Bytes) : Bytes := stripFrom .code s

/-! ## 2. The rules -/

/-- The characters that layout, comments and strings begin with. -/
def special : Bytes := text " \t\r\n\"'/"

/-- The actions of the tokens without a special character. -/
def Action.plain : Action → Bool
  | .sym s => s ≠ .slash
  | .identifier | .int _ | .f32 | .f64 => true
  | .blank | .newlines | .lineComment | .blockComment | .string => false

theorem plain_reads :
    ∀ r ∈ rules, r.2.plain = true → ∀ c ∈ special, r.1.reads c = false := by
  decide +kernel

/-- The special characters that a rule begins with. -/
def Action.startsWith (c : UInt8) : Action → Bool
  | .blank => isBlank c
  | .newlines => isNewline c
  | .string => isQuote c
  | .lineComment | .blockComment | .sym .slash => c == slash
  | _ => false

theorem special_starts :
    ∀ c ∈ special, ∀ r ∈ rules, r.1.starts c = true → r.2.startsWith c = true := by
  decide +kernel

/-- The patterns of the rules that are not plain. -/
def patternOf (r : Flex.Regex UInt8) : Action → Prop
  | .blank => r = blank.plus
  | .newlines => r = (Flex.Regex.cls isNewline).plus
  | .lineComment => r = lineComment
  | .blockComment => r = blockComment
  | .sym .slash => r = word "/"
  | .string => r = string '"' ∨ r = string '\''
  | _ => True

theorem patternOf_mem : ∀ r ∈ rules, patternOf r.1 r.2 := by
  simp [rules, patternOf]

/-- The rule of a word, with its pattern. -/
theorem rule_of_ruleOf {w : Bytes} {k : Action} (h : ruleOf rules w = some k) :
    ∃ r, (r, k) ∈ rules ∧ r.Matches w ∧ patternOf r k := by
  rcases Flex.ruleOf_eq_some h with ⟨⟨r, k'⟩, hr, hm, rfl⟩
  exact ⟨r, hr, hm, patternOf_mem _ hr⟩

theorem not_special_of_plain {w : Bytes} {k : Action} (h : ruleOf rules w = some k)
    (hk : k.plain = true) : ∀ c ∈ w, c ∉ special := by
  rcases rule_of_ruleOf h with ⟨r, hr, hm, -⟩
  intro c hc hs
  exact hm.not_mem (plain_reads _ hr hk c hs) hc

theorem startsWith_of_ruleOf {c : UInt8} {w : Bytes} {k : Action}
    (h : ruleOf rules (c :: w) = some k) (hc : c ∈ special) : k.startsWith c = true := by
  rcases rule_of_ruleOf h with ⟨r, hr, hm, -⟩
  exact special_starts c hc _ hr hm.starts

/-! ## 3. What the scanner copies -/

theorem strip_cons {c : UInt8} {s : Bytes} (hq : isQuote c = false)
    (hs : c = slash → s.head? ≠ some slash ∧ ¬ (s.head? = some asterisk ∧ closes s.tail = true)) :
    strip (c :: s) = c :: strip s := by
  rw [strip, stripFrom, if_neg (by simp [hq]), if_neg fun h => (hs h.1).1 h.2,
    if_neg fun h => (hs h.1).2 h.2]
  rfl

/-- A text without quotes and slashes is copied. -/
theorem strip_append {w s : Bytes} (h : ∀ c ∈ w, isQuote c = false ∧ c ≠ slash) :
    strip (w ++ s) = w ++ strip s := by
  induction w with
  | nil => rfl
  | cons c w ih =>
    rw [List.forall_mem_cons] at h
    rw [List.cons_append, strip_cons h.1.1 fun hc => absurd hc h.1.2, ih h.2, List.cons_append]

/-- Outside the comments, a scanner copies its first character or a comment begins there. -/
theorem head_stripFrom {m : Mode} {c : UInt8} {s : Bytes}
    (hm : m = .code ∨ ∃ quote escaped, m = .string quote escaped) :
    (stripFrom m (c :: s)).head? = some c ∨ (stripFrom m (c :: s)).head? = some space := by
  rcases hm with rfl | ⟨quote, escaped, rfl⟩
  · rw [stripFrom]
    split
    · exact .inl rfl
    · split
      · exact .inr rfl
      · split
        · exact .inr rfl
        · exact .inl rfl
  · exact .inl rfl

theorem afterStringChar_copies (quote : UInt8) (escaped : Bool) (c : UInt8) :
    afterStringChar quote escaped c = .code ∨
      ∃ quote' escaped', afterStringChar quote escaped c = .string quote' escaped' := by
  unfold afterStringChar
  split
  · exact .inr ⟨_, _, rfl⟩
  · split
    · exact .inr ⟨_, _, rfl⟩
    · split
      · exact .inl rfl
      · exact .inr ⟨_, _, rfl⟩

/-- Stripping makes no terminator of a block comment. -/
theorem closes_of_stripFrom {s : Bytes} : ∀ {m : Mode}, closes (stripFrom m s) = true →
    closes s = true := by
  induction s with
  | nil =>
    intro m h
    cases m <;> cases h
  | cons c s ih =>
    -- a character that is copied, and what follows it outside the comments
    have hcopy : ∀ {m : Mode}, (m = .code ∨ ∃ quote escaped, m = .string quote escaped) →
        closes (c :: stripFrom m s) = true → closes (c :: s) = true := by
      intro m hm h
      rw [closes, Bool.or_eq_true] at h ⊢
      rcases h with h | h
      · left
        rw [Bool.and_eq_true, beq_iff_eq, beq_iff_eq] at h ⊢
        refine ⟨h.1, ?_⟩
        cases s with
        | nil => cases m <;> cases h.2
        | cons d s =>
          rcases head_stripFrom (c := d) (s := s) hm with hd | hd
          · rw [← h.2, hd]
            rfl
          · exact absurd (hd.symm.trans h.2) (by decide)
      · exact .inr (ih h)
    have hskip : ∀ {m : Mode} {d : UInt8}, d ≠ asterisk → closes (d :: stripFrom m s) = true →
        closes (c :: s) = true := by
      intro m d hd h
      rw [closes, Bool.or_eq_true, Bool.and_eq_true, beq_iff_eq] at h
      rw [closes, Bool.or_eq_true]
      rcases h with h | h
      · exact absurd h.1 hd
      · exact .inr (ih h)
    have hnone : ∀ {m : Mode}, closes (stripFrom m s) = true → closes (c :: s) = true := by
      intro m h
      rw [closes, Bool.or_eq_true]
      exact .inr (ih h)
    intro m h
    cases m with
    | code =>
      rw [stripFrom] at h
      split at h
      · exact hcopy (.inr ⟨_, _, rfl⟩) h
      · split at h
        · exact hskip (by decide) h
        · split at h
          · exact hskip (by decide) h
          · exact hcopy (.inl rfl) h
    | string quote escaped =>
      rw [stripFrom] at h
      exact hcopy (afterStringChar_copies quote escaped c) h
    | line =>
      rw [stripFrom] at h
      split at h
      · exact hcopy (.inl rfl) h
      · exact hnone h
    | opener => exact hnone h
    | block star =>
      rw [stripFrom] at h
      split at h
      · exact hnone h
      · exact hnone h

/-- A beginning of the stripped text without special characters is one of the text. -/
theorem prefix_of_strip {s : Bytes} : ∀ {v : Bytes}, v <+: strip s → (∀ c ∈ v, c ∉ special) →
    v <+: s := by
  induction s with
  | nil => exact fun h _ => h
  | cons c s ih =>
    intro v hv hplain
    cases v with
    | nil => exact List.nil_prefix
    | cons d v =>
      rw [List.forall_mem_cons] at hplain
      rw [strip, stripFrom] at hv
      split at hv
      · rename_i hq
        rw [List.cons_prefix_cons] at hv
        refine absurd ?_ hplain.1
        rcases Bool.or_eq_true _ _ ▸ hq with hq | hq
        · rw [hv.1, eq_of_beq hq]
          decide
        · rw [hv.1, eq_of_beq hq]
          decide
      · split at hv
        · rw [List.cons_prefix_cons] at hv
          exact absurd (hv.1 ▸ (by decide : space ∈ special)) hplain.1
        · split at hv
          · rw [List.cons_prefix_cons] at hv
            exact absurd (hv.1 ▸ (by decide : space ∈ special)) hplain.1
          · rw [List.cons_prefix_cons] at hv ⊢
            exact ⟨hv.1, ih hv.2 hplain.2⟩

/-! ## 4. Comments -/

theorem matches_word {s : String} {w : Bytes} : Matches (word s) w ↔ w = text s :=
  Flex.Regex.matches_lit

theorem matches_noneOf {cs : List Char} {w : Bytes} :
    Matches (noneOf cs) w ↔ ∃ c, c ∉ cs.map Char.toUInt8 ∧ w = [c] := by
  simp [noneOf, Flex.Regex.matches_cls]

/-- A line comment is two slashes and what stands in the line behind them. -/
theorem matches_lineComment {w : Bytes} :
    Matches lineComment w ↔ ∃ v, w = slash :: slash :: v ∧ newline ∉ v := by
  have hv : ∀ v : Bytes, Matches (noneOf ['\n']).star v ↔ newline ∉ v := by
    intro v
    rw [noneOf, Flex.Regex.matches_star_cls]
    constructor
    · intro h hmem
      exact absurd (h _ hmem) (by decide)
    · intro h c hc
      have hne : c ≠ newline := fun heq => h (heq ▸ hc)
      simpa [newline] using hne
  rw [lineComment, Flex.Regex.matches_seq]
  constructor
  · rintro ⟨u, v, rfl, hu, h⟩
    rw [matches_word.mp hu]
    exact ⟨v, rfl, (hv v).mp h⟩
  · rintro ⟨v, rfl, h⟩
    exact ⟨text "//", v, rfl, matches_word.mpr rfl, (hv v).mpr h⟩

theorem stripFrom_line {v rest : Bytes} (hv : newline ∉ v)
    (hrest : rest = [] ∨ rest.head? = some newline) :
    stripFrom .line (v ++ rest) = strip rest := by
  induction v with
  | nil =>
    cases rest with
    | nil => rfl
    | cons c rest =>
      rcases hrest with h | h
      · cases h
      · cases h
        rw [List.nil_append, stripFrom, if_pos rfl, strip_cons (by decide) fun h =>
          absurd h (by decide)]
        rfl
  | cons c v ih =>
    rw [List.mem_cons, not_or] at hv
    rw [List.cons_append, stripFrom, if_neg (Ne.symm hv.1), ih hv.2]

theorem strip_lineComment {v rest : Bytes} (hv : newline ∉ v)
    (hrest : rest = [] ∨ rest.head? = some newline) :
    strip (slash :: slash :: v ++ rest) = space :: strip rest := by
  rw [strip, List.cons_append, stripFrom, if_neg (by decide), if_pos ⟨rfl, rfl⟩, List.cons_append,
    stripFrom, if_neg (by decide), stripFrom_line hv hrest]

theorem closes_append {s : Bytes} (w : Bytes) (h : closes s = true) : closes (w ++ s) = true := by
  induction w with
  | nil => exact h
  | cons c w ih => rw [List.cons_append, closes, ih, Bool.or_true]

/-- A run of asterisks. -/
theorem stars_rec {P : Bytes → Prop} {w : Bytes} (h : Matches (word "*").plus w)
    (hone : P [asterisk]) (hmore : ∀ v, P v → P (asterisk :: v)) : P w := by
  rcases Flex.Regex.matches_seq.mp h with ⟨u, v, rfl, hu, hv⟩
  rw [matches_word.mp hu]
  refine hv.star_rec (P := fun v => P (text "*" ++ v)) hone fun u v hu hv => ?_
  rw [matches_word.mp hu]
  exact hmore _ hv

theorem stripFrom_stars {w : Bytes} (h : Matches (word "*").plus w) (s : Bytes) :
    ∀ b, stripFrom (.block b) (w ++ s) = stripFrom (.block true) s := by
  refine stars_rec (P := fun w => ∀ b, stripFrom (.block b) (w ++ s) = _) h ?_ ?_
  · intro b
    rw [List.singleton_append, stripFrom, if_neg (by decide +revert)]
    rfl
  · intro v ih b
    rw [List.cons_append, stripFrom, if_neg (by decide +revert)]
    exact ih true

/-- The rest of a block comment is some rounds, a run of asterisks and a slash. -/
theorem stripFrom_blockRest {w : Bytes} (h : Matches blockRest w) (rest : Bytes) :
    stripFrom (.block false) (w ++ rest) = strip rest := by
  rcases Flex.Regex.matches_seq.mp h with ⟨body, t, rfl, hbody, ht⟩
  rcases Flex.Regex.matches_seq.mp ht with ⟨stars, e, rfl, hstars, he⟩
  rw [matches_word.mp he]
  have hround : ∀ s, stripFrom (.block false) (body ++ s) = stripFrom (.block false) s := by
    refine hbody.star_rec (P := fun v => ∀ s, stripFrom (.block false) (v ++ s) =
      stripFrom (.block false) s) (fun _ => rfl) ?_
    intro u v hu ih s
    rw [List.append_assoc, ← ih s]
    rcases Flex.Regex.matches_alt.mp hu with hu | hu
    · rcases matches_noneOf.mp hu with ⟨c, hc, rfl⟩
      have hne : (c == asterisk) = false := by simpa [asterisk] using hc
      rw [List.singleton_append, stripFrom, if_neg (by simp), hne]
    · rcases Flex.Regex.matches_seq.mp hu with ⟨u₁, u₂, rfl, hu₁, hu₂⟩
      rcases matches_noneOf.mp hu₂ with ⟨c, hc, rfl⟩
      have hne : (c == asterisk) = false ∧ c ≠ slash := by
        simpa [asterisk, slash] using hc
      rw [List.append_assoc, stripFrom_stars hu₁, List.singleton_append, stripFrom,
        if_neg fun h => hne.2 h.2, hne.1]
  rw [List.append_assoc, hround, List.append_assoc, stripFrom_stars hstars]
  rfl

theorem closes_blockRest {w : Bytes} (h : Matches blockRest w) (rest : Bytes) :
    closes (w ++ rest) = true := by
  rcases Flex.Regex.matches_seq.mp h with ⟨body, t, rfl, -, ht⟩
  rcases Flex.Regex.matches_seq.mp ht with ⟨stars, e, rfl, hstars, he⟩
  rw [matches_word.mp he, List.append_assoc, List.append_assoc]
  refine closes_append body (stars_rec (P := fun v => closes (v ++ (text "/" ++ rest)) = true)
    hstars rfl fun v hv => ?_)
  rw [List.cons_append, closes, hv, Bool.or_true]

theorem strip_blockComment {w : Bytes} (h : Matches blockRest w) (rest : Bytes) :
    strip (slash :: asterisk :: w ++ rest) = space :: strip rest := by
  have hne : some asterisk ≠ some slash := by decide
  rw [strip, List.cons_append, stripFrom, if_neg (by decide), if_neg fun h => hne h.2,
    if_pos ⟨rfl, rfl, closes_blockRest h rest⟩, List.cons_append, stripFrom, stripFrom_blockRest h]

/-- A block comment goes on over a character that is not an asterisk. -/
theorem blockRest_cons {c : UInt8} {w : Bytes} (hc : c ≠ asterisk) (h : Matches blockRest w) :
    Matches blockRest (c :: w) := by
  rcases Flex.Regex.matches_seq.mp h with ⟨body, t, rfl, hbody, ht⟩
  have hround : Matches (noneOf ['*']) [c] :=
    matches_noneOf.mpr ⟨c, by simpa [asterisk] using hc, rfl⟩
  have := Matches.seq (.starCons (.altLeft hround) hbody) ht
  exact this

/-- And over an asterisk without a slash behind it. -/
theorem blockRest_star_cons {c : UInt8} {w : Bytes} (hc : c ≠ asterisk) (hs : c ≠ slash)
    (h : Matches blockRest w) : Matches blockRest (asterisk :: c :: w) := by
  rcases Flex.Regex.matches_seq.mp h with ⟨body, t, rfl, hbody, ht⟩
  have hstar : Matches (word "*").plus [asterisk] :=
    Matches.seq (matches_word.mpr rfl) .starNil
  have hround : Matches (noneOf ['*', '/']) [c] :=
    matches_noneOf.mpr ⟨c, by simpa [asterisk, slash] using ⟨hc, hs⟩, rfl⟩
  have := Matches.seq (.starCons (.altRight (.seq hstar hround)) hbody) ht
  exact this

/-- One asterisk more. -/
theorem blockRest_star_star {w : Bytes} (h : Matches blockRest (asterisk :: w)) :
    Matches blockRest (asterisk :: asterisk :: w) := by
  have hmore : ∀ {u : Bytes}, Matches (word "*").plus u →
      Matches (word "*").plus (asterisk :: u) := by
    intro u hu
    rcases Flex.Regex.matches_seq.mp hu with ⟨u₁, u₂, rfl, hu₁, hu₂⟩
    exact .seq (u := [asterisk]) (matches_word.mpr rfl) (.starCons hu₁ hu₂)
  rcases Flex.Regex.matches_seq_cons.mp h with ⟨body, t, rfl, hbody, ht⟩ | ⟨-, ht⟩
  · rcases Flex.Regex.matches_star.mp hbody with hb | ⟨u, v, hb, hne, hu, hv⟩
    · cases hb
    · cases u with
      | nil => exact absurd rfl hne
      | cons c u =>
        cases hb
        rcases Flex.Regex.matches_alt.mp hu with hu | hu
        · rcases matches_noneOf.mp hu with ⟨c, hc, h⟩
          cases h
          exact absurd (by decide) hc
        · rcases Flex.Regex.matches_seq.mp hu with ⟨u₁, u₂, hu, hu₁, hu₂⟩
          have hlong : Matches ((word "*").plus.seq (noneOf ['*', '/']))
              (asterisk :: asterisk :: u) := by
            rw [hu]
            exact .seq (hmore hu₁) hu₂
          have := Matches.seq (.starCons (.altRight hlong) hv) ht
          exact this
  · rcases Flex.Regex.matches_seq.mp ht with ⟨stars, e, h, hstars, he⟩
    rw [h]
    exact .seq (u := []) .starNil (.seq (hmore hstars) he)

/-- Where there is a terminator, the rest of a block comment matches. -/
theorem blockRest_of_closes (s : Bytes) :
    (closes s = true → ∃ v, v <+: s ∧ Matches blockRest v) ∧
      (closes (asterisk :: s) = true → ∃ v, v <+: asterisk :: s ∧ Matches blockRest v) := by
  induction s with
  | nil => exact ⟨nofun, fun h => absurd h (by decide)⟩
  | cons c s ih =>
    constructor
    · intro h
      by_cases hc : c = asterisk
      · subst hc
        exact ih.2 h
      · rw [closes, Bool.or_eq_true, Bool.and_eq_true, beq_iff_eq] at h
        rcases ih.1 (h.resolve_left fun h => hc h.1) with ⟨v, hv, hm⟩
        exact ⟨c :: v, List.cons_prefix_cons.mpr ⟨rfl, hv⟩, blockRest_cons hc hm⟩
    · intro h
      by_cases hs : c = slash
      · subst hs
        refine ⟨text "*/", ⟨s, rfl⟩, ?_⟩
        exact .seq (u := []) .starNil (.seq (u := text "*") (v := text "/")
          (.seq (u := text "*") (matches_word.mpr rfl) .starNil) (matches_word.mpr rfl))
      · rw [closes, Bool.or_eq_true, Bool.and_eq_true] at h
        replace h : closes (c :: s) = true := h.resolve_left fun h => hs (by simpa using h.2)
        by_cases hc : c = asterisk
        · subst hc
          rcases ih.2 h with ⟨v, hv, hm⟩
          cases v with
          | nil => exact absurd (Flex.Regex.matches_nil_iff.mp hm) (by decide)
          | cons d v =>
            rw [List.cons_prefix_cons] at hv
            rcases hv with ⟨rfl, hv⟩
            exact ⟨asterisk :: asterisk :: v, by simpa using hv, blockRest_star_star hm⟩
        · rw [closes, Bool.or_eq_true, Bool.and_eq_true, beq_iff_eq] at h
          rcases ih.1 (h.resolve_left fun h => hc h.1) with ⟨v, hv, hm⟩
          exact ⟨asterisk :: c :: v, by simpa using hv, blockRest_star_cons hc hs hm⟩

/-! ## 5. Strings -/

/-- A round of a string: a character, or a backslash and a character. -/
theorem stringBody_rec {q : Char} {P : Bytes → Prop} {w : Bytes} (h : Matches (stringBody q) w)
    (hnil : P []) (hchar : ∀ c v, c ≠ backslash → c ≠ q.toUInt8 → P v → P (c :: v))
    (hescape : ∀ c v, P v → P (backslash :: c :: v)) : P w := by
  refine h.star_rec hnil fun u v hu hv => ?_
  rcases Flex.Regex.matches_alt.mp hu with hu | hu
  · rcases matches_noneOf.mp hu with ⟨c, hc, rfl⟩
    have hne : c ≠ backslash ∧ c ≠ q.toUInt8 := by simpa [backslash] using hc
    exact hchar c v hne.1 hne.2 hv
  · rcases Flex.Regex.matches_seq.mp hu with ⟨u₁, u₂, rfl, hu₁, hu₂⟩
    rcases matches_noneOf.mp hu₂ with ⟨c, -, rfl⟩
    rw [matches_word.mp hu₁]
    exact hescape c v hv

/-- What the first round of a string leaves. -/
theorem stringBody_cons {q : Char} {c : UInt8} {w : Bytes} (h : Matches (stringBody q) (c :: w)) :
    (c ≠ backslash ∧ c ≠ q.toUInt8 ∧ Matches (stringBody q) w) ∨
      (c = backslash ∧ ∃ d v, w = d :: v ∧ Matches (stringBody q) v) := by
  rcases Flex.Regex.matches_star.mp h with h | ⟨u, v, h, -, hu, hv⟩
  · cases h
  · rcases Flex.Regex.matches_alt.mp hu with hu | hu
    · rcases matches_noneOf.mp hu with ⟨d, hd, rfl⟩
      cases h
      have hne : c ≠ backslash ∧ c ≠ q.toUInt8 := by simpa [backslash] using hd
      exact .inl ⟨hne.1, hne.2, hv⟩
    · rcases Flex.Regex.matches_seq.mp hu with ⟨u₁, u₂, rfl, hu₁, hu₂⟩
      rcases matches_noneOf.mp hu₂ with ⟨d, -, rfl⟩
      rw [matches_word.mp hu₁] at h
      cases h
      exact .inr ⟨rfl, d, v, rfl, hv⟩

theorem matches_string {q : Char} {w : Bytes} : Matches (string q) w ↔
    ∃ v, w = q.toUInt8 :: (v ++ [q.toUInt8]) ∧ Matches (stringBody q) v := by
  rw [string, Flex.Regex.matches_seq]
  constructor
  · rintro ⟨u, t, rfl, hu, ht⟩
    rcases Flex.Regex.matches_seq.mp ht with ⟨v, e, rfl, hv, he⟩
    rcases Flex.Regex.matches_cls.mp hu with ⟨c, hc, rfl⟩
    rcases Flex.Regex.matches_cls.mp he with ⟨d, hd, rfl⟩
    rw [eq_of_beq hc, eq_of_beq hd]
    exact ⟨v, rfl, hv⟩
  · rintro ⟨v, rfl, hv⟩
    exact ⟨[q.toUInt8], _, rfl, .cls (by simp), .seq hv (.cls (by simp))⟩

/-- The scanner leaves a string where the lexer does. -/
theorem strip_string {q : Char} (hq : q = '"' ∨ q = '\'') {w : Bytes} (h : Matches (string q) w)
    (rest : Bytes) : strip (w ++ rest) = w ++ strip rest := by
  have hquote : isQuote q.toUInt8 = true ∧ q.toUInt8 ≠ backslash := by
    rcases hq with rfl | rfl <;> decide
  rcases matches_string.mp h with ⟨v, rfl, hv⟩
  have hbody : ∀ s, stripFrom (.string q.toUInt8 false) (v ++ s) =
      v ++ stripFrom (.string q.toUInt8 false) s := by
    refine stringBody_rec (P := fun v => ∀ s, stripFrom (.string q.toUInt8 false) (v ++ s) =
      v ++ stripFrom (.string q.toUInt8 false) s) hv (fun _ => rfl) ?_ ?_
    · intro c v hc hcq ih s
      have hafter : afterStringChar q.toUInt8 false c = .string q.toUInt8 false := by
        simp [afterStringChar, hc, hcq]
      rw [List.cons_append, stripFrom, hafter, ih, List.cons_append]
    · intro c v ih s
      have hafter : afterStringChar q.toUInt8 true c = .string q.toUInt8 false := rfl
      have hback : afterStringChar q.toUInt8 false backslash = .string q.toUInt8 true := rfl
      rw [List.cons_append, List.cons_append, stripFrom, hback, stripFrom, hafter, ih,
        List.cons_append, List.cons_append]
  have hend : afterStringChar q.toUInt8 false q.toUInt8 = .code := by
    simp [afterStringChar, hquote.2]
  rw [strip, List.cons_append, stripFrom, if_pos hquote.1, List.append_assoc, hbody,
    List.singleton_append, stripFrom, hend, strip, List.cons_append, List.append_assoc]
  rfl

/-- A string ends at its first closing quote: no string is the beginning of another. -/
theorem string_append {q : Char} (hq : q = '"' ∨ q = '\'') {w v : Bytes}
    (h : Matches (string q) w) (h' : Matches (string q) (w ++ v)) : v = [] := by
  have hback : q.toUInt8 ≠ backslash := by
    rcases hq with rfl | rfl <;> decide
  rcases matches_string.mp h with ⟨u, rfl, hu⟩
  rcases matches_string.mp h' with ⟨u', heq, hu'⟩
  rw [List.cons_append, List.append_assoc, List.cons.injEq] at heq
  replace heq := heq.2
  revert u'
  refine stringBody_rec (P := fun u => ∀ u', Matches (stringBody q) u' →
    u ++ ([q.toUInt8] ++ v) = u' ++ [q.toUInt8] → v = []) hu ?_ ?_ ?_
  · intro u' hu' heq
    cases u' with
    | nil =>
      rw [List.nil_append, List.nil_append, List.singleton_append] at heq
      exact (List.cons.inj heq).2
    | cons c u' =>
      rw [List.nil_append, List.singleton_append, List.cons_append, List.cons.injEq] at heq
      rcases stringBody_cons hu' with ⟨-, hne, -⟩ | ⟨hc, -⟩
      · exact absurd heq.1.symm hne
      · exact absurd (heq.1.trans hc) hback
  · intro c u hc hcq ih u' hu' heq
    cases u' with
    | nil =>
      rw [List.cons_append, List.nil_append, List.cons.injEq] at heq
      exact absurd heq.1 hcq
    | cons d u' =>
      rcases List.cons.inj heq with ⟨hcd, htail⟩
      rcases stringBody_cons hu' with ⟨-, -, hm⟩ | ⟨hd, -⟩
      · exact ih u' hm htail
      · exact absurd (hcd.trans hd) hc
  · intro c u ih u' hu' heq
    cases u' with
    | nil =>
      rw [List.cons_append, List.nil_append, List.cons.injEq] at heq
      exact absurd heq.1.symm hback
    | cons d u' =>
      rcases List.cons.inj heq with ⟨hcd, htail⟩
      rcases stringBody_cons hu' with ⟨hd, -, -⟩ | ⟨-, d', u'', rfl, hm⟩
      · exact absurd hcd.symm hd
      · exact ih u'' hm (List.cons.inj htail).2

/-! ## 6. The same word wins before the stripped rest -/

/-- Layout and comments do not reach the parser. -/
def shown (l : Lexeme UInt8 Action) : Bool :=
  !([.blank, .newlines, .lineComment, .blockComment].map some).contains l.action

/-- The lexemes of a text that are not layout or comments. -/
def words (s : Bytes) : List (Lexeme UInt8 Action) := (Flex.lex rules s).filter shown

theorem words_of_wins {w rest : Bytes} {k : Action} (h : Wins rules w rest k) :
    words (w ++ rest) = if shown ⟨some k, w⟩ then ⟨some k, w⟩ :: words rest else words rest := by
  rw [words, Flex.lex_of_wins h, List.filter_cons]
  rfl

/-- A rule of the layout: the runs of a class of special characters, with which no other rule
begins. -/
structure LayoutRule (p : UInt8 → Bool) (k : Action) : Prop where
  special : ∀ c, p c = true → c ∈ special
  only : ∀ c, p c = true → ∀ k' : Action, k'.startsWith c = true → k' = k
  mem : ((Flex.Regex.cls p).plus, k) ∈ rules
  pattern : ∀ r, patternOf r k → r = (Flex.Regex.cls p).plus
  hidden : ∀ w, shown ⟨some k, w⟩ = false

theorem blankRule : LayoutRule isBlank .blank where
  special c hc := by
    simp only [isBlank, Bool.or_eq_true, beq_iff_eq] at hc
    rcases hc with (rfl | rfl) | rfl <;> decide
  only c hc k' hk := by
    simp only [isBlank, Bool.or_eq_true, beq_iff_eq] at hc
    unfold Action.startsWith at hk
    split at hk
    · rfl
    all_goals
      rcases hc with (rfl | rfl) | rfl <;> exact absurd hk (by decide)
  mem := by simp [rules, blank]
  pattern _ h := h
  hidden _ := rfl

theorem newlineRule : LayoutRule isNewline .newlines where
  special c hc := by
    rw [eq_of_beq hc]
    decide
  only c hc k' hk := by
    rw [eq_of_beq hc] at hk
    unfold Action.startsWith at hk
    split at hk
    all_goals first | rfl | exact absurd hk (by decide)
  mem := by simp [rules]
  pattern _ h := h
  hidden _ := rfl

section Layout

variable {p : UInt8 → Bool} {k : Action}

/-- Where the rule matches, the word is a run of the class. -/
theorem LayoutRule.run (hp : LayoutRule p k) {c : UInt8} {w : Bytes} {k' : Action} (hc : p c = true)
    (h : ruleOf rules (c :: w) = some k') : k' = k ∧ ∀ d ∈ c :: w, p d = true := by
  obtain rfl := hp.only c hc k' (startsWith_of_ruleOf h (hp.special c hc))
  rcases rule_of_ruleOf h with ⟨r, -, hm, hr⟩
  rw [hp.pattern r hr] at hm
  exact ⟨rfl, (Flex.Regex.matches_plus_cls.mp hm).2⟩

theorem LayoutRule.wins (hp : LayoutRule p k) {u rest : Bytes} (hu : u ≠ [])
    (hall : ∀ c ∈ u, p c = true) (hrest : ∀ c, rest.head? = some c → p c = false) :
    Wins rules u rest k := by
  cases u with
  | nil => exact absurd rfl hu
  | cons c u =>
    have hc := hall c List.mem_cons_self
    refine ⟨hu, ?_, ?_⟩
    · have hm := Flex.Regex.matches_plus_cls.mpr ⟨hu, hall⟩
      rcases Flex.ruleOf_of_mem hp.mem hm with ⟨k', hk'⟩
      rw [hk', (hp.run hc hk').1]
    · intro v hv hne
      cases h : ruleOf rules (c :: u ++ v) with
      | none => rfl
      | some k' =>
        cases v with
        | nil => exact absurd rfl hne
        | cons d v =>
          have hd := (hp.run hc h).2 d (by simp)
          rcases hv with ⟨t, rfl⟩
          exact absurd (hd.symm.trans (hrest d rfl)) nofun

/-- A character of layout in front of a text is not seen. -/
theorem LayoutRule.words_cons (hp : LayoutRule p k) {c : UInt8} (hc : p c = true) (s : Bytes) :
    words (c :: s) = words s := by
  have hrest : ∀ d, (s.dropWhile p).head? = some d → p d = false := by
    intro d hd
    have := List.head?_dropWhile_not p s
    rw [hd] at this
    simpa using this
  have hrun : ∀ d ∈ s.takeWhile p, p d = true := List.all_eq_true.mp List.all_takeWhile
  have hall : ∀ d ∈ c :: s.takeWhile p, p d = true := List.forall_mem_cons.mpr ⟨hc, hrun⟩
  have hlong := words_of_wins (hp.wins (List.cons_ne_nil _ _) hall hrest)
  rw [hp.hidden, List.cons_append, List.takeWhile_append_dropWhile] at hlong
  by_cases hnil : s.takeWhile p = []
  · have hs : s.dropWhile p = s := by
      have := List.takeWhile_append_dropWhile (p := p) (l := s)
      rwa [hnil, List.nil_append] at this
    rw [hs] at hlong
    exact hlong
  · have hshort := words_of_wins (hp.wins hnil hrun hrest)
    rw [hp.hidden, List.takeWhile_append_dropWhile] at hshort
    exact hlong.trans hshort.symm

theorem LayoutRule.words_append (hp : LayoutRule p k) {w : Bytes} (h : ∀ c ∈ w, p c = true)
    (s : Bytes) : words (w ++ s) = words s := by
  induction w with
  | nil => rfl
  | cons c w ih =>
    rw [List.forall_mem_cons] at h
    rw [List.cons_append, hp.words_cons h.1, ih h.2]

end Layout

/-- Where the slash wins, no comment begins. -/
theorem slash_wins {rest : Bytes} (h : Wins rules [slash] rest (.sym .slash)) :
    rest.head? ≠ some slash ∧ ¬ (rest.head? = some asterisk ∧ closes rest.tail = true) := by
  constructor
  · intro hs
    cases rest with
    | nil => cases hs
    | cons c rest =>
      cases hs
      have := h.longest [slash] ⟨rest, rfl⟩ (by simp)
      exact absurd this (by decide +kernel)
  · rintro ⟨hs, hcloses⟩
    cases rest with
    | nil => cases hs
    | cons c rest =>
      cases hs
      rcases (blockRest_of_closes rest).1 hcloses with ⟨v, hv, hm⟩
      have hcomment : Matches blockComment (slash :: asterisk :: v) :=
        .seq (u := text "/*") (matches_word.mpr rfl) hm
      have hmem : (blockComment, Action.blockComment) ∈ rules := by simp [rules]
      rcases Flex.ruleOf_of_mem hmem hcomment with ⟨k, hk⟩
      have := h.longest (asterisk :: v) (List.cons_prefix_cons.mpr ⟨rfl, hv⟩) (by simp)
      exact nomatch hk.symm.trans this

/-- The words of the rules that are not plain begin with special characters. -/
theorem head_special {c : UInt8} {w : Bytes} {k : Action} (h : ruleOf rules (c :: w) = some k)
    (hk : k.plain = false) : c ∈ special := by
  rcases rule_of_ruleOf h with ⟨r, -, hm, hr⟩
  have hlayout : ∀ {p : UInt8 → Bool} {k : Action}, LayoutRule p k →
      Matches (Flex.Regex.cls p).plus (c :: w) → c ∈ special := by
    intro p k hp hm
    exact hp.special c ((Flex.Regex.matches_plus_cls.mp hm).2 c List.mem_cons_self)
  cases k with
  | blank => exact hlayout blankRule (blankRule.pattern r hr ▸ hm)
  | newlines => exact hlayout newlineRule (newlineRule.pattern r hr ▸ hm)
  | lineComment =>
    obtain rfl : r = Lexer.lineComment := hr
    rcases matches_lineComment.mp hm with ⟨v, h, -⟩
    rw [(List.cons.inj h).1]
    decide
  | blockComment =>
    obtain rfl : r = Lexer.blockComment := hr
    rcases Flex.Regex.matches_seq.mp hm with ⟨u, v, h, hu, -⟩
    rw [matches_word.mp hu] at h
    rw [(List.cons.inj h).1]
    decide
  | string =>
    rcases (hr : _ ∨ _) with rfl | rfl
    all_goals
      rcases matches_string.mp hm with ⟨v, h, -⟩
      rw [(List.cons.inj h).1]
      decide
  | sym s =>
    obtain rfl : s = .slash := by simpa [Action.plain] using hk
    obtain rfl : r = word "/" := hr
    rw [(List.cons.inj (matches_word.mp hm)).1]
    decide
  | identifier | int | f32 | f64 => cases hk

/-- The stripped text begins as the text does, or with the blank of a comment. -/
theorem cons_of_strip {c : UInt8} {v s : Bytes} (hv : c :: v <+: strip s) (hc : c ≠ space) :
    ∃ s', s = c :: s' := by
  cases s with
  | nil => exact absurd (List.prefix_nil.mp hv) (by simp)
  | cons d s =>
    have hd : (strip (d :: s)).head? = some c := by
      rcases hv with ⟨t, ht⟩
      rw [← ht]
      rfl
    rcases head_stripFrom (m := .code) (c := d) (s := s) (.inl rfl) with h | h
    · exact ⟨s, by rw [Option.some.inj (h.symm.trans hd)]⟩
    · exact absurd (Option.some.inj (hd.symm.trans h)) hc

/-- What is longer than a slash and matches is a comment, and the text has no comment here. -/
theorem not_ruleOf_slash {rest v : Bytes} {k : Action} (h : Wins rules [slash] rest (.sym .slash))
    (hv : v <+: strip rest) (hne : v ≠ []) (hk : k.plain = false) :
    ruleOf rules (slash :: v) ≠ some k := by
  intro hrule
  have hslash := slash_wins h
  have hstart := startsWith_of_ruleOf hrule (by decide)
  rcases rule_of_ruleOf hrule with ⟨r, -, hm, hr⟩
  cases k with
  | blank | newlines | string => exact absurd hstart (by decide)
  | identifier | int | f32 | f64 => cases hk
  | lineComment =>
    obtain rfl : r = Lexer.lineComment := hr
    rcases matches_lineComment.mp hm with ⟨v', heq, -⟩
    cases heq
    rcases cons_of_strip hv (by decide) with ⟨rest', rfl⟩
    exact hslash.1 rfl
  | blockComment =>
    obtain rfl : r = Lexer.blockComment := hr
    rcases Flex.Regex.matches_seq.mp hm with ⟨u, b, heq, hu, hb⟩
    rw [matches_word.mp hu] at heq
    obtain rfl : v = asterisk :: b := (List.cons.inj heq).2
    rcases cons_of_strip hv (by decide) with ⟨rest', rfl⟩
    rw [strip_cons (by decide) fun h => absurd h (by decide), List.cons_prefix_cons] at hv
    rcases hv.2 with ⟨t, ht⟩
    have hcloses : closes (strip rest') = true := by
      rw [← ht]
      exact closes_blockRest hb t
    exact hslash.2 ⟨rfl, closes_of_stripFrom hcloses⟩
  | sym s =>
    obtain rfl : s = .slash := by simpa [Action.plain] using hk
    obtain rfl : r = word "/" := hr
    exact hne (List.cons.inj (matches_word.mp hm)).2

/-- A token that is not a string wins before the stripped rest as well. -/
theorem wins_strip {w rest : Bytes} {k : Action} (h : Wins rules w rest k)
    (hk : k.plain = true ∨ k = .sym .slash) : Wins rules w (strip rest) k := by
  refine ⟨h.ne_nil, h.rule, fun v hv hne => ?_⟩
  cases hk' : ruleOf rules (w ++ v) with
  | none => rfl
  | some k' =>
    cases hw : w with
    | nil => exact absurd hw h.ne_nil
    | cons c u =>
      subst hw
      cases hplain : k'.plain with
      | true =>
        -- nothing special in the longer word: it stands in the text itself
        have hv' := prefix_of_strip hv fun d hd =>
          not_special_of_plain hk' hplain d (List.mem_append_right _ hd)
        exact nomatch hk'.symm.trans (h.longest v hv' hne)
      | false =>
        have hc := head_special hk' hplain
        rcases hk with hk | rfl
        · exact absurd hc (not_special_of_plain h.rule hk c List.mem_cons_self)
        · rcases rule_of_ruleOf h.rule with ⟨r, -, hm, hr⟩
          obtain rfl : r = word "/" := hr
          obtain ⟨rfl, rfl⟩ := List.cons.inj (matches_word.mp hm)
          exact absurd hk' (not_ruleOf_slash h hv hne hplain)

theorem string_of_pattern {r : Flex.Regex UInt8} (h : patternOf r .string) :
    ∃ q, (q = '"' ∨ q = '\'') ∧ r = string q := by
  rcases (h : _ ∨ _) with h | h
  · exact ⟨_, .inl rfl, h⟩
  · exact ⟨_, .inr rfl, h⟩

/-- A string wins before any rest. -/
theorem wins_string {w rest rest' : Bytes} (h : Wins rules w rest .string) :
    Wins rules w rest' .string := by
  refine ⟨h.ne_nil, h.rule, fun v hv hne => ?_⟩
  cases hk : ruleOf rules (w ++ v) with
  | none => rfl
  | some k =>
    rcases rule_of_ruleOf h.rule with ⟨r, -, hm, hr⟩
    rcases string_of_pattern hr with ⟨q, hq, rfl⟩
    rcases matches_string.mp hm with ⟨u, rfl, -⟩
    have hstart := startsWith_of_ruleOf hk (by rcases hq with rfl | rfl <;> decide)
    obtain rfl : k = .string := by
      unfold Action.startsWith at hstart
      split at hstart
      all_goals
        rcases hq with rfl | rfl <;> first | rfl | exact absurd hstart (by decide)
    rcases rule_of_ruleOf hk with ⟨r', -, hm', hr'⟩
    rcases string_of_pattern hr' with ⟨q', hq', rfl⟩
    rcases matches_string.mp hm' with ⟨u', heq, -⟩
    obtain rfl : q = q' := by
      have hqq := (List.cons.inj heq).1
      rcases hq with rfl | rfl <;> rcases hq' with rfl | rfl <;>
        first | rfl | exact absurd hqq (by decide)
    exact absurd (string_append hq hm hm') hne

/-! ## 7. Transparency -/

theorem not_marks {c : UInt8} (h : c ∉ special) : isQuote c = false ∧ c ≠ slash := by
  constructor
  · cases hq : isQuote c with
    | false => rfl
    | true =>
      rw [isQuote, Bool.or_eq_true, beq_iff_eq, beq_iff_eq] at hq
      rcases hq with rfl | rfl <;> exact absurd (by decide) h
  · rintro rfl
    exact h (by decide)

theorem LayoutRule.not_marks {p : UInt8 → Bool} {k : Action} (hp : LayoutRule p k) {c : UInt8}
    (hc : p c = true) : isQuote c = false ∧ c ≠ slash := by
  constructor
  · cases hq : isQuote c with
    | false => rfl
    | true => exact absurd (hp.only c hc .string hq ▸ hp.hidden []) (by decide)
  · rintro rfl
    exact absurd (hp.only slash hc (.sym .slash) (by decide) ▸ hp.hidden []) (by decide)

/-- A line comment goes on to the end of its line. -/
theorem lineComment_ends {v rest : Bytes} (h : Wins rules (slash :: slash :: v) rest .lineComment) :
    rest = [] ∨ rest.head? = some newline := by
  rcases rule_of_ruleOf h.rule with ⟨r, -, hm, rfl⟩
  rcases matches_lineComment.mp hm with ⟨v', heq, hv⟩
  obtain rfl : v = v' := by simpa using heq
  cases rest with
  | nil => exact .inl rfl
  | cons c rest =>
    right
    by_contra hc
    have hne : newline ≠ c := by simpa [eq_comm] using hc
    have hmem : (Lexer.lineComment, Action.lineComment) ∈ rules := by simp [rules]
    have hlong : Matches Lexer.lineComment (slash :: slash :: v ++ [c]) :=
      matches_lineComment.mpr ⟨v ++ [c], rfl, by simp [hv, hne]⟩
    rcases Flex.ruleOf_of_mem hmem hlong with ⟨k, hk⟩
    exact nomatch hk.symm.trans (h.longest [c] ⟨rest, rfl⟩ (by simp))

/-- **One lexeme after the other.**  The stripped text has the words of the text.  By induction on
the lexemes: a comment leaves a blank, which is not seen, and any other lexeme wins again before
what stripping leaves of the rest. -/
theorem words_strip {s : Bytes} {ls : List (Lexeme UInt8 Action)} (h : Lexes rules s ls) :
    (∀ l ∈ ls, l.action ≠ none) → words (strip s) = ls.filter shown := by
  induction h with
  | nil => exact fun _ => rfl
  | default _ _ _ =>
    intro hcov
    exact absurd rfl (hcov _ List.mem_cons_self)
  | @rule w rest k ls hw _ ih =>
    intro hcov
    rw [List.forall_mem_cons] at hcov
    have hrest := ih hcov.2
    rcases rule_of_ruleOf hw.rule with ⟨r, -, hm, hr⟩
    have hspace : ∀ s, words (space :: s) = words s := blankRule.words_cons (by decide)
    have htoken : k.plain = true → words (strip (w ++ rest)) =
        (⟨some k, w⟩ :: ls).filter shown := by
      intro hk
      have hcopy : ∀ c ∈ w, isQuote c = false ∧ c ≠ slash := fun c hc =>
        not_marks (not_special_of_plain hw.rule hk c hc)
      rw [strip_append hcopy, words_of_wins (wins_strip hw (.inl hk)), hrest, List.filter_cons]
    have hlayout : ∀ {p : UInt8 → Bool}, LayoutRule p k → words (strip (w ++ rest)) =
        (⟨some k, w⟩ :: ls).filter shown := by
      intro p hp
      rw [hp.pattern r hr] at hm
      have hall := (Flex.Regex.matches_plus_cls.mp hm).2
      rw [strip_append fun c hc => hp.not_marks (hall c hc), hp.words_append hall, hrest,
        List.filter_cons, hp.hidden]
      rfl
    cases k with
    | blank => exact hlayout blankRule
    | newlines => exact hlayout newlineRule
    | lineComment =>
      obtain rfl : r = Lexer.lineComment := hr
      rcases matches_lineComment.mp hm with ⟨v, rfl, hv⟩
      rw [strip_lineComment hv (lineComment_ends hw), hspace, hrest]
      rfl
    | blockComment =>
      obtain rfl : r = Lexer.blockComment := hr
      rcases Flex.Regex.matches_seq.mp hm with ⟨u, b, rfl, hu, hb⟩
      rw [matches_word.mp hu]
      exact (congrArg words (strip_blockComment hb rest)).trans ((hspace _).trans hrest)
    | string =>
      rcases string_of_pattern hr with ⟨q, hq, rfl⟩
      rw [strip_string hq hm, words_of_wins (wins_string hw), hrest, List.filter_cons]
    | identifier | int | f32 | f64 => exact htoken rfl
    | sym s =>
      by_cases hs : s = .slash
      · subst hs
        obtain rfl : r = word "/" := hr
        obtain rfl : w = [slash] := matches_word.mp hm
        rw [List.singleton_append, strip_cons (by decide) fun _ => slash_wins hw,
          ← List.singleton_append, words_of_wins (wins_strip hw (.inr rfl)), hrest,
            List.filter_cons]
      · exact htoken (by simpa [Action.plain] using hs)

/-- What the parser sees of the lexemes, without the locations. -/
def saidOf (lib : Conversions) : List (Lexeme UInt8 Action) → List Token × Bool
  | [] => ([], false)
  | l :: ls =>
    match result lib l with
    | .skip => saidOf lib ls
    | .token t => (t :: (saidOf lib ls).1, (saidOf lib ls).2)
    | .throws => ([], true)

theorem deliver_said (lib : Conversions) (ls : List (Lexeme UInt8 Action)) : ∀ loc,
    (deliver lib loc ls).said = saidOf lib ls := by
  induction ls with
  | nil => exact fun _ => rfl
  | cons l ls ih =>
    intro loc
    rw [deliver, saidOf, ← ih (afterLexeme lib loc l)]
    cases result lib l <;> rfl

theorem skip_of_shown (lib : Conversions) {l : Lexeme UInt8 Action} (h : shown l = false) :
    result lib l = .skip := by
  rcases l with ⟨k, w⟩
  simp only [shown, List.contains_iff_mem, Bool.not_eq_false', List.map_cons, List.map_nil,
    List.mem_cons, List.not_mem_nil, or_false] at h
  rcases h with rfl | rfl | rfl | rfl <;> rfl

/-- What a rule skips is layout or a comment. -/
theorem shown_of_skip {lib : Conversions} {l : Lexeme UInt8 Action} (h : result lib l = .skip)
    (hl : l.action ≠ none) : shown l = false := by
  have hconst : ∀ v : Option ConstantValueType, Result.ofConstant v ≠ .skip := by
    rintro (_ | v) <;> nofun
  rcases l with ⟨k, w⟩
  cases k with
  | none => exact absurd rfl hl
  | some k =>
    cases k with
    | blank | newlines | lineComment | blockComment => rfl
    | int | f32 | f64 => exact absurd h (hconst _)
    | sym | identifier | string => cases h

theorem saidOf_filter (lib : Conversions) (ls : List (Lexeme UInt8 Action)) :
    saidOf lib (ls.filter shown) = saidOf lib ls := by
  induction ls with
  | nil => rfl
  | cons l ls ih =>
    rw [List.filter_cons]
    split
    · rw [saidOf, saidOf, ih]
    · rename_i h
      rw [ih, saidOf, skip_of_shown lib (Bool.eq_false_iff.mpr h)]

theorem mem_stripFrom {c : UInt8} {s : Bytes} : ∀ {m : Mode}, c ∈ stripFrom m s →
    c ∈ s ∨ c = space := by
  induction s with
  | nil =>
    intro m h
    cases m <;> cases h
  | cons d s ih =>
    have hcons : ∀ {m : Mode} {e : UInt8}, (e = d ∨ e = space) → c ∈ e :: stripFrom m s →
        c ∈ d :: s ∨ c = space := by
      intro m e he h
      rcases List.mem_cons.mp h with rfl | h
      · exact he.imp_left fun heq => List.mem_cons.mpr (.inl heq)
      · exact (ih h).imp_left (List.mem_cons_of_mem d)
    have hnone : ∀ {m : Mode}, c ∈ stripFrom m s → c ∈ d :: s ∨ c = space :=
      fun h => (ih h).imp_left (List.mem_cons_of_mem d)
    intro m h
    cases m with
    | code =>
      rw [stripFrom] at h
      split at h
      · exact hcons (.inl rfl) h
      · split at h
        · exact hcons (.inr rfl) h
        · split at h
          · exact hcons (.inr rfl) h
          · exact hcons (.inl rfl) h
    | string quote escaped => exact hcons (.inl rfl) h
    | line =>
      rw [stripFrom] at h
      split at h
      · exact hcons (.inl rfl) h
      · exact hnone h
    | opener => exact hnone h
    | block star =>
      rw [stripFrom] at h
      split at h
      · exact hnone h
      · exact hnone h

theorem zero_not_mem_strip {code : Bytes} (h : 0 ∉ code) : 0 ∉ strip code := by
  intro hmem
  rcases mem_stripFrom hmem with hmem | hmem
  · exact h hmem
  · exact absurd hmem (by decide)

theorem words_strip_code {code : Bytes} (h : Covered code) :
    (lexemes (strip code)).filter shown = (lexemes code).filter shown := by
  have hlex := Flex.lexes_iff.mpr (rfl : Flex.lex rules code = _)
  have hcov := h.2
  rw [lexemes, cString_eq h.1] at hcov
  rw [lexemes, lexemes, cString_eq (zero_not_mem_strip h.1), cString_eq h.1]
  exact words_strip hlex hcov

/-- Stripping leaves no byte uncovered. -/
theorem covered_strip {code : Bytes} (h : Covered code) : Covered (strip code) := by
  refine ⟨zero_not_mem_strip h.1, fun l hl hnone => ?_⟩
  have hshown : shown l = true := by
    rw [shown, hnone]
    rfl
  have hmem := List.mem_filter.mpr ⟨hl, hshown⟩
  rw [words_strip_code h] at hmem
  exact h.2 l (List.mem_filter.mp hmem).1 hnone

/-- **Comments are transparent.**  In a text that the rules cover, replacing each comment by a
blank changes neither the kinds nor the values of the tokens. -/
theorem comments_transparent (lib : Conversions) (code : Bytes) (h : Covered code) :
    (stream lib (strip code)).said = (stream lib code).said := by
  rw [stream, stream, deliver_said, deliver_said, ← saidOf_filter, words_strip_code h,
    saidOf_filter]

/-- A comment in a string stays, a quote in a comment goes, and an opener without a terminator is
a division. -/
theorem comments_transparent_mixed :
    strip (text "a='/*x*/'/**'*/b// /*\n/*'c'") = text "a='/*x*/' b \n/*'c'" ∧
      (stream noConversions (strip (text "a='/*x*/'/**'*/b// /*\n/*'c'"))).said =
        (stream noConversions (text "a='/*x*/'/**'*/b// /*\n/*'c'")).said :=
  ⟨by decide +kernel, comments_transparent noConversions _ (by decide +kernel)⟩

end Lexer

end Athena

end JitFusion
