/-
# Longest-match scanners

A scanner generator turns a list of rules, each a regular expression with an action, into a
scanner: at every position the rule with the longest match wins, the first such rule on ties, and
where no rule matches the default rule takes one character.

* `Regex.Matches` says which words an expression matches, `Regex.accepts` computes it by
  derivatives.  Character classes are predicates.
* `next` computes what wins at a position; `next_of_wins`, `wins_of_next` and `next_eq_none_iff`
  say that it is what it should be (`Wins`).
* `lex` splits an input into lexemes; `Lexes` is the same as a relation, for proofs by induction.
-/
import Mathlib.Data.List.Basic
import Mathlib.Tactic.Common

namespace Flex

/-! ## 1. Regular expressions -/

inductive Regex (α : Type)
  | none
  | eps
  | cls (p : α → Bool)
  | alt (r s : Regex α)
  | seq (r s : Regex α)
  | star (r : Regex α)

namespace Regex

variable {α : Type}

/-- The words an expression matches. -/
inductive Matches : Regex α → List α → Prop
  | eps : Matches eps []
  | cls {p a} (h : p a = true) : Matches (cls p) [a]
  | altLeft {r s w} (h : Matches r w) : Matches (alt r s) w
  | altRight {r s w} (h : Matches s w) : Matches (alt r s) w
  | seq {r s u v} (h : Matches r u) (h' : Matches s v) : Matches (seq r s) (u ++ v)
  | starNil {r} : Matches (star r) []
  | starCons {r u v} (h : Matches r u) (h' : Matches (star r) v) : Matches (star r) (u ++ v)

/-- One or more. -/
def plus (r : Regex α) : Regex α := seq r (star r)

/-- A given word. -/
def lit [BEq α] : List α → Regex α
  | [] => eps
  | a :: w => seq (cls (· == a)) (lit w)

theorem matches_none {w : List α} : ¬ Matches none w := nofun

theorem matches_eps {w : List α} : Matches eps w ↔ w = [] := by
  constructor
  · intro h
    cases h
    rfl
  · rintro rfl
    exact .eps

theorem matches_cls {p : α → Bool} {w : List α} :
    Matches (cls p) w ↔ ∃ a, p a = true ∧ w = [a] := by
  constructor
  · intro h
    cases h with
    | @cls _ a h => exact ⟨a, h, rfl⟩
  · rintro ⟨a, h, rfl⟩
    exact .cls h

theorem matches_alt {r s : Regex α} {w : List α} :
    Matches (alt r s) w ↔ Matches r w ∨ Matches s w := by
  constructor
  · intro h
    cases h with
    | altLeft h => exact .inl h
    | altRight h => exact .inr h
  · rintro (h | h)
    · exact .altLeft h
    · exact .altRight h

theorem matches_seq {r s : Regex α} {w : List α} :
    Matches (seq r s) w ↔ ∃ u v, w = u ++ v ∧ Matches r u ∧ Matches s v := by
  constructor
  · intro h
    cases h with
    | @seq _ _ u v h h' => exact ⟨u, v, rfl, h, h'⟩
  · rintro ⟨u, v, rfl, h, h'⟩
    exact .seq h h'

theorem matches_lit [BEq α] [LawfulBEq α] {w v : List α} : Matches (lit w) v ↔ v = w := by
  induction w generalizing v with
  | nil => exact matches_eps
  | cons a w ih =>
    rw [lit, matches_seq]
    constructor
    · rintro ⟨u, v', rfl, hu, hv⟩
      rcases matches_cls.mp hu with ⟨b, hb, rfl⟩
      rw [ih.mp hv, eq_of_beq hb]
      rfl
    · rintro rfl
      exact ⟨[a], w, rfl, .cls (by simp), ih.mpr rfl⟩

/-- A match of a star is empty or begins with a non-empty match of the body. -/
theorem matches_star {r : Regex α} {w : List α} : Matches (star r) w ↔
    w = [] ∨ ∃ u v, w = u ++ v ∧ u ≠ [] ∧ Matches r u ∧ Matches (star r) v := by
  constructor
  · intro h
    generalize hs : star r = s at h
    induction h with
    | starNil => exact .inl rfl
    | @starCons r' u v h h' _ ih' =>
      cases hs
      by_cases hu : u = []
      · subst hu
        exact ih' rfl
      · exact .inr ⟨u, v, rfl, hu, h, h'⟩
    | eps | cls | altLeft | altRight | seq => cases hs
  · rintro (rfl | ⟨u, v, rfl, -, h, h'⟩)
    · exact .starNil
    · exact .starCons h h'

/-- Induction over the rounds of a star. -/
theorem Matches.star_rec {r : Regex α} {P : List α → Prop} {w : List α} (h : Matches (star r) w)
    (hnil : P []) (hcons : ∀ u v, Matches r u → P v → P (u ++ v)) : P w := by
  generalize hs : star r = s at h
  induction h with
  | starNil => exact hnil
  | @starCons r' u v h h' _ ih' =>
    cases hs
    exact hcons u v h (ih' rfl)
  | eps | cls | altLeft | altRight | seq => cases hs

/-- A star of a class matches the words over the class. -/
theorem matches_star_cls {p : α → Bool} {w : List α} :
    Matches (star (cls p)) w ↔ ∀ a ∈ w, p a = true := by
  induction w with
  | nil => exact iff_of_true .starNil (by simp)
  | cons a w ih =>
    rw [matches_star, List.forall_mem_cons, ← ih]
    constructor
    · rintro (h | ⟨u, v, h, -, hu, hv⟩)
      · cases h
      · rcases matches_cls.mp hu with ⟨b, hb, rfl⟩
        cases h
        exact ⟨hb, hv⟩
    · rintro ⟨ha, hw⟩
      exact .inr ⟨[a], w, rfl, by simp, .cls ha, hw⟩

theorem matches_plus_cls {p : α → Bool} {w : List α} :
    Matches (plus (cls p)) w ↔ w ≠ [] ∧ ∀ a ∈ w, p a = true := by
  rw [plus, matches_seq]
  constructor
  · rintro ⟨u, v, rfl, hu, hv⟩
    rcases matches_cls.mp hu with ⟨a, ha, rfl⟩
    exact ⟨by simp, List.forall_mem_cons.mpr ⟨ha, matches_star_cls.mp hv⟩⟩
  · rintro ⟨hne, hw⟩
    cases w with
    | nil => exact absurd rfl hne
    | cons a w =>
      rw [List.forall_mem_cons] at hw
      exact ⟨[a], w, rfl, .cls hw.1, matches_star_cls.mpr hw.2⟩

/-- Whether the expression can read the character. -/
def reads (c : α) : Regex α → Bool
  | none => false
  | eps => false
  | cls p => p c
  | alt r s => r.reads c || s.reads c
  | seq r s => r.reads c || s.reads c
  | star r => r.reads c

theorem Matches.not_mem {c : α} {r : Regex α} {w : List α} (h : Matches r w) :
    r.reads c = false → c ∉ w := by
  induction h with
  | eps => simp
  | cls h =>
    intro hr hc
    rcases List.mem_singleton.mp hc
    exact absurd (hr.symm.trans h) nofun
  | altLeft _ ih =>
    intro hr
    exact ih (Bool.or_eq_false_iff.mp hr).1
  | altRight _ ih =>
    intro hr
    exact ih (Bool.or_eq_false_iff.mp hr).2
  | seq _ _ ih ih' =>
    intro hr hc
    rcases List.mem_append.mp hc with hc | hc
    · exact ih (Bool.or_eq_false_iff.mp hr).1 hc
    · exact ih' (Bool.or_eq_false_iff.mp hr).2 hc
  | starNil => simp
  | starCons _ _ ih ih' =>
    intro hr hc
    rcases List.mem_append.mp hc with hc | hc
    · exact ih hr hc
    · exact ih' hr hc

/-! ## 2. Derivatives -/

/-- Whether the expression matches the empty word. -/
def nullable : Regex α → Bool
  | none => false
  | eps => true
  | cls _ => false
  | alt r s => r.nullable || s.nullable
  | seq r s => r.nullable && s.nullable
  | star _ => true

theorem matches_nil_iff {r : Regex α} : Matches r [] ↔ r.nullable = true := by
  induction r with
  | none => simp [matches_none, nullable]
  | eps => simp [matches_eps, nullable]
  | cls p => simp [matches_cls, nullable]
  | alt r s ihr ihs => simp [matches_alt, nullable, ihr, ihs]
  | seq r s ihr ihs =>
    rw [matches_seq, nullable, Bool.and_eq_true, ← ihr, ← ihs]
    constructor
    · rintro ⟨u, v, h, hu, hv⟩
      rcases List.nil_eq_append_iff.mp h with ⟨rfl, rfl⟩
      exact ⟨hu, hv⟩
    · rintro ⟨hu, hv⟩
      exact ⟨[], [], rfl, hu, hv⟩
  | star r _ => exact iff_of_true .starNil rfl

/-- `seq` with the cases where nothing, or nothing more, is to be read. -/
def seq' : Regex α → Regex α → Regex α
  | none, _ => none
  | eps, s => s
  | r, s => seq r s

def alt' : Regex α → Regex α → Regex α
  | none, s => s
  | r, none => r
  | r, s => alt r s

theorem matches_seq' {r s : Regex α} {w : List α} : Matches (seq' r s) w ↔ Matches (seq r s) w := by
  cases r with
  | none =>
    refine iff_of_false matches_none fun h => ?_
    rcases matches_seq.mp h with ⟨u, v, -, hu, -⟩
    exact matches_none hu
  | eps => simp [seq', matches_seq, matches_eps]
  | cls | alt | seq | star => rfl

theorem matches_alt' {r s : Regex α} {w : List α} : Matches (alt' r s) w ↔ Matches (alt r s) w := by
  cases r <;> cases s <;> simp [alt', matches_alt, matches_none]

/-- What is left to match after reading a character. -/
def deriv (a : α) : Regex α → Regex α
  | none => none
  | eps => none
  | cls p => if p a then eps else none
  | alt r s => alt' (r.deriv a) (s.deriv a)
  | seq r s => if r.nullable then alt' (seq' (r.deriv a) s) (s.deriv a) else seq' (r.deriv a) s
  | star r => seq' (r.deriv a) (star r)

/-- A match of a sequence that begins with `a` begins with a match of the first part that does,
or the first part matches nothing. -/
theorem matches_seq_cons {r s : Regex α} {a : α} {w : List α} : Matches (seq r s) (a :: w) ↔
    (∃ u v, w = u ++ v ∧ Matches r (a :: u) ∧ Matches s v) ∨
      (Matches r [] ∧ Matches s (a :: w)) := by
  rw [matches_seq]
  constructor
  · rintro ⟨u, v, h, hu, hv⟩
    cases u with
    | nil =>
      cases h
      exact .inr ⟨hu, hv⟩
    | cons b u =>
      cases h
      exact .inl ⟨u, v, rfl, hu, hv⟩
  · rintro (⟨u, v, rfl, hu, hv⟩ | ⟨hu, hv⟩)
    · exact ⟨a :: u, v, rfl, hu, hv⟩
    · exact ⟨[], a :: w, rfl, hu, hv⟩

/-- **Derivatives.**  The expression matches `a :: w` exactly when its derivative matches `w`. -/
theorem matches_deriv {r : Regex α} {a : α} : ∀ {w : List α},
    Matches (r.deriv a) w ↔ Matches r (a :: w) := by
  induction r with
  | none => exact iff_of_false matches_none matches_none
  | eps => exact iff_of_false matches_none (by simp [matches_eps])
  | cls p =>
    intro w
    rw [deriv, matches_cls]
    split
    · rename_i hp
      rw [matches_eps]
      constructor
      · rintro rfl
        exact ⟨a, hp, rfl⟩
      · rintro ⟨b, -, h⟩
        exact (List.cons.inj h).2
    · rename_i hp
      refine iff_of_false matches_none ?_
      rintro ⟨b, hb, h⟩
      cases h
      exact hp hb
  | alt r s ihr ihs =>
    intro w
    rw [deriv, matches_alt', matches_alt, matches_alt, ihr, ihs]
  | seq r s ihr ihs =>
    intro w
    have hfirst : Matches (seq' (r.deriv a) s) w ↔
        ∃ u v, w = u ++ v ∧ Matches r (a :: u) ∧ Matches s v := by
      rw [matches_seq', matches_seq]
      simp only [ihr]
    rw [matches_seq_cons, matches_nil_iff, deriv]
    split
    · rename_i hn
      rw [matches_alt', matches_alt, hfirst, ihs]
      simp [hn]
    · rename_i hn
      rw [hfirst]
      simp [hn]
  | star r ih =>
    intro w
    rw [deriv, matches_seq', matches_seq, matches_star]
    constructor
    · rintro ⟨u, v, rfl, hu, hv⟩
      exact .inr ⟨a :: u, v, rfl, by simp, ih.mp hu, hv⟩
    · rintro (h | ⟨u, v, h, hne, hu, hv⟩)
      · cases h
      · cases u with
        | nil => exact absurd rfl hne
        | cons b u =>
          cases h
          exact ⟨u, v, rfl, ih.mpr hu, hv⟩

/-- Whether a word that begins with the character can match. -/
def starts (c : α) (r : Regex α) : Bool :=
  match r.deriv c with
  | none => false
  | _ => true

theorem Matches.starts {c : α} {r : Regex α} {w : List α} (h : Matches r (c :: w)) :
    r.starts c = true := by
  rw [← matches_deriv] at h
  unfold Regex.starts
  split
  · rename_i hn
    rw [hn] at h
    exact absurd h matches_none
  · rfl

/-! ## 3. The longest match of one expression -/

/-- The longest match of the input, behind `n` characters read already; `best` is the longest
match among these. -/
def longestFrom : Regex α → List α → Nat → Option Nat → Option Nat
  | r, [], n, best => if r.nullable then some n else best
  | r, a :: s, n, best =>
    longestFrom (r.deriv a) s (n + 1) (if r.nullable then some n else best)

def longest (r : Regex α) (s : List α) : Option Nat := longestFrom r s 0 Option.none

/-- `n` is the length of the longest beginning of the input that matches. -/
def Longest (r : Regex α) (s : List α) (n : Nat) : Prop :=
  n ≤ s.length ∧ Matches r (s.take n) ∧ ∀ m ≤ s.length, Matches r (s.take m) → m ≤ n

theorem longestFrom_eq (s : List α) : ∀ (r : Regex α) (n : Nat) (best : Option Nat),
    ∃ res, longestFrom r s n best = res ∧
      ((∃ k, res = some (n + k) ∧ Longest r s k) ∨
        (res = best ∧ ∀ m ≤ s.length, ¬ Matches r (s.take m))) := by
  induction s with
  | nil =>
    intro r n best
    refine ⟨_, rfl, ?_⟩
    rw [longestFrom]
    split
    · rename_i hn
      exact .inl ⟨0, rfl, Nat.le_refl 0, matches_nil_iff.mpr hn, fun m hm _ => hm⟩
    · rename_i hn
      refine .inr ⟨rfl, fun m _ h => hn ?_⟩
      rw [List.take_nil] at h
      exact matches_nil_iff.mp h
  | cons a s ih =>
    intro r n best
    rcases ih (r.deriv a) (n + 1) (if r.nullable then some n else best) with ⟨res, hres, h⟩
    refine ⟨res, by rw [longestFrom]; exact hres, ?_⟩
    rcases h with ⟨k, rfl, hk, hmatch, hmax⟩ | ⟨rfl, hno⟩
    · left
      refine ⟨k + 1, by rw [Nat.add_assoc, Nat.add_comm 1 k], by simpa using hk, ?_, ?_⟩
      · rw [List.take_succ_cons]
        exact matches_deriv.mp hmatch
      · intro m hm h
        cases m with
        | zero => exact Nat.zero_le _
        | succ m =>
          rw [List.take_succ_cons] at h
          exact Nat.succ_le_succ (hmax m (by simpa using hm) (matches_deriv.mpr h))
    · have hpos : ∀ m, m + 1 ≤ (a :: s).length → ¬ Matches r ((a :: s).take (m + 1)) := by
        intro m hm h
        rw [List.take_succ_cons] at h
        exact hno m (by simpa using hm) (matches_deriv.mpr h)
      split
      · rename_i hn
        left
        refine ⟨0, rfl, Nat.zero_le _, matches_nil_iff.mpr hn, ?_⟩
        intro m hm h
        cases m with
        | zero => exact Nat.le_refl 0
        | succ m => exact absurd h (hpos m hm)
      · rename_i hn
        right
        refine ⟨rfl, ?_⟩
        intro m hm h
        cases m with
        | zero => exact hn (matches_nil_iff.mp h)
        | succ m => exact hpos m hm h

theorem longest_eq_some_iff {r : Regex α} {s : List α} {n : Nat} :
    r.longest s = some n ↔ r.Longest s n := by
  rcases longestFrom_eq s r 0 Option.none with ⟨res, hres, h⟩
  rw [longest, hres]
  rcases h with ⟨k, rfl, hk⟩ | ⟨rfl, hno⟩
  · rw [Nat.zero_add, Option.some.injEq]
    constructor
    · rintro rfl
      exact hk
    · intro hn
      exact Nat.le_antisymm (hn.2.2 k hk.1 hk.2.1) (hk.2.2 n hn.1 hn.2.1)
  · exact iff_of_false (by simp) fun hn => hno n hn.1 hn.2.1

theorem longest_eq_none_iff {r : Regex α} {s : List α} :
    r.longest s = Option.none ↔ ∀ m ≤ s.length, ¬ Matches r (s.take m) := by
  rcases longestFrom_eq s r 0 Option.none with ⟨res, hres, h⟩
  rw [longest, hres]
  rcases h with ⟨k, rfl, hk⟩ | ⟨rfl, hno⟩
  · exact iff_of_false (by simp) fun hall => hall k hk.1 hk.2.1
  · exact iff_of_true rfl hno

/-- Whether the expression matches the word. -/
def accepts (r : Regex α) : List α → Bool
  | [] => r.nullable
  | a :: w => (r.deriv a).accepts w

theorem accepts_iff {w : List α} : ∀ {r : Regex α}, r.accepts w = true ↔ Matches r w := by
  induction w with
  | nil => exact matches_nil_iff.symm
  | cons a w ih =>
    intro r
    rw [accepts, ih, matches_deriv]

end Regex

/-! ## 4. What wins at a position -/

section Rules

variable {α κ : Type}

/-- The rules, in order, each with its action. -/
abbrev Rules (α κ : Type) := List (Regex α × κ)

/-- The first rule that matches the word. -/
def ruleOf (rules : Rules α κ) (w : List α) : Option κ :=
  (rules.find? fun r => r.1.accepts w).map Prod.snd

theorem ruleOf_eq_none_iff {rules : Rules α κ} {w : List α} :
    ruleOf rules w = none ↔ ∀ r ∈ rules, ¬ r.1.Matches w := by
  simp [ruleOf, Regex.accepts_iff]

theorem ruleOf_eq_some {rules : Rules α κ} {w : List α} {k : κ} (h : ruleOf rules w = some k) :
    ∃ r ∈ rules, r.1.Matches w ∧ r.2 = k := by
  rcases Option.map_eq_some_iff.mp h with ⟨r, hr, rfl⟩
  have hacc := List.find?_some hr
  exact ⟨r, List.mem_of_find?_eq_some hr, Regex.accepts_iff.mp hacc, rfl⟩

theorem ruleOf_of_mem {rules : Rules α κ} {r : Regex α} {k : κ} {w : List α} (h : (r, k) ∈ rules)
    (hm : r.Matches w) : ∃ k', ruleOf rules w = some k' := by
  cases hw : ruleOf rules w with
  | none => exact absurd hm (ruleOf_eq_none_iff.mp hw _ h)
  | some k' => exact ⟨k', rfl⟩

theorem ruleOf_cons (r : Regex α) (k : κ) (rules : Rules α κ) (w : List α) :
    ruleOf ((r, k) :: rules) w = if r.accepts w then some k else ruleOf rules w := by
  rw [ruleOf, List.find?_cons]
  cases r.accepts w <;> rfl

/-- The rule and the length of the longest match, the first rule on ties. -/
def next : Rules α κ → List α → Option (κ × Nat)
  | [], _ => none
  | (r, k) :: rules, s =>
    match r.longest s, next rules s with
    | some (n + 1), some (k', m) => if n + 1 < m then some (k', m) else some (k, n + 1)
    | some (n + 1), none => some (k, n + 1)
    | _, res => res

/-- The word `w` wins before `rest`: it is not empty, the first rule that matches it is that of
`k`, and no rule matches more. -/
structure Wins (rules : Rules α κ) (w rest : List α) (k : κ) : Prop where
  ne_nil : w ≠ []
  rule : ruleOf rules w = some k
  longest : ∀ v, v <+: rest → v ≠ [] → ruleOf rules (w ++ v) = none

/-- No rule matches anything here. -/
def Stuck (rules : Rules α κ) (s : List α) : Prop :=
  ∀ w, w <+: s → w ≠ [] → ruleOf rules w = none

/-- `n` is the length the rules agree on: no rule matches more, and the first one that matches as
much is that of `k`. -/
structure WinsAt (rules : Rules α κ) (s : List α) (k : κ) (n : Nat) : Prop where
  pos : 0 < n
  le : n ≤ s.length
  rule : ruleOf rules (s.take n) = some k
  longest : ∀ m ≤ s.length, n < m → ruleOf rules (s.take m) = none

theorem next_spec (rules : Rules α κ) (s : List α) :
    (∀ k n, next rules s = some (k, n) → WinsAt rules s k n) ∧
      (next rules s = none → ∀ m ≤ s.length, 0 < m → ruleOf rules (s.take m) = none) := by
  induction rules with
  | nil => exact ⟨nofun, fun _ _ _ _ => rfl⟩
  | cons r rules ih =>
    rcases r with ⟨r, k⟩
    -- where the first rule does not match, the others decide
    have hskip : ∀ m, ¬ r.Matches (s.take m) →
        ruleOf ((r, k) :: rules) (s.take m) = ruleOf rules (s.take m) := by
      intro m hm
      rw [ruleOf_cons, if_neg fun hacc => hm (Regex.accepts_iff.mp hacc)]
    have hother : (∀ m ≤ s.length, 0 < m → ¬ r.Matches (s.take m)) →
        (∀ k' n, next rules s = some (k', n) → WinsAt ((r, k) :: rules) s k' n) ∧
        (next rules s = none → ∀ m ≤ s.length, 0 < m →
          ruleOf ((r, k) :: rules) (s.take m) = none) := by
      intro hno
      constructor
      · intro k' n hn
        have h := ih.1 k' n hn
        refine ⟨h.pos, h.le, (hskip n (hno n h.le h.pos)).trans h.rule, ?_⟩
        intro m hm hlt
        rw [hskip m (hno m hm (Nat.zero_lt_of_lt hlt)), h.longest m hm hlt]
      · intro hn m hm hpos
        rw [hskip m (hno m hm hpos), ih.2 hn m hm hpos]
    cases hr : r.longest s with
    | none =>
      have hno := Regex.longest_eq_none_iff.mp hr
      simpa only [next, hr] using hother fun m hm _ => hno m hm
    | some n =>
      have hl := Regex.longest_eq_some_iff.mp hr
      cases n with
      | zero =>
        simpa only [next, hr] using hother fun m hm hpos hmatch =>
          Nat.not_le_of_lt hpos (hl.2.2 m hm hmatch)
      | succ n =>
        have hmore : ∀ m ≤ s.length, n + 1 < m → ¬ r.Matches (s.take m) := fun m hm hlt hmatch =>
          Nat.not_le_of_lt hlt (hl.2.2 m hm hmatch)
        have hrule : ruleOf ((r, k) :: rules) (s.take (n + 1)) = some k := by
          rw [ruleOf_cons, if_pos (Regex.accepts_iff.mpr hl.2.1)]
        cases hn : next rules s with
        | none =>
          simp only [next, hr, hn]
          refine ⟨?_, nofun⟩
          rintro k' n' ⟨⟩
          refine ⟨Nat.succ_pos n, hl.1, hrule, fun m hm hlt => ?_⟩
          rw [hskip m (hmore m hm hlt), ih.2 hn m hm (Nat.zero_lt_of_lt hlt)]
        | some res =>
          rcases res with ⟨k₂, n₂⟩
          have h := ih.1 k₂ n₂ hn
          simp only [next, hr, hn]
          split
          · rename_i hlt₂
            refine ⟨?_, nofun⟩
            rintro k' n' ⟨⟩
            refine ⟨h.pos, h.le, (hskip _ (hmore _ h.le hlt₂)).trans h.rule, fun m hm hlt => ?_⟩
            rw [hskip m (hmore m hm (Nat.lt_trans hlt₂ hlt)), h.longest m hm hlt]
          · rename_i hle
            refine ⟨?_, nofun⟩
            rintro k' n' ⟨⟩
            refine ⟨Nat.succ_pos n, hl.1, hrule, fun m hm hlt => ?_⟩
            rw [hskip m (hmore m hm hlt),
              h.longest m hm (Nat.lt_of_le_of_lt (Nat.le_of_not_lt hle) hlt)]

theorem Wins.winsAt {rules : Rules α κ} {w rest : List α} {k : κ} (h : Wins rules w rest k) :
    WinsAt rules (w ++ rest) k w.length := by
  refine ⟨List.length_pos_iff.mpr h.ne_nil, by simp, by rw [List.take_left]; exact h.rule, ?_⟩
  intro m hm hlt
  have hsplit : (w ++ rest).take m = w ++ rest.take (m - w.length) := by
    rw [List.take_append, List.take_of_length_le (Nat.le_of_lt hlt)]
  rw [hsplit]
  refine h.longest _ (List.take_prefix _ _) fun hnil => ?_
  have hlen := congrArg List.length hnil
  rw [List.length_append] at hm
  rw [List.length_take, List.length_nil] at hlen
  omega

theorem WinsAt.wins {rules : Rules α κ} {s : List α} {k : κ} {n : Nat} (h : WinsAt rules s k n) :
    Wins rules (s.take n) (s.drop n) k := by
  have hlen : (s.take n).length = n := by rw [List.length_take, Nat.min_eq_left h.le]
  refine ⟨List.length_pos_iff.mp (hlen.symm ▸ h.pos), h.rule, ?_⟩
  intro v hv hne
  have hvlen := hv.length_le
  rw [List.length_drop] at hvlen
  have htake : s.take n ++ v = s.take (n + v.length) := by
    rw [List.take_add, ← List.prefix_iff_eq_take.mp hv]
  have hpos := List.length_pos_iff.mpr hne
  have hle := h.le
  rw [htake]
  exact h.longest _ (by omega) (by omega)

/-- Two words that win are the same. -/
theorem WinsAt.unique {rules : Rules α κ} {s : List α} {k k' : κ} {n n' : Nat}
    (h : WinsAt rules s k n) (h' : WinsAt rules s k' n') : k = k' ∧ n = n' := by
  have hn : n = n' := by
    rcases Nat.lt_trichotomy n n' with hlt | heq | hlt
    · cases (h.longest n' h'.le hlt).symm.trans h'.rule
    · exact heq
    · cases (h'.longest n h.le hlt).symm.trans h.rule
  subst hn
  exact ⟨Option.some.inj (h.rule.symm.trans h'.rule), rfl⟩

/-- **What wins.**  The scanner takes the winning word. -/
theorem next_of_wins {rules : Rules α κ} {w rest : List α} {k : κ} (h : Wins rules w rest k) :
    next rules (w ++ rest) = some (k, w.length) := by
  have hat := h.winsAt
  cases hn : next rules (w ++ rest) with
  | none =>
    cases ((next_spec rules (w ++ rest)).2 hn _ hat.le hat.pos).symm.trans hat.rule
  | some res =>
    rcases res with ⟨k', n⟩
    rcases ((next_spec rules (w ++ rest)).1 k' n hn).unique hat with ⟨rfl, rfl⟩
    rfl

theorem wins_of_next {rules : Rules α κ} {s : List α} {k : κ} {n : Nat}
    (h : next rules s = some (k, n)) : Wins rules (s.take n) (s.drop n) k :=
  ((next_spec rules s).1 k n h).wins

theorem next_eq_none_iff {rules : Rules α κ} {s : List α} :
    next rules s = none ↔ Stuck rules s := by
  constructor
  · intro h w hw hne
    have hlen := List.length_pos_iff.mpr hne
    rw [List.prefix_iff_eq_take.mp hw]
    exact (next_spec rules s).2 h _ hw.length_le hlen
  · intro h
    cases hn : next rules s with
    | none => rfl
    | some res =>
      have hw := wins_of_next (k := res.1) (n := res.2) hn
      cases (h _ (List.take_prefix _ _) hw.ne_nil).symm.trans hw.rule

/-! ## 5. Lexemes -/

/-- A lexeme, with the action of the rule that found it; the default rule has none. -/
structure Lexeme (α κ : Type) where
  action : Option κ
  text : List α
  deriving DecidableEq

def lexFuel (rules : Rules α κ) : Nat → List α → List (Lexeme α κ)
  | 0, _ => []
  | _ + 1, [] => []
  | fuel + 1, a :: s =>
    match next rules (a :: s) with
    | some (k, n) => ⟨some k, (a :: s).take n⟩ :: lexFuel rules fuel ((a :: s).drop n)
    | none => ⟨none, [a]⟩ :: lexFuel rules fuel s

/-- The lexemes of an input.  Every step reads at least one character. -/
def lex (rules : Rules α κ) (s : List α) : List (Lexeme α κ) := lexFuel rules s.length s

/-- The lexemes of an input, as a relation. -/
inductive Lexes (rules : Rules α κ) : List α → List (Lexeme α κ) → Prop
  | nil : Lexes rules [] []
  | rule {w rest k ls} (h : Wins rules w rest k) (hrest : Lexes rules rest ls) :
    Lexes rules (w ++ rest) (⟨some k, w⟩ :: ls)
  | default {a rest ls} (h : Stuck rules (a :: rest)) (hrest : Lexes rules rest ls) :
    Lexes rules (a :: rest) (⟨none, [a]⟩ :: ls)

theorem Lexes.lexFuel_eq {rules : Rules α κ} {s : List α} {ls : List (Lexeme α κ)}
    (h : Lexes rules s ls) : ∀ {fuel}, s.length ≤ fuel → lexFuel rules fuel s = ls := by
  induction h with
  | nil =>
    intro fuel _
    cases fuel <;> rfl
  | @rule w rest k ls hw _ ih =>
    intro fuel hfuel
    cases w with
    | nil => exact absurd rfl hw.ne_nil
    | cons a w =>
      rw [List.length_append, List.length_cons] at hfuel
      cases fuel with
      | zero => omega
      | succ fuel =>
        have hnext := next_of_wins hw
        rw [List.cons_append] at hnext ⊢
        rw [lexFuel, hnext]
        simp only
        rw [← List.cons_append, List.take_left, List.drop_left, ih (by omega)]
  | @default a rest ls hstuck _ ih =>
    intro fuel hfuel
    cases fuel with
    | zero => cases hfuel
    | succ fuel =>
      rw [lexFuel, next_eq_none_iff.mpr hstuck]
      simp only
      rw [ih (Nat.le_of_succ_le_succ hfuel)]

theorem lexes_lexFuel (rules : Rules α κ) : ∀ (fuel : Nat) (s : List α), s.length ≤ fuel →
    Lexes rules s (lexFuel rules fuel s) := by
  intro fuel
  induction fuel with
  | zero =>
    intro s hs
    rw [List.length_eq_zero_iff.mp (Nat.le_zero.mp hs)]
    exact .nil
  | succ fuel ih =>
    intro s hs
    cases s with
    | nil => exact .nil
    | cons a s =>
      rw [lexFuel]
      cases hn : next rules (a :: s) with
      | none => exact .default (next_eq_none_iff.mp hn) (ih s (Nat.le_of_succ_le_succ hs))
      | some res =>
        rcases res with ⟨k, n⟩
        have hw := wins_of_next hn
        have hpos := ((next_spec rules (a :: s)).1 k n hn).pos
        have hrest := ih ((a :: s).drop n) (by
          rw [List.length_drop]
          rw [List.length_cons] at hs ⊢
          omega)
        have := Lexes.rule hw hrest
        rwa [List.take_append_drop] at this

/-- **Lexemes.**  The scanner finds the lexemes of its input, and there is one way to do so. -/
theorem lexes_iff {rules : Rules α κ} {s : List α} {ls : List (Lexeme α κ)} :
    Lexes rules s ls ↔ lex rules s = ls := by
  constructor
  · intro h
    exact h.lexFuel_eq (Nat.le_refl _)
  · rintro rfl
    exact lexes_lexFuel rules _ s (Nat.le_refl _)

theorem lex_of_wins {rules : Rules α κ} {w rest : List α} {k : κ} (h : Wins rules w rest k) :
    lex rules (w ++ rest) = ⟨some k, w⟩ :: lex rules rest :=
  lexes_iff.mp (.rule h (lexes_iff.mpr rfl))

/-- What a lexeme says of its text: the rule is the first that matches it, or the default rule took
one character. -/
def Lexeme.Sound (rules : Rules α κ) (l : Lexeme α κ) : Prop :=
  match l.action with
  | some k => ruleOf rules l.text = some k
  | none => ∃ a, l.text = [a] ∧ ruleOf rules [a] = none

theorem Lexes.sound {rules : Rules α κ} {s : List α} {ls : List (Lexeme α κ)}
    (h : Lexes rules s ls) : ∀ l ∈ ls, l.Sound rules := by
  induction h with
  | nil => simp
  | rule hw _ ih => exact List.forall_mem_cons.mpr ⟨hw.rule, ih⟩
  | @default a rest _ hstuck _ ih =>
    have hone := hstuck [a] ⟨rest, rfl⟩ (by simp)
    exact List.forall_mem_cons.mpr ⟨⟨a, rfl, hone⟩, ih⟩

theorem Lexes.flatMap_text {rules : Rules α κ} {s : List α} {ls : List (Lexeme α κ)}
    (h : Lexes rules s ls) : ls.flatMap Lexeme.text = s := by
  induction h with
  | nil => rfl
  | rule _ _ ih => rw [List.flatMap_cons, ih]
  | default _ _ ih =>
    rw [List.flatMap_cons, ih]
    rfl

end Rules

end Flex
