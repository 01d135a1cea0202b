/-
# A table-driven parser with lookahead correction

The driver of an LALR parser that Bison generates.  A state has a row of the packed table and a
default reduction.  The driver reduces in a state without a row before it reads a token; in another
state it looks at the token.  Before the first reduction that a token causes it checks, on the
states alone, that the token is shifted in the end (`lacCheck`), so that nothing is reduced for a
token that is an error.

A client says what a token does to a stack without the check, by the relations `Takes` and `Errs`.
The driver does the same: `Takes.steps` and `Errs.returns`.
-/
import Mathlib.Data.List.Basic

namespace Lalr

/-! ## 1. Tables -/

/-- The tables of a generated parser, under Bison's names. -/
structure Tables where
  yypact : List Int
  yydefact : List Nat
  yypgoto : List Int
  yydefgoto : List Nat
  yytable : List Int
  yycheck : List Int
  /-- The symbol on the left of a rule, and the number of symbols on its right. -/
  yyr1 : List Nat
  yyr2 : List Nat
  yypactNinf : Int
  yytableNinf : Int
  /-- The last index of `yytable`. -/
  yylast : Nat
  yyntokens : Nat
  yyfinal : Nat

inductive Action
  | shift (state : Nat)
  | reduce (rule : Nat)
  | error
  deriving DecidableEq, Repr

namespace Tables

variable (G : Tables)

/-- The state has no row: the driver reads no token in it. -/
def consistent (state : Nat) : Bool := G.yypact.getD state G.yypactNinf == G.yypactNinf

def default (state : Nat) : Action :=
  match G.yydefact.getD state 0 with
  | 0 => .error
  | rule => .reduce rule

/-- The entry at `yyn`, if it belongs to `owner`. -/
def entry (yyn : Int) (owner : Nat) : Option Int :=
  if 0 ≤ yyn ∧ yyn ≤ G.yylast ∧ G.yycheck.getD yyn.toNat (-1) = owner then
    some (G.yytable.getD yyn.toNat 0)
  else
    none

def action (state kind : Nat) : Action :=
  if G.consistent state then
    G.default state
  else
    match G.entry (G.yypact.getD state 0 + kind) kind with
    | none => G.default state
    | some yyn =>
      if yyn ≤ 0 then if yyn = G.yytableNinf then .error else .reduce (-yyn).toNat
      else .shift yyn.toNat

/-- `yy_lr_goto_state_`. -/
def goto (state symbol : Nat) : Nat :=
  match G.entry (G.yypgoto.getD (symbol - G.yyntokens) 0 + state) state with
  | some yyn => yyn.toNat
  | none => G.yydefgoto.getD (symbol - G.yyntokens) 0

/-- The number of symbols on the right of a rule. -/
def len (rule : Nat) : Nat := G.yyr2.getD rule 0

def lhs (rule : Nat) : Nat := G.yyr1.getD rule 0

/-! ### Rows -/

/-- What an entry of the table says to a token of the kind. -/
def decode (state kind : Nat) (check yyn : Int) : Action :=
  if check = kind then
    if yyn ≤ 0 then if yyn = G.yytableNinf then .error else .reduce (-yyn).toNat
    else .shift yyn.toNat
  else
    G.default state

def scan (state : Nat) : Nat → List Int → List Int → List Action
  | kind, check :: checks, yyn :: yyns =>
    G.decode state kind check yyn :: scan state (kind + 1) checks yyns
  | _, _, _ => []

/-- The actions of a state on the kinds below `n`, read off the table in one go. -/
def row (n state : Nat) : List Action :=
  let base := G.yypact.getD state 0
  if G.consistent state then
    List.replicate n (G.default state)
  else
    (List.replicate (-base).toNat (G.default state) ++
      (G.scan state (-base).toNat (G.yycheck.drop base.toNat) (G.yytable.drop base.toNat) ++
        List.replicate n (G.default state))).take n

theorem scan_getElem? (state kind i : Nat) (checks yyns : List Int) :
    (G.scan state kind checks yyns)[i]? =
      match checks[i]?, yyns[i]? with
      | some check, some yyn => some (G.decode state (kind + i) check yyn)
      | _, _ => none := by
  induction checks generalizing kind i yyns with
  | nil => simp [scan]
  | cons check checks ih =>
    cases yyns with
    | nil =>
      rw [scan]
      · cases (check :: checks)[i]? <;> simp
      · simp
    | cons yyn yyns =>
      cases i with
      | zero => simp [scan]
      | succ i =>
        rw [scan, List.getElem?_cons_succ, ih, List.getElem?_cons_succ, List.getElem?_cons_succ,
          Nat.succ_add_eq_add_succ]

/-- The table is as long as the driver takes it to be. -/
structure WellFormed : Prop where
  yycheck : G.yycheck.length = G.yylast + 1
  yytable : G.yytable.length = G.yylast + 1

variable {G}

theorem entry_mem (hG : G.WellFormed) {i : Int} {owner : Nat} {yyn : Int}
    (h : G.entry i owner = some yyn) : (yyn, (owner : Int)) ∈ G.yytable.zip G.yycheck := by
  have hcheck := hG.yycheck
  have htable := hG.yytable
  rw [entry] at h
  split at h
  · next hi =>
    obtain ⟨h₀, hlast, howner⟩ := hi
    have hi₁ : i.toNat < G.yytable.length := by omega
    have hi₂ : i.toNat < G.yycheck.length := by omega
    rw [List.getD_eq_getElem?_getD, List.getElem?_eq_getElem hi₁] at h
    rw [List.getD_eq_getElem?_getD, List.getElem?_eq_getElem hi₂] at howner
    cases h
    rw [← howner, List.mem_iff_getElem?]
    refine ⟨i.toNat, ?_⟩
    rw [List.getElem?_zip_eq_some]
    exact ⟨List.getElem?_eq_getElem hi₁, List.getElem?_eq_getElem hi₂⟩
  · cases h

theorem action_eq_decode (hG : G.WellFormed) {state kind i : Nat}
    (hc : G.consistent state = false) (hi : G.yypact.getD state 0 + kind = i) :
    G.action state kind = match G.yycheck[i]?, G.yytable[i]? with
      | some check, some yyn => G.decode state kind check yyn
      | _, _ => G.default state := by
  have hcheck := hG.yycheck
  have htable := hG.yytable
  rw [action, if_neg (Bool.eq_false_iff.mp hc), hi, entry, Int.toNat_natCast]
  simp only [List.getD_eq_getElem?_getD, decode]
  by_cases hlast : i ≤ G.yylast
  · have hi₁ : i < G.yycheck.length := by omega
    have hi₂ : i < G.yytable.length := by omega
    rw [List.getElem?_eq_getElem hi₁, List.getElem?_eq_getElem hi₂]
    simp only [Option.getD_some]
    by_cases hkind : G.yycheck[i] = kind
    · rw [if_pos ⟨by omega, by omega, hkind⟩, if_pos hkind]
    · rw [if_neg fun h => hkind h.2.2, if_neg hkind]
  · rw [List.getElem?_eq_none (by omega), if_neg (by omega)]

/-- **The row has the actions.** -/
theorem row_getElem? (hG : G.WellFormed) {n state kind : Nat} (hkind : kind < n) :
    (G.row n state)[kind]? = some (G.action state kind) := by
  cases hc : G.consistent state with
  | true =>
    rw [row, if_pos hc, action, if_pos hc, List.getElem?_replicate, if_pos hkind]
  | false =>
    simp only [row, hc, Bool.false_eq_true, if_false]
    rw [List.getElem?_take_of_lt hkind]
    by_cases hbase : kind < (-G.yypact.getD state 0).toNat
    · rw [List.getElem?_append_left (by rwa [List.length_replicate]), List.getElem?_replicate,
        if_pos hbase]
      have hentry : G.entry (G.yypact.getD state 0 + kind) kind = none := by
        rw [entry, if_neg (by omega)]
      simp only [action, hc, Bool.false_eq_true, if_false, hentry]
    · obtain ⟨d, hd⟩ := Nat.exists_eq_add_of_le (Nat.not_lt.mp hbase)
      have hi : G.yypact.getD state 0 + kind = ((G.yypact.getD state 0).toNat + d : Nat) := by
        omega
      have hscan := G.scan_getElem? state (-G.yypact.getD state 0).toNat d
        (G.yycheck.drop (G.yypact.getD state 0).toNat)
        (G.yytable.drop (G.yypact.getD state 0).toNat)
      rw [List.getElem?_drop, List.getElem?_drop, ← hd] at hscan
      rw [List.getElem?_append_right (by rw [List.length_replicate]; omega),
        List.length_replicate, hd, Nat.add_sub_cancel_left, ← hd, action_eq_decode hG hc hi]
      cases hx : (G.scan state (-G.yypact.getD state 0).toNat
        (G.yycheck.drop (G.yypact.getD state 0).toNat)
        (G.yytable.drop (G.yypact.getD state 0).toNat))[d]? with
      | some x =>
        rw [List.getElem?_append_left (List.getElem?_eq_some_iff.mp hx).1, hx]
        rw [hx] at hscan
        split at hscan
        · simp only [hscan]
        · cases hscan
      | none =>
        rw [List.getElem?_append_right (List.getElem?_eq_none_iff.mp hx), List.getElem?_replicate,
          if_pos (by omega)]
        rw [hx] at hscan
        split at hscan
        · cases hscan
        · simp

theorem action_of_row (hG : G.WellFormed) {n state kind : Nat} {f : Nat → Action}
    (h : G.row n state = (List.range n).map f) (hkind : kind < n) :
    G.action state kind = f kind := by
  have hrow : (G.row n state)[kind]? = some (G.action state kind) := row_getElem? hG hkind
  rw [h, List.getElem?_map, List.getElem?_range hkind] at hrow
  exact (Option.some.inj hrow).symm

end Tables

/-! ## 2. The driver -/

/-- What the tokens are, and the semantic actions: a rule gets the values of its right side and the
value below them. -/
structure Actions (T V : Type) where
  kind : T → Nat
  shift : T → V
  reduce : Nat → List V → Option V → V

/-- The states that the parser is in, each with the value of its symbol, the last one first. -/
abbrev Stack (V : Type) := List (Nat × V)

/-- The first of some states. -/
def front (states : List Nat) : Nat := states.getD 0 0

variable {T V : Type} (G : Tables) (A : Actions T V)

def Stack.top (st : Stack V) : Nat := front (st.map Prod.fst)

@[simp] theorem Stack.top_cons (s : Nat) (x : V) (st : Stack V) :
    Stack.top ((s, x) :: st) = s := rfl

/-- What a reduction does to the states. -/
def pop (rule : Nat) (states : List Nat) : List Nat :=
  G.goto (front (states.drop (G.len rule))) (G.lhs rule) :: states.drop (G.len rule)

def reduceBy (rule : Nat) (st : Stack V) : Stack V :=
  (G.goto (Stack.top (st.drop (G.len rule))) (G.lhs rule),
    A.reduce rule ((st.take (G.len rule)).reverse.map Prod.snd)
      ((st.drop (G.len rule)).head?.map Prod.snd)) :: st.drop (G.len rule)

/-- `yy_lac_check_`: the states are those of `lac`, and those of the parser from `top` on. -/
def lacCheck (main : List Nat) (kind : Nat) : Nat → Nat → List Nat → Option Bool
  | 0, _, _ => none
  | fuel + 1, top, lac =>
    match G.action (if lac = [] then front (main.drop top) else front lac) kind with
    | .error => some false
    | .shift _ => some true
    | .reduce rule =>
      let (top, lac) :=
        if G.len rule < lac.length then (top, lac.drop (G.len rule))
        else (top + (G.len rule - lac.length), [])
      lacCheck main kind fuel top
        (G.goto (if lac = [] then front (main.drop top) else front lac) (G.lhs rule) :: lac)

/-- The parser: its stack, the tokens that are left, and whether the next one has been checked. -/
structure Parser (T V : Type) where
  stack : Stack V
  rest : List T
  established : Bool := false

inductive Outcome (T V : Type)
  | accept (stack : Stack V)
  | syntaxError (stack : Stack V) (rest : List T)
  /-- There is no token to read: the lexer throws. -/
  | exception

/-- One turn of the loop; `none` if the check runs out of fuel. -/
def next (fuel : Nat) (p : Parser T V) : Option (Parser T V ⊕ Outcome T V) :=
  if p.stack.top = G.yyfinal then
    some (.inr (.accept p.stack))
  else if G.consistent p.stack.top then
    match G.default p.stack.top with
    | .reduce rule => some (.inl { p with stack := reduceBy G A rule p.stack })
    | _ => some (.inr (.syntaxError p.stack p.rest))
  else
    match p.rest with
    | [] => some (.inr .exception)
    | t :: rest =>
      match G.action p.stack.top (A.kind t) with
      | .shift s => some (.inl ⟨(s, A.shift t) :: p.stack, rest, false⟩)
      | .error => some (.inr (.syntaxError p.stack p.rest))
      | .reduce rule =>
        if p.established then
          some (.inl { p with stack := reduceBy G A rule p.stack })
        else
          (lacCheck G (p.stack.map Prod.fst) (A.kind t) fuel 0 []).map fun
            | true => .inl ⟨reduceBy G A rule p.stack, p.rest, true⟩
            | false => .inr (.syntaxError p.stack p.rest)

def run : Nat → Parser T V → Option (Outcome T V)
  | 0, _ => none
  | fuel + 1, p =>
    match next G A fuel p with
    | none => none
    | some (.inl p) => run fuel p
    | some (.inr outcome) => some outcome

/-- With enough fuel, the parser comes to the outcome. -/
def Returns (p : Parser T V) (outcome : Outcome T V) : Prop :=
  ∃ n, ∀ fuel, n ≤ fuel → run G A fuel p = some outcome

variable {G A}

theorem Returns.of_outcome {p : Parser T V} {outcome : Outcome T V} {n : Nat}
    (h : ∀ fuel, n ≤ fuel → next G A fuel p = some (.inr outcome)) :
    Returns G A p outcome := by
  refine ⟨n + 1, fun fuel hfuel => ?_⟩
  obtain ⟨fuel, rfl⟩ := Nat.exists_eq_add_of_lt hfuel
  rw [run, h _ (Nat.le_add_right n fuel)]

theorem Returns.of_next {p p' : Parser T V} {outcome : Outcome T V} {n : Nat}
    (h : ∀ fuel, n ≤ fuel → next G A fuel p = some (.inl p')) (hr : Returns G A p' outcome) :
    Returns G A p outcome := by
  obtain ⟨n', hn'⟩ := hr
  refine ⟨max n n' + 1, fun fuel hfuel => ?_⟩
  obtain ⟨fuel, rfl⟩ := Nat.exists_eq_add_of_lt hfuel
  rw [run, h _ (by omega)]
  exact hn' _ (by omega)

theorem Returns.unique {p : Parser T V} {o o' : Outcome T V} (h : Returns G A p o)
    (h' : Returns G A p o') : o = o' := by
  obtain ⟨n, hn⟩ := h
  obtain ⟨n', hn'⟩ := h'
  exact Option.some.inj ((hn _ (Nat.le_max_left n n')).symm.trans (hn' _ (Nat.le_max_right n n')))

/-- With enough fuel, the parser comes from one configuration to the other. -/
inductive Steps (G : Tables) (A : Actions T V) : Parser T V → Parser T V → Prop
  | refl {p} : Steps G A p p
  | next {p p' p''} (n : Nat) (h : ∀ fuel, n ≤ fuel → next G A fuel p = some (.inl p'))
    (h' : Steps G A p' p'') : Steps G A p p''

theorem Steps.one {p p' : Parser T V} {n : Nat}
    (h : ∀ fuel, n ≤ fuel → Lalr.next G A fuel p = some (.inl p')) : Steps G A p p' :=
  .next n h .refl

theorem Steps.trans {p p' p'' : Parser T V} (h : Steps G A p p') (h' : Steps G A p' p'') :
    Steps G A p p'' := by
  induction h with
  | refl => exact h'
  | next n h _ ih => exact .next n h (ih h')

theorem Steps.returns {p p' : Parser T V} {outcome : Outcome T V} (h : Steps G A p p')
    (hr : Returns G A p' outcome) : Returns G A p outcome := by
  induction h with
  | refl => exact hr
  | next n h _ ih => exact .of_next h (ih hr)

/-! ### More fuel changes nothing -/

theorem lacCheck_mono {main lac : List Nat} {kind fuel fuel' top : Nat} {b : Bool}
    (hfuel : fuel ≤ fuel') (h : lacCheck G main kind fuel top lac = some b) :
    lacCheck G main kind fuel' top lac = some b := by
  induction fuel generalizing fuel' top lac with
  | zero => cases h
  | succ fuel ih =>
    obtain ⟨fuel', rfl⟩ := Nat.exists_eq_add_of_lt hfuel
    rw [lacCheck] at h ⊢
    cases haction : G.action (if lac = [] then front (main.drop top) else front lac) kind with
    | error => rwa [haction] at h
    | shift s => rwa [haction] at h
    | reduce rule =>
      rw [haction] at h
      exact ih (Nat.le_add_right fuel fuel') h

theorem next_mono {p : Parser T V} {x : Parser T V ⊕ Outcome T V} {fuel fuel' : Nat}
    (hfuel : fuel ≤ fuel') (h : next G A fuel p = some x) : next G A fuel' p = some x := by
  unfold next at h ⊢
  split
  · next hfinal => rwa [if_pos hfinal] at h
  · next hfinal =>
    rw [if_neg hfinal] at h
    split
    · next hc => rwa [if_pos hc] at h
    · next hc =>
      rw [if_neg hc] at h
      cases hrest : p.rest with
      | nil => simpa only [hrest] using h
      | cons t rest =>
        simp only [hrest] at h ⊢
        cases haction : G.action p.stack.top (A.kind t) with
        | shift s => simpa only [haction] using h
        | error => simpa only [haction] using h
        | reduce rule =>
          simp only [haction] at h ⊢
          split
          · next hchecked => rwa [if_pos hchecked] at h
          · next hchecked =>
            rw [if_neg hchecked] at h
            obtain ⟨b, hb, rfl⟩ := Option.map_eq_some_iff.mp h
            rw [lacCheck_mono hfuel hb, Option.map_some]

theorem run_mono {p : Parser T V} {outcome : Outcome T V} {fuel fuel' : Nat}
    (hfuel : fuel ≤ fuel') (h : run G A fuel p = some outcome) :
    run G A fuel' p = some outcome := by
  induction fuel generalizing fuel' p with
  | zero => cases h
  | succ fuel ih =>
    obtain ⟨fuel', rfl⟩ := Nat.exists_eq_add_of_lt hfuel
    rw [run] at h ⊢
    cases hnext : next G A fuel p with
    | none =>
      rw [hnext] at h
      cases h
    | some x =>
      rw [next_mono (Nat.le_add_right fuel fuel') hnext]
      rw [hnext] at h
      cases x with
      | inl p' => exact ih (Nat.le_add_right fuel fuel') h
      | inr o => exact h

theorem Returns.of_run {p : Parser T V} {outcome : Outcome T V} {fuel : Nat}
    (h : run G A fuel p = some outcome) : Returns G A p outcome :=
  ⟨fuel, fun _ hfuel => run_mono hfuel h⟩

/-! ## 3. Reductions -/

/-- With a token of kind `kind` to read, the parser reduces from one stack to the other. -/
inductive Leads (G : Tables) (A : Actions T V) (kind : Nat) : Stack V → Stack V → Prop
  | refl {st} : Leads G A kind st st
  | reduce {st st' rule} (h : G.action st.top kind = .reduce rule)
    (h' : Leads G A kind (reduceBy G A rule st) st') : Leads G A kind st st'

/-- Reductions in states without a row: no token is read for them. -/
inductive Settles (G : Tables) (A : Actions T V) : Stack V → Stack V → Prop
  | refl {st} : Settles G A st st
  | reduce {st st' rule} (hc : G.consistent st.top = true) (h : G.default st.top = .reduce rule)
    (h' : Settles G A (reduceBy G A rule st) st') : Settles G A st st'

/-- After some reductions, the token is shifted. -/
def Takes (G : Tables) (A : Actions T V) (t : T) (st st' : Stack V) : Prop :=
  ∃ st₁ s, Leads G A (A.kind t) st st₁ ∧ G.action st₁.top (A.kind t) = .shift s ∧
    st' = (s, A.shift t) :: st₁

/-- After some reductions, a token of the kind is an error. -/
def Errs (G : Tables) (A : Actions T V) (kind : Nat) (st : Stack V) : Prop :=
  ∃ st₁, Leads G A kind st st₁ ∧ G.consistent st₁.top = false ∧ G.action st₁.top kind = .error

variable {st st₁ st₂ : Stack V} {kind : Nat} {t : T}

theorem action_of_consistent {state : Nat} (h : G.consistent state = true) (kind : Nat) :
    G.action state kind = G.default state := by
  rw [Tables.action, if_pos h]

theorem default_ne_shift {state s : Nat} : G.default state ≠ .shift s := by
  rw [Tables.default]
  split <;> simp

theorem consistent_of_shift {state s : Nat} (h : G.action state kind = .shift s) :
    G.consistent state = false := by
  by_contra hc
  rw [action_of_consistent (Bool.not_eq_false _ ▸ hc)] at h
  exact default_ne_shift h

theorem reduceBy_append {rule : Nat} {rhs : Stack V} (hlen : G.len rule = rhs.length)
    (st : Stack V) : reduceBy G A rule (rhs ++ st) = (G.goto st.top (G.lhs rule),
      A.reduce rule (rhs.reverse.map Prod.snd) (st.head?.map Prod.snd)) :: st := by
  rw [reduceBy, hlen, List.drop_left, List.take_left]

theorem Leads.trans (h : Leads G A kind st st₁) (h' : Leads G A kind st₁ st₂) :
    Leads G A kind st st₂ := by
  induction h with
  | refl => exact h'
  | reduce h _ ih => exact .reduce h (ih h')

theorem Leads.one {rule : Nat} (h : G.action st.top kind = .reduce rule) :
    Leads G A kind st (reduceBy G A rule st) :=
  .reduce h .refl

theorem Settles.one {rule : Nat} (hc : G.consistent st.top = true)
    (h : G.default st.top = .reduce rule) : Settles G A st (reduceBy G A rule st) :=
  .reduce hc h .refl

theorem Settles.trans (h : Settles G A st st₁) (h' : Settles G A st₁ st₂) :
    Settles G A st st₂ := by
  induction h with
  | refl => exact h'
  | reduce hc h _ ih => exact .reduce hc h (ih h')

theorem Settles.leads (h : Settles G A st st₁) (kind : Nat) : Leads G A kind st st₁ := by
  induction h with
  | refl => exact .refl
  | reduce hc h _ ih => exact .reduce ((action_of_consistent hc kind).trans h) ih

theorem Takes.shift {s : Nat} (h : G.action st.top (A.kind t) = .shift s) :
    Takes G A t st ((s, A.shift t) :: st) :=
  ⟨st, s, .refl, h, rfl⟩

theorem Errs.error (hc : G.consistent st.top = false) (h : G.action st.top kind = .error) :
    Errs G A kind st :=
  ⟨st, .refl, hc, h⟩

theorem Leads.takes {st' : Stack V} (h : Leads G A (A.kind t) st st₁)
    (h' : Takes G A t st₁ st') : Takes G A t st st' := by
  obtain ⟨st₂, s, hleads, hshift, rfl⟩ := h'
  exact ⟨st₂, s, h.trans hleads, hshift, rfl⟩

theorem Leads.errs (h : Leads G A kind st st₁) (h' : Errs G A kind st₁) : Errs G A kind st := by
  obtain ⟨st₂, hleads, hc, herr⟩ := h'
  exact ⟨st₂, h.trans hleads, hc, herr⟩

/-- The reductions for which no token is read come first, and are the same for all tokens. -/
theorem Leads.of_settles (h : Leads G A kind st st₁) (hc : G.consistent st₁.top = false)
    (h' : Settles G A st st₂) : Leads G A kind st₂ st₁ := by
  induction h' with
  | refl => exact h
  | reduce hc' h' _ ih =>
    cases h with
    | refl => cases hc'.symm.trans hc
    | reduce h hleads =>
      cases h.symm.trans ((action_of_consistent hc' kind).trans h')
      exact ih hleads

theorem Takes.of_settles {st' : Stack V} (h : Takes G A t st st') (h' : Settles G A st st₂) :
    Takes G A t st₂ st' := by
  obtain ⟨st₁, s, hleads, hshift, rfl⟩ := h
  exact ⟨st₁, s, hleads.of_settles (consistent_of_shift hshift) h', hshift, rfl⟩

theorem Errs.of_settles (h : Errs G A kind st) (h' : Settles G A st st₂) :
    Errs G A kind st₂ := by
  obtain ⟨st₁, hleads, hc, herr⟩ := h
  exact ⟨st₁, hleads.of_settles hc h', hc, herr⟩

theorem Leads.settles (h : Leads G A kind st st₁) (hc : G.consistent st₁.top = false) :
    ∃ st₂, Settles G A st st₂ ∧ G.consistent st₂.top = false := by
  induction h with
  | refl => exact ⟨_, .refl, hc⟩
  | @reduce st _ rule h _ ih =>
    cases hc' : G.consistent st.top with
    | true =>
      obtain ⟨st₂, hst₂, hc₂⟩ := ih hc
      exact ⟨st₂, .reduce hc' (action_of_consistent hc' kind ▸ h) hst₂, hc₂⟩
    | false => exact ⟨st, .refl, hc'⟩

/-! ## 4. The check finds out what the token does -/

/-- What the check says of a kind, with enough fuel. -/
def Checks (G : Tables) (main : List Nat) (kind : Nat) (b : Bool) : Prop :=
  ∃ n, ∀ fuel, n ≤ fuel → lacCheck G main kind fuel 0 [] = some b

theorem Checks.unique {main : List Nat} {b b' : Bool} (h : Checks G main kind b)
    (h' : Checks G main kind b') : b = b' := by
  obtain ⟨n, hn⟩ := h
  obtain ⟨n', hn'⟩ := h'
  exact Option.some.inj ((hn _ (Nat.le_max_left n n')).symm.trans (hn' _ (Nat.le_max_right n n')))

theorem states_reduceBy (rule : Nat) (st : Stack V) :
    (reduceBy G A rule st).map Prod.fst = pop G rule (st.map Prod.fst) := by
  simp only [reduceBy, pop, List.map_cons, Stack.top, List.map_drop]

theorem front_lac {main lac states : List Nat} {top : Nat} (h : states = lac ++ main.drop top) :
    (if lac = [] then front (main.drop top) else front lac) = front states := by
  cases lac with
  | nil => rw [if_pos rfl, h, List.nil_append]
  | cons s lac =>
    rw [if_neg (List.cons_ne_nil s lac), h]
    rfl

/-- A reduction of the check is a reduction. -/
theorem lacCheck_reduce {main lac states : List Nat} {top rule : Nat}
    (hstates : states = lac ++ main.drop top)
    (h : G.action (front states) kind = .reduce rule) :
    ∃ top' lac', pop G rule states = lac' ++ main.drop top' ∧ ∀ fuel,
      lacCheck G main kind (fuel + 1) top lac = lacCheck G main kind fuel top' lac' := by
  by_cases hlen : G.len rule < lac.length
  · have hdrop : states.drop (G.len rule) = lac.drop (G.len rule) ++ main.drop top := by
      rw [hstates, List.drop_append_of_le_length (Nat.le_of_lt hlen)]
    refine ⟨top, G.goto (front (states.drop (G.len rule))) (G.lhs rule) ::
      lac.drop (G.len rule), ?_, fun fuel => ?_⟩
    · rw [pop, hdrop, List.cons_append]
    · rw [lacCheck, front_lac hstates, h]
      simp only [if_pos hlen, front_lac hdrop]
  · have hdrop : states.drop (G.len rule) = main.drop (top + (G.len rule - lac.length)) := by
      rw [hstates, List.drop_append, List.drop_eq_nil_of_le (Nat.not_lt.mp hlen), List.drop_drop,
        List.nil_append]
    refine ⟨top + (G.len rule - lac.length),
      [G.goto (front (states.drop (G.len rule))) (G.lhs rule)], ?_, fun fuel => ?_⟩
    · rw [pop, hdrop, List.singleton_append]
    · rw [lacCheck, front_lac hstates, h]
      simp only [if_neg hlen, if_true, hdrop]

/-- **The check reduces as the parser does.** -/
theorem Leads.lacCheck {main lac : List Nat} {top : Nat} (h : Leads G A kind st st₁)
    (hst : st.map Prod.fst = lac ++ main.drop top) :
    ∃ top' lac' n, st₁.map Prod.fst = lac' ++ main.drop top' ∧ ∀ fuel,
      lacCheck G main kind (fuel + n) top lac = lacCheck G main kind fuel top' lac' := by
  induction h generalizing top lac with
  | refl => exact ⟨top, lac, 0, hst, fun fuel => rfl⟩
  | reduce h _ ih =>
    obtain ⟨top', lac', hpop, hcheck⟩ := lacCheck_reduce hst h
    obtain ⟨top'', lac'', n, hst₁, hrest⟩ := ih ((states_reduceBy _ _).trans hpop)
    exact ⟨top'', lac'', n + 1, hst₁, fun fuel => (hcheck (fuel + n)).trans (hrest fuel)⟩

theorem Takes.lacCheck {st' : Stack V} (h : Takes G A t st st') :
    Checks G (st.map Prod.fst) (A.kind t) true := by
  obtain ⟨st₁, s, hleads, hshift, -⟩ := h
  have hstack : st.map Prod.fst = [] ++ (st.map Prod.fst).drop 0 := rfl
  obtain ⟨top, lac, n, hst, hcheck⟩ := hleads.lacCheck hstack
  refine ⟨n + 1, fun fuel hfuel => ?_⟩
  obtain ⟨fuel, rfl⟩ := Nat.exists_eq_add_of_le' hfuel
  have hfront : G.action (front (st₁.map Prod.fst)) (A.kind t) = .shift s := hshift
  rw [Nat.add_comm n 1, ← Nat.add_assoc, hcheck, Lalr.lacCheck, front_lac hst, hfront]

theorem Errs.lacCheck (h : Errs G A kind st) : Checks G (st.map Prod.fst) kind false := by
  obtain ⟨st₁, hleads, -, herr⟩ := h
  have hstack : st.map Prod.fst = [] ++ (st.map Prod.fst).drop 0 := rfl
  obtain ⟨top, lac, n, hst, hcheck⟩ := hleads.lacCheck hstack
  refine ⟨n + 1, fun fuel hfuel => ?_⟩
  obtain ⟨fuel, rfl⟩ := Nat.exists_eq_add_of_le' hfuel
  have hfront : G.action (front (st₁.map Prod.fst)) kind = .error := herr
  rw [Nat.add_comm n 1, ← Nat.add_assoc, hcheck, Lalr.lacCheck, front_lac hst, hfront]

/-! ## 5. The driver does what the token does -/

section Driver

-- The final state comes of a shift.
variable (hgoto : ∀ state symbol, G.goto state symbol ≠ G.yyfinal) {rest : List T}
  {outcome : Outcome T V}

include hgoto

theorem Settles.top_ne (h : Settles G A st st₁) (hfinal : st.top ≠ G.yyfinal) :
    st₁.top ≠ G.yyfinal := by
  induction h with
  | refl => exact hfinal
  | reduce _ _ _ ih => exact ih (hgoto _ _)

theorem Settles.steps {b : Bool} (h : Settles G A st st₁) (hfinal : st.top ≠ G.yyfinal) :
    Steps G A ⟨st, rest, b⟩ ⟨st₁, rest, b⟩ := by
  induction h with
  | refl => exact .refl
  | reduce hc h _ ih =>
    refine .next 0 (fun fuel _ => ?_) (ih (hgoto _ _))
    rw [next, if_neg hfinal, if_pos hc, h]

/-- A token that has been checked: the reductions it asks for. -/
theorem Leads.steps (h : Leads G A (A.kind t) st st₁) (hfinal : st.top ≠ G.yyfinal) :
    st₁.top ≠ G.yyfinal ∧ Steps G A ⟨st, t :: rest, true⟩ ⟨st₁, t :: rest, true⟩ := by
  induction h with
  | refl => exact ⟨hfinal, .refl⟩
  | @reduce st _ rule h _ ih =>
    obtain ⟨hfinal₁, hsteps⟩ := ih (hgoto _ _)
    refine ⟨hfinal₁, .next 0 (fun fuel _ => ?_) hsteps⟩
    cases hc : G.consistent st.top with
    | true =>
      rw [action_of_consistent hc] at h
      simp only [next, if_neg hfinal, hc, if_true, h]
    | false => simp only [next, if_neg hfinal, hc, Bool.false_eq_true, if_false, h, if_true]

/-- **A token that is shifted in the end is shifted**, after its reductions. -/
theorem Takes.steps {st' : Stack V} (h : Takes G A t st st') (hfinal : st.top ≠ G.yyfinal) :
    Steps G A ⟨st, t :: rest, false⟩ ⟨st', rest, false⟩ := by
  obtain ⟨st₁, s, hleads, hshift, rfl⟩ := h
  have hnext (b : Bool) (hfinal : st₁.top ≠ G.yyfinal) :
      Steps G A ⟨st₁, t :: rest, b⟩ ⟨(s, A.shift t) :: st₁, rest, false⟩ := by
    refine .one (n := 0) fun fuel _ => ?_
    simp only [next, if_neg hfinal, consistent_of_shift hshift, Bool.false_eq_true, if_false,
      hshift]
  obtain ⟨st₂, hsettles, hc⟩ := hleads.settles (consistent_of_shift hshift)
  have hleads₂ := hleads.of_settles (consistent_of_shift hshift) hsettles
  have hfinal₂ := hsettles.top_ne hgoto hfinal
  refine (hsettles.steps hgoto hfinal).trans ?_
  have htakes : Takes G A t st₂ ((s, A.shift t) :: st₁) := ⟨st₁, s, hleads₂, hshift, rfl⟩
  obtain ⟨n, hn⟩ := htakes.lacCheck
  cases hleads₂ with
  | refl => exact hnext false hfinal₂
  | reduce h hleads₂ =>
    obtain ⟨hfinal₁, hsteps⟩ : st₁.top ≠ G.yyfinal ∧
        Steps G A ⟨_, t :: rest, true⟩ ⟨st₁, t :: rest, true⟩ :=
      hleads₂.steps hgoto (hgoto _ _)
    refine .next n (fun fuel hfuel => ?_) (hsteps.trans (hnext true hfinal₁))
    simp only [next, if_neg hfinal₂, hc, Bool.false_eq_true, if_false, h, hn fuel hfuel,
      Option.map_some]

/-- **A token that is an error in the end is an error at once**, and nothing is reduced for it. -/
theorem Errs.returns (h : Errs G A (A.kind t) st) (hfinal : st.top ≠ G.yyfinal) :
    ∃ st₂, Settles G A st st₂ ∧ G.consistent st₂.top = false ∧
      Returns G A ⟨st, t :: rest, false⟩ (.syntaxError st₂ (t :: rest)) := by
  obtain ⟨st₁, hleads, hc₁, herr⟩ := h
  obtain ⟨st₂, hsettles, hc⟩ := hleads.settles hc₁
  have hleads₂ := hleads.of_settles hc₁ hsettles
  have hfinal₂ := hsettles.top_ne hgoto hfinal
  refine ⟨st₂, hsettles, hc, (hsettles.steps hgoto hfinal).returns ?_⟩
  have herrs : Errs G A (A.kind t) st₂ := ⟨st₁, hleads₂, hc₁, herr⟩
  obtain ⟨n, hn⟩ := herrs.lacCheck
  refine Returns.of_outcome (n := n) fun fuel hfuel => ?_
  cases hleads₂ with
  | refl => simp only [next, if_neg hfinal₂, hc, Bool.false_eq_true, if_false, herr]
  | reduce h _ =>
    simp only [next, if_neg hfinal₂, hc, Bool.false_eq_true, if_false, h, hn fuel hfuel,
      Option.map_some]

/-- Without a token to read, the exception of the lexer passes through. -/
theorem Settles.exception {b : Bool} (h : Settles G A st st₁) (hfinal : st.top ≠ G.yyfinal)
    (hc : G.consistent st₁.top = false) : Returns G A ⟨st, [], b⟩ .exception := by
  refine (h.steps hgoto hfinal).returns (Returns.of_outcome (n := 0) fun fuel _ => ?_)
  simp only [next, if_neg (h.top_ne hgoto hfinal), hc, Bool.false_eq_true, if_false]

end Driver

theorem returns_accept {rest : List T} {b : Bool} (hfinal : st.top = G.yyfinal) :
    Returns G A ⟨st, rest, b⟩ (.accept st) :=
  Returns.of_outcome (n := 0) fun fuel _ => by
    simp only [next, if_pos hfinal]

/-! ## 6. Errors -/

/-- `S_YYerror`, the token that only error recovery shifts. -/
def yyerror : Nat := 1

/-- `S_YYUNDEF`, the kind of what is no token. -/
def yyundef : Nat := 2

/-- `expected_tokens`: the kinds that the check lets through, unless there are more than `yyargn`
of them; `none` if it runs out of fuel. -/
def expectedTokens (G : Tables) (main : List Nat) (yyargn fuel : Nat) :
    List Nat → List Nat → Option (List Nat)
  | [], yyarg => some yyarg
  | yysym :: kinds, yyarg =>
    if yysym = yyerror ∨ yysym = yyundef then expectedTokens G main yyargn fuel kinds yyarg
    else
      match lacCheck G main yysym fuel 0 [] with
      | none => none
      | some false => expectedTokens G main yyargn fuel kinds yyarg
      | some true =>
        if yyarg.length = yyargn then some []
        else expectedTokens G main yyargn fuel kinds (yyarg ++ [yysym])

/-- `yyerrlab1`: the state that the error token is shifted to, from the first of the states that
shifts it; `none` if all of them are popped. -/
def errorState (G : Tables) : List Nat → Option Nat
  | [] => none
  | state :: states =>
    if G.consistent state then errorState G states
    else
      match G.entry (G.yypact.getD state 0 + yyerror) yyerror with
      | none => errorState G states
      | some yyn => if 0 < yyn then some yyn.toNat else errorState G states

/-- **The tokens that are expected are those that the check lets through.** -/
theorem expectedTokens_eq {main kinds yyarg : List Nat} {allowed : Nat → Bool} {yyargn : Nat}
    (h : ∀ k ∈ kinds, k ≠ yyerror → k ≠ yyundef → Checks G main k (allowed k))
    (herror : allowed yyerror = false) (hundef : allowed yyundef = false)
    (hlen : yyarg.length ≤ yyargn) :
    ∃ n, ∀ fuel, n ≤ fuel → expectedTokens G main yyargn fuel kinds yyarg =
      some (if (yyarg ++ kinds.filter allowed).length ≤ yyargn then yyarg ++ kinds.filter allowed
        else []) := by
  induction kinds generalizing yyarg with
  | nil =>
    refine ⟨0, fun fuel _ => ?_⟩
    rw [List.filter_nil, List.append_nil, if_pos hlen, expectedTokens]
  | cons k kinds ih =>
    have hrest := fun k' hk' => h k' (List.mem_cons_of_mem k hk')
    by_cases hskip : k = yyerror ∨ k = yyundef
    · have hk : allowed k = false := by
        obtain rfl | rfl := hskip
        · exact herror
        · exact hundef
      obtain ⟨n, hn⟩ := ih hrest hlen
      refine ⟨n, fun fuel hfuel => ?_⟩
      rw [expectedTokens, if_pos hskip, hn fuel hfuel, List.filter_cons_of_neg (by simp [hk])]
    · obtain ⟨hk₁, hk₂⟩ := not_or.mp hskip
      obtain ⟨m, hm⟩ := h k List.mem_cons_self hk₁ hk₂
      cases hk : allowed k with
      | false =>
        obtain ⟨n, hn⟩ := ih hrest hlen
        refine ⟨max m n, fun fuel hfuel => ?_⟩
        rw [expectedTokens, if_neg hskip, hm fuel (by omega), hk, hn fuel (by omega),
          List.filter_cons_of_neg (by simp [hk])]
      | true =>
        rw [List.filter_cons_of_pos (by simp [hk])]
        by_cases hfull : yyarg.length = yyargn
        · refine ⟨m, fun fuel hfuel => ?_⟩
          have hmore : ¬ (yyarg ++ k :: kinds.filter allowed).length ≤ yyargn := by
            rw [List.length_append, List.length_cons]
            omega
          rw [expectedTokens, if_neg hskip, hm fuel hfuel, hk, if_neg hmore]
          exact if_pos hfull
        · have hlen' : (yyarg ++ [k]).length ≤ yyargn := by
            rw [List.length_append, List.length_singleton]
            omega
          obtain ⟨n, hn⟩ := ih hrest hlen'
          refine ⟨max m n, fun fuel hfuel => ?_⟩
          rw [expectedTokens, if_neg hskip, hm fuel (by omega), hk]
          simp only [if_neg hfull]
          rw [hn fuel (by omega), List.append_assoc, List.singleton_append]

/-- A token that no entry of the table is for is never shifted. -/
theorem errorState_eq_none (hG : G.WellFormed)
    (h : ∀ p ∈ G.yytable.zip G.yycheck, p.2 ≠ (yyerror : Int)) (states : List Nat) :
    errorState G states = none := by
  induction states with
  | nil => rfl
  | cons state states ih =>
    rw [errorState]
    split
    · exact ih
    · cases hentry : G.entry (G.yypact.getD state 0 + yyerror) yyerror with
      | none => exact ih
      | some yyn => exact absurd rfl (h _ (Tables.entry_mem hG hentry))

end Lalr
