/-
# The union-find of the grouper

`DSU` (`athena/dsu.cc`): a parent map and a rank map over 64-bit keys, where a rank is a 32-bit
number.  `Find` adds a key it has not seen and compresses the path it walks, so that every call
changes the maps.

* `Models`: after calls the maps are those of `Lib.UnionFind`, whose ranks are natural numbers.
  There are at most `2 ^ 64` keys, so a rank is at most `64` and does not wrap around.
* `calls_closure`: after any calls the parents form a forest, `Find` returns roots and moves none,
  and two keys are connected if and only if the pairs united connect them.
-/
import JitFusion.Lib.UnionFind
import Mathlib.Data.Fintype.Card

namespace JitFusion

/-! ## 1. The structure -/

structure DSU where
  parent : AList (fun _ : UInt64 => UInt64) := ∅
  rank : AList (fun _ : UInt64 => UInt32) := ∅

namespace DSU

/-- `rank_[x]`.  A key without a rank would get one, but `Find` has given one to every root. -/
def rankOf (d : DSU) (x : UInt64) : UInt32 := (d.rank.lookup x).getD 0

/-- `Find`, with so many calls nested in each other at most. -/
def findWithin : Nat → UInt64 → DSU → Option (UInt64 × DSU)
  | 0, _, _ => none
  | fuel + 1, x, d =>
    match d.parent.lookup x with
    | none => some (x, ⟨d.parent.insert x x, d.rank.insert x 0⟩)
    | some p =>
      if p ≠ x then do
        let (r, d) ← findWithin fuel p d
        -- the call has added no key, so the iterator is still valid
        some (r, { d with parent := d.parent.insert x r })
      else some (p, d)

def find (x : UInt64) (d : DSU) : Option (UInt64 × DSU) :=
  findWithin (d.parent.keys.length + 1) x d

def link (rx ry : UInt64) (d : DSU) : DSU :=
  if d.rankOf rx < d.rankOf ry then { d with parent := d.parent.insert rx ry }
  else if d.rankOf rx > d.rankOf ry then { d with parent := d.parent.insert ry rx }
  else ⟨d.parent.insert ry rx, d.rank.insert rx (d.rankOf rx + 1)⟩

def union (x y : UInt64) (d : DSU) : Option DSU := do
  let (rx, d) ← find x d
  let (ry, d) ← find y d
  if rx = ry then some d else some (d.link rx ry)

/-- `Connected`.  The operands of `==` may also be evaluated in the other order, which is
`connected y x`. -/
def connected (x y : UInt64) (d : DSU) : Option (Bool × DSU) := do
  let (rx, d) ← find x d
  let (ry, d) ← find y d
  some (rx = ry, d)

/-- A call of one of the public functions. -/
inductive Call
  | find (x : UInt64)
  | union (x y : UInt64)
  | connected (x y : UInt64)

def Call.apply : Call → DSU → Option DSU
  | .find x, d => (d.find x).map Prod.snd
  | .union x y, d => d.union x y
  | .connected x y, d => (d.connected x y).map Prod.snd

/-- The structure after some calls. -/
def applyAll : List Call → DSU → Option DSU
  | [], d => some d
  | c :: calls, d => (c.apply d).bind (applyAll calls)

/-- The pairs that are united. -/
def unions : List Call → List (UInt64 × UInt64)
  | [] => []
  | .union x y :: calls => (x, y) :: unions calls
  | _ :: calls => unions calls

/-! ## 2. Forests -/

/-- Following the parents from `x` ends at `r`. -/
def Root (d : DSU) (x r : UInt64) : Prop := UnionFind.Root ⟨d.parent, ∅⟩ x r

/-- `p` is the parent of `x`, which is no root. -/
def Child (d : DSU) (x p : UInt64) : Prop := d.parent.lookup x = some p ∧ p ≠ x

/-- The known keys are a forest with ranks. -/
structure Forest (d : DSU) : Prop where
  closed : ∀ {x p}, d.parent.lookup x = some p → p ∈ d.parent
  rooted : ∀ x ∈ d.parent, ∃ r ∈ d.parent, d.Root x r
  acyclic : ∀ x, ¬ Relation.TransGen d.Child x x
  rank_lt : ∀ {x p}, d.Child x p → d.rankOf x < d.rankOf p
  ranked : ∀ x, x ∈ d.rank ↔ x ∈ d.parent

/-! ## 3. Ranks that do not wrap -/

/-- The same maps, with natural numbers as ranks. -/
structure Refines (d : DSU) (u : UnionFind UInt64) : Prop where
  parent : u.parent = d.parent
  rank : ∀ x, u.rank.lookup x = (d.rank.lookup x).map UInt32.toNat

namespace Refines

variable {d : DSU} {u : UnionFind UInt64}

theorem empty : Refines {} {} := ⟨rfl, fun _ => rfl⟩

theorem rankOf (h : Refines d u) (x : UInt64) : u.rankOf x = (d.rankOf x).toNat := by
  rw [UnionFind.rankOf, h.rank, DSU.rankOf]
  cases d.rank.lookup x <;> rfl

theorem setParent (h : Refines d u) (x p : UInt64) :
    Refines ⟨d.parent.insert x p, d.rank⟩ ⟨u.parent.insert x p, u.rank⟩ :=
  ⟨congrArg (AList.insert x p) h.parent, h.rank⟩

theorem setRank (h : Refines d u) (x : UInt64) (m : UInt32) :
    Refines ⟨d.parent, d.rank.insert x m⟩ ⟨u.parent, u.rank.insert x m.toNat⟩ := by
  refine ⟨h.parent, fun y => ?_⟩
  by_cases hy : y = x
  · subst hy
    rw [AList.lookup_insert, AList.lookup_insert]
    rfl
  · rw [AList.lookup_insert_ne hy, AList.lookup_insert_ne hy, h.rank]

theorem root_iff (h : Refines d u) {x r : UInt64} : d.Root x r ↔ UnionFind.Root u x r := by
  have hsame : ∀ {u' : UnionFind UInt64} {x r}, u'.parent = u.parent → UnionFind.Root u' x r →
      UnionFind.Root u x r := by
    intro u' x r he hr
    induction hr with
    | top hx => exact .top (he ▸ hx)
    | step hp hne _ ih => exact .step (he ▸ hp) hne ih
  constructor
  · exact hsame h.parent.symm
  · intro hr
    induction hr with
    | top hx => exact .top (h.parent ▸ hx)
    | step hp hne _ ih => exact .step (h.parent ▸ hp) hne ih

theorem findWithin : ∀ {fuel : Nat} {d : DSU} {u u' : UnionFind UInt64} {x r : UInt64},
    Refines d u → UnionFind.findWithin fuel x u = some (r, u') →
      ∃ d', DSU.findWithin fuel x d = some (r, d') ∧ Refines d' u' := by
  intro fuel
  induction fuel with
  | zero => exact fun _ h => nomatch h
  | succ fuel ih =>
    intro d u u' x r hr h
    rw [UnionFind.findWithin, hr.parent] at h
    rw [DSU.findWithin]
    cases hp : d.parent.lookup x with
    | none =>
      rw [hp] at h
      cases h
      exact ⟨_, rfl, hr.parent ▸ (hr.setParent x x).setRank x 0⟩
    | some p =>
      rw [hp] at h
      dsimp only at h ⊢
      by_cases hne : p = x
      · rw [if_neg (not_not.mpr hne)] at h ⊢
        cases h
        exact ⟨d, by rw [hne], hr⟩
      · rw [if_pos hne] at h ⊢
        rcases Option.bind_eq_some_iff.mp h with ⟨⟨s, u₁⟩, hrun, h⟩
        cases h
        rcases ih hr hrun with ⟨d₁, hrun', hr'⟩
        exact ⟨_, by rw [hrun']; rfl, hr'.setParent x _⟩

theorem find {x r : UInt64} {u' : UnionFind UInt64} (hr : Refines d u)
    (h : UnionFind.find x u = some (r, u')) :
    ∃ d', DSU.find x d = some (r, d') ∧ Refines d' u' := by
  rw [UnionFind.find, hr.parent] at h
  exact hr.findWithin h

/-- The ranks are compared alike, and one that rises does not wrap around. -/
theorem link (hr : Refines d u) (rx ry : UInt64) (hx : u.rankOf rx < 2 ^ 32 - 1) :
    Refines (d.link rx ry) (u.link rx ry) := by
  have hlt : ∀ x y, u.rankOf x < u.rankOf y ↔ d.rankOf x < d.rankOf y := by
    intro x y
    rw [hr.rankOf, hr.rankOf, UInt32.lt_iff_toNat_lt]
  unfold DSU.link UnionFind.link
  simp only [hlt, gt_iff_lt]
  split_ifs
  · exact hr.setParent rx ry
  · exact hr.setParent ry rx
  · have hraise : (d.rankOf rx + 1).toNat = u.rankOf rx + 1 := by
      rw [UInt32.toNat_add, ← hr.rankOf]
      exact Nat.mod_eq_of_lt (by simp only [UInt32.toNat_one]; omega)
    rw [← hraise]
    exact (hr.setParent ry rx).setRank rx _

end Refines

/-- There are no more keys than 64-bit numbers. -/
theorem length_keys_le {V : Type} (l : AList fun _ : UInt64 => V) : l.keys.length ≤ 2 ^ 64 := by
  have hnodup : (l.keys.map UInt64.toFin).Nodup :=
    l.keys_nodup.map fun a b h => UInt64.toFin_inj.mp h
  have hcard := hnodup.length_le_card
  rw [List.length_map, Fintype.card_fin] at hcard
  exact hcard

/-! ## 4. Keys with a rank -/

/-- The keys of the two maps are the same. -/
def Ranked (d : DSU) : Prop := ∀ x, x ∈ d.rank ↔ x ∈ d.parent

namespace Ranked

variable {d d' : DSU}

theorem setParent (h : Ranked d) {x : UInt64} (hx : x ∈ d.parent) (p : UInt64) :
    Ranked { d with parent := d.parent.insert x p } := by
  intro y
  rw [h y, AList.mem_insert]
  exact ⟨.inr, fun hy => hy.elim (fun he => he ▸ hx) id⟩

theorem setRank (h : Ranked d) {x : UInt64} (hx : x ∈ d.parent) (m : UInt32) :
    Ranked { d with rank := d.rank.insert x m } := by
  intro y
  rw [AList.mem_insert, h y]
  exact ⟨fun hy => hy.elim (fun he => he ▸ hx) id, .inr⟩

/-- `Find` gives a new key both, and forgets none. -/
theorem findWithin : ∀ {fuel : Nat} {d d' : DSU} {x r : UInt64}, Ranked d →
    DSU.findWithin fuel x d = some (r, d') → Ranked d' ∧ ∀ y ∈ d.parent, y ∈ d'.parent := by
  intro fuel
  induction fuel with
  | zero => exact fun _ h => nomatch h
  | succ fuel ih =>
    intro d d' x r hd h
    rw [DSU.findWithin] at h
    cases hp : d.parent.lookup x with
    | none =>
      rw [hp] at h
      cases h
      refine ⟨fun y => ?_, fun y hy => (AList.mem_insert _).mpr (.inr hy)⟩
      rw [AList.mem_insert, AList.mem_insert, hd y]
    | some p =>
      rw [hp] at h
      dsimp only at h
      by_cases hne : p = x
      · rw [if_neg (not_not.mpr hne)] at h
        cases h
        exact ⟨hd, fun _ hy => hy⟩
      · rw [if_pos hne] at h
        rcases Option.bind_eq_some_iff.mp h with ⟨⟨s, d₁⟩, hrun, h⟩
        cases h
        have hx : x ∈ d.parent := AList.lookup_isSome.mp (by rw [hp]; rfl)
        obtain ⟨hd₁, hkeys⟩ := ih hd hrun
        exact ⟨hd₁.setParent (hkeys x hx) _,
          fun y hy => (AList.mem_insert _).mpr (.inr (hkeys y hy))⟩

theorem link (h : Ranked d) {rx ry : UInt64} (hx : rx ∈ d.parent) (hy : ry ∈ d.parent) :
    Ranked (d.link rx ry) := by
  unfold DSU.link
  split_ifs
  · exact h.setParent hx ry
  · exact h.setParent hy rx
  · exact (h.setParent hy rx).setRank ((AList.mem_insert _).mpr (.inr hx)) _

end Ranked

/-! ## 5. Calls -/

/-- What holds after calls: `u` has the maps of `d`, and is sound. -/
structure Models (d : DSU) (u : UnionFind UInt64) : Prop where
  refines : Refines d u
  forest : UnionFind.Forest u
  sized : UnionFind.Sized u
  ranked : Ranked d

namespace Models

variable {d : DSU} {u : UnionFind UInt64}

theorem empty : Models {} {} :=
  ⟨.empty, UnionFind.forest_empty, UnionFind.sized_empty, fun _ => Iff.rfl⟩

/-- A rank is at most `64`. -/
theorem rank_le (h : Models d u) {x : UInt64} (hx : x ∈ u.parent) : u.rankOf x ≤ 64 :=
  (Nat.pow_le_pow_iff_right (by decide)).mp
    (Nat.le_trans (h.sized.rank_le_card h.forest hx) (length_keys_le u.parent))

theorem find (h : Models d u) (x : UInt64) : ∃ r d' u', DSU.find x d = some (r, d') ∧
    UnionFind.find x u = some (r, u') ∧ UnionFind.Finds u x r u' ∧ Models d' u' := by
  rcases UnionFind.find_spec h.forest x with ⟨r, u', hrun, hf⟩
  rcases h.refines.find hrun with ⟨d', hrun', hr⟩
  exact ⟨r, d', u', hrun', hrun, hf, hr, hf.forest, hf.sized h.forest h.sized,
    (h.ranked.findWithin hrun').1⟩

/-- Two keys are found one after the other. -/
theorem findBoth (h : Models d u) (x y : UInt64) : ∃ rx ry d₁ d₂ u₁ u₂,
    DSU.find x d = some (rx, d₁) ∧ DSU.find y d₁ = some (ry, d₂) ∧
    UnionFind.find x u = some (rx, u₁) ∧ UnionFind.find y u₁ = some (ry, u₂) ∧
    UnionFind.Root u x rx ∧ UnionFind.Root u y ry ∧ UnionFind.SameRoots u u₂ ∧
    rx ∈ u₂.parent ∧ ry ∈ u₂.parent ∧ Models d₂ u₂ := by
  rcases h.find x with ⟨rx, d₁, u₁, hx, hx', hfx, h₁⟩
  rcases h₁.find y with ⟨ry, d₂, u₂, hy, hy', hfy, h₂⟩
  have hmx : rx ∈ u₁.parent :=
    ((hfx.sameRoots x rx).mpr hfx.root).mem h₁.forest ((hfx.mem x).mpr (.inr rfl))
  have hmy : ry ∈ u₂.parent :=
    ((hfy.sameRoots y ry).mpr hfy.root).mem h₂.forest ((hfy.mem y).mpr (.inr rfl))
  exact ⟨rx, ry, d₁, d₂, u₁, u₂, hx, hy, hx', hy', hfx.root, (hfx.sameRoots y ry).mp hfy.root,
    hfx.sameRoots.trans hfy.sameRoots, (hfy.mem rx).mpr (.inl hmx), hmy, h₂⟩

theorem union (h : Models d u) (x y : UInt64) : ∃ d' u', DSU.union x y d = some d' ∧
    UnionFind.union x y u = some u' ∧ Models d' u' := by
  rcases h.findBoth x y with
    ⟨rx, ry, d₁, d₂, u₁, u₂, hx, hy, hx', hy', hrx, hry, hsame, hmx, hmy, h₂⟩
  have hd : DSU.union x y d = if rx = ry then some d₂ else some (d₂.link rx ry) := by
    rw [DSU.union, hx]
    simp only [Option.bind_eq_bind, Option.bind_some, hy]
  have hu : UnionFind.union x y u = if rx = ry then some u₂ else some (u₂.link rx ry) := by
    rw [UnionFind.union, hx']
    simp only [Option.bind_eq_bind, Option.bind_some, hy']
  rw [hd, hu]
  by_cases he : rx = ry
  · rw [if_pos he, if_pos he]
    exact ⟨d₂, u₂, rfl, rfl, h₂⟩
  · rw [if_neg he, if_neg he]
    have htopx : UnionFind.Root u₂ rx rx := ((hsame x rx).mpr hrx).self
    have htopy : UnionFind.Root u₂ ry ry := ((hsame y ry).mpr hry).self
    have hrank := h₂.rank_le hmx
    refine ⟨_, _, rfl, rfl, h₂.refines.link rx ry (by omega), ?_, ?_, ?_⟩
    · exact (UnionFind.link_spec h₂.forest htopx htopy hmx hmy he).1
    · exact h₂.sized.link htopx htopy hmx hmy he
    · rw [h₂.refines.parent] at hmx hmy
      exact h₂.ranked.link hmx hmy

/-- Two keys are connected if they have one root. -/
theorem connected (h : Models d u) (x y : UInt64) : ∃ b d' u', DSU.connected x y d = some (b, d') ∧
    (b = true ↔ UnionFind.Same u x y) ∧ UnionFind.SameRoots u u' ∧ Models d' u' := by
  rcases h.findBoth x y with
    ⟨rx, ry, d₁, d₂, u₁, u₂, hx, hy, -, -, hrx, hry, hsame, -, -, h₂⟩
  refine ⟨rx = ry, d₂, u₂, ?_, ?_, hsame, h₂⟩
  · rw [DSU.connected, hx]
    simp only [Option.bind_eq_bind, Option.bind_some, hy]
  · rw [decide_eq_true_iff]
    constructor
    · rintro rfl
      exact ⟨rx, hrx, hry⟩
    · rintro ⟨r, hxr, hyr⟩
      rw [hrx.unique hxr, hry.unique hyr]

/-- **One call.** -/
theorem apply (h : Models d u) (c : Call) : ∃ d' u', c.apply d = some d' ∧ Models d' u' ∧
    ∀ pairs z w, Relation.EqvGen (fun a b => UnionFind.Same u' a b ∨ (a, b) ∈ pairs) z w ↔
      Relation.EqvGen (fun a b => UnionFind.Same u a b ∨ (a, b) ∈ unions [c] ++ pairs) z w := by
  have hkeep : ∀ {u' : UnionFind UInt64}, UnionFind.SameRoots u u' → ∀ pairs z w,
      Relation.EqvGen (fun a b => UnionFind.Same u' a b ∨ (a, b) ∈ pairs) z w ↔
        Relation.EqvGen (fun a b => UnionFind.Same u a b ∨ (a, b) ∈ [] ++ pairs) z w := by
    intro u' hsame pairs z w
    simp only [hsame.same_iff, List.nil_append]
  cases c with
  | find x =>
    rcases h.find x with ⟨r, d', u', hrun, -, hf, h'⟩
    exact ⟨d', u', by rw [Call.apply, hrun]; rfl, h', hkeep hf.sameRoots⟩
  | union x y =>
    rcases h.union x y with ⟨d', u', hrun, hrun', h'⟩
    rcases UnionFind.union_spec h.forest x y with ⟨u₁, hu, -, hsame⟩
    obtain rfl : u₁ = u' := Option.some.inj (hu.symm.trans hrun')
    exact ⟨d', u₁, hrun, h', UnionFind.eqvGen_cons_iff h.forest hsame⟩
  | connected x y =>
    rcases h.connected x y with ⟨b, d', u', hrun, -, hsame, h'⟩
    exact ⟨d', u', by rw [Call.apply, hrun]; rfl, h', hkeep hsame⟩

theorem forest_dsu (h : Models d u) : d.Forest := by
  have hlt : ∀ {x p}, d.Child x p → d.rankOf x < d.rankOf p := by
    rintro x p ⟨hp, hne⟩
    rw [UInt32.lt_iff_toNat_lt, ← h.refines.rankOf, ← h.refines.rankOf]
    exact h.forest.rank_lt (h.refines.parent ▸ hp) hne
  have hpath : ∀ {x y}, Relation.TransGen d.Child x y → d.rankOf x < d.rankOf y := by
    intro x y hxy
    induction hxy with
    | single hc => exact hlt hc
    | tail _ hc ih => exact UInt32.lt_trans ih (hlt hc)
  refine ⟨fun hp => ?_, fun x hx => ?_, fun x hx => UInt32.lt_irrefl _ (hpath hx), hlt, h.ranked⟩
  · rw [← h.refines.parent] at hp ⊢
    exact h.forest.closed hp
  · rw [← h.refines.parent] at hx ⊢
    rcases h.forest.exists_root x with ⟨r, hr⟩
    exact ⟨r, hr.mem h.forest hx, h.refines.root_iff.mpr hr⟩

end Models

/-- What calls add to the sets there are. -/
theorem applyAll_spec (calls : List Call) {d : DSU} {u : UnionFind UInt64} (h : Models d u) :
    ∃ d' u', applyAll calls d = some d' ∧ Models d' u' ∧ ∀ z w, UnionFind.Same u' z w ↔
      Relation.EqvGen (fun a b => UnionFind.Same u a b ∨ (a, b) ∈ unions calls) z w := by
  induction calls generalizing d u with
  | nil =>
    refine ⟨d, u, rfl, h, fun z w => ?_⟩
    rcases UnionFind.unionAll_spec [] h.forest with ⟨u', hrun, -, hsame⟩
    obtain rfl : u = u' := Option.some.inj hrun
    exact hsame z w
  | cons c calls ih =>
    rcases h.apply c with ⟨d₁, u₁, hrun, h₁, hstep⟩
    rcases ih h₁ with ⟨d', u', hrun', h', hsame⟩
    refine ⟨d', u', by rw [applyAll, hrun]; exact hrun', h', fun z w => ?_⟩
    rw [hsame, hstep]
    cases c <;> exact Iff.rfl

/-- **The equivalence closure.**  After any calls on a new structure the parents of the known keys
are a forest in which ranks rise, `Find` ends, returns the root of its key and moves no key to
another root, and two keys are connected if and only if the pairs united so far connect them. -/
theorem calls_closure (calls : List Call) : ∃ d, applyAll calls {} = some d ∧ d.Forest ∧
    (∀ x, ∃ r d', d.find x = some (r, d') ∧ d.Root x r ∧ ∀ y s, d'.Root y s ↔ d.Root y s) ∧
    ∀ x y, ∃ b d', d.connected x y = some (b, d') ∧
      (b = true ↔ Relation.EqvGen (fun a b => (a, b) ∈ unions calls) x y) := by
  rcases applyAll_spec calls Models.empty with ⟨d, u, hrun, h, hsame⟩
  refine ⟨d, hrun, h.forest_dsu, fun x => ?_, fun x y => ?_⟩
  · rcases h.find x with ⟨r, d', u', hfind, -, hf, h'⟩
    refine ⟨r, d', hfind, h.refines.root_iff.mpr hf.root, fun y s => ?_⟩
    rw [h'.refines.root_iff, h.refines.root_iff]
    exact hf.sameRoots y s
  · rcases h.connected x y with ⟨b, d', -, hconn, hb, -, -⟩
    refine ⟨b, d', hconn, ?_⟩
    rw [hb, hsame, UnionFind.eqvGen_empty_iff]

end DSU

end JitFusion
