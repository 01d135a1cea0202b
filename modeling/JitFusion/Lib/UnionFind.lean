/-
# Union-find over maps

Disjoint sets of keys, with a parent map and a rank map that grow as keys are seen.  `find`
compresses the path it walks and `union` links the root of lower rank below the other.

* `find_spec`: in a forest, where ranks rise from a key to its parent, `find` returns the root
  and moves no key to another root.
* `union_spec`: `union` joins the sets of its two keys and no others.
* `unionAll_same`: after any unions from the empty structure two keys have the same root if and
  only if they are connected by the pairs united.
* `Sized.rank_le_card`: the keys below a root of rank `n` are at least `2 ^ n`, so that ranks stay
  small.

The walk to a root is bounded by the number of keys, and `find` is `none` if the bound is reached.
In a forest it never is.
-/
import Mathlib.Algebra.Ring.Nat
import Mathlib.Data.List.AList
import Mathlib.Data.Finset.Card
import Mathlib.Logic.Relation

/-! ## 1. The structure -/

structure UnionFind (K : Type) [DecidableEq K] where
  parent : AList (fun _ : K => K) := ∅
  rank : AList (fun _ : K => Nat) := ∅

namespace UnionFind

variable {K : Type} [DecidableEq K]

/-- The rank of a key; a key that has none has rank `0`. -/
def rankOf (d : UnionFind K) (x : K) : Nat := (d.rank.lookup x).getD 0

/-- The root of a key at most so many steps away.  A new key is a root of rank `0`, and every
key on the way is linked to the root. -/
def findWithin : Nat → K → UnionFind K → Option (K × UnionFind K)
  | 0, _, _ => none
  | fuel + 1, x, d =>
    match d.parent.lookup x with
    | none => some (x, ⟨d.parent.insert x x, d.rank.insert x 0⟩)
    | some p =>
      if p ≠ x then do
        let (r, d) ← findWithin fuel p d
        some (r, { d with parent := d.parent.insert x r })
      else some (x, d)

def find (x : K) (d : UnionFind K) : Option (K × UnionFind K) :=
  findWithin (d.parent.keys.length + 1) x d

/-- One root below the other, the one of lower rank; of equal ones the second below the first,
whose rank rises. -/
def link (rx ry : K) (d : UnionFind K) : UnionFind K :=
  if d.rankOf rx < d.rankOf ry then { d with parent := d.parent.insert rx ry }
  else if d.rankOf rx > d.rankOf ry then { d with parent := d.parent.insert ry rx }
  else ⟨d.parent.insert ry rx, d.rank.insert rx (d.rankOf rx + 1)⟩

def union (x y : K) (d : UnionFind K) : Option (UnionFind K) := do
  let (rx, d) ← find x d
  let (ry, d) ← find y d
  if rx = ry then some d else some (d.link rx ry)

/-- The unions of a list of pairs, one after another. -/
def unionAll : List (K × K) → UnionFind K → Option (UnionFind K)
  | [], d => some d
  | (x, y) :: pairs, d => (union x y d).bind (unionAll pairs)

/-! ## 2. Roots -/

/-- Following the parents from `x` ends at `r`.  A key that was never seen is its own root. -/
inductive Root (d : UnionFind K) : K → K → Prop
  | top {x} (h : (d.parent.lookup x).getD x = x) : Root d x x
  | step {x p r} (h : d.parent.lookup x = some p) (hp : p ≠ x) (hr : Root d p r) : Root d x r

/-- Parents are keys, ranks rise towards the roots, and only keys have one. -/
structure Forest (d : UnionFind K) : Prop where
  closed : ∀ {x p}, d.parent.lookup x = some p → p ∈ d.parent
  rank_lt : ∀ {x p}, d.parent.lookup x = some p → p ≠ x → d.rankOf x < d.rankOf p
  rank_new : ∀ {x}, d.parent.lookup x = none → d.rankOf x = 0

theorem forest_empty : Forest ({} : UnionFind K) where
  closed h := by simp at h
  rank_lt h := by simp at h
  rank_new _ := rfl

namespace Root

variable {d : UnionFind K} {x r s : K}

theorem unique (h : Root d x r) (h' : Root d x s) : r = s := by
  induction h with
  | top hx =>
    cases h' with
    | top => rfl
    | step hp hne _ =>
      rw [hp, Option.getD_some] at hx
      exact absurd hx hne
  | step hp hne _ ih =>
    cases h' with
    | top hx =>
      rw [hp, Option.getD_some] at hx
      exact absurd hx hne
    | step hp' _ hr' =>
      rw [hp, Option.some.injEq] at hp'
      exact ih (hp' ▸ hr')

/-- A root is its own parent. -/
theorem getD (h : Root d x r) : (d.parent.lookup r).getD r = r := by
  induction h with
  | top hx => exact hx
  | step _ _ _ ih => exact ih

theorem self (h : Root d x r) : Root d r r := .top h.getD

theorem rank_le (hf : Forest d) (h : Root d x r) : d.rankOf x ≤ d.rankOf r := by
  induction h with
  | top _ => exact Nat.le_refl _
  | step hp hne _ ih => exact Nat.le_trans (Nat.le_of_lt (hf.rank_lt hp hne)) ih

/-- The root of a key is a key. -/
theorem mem (hf : Forest d) (h : Root d x r) (hx : x ∈ d.parent) : r ∈ d.parent := by
  induction h with
  | top _ => exact hx
  | step hp _ _ ih => exact ih (hf.closed hp)

end Root

/-- The two structures lead every key to the same root. -/
def SameRoots (d d' : UnionFind K) : Prop := ∀ y s, Root d' y s ↔ Root d y s

theorem SameRoots.refl (d : UnionFind K) : SameRoots d d := fun _ _ => Iff.rfl

theorem SameRoots.trans {d d' d'' : UnionFind K} (h : SameRoots d d') (h' : SameRoots d' d'') :
    SameRoots d d'' := fun y s => (h' y s).trans (h y s)

/-- A link from a key of lower rank to a key keeps a forest. -/
theorem Forest.insert {d : UnionFind K} (hf : Forest d) {x r : K} (hr : r ∈ d.parent)
    (hlt : d.rankOf x < d.rankOf r) : Forest { d with parent := d.parent.insert x r } := by
  constructor
  · intro y p hp
    rw [AList.mem_insert]
    by_cases hy : y = x
    · subst hy
      rw [AList.lookup_insert, Option.some.injEq] at hp
      exact .inr (hp ▸ hr)
    · rw [AList.lookup_insert_ne hy] at hp
      exact .inr (hf.closed hp)
  · intro y p hp hne
    by_cases hy : y = x
    · subst hy
      rw [AList.lookup_insert, Option.some.injEq] at hp
      exact hp ▸ hlt
    · rw [AList.lookup_insert_ne hy] at hp
      exact hf.rank_lt hp hne
  · intro y hy
    by_cases he : y = x
    · subst he
      rw [AList.lookup_insert] at hy
      exact nomatch hy
    · rw [AList.lookup_insert_ne he] at hy
      exact hf.rank_new hy

/-- **Compression**: linking a key to its root moves no key to another root. -/
theorem sameRoots_compress {d : UnionFind K} {x r : K} (h : Root d x r) (hne : r ≠ x) :
    SameRoots d { d with parent := d.parent.insert x r } := by
  have htop : Root { d with parent := d.parent.insert x r } r r := by
    refine .top ?_
    rw [AList.lookup_insert_ne hne]
    exact h.getD
  have hx : Root { d with parent := d.parent.insert x r } x r :=
    .step (AList.lookup_insert _) hne htop
  intro y s
  constructor
  · intro hy
    induction hy with
    | @top y hy =>
      by_cases he : y = x
      · subst he
        rw [AList.lookup_insert, Option.getD_some] at hy
        exact absurd hy hne
      · rw [AList.lookup_insert_ne he] at hy
        exact .top hy
    | @step y p s hp hpy _ ih =>
      by_cases he : y = x
      · subst he
        rw [AList.lookup_insert, Option.some.injEq] at hp
        subst hp
        exact (h.self.unique ih) ▸ h
      · rw [AList.lookup_insert_ne he] at hp
        exact .step hp hpy ih
  · intro hy
    induction hy with
    | @top y hy =>
      by_cases he : y = x
      · subst he
        exact absurd (h.unique (.top hy)) hne
      · refine .top ?_
        rw [AList.lookup_insert_ne he]
        exact hy
    | @step y p s hp hpy hs ih =>
      by_cases he : y = x
      · subst he
        exact (h.unique (.step hp hpy hs)) ▸ hx
      · refine .step ?_ hpy ih
        rw [AList.lookup_insert_ne he]
        exact hp

/-! ## 3. Find -/

/-- What `find` does. -/
structure Finds (d : UnionFind K) (x r : K) (d' : UnionFind K) : Prop where
  root : Root d x r
  forest : Forest d'
  sameRoots : SameRoots d d'
  rankOf_eq : ∀ y, d'.rankOf y = d.rankOf y
  mem : ∀ y, y ∈ d'.parent ↔ y ∈ d.parent ∨ y = x

/-- The keys of higher rank. -/
def above (d : UnionFind K) (x : K) : Finset K :=
  d.parent.keys.toFinset.filter fun k => d.rankOf x < d.rankOf k

theorem above_card_le (d : UnionFind K) (x : K) : (d.above x).card ≤ d.parent.keys.length :=
  Nat.le_trans (Finset.card_filter_le _ _) (List.toFinset_card_le _)

/-- There is less above a parent. -/
theorem above_card_lt {d : UnionFind K} (hf : Forest d) {x p : K}
    (hp : d.parent.lookup x = some p) (hne : p ≠ x) : (d.above p).card < (d.above x).card := by
  have hlt := hf.rank_lt hp hne
  refine Finset.card_lt_card ((Finset.ssubset_iff_of_subset fun k hk => ?_).mpr ⟨p, ?_, ?_⟩)
  · rw [above, Finset.mem_filter] at hk ⊢
    exact ⟨hk.1, Nat.lt_trans hlt hk.2⟩
  · rw [above, Finset.mem_filter, List.mem_toFinset]
    exact ⟨hf.closed hp, hlt⟩
  · rw [above, Finset.mem_filter]
    exact fun h => Nat.lt_irrefl _ h.2

/-- A new key is a root by itself. -/
theorem finds_new {d : UnionFind K} (hf : Forest d) {x : K} (hx : d.parent.lookup x = none) :
    Finds d x x ⟨d.parent.insert x x, d.rank.insert x 0⟩ := by
  have hrank : ∀ y, rankOf ⟨d.parent.insert x x, d.rank.insert x 0⟩ y = d.rankOf y := by
    intro y
    by_cases he : y = x
    · subst he
      rw [rankOf, AList.lookup_insert, hf.rank_new hx]
      rfl
    · rw [rankOf, AList.lookup_insert_ne he]
      rfl
  refine ⟨.top (by rw [hx]; rfl), ⟨?_, ?_, ?_⟩, ?_, hrank, ?_⟩
  · intro y p hp
    rw [AList.mem_insert]
    by_cases he : y = x
    · subst he
      rw [AList.lookup_insert, Option.some.injEq] at hp
      exact .inl hp.symm
    · rw [AList.lookup_insert_ne he] at hp
      exact .inr (hf.closed hp)
  · intro y p hp hne
    rw [hrank, hrank]
    by_cases he : y = x
    · subst he
      rw [AList.lookup_insert, Option.some.injEq] at hp
      exact absurd hp.symm hne
    · rw [AList.lookup_insert_ne he] at hp
      exact hf.rank_lt hp hne
  · intro y hy
    rw [hrank]
    by_cases he : y = x
    · subst he
      exact hf.rank_new hx
    · rw [AList.lookup_insert_ne he] at hy
      exact hf.rank_new hy
  · intro y s
    have hlook : ∀ y, ((d.parent.insert x x).lookup y).getD y = (d.parent.lookup y).getD y := by
      intro y
      by_cases he : y = x
      · subst he
        rw [AList.lookup_insert, hx]
        rfl
      · rw [AList.lookup_insert_ne he]
    constructor
    · intro hy
      induction hy with
      | top hy => exact .top ((hlook _).symm.trans hy)
      | @step y p s hp hpy _ ih =>
        by_cases he : y = x
        · subst he
          rw [AList.lookup_insert, Option.some.injEq] at hp
          exact absurd hp.symm hpy
        · rw [AList.lookup_insert_ne he] at hp
          exact .step hp hpy ih
    · intro hy
      induction hy with
      | top hy => exact .top ((hlook _).trans hy)
      | @step y p s hp hpy _ ih =>
        refine .step ?_ hpy ih
        by_cases he : y = x
        · subst he
          rw [hx] at hp
          exact nomatch hp
        · rw [AList.lookup_insert_ne he]
          exact hp
  · intro y
    rw [AList.mem_insert]
    exact or_comm

/-- A key whose parent's root is known. -/
theorem Finds.compress {d d' : UnionFind K} (hf : Forest d) {x p r : K}
    (hp : d.parent.lookup x = some p) (hne : p ≠ x) (h : Finds d p r d') :
    Finds d x r { d' with parent := d'.parent.insert x r } := by
  have hroot : Root d x r := .step hp hne h.root
  have hlt : d'.rankOf x < d'.rankOf r := by
    rw [h.rankOf_eq, h.rankOf_eq]
    exact Nat.lt_of_lt_of_le (hf.rank_lt hp hne) (h.root.rank_le hf)
  have hrx : r ≠ x := by
    rintro rfl
    exact Nat.lt_irrefl _ hlt
  have hx : x ∈ d.parent := by
    rw [← AList.lookup_isSome, hp]
    rfl
  have hr : r ∈ d'.parent := (h.mem r).mpr (.inl (h.root.mem hf (hf.closed hp)))
  refine ⟨hroot, h.forest.insert hr hlt, ?_, h.rankOf_eq, ?_⟩
  · exact h.sameRoots.trans (sameRoots_compress ((h.sameRoots x r).mpr hroot) hrx)
  · intro y
    rw [AList.mem_insert, h.mem]
    constructor
    · rintro (rfl | hy | rfl)
      · exact .inr rfl
      · exact .inl hy
      · exact .inl (hf.closed hp)
    · rintro (hy | rfl)
      · exact .inr (.inl hy)
      · exact .inl rfl

/-- The walk finds the root within the number of keys above it. -/
theorem findWithin_spec : ∀ {fuel : Nat} {d : UnionFind K} {x : K}, Forest d →
    (d.above x).card < fuel → ∃ r d', findWithin fuel x d = some (r, d') ∧ Finds d x r d' := by
  intro fuel
  induction fuel with
  | zero => exact fun _ h => absurd h (Nat.not_lt_zero _)
  | succ fuel ih =>
    intro d x hf hfuel
    rw [findWithin]
    cases hp : d.parent.lookup x with
    | none => exact ⟨x, _, rfl, finds_new hf hp⟩
    | some p =>
      by_cases hne : p = x
      · subst hne
        have hmem : p ∈ d.parent := hf.closed hp
        refine ⟨p, d, by simp, .top (by rw [hp]; rfl), hf, .refl d, fun _ => rfl, fun y => ?_⟩
        exact ⟨.inl, fun h => h.elim id fun he => he ▸ hmem⟩
      · have hlt := above_card_lt hf hp hne
        rcases ih (x := p) hf (by omega) with ⟨r, d', hrun, h⟩
        refine ⟨r, { d' with parent := d'.parent.insert x r }, ?_, h.compress hf hp hne⟩
        simp [hne, hrun]

/-- **`find` returns the root of a key.** -/
theorem find_spec {d : UnionFind K} (hf : Forest d) (x : K) :
    ∃ r d', find x d = some (r, d') ∧ Finds d x r d' :=
  findWithin_spec hf (Nat.lt_succ_of_le (d.above_card_le x))

/-- Every key has a root. -/
theorem Forest.exists_root {d : UnionFind K} (hf : Forest d) (x : K) : ∃ r, Root d x r := by
  rcases find_spec hf x with ⟨r, d', -, h⟩
  exact ⟨r, h.root⟩

/-! ## 4. Union -/

/-- The two keys have one root. -/
def Same (d : UnionFind K) (x y : K) : Prop := ∃ r, Root d x r ∧ Root d y r

theorem Same.symm {d : UnionFind K} {x y : K} (h : Same d x y) : Same d y x :=
  h.imp fun _ hr => ⟨hr.2, hr.1⟩

theorem Forest.same_refl {d : UnionFind K} (hf : Forest d) (x : K) : Same d x x :=
  (hf.exists_root x).imp fun _ hr => ⟨hr, hr⟩

theorem Same.trans {d : UnionFind K} {x y z : K} (h : Same d x y) (h' : Same d y z) :
    Same d x z := by
  rcases h with ⟨r, hx, hy⟩
  rcases h' with ⟨s, hy', hz⟩
  exact ⟨r, hx, (hy'.unique hy) ▸ hz⟩

theorem SameRoots.same_iff {d d' : UnionFind K} (h : SameRoots d d') {x y : K} :
    Same d' x y ↔ Same d x y :=
  exists_congr fun r => and_congr (h x r) (h y r)

/-- **A link**: the keys of the root `a` go to `b`. -/
theorem root_insert_iff {d : UnionFind K} {a b : K} (hb : Root d b b) (ha : Root d a a)
    (hne : a ≠ b) (rank : AList fun _ : K => Nat) {z s : K} :
    Root ⟨d.parent.insert a b, rank⟩ z s ↔ (Root d z a ∧ s = b) ∨ (Root d z s ∧ s ≠ a) := by
  have htop : Root ⟨d.parent.insert a b, rank⟩ b b := by
    refine .top ?_
    rw [AList.lookup_insert_ne (Ne.symm hne)]
    exact hb.getD
  have hstep : Root ⟨d.parent.insert a b, rank⟩ a b :=
    .step (AList.lookup_insert _) (Ne.symm hne) htop
  constructor
  · intro h
    induction h with
    | @top z hz =>
      by_cases he : z = a
      · subst he
        rw [AList.lookup_insert, Option.getD_some] at hz
        exact absurd hz.symm hne
      · rw [AList.lookup_insert_ne he] at hz
        exact .inr ⟨.top hz, he⟩
    | @step z p s hp hpz _ ih =>
      by_cases he : z = a
      · subst he
        rw [AList.lookup_insert, Option.some.injEq] at hp
        subst hp
        rcases ih with ⟨hbz, -⟩ | ⟨hbs, -⟩
        · exact absurd (hb.unique hbz).symm hne
        · exact .inl ⟨ha, (hb.unique hbs).symm⟩
      · rw [AList.lookup_insert_ne he] at hp
        rcases ih with ⟨hpa, rfl⟩ | ⟨hps, hsa⟩
        · exact .inl ⟨.step hp hpz hpa, rfl⟩
        · exact .inr ⟨.step hp hpz hps, hsa⟩
  · have hup : ∀ {z s}, Root d z s → ∀ t, Root ⟨d.parent.insert a b, rank⟩ s t →
        (s = a → t = b) → (s ≠ a → t = s) → Root ⟨d.parent.insert a b, rank⟩ z t := by
      intro z s hz
      induction hz with
      | top _ => exact fun _ ht _ _ => ht
      | @step z p s hp hpz hs ih =>
        intro t ht h₁ h₂
        by_cases he : z = a
        · subst he
          have hsz : s = z := (ha.unique (.step hp hpz hs)).symm
          rw [h₁ hsz]
          exact hstep
        · refine .step ?_ hpz (ih t ht h₁ h₂)
          rw [AList.lookup_insert_ne he]
          exact hp
    rintro (⟨hz, rfl⟩ | ⟨hz, hsa⟩)
    · exact hup hz _ hstep (fun _ => rfl) fun h => absurd rfl h
    · refine hup hz s ?_ (fun h => absurd h hsa) fun _ => rfl
      refine .top ?_
      rw [AList.lookup_insert_ne hsa]
      exact hz.getD

/-- Two sets become one. -/
theorem same_insert_iff {d : UnionFind K} {a b : K} (hb : Root d b b) (ha : Root d a a)
    (hne : a ≠ b) (rank : AList fun _ : K => Nat) {z w : K} :
    Same ⟨d.parent.insert a b, rank⟩ z w ↔
      Same d z w ∨ (Root d z a ∧ Root d w b) ∨ (Root d z b ∧ Root d w a) := by
  simp only [Same, root_insert_iff hb ha hne]
  constructor
  · rintro ⟨s, ⟨hz, rfl⟩ | ⟨hz, hsa⟩, ⟨hw, he⟩ | ⟨hw, hsa'⟩⟩
    · exact .inl ⟨a, hz, hw⟩
    · exact .inr (.inl ⟨hz, hw⟩)
    · subst he
      exact .inr (.inr ⟨hz, hw⟩)
    · exact .inl ⟨s, hz, hw⟩
  · rintro (⟨s, hz, hw⟩ | ⟨hz, hw⟩ | ⟨hz, hw⟩)
    · by_cases he : s = a
      · subst he
        exact ⟨b, .inl ⟨hz, rfl⟩, .inl ⟨hw, rfl⟩⟩
      · exact ⟨s, .inr ⟨hz, he⟩, .inr ⟨hw, he⟩⟩
    · exact ⟨b, .inl ⟨hz, rfl⟩, .inr ⟨hw, Ne.symm hne⟩⟩
    · exact ⟨b, .inr ⟨hz, Ne.symm hne⟩, .inl ⟨hw, rfl⟩⟩

theorem rankOf_raise_self (d : UnionFind K) (x : K) (n : Nat) :
    rankOf { d with rank := d.rank.insert x n } x = n := by
  simp [rankOf]

theorem rankOf_raise_ne (d : UnionFind K) {x y : K} (n : Nat) (h : y ≠ x) :
    rankOf { d with rank := d.rank.insert x n } y = d.rankOf y := by
  simp [rankOf, AList.lookup_insert_ne h]

/-- A root may rise. -/
theorem Forest.raise {d : UnionFind K} (hf : Forest d) {x : K} (hx : Root d x x)
    (hm : x ∈ d.parent) : Forest { d with rank := d.rank.insert x (d.rankOf x + 1) } := by
  refine ⟨hf.closed, ?_, ?_⟩
  · intro y p hp hne
    have hlt := hf.rank_lt hp hne
    have hyx : y ≠ x := by
      rintro rfl
      have h := hx.getD
      rw [hp, Option.getD_some] at h
      exact hne h
    rw [rankOf_raise_ne d _ hyx]
    by_cases hpx : p = x
    · subst hpx
      rw [rankOf_raise_self]
      exact Nat.lt_succ_of_lt hlt
    · rw [rankOf_raise_ne d _ hpx]
      exact hlt
  · intro y hy
    have hyx : y ≠ x := by
      rintro rfl
      rw [← AList.lookup_isSome] at hm
      rw [hy] at hm
      exact nomatch hm
    rw [rankOf_raise_ne d _ hyx]
    exact hf.rank_new hy

theorem link_spec {d : UnionFind K} (hf : Forest d) {rx ry : K} (hx : Root d rx rx)
    (hy : Root d ry ry) (hrx : rx ∈ d.parent) (hry : ry ∈ d.parent) (hne : rx ≠ ry) :
    Forest (d.link rx ry) ∧ ∀ z w, Same (d.link rx ry) z w ↔
      Same d z w ∨ (Root d z rx ∧ Root d w ry) ∨ (Root d z ry ∧ Root d w rx) := by
  unfold link
  split_ifs with hlt hgt
  · exact ⟨hf.insert hry hlt, fun z w => same_insert_iff hy hx hne _⟩
  · refine ⟨hf.insert hrx hgt, fun z w => ?_⟩
    rw [same_insert_iff hx hy (Ne.symm hne)]
    exact or_congr_right or_comm
  · have hraise := hf.raise hx hrx
    have hrank : rankOf { d with rank := d.rank.insert rx (d.rankOf rx + 1) } ry <
        rankOf { d with rank := d.rank.insert rx (d.rankOf rx + 1) } rx := by
      rw [rankOf_raise_self, rankOf_raise_ne d _ (Ne.symm hne)]
      omega
    refine ⟨hraise.insert hrx hrank, fun z w => ?_⟩
    rw [same_insert_iff hx hy (Ne.symm hne)]
    exact or_congr_right or_comm

/-- **`union` joins the sets of its two keys.** -/
theorem union_spec {d : UnionFind K} (hf : Forest d) (x y : K) :
    ∃ d', union x y d = some d' ∧ Forest d' ∧ ∀ z w, Same d' z w ↔
      Same d z w ∨ (Same d z x ∧ Same d y w) ∨ (Same d z y ∧ Same d x w) := by
  rcases find_spec hf x with ⟨rx, d₁, hx, hfx⟩
  rcases find_spec hfx.forest y with ⟨ry, d₂, hy, hfy⟩
  have hsame : SameRoots d d₂ := hfx.sameRoots.trans hfy.sameRoots
  have hrootx : ∀ z, Root d z rx ↔ Same d z x := fun z =>
    ⟨fun h => ⟨rx, h, hfx.root⟩, fun ⟨r, hz, hr⟩ => (hr.unique hfx.root) ▸ hz⟩
  have hry : Root d y ry := (hfx.sameRoots y ry).mp hfy.root
  have hrooty : ∀ z, Root d z ry ↔ Same d z y := fun z =>
    ⟨fun h => ⟨ry, h, hry⟩, fun ⟨r, hz, hr⟩ => (hr.unique hry) ▸ hz⟩
  have hrun : union x y d = if rx = ry then some d₂ else some (d₂.link rx ry) := by
    rw [union, hx]
    simp only [Option.bind_eq_bind, Option.bind_some, hy]
  by_cases he : rx = ry
  · refine ⟨d₂, by rw [hrun, if_pos he], hfy.forest, fun z w => ?_⟩
    rw [hsame.same_iff]
    refine ⟨.inl, ?_⟩
    subst he
    rintro (h | ⟨hz, hw⟩ | ⟨hz, hw⟩)
    · exact h
    · exact ⟨rx, (hrootx z).mpr hz, (hrooty w).mpr hw.symm⟩
    · exact ⟨rx, (hrooty z).mpr hz, (hrootx w).mpr hw.symm⟩
  · have hmx : rx ∈ d₂.parent := by
      have hx₁ : x ∈ d₁.parent := (hfx.mem x).mpr (.inr rfl)
      exact (hfy.mem rx).mpr (.inl (((hfx.sameRoots x rx).mpr hfx.root).mem hfx.forest hx₁))
    have hmy : ry ∈ d₂.parent := by
      have hy₂ : y ∈ d₂.parent := (hfy.mem y).mpr (.inr rfl)
      exact ((hfy.sameRoots y ry).mpr hfy.root).mem hfy.forest hy₂
    have hlink := link_spec hfy.forest ((hsame rx rx).mpr hfx.root.self)
      ((hsame ry ry).mpr hry.self) hmx hmy he
    refine ⟨_, by rw [hrun, if_neg he], hlink.1, fun z w => ?_⟩
    rw [hlink.2, hsame.same_iff, hsame z rx, hsame w ry, hsame z ry, hsame w rx, hrootx, hrooty,
      hrooty, hrootx]
    exact or_congr_right (or_congr (and_congr_right fun _ => ⟨Same.symm, Same.symm⟩)
      (and_congr_right fun _ => ⟨Same.symm, Same.symm⟩))

theorem same_empty_iff {x y : K} : Same ({} : UnionFind K) x y ↔ x = y := by
  have hroot : ∀ z r, Root ({} : UnionFind K) z r ↔ r = z := by
    intro z r
    constructor
    · intro h
      cases h with
      | top _ => rfl
      | step hp _ _ =>
        rw [AList.lookup_empty] at hp
        exact nomatch hp
    · rintro rfl
      exact .top (by rw [AList.lookup_empty]; rfl)
  simp only [Same, hroot]
  constructor
  · rintro ⟨r, rfl, rfl⟩
    rfl
  · rintro rfl
    exact ⟨x, rfl, rfl⟩

theorem unionAll_append : ∀ (xs ys : List (K × K)) (d : UnionFind K),
    unionAll (xs ++ ys) d = (unionAll xs d).bind (unionAll ys) := by
  intro xs
  induction xs with
  | nil => exact fun _ _ => rfl
  | cons x xs ih =>
    intro ys d
    rw [List.cons_append, unionAll, unionAll]
    cases union x.1 x.2 d with
    | none => rfl
    | some d => exact ih ys d

/-- The pair that has been united, as a pair of the relation. -/
theorem eqvGen_cons_iff {d d₁ : UnionFind K} (hf : Forest d) {x y : K}
    (h : ∀ z w, Same d₁ z w ↔ Same d z w ∨ (Same d z x ∧ Same d y w) ∨ (Same d z y ∧ Same d x w))
    (pairs : List (K × K)) (z w : K) :
    Relation.EqvGen (fun a b => Same d₁ a b ∨ (a, b) ∈ pairs) z w ↔
      Relation.EqvGen (fun a b => Same d a b ∨ (a, b) ∈ (x, y) :: pairs) z w := by
  constructor
  · intro hg
    induction hg with
    | refl a => exact .refl a
    | symm a b _ ih => exact .symm _ _ ih
    | trans a b c _ _ ih₁ ih₂ => exact .trans _ _ _ ih₁ ih₂
    | rel a b hab =>
      have hp : Relation.EqvGen (fun a b => Same d a b ∨ (a, b) ∈ (x, y) :: pairs) x y :=
        .rel _ _ (.inr List.mem_cons_self)
      rcases hab with hab | hab
      · rcases (h a b).mp hab with hab | ⟨hax, hyb⟩ | ⟨hay, hxb⟩
        · exact .rel _ _ (.inl hab)
        · exact .trans _ _ _ (.rel _ _ (.inl hax)) (.trans _ _ _ hp (.rel _ _ (.inl hyb)))
        · exact .trans _ _ _ (.rel _ _ (.inl hay))
            (.trans _ _ _ (.symm _ _ hp) (.rel _ _ (.inl hxb)))
      · exact .rel _ _ (.inr (List.mem_cons_of_mem _ hab))
  · refine Relation.EqvGen.mono (fun a b hab => ?_) z w
    rcases hab with hab | hab
    · exact .inl ((h a b).mpr (.inl hab))
    · rcases List.mem_cons.mp hab with hab | hab
      · obtain ⟨rfl, rfl⟩ := Prod.mk.inj hab
        exact .inl ((h a b).mpr (.inr (.inl ⟨hf.same_refl a, hf.same_refl b⟩)))
      · exact .inr hab

/-- What a list of pairs adds to the sets there are. -/
theorem unionAll_spec : ∀ (pairs : List (K × K)) {d : UnionFind K}, Forest d →
    ∃ d', unionAll pairs d = some d' ∧ Forest d' ∧ ∀ z w, Same d' z w ↔
      Relation.EqvGen (fun a b => Same d a b ∨ (a, b) ∈ pairs) z w := by
  intro pairs
  induction pairs with
  | nil =>
    intro d hf
    refine ⟨d, rfl, hf, fun z w => ⟨fun h => .rel _ _ (.inl h), fun h => ?_⟩⟩
    induction h with
    | rel a b h => exact h.elim id fun h => nomatch h
    | refl a => exact hf.same_refl a
    | symm a b _ ih => exact ih.symm
    | trans a b c _ _ ih₁ ih₂ => exact ih₁.trans ih₂
  | cons p pairs ih =>
    intro d hf
    rcases union_spec hf p.1 p.2 with ⟨d₁, hrun, hf₁, hsame₁⟩
    rcases ih hf₁ with ⟨d', hrun', hf', hsame'⟩
    refine ⟨d', by rw [unionAll, hrun, Option.bind_some, hrun'], hf', fun z w => ?_⟩
    rw [hsame', eqvGen_cons_iff hf hsame₁]

/-- From the empty structure only the pairs count. -/
theorem eqvGen_empty_iff (pairs : List (K × K)) (z w : K) :
    Relation.EqvGen (fun a b => Same ({} : UnionFind K) a b ∨ (a, b) ∈ pairs) z w ↔
      Relation.EqvGen (fun a b => (a, b) ∈ pairs) z w := by
  constructor
  · intro h
    induction h with
    | rel a b h =>
      rcases h with h | h
      · rw [same_empty_iff] at h
        exact h ▸ .refl a
      · exact .rel _ _ h
    | refl a => exact .refl a
    | symm a b _ ih => exact .symm _ _ ih
    | trans a b c _ _ ih₁ ih₂ => exact .trans _ _ _ ih₁ ih₂
  · exact Relation.EqvGen.mono (fun a b h => Or.inr h) z w

/-- **The sets after any unions**: the connected components of the pairs. -/
theorem unionAll_same (pairs : List (K × K)) :
    ∃ d, unionAll pairs {} = some d ∧ Forest d ∧ ∀ z w, Same d z w ↔
      Relation.EqvGen (fun a b => (a, b) ∈ pairs) z w := by
  rcases unionAll_spec pairs forest_empty with ⟨d, hrun, hf, hsame⟩
  refine ⟨d, hrun, hf, fun z w => ?_⟩
  rw [hsame, eqvGen_empty_iff]

/-! ## 5. Ranks -/

section Sizes

open Classical

/-- The keys below a root. -/
noncomputable def tree (d : UnionFind K) (r : K) : Finset K :=
  d.parent.keys.toFinset.filter fun x => Root d x r

theorem mem_tree {d : UnionFind K} {x r : K} : x ∈ d.tree r ↔ x ∈ d.parent ∧ Root d x r := by
  rw [tree, Finset.mem_filter, List.mem_toFinset]
  exact Iff.rfl

/-- There are at least `2 ^ n` keys below a root of rank `n`. -/
def Sized (d : UnionFind K) : Prop :=
  ∀ r ∈ d.parent, Root d r r → 2 ^ d.rankOf r ≤ (d.tree r).card

theorem sized_empty : Sized ({} : UnionFind K) := fun _ h => absurd h (AList.notMem_empty _)

/-- A root whose rank is the same and whose tree has not lost a key. -/
theorem Sized.root {d d' : UnionFind K} (h : Sized d) {r : K} (hr : r ∈ d.parent)
    (hroot : Root d r r) (hrank : d'.rankOf r = d.rankOf r) (hsub : d.tree r ⊆ d'.tree r) :
    2 ^ d'.rankOf r ≤ (d'.tree r).card := by
  rw [hrank]
  exact Nat.le_trans (h r hr hroot) (Finset.card_le_card hsub)

/-- `find` adds at most a tree of one key. -/
theorem Finds.sized {d d' : UnionFind K} {x r : K} (hf : Forest d) (h : Finds d x r d')
    (hs : Sized d) : Sized d' := by
  intro s hmem hroot
  by_cases hd : s ∈ d.parent
  · refine hs.root hd ((h.sameRoots s s).mp hroot) (h.rankOf_eq s) fun y hy => ?_
    rw [mem_tree] at hy ⊢
    exact ⟨(h.mem y).mpr (.inl hy.1), (h.sameRoots y s).mpr hy.2⟩
  · have hnew : d.rankOf s = 0 := hf.rank_new (AList.lookup_eq_none.mpr hd)
    rw [h.rankOf_eq, hnew]
    exact Finset.card_pos.mpr ⟨s, mem_tree.mpr ⟨hmem, hroot⟩⟩

/-- The tree of `a` moves below `b`. -/
theorem Sized.insert {d : UnionFind K} (hs : Sized d) {a b : K} (hb : Root d b b)
    (ha : Root d a a) (hma : a ∈ d.parent) (hne : a ≠ b) :
    Sized { d with parent := d.parent.insert a b } := by
  intro s hmem hroot
  rcases (root_insert_iff hb ha hne d.rank).mp hroot with ⟨hsa, rfl⟩ | ⟨hss, hsa⟩
  · exact absurd (hsa.unique hb) hne
  have hd : s ∈ d.parent := ((AList.mem_insert _).mp hmem).elim (fun he => he ▸ hma) id
  refine hs.root hd hss rfl fun y hy => ?_
  rw [mem_tree] at hy ⊢
  exact ⟨(AList.mem_insert _).mpr (.inr hy.1),
    (root_insert_iff hb ha hne d.rank).mpr (.inr ⟨hy.2, hsa⟩)⟩

/-- Two trees of one rank make a tree of the next. -/
theorem Sized.merge {d : UnionFind K} (hs : Sized d) {a b : K} (hb : Root d b b)
    (ha : Root d a a) (hma : a ∈ d.parent) (hmb : b ∈ d.parent) (hne : a ≠ b)
    (hrank : d.rankOf a = d.rankOf b) :
    Sized ⟨d.parent.insert a b, d.rank.insert b (d.rankOf b + 1)⟩ := by
  intro s hmem hroot
  rcases (root_insert_iff hb ha hne _).mp hroot with ⟨hsa, rfl⟩ | ⟨hss, hsa⟩
  · exact absurd (hsa.unique hb) hne
  have hd : s ∈ d.parent := ((AList.mem_insert _).mp hmem).elim (fun he => he ▸ hma) id
  have hsub : d.tree s ⊆ tree ⟨d.parent.insert a b, d.rank.insert b (d.rankOf b + 1)⟩ s := by
    intro y hy
    rw [mem_tree] at hy ⊢
    exact ⟨(AList.mem_insert _).mpr (.inr hy.1),
      (root_insert_iff hb ha hne _).mpr (.inr ⟨hy.2, hsa⟩)⟩
  by_cases hsb : s = b
  · subst hsb
    have hmoved : d.tree a ⊆ tree ⟨d.parent.insert a s, d.rank.insert s (d.rankOf s + 1)⟩ s := by
      intro y hy
      rw [mem_tree] at hy ⊢
      exact ⟨(AList.mem_insert _).mpr (.inr hy.1),
        (root_insert_iff hb ha hne _).mpr (.inl ⟨hy.2, rfl⟩)⟩
    have hdisjoint : Disjoint (d.tree a) (d.tree s) := by
      refine Finset.disjoint_left.mpr fun y hya hys => ?_
      exact hne ((mem_tree.mp hya).2.unique (mem_tree.mp hys).2)
    have hsa' := hs a hma ha
    have hss' := hs s hd hss
    have hcard := Finset.card_le_card (Finset.union_subset hmoved hsub)
    rw [Finset.card_union_of_disjoint hdisjoint] at hcard
    have hnew : rankOf ⟨d.parent.insert a s, d.rank.insert s (d.rankOf s + 1)⟩ s =
        d.rankOf s + 1 := rankOf_raise_self d s _
    rw [hnew, Nat.pow_succ]
    rw [hrank] at hsa'
    omega
  · exact hs.root hd hss (rankOf_raise_ne d _ hsb) hsub

theorem Sized.link {d : UnionFind K} (hs : Sized d) {rx ry : K} (hx : Root d rx rx)
    (hy : Root d ry ry) (hrx : rx ∈ d.parent) (hry : ry ∈ d.parent) (hne : rx ≠ ry) :
    Sized (d.link rx ry) := by
  unfold UnionFind.link
  split_ifs with hlt hgt
  · exact hs.insert hy hx hrx hne
  · exact hs.insert hx hy hry (Ne.symm hne)
  · exact hs.merge hx hy hry hrx (Ne.symm hne) (by omega)

/-- **Ranks are logarithms**: the rank of a key is at most that of the number of keys. -/
theorem Sized.rank_le_card {d : UnionFind K} (hf : Forest d) (hs : Sized d) {x : K}
    (hx : x ∈ d.parent) : 2 ^ d.rankOf x ≤ d.parent.keys.length := by
  obtain ⟨r, hr⟩ := hf.exists_root x
  calc 2 ^ d.rankOf x
      ≤ 2 ^ d.rankOf r := Nat.pow_le_pow_right (by decide) (hr.rank_le hf)
    _ ≤ (d.tree r).card := hs r (hr.mem hf hx) hr.self
    _ ≤ d.parent.keys.toFinset.card := Finset.card_filter_le _ _
    _ ≤ d.parent.keys.length := List.toFinset_card_le _

end Sizes

end UnionFind
