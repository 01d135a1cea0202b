/-
# Running what a builder has laid out

`Lib/SsaBuilder.lean` says how a function grows; here it runs.  The finished function `F` holds
what the builder has laid out (`Final`), so from the place where the builder stands (`here`) the
machine runs the code that is appended, takes the branch that ends the block, and enters a block
by reading its PHI nodes.

The second half keeps the books on PHI nodes: `Traces` knows the predecessors of the blocks of a
construct that still wait for their PHI nodes, and says of the others that their PHI nodes follow
the verifier's rule.
-/
import JitFusion.Lib.SsaBuilder

namespace Ssa

variable {O K L V W E : Type}

namespace Builder

/-! ## 1. Where the builder stands -/

/-- The next position in the insertion block. -/
def pc (b : Builder O K L) : Nat :=
  match b.blocks[b.insertPoint]? with
  | some blk => blk.body.length
  | none => 0

/-- The machine at the end of the code in the insertion block. -/
def here (b : Builder O K L) (env : Env V) (w : W) : Config V W E := .at b.insertPoint b.pc env w

variable {b b₀ b₁ b' : Builder O K L} {F : Cfg O K L} {sem : Semantics O K V W E}

theorem pc_eq {blk : Block O K L} (h : b.blocks[b.insertPoint]? = some blk) :
    b.pc = blk.body.length := by
  rw [pc, h]

theorem isOpen_createBlock {j : Nat} (h : b.IsOpen j) (l : L) : (b.createBlock l).IsOpen j := by
  have hlt := lt_size_of_isOpen h
  exact (isOpen_congr (by rw [block_createBlock, if_neg (by omega)])).mpr h

@[simp] theorem here_createBlock (h : b.IsOpen b.insertPoint) (l : L) (env : Env V) (w : W) :
    ((b.createBlock l).here env w : Config V W E) = b.here env w := by
  have hlt := lt_size_of_isOpen h
  obtain ⟨blk, hb, -⟩ := h
  have hb' : (b.createBlock l).blocks[b.insertPoint]? = some blk := by
    rw [block_createBlock, if_neg (by omega), hb]
  rw [here, here, insertPoint_createBlock, pc_eq hb, pc_eq (b := b.createBlock l) hb']

/-! ## 2. Steps of the finished function -/

/-- **Appended code runs.** -/
theorem append_run (sem : Semantics O K V W E) {n : Nat} {inputs : Fin n → Operand K}
    {vals : Fin n → V} (x : Expr O K n) (hopen : b.IsOpen b.insertPoint)
    (hF : Final (b.append (x.code inputs b.fresh)) F) {env : Env V} (w : W)
    (hb : ∀ i, (inputs i).Below b.fresh)
    (hv : ∀ i, (inputs i).eval sem env = some (vals i)) :
    Simulates sem F (b.here env w) (x.eval sem vals) w fun v w' c =>
      ∃ env', c = (b.append (x.code inputs b.fresh)).here env' w' ∧
        AgreeBelow b.fresh env env' ∧
        (x.code inputs b.fresh).result.eval sem env' = some v := by
  obtain ⟨blk, hblk, -⟩ := hopen
  have happ : (b.append (x.code inputs b.fresh)).blocks[b.insertPoint]? =
      some { blk with body := blk.body ++ (x.code inputs b.fresh).instrs } := by
    unfold append
    rw [block_modifyInsert, if_pos rfl, hblk]
    rfl
  rcases hF.later _ _ happ with ⟨blk', hblk', hprefix, -⟩
  have hholds : HoldsAt F b.insertPoint b.pc (x.code inputs b.fresh).instrs := by
    refine ⟨blk', hblk', ?_⟩
    rcases hprefix with ⟨rest, hrest⟩
    refine ⟨rest, ?_⟩
    rw [← hrest, pc_eq hblk]
    simp
  refine (Expr.code_run x hb hv hholds).mono ?_
  rintro v w' c ⟨env', rfl, hagree, hres⟩
  refine ⟨env', ?_, hagree, hres⟩
  rw [here, insertPoint_append, pc_eq (b := b.append _) happ, pc_eq hblk, List.length_append]

/-- **The branch that ends a block is taken.** -/
theorem terminate_step {t : Term K} (hopen : b.IsOpen b.insertPoint)
    (hF : Later (b.terminate t).blocks F) (env : Env V) (w : W) :
    step sem F (b.here env w) = execTerm sem b.insertPoint env w t := by
  obtain ⟨blk, hblk, -⟩ := hopen
  have hterm : (b.terminate t).blocks[b.insertPoint]? = some { blk with term := some t } := by
    unfold terminate
    rw [block_modifyInsert, if_pos rfl, hblk]
    rfl
  rcases hF _ _ hterm with ⟨blk', hblk', -, heq⟩
  rw [heq (by simp)] at hblk'
  have hend : blk.body[b.pc]? = none := by
    rw [pc_eq hblk]
    exact List.getElem?_eq_none (Nat.le_refl _)
  simp only [here, step, hblk', Option.bind_some, hend]

/-- **A block is entered by reading its PHI nodes.** -/
theorem enter_step (sem : Semantics O K V W E) {l : L} {phis : List (Phi K)} {t : Option (Term K)}
    (hb : b.blocks[b.insertPoint]? = some ⟨l, phis, [], t⟩) (hF : Final b F) (source : Nat)
    (env : Env V) (w : W) :
    step sem F (.jump source b.insertPoint env w) =
      (phis.mapM (Phi.read sem env source)).map fun vs => b.here (env.setAll vs) w := by
  rcases hF.later _ _ hb with ⟨blk', hblk', -, -⟩
  have hphis := hF.phis _ _ hb hblk'
  have hpc : b.pc = 0 := pc_eq hb
  simp only [step, hblk', Option.bind_some, hphis, here, hpc]

/-! ## 3. PHI nodes and predecessors -/

/-- The PHI nodes of block `m` follow the verifier's rule. -/
def Sound (C : Cfg O K L) (m : Nat) : Prop :=
  ∀ blk, C[m]? = some blk → ∀ phi ∈ blk.phis, phi.Matches C m

theorem Stable.sound_iff {m : Nat} (h : Stable b b' m) :
    Sound b'.blocks m ↔ Sound b.blocks m := by
  have hmatch : ∀ phi : Phi K, phi.Matches b'.blocks m ↔ phi.Matches b.blocks m := fun phi =>
    and_congr_right fun _ => forall_congr' fun j => iff_congr Iff.rfl (h.preds j)
  have hhead := h.head
  unfold Sound
  cases hb : b.blocks[m]? with
  | none =>
    rw [hb, Option.map_none, Option.map_eq_none_iff] at hhead
    simp [hhead]
  | some blk =>
    rw [hb, Option.map_some, Option.map_eq_some_iff] at hhead
    rcases hhead with ⟨blk', hb', he⟩
    have hphis : blk'.phis = blk.phis := congrArg Prod.snd he
    simp [hb', hphis, hmatch]

/-- A block without PHI nodes. -/
def NoPhis (C : Cfg O K L) (m : Nat) : Prop := ∀ blk, C[m]? = some blk → blk.phis = []

theorem NoPhis.sound {C : Cfg O K L} {m : Nat} (h : NoPhis C m) : Sound C m := by
  intro blk hb phi hphi
  rw [h blk hb] at hphi
  exact nomatch hphi

theorem Stable.noPhis {m : Nat} (h : Stable b b' m) (hm : NoPhis b.blocks m) :
    NoPhis b'.blocks m := by
  intro blk' hb'
  have hhead := h.head
  rw [hb', Option.map_some] at hhead
  rcases Option.map_eq_some_iff.mp hhead.symm with ⟨blk, hb, he⟩
  exact (congrArg Prod.snd he).symm.trans (hm blk hb)

/-- PHI nodes are no branches. -/
theorem isPred_addPhis {phis : List (Phi K)} {fresh j m : Nat} :
    IsPred (b.modifyInsert (fun blk => { blk with phis := blk.phis ++ phis }) fresh).blocks j m ↔
      IsPred b.blocks j m := by
  unfold IsPred
  rw [block_modifyInsert]
  split
  · cases b.blocks[j]? with
    | none => simp
    | some blk => simp
  · rfl

/-- The first PHI nodes of a block are sound if each of them is. -/
theorem sound_addPhis {phis : List (Phi K)} {fresh : Nat} (hlt : b.insertPoint < b.size)
    (h : NoPhis b.blocks b.insertPoint) :
    Sound (b.modifyInsert (fun blk => { blk with phis := blk.phis ++ phis }) fresh).blocks
      b.insertPoint ↔ ∀ phi ∈ phis, phi.Matches b.blocks b.insertPoint := by
  have hmatch : ∀ phi : Phi K, phi.Matches (b.modifyInsert (fun blk =>
      { blk with phis := blk.phis ++ phis }) fresh).blocks b.insertPoint ↔
        phi.Matches b.blocks b.insertPoint := fun phi =>
    and_congr_right fun _ => forall_congr' fun j => iff_congr Iff.rfl isPred_addPhis
  have hb := List.getElem?_eq_getElem hlt
  have hblk : (b.modifyInsert (fun blk => { blk with phis := blk.phis ++ phis })
      fresh).blocks[b.insertPoint]? = some { b.blocks[b.insertPoint] with phis := phis } := by
    rw [block_modifyInsert, if_pos rfl, hb, Option.map_some, h _ hb, List.nil_append]
  constructor
  · intro hs phi hphi
    exact (hmatch phi).mp (hs _ hblk phi hphi)
  · intro hall blk hb' phi hphi
    obtain rfl := Option.some.inj (hblk.symm.trans hb')
    exact (hmatch phi).mpr (hall phi hphi)

/-- Branches go to blocks there are. -/
def Targets (b : Builder O K L) : Prop := ∀ j m, IsPred b.blocks j m → m < b.size

/-- **The books of a construct**: `T` lists the predecessors of its blocks that wait for PHI
nodes; of the others the PHI nodes are sound, if `good`. -/
structure Traces (b₀ b : Builder O K L) (T : Nat → Option (List Nat)) (good : Prop) : Prop where
  size : b₀.size ≤ b.size
  targets : b.Targets
  own : ∀ m l, T m = some l → b₀.size ≤ m ∧ m < b.size
  noPhis : ∀ m l, T m = some l → NoPhis b.blocks m
  preds : ∀ m l, T m = some l → l.Nodup ∧ ∀ j, IsPred b.blocks j m ↔ j ∈ l
  sound : good → ∀ m, b₀.size ≤ m → m < b.size → T m = none → Sound b.blocks m

namespace Traces

variable {T : Nat → Option (List Nat)} {good : Prop}

theorem refl (h : b.Targets) : Traces b b (fun _ => none) good where
  size := Nat.le_refl _
  targets := h
  own _ _ h := nomatch h
  noPhis _ _ h := nomatch h
  preds _ _ h := nomatch h
  sound _ m hm hlt := absurd hlt (by omega)

/-- A change that leaves the blocks alone. -/
theorem stable (h : Traces b₀ b T good) (hs : b'.size = b.size) (ht : b'.Targets)
    (hst : ∀ m, Stable b b' m) : Traces b₀ b' T good where
  size := hs ▸ h.size
  targets := ht
  own m l hm := hs ▸ h.own m l hm
  noPhis m l hm := (hst m).noPhis (h.noPhis m l hm)
  preds m l hm := ⟨(h.preds m l hm).1, fun j => ((hst m).preds j).trans ((h.preds m l hm).2 j)⟩
  sound hg m hm hlt hT := (hst m).sound_iff.mpr (h.sound hg m hm (hs ▸ hlt) hT)

theorem setInsertPoint (h : Traces b₀ b T good) (i : Nat) :
    Traces b₀ (b.setInsertPoint i) T good :=
  ⟨h.size, h.targets, h.own, h.noPhis, h.preds, h.sound⟩

theorem append {α : Type} (h : Traces b₀ b T good) (c : Expr.Code O K α) :
    Traces b₀ (b.append c) T good := by
  refine h.stable (size_append b c) (fun j m hp => ?_) fun m => .append c
  rw [size_append]
  exact h.targets j m ((Stable.append (m := m) c).preds j |>.mp hp)

theorem createBlock (h : Traces b₀ b T good) (l : L) :
    Traces b₀ (b.createBlock l) (Function.update T b.size (some [])) good := by
  have hlt : ∀ m, m < b.size → Stable b (b.createBlock l) m := fun m hm => .createBlock l hm
  have hpred : ∀ j m, IsPred (b.createBlock l).blocks j m ↔ IsPred b.blocks j m := by
    intro j m
    by_cases hj : j = b.size
    · subst hj
      refine ⟨fun hp => ?_, fun hp => absurd (lt_size_of_isPred hp) (Nat.lt_irrefl _)⟩
      rcases hp with ⟨blk, t, hb, ht, -⟩
      rw [block_createBlock, if_pos rfl] at hb
      cases hb
      exact nomatch ht
    · exact isPred_congr (by rw [block_createBlock, if_neg hj])
  refine ⟨?_, ?_, ?_, ?_, ?_, ?_⟩
  · rw [size_createBlock]
    exact Nat.le_succ_of_le h.size
  · intro j m hp
    rw [size_createBlock]
    exact Nat.lt_succ_of_lt (h.targets j m ((hpred j m).mp hp))
  · intro m l' hT
    rw [size_createBlock]
    by_cases hm : m = b.size
    · subst hm
      exact ⟨h.size, Nat.lt_succ_self _⟩
    · rw [Function.update_of_ne hm] at hT
      exact ⟨(h.own m l' hT).1, Nat.lt_succ_of_lt (h.own m l' hT).2⟩
  · intro m l' hT
    by_cases hm : m = b.size
    · subst hm
      intro blk hb
      rw [block_createBlock, if_pos rfl] at hb
      cases hb
      rfl
    · rw [Function.update_of_ne hm] at hT
      exact (hlt m (h.own m l' hT).2).noPhis (h.noPhis m l' hT)
  · intro m l' hT
    by_cases hm : m = b.size
    · subst hm
      rw [Function.update_self, Option.some.injEq] at hT
      subst hT
      refine ⟨List.nodup_nil, fun j => ?_⟩
      rw [hpred]
      exact ⟨fun hp => absurd (h.targets j _ hp) (Nat.lt_irrefl _), fun hj => nomatch hj⟩
    · rw [Function.update_of_ne hm] at hT
      exact ⟨(h.preds m l' hT).1, fun j => (hpred j m).trans ((h.preds m l' hT).2 j)⟩
  · intro hg m hm hlt' hT
    by_cases he : m = b.size
    · subst he
      rw [Function.update_self] at hT
      exact nomatch hT
    · rw [Function.update_of_ne he] at hT
      rw [size_createBlock] at hlt'
      have hlt'' : m < b.size := by omega
      exact (hlt m hlt'').sound_iff.mpr (h.sound hg m hm hlt'' hT)

/-- A sub-construct. -/
theorem child (h : Traces b₀ b T good) (hg : Grows b b₁) (hopen : b.IsOpen b.insertPoint)
    (ht : b₁.Targets) (hs : good → ∀ m, b.size ≤ m → m < b₁.size → Sound b₁.blocks m) :
    Traces b₀ b₁ T good := by
  have hlt : ∀ m, m < b.size → Stable b b₁ m := fun m hm => .grows hg hopen hm
  refine ⟨Nat.le_trans h.size hg.size, ht, ?_, ?_, ?_, ?_⟩
  · exact fun m l hT => ⟨(h.own m l hT).1, Nat.lt_of_lt_of_le (h.own m l hT).2 hg.size⟩
  · exact fun m l hT => (hlt m (h.own m l hT).2).noPhis (h.noPhis m l hT)
  · intro m l hT
    exact ⟨(h.preds m l hT).1, fun j =>
      ((hlt m (h.own m l hT).2).preds j).trans ((h.preds m l hT).2 j)⟩
  · intro hgood m hm hm₁ hT
    by_cases hb : m < b.size
    · exact (hlt m hb).sound_iff.mpr (h.sound hgood m hm hb hT)
    · exact hs hgood m (by omega) hm₁

/-- The insertion block becomes a predecessor of the targets of its branch. -/
theorem terminate (h : Traces b₀ b T good) {t : Term K} (hopen : b.IsOpen b.insertPoint)
    (ht : ∀ m ∈ t.targets, (T m).isSome) :
    Traces b₀ (b.terminate t)
      (fun m => (T m).map fun l => if m ∈ t.targets then b.insertPoint :: l else l) good := by
  have hpred : ∀ j m, IsPred (b.terminate t).blocks j m ↔
      IsPred b.blocks j m ∨ (j = b.insertPoint ∧ m ∈ t.targets) := fun j m =>
    isPred_terminate hopen
  have hnew : ∀ m l, T m = some l → b.insertPoint ∉ l := fun m l hT hmem =>
    not_isPred_of_isOpen hopen (((h.preds m l hT).2 _).mpr hmem)
  have hhead : ∀ m : Nat, ((b.terminate t).blocks[m]?).map (fun blk : Block O K L =>
      (blk.label, blk.phis)) = (b.blocks[m]?).map fun blk => (blk.label, blk.phis) := by
    intro m
    unfold Builder.terminate
    rw [block_modifyInsert]
    split
    · cases b.blocks[m]? <;> rfl
    · rfl
  refine ⟨?_, ?_, ?_, ?_, ?_, ?_⟩
  · rw [size_terminate]
    exact h.size
  · intro j m hp
    rw [size_terminate]
    rcases (hpred j m).mp hp with hp | ⟨-, hm⟩
    · exact h.targets j m hp
    · rcases Option.isSome_iff_exists.mp (ht m hm) with ⟨l, hT⟩
      exact (h.own m l hT).2
  · intro m l hT
    rw [size_terminate]
    rcases Option.map_eq_some_iff.mp hT with ⟨l', hT', -⟩
    exact h.own m l' hT'
  · intro m l hT blk hb
    rcases Option.map_eq_some_iff.mp hT with ⟨l', hT', -⟩
    have hm := hhead m
    rw [hb, Option.map_some] at hm
    rcases Option.map_eq_some_iff.mp hm.symm with ⟨blk', hb', he⟩
    exact (congrArg Prod.snd he).symm.trans (h.noPhis m l' hT' blk' hb')
  · intro m l hT
    rcases Option.map_eq_some_iff.mp hT with ⟨l', hT', rfl⟩
    have hpreds := h.preds m l' hT'
    by_cases hm : m ∈ t.targets
    · rw [if_pos hm]
      refine ⟨List.nodup_cons.mpr ⟨hnew m l' hT', hpreds.1⟩, fun j => ?_⟩
      rw [hpred, hpreds.2, List.mem_cons, or_comm]
      simp [hm]
    · rw [if_neg hm]
      refine ⟨hpreds.1, fun j => ?_⟩
      rw [hpred, hpreds.2]
      simp [hm]
  · intro hg m hm hlt hT
    rw [size_terminate] at hlt
    have hT' : T m = none := by simpa using hT
    have hnot : m ∉ t.targets := by
      intro hmem
      have h' := ht m hmem
      rw [hT'] at h'
      exact nomatch h'
    exact (Stable.terminate hopen hnot).sound_iff.mpr (h.sound hg m hm hlt hT')

/-- The PHI nodes of a block that waits for them, when their entries are its predecessors. -/
theorem finish (h : Traces b₀ b T good) {l : List Nat} (hT : T b.insertPoint = some l)
    {phis : List (Phi K)} {fresh : Nat}
    (hphis : good → ∀ phi ∈ phis, (phi.incoming.map Prod.snd).Perm l) :
    Traces b₀ (b.modifyInsert (fun blk => { blk with phis := blk.phis ++ phis }) fresh)
      (Function.update T b.insertPoint none) good := by
  have hne : ∀ m, m ≠ b.insertPoint → Stable b (b.modifyInsert
      (fun blk => { blk with phis := blk.phis ++ phis }) fresh) m := fun m hm =>
    .modifyInsert (.inl hm) fun _ => rfl
  refine ⟨?_, ?_, ?_, ?_, ?_, ?_⟩
  · rw [size_modifyInsert]
    exact h.size
  · intro j m hp
    rw [size_modifyInsert]
    exact h.targets j m (isPred_addPhis.mp hp)
  · intro m l' hT'
    rw [size_modifyInsert]
    by_cases hm : m = b.insertPoint
    · subst hm
      rw [Function.update_self] at hT'
      exact nomatch hT'
    · rw [Function.update_of_ne hm] at hT'
      exact h.own m l' hT'
  · intro m l' hT'
    by_cases hm : m = b.insertPoint
    · subst hm
      rw [Function.update_self] at hT'
      exact nomatch hT'
    · rw [Function.update_of_ne hm] at hT'
      exact (hne m hm).noPhis (h.noPhis m l' hT')
  · intro m l' hT'
    by_cases hm : m = b.insertPoint
    · subst hm
      rw [Function.update_self] at hT'
      exact nomatch hT'
    · rw [Function.update_of_ne hm] at hT'
      exact ⟨(h.preds m l' hT').1, fun j => isPred_addPhis.trans ((h.preds m l' hT').2 j)⟩
  · intro hg m hm hlt hT'
    rw [size_modifyInsert] at hlt
    by_cases he : m = b.insertPoint
    · subst he
      refine (sound_addPhis hlt (h.noPhis _ l hT)).mpr fun phi hphi => ?_
      have hperm := hphis hg phi hphi
      have hpreds := h.preds _ l hT
      refine ⟨hperm.nodup_iff.mpr hpreds.1, fun j => ?_⟩
      rw [hperm.mem_iff, hpreds.2]
    · rw [Function.update_of_ne he] at hT'
      exact (hne m he).sound_iff.mpr (h.sound hg m hm hlt hT')

/-- At the end every block of the construct is sound. -/
theorem all (h : Traces b₀ b T good) (hg : good) (m : Nat) (hm : b₀.size ≤ m) (hlt : m < b.size) :
    Sound b.blocks m := by
  cases hT : T m with
  | none => exact h.sound hg m hm hlt hT
  | some l => exact (h.noPhis m l hT).sound

end Traces

end Builder

end Ssa
